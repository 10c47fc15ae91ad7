import RdkComponents.GoValues

/-!
# The reconfigurable base wrapper

`reconfigurableBase` of `component/base`: `ProxyFor`, the five forwarding methods,
`Reconfigure` and `WrapWithReconfigurable`, over a heap of wrapper objects. A
`*reconfigurableBase` is the index of its object and allocation appends. Each
operation here runs as one atomic step; `r.mu` and the interleavings it allows are
modelled in `LockSteps`. A call on a nil or wrapper target is left to `Env` like any
other; `WrapperOwnership` shows that no reachable wrapper holds one.
-/

namespace BaseWrapper

open GoValues

structure ReconfigurableBase where
  actual : Base
  deriving DecidableEq, Repr

structure System where
  wrappers : List ReconfigurableBase
  trace : List Event
  deriving DecidableEq, Repr

namespace System

/-- What wrapper `p` holds, if `p` is a wrapper of the heap. -/
def held (s : System) (p : Nat) : Option Base := s.wrappers[p]?.map (·.actual)

def setActual (s : System) (p : Nat) (b : Base) : System :=
  { s with wrappers := s.wrappers.set p ⟨b⟩ }

/-- `&reconfigurableBase{actual: b}`: a new wrapper at the next index. -/
def alloc (s : System) (b : Base) : System :=
  { s with wrappers := s.wrappers ++ [⟨b⟩] }

def record (s : System) (es : List Event) : System :=
  { s with trace := s.trace ++ es }

@[simp] theorem held_record (s : System) (es : List Event) (p : Nat) :
    (s.record es).held p = s.held p := rfl

@[simp] theorem trace_record (s : System) (es : List Event) :
    (s.record es).trace = s.trace ++ es := rfl

@[simp] theorem wrappers_record (s : System) (es : List Event) :
    (s.record es).wrappers = s.wrappers := rfl

@[simp] theorem length_setActual (s : System) (p : Nat) (b : Base) :
    (s.setActual p b).wrappers.length = s.wrappers.length := by
  simp [setActual]

@[simp] theorem trace_setActual (s : System) (p : Nat) (b : Base) :
    (s.setActual p b).trace = s.trace := rfl

theorem held_setActual (s : System) (p q : Nat) (b : Base) :
    (s.setActual p b).held q = if p = q then (s.held q).map fun _ => b else s.held q := by
  by_cases h : p = q
  · subst h
    rcases Nat.lt_or_ge p s.wrappers.length with hl | hl <;>
      simp [held, setActual, List.getElem?_set, hl, List.getElem?_eq_none]
  · simp [held, setActual, h]

@[simp] theorem held_setActual_self {s : System} {p : Nat} {old : Base} (h : s.held p = some old)
    (b : Base) : (s.setActual p b).held p = some b := by
  simp [held_setActual, h]

theorem held_setActual_ne (s : System) {p q : Nat} (h : p ≠ q) (b : Base) :
    (s.setActual p b).held q = s.held q := by
  simp [held_setActual, h]

@[simp] theorem trace_alloc (s : System) (b : Base) : (s.alloc b).trace = s.trace := rfl

theorem held_alloc (s : System) (b : Base) (q : Nat) :
    (s.alloc b).held q =
      if q < s.wrappers.length then s.held q else if q = s.wrappers.length then some b else none := by
  simp only [held, alloc, List.getElem?_append]
  split
  · simp [List.getElem?_append_left, *]
  · rename_i hq
    rcases Nat.lt_or_ge s.wrappers.length q with hlt | hge
    · obtain ⟨k, hk⟩ : ∃ k, q - s.wrappers.length = k + 1 := ⟨q - s.wrappers.length - 1, by omega⟩
      simp [hk, Nat.ne_of_gt hlt]
    · simp [show q = s.wrappers.length by omega]

theorem record_record (s : System) (es fs : List Event) :
    (s.record es).record fs = s.record (es ++ fs) := by
  simp [record, List.append_assoc]

end System

/-- `ProxyFor`: the held instance, read under the read lock. -/
def proxyFor (r : Nat) (s : System) : Option Base := s.held r

/-- The body the five forwarding methods share: `return r.actual.M(ctx, args...)`. -/
def forward (env : Env) (r : Nat) (c : Call) (s : System) : Option (System × Reply) :=
  (s.held r).map fun target =>
    (s.record [.call target c (env.reply s.trace target c)], env.reply s.trace target c)

def moveStraight (env : Env) (r : Nat) (ctx : Context) (distanceMillis : Int)
    (millisPerSec : Float64) (block : Bool) : System → Option (System × Reply) :=
  forward env r (.moveStraight ctx distanceMillis millisPerSec block)

def moveArc (env : Env) (r : Nat) (ctx : Context) (distanceMillis : Int)
    (millisPerSec degsPerSec : Float64) (block : Bool) : System → Option (System × Reply) :=
  forward env r (.moveArc ctx distanceMillis millisPerSec degsPerSec block)

def spin (env : Env) (r : Nat) (ctx : Context) (angleDeg degsPerSec : Float64) (block : Bool) :
    System → Option (System × Reply) :=
  forward env r (.spin ctx angleDeg degsPerSec block)

def stop (env : Env) (r : Nat) (ctx : Context) : System → Option (System × Reply) :=
  forward env r (.stop ctx)

def widthGet (env : Env) (r : Nat) (ctx : Context) : System → Option (System × Reply) :=
  forward env r (.widthGet ctx)

/-- A method call on wrapper `r`, through the method of that name. -/
def invoke (env : Env) (r : Nat) : Call → System → Option (System × Reply)
  | .moveStraight ctx d v b => moveStraight env r ctx d v b
  | .moveArc ctx d v w b => moveArc env r ctx d v w b
  | .spin ctx a w b => spin env r ctx a w b
  | .stop ctx => stop env r ctx
  | .widthGet ctx => widthGet env r ctx

theorem invoke_eq_forward (env : Env) (r : Nat) (c : Call) : invoke env r c = forward env r c := by
  cases c <;> rfl

theorem forward_of_held {env : Env} {r : Nat} {s : System} {target : Base}
    (h : s.held r = some target) (c : Call) :
    forward env r c s = some (s.record [.call target c (env.reply s.trace target c)],
      env.reply s.trace target c) := by
  simp [forward, h]

/-- The error `Reconfigure` returns for a replacement of another type. -/
def reconfigureError (r : Nat) (newBase : Value) : String :=
  "expected new arm to be " ++ (Base.reconfigurable r).typeName ++ " but got " ++
    newBase.typeName

/-- `Reconfigure`: the type check, `TryClose` of the old instance with its failure
only logged, then `r.actual = actual.actual`. A replacement outside the heap stands for a
typed-nil `*reconfigurableBase`: Go passes the type check, hands `r.actual` to `TryClose`,
then panics at `actual.actual`; here the whole call is `none`, and that `TryClose` is not
recorded. -/
def reconfigure (env : Env) (r : Nat) (ctx : Context) (newBase : Value) (s : System) :
    Option (System × Option String) :=
  match s.held r, newBase with
  | none, _ => none
  | some old, .base (.reconfigurable q) =>
    let closed := s.record (closeEvents r ctx old (tryClose env s.trace ctx old))
    (closed.held q).map fun next => (closed.setActual r next, none)
  | some _, n => some (s, some (reconfigureError r n))

theorem reconfigure_of_wrapper {env : Env} {r : Nat} {s : System} {old : Base}
    (h : s.held r = some old) (ctx : Context) (q : Nat) :
    reconfigure env r ctx (.base (.reconfigurable q)) s = (s.held q).map fun next =>
      ((s.record (closeEvents r ctx old (tryClose env s.trace ctx old))).setActual r next,
        none) := by
  simp [reconfigure, h]

theorem reconfigure_of_mismatch {env : Env} {r : Nat} {s : System} {old : Base}
    (h : s.held r = some old) (ctx : Context) {n : Value}
    (mismatch : ∀ q, n ≠ .base (.reconfigurable q)) :
    reconfigure env r ctx n s = some (s, some (reconfigureError r n)) := by
  rcases n with (_ | _ | _) | _ <;> simp_all [reconfigure]

/-- `WrapWithReconfigurable`: a non-`Base` value is refused, a wrapper is returned as it
is, any other `Base` gets a new wrapper. Go's two results are the pair. -/
def wrapWithReconfigurable (r : Value) (s : System) : System × Option Nat × Option String :=
  match r.asBase with
  | none => (s, none, some ("expected resource to be Base but got " ++ r.typeName))
  | some (.reconfigurable p) => (s, some p, none)
  | some base => (s.alloc base, some s.wrappers.length, none)

inductive Op where
  | wrap (v : Value)
  | proxyFor (r : Nat)
  | call (r : Nat) (c : Call)
  | reconfigure (r : Nat) (ctx : Context) (newBase : Value)
  deriving DecidableEq, Repr

inductive Result where
  | wrapped (p : Option Nat) (err : Option String)
  | proxy (v : Base)
  | reply (r : Reply)
  | reconfigured (err : Option String)
  deriving DecidableEq, Repr

/-- One operation on the heap; `none` when it names no wrapper of the heap, which a Go
program cannot do. -/
def exec (env : Env) (s : System) : Op → Option (System × Result)
  | .wrap v => some ((wrapWithReconfigurable v s).1, .wrapped (wrapWithReconfigurable v s).2.1
      (wrapWithReconfigurable v s).2.2)
  | .proxyFor r => (proxyFor r s).map fun v => (s, .proxy v)
  | .call r c => (invoke env r c s).map fun x => (x.1, .reply x.2)
  | .reconfigure r ctx n => (reconfigure env r ctx n s).map fun x => (x.1, .reconfigured x.2)

def run (env : Env) : System → List Op → Option (System × List Result) :=
  runSteps (exec env)

end BaseWrapper
