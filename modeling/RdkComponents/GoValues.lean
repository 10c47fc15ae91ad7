import Mathlib.Data.List.Basic

/-!
# Go values seen by the base wrapper

The values that reach `component/base`: interface values of static type `Base`,
`interface{}` arguments of `WrapWithReconfigurable` and `Reconfigure`, the five
`Base` methods with their arguments, and what a method returns. A `float64` is
carried as its IEEE 754 bits and a Go `int` as an `Int`; the wrapper only passes
them on. Drivers are outside the core: what one answers is a parameter `Env`,
and every answer is recorded in an interaction trace.
-/

namespace GoValues

/-- A Go `float64`, kept as its IEEE 754 bit pattern. -/
structure Float64 where
  bits : UInt64
  deriving DecidableEq, Repr

/-- Go's `x != 0` fails exactly at `+0` and `-0`, the patterns with no bit but the sign. -/
def Float64.isZero (x : Float64) : Bool :=
  x.bits &&& 0x7FFFFFFFFFFFFFFF == 0

/-- A `context.Context`, known only by identity. -/
structure Context where
  id : Nat
  deriving DecidableEq, Repr

/-- A non-wrapper value whose dynamic type implements `Base`: a driver. -/
structure Driver where
  typeName : String
  id : Nat
  deriving DecidableEq, Repr

/-- A driver of the fake robot's type `*fake.Base`. -/
def fakeBase (id : Nat) : Driver := ⟨"*fake.Base", id⟩

/-- A value of the interface type `Base`. A `*reconfigurableBase` is the index of its
wrapper object. -/
inductive Base where
  | nil
  | reconfigurable (p : Nat)
  | driver (d : Driver)
  deriving DecidableEq, Repr

/-- A value of type `interface{}` (or `resource.Reconfigurable`): `.base .nil` is the nil
interface, `other` a value whose type does not implement `Base`. -/
inductive Value where
  | base (b : Base)
  | other (typeName : String) (id : Nat)
  deriving DecidableEq, Repr

/-- What `%T` prints. -/
def Base.typeName : Base → String
  | .nil => "<nil>"
  | .reconfigurable _ => "*base.reconfigurableBase"
  | .driver d => d.typeName

def Value.typeName : Value → String
  | .base b => b.typeName
  | .other t _ => t

/-- The type assertion `v.(Base)`: it fails on the nil interface. -/
def Value.asBase : Value → Option Base
  | .base .nil => none
  | .base b => some b
  | .other _ _ => none

def Base.IsDriver : Base → Prop
  | .driver _ => True
  | _ => False

instance : DecidablePred Base.IsDriver := fun b =>
  match b with
  | .nil => isFalse id
  | .reconfigurable _ => isFalse id
  | .driver _ => isTrue trivial

/-- One call of a `Base` method, with every argument it passes on. -/
inductive Call where
  | moveStraight (ctx : Context) (distanceMillis : Int) (millisPerSec : Float64) (block : Bool)
  | moveArc (ctx : Context) (distanceMillis : Int) (millisPerSec degsPerSec : Float64)
      (block : Bool)
  | spin (ctx : Context) (angleDeg degsPerSec : Float64) (block : Bool)
  | stop (ctx : Context)
  | widthGet (ctx : Context)
  deriving DecidableEq, Repr

/-- The return values of a `Base` method; `none` is a nil `error`. -/
inductive Reply where
  | err (e : Option String)
  | width (w : Int) (e : Option String)
  deriving DecidableEq, Repr

/-- The `error` a method returned. -/
def Reply.error : Reply → Option String
  | .err e => e
  | .width _ e => e

/-- One interaction with the world outside the wrapper, in the order it happens. -/
inductive Event where
  | call (target : Base) (c : Call) (reply : Reply)
  | tryClose (closer : Nat) (ctx : Context) (target : Base) (err : Option String)
  | logged (msg : String) (err : String)
  deriving DecidableEq, Repr

/-- The value an interaction reaches: the target of a call or of a `TryClose`. -/
def Event.reaches : Event → Option Base
  | .call target _ _ => some target
  | .tryClose _ _ target _ => some target
  | .logged _ _ => none

/-- The drivers: what a method call answers and what a `Close` returns, given everything
that happened before. -/
structure Env where
  reply : List Event → Base → Call → Reply
  close : List Event → Context → Driver → Option String

/-- Drivers that answer every call and every close with a nil error. -/
def Env.quiet : Env := ⟨fun _ _ _ => .err none, fun _ _ _ => none⟩

/-- `viamutils.TryClose`: only a value with a `Close` method is closed. Neither the nil
interface nor a `*reconfigurableBase` has one. -/
def tryClose (env : Env) (trace : List Event) (ctx : Context) : Base → Option String
  | .driver d => env.close trace ctx d
  | _ => none

/-- A `TryClose` answer that a value of this dynamic type can give. -/
def CloseAnswer (target : Base) (err : Option String) : Prop :=
  target.IsDriver ∨ err = none

instance (target : Base) (err : Option String) : Decidable (CloseAnswer target err) :=
  inferInstanceAs (Decidable (_ ∨ _))

theorem tryClose_answer (env : Env) (trace : List Event) (ctx : Context) (target : Base) :
    CloseAnswer target (tryClose env trace ctx target) := by
  cases target <;> simp [CloseAnswer, tryClose, Base.IsDriver]

/-- The events `Reconfigure` leaves when wrapper `closer` hands `old` to `TryClose`:
the call, then `rlog.Logger.Errorw("error closing old", "error", err)` if it failed. -/
def closeEvents (closer : Nat) (ctx : Context) (old : Base) : Option String → List Event
  | none => [.tryClose closer ctx old none]
  | some e => [.tryClose closer ctx old (some e), .logged "error closing old" e]

/-- The instances wrapper `r` has handed to `TryClose`, oldest first. -/
def closedBy (r : Nat) : List Event → List Base
  | [] => []
  | .tryClose c _ b _ :: rest => if c = r then b :: closedBy r rest else closedBy r rest
  | _ :: rest => closedBy r rest

@[simp] theorem closedBy_append (r : Nat) (xs ys : List Event) :
    closedBy r (xs ++ ys) = closedBy r xs ++ closedBy r ys := by
  induction xs with
  | nil => rfl
  | cons e xs ih =>
    cases e with
    | tryClose c _ b _ => by_cases h : c = r <;> simp [closedBy, h, ih]
    | _ => simp [closedBy, ih]

@[simp] theorem closedBy_closeEvents (r c : Nat) (ctx : Context) (old : Base)
    (err : Option String) :
    closedBy r (closeEvents c ctx old err) = if c = r then [old] else [] := by
  cases err <;> by_cases h : c = r <;> simp [closeEvents, closedBy, h]

@[simp] theorem closedBy_call (r : Nat) (t : Base) (c : Call) (reply : Reply) :
    closedBy r [.call t c reply] = [] := rfl

/-- A run of a partial step function over a list of inputs, collecting the outputs;
`none` once a step has none. -/
def runSteps {σ α β : Type} (step : σ → α → Option (σ × β)) : σ → List α → Option (σ × List β)
  | s, [] => some (s, [])
  | s, a :: as => (step s a).bind fun x => (runSteps step x.1 as).map fun y => (y.1, x.2 :: y.2)

/-- `P` holds of each input at the state it is applied in, along a run. -/
def Along {σ α β : Type} (step : σ → α → Option (σ × β)) (P : σ → α → Prop) :
    σ → List α → Prop
  | _, [] => True
  | s, a :: as => P s a ∧ ∀ x, step s a = some x → Along step P x.1 as

/-- `Along` built one step at a time, following the run. -/
theorem along_cons {σ α β : Type} {step : σ → α → Option (σ × β)} {P : σ → α → Prop} {s : σ}
    {a : α} {as : List α} (now : P s a) {x : σ × β} (hx : step s a = some x)
    (rest : Along step P x.1 as) : Along step P s (a :: as) :=
  ⟨now, fun _ hy => Option.some.inj (hx.symm.trans hy) ▸ rest⟩

theorem along_true {σ α β : Type} (step : σ → α → Option (σ × β)) :
    ∀ (s : σ) (as : List α), Along step (fun _ _ => True) s as
  | _, [] => trivial
  | _, _ :: as => ⟨trivial, fun x _ => along_true step x.1 as⟩

section Simulation

variable {σ τ α γ β : Type} {f : σ → α → Option (σ × β)} {g : τ → γ → Option (τ × β)}

/-- A step of `g` that `f` matches through `embed` on every input lifts to whole runs. -/
theorem runSteps_simulate (embed : τ → σ) (input : γ → α)
    (step : ∀ c a, f (embed c) (input a) = (g c a).map fun x => (embed x.1, x.2))
    (c : τ) (as : List γ) :
    runSteps f (embed c) (as.map input) = (runSteps g c as).map fun x => (embed x.1, x.2) := by
  induction as generalizing c with
  | nil => rfl
  | cons a as ih =>
    simp only [List.map_cons, runSteps, step]
    cases g c a with
    | none => rfl
    | some x => simp only [Option.map_some', Option.some_bind, ih, Option.map_map]; rfl

/-- An invariant that every step keeps, on the inputs `P` admits, holds at the end of
every run along which `P` held. -/
theorem runSteps_invariant (I : σ → Prop) (P : σ → α → Prop)
    (step : ∀ s a x, I s → P s a → f s a = some x → I x.1) :
    ∀ (s : σ) (as : List α) (y : σ × List β), I s → Along f P s as → runSteps f s as = some y →
      I y.1
  | s, [], y, hs, _, h => by cases h; exact hs
  | s, a :: as, y, hs, along, h => by
    obtain ⟨x, hx, hy⟩ := Option.bind_eq_some.mp h
    obtain ⟨z, hz, rfl⟩ := Option.map_eq_some'.mp hy
    exact runSteps_invariant I P step x.1 as z (step s a x hs along.1 hx) (along.2 x hx) hz

/-- An invariant of a state and the outputs so far that every step keeps holds at the end
of every run. -/
theorem runSteps_collect {γ : Type} {f : σ → α → Option (σ × Option γ)} (I : σ → List γ → Prop)
    (step : ∀ s acc a x, I s acc → f s a = some x → I x.1 (acc ++ x.2.toList)) :
    ∀ (s : σ) (as : List α) (acc : List γ) (y : σ × List (Option γ)), I s acc →
      runSteps f s as = some y → I y.1 (acc ++ y.2.filterMap id)
  | s, [], acc, y, hs, h => by cases h; simpa using hs
  | s, a :: as, acc, y, hs, h => by
    obtain ⟨x, hx, hy⟩ := Option.bind_eq_some.mp h
    obtain ⟨z, hz, rfl⟩ := Option.map_eq_some'.mp hy
    have rest := runSteps_collect I step x.1 as _ z (step s acc a x hs hx) hz
    cases out : x.2 <;> simpa [out] using rest

theorem runSteps_snoc (s : σ) (as : List α) (a : α) :
    runSteps f s (as ++ [a]) =
      (runSteps f s as).bind fun y => (f y.1 a).map fun z => (z.1, y.2 ++ [z.2]) := by
  induction as generalizing s with
  | nil => cases h : f s a <;> simp [runSteps, h]
  | cons b as ih =>
    rw [List.cons_append, runSteps, runSteps]
    cases f s b with
    | none => rfl
    | some x =>
      simp only [Option.some_bind, ih]
      cases runSteps f x.1 as with
      | none => rfl
      | some y =>
        simp only [Option.some_bind, Option.map_some']
        cases f y.1 a <;> rfl

end Simulation

end GoValues
