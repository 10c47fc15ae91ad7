import RdkComponents.BaseWrapper

/-!
# The reference cell

What one wrapper is for: a cell that holds one instance. A method call goes to the
held instance with its own arguments and returns that instance's reply; `ProxyFor`
returns the instance; `Reconfigure` refuses anything but a `*reconfigurableBase` and
then changes nothing, or else hands the held instance to `TryClose` once, installs the
replacement's instance and returns nil whatever the close answered. Each operation
carries the outside world's answer to it (`Answered`), so the same cell gives the
atomic runs of `BaseWrapper` here and the serial runs of `Linearization`.
-/

namespace ReferenceCell

open GoValues BaseWrapper

/-- An operation on one wrapper. -/
inductive WrapperOp where
  | proxyFor
  | call (c : Call)
  | reconfigure (ctx : Context) (newBase : Value)
  deriving DecidableEq, Repr

def WrapperOp.on (r : Nat) : WrapperOp → Op
  | .proxyFor => .proxyFor r
  | .call c => .call r c
  | .reconfigure ctx n => .reconfigure r ctx n

/-- An operation together with the world's answer: the reply of the inner call, or what
`TryClose` returned. -/
inductive Answered where
  | proxyFor
  | call (c : Call) (reply : Reply)
  | reconfigure (ctx : Context) (newBase : Value) (closeErr : Option String)
  deriving DecidableEq, Repr

def Answered.op : Answered → WrapperOp
  | .proxyFor => .proxyFor
  | .call c _ => .call c
  | .reconfigure ctx n _ => .reconfigure ctx n

structure Cell where
  held : Base
  trace : List Event
  deriving DecidableEq, Repr

/-- The instance that replacement wrapper `q` holds; the cell's own when `q` is the cell. -/
def install (others : Nat → Option Base) (self : Nat) (held : Base) (q : Nat) : Option Base :=
  if q = self then some held else others q

namespace Cell

/-- One atomic operation on the cell of wrapper `self`; `others` is what every other
wrapper holds. -/
def apply (others : Nat → Option Base) (self : Nat) (c : Cell) : Answered → Option (Cell × Result)
  | .proxyFor => some (c, .proxy c.held)
  | .call m reply => some (⟨c.held, c.trace ++ [.call c.held m reply]⟩, .reply reply)
  | .reconfigure ctx (.base (.reconfigurable q)) err =>
    (install others self c.held q).map fun next =>
      (⟨next, c.trace ++ closeEvents self ctx c.held err⟩, .reconfigured none)
  | .reconfigure _ n _ => some (c, .reconfigured (some (reconfigureError self n)))

/-- The world's answer to `op` on cell `c`, as `env` gives it. -/
def answer (env : Env) (c : Cell) : WrapperOp → Answered
  | .proxyFor => .proxyFor
  | .call m => .call m (env.reply c.trace c.held m)
  | .reconfigure ctx n => .reconfigure ctx n (tryClose env c.trace ctx c.held)

def step (env : Env) (others : Nat → Option Base) (self : Nat) (c : Cell) (op : WrapperOp) :
    Option (Cell × Result) :=
  c.apply others self (c.answer env op)

def run (env : Env) (others : Nat → Option Base) (self : Nat) :
    Cell → List WrapperOp → Option (Cell × List Result) :=
  runSteps (step env others self)

/-- A serial run: the operations one after the other, each atomic, with given answers. -/
def serial (others : Nat → Option Base) (self : Nat) :
    Cell → List Answered → Option (Cell × List Result) :=
  runSteps (apply others self)

end Cell

/-- The heap `s` with wrapper `r` holding the cell's instance, and the cell's trace. -/
def embed (s : System) (r : Nat) (c : Cell) : System :=
  { wrappers := s.wrappers.set r ⟨c.held⟩, trace := c.trace }

@[simp] theorem trace_embed (s : System) (r : Nat) (c : Cell) : (embed s r c).trace = c.trace :=
  rfl

theorem held_embed_self {s : System} {r : Nat} (hr : r < s.wrappers.length) (c : Cell) :
    (embed s r c).held r = some c.held := by
  simp [embed, System.held, List.getElem?_set, hr]

theorem held_embed_install {s : System} {r : Nat} (hr : r < s.wrappers.length) (c : Cell)
    (q : Nat) : (embed s r c).held q = install s.held r c.held q := by
  by_cases hq : q = r
  · subst hq
    simp [install, held_embed_self hr]
  · simp [install, hq, embed, System.held, List.getElem?_set_ne (Ne.symm hq)]

theorem set_of_getElem? {α : Type} {l : List α} {i : Nat} {a : α} (h : l[i]? = some a) :
    l.set i a = l := by
  apply List.ext_getElem?
  intro j
  by_cases hj : i = j
  · subst hj
    simp [List.getElem?_set, h, (List.getElem?_eq_some_iff.mp h).1]
  · simp [List.getElem?_set_ne hj]

theorem embed_self {s : System} {r : Nat} {held : Base} (h : s.held r = some held) :
    embed s r ⟨held, s.trace⟩ = s := by
  obtain ⟨w, hw, rfl⟩ := Option.map_eq_some'.mp h
  simp [embed, set_of_getElem? hw]

theorem lt_of_held {s : System} {r : Nat} {held : Base} (h : s.held r = some held) :
    r < s.wrappers.length := by
  obtain ⟨w, hw, -⟩ := Option.map_eq_some'.mp h
  exact (List.getElem?_eq_some_iff.mp hw).1

theorem record_embed (s : System) (r : Nat) (c : Cell) (es : List Event) :
    (embed s r c).record es = embed s r ⟨c.held, c.trace ++ es⟩ := rfl

theorem setActual_embed (s : System) (r : Nat) (c : Cell) (b : Base) :
    (embed s r c).setActual r b = embed s r ⟨b, c.trace⟩ := by
  simp [embed, System.setActual]

theorem Cell.apply_mismatch (others : Nat → Option Base) (self : Nat) (c : Cell) (ctx : Context)
    {n : Value} (mismatch : ∀ q, n ≠ .base (.reconfigurable q)) (err : Option String) :
    c.apply others self (.reconfigure ctx n err) =
      some (c, .reconfigured (some (reconfigureError self n))) := by
  rcases n with (_ | _ | _) | _ <;> simp_all [Cell.apply]

/-- One operation of the code on wrapper `r` is one step of its reference cell, and
leaves every other wrapper alone. -/
theorem exec_embed (env : Env) {s : System} {r : Nat} (hr : r < s.wrappers.length) (c : Cell)
    (op : WrapperOp) :
    exec env (embed s r c) (op.on r) =
      (c.step env s.held r op).map fun x => (embed s r x.1, x.2) := by
  have self := held_embed_self hr c
  cases op with
  | proxyFor => simp [WrapperOp.on, exec, proxyFor, self, Cell.step, Cell.answer, Cell.apply]
  | call m =>
    simp [WrapperOp.on, exec, invoke_eq_forward, forward_of_held self, record_embed,
      Cell.step, Cell.answer, Cell.apply]
  | reconfigure ctx n =>
    by_cases wrapper : ∃ q, n = .base (.reconfigurable q)
    · obtain ⟨q, rfl⟩ := wrapper
      simp [WrapperOp.on, exec, reconfigure_of_wrapper self, held_embed_install hr, record_embed,
        setActual_embed, Cell.step, Cell.answer, Cell.apply]
      rfl
    · push_neg at wrapper
      simp [WrapperOp.on, exec, reconfigure_of_mismatch self ctx wrapper, Cell.step, Cell.answer,
        Cell.apply_mismatch _ _ _ ctx wrapper]

/-- Whole runs on wrapper `r` are runs of its reference cell. -/
theorem run_embed (env : Env) {s : System} {r : Nat} (hr : r < s.wrappers.length) (c : Cell)
    (ops : List WrapperOp) :
    run env (embed s r c) (ops.map (WrapperOp.on r)) =
      (Cell.run env s.held r c ops).map fun x => (embed s r x.1, x.2) :=
  runSteps_simulate (embed s r) (WrapperOp.on r) (exec_embed env hr) c ops

/-- What the wrapper returned by `WrapWithReconfigurable b` holds at first: `b` itself, or
the instance `b` holds when `b` is already a wrapper. -/
def wrappedInstance (s : System) (b : Value) : Option Base :=
  match b.asBase with
  | some (.reconfigurable p) => s.held p
  | base => base

theorem held_of_wrap {s : System} {b : Value} {s₁ : System} {r : Nat}
    (wrapped : wrapWithReconfigurable b s = (s₁, some r, none)) :
    s₁.held r = wrappedInstance s b := by
  rcases b with (_ | p | d) | ⟨t, i⟩ <;>
    simp [wrapWithReconfigurable, Value.asBase, wrappedInstance] at wrapped ⊢
  · obtain ⟨rfl, rfl⟩ := wrapped
    rfl
  · obtain ⟨rfl, rfl⟩ := wrapped
    simp [System.held_alloc]

theorem wrapped_base_matches_cell (env : Env) (s : System) (b : Value) (s₁ : System) (r : Nat)
    (wrapped : wrapWithReconfigurable b s = (s₁, some r, none)) (ops : List WrapperOp) :
    s₁.held r = wrappedInstance s b ∧
      ∀ held₀, s₁.held r = some held₀ →
        run env s₁ (ops.map (WrapperOp.on r)) =
          (Cell.run env s₁.held r ⟨held₀, s₁.trace⟩ ops).map fun x => (embed s₁ r x.1, x.2) := by
  refine ⟨held_of_wrap wrapped, fun held₀ h => ?_⟩
  calc run env s₁ (ops.map (WrapperOp.on r))
      = run env (embed s₁ r ⟨held₀, s₁.trace⟩) (ops.map (WrapperOp.on r)) := by
        rw [embed_self h]
    _ = _ := run_embed env (lt_of_held h) _ ops

theorem wrapped_base_matches_cell_once :
    wrapWithReconfigurable (.base (.driver (fakeBase 0))) ⟨[], []⟩ =
      (⟨[⟨.driver (fakeBase 0)⟩], []⟩, some 0, none) ∧
    run Env.quiet ⟨[⟨.driver (fakeBase 0)⟩], []⟩ [.proxyFor 0] =
      (Cell.run Env.quiet (System.held ⟨[⟨.driver (fakeBase 0)⟩], []⟩) 0
        ⟨.driver (fakeBase 0), []⟩ [.proxyFor]).map
        fun x => (embed ⟨[⟨.driver (fakeBase 0)⟩], []⟩ 0 x.1, x.2) :=
  ⟨rfl, (wrapped_base_matches_cell Env.quiet ⟨[], []⟩ (.base (.driver (fakeBase 0))) _ 0 rfl
    [.proxyFor]).2 _ rfl⟩

/-- Wrapping a wrapper returns it, and it forwards to what it holds, not to itself. -/
theorem wrapping_wrapper_starts_from_its_instance :
    ¬ ∀ (env : Env) (s : System) (b : Base) (s₁ : System) (r : Nat) (ops : List WrapperOp),
      wrapWithReconfigurable (.base b) s = (s₁, some r, none) →
        run env s₁ (ops.map (WrapperOp.on r)) =
          (Cell.run env s₁.held r ⟨b, s₁.trace⟩ ops).map fun x => (embed s₁ r x.1, x.2) := by
  intro claim
  have h := claim Env.quiet ⟨[⟨.driver (fakeBase 0)⟩], []⟩ (.reconfigurable 0)
    ⟨[⟨.driver (fakeBase 0)⟩], []⟩ 0 [.proxyFor] rfl
  exact absurd h (by decide)

end ReferenceCell
