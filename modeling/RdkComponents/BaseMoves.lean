import RdkComponents.WrapperOwnership

/-!
# `DoMove`

`base.DoMove`: a spin, then a straight move, each skipped when its amount is zero, and
the first error returned. The angle is compared with zero as a `float64`, so `-0` does not
spin and `NaN` does. The base may be a wrapper or a driver; through a wrapper of a
reachable heap `DoMove` makes the same driver calls and returns the same error as on the
instance the wrapper holds.

That holds in the atomic model of `BaseWrapper`, where nothing runs between the two calls.
Through a wrapper, `Spin` and `MoveStraight` each take `r.mu` on their own, so a
`Reconfigure` of the wrapper in another goroutine can swap its instance between them, and
the two calls then go to two drivers.
-/

namespace BaseMoves

open GoValues BaseWrapper WrapperOwnership

/-- `base.Move`: instructions to spin and then move straight. -/
structure Move where
  distanceMillis : Int
  millisPerSec : Float64
  angleDeg : Float64
  degsPerSec : Float64
  block : Bool
  deriving DecidableEq, Repr

/-- A method call on a `Base` value: a wrapper forwards, a driver answers, nil panics. -/
def callBase (env : Env) (b : Base) (c : Call) (s : System) : Option (System × Reply) :=
  match b with
  | .nil => none
  | .reconfigurable p => invoke env p c s
  | .driver d =>
    some (s.record [.call (.driver d) c (env.reply s.trace (.driver d) c)],
      env.reply s.trace (.driver d) c)

/-- One `if` of `DoMove`: nothing when `skip`, else the call and its error. -/
def guarded (env : Env) (base : Base) (skip : Bool) (c : Call) (s : System) :
    Option (System × Option String) :=
  if skip then some (s, none) else (callBase env base c s).map fun x => (x.1, x.2.error)

def doMove (env : Env) (ctx : Context) (move : Move) (base : Base) (s : System) :
    Option (System × Option String) :=
  (guarded env base move.angleDeg.isZero (.spin ctx move.angleDeg move.degsPerSec move.block) s).bind
    fun x => match x.2 with
    | some e => some (x.1, some e)
    | none => guarded env base (move.distanceMillis == 0)
        (.moveStraight ctx move.distanceMillis move.millisPerSec move.block) x.1

theorem callBase_wrapper {env : Env} {s : System} {p : Nat} {d : Driver}
    (h : s.held p = some (.driver d)) (c : Call) :
    callBase env (.reconfigurable p) c s = callBase env (.driver d) c s := by
  simp [callBase, invoke_eq_forward, forward_of_held h]

theorem guarded_wrapper {env : Env} {s : System} {p : Nat} {d : Driver}
    (h : s.held p = some (.driver d)) (skip : Bool) (c : Call) :
    guarded env (.reconfigurable p) skip c s = guarded env (.driver d) skip c s := by
  simp [guarded, callBase_wrapper h]

theorem held_guarded {env : Env} {s : System} {d : Driver} {skip : Bool} {c : Call}
    {x : System × Option String} (h : guarded env (.driver d) skip c s = some x) :
    x.1.held = s.held := by
  unfold guarded at h
  split at h
  · cases h; rfl
  · simp only [callBase, Option.map_some', Option.some.injEq] at h
    subst h
    rfl

/-- Through a wrapper that holds driver `d`, `DoMove` is `DoMove` on `d`. -/
theorem doMove_wrapper {env : Env} {s : System} {p : Nat} {d : Driver}
    (h : s.held p = some (.driver d)) (ctx : Context) (move : Move) :
    doMove env ctx move (.reconfigurable p) s = doMove env ctx move (.driver d) s := by
  unfold doMove
  rw [guarded_wrapper h]
  cases hx : guarded env (.driver d) move.angleDeg.isZero _ s with
  | none => rfl
  | some x =>
    have held : x.1.held p = some (.driver d) := (held_guarded hx) ▸ h
    simp only [Option.some_bind]
    split <;> simp [guarded_wrapper held]

theorem doMove_through_wrapper (env : Env) (ops : List Op) (s : System) (rs : List Result)
    (h : run env ⟨[], []⟩ ops = some (s, rs)) (p : Nat) (b : Base) (hp : s.held p = some b)
    (ctx : Context) (move : Move) :
    doMove env ctx move (.reconfigurable p) s = doMove env ctx move b s := by
  have driver := (run_driversOnly h).held p b hp
  cases b with
  | driver d => exact doMove_wrapper hp ctx move
  | _ => exact absurd driver id

theorem doMove_through_wrapper_after_wrap :
    run Env.quiet ⟨[], []⟩ [.wrap (.base (.driver (fakeBase 0)))] =
      some (⟨[⟨.driver (fakeBase 0)⟩], []⟩, [.wrapped (some 0) none]) ∧
    System.held ⟨[⟨.driver (fakeBase 0)⟩], []⟩ 0 = some (.driver (fakeBase 0)) ∧
    doMove Env.quiet ⟨0⟩ ⟨100, ⟨0⟩, ⟨0x4056800000000000⟩, ⟨0⟩, true⟩ (.reconfigurable 0)
        ⟨[⟨.driver (fakeBase 0)⟩], []⟩ =
      doMove Env.quiet ⟨0⟩ ⟨100, ⟨0⟩, ⟨0x4056800000000000⟩, ⟨0⟩, true⟩ (.driver (fakeBase 0))
        ⟨[⟨.driver (fakeBase 0)⟩], []⟩ :=
  ⟨rfl, rfl, doMove_through_wrapper Env.quiet [.wrap (.base (.driver (fakeBase 0)))]
    ⟨[⟨.driver (fakeBase 0)⟩], []⟩ [.wrapped (some 0) none] rfl 0 (.driver (fakeBase 0)) rfl ⟨0⟩
    ⟨100, ⟨0⟩, ⟨0x4056800000000000⟩, ⟨0⟩, true⟩⟩

end BaseMoves
