import RdkComponents.BaseWrapper

/-!
# What a heap of wrappers holds

Systems built only by `WrapWithReconfigurable` and changed only by `Reconfigure`,
from no wrapper at all. Every wrapper holds a driver: wrapping a wrapper returns it
instead of nesting, and `Reconfigure` copies the replacement's instance, not the
replacement. So every call and every `TryClose` reaches a driver.

`Reconfigure` closes the old instance before it installs the new one and never
compares them. A wrapper handed itself, or a fresh wrapper around its own instance,
closes that instance and keeps it. As long as every replacement brings an instance its
receiver neither holds nor has closed, no wrapper holds an instance it has closed.
-/

namespace WrapperOwnership

open GoValues BaseWrapper

/-- No wrapper holds nil or a wrapper, and every call and `TryClose` so far reached a driver. -/
structure DriversOnly (s : System) : Prop where
  held : ∀ p b, s.held p = some b → b.IsDriver
  reached : ∀ e ∈ s.trace, ∀ b, e.reaches = some b → b.IsDriver

theorem closeEvents_reach {r : Nat} {ctx : Context} {old : Base} (h : old.IsDriver)
    (err : Option String) : ∀ e ∈ closeEvents r ctx old err, ∀ b, e.reaches = some b → b.IsDriver := by
  cases err <;> simp [closeEvents, Event.reaches, h]

theorem DriversOnly.record {s : System} (inv : DriversOnly s) {es : List Event}
    (hes : ∀ e ∈ es, ∀ b, e.reaches = some b → b.IsDriver) : DriversOnly (s.record es) :=
  ⟨inv.held, fun e he => (List.mem_append.mp he).elim (inv.reached e) (hes e)⟩

theorem DriversOnly.setActual {s : System} (inv : DriversOnly s) (p : Nat) {b : Base}
    (hb : b.IsDriver) : DriversOnly (s.setActual p b) := by
  refine ⟨fun q c hq => ?_, inv.reached⟩
  rw [System.held_setActual] at hq
  split at hq
  · obtain ⟨_, -, rfl⟩ := Option.map_eq_some'.mp hq
    exact hb
  · exact inv.held q c hq

theorem wrap_drivers {s : System} (inv : DriversOnly s) (v : Value) :
    DriversOnly (wrapWithReconfigurable v s).1 := by
  rcases v with (_ | p | d) | ⟨t, i⟩ <;> simp only [wrapWithReconfigurable, Value.asBase] <;>
    try exact inv
  refine ⟨fun q b hq => ?_, inv.reached⟩
  rw [System.held_alloc] at hq
  split at hq
  · exact inv.held q b hq
  · split at hq <;> cases hq
    trivial

/-- Every operation keeps `DriversOnly`. -/
theorem exec_drivers (env : Env) {s : System} (inv : DriversOnly s) {op : Op}
    {x : System × Result} (h : exec env s op = some x) : DriversOnly x.1 := by
  cases op with
  | wrap v => cases h; exact wrap_drivers inv v
  | proxyFor r => obtain ⟨_, -, rfl⟩ := Option.map_eq_some'.mp h; exact inv
  | call r c =>
    obtain ⟨⟨s', reply⟩, hf, rfl⟩ := Option.map_eq_some'.mp h
    rw [invoke_eq_forward] at hf
    obtain ⟨t, ht, hx⟩ := Option.map_eq_some'.mp hf
    cases hx
    exact inv.record (by simpa [Event.reaches] using inv.held r t ht)
  | reconfigure r ctx n =>
    obtain ⟨⟨s', err⟩, hf, rfl⟩ := Option.map_eq_some'.mp h
    obtain ⟨old, hold⟩ := Option.isSome_iff_exists.mp (by
      cases hr : s.held r <;> simp_all [reconfigure] : (s.held r).isSome)
    by_cases wrapper : ∃ q, n = .base (.reconfigurable q)
    · obtain ⟨q, rfl⟩ := wrapper
      rw [reconfigure_of_wrapper hold] at hf
      obtain ⟨next, hnext, hx⟩ := Option.map_eq_some'.mp hf
      cases hx
      exact (inv.record (closeEvents_reach (inv.held r old hold) _)).setActual r
        (inv.held q next hnext)
    · push_neg at wrapper
      rw [reconfigure_of_mismatch hold ctx wrapper] at hf
      cases hf
      exact inv

theorem run_driversOnly {env : Env} {ops : List Op} {s : System} {rs : List Result}
    (h : run env ⟨[], []⟩ ops = some (s, rs)) : DriversOnly s :=
  runSteps_invariant DriversOnly (fun _ _ => True) (fun _ _ _ hs _ hx => exec_drivers env hs hx)
    ⟨[], []⟩ ops (s, rs) ⟨by simp [System.held], by simp⟩ (along_true _ _ _) h

theorem wrappers_hold_only_drivers (env : Env) (ops : List Op) (s : System)
    (rs : List Result) (h : run env ⟨[], []⟩ ops = some (s, rs)) :
    (∀ p b, s.held p = some b → b ≠ .nil ∧ ∀ q, b ≠ .reconfigurable q) ∧
      ∀ c ctx b err, Event.tryClose c ctx b err ∈ s.trace → ∃ d, b = .driver d := by
  have inv := run_driversOnly h
  refine ⟨fun p b hb => ?_, fun c ctx b err he => ?_⟩
  · have := inv.held p b hb
    cases b <;> simp_all [Base.IsDriver]
  · have := inv.reached _ he b rfl
    cases b <;> simp_all [Base.IsDriver]

theorem wrappers_hold_only_drivers_after_swap :
    run Env.quiet ⟨[], []⟩ [.wrap (.base (.driver (fakeBase 0))), .wrap (.base (.driver (fakeBase 1))),
        .wrap (.base (.reconfigurable 0)), .reconfigure 0 ⟨0⟩ (.base (.reconfigurable 1))] =
      some (⟨[⟨.driver (fakeBase 1)⟩, ⟨.driver (fakeBase 1)⟩], [.tryClose 0 ⟨0⟩ (.driver (fakeBase 0)) none]⟩,
        [.wrapped (some 0) none, .wrapped (some 1) none, .wrapped (some 0) none, .reconfigured none]) ∧
    (∀ p b, System.held ⟨[⟨.driver (fakeBase 1)⟩, ⟨.driver (fakeBase 1)⟩],
        [.tryClose 0 ⟨0⟩ (.driver (fakeBase 0)) none]⟩ p = some b → b ≠ .nil ∧ ∀ q, b ≠ .reconfigurable q) ∧
      ∀ c ctx b err, Event.tryClose c ctx b err ∈ [Event.tryClose 0 ⟨0⟩ (.driver (fakeBase 0)) none] →
        ∃ d, b = .driver d :=
  ⟨rfl, wrappers_hold_only_drivers Env.quiet [.wrap (.base (.driver (fakeBase 0))),
    .wrap (.base (.driver (fakeBase 1))), .wrap (.base (.reconfigurable 0)),
    .reconfigure 0 ⟨0⟩ (.base (.reconfigurable 1))] _
    [.wrapped (some 0) none, .wrapped (some 1) none, .wrapped (some 0) none, .reconfigured none] rfl⟩

/-- `Reconfigure(r, n)` with `n` a wrapper brings an instance that `r` neither holds nor
has handed to `TryClose`. -/
def FreshReplacement (s : System) : Op → Prop
  | .reconfigure r _ (.base (.reconfigurable q)) =>
    ∀ b, s.held q = some b → s.held r ≠ some b ∧ b ∉ closedBy r s.trace
  | _ => True

/-- No wrapper holds an instance it has closed, and only wrappers of the heap have closed
anything. -/
structure NoneHeldClosed (s : System) : Prop where
  held : ∀ r b, s.held r = some b → b ∉ closedBy r s.trace
  closers : ∀ r, s.wrappers.length ≤ r → closedBy r s.trace = []

theorem NoneHeldClosed.wrap {s : System} (inv : NoneHeldClosed s) (v : Value) :
    NoneHeldClosed (wrapWithReconfigurable v s).1 := by
  rcases v with (_ | p | d) | ⟨t, i⟩ <;> simp only [wrapWithReconfigurable, Value.asBase] <;>
    try exact inv
  refine ⟨fun q b hq => ?_, fun q hq => inv.closers q (by simp [System.alloc] at hq; omega)⟩
  rw [System.held_alloc] at hq
  split at hq
  · exact inv.held q b hq
  · split at hq <;> cases hq
    simp [inv.closers _ (Nat.le_refl _), *]

theorem NoneHeldClosed.call {s : System} (inv : NoneHeldClosed s) (t : Base) (c : Call)
    (reply : Reply) : NoneHeldClosed (s.record [.call t c reply]) :=
  ⟨by simpa using inv.held, by simpa using inv.closers⟩

/-- A fresh replacement keeps `NoneHeldClosed`: the old instance joins `r`'s closed log
and the new one is in neither. -/
theorem NoneHeldClosed.swap {s : System} (inv : NoneHeldClosed s) {r : Nat} {old next : Base}
    (hold : s.held r = some old)
    (fresh : s.held r ≠ some next ∧ next ∉ closedBy r s.trace) (ctx : Context)
    (err : Option String) :
    NoneHeldClosed ((s.record (closeEvents r ctx old err)).setActual r next) := by
  have hr : r < s.wrappers.length := by
    by_contra hge
    simp [System.held, List.getElem?_eq_none (Nat.le_of_not_lt hge)] at hold
  refine ⟨fun p b hp => ?_, fun p hp => ?_⟩
  · rw [System.held_setActual] at hp
    by_cases hpr : r = p
    · subst hpr
      simp only [if_true, System.held_record, hold, Option.map_some', Option.some.injEq] at hp
      subst hp
      have hne : next ≠ old := fun h => fresh.1 (h ▸ hold)
      simp [hne, fresh.2]
    · simp only [hpr, if_false, System.held_record] at hp
      simp [hpr, inv.held p b hp]
  · simp at hp
    simp [show r ≠ p by omega, inv.closers p hp]

/-- Every operation with a fresh replacement keeps `NoneHeldClosed`. -/
theorem exec_noneHeldClosed (env : Env) {s : System} (inv : NoneHeldClosed s) {op : Op}
    (fresh : FreshReplacement s op) {x : System × Result} (h : exec env s op = some x) :
    NoneHeldClosed x.1 := by
  cases op with
  | wrap v => cases h; exact inv.wrap v
  | proxyFor r => obtain ⟨_, -, rfl⟩ := Option.map_eq_some'.mp h; exact inv
  | call r c =>
    obtain ⟨⟨s', reply⟩, hf, rfl⟩ := Option.map_eq_some'.mp h
    rw [invoke_eq_forward] at hf
    obtain ⟨t, -, hx⟩ := Option.map_eq_some'.mp hf
    cases hx
    exact inv.call t c _
  | reconfigure r ctx n =>
    obtain ⟨⟨s', err⟩, hf, rfl⟩ := Option.map_eq_some'.mp h
    obtain ⟨old, hold⟩ := Option.isSome_iff_exists.mp (by
      cases hr : s.held r <;> simp_all [reconfigure] : (s.held r).isSome)
    by_cases wrapper : ∃ q, n = .base (.reconfigurable q)
    · obtain ⟨q, rfl⟩ := wrapper
      rw [reconfigure_of_wrapper hold] at hf
      obtain ⟨next, hnext, hx⟩ := Option.map_eq_some'.mp hf
      cases hx
      exact inv.swap hold (fresh next hnext) ctx _
    · push_neg at wrapper
      rw [reconfigure_of_mismatch hold ctx wrapper] at hf
      cases hf
      exact inv

theorem fresh_replacements_never_hold_closed (env : Env) (ops : List Op) (s : System)
    (rs : List Result) (fresh : Along (exec env) FreshReplacement ⟨[], []⟩ ops)
    (h : run env ⟨[], []⟩ ops = some (s, rs)) :
    ∀ r b, s.held r = some b → b ∉ closedBy r s.trace :=
  (runSteps_invariant NoneHeldClosed FreshReplacement
    (fun _ _ _ hs hf hx => exec_noneHeldClosed env hs hf hx) ⟨[], []⟩ ops (s, rs)
    ⟨by simp [System.held], by simp [closedBy]⟩ fresh h).held

theorem fresh_replacements_never_hold_closed_after_swap :
    Along (exec Env.quiet) FreshReplacement ⟨[], []⟩ [.wrap (.base (.driver (fakeBase 0))),
      .wrap (.base (.driver (fakeBase 1))), .reconfigure 0 ⟨0⟩ (.base (.reconfigurable 1))] ∧
    run Env.quiet ⟨[], []⟩ [.wrap (.base (.driver (fakeBase 0))), .wrap (.base (.driver (fakeBase 1))),
        .reconfigure 0 ⟨0⟩ (.base (.reconfigurable 1))] =
      some (⟨[⟨.driver (fakeBase 1)⟩, ⟨.driver (fakeBase 1)⟩], [.tryClose 0 ⟨0⟩ (.driver (fakeBase 0)) none]⟩,
        [.wrapped (some 0) none, .wrapped (some 1) none, .reconfigured none]) ∧
    ∀ r b, System.held ⟨[⟨.driver (fakeBase 1)⟩, ⟨.driver (fakeBase 1)⟩],
        [.tryClose 0 ⟨0⟩ (.driver (fakeBase 0)) none]⟩ r = some b →
      b ∉ closedBy r [.tryClose 0 ⟨0⟩ (.driver (fakeBase 0)) none] := by
  have fresh : Along (exec Env.quiet) FreshReplacement ⟨[], []⟩ [.wrap (.base (.driver (fakeBase 0))),
      .wrap (.base (.driver (fakeBase 1))), .reconfigure 0 ⟨0⟩ (.base (.reconfigurable 1))] := by
    refine along_cons trivial rfl <| along_cons trivial rfl <| along_cons ?_ rfl trivial
    rintro b ⟨⟩
    exact ⟨by decide, List.not_mem_nil _⟩
  exact ⟨fresh, rfl, fresh_replacements_never_hold_closed Env.quiet _ _ _ fresh rfl⟩

/-- Handed itself, a wrapper closes its instance and keeps holding it. -/
theorem self_reconfigure_holds_closed :
    ¬ ∀ (env : Env) (ops : List Op) (s : System) (rs : List Result),
      run env ⟨[], []⟩ ops = some (s, rs) → ∀ r b, s.held r = some b → b ∉ closedBy r s.trace := by
  intro claim
  exact claim Env.quiet [.wrap (.base (.driver (fakeBase 0))),
    .reconfigure 0 ⟨0⟩ (.base (.reconfigurable 0))]
    ⟨[⟨.driver (fakeBase 0)⟩], [.tryClose 0 ⟨0⟩ (.driver (fakeBase 0)) none]⟩
    [.wrapped (some 0) none, .reconfigured none] rfl 0 (.driver (fakeBase 0)) rfl (by decide)

end WrapperOwnership
