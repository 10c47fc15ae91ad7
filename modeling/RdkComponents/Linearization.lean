import RdkComponents.LockSteps

/-!
# Every interleaving is a serial run

A run of `LockSteps` commits each call at one step: `ProxyFor` at its read, a forwarding
method when its inner call returns, `Reconfigure` at a failed type check or at `TryClose`.
Replaying the committed calls in that order, each as one atomic step of the reference
cell with the answers the world gave, yields the wrapper's trace, its held instance
(with a pending swap done), and every result a goroutine returned. The read lock held from
dispatch to return is what makes the return a valid commit point for a call: the instance
it went to is still the held one.
-/

namespace Linearization

open GoValues BaseWrapper ReferenceCell LockSteps

/-- `ph` is on the path of a goroutine calling `op`, up to its swap. -/
def Runs (op : WrapperOp) : Phase → Prop
  | .idle op' => op' = op
  | .proxyQueued | .proxyLocked => op = .proxyFor
  | .callQueued c | .callLocked c | .inFlight c _ => op = .call c
  | .writeWaiting ctx n | .writeLocked ctx n => op = .reconfigure ctx n
  | .typeChecked ctx q => op = .reconfigure ctx (.base (.reconfigurable q))
  | .oldClosed q => ∃ ctx, op = .reconfigure ctx (.base (.reconfigurable q))
  | _ => True

/-- What a goroutine past its commit point returns. -/
def resultOf : Phase → Option Result
  | .readDone res | .writeDone res | .done res => some res
  | .oldClosed _ => some (.reconfigured none)
  | _ => none

/-- A goroutine keeps running the call it was started with. -/
theorem runs_of_moves {self : Nat} {others : Nat → Base} {sh sh' : Shared} {ph ph' : Phase}
    {mv : Move} (hmv : Moves self others sh ph mv sh' ph') {op : WrapperOp}
    (runs : Runs op ph) : Runs op ph' := by
  cases hmv <;> simp_all [Runs]

/-- Goroutine `i` is in a commit order, whose entries name their goroutine and result through
`goroutine` and `result`, exactly when it has committed (`res` is what it returns then). -/
def Placed {α : Type} (goroutine : α → Nat) (result : α → Result) (order : List α) (i : Nat) :
    Option Result → Prop
  | none => i ∉ order.map goroutine
  | some res => ∃ e ∈ order, goroutine e = i ∧ result e = res

theorem Placed.append {α : Type} {goroutine : α → Nat} {result : α → Result} {order : List α}
    {i : Nat} {res : Option Result} (h : Placed goroutine result order i res) {extra : List α}
    (fresh : ∀ e ∈ extra, goroutine e ≠ i) : Placed goroutine result (order ++ extra) i res := by
  cases res with
  | none =>
    simp only [Placed, List.map_append, List.mem_append, not_or, List.mem_map, not_exists,
      not_and] at h ⊢
    exact ⟨h, fresh⟩
  | some res =>
    obtain ⟨e, he, rest⟩ := h
    exact ⟨e, List.mem_append_left _ he, rest⟩

/-- Goroutine `i` runs `ops[i]`; it is in the commit order exactly when it has committed,
with the result it returns. -/
def ThreadOk (ops : List WrapperOp) (order : List (Nat × Answered × Result)) (i : Nat)
    (ph : Phase) : Prop :=
  (∃ op, ops[i]? = some op ∧ Runs op ph) ∧ Placed Prod.fst (·.2.2) order i (resultOf ph)

/-- `held` is the instance the wrapper holds once a swap past its `TryClose` is done. -/
def Committed (self : Nat) (others : Nat → Base) (m : Machine) (held : Base) : Prop :=
  (∀ j q : Nat, m.threads[j]? = some (Phase.oldClosed q) →
      held = replacement self others m.shared.actual q) ∧
    ((∀ j q : Nat, m.threads[j]? ≠ some (Phase.oldClosed q)) → held = m.shared.actual)

/-- The committed calls, replayed one at a time on the reference cell, give the trace, the
held instance and the results of the run. -/
structure SerialInv (self : Nat) (others : Nat → Base) (held₀ : Base) (trace₀ : List Event)
    (ops : List WrapperOp) (m : Machine) (order : List (Nat × Answered × Result)) : Prop where
  length : m.threads.length = ops.length
  replay : ∃ c, Cell.serial (fun q => some (others q)) self ⟨held₀, trace₀⟩
      (order.map fun e => e.2.1) = some (c, order.map fun e => e.2.2) ∧
    c.trace = m.shared.trace ∧ Committed self others m c.held
  nodup : (order.map Prod.fst).Nodup
  source : ∀ e ∈ order, ops[e.1]? = some e.2.1.op
  threads : ∀ i ph, m.threads[i]? = some ph → ThreadOk ops order i ph

theorem SerialInv.start (self : Nat) (others : Nat → Base) (held₀ : Base) (trace₀ : List Event)
    (ops : List WrapperOp) :
    SerialInv self others held₀ trace₀ ops (Machine.start held₀ trace₀ ops) [] := by
  refine ⟨by simp [Machine.start], ⟨⟨held₀, trace₀⟩, rfl, rfl, fun j q hj => ?_, fun _ => rfl⟩,
    List.nodup_nil, by simp, fun i ph hi => ?_⟩
  · simp [Machine.start] at hj
  · simp only [Machine.start, List.getElem?_map, Option.map_eq_some'] at hi
    obtain ⟨op, hop, rfl⟩ := hi
    exact ⟨⟨op, hop, rfl⟩, by simp [resultOf, Placed]⟩

section Invariant

variable {self : Nat} {others : Nat → Base} {held₀ : Base} {trace₀ : List Event}
  {ops : List WrapperOp} {order : List (Nat × Answered × Result)}

theorem ThreadOk.append {j : Nat} {ph : Phase} (h : ThreadOk ops order j ph)
    {extra : List (Nat × Answered × Result)} (fresh : ∀ e ∈ extra, e.1 ≠ j) :
    ThreadOk ops (order ++ extra) j ph :=
  ⟨h.1, h.2.append fresh⟩

theorem threads_set {l : List Phase} {i : Nat} {ph' : Phase}
    (extra : List (Nat × Answered × Result))
    (old : ∀ j ph, l[j]? = some ph → ThreadOk ops order j ph) (fresh : ∀ e ∈ extra, e.1 = i)
    (new : ThreadOk ops (order ++ extra) i ph') :
    ∀ j ph, (l.set i ph')[j]? = some ph → ThreadOk ops (order ++ extra) j ph := by
  intro j ph hj
  rcases getElem?_set_cases hj with ⟨rfl, rfl⟩ | ⟨hji, hj⟩
  · exact new
  · exact (old j ph hj).append fun e he => (fresh e he).symm ▸ hji.symm

/-- A step that neither swaps nor closes keeps `Committed`. -/
theorem Committed.set {m : Machine} {held : Base} (hc : Committed self others m held) {i : Nat}
    {ph ph' : Phase} (hi : m.threads[i]? = some ph) (notOld : ∀ q, ph ≠ .oldClosed q)
    (notOld' : ∀ q, ph' ≠ .oldClosed q) {sh' : Shared} (same : sh'.actual = m.shared.actual) :
    Committed self others ⟨sh', m.threads.set i ph'⟩ held := by
  refine ⟨fun j q hj => ?_, fun none => (hc.2 fun j q hj => ?_).trans same.symm⟩
  · rcases getElem?_set_cases hj with ⟨rfl, h⟩ | ⟨-, hj⟩
    · exact absurd h.symm (notOld' q)
    · exact same ▸ hc.1 j q hj
  · by_cases hji : j = i
    · subst hji
      exact notOld q (Option.some.inj (hi.symm.trans hj))
    · exact none j q (by rwa [List.getElem?_set_ne (Ne.symm hji)])

/-- With no goroutine between `TryClose` and the swap, the replayed cell holds `r.actual`. -/
theorem Committed.idle {m : Machine} {held : Base} (hc : Committed self others m held)
    (none : ∀ j q : Nat, m.threads[j]? ≠ some (Phase.oldClosed q)) : held = m.shared.actual :=
  hc.2 none

/-- A step that commits nothing and leaves the trace alone keeps the invariant, once the
replayed instance is accounted for. -/
theorem SerialInv.stay {m : Machine} (inv : SerialInv self others held₀ trace₀ ops m order)
    {i : Nat} {ph ph' : Phase} {sh' : Shared} {mv : Move} (hi : m.threads[i]? = some ph)
    (hmv : Moves self others m.shared ph mv sh' ph') (trace : sh'.trace = m.shared.trace)
    (committed : ∀ held, Committed self others m held →
      Committed self others ⟨sh', m.threads.set i ph'⟩ held)
    (result : resultOf ph' = resultOf ph) :
    SerialInv self others held₀ trace₀ ops ⟨sh', m.threads.set i ph'⟩ order := by
  obtain ⟨length, ⟨c, hc, htrace, hheld⟩, nodup, source, threads⟩ := inv
  obtain ⟨⟨op, hop, runs⟩, placed⟩ := threads i ph hi
  refine ⟨by simpa using length, ⟨c, hc, htrace.trans trace.symm, committed _ hheld⟩, nodup,
    source, ?_⟩
  simpa using threads_set [] threads (by simp)
    (by simpa using (⟨⟨op, hop, runs_of_moves hmv runs⟩, result ▸ placed⟩ :
      ThreadOk ops order i ph'))

/-- A step that commits nothing and touches neither the held instance nor the trace. -/
theorem SerialInv.quiet {m : Machine} (inv : SerialInv self others held₀ trace₀ ops m order)
    {i : Nat} {ph ph' : Phase} {sh' : Shared} {mv : Move} (hi : m.threads[i]? = some ph)
    (hmv : Moves self others m.shared ph mv sh' ph') (none : commitOf self m.shared ph mv = none)
    (actual : sh'.actual = m.shared.actual) (trace : sh'.trace = m.shared.trace)
    (notOld : ∀ q, ph ≠ .oldClosed q) (notOld' : ∀ q, ph' ≠ .oldClosed q)
    (result : resultOf ph' = resultOf ph) :
    SerialInv self others held₀ trace₀ ops ⟨sh', m.threads.set i ph'⟩
      (order ++ ((commitOf self m.shared ph mv).map fun a => (i, a)).toList) := by
  simp only [none, Option.map_none', Option.toList, List.append_nil]
  exact inv.stay hi hmv trace (fun _ hc => hc.set hi notOld notOld' actual) result

/-- A step that commits goroutine `i`'s call `a` with result `res`: the replay takes one
more atomic step of the cell. -/
theorem SerialInv.commit {m : Machine} (inv : SerialInv self others held₀ trace₀ ops m order)
    {i : Nat} {ph ph' : Phase} {sh' : Shared} {a : Answered} {res : Result}
    (hi : m.threads[i]? = some ph) (before : resultOf ph = none)
    (runs : ∀ op, Runs op ph → op = a.op)
    (runs' : Runs a.op ph') (after : resultOf ph' = some res)
    (step : ∀ c : Cell, c.trace = m.shared.trace → Committed self others m c.held →
      ∃ c', c.apply (fun q => some (others q)) self a = some (c', res) ∧ c'.trace = sh'.trace ∧
        Committed self others ⟨sh', m.threads.set i ph'⟩ c'.held) :
    SerialInv self others held₀ trace₀ ops ⟨sh', m.threads.set i ph'⟩ (order ++ [(i, a, res)]) := by
  obtain ⟨length, ⟨c, hc, htrace, hheld⟩, nodup, source, threads⟩ := inv
  obtain ⟨⟨op, hop, hruns⟩, hpending⟩ := threads i ph hi
  simp only [before, Placed] at hpending
  obtain ⟨c', happly, htrace', hheld'⟩ := step c htrace hheld
  have hop' : ops[i]? = some a.op := runs op hruns ▸ hop
  refine ⟨by simpa using length, ⟨c', ?_, htrace', hheld'⟩, ?_, ?_, ?_⟩
  · simp only [Cell.serial] at hc ⊢
    simp [runSteps_snoc, hc, happly]
  · rw [List.map_append, List.Nodup, List.pairwise_append]
    refine ⟨nodup, by simp, fun j hj k hk => ?_⟩
    simp only [List.map_cons, List.map_nil, List.mem_singleton] at hk
    exact hk ▸ fun h => hpending (h ▸ hj)
  · intro e he
    rcases List.mem_append.mp he with he | he
    · exact source e he
    · simp only [List.mem_singleton] at he
      subst he
      exact hop'
  · refine threads_set [(i, a, res)] threads (by simp) ⟨⟨a.op, hop', runs'⟩, ?_⟩
    rw [after]
    exact ⟨_, List.mem_append_right _ (List.mem_singleton_self _), rfl, rfl⟩

/-- Every step keeps `SerialInv`, the commit it makes appended to the order. -/
theorem exec_serialInv {m m' : Machine} {t : Nat × Move} {out : Option (Nat × Answered × Result)}
    (lock : LockInv m) (inv : SerialInv self others held₀ trace₀ ops m order)
    (h : m.exec self others t = some (m', out)) :
    SerialInv self others held₀ trace₀ ops m' (order ++ out.toList) := by
  obtain ⟨i, mv⟩ := t
  obtain ⟨ph, sh', ph', hph, hmv, rfl, rfl⟩ := exec_cases h
  dsimp only at hph hmv ⊢
  have same : ∀ held, Committed self others m held → ∀ {ph' : Phase}, (∀ q, ph ≠ .oldClosed q) →
      (∀ q, ph' ≠ .oldClosed q) → ∀ {sh'' : Shared}, sh''.actual = m.shared.actual →
      Committed self others ⟨sh'', m.threads.set i ph'⟩ held :=
    fun _ hc _ old old' _ hs => hc.set hph old old' hs
  have moves := hmv
  cases moves
  case readProxy =>
    simp only [commitOf, Option.map_some', Option.toList]
    refine inv.commit hph rfl (fun _ h => h) trivial rfl fun c htrace hc => ?_
    have held := hc.idle (lock.no_pending hph (.inl rfl))
    exact ⟨c, by simp [Cell.apply, held], htrace, same _ hc (by simp) (by simp) rfl⟩
  case ret c t reply =>
    simp only [commitOf, Option.map_some', Option.toList]
    refine inv.commit hph rfl (fun _ h => h) trivial rfl fun cell htrace hc => ?_
    have held := hc.idle (lock.no_pending hph (.inl rfl))
    have target := lock.inFlight c t (List.getElem?_mem hph)
    refine ⟨⟨cell.held, cell.trace ++ [.call cell.held c reply]⟩, by simp [Cell.apply], ?_,
      same _ hc (by simp) (by simp) rfl⟩
    simp [htrace, held, target]
  case checkFail ctx n mismatch =>
    simp only [commitOf_mismatch mismatch, Option.map_some', Option.toList]
    refine inv.commit hph rfl (fun _ h => h) trivial rfl fun c htrace hc => ?_
    exact ⟨c, Cell.apply_mismatch _ _ _ ctx mismatch none, htrace,
      same _ hc (by simp) (by simp) rfl⟩
  case tryClose ctx q err answer =>
    simp only [commitOf, Option.map_some', Option.toList]
    refine inv.commit hph rfl (fun _ h => h) ⟨ctx, rfl⟩ rfl fun c htrace hc => ?_
    have none := lock.no_pending hph (.inr ⟨rfl, by simp⟩)
    have held := hc.idle none
    refine ⟨⟨replacement self others c.held q, c.trace ++ closeEvents self ctx c.held err⟩,
      by simp [Cell.apply, install_replacement], by simp [htrace, held], fun j q' hj => ?_,
      fun idle => absurd ?_ (idle i q)⟩
    · rcases getElem?_set_cases hj with ⟨rfl, hq⟩ | ⟨-, hj⟩
      · cases hq
        simp [held]
      · exact absurd hj (none j q')
    · exact List.getElem?_set_self (List.getElem?_eq_some_iff.mp hph).1
  case swap q =>
    simp only [commitOf, Option.map_none', Option.toList, List.append_nil]
    refine inv.stay hph hmv rfl (fun held hc => ⟨fun j q' hj => ?_, fun _ => hc.1 i q hph⟩) rfl
    rcases getElem?_set_cases hj with ⟨-, h'⟩ | ⟨hji, hj⟩
    · cases h'
    · exact absurd (lock.writer_unique hj hph rfl rfl) hji
  all_goals exact inv.quiet hph hmv rfl rfl rfl (by simp) (by simp) rfl

end Invariant

/-- What every state a run reaches guarantees. A call in flight went to the held instance.
While any goroutine holds the read lock, no goroutine stands at `TryClose` or at the swap, and
no step closes or swaps.
The calls committed so far, replayed in commit order as atomic steps of the reference cell,
give the run's trace, its held instance once a pending swap is done, and every result a
goroutine returned; each goroutine's call is committed at most once. -/
structure Serializable (self : Nat) (others : Nat → Base) (held₀ : Base) (trace₀ : List Event)
    (ops : List WrapperOp) (m : Machine) : Prop where
  target : ∀ (j : Nat) (c : Call) (t : Base), m.threads[j]? = some (.inFlight c t) →
    t = m.shared.actual
  reading : ∀ (j : Nat) (ph : Phase), m.threads[j]? = some ph → ph.holdsRead = true →
    (∀ (i : Nat) (ph' : Phase), m.threads[i]? = some ph' → ph'.closingOrSwapping = false) ∧
      ∀ turn m' out, m.exec self others turn = some (m', out) →
        m'.shared.actual = m.shared.actual ∧
          closedBy self m'.shared.trace = closedBy self m.shared.trace
  serial : ∃ (order : List (Nat × Answered × Result)) (c : Cell),
    Cell.serial (fun q => some (others q)) self ⟨held₀, trace₀⟩ (order.map fun e => e.2.1) =
        some (c, order.map fun e => e.2.2) ∧
      c.trace = m.shared.trace ∧ Committed self others m c.held ∧
      (order.map Prod.fst).Nodup ∧ (∀ e ∈ order, ops[e.1]? = some e.2.1.op) ∧
      ∀ (i : Nat) (res : Result), m.threads[i]? = some (.done res) → ∃ a, (i, a, res) ∈ order

theorem run_serialInv {self : Nat} {others : Nat → Base} {held₀ : Base} {trace₀ : List Event}
    {ops : List WrapperOp} {sched : List (Nat × Move)} {m : Machine}
    {outs : List (Option (Nat × Answered × Result))}
    (h : run self others (Machine.start held₀ trace₀ ops) sched = some (m, outs)) :
    LockInv m ∧ SerialInv self others held₀ trace₀ ops m (outs.filterMap id) := by
  simpa using runSteps_collect
    (fun m order => LockInv m ∧ SerialInv self others held₀ trace₀ ops m order)
    (fun _ _ _ _ inv hx => ⟨exec_lockInv inv.1 hx, exec_serialInv inv.1 inv.2 hx⟩) _ sched []
    (m, outs) ⟨LockInv.start held₀ trace₀ ops, SerialInv.start self others held₀ trace₀ ops⟩ h

theorem interleavings_are_serial (self : Nat) (others : Nat → Base) (held₀ : Base)
    (trace₀ : List Event) (ops : List WrapperOp) (sched : List (Nat × Move)) (m : Machine)
    (outs : List (Option (Nat × Answered × Result)))
    (h : run self others (Machine.start held₀ trace₀ ops) sched = some (m, outs)) :
    Serializable self others held₀ trace₀ ops m := by
  obtain ⟨lock, length, ⟨c, hc, htrace, hheld⟩, nodup, source, threads⟩ := run_serialInv h
  refine ⟨fun j c t hj => lock.inFlight c t (List.getElem?_mem hj),
    fun j ph hj reading => lock.reading_exclusive hj reading, _, c, hc, htrace, hheld, nodup,
    source, fun i res hi => ?_⟩
  obtain ⟨⟨j, a, res'⟩, he, rfl, rfl⟩ := (threads i _ hi).2
  exact ⟨a, he⟩

theorem interleavings_are_serial_after_swap :
    run 0 (fun _ => .driver (fakeBase 1)) (Machine.start (.driver (fakeBase 0)) []
        [.call (.stop ⟨0⟩), .reconfigure ⟨0⟩ (.base (.reconfigurable 1))])
        [(1, .go), (1, .go), (1, .go), (1, .close none), (1, .go), (1, .go), (0, .go),
          (0, .go)] =
      some (⟨⟨.driver (fakeBase 1), 1, false, 0, 0,
            [.tryClose 0 ⟨0⟩ (.driver (fakeBase 0)) none]⟩,
          [.inFlight (.stop ⟨0⟩) (.driver (fakeBase 1)), .done (.reconfigured none)]⟩,
        [none, none, none,
          some (1, .reconfigure ⟨0⟩ (.base (.reconfigurable 1)) none, .reconfigured none),
          none, none, none, none]) ∧
    Serializable 0 (fun _ => .driver (fakeBase 1)) (.driver (fakeBase 0)) []
      [.call (.stop ⟨0⟩), .reconfigure ⟨0⟩ (.base (.reconfigurable 1))]
      ⟨⟨.driver (fakeBase 1), 1, false, 0, 0, [.tryClose 0 ⟨0⟩ (.driver (fakeBase 0)) none]⟩,
        [.inFlight (.stop ⟨0⟩) (.driver (fakeBase 1)), .done (.reconfigured none)]⟩ :=
  ⟨rfl, interleavings_are_serial _ _ _ _ _
    [(1, .go), (1, .go), (1, .go), (1, .close none), (1, .go), (1, .go), (0, .go), (0, .go)] _ _
    rfl⟩

end Linearization
