import RdkComponents.LockProgress

/-!
# Goroutines on a heap of wrappers

The program holds many `reconfigurableBase` objects, each with its own `r.mu`, and any
goroutine may call any of them. A goroutine's step on wrapper `r` is the step of
`LockSteps` on what `r` shares: its `actual`, its mutex and the trace. The one read across
wrappers is `Reconfigure(r, n)`'s `actual.actual`: it reads `n.actual` holding `r.mu` alone,
so nothing orders it with a write of `n.actual` by a `Reconfigure` on `n`, and Go's memory
model lets such a read return anything. Here it reads what `n` holds at the swap step. The
results of this module do not depend on the value read. Those of `HeapLinearization` that do
are stated for calls in which no goroutine's `Reconfigure` swaps `n` (`RaceFree`): each
goroutine makes one call and locks only its own wrapper, so any such pair races, whatever
the schedule.

Seen from one wrapper, the heap is the single-wrapper machine of `LockSteps`, whose
`others` are what the other wrappers hold at each step (`view`). So the lock invariant holds
for every wrapper at once. Since no method holds one mutex while it waits for another, some
goroutine can always move while one has not returned, writer preference included, and every
interleaving ends. Run one at a time, the goroutines perform exactly the atomic operations of
`BaseWrapper`.

The heap is fixed while the goroutines run: `WrapWithReconfigurable` takes no lock and is
modelled in `BaseWrapper`.
-/

namespace HeapSteps

open GoValues BaseWrapper ReferenceCell LockSteps LockProgress

/-- One wrapper object: `actual` and its own `mu`, as `LockSteps.Shared` has them. -/
structure Slot where
  actual : Base
  readers : Nat
  writer : Bool
  queued : Nat
  admitted : Nat
  deriving DecidableEq, Repr

/-- The heap of wrappers, the trace, and each goroutine with the wrapper it calls. -/
structure World where
  slots : List Slot
  trace : List Event
  threads : List (Nat × Phase)
  deriving DecidableEq, Repr

section Alone

variable {env : Env} {self : Nat} {others others' : Nat → Base}

/-- Whether a goroutine has returned from its method. -/
def returned : Phase → Bool
  | .done _ => true
  | _ => false

/-- The move of a goroutine at `ph` when the drivers answer as `env` says. -/
def envMove (env : Env) (sh : Shared) : Phase → Move
  | .inFlight c t => .answer (env.reply sh.trace t c)
  | .typeChecked ctx _ => .close (tryClose env sh.trace ctx sh.actual)
  | _ => .go

/-- A goroutine's steps on its wrapper while no other goroutine moves, the drivers answering
as `env` says, until it returns or `fuel` runs out. -/
def alone (env : Env) (self : Nat) (others : Nat → Base) :
    Nat → Shared → Phase → Option (Shared × Phase)
  | 0, sh, ph => some (sh, ph)
  | fuel + 1, sh, ph =>
    if returned ph then some (sh, ph)
    else (advance self others sh ph (envMove env sh ph)).bind fun x =>
      alone env self others fuel x.1 x.2

/-- Called alone on a wrapper whose mutex no goroutine holds or waits for, every method is
one atomic step of the reference cell, and leaves the mutex so; only the count of sleeping
readers that an `Unlock` lets in changes. -/
theorem alone_idle (env : Env) (self : Nat) (others : Nat → Base) (held : Base)
    (trace : List Event) (queued admitted : Nat) (op : WrapperOp) :
    ∃ queued' admitted', alone env self others 6 ⟨held, 0, false, queued, admitted, trace⟩
        (.idle op) =
      (Cell.step env (fun q => some (others q)) self ⟨held, trace⟩ op).map fun x =>
        (⟨x.1.held, 0, false, queued', admitted', x.1.trace⟩, .done x.2) := by
  cases op with
  | proxyFor => exact ⟨queued, admitted, rfl⟩
  | call c => exact ⟨queued, admitted, rfl⟩
  | reconfigure ctx n =>
    refine ⟨0, admitted + queued, ?_⟩
    -- `Lock` finds no reader inside, however many the mutex counts asleep: `0 ≤ queued`
    -- computes once `queued` is a numeral or a successor
    rcases n with (_ | q | _) | _
    case base.reconfigurable =>
      -- `TryClose`'s answer is decided by the type of `held`; the swap is `install`'s
      cases queued <;> cases held <;> simp only [Cell.step, Cell.answer, Cell.apply,
        install_replacement, Option.map_some'] <;> rfl
    all_goals cases queued <;> rfl

/-- Only the swap reads the other wrappers, and only when the replacement is another one. -/
theorem advance_congr (agree : ∀ q, q ≠ self → others q = others' q) (sh : Shared) (ph : Phase)
    (mv : Move) : advance self others sh ph mv = advance self others' sh ph mv := by
  cases ph with
  | idle op => cases op <;> cases mv <;> rfl
  | writeLocked ctx n => rcases n with (_ | _ | _) | _ <;> cases mv <;> rfl
  | oldClosed q =>
    cases mv
    case go =>
      have same : replacement self others sh.actual q = replacement self others' sh.actual q := by
        by_cases hq : q = self <;> simp [replacement, hq, agree]
      exact congrArg (fun b => some ({ sh with actual := b }, Phase.writeDone (.reconfigured none)))
        same
    all_goals rfl
  | _ => cases mv <;> rfl

theorem alone_congr (agree : ∀ q, q ≠ self → others q = others' q) :
    ∀ fuel sh ph, alone env self others fuel sh ph = alone env self others' fuel sh ph
  | 0, _, _ => rfl
  | fuel + 1, sh, ph => by simp only [alone, advance_congr agree, alone_congr agree fuel]

end Alone

namespace World

/-- What wrapper `q` holds. A Go pointer names a wrapper of the heap; `nil` stands in for
one outside it. -/
def actualOf (w : World) (q : Nat) : Base := ((w.slots[q]?).map (·.actual)).getD .nil

/-- A wrapper as the goroutines calling it share it. -/
def shared (w : World) (sl : Slot) : Shared :=
  ⟨sl.actual, sl.readers, sl.writer, sl.queued, sl.admitted, w.trace⟩

/-- The wrapper object that holds what the goroutines share. -/
def Slot.of (sh : Shared) : Slot := ⟨sh.actual, sh.readers, sh.writer, sh.queued, sh.admitted⟩

@[simp] theorem Slot.of_shared (w : World) (sl : Slot) : Slot.of (w.shared sl) = sl := rfl

@[simp] theorem shared_trace (w : World) (sl : Slot) : (w.shared sl).trace = w.trace := rfl

/-- The heap once goroutine `i` on wrapper `r` has moved to `x.2`, sharing `x.1`. -/
def after (w : World) (i r : Nat) (x : Shared × Phase) : World :=
  ⟨w.slots.set r (Slot.of x.1), x.1.trace, w.threads.set i (r, x.2)⟩

@[simp] theorem after_slots (w : World) (i r : Nat) (x : Shared × Phase) :
    (w.after i r x).slots = w.slots.set r (Slot.of x.1) := rfl

@[simp] theorem after_trace (w : World) (i r : Nat) (x : Shared × Phase) :
    (w.after i r x).trace = x.1.trace := rfl

@[simp] theorem after_threads (w : World) (i r : Nat) (x : Shared × Phase) :
    (w.after i r x).threads = w.threads.set i (r, x.2) := rfl

theorem actualOf_after (w : World) (i : Nat) {r q : Nat} (ne : q ≠ r) (x : Shared × Phase) :
    (w.after i r x).actualOf q = w.actualOf q := by
  simp [actualOf, List.getElem?_set_ne (Ne.symm ne)]

/-- Goroutine `t.1` takes its next step, on the wrapper it calls. -/
def exec (w : World) (t : Nat × Move) : Option World :=
  (w.threads[t.1]?).bind fun g => (w.slots[g.1]?).bind fun sl =>
    (advance g.1 w.actualOf (w.shared sl) g.2 t.2).map (w.after t.1 g.1)

/-- An interleaving of the goroutines' steps. -/
def run : World → List (Nat × Move) → Option World
  | w, [] => some w
  | w, t :: ts => (w.exec t).bind fun w' => run w' ts

/-- Wrapper `p` holds `held[p]` with its mutex free; goroutine `i` is about to make call
`calls[i].2` on wrapper `calls[i].1`. -/
def start (held : List Base) (trace : List Event) (calls : List (Nat × WrapperOp)) : World :=
  ⟨held.map fun b => ⟨b, 0, false, 0, 0⟩, trace, calls.map fun c => (c.1, .idle c.2)⟩

/-- Every goroutine calls a wrapper of the heap. -/
def Named (w : World) : Prop := ∀ g ∈ w.threads, g.1 < w.slots.length

/-- A goroutine of another wrapper, as wrapper `r` sees it: it never touches `r.mu`. -/
def away : Phase := .done (.proxy .nil)

/-- Wrapper `r` alone: what it shares, and its goroutines, the others `away`. -/
def view (w : World) (r : Nat) (sl : Slot) : Machine :=
  ⟨w.shared sl, w.threads.map fun g => if g.1 = r then g.2 else away⟩

/-- Every wrapper's mutex agrees with the goroutines calling it. -/
def Locks (w : World) : Prop := ∀ r sl, w.slots[r]? = some sl → LockInv (w.view r sl)

theorem exec_cases {w w' : World} {t : Nat × Move} (h : w.exec t = some w') :
    ∃ r ph sl x, w.threads[t.1]? = some (r, ph) ∧ w.slots[r]? = some sl ∧
      advance r w.actualOf (w.shared sl) ph t.2 = some x ∧ w' = w.after t.1 r x := by
  obtain ⟨⟨r, ph⟩, hg, h⟩ := Option.bind_eq_some.mp h
  obtain ⟨sl, hsl, h⟩ := Option.bind_eq_some.mp h
  obtain ⟨x, hx, rfl⟩ := Option.map_eq_some'.mp h
  exact ⟨r, ph, sl, x, hg, hsl, hx, rfl⟩

theorem exec_eq {w : World} {i r : Nat} {ph : Phase} {sl : Slot}
    (hi : w.threads[i]? = some (r, ph)) (hr : w.slots[r]? = some sl) (mv : Move) :
    w.exec (i, mv) = (advance r w.actualOf (w.shared sl) ph mv).map (w.after i r) := by
  simp [exec, hi, hr]

theorem exec_of_advance {w : World} {i r : Nat} {ph : Phase} {sl : Slot} {mv : Move}
    {x : Shared × Phase} (hi : w.threads[i]? = some (r, ph)) (hr : w.slots[r]? = some sl)
    (h : advance r w.actualOf (w.shared sl) ph mv = some x) :
    w.exec (i, mv) = some (w.after i r x) := by
  rw [exec_eq hi hr, h, Option.map_some']

theorem view_getElem? (w : World) (r : Nat) (sl : Slot) (i : Nat) :
    (w.view r sl).threads[i]? = (w.threads[i]?).map fun g => if g.1 = r then g.2 else away := by
  simp [view]

/-- The goroutine that steps moves its wrapper's view one step of `LockSteps`. -/
theorem view_exec {w w' : World} {i r : Nat} {ph : Phase} {sl : Slot} {mv : Move}
    (hi : w.threads[i]? = some (r, ph)) (hr : w.slots[r]? = some sl)
    (h : w.exec (i, mv) = some w') :
    ∃ sl' out, w'.slots[r]? = some sl' ∧
      (w.view r sl).exec r w.actualOf (i, mv) = some (w'.view r sl', out) := by
  obtain ⟨r', ph', sl'', x, hi', hr', hx, rfl⟩ := exec_cases h
  simp only [hi, Option.some.injEq, Prod.mk.injEq] at hi'
  obtain ⟨rfl, rfl⟩ := hi'
  obtain rfl : sl = sl'' := Option.some.inj (hr.symm.trans hr')
  have lt := (List.getElem?_eq_some_iff.mp hr).1
  refine ⟨Slot.of x.1, (commitOf r (w.shared sl) ph mv).map (i, ·),
    by simp [List.getElem?_set, lt], ?_⟩
  have mine : (w.view r sl).threads[i]? = some ph := by simp [view_getElem?, hi]
  simp only [Machine.exec, mine, Option.some_bind]
  rw [show (w.view r sl).shared = w.shared sl from rfl, hx]
  simp [view, shared, after, Slot.of, List.map_set]

/-- The other wrappers of the heap see only the trace grow. -/
theorem view_other {w w' : World} {t : Nat × Move} {r : Nat} {ph : Phase}
    (hi : w.threads[t.1]? = some (r, ph)) (h : w.exec t = some w') {r' : Nat} (ne : r' ≠ r) :
    w'.slots[r']? = w.slots[r']? ∧
      ∀ sl, w'.view r' sl = ⟨{ (w.view r' sl).shared with trace := w'.trace },
        (w.view r' sl).threads⟩ := by
  obtain ⟨r'', ph', sl, x, hi', -, -, rfl⟩ := exec_cases h
  simp only [hi, Option.some.injEq, Prod.mk.injEq] at hi'
  obtain ⟨rfl, rfl⟩ := hi'
  refine ⟨List.getElem?_set_ne (Ne.symm ne), fun sl' => ?_⟩
  simp only [after]
  have same : (w.threads.set t.1 (r, x.2)).map (fun g => if g.1 = r' then g.2 else away) =
      w.threads.map fun g => if g.1 = r' then g.2 else away := by
    simp only [List.map_set, Ne.symm ne, if_false]
    exact set_of_getElem? (by simp [hi, Ne.symm ne])
  simp [view, shared, same]

/-- `LockInv` never reads the trace. -/
theorem lockInv_retrace {sh : Shared} {ts : List Phase} (inv : LockInv ⟨sh, ts⟩)
    (trace : List Event) : LockInv ⟨{ sh with trace := trace }, ts⟩ :=
  ⟨inv.readers, inv.asleep, inv.writers, inv.heldBack, inv.exclusive, inv.inFlight⟩

/-- A free mutex, with every goroutine about to call or returned. -/
theorem lockInv_free {b : Base} {trace : List Event} {ts : List Phase}
    (outside : ∀ ph ∈ ts, (∃ op, ph = .idle op) ∨ ∃ res, ph = .done res) :
    LockInv ⟨⟨b, 0, false, 0, 0, trace⟩, ts⟩ := by
  have none : ∀ p : Phase → Bool, (∀ op, p (.idle op) = false) → (∀ res, p (.done res) = false) →
      ts.countP p = 0 := fun p hi hd => List.countP_eq_zero.mpr fun ph mem => by
    rcases outside ph mem with ⟨op, rfl⟩ | ⟨res, rfl⟩ <;> simp [hi, hd]
  refine ⟨?_, ?_, ?_, fun h => absurd h (Nat.lt_irrefl 0), fun _ => Nat.le_refl 0,
    fun c t mem => ?_⟩
  · rw [none _ (fun _ => rfl) fun _ => rfl, none _ (fun _ => rfl) fun _ => rfl]
  · rw [none _ (fun _ => rfl) fun _ => rfl]
    rfl
  · rw [none _ (fun _ => rfl) fun _ => rfl]
    rfl
  · rcases outside _ mem with ⟨op, h⟩ | ⟨res, h⟩ <;> cases h

theorem start_locks (held : List Base) (trace : List Event) (calls : List (Nat × WrapperOp)) :
    (start held trace calls).Locks := by
  intro r sl hr
  simp only [start, List.getElem?_map, Option.map_eq_some'] at hr
  obtain ⟨b, -, rfl⟩ := hr
  refine lockInv_free fun ph mem => ?_
  simp only [view, start, List.map_map, List.mem_map, Function.comp_apply] at mem
  obtain ⟨c, -, rfl⟩ := mem
  split
  · exact .inl ⟨_, rfl⟩
  · exact .inr ⟨_, rfl⟩

theorem exec_locks {w w' : World} {t : Nat × Move} (locks : w.Locks) (h : w.exec t = some w') :
    w'.Locks := by
  obtain ⟨i, mv⟩ := t
  obtain ⟨r, ph, sl, x, hi, hr, -, -⟩ := exec_cases h
  intro r' sl' hr'
  by_cases mine : r' = r
  · subst mine
    obtain ⟨sl'', out, hr'', hm⟩ := view_exec hi hr h
    obtain rfl : sl' = sl'' := Option.some.inj (hr'.symm.trans hr'')
    exact exec_lockInv (locks r' sl hr) hm
  · obtain ⟨slots, views⟩ := view_other hi h mine
    rw [views]
    exact lockInv_retrace (locks r' sl' (slots ▸ hr')) _

theorem start_named {held : List Base} {trace : List Event} {calls : List (Nat × WrapperOp)}
    (named : ∀ c ∈ calls, c.1 < held.length) : (start held trace calls).Named := by
  intro g mem
  simp only [start, List.mem_map] at mem
  obtain ⟨c, mem, rfl⟩ := mem
  simpa [start] using named c mem

theorem exec_named {w w' : World} {t : Nat × Move} (named : w.Named) (h : w.exec t = some w') :
    w'.Named := by
  obtain ⟨r, ph, sl, x, -, hr, -, rfl⟩ := exec_cases h
  intro g mem
  rcases List.mem_or_eq_of_mem_set mem with mem | rfl
  · simpa using named g mem
  · simpa using (List.getElem?_eq_some_iff.mp hr).1

/-- An invariant that every step keeps holds after every interleaving. -/
theorem run_invariant (I : World → Prop)
    (step : ∀ {w w' : World} {t : Nat × Move}, I w → w.exec t = some w' → I w') :
    ∀ {w w' : World} {ts : List (Nat × Move)}, I w → run w ts = some w' → I w'
  | _, _, [], hw, h => by cases h; exact hw
  | w, _, t :: ts, hw, h => by
    obtain ⟨w₁, h₁, h⟩ := Option.bind_eq_some.mp h
    exact run_invariant I step (step hw h₁) h

/-- Every wrapper's mutex agrees with its goroutines, and every goroutine calls a wrapper of
the heap. -/
structure Good (w : World) : Prop where
  locks : w.Locks
  named : w.Named

theorem run_good {held : List Base} {trace : List Event} {calls : List (Nat × WrapperOp)}
    {ts : List (Nat × Move)} {w : World} (named : ∀ c ∈ calls, c.1 < held.length)
    (h : (start held trace calls).run ts = some w) : w.Good :=
  run_invariant Good (fun hw h => ⟨exec_locks hw.locks h, exec_named hw.named h⟩)
    ⟨start_locks held trace calls, start_named named⟩ h

/-- While a goroutine has not returned, some goroutine can step: one that holds its
wrapper's mutex, or, when nobody holds it, that goroutine itself. No method holds one mutex
while it waits for another. -/
theorem Good.progress {w : World} (good : w.Good) {g : Nat × Phase} (mem : g ∈ w.threads)
    (busy : ∀ res, g.2 ≠ .done res) : ∃ t w', w.exec t = some w' := by
  obtain ⟨sl, hsl⟩ : ∃ sl, w.slots[g.1]? = some sl :=
    ⟨_, List.getElem?_eq_getElem (good.named g mem)⟩
  have mine : g.2 ∈ (w.view g.1 sl).threads := List.mem_map.mpr ⟨g, mem, if_pos rfl⟩
  obtain ⟨⟨j, mv⟩, y, hy⟩ := @lockInv_progress g.1 w.actualOf _ (good.locks _ _ hsl) _ mine busy
  obtain ⟨phj, hj, hy⟩ := Option.bind_eq_some.mp hy
  obtain ⟨x, hx, -⟩ := Option.map_eq_some'.mp hy
  rw [view_getElem?] at hj
  obtain ⟨gj, hgj, rfl⟩ := Option.map_eq_some'.mp hj
  by_cases mineJ : gj.1 = g.1
  · rw [if_pos mineJ] at hx
    exact ⟨(j, mv), _, exec_of_advance (by rw [hgj, ← mineJ]) hsl hx⟩
  · rw [if_neg mineJ] at hx
    cases mv <;> cases hx

theorem Good.slot {w : World} (good : w.Good) {i r : Nat} {ph : Phase}
    (hi : w.threads[i]? = some (r, ph)) : ∃ sl, w.slots[r]? = some sl :=
  ⟨_, List.getElem?_eq_getElem (good.named _ (List.getElem?_mem hi))⟩

theorem view_mine {w : World} {i r : Nat} {ph : Phase} (hi : w.threads[i]? = some (r, ph))
    (sl : Slot) : (w.view r sl).threads[i]? = some ph := by
  simp [view_getElem?, hi]

/-- On one wrapper, while a goroutine holds the write lock no other goroutine holds a lock. -/
theorem Good.write_exclusive {w : World} (good : w.Good) {i j r : Nat} {a b : Phase}
    (hi : w.threads[i]? = some (r, a)) (hj : w.threads[j]? = some (r, b))
    (writing : a.holdsWrite = true) : b.holdsRead = false ∧ (b.holdsWrite = true → i = j) := by
  obtain ⟨sl, hsl⟩ := good.slot hi
  have lock := good.locks r sl hsl
  refine ⟨?_, lock.writer_unique (view_mine hi sl) (view_mine hj sl) writing⟩
  cases reading : b.holdsRead
  · rfl
  · have := List.countP_eq_zero.mp (lock.no_writer (List.getElem?_mem (view_mine hj sl)) reading)
      a (List.getElem?_mem (view_mine hi sl))
    simp [writing] at this

/-- A step on wrapper `self` closes nothing on behalf of another wrapper. -/
theorem closedBy_moves {self : Nat} {others : Nat → Base} {sh sh' : Shared} {ph ph' : Phase}
    {mv : Move} (hmv : Moves self others sh ph mv sh' ph') {r : Nat} (ne : self ≠ r) :
    closedBy r sh'.trace = closedBy r sh.trace := by
  cases hmv <;> simp [ne]

/-- A call in flight went to the instance its wrapper holds, and no step of any goroutine
replaces that instance or makes that wrapper close anything before the call returns. -/
theorem Good.inFlight {w : World} (good : w.Good) {i r : Nat} {c : Call} {t : Base}
    (hi : w.threads[i]? = some (r, .inFlight c t)) :
    w.actualOf r = t ∧ ∀ u w', w.exec u = some w' →
      w'.actualOf r = w.actualOf r ∧ closedBy r w'.trace = closedBy r w.trace := by
  obtain ⟨sl, hsl⟩ := good.slot hi
  have lock := good.locks r sl hsl
  have held : w.actualOf r = sl.actual := by simp [actualOf, hsl]
  refine ⟨held.trans (lock.inFlight c t (List.getElem?_mem (view_mine hi sl))).symm,
    fun ⟨k, mv⟩ w' h => ?_⟩
  obtain ⟨r', ph', sl', x, hk, hr', hx, rfl⟩ := exec_cases h
  by_cases mine : r' = r
  · subst mine
    obtain ⟨sl'', out, hr'', hm⟩ := view_exec hk hr' h
    obtain rfl : sl = sl' := Option.some.inj (hsl.symm.trans hr')
    have calm :=
      (@LockInv.reading_exclusive r' w.actualOf _ lock i _ (view_mine hi sl) rfl).2 _ _ _ hm
    have now : (w.after k r' x).actualOf r' = sl''.actual := by
      simp only [actualOf, hr'', Option.map_some', Option.getD_some]
    exact ⟨now.trans (calm.1.trans held.symm), calm.2⟩
  · exact ⟨actualOf_after w k (Ne.symm mine) x, closedBy_moves (advance_moves hx) mine⟩

/-- The steps the goroutines have left together. -/
def remaining (w : World) : Nat := totalBudget (w.threads.map (·.2))

theorem exec_lowers_remaining {w w' : World} {t : Nat × Move} (h : w.exec t = some w') :
    w'.remaining < w.remaining := by
  obtain ⟨r, ph, sl, x, hi, -, hx, rfl⟩ := exec_cases h
  have mine : (w.threads.map (·.2))[t.1]? = some ph := by simp [hi]
  have := totalBudget_set mine x.2
  have := moves_budget (advance_moves hx)
  simp only [remaining, after_threads, List.map_set] at *
  omega

theorem run_remaining : ∀ {w w' : World} {ts : List (Nat × Move)}, run w ts = some w' →
    ts.length + w'.remaining ≤ w.remaining
  | _, _, [], h => by cases h; simp
  | w, _, t :: ts, h => by
    obtain ⟨w₁, h₁, h⟩ := Option.bind_eq_some.mp h
    have := run_remaining h
    have := exec_lowers_remaining h₁
    simp only [List.length_cons]
    omega

/-- Once every goroutine has returned, every wrapper's mutex is free. -/
theorem Good.released {w : World} (good : w.Good)
    (returned : ∀ g ∈ w.threads, ∃ res, g.2 = .done res) :
    ∀ sl ∈ w.slots, sl.readers = 0 ∧ sl.writer = false := by
  intro sl mem
  obtain ⟨r, hr⟩ := List.mem_iff_getElem?.mp mem
  refine lockInv_released (good.locks r sl hr) fun ph mem' => ?_
  obtain ⟨g, mem, rfl⟩ := List.mem_map.mp mem'
  split
  · exact returned g mem
  · exact ⟨_, rfl⟩

section Serial

variable {env : Env}

/-- Goroutine `i` runs alone until it returns, the drivers answering as `env` says, for at
most `fuel` steps. -/
def solo (env : Env) (i : Nat) : Nat → World → Option World
  | 0, w => some w
  | fuel + 1, w => (w.threads[i]?).bind fun g =>
    if returned g.2 then some w
    else (w.slots[g.1]?).bind fun sl =>
      (w.exec (i, envMove env (w.shared sl) g.2)).bind (solo env i fuel)

/-- The goroutines of `order` run one after the other, each until it returns; six steps
are the longest method (`budget`). -/
def serial (env : Env) : List Nat → World → Option World
  | [], w => some w
  | i :: is, w => (w.solo env i 6).bind (serial env is)

/-- The heap as the atomic model of `BaseWrapper` sees it. -/
def system (w : World) : System := ⟨w.slots.map fun sl => ⟨sl.actual⟩, w.trace⟩

/-- The call goroutine `i` is about to make, as an operation of `BaseWrapper`. -/
def callOf (w : World) (i : Nat) : Option Op :=
  match w.threads[i]? with
  | some (r, .idle op) => some (op.on r)
  | _ => none

/-- What goroutine `i` returned. -/
def resultOf (w : World) (i : Nat) : Option Result :=
  match w.threads[i]? with
  | some (_, .done res) => some res
  | _ => none

theorem after_self {w : World} {i r : Nat} {ph : Phase} {sl : Slot}
    (hi : w.threads[i]? = some (r, ph)) (hr : w.slots[r]? = some sl) :
    w.after i r (w.shared sl, ph) = w := by
  simp only [after, Slot.of_shared, shared_trace]
  rw [set_of_getElem? hi, set_of_getElem? hr]

theorem after_after (w : World) (i r : Nat) (x y : Shared × Phase) :
    (w.after i r x).after i r y = w.after i r y := by
  simp [after]

theorem threads_after {w : World} {i r : Nat} {ph : Phase} (hi : w.threads[i]? = some (r, ph))
    (x : Shared × Phase) : (w.after i r x).threads[i]? = some (r, x.2) := by
  simp [List.getElem?_set, (List.getElem?_eq_some_iff.mp hi).1]

theorem slots_after {w : World} {r : Nat} {sl : Slot} (hr : w.slots[r]? = some sl) (i : Nat)
    (x : Shared × Phase) : (w.after i r x).slots[r]? = some (Slot.of x.1) := by
  simp [List.getElem?_set, (List.getElem?_eq_some_iff.mp hr).1]

/-- Alone in the heap, a goroutine runs as it does alone on its wrapper. -/
theorem solo_alone (env : Env) (i r : Nat) : ∀ (fuel : Nat) (w : World) (ph : Phase) (sl : Slot),
    w.threads[i]? = some (r, ph) → w.slots[r]? = some sl →
    w.solo env i fuel = (alone env r w.actualOf fuel (w.shared sl) ph).map (w.after i r)
  | 0, w, ph, sl, hi, hr => by simp [solo, alone, after_self hi hr]
  | fuel + 1, w, ph, sl, hi, hr => by
    by_cases done : returned ph
    · simp [solo, alone, hi, done, after_self hi hr]
    · simp only [solo, alone, hi, hr, done, Option.some_bind, Bool.false_eq_true, if_false,
        exec_eq hi hr]
      cases hx : advance r w.actualOf (w.shared sl) ph (envMove env (w.shared sl) ph) with
      | none => rfl
      | some x =>
        simp only [Option.map_some', Option.some_bind]
        rw [solo_alone env i r fuel _ x.2 _ (threads_after hi x) (slots_after hr i x),
          alone_congr fun q ne => actualOf_after w i ne x]
        exact congrArg₂ Option.map (funext (after_after w i r x)) rfl

theorem solo_missing {w : World} {i r fuel : Nat} {ph : Phase} (hi : w.threads[i]? = some (r, ph))
    (busy : returned ph = false) (hr : w.slots[r]? = none) : w.solo env i (fuel + 1) = none := by
  simp [solo, hi, busy, hr]

/-- `BaseWrapper.exec` finds no wrapper where the heap has none. -/
theorem exec_on_missing (env : Env) {s : System} {r : Nat} (h : s.held r = none)
    (op : WrapperOp) : BaseWrapper.exec env s (op.on r) = none := by
  cases op <;> simp [WrapperOp.on, BaseWrapper.exec, proxyFor, invoke_eq_forward, forward,
    reconfigure, h]

/-- The cell reads other wrappers only for a replacement other than itself. -/
theorem step_congr {o₁ : Nat → Option Base} (o₂ : Nat → Option Base) {self : Nat} (c : Cell)
    {op : WrapperOp}
    (agree : ∀ ctx q, op = .reconfigure ctx (.base (.reconfigurable q)) → q ≠ self → o₁ q = o₂ q) :
    c.step env o₁ self op = c.step env o₂ self op := by
  cases op with
  | reconfigure ctx n =>
    rcases n with (_ | q | _) | _
    case base.reconfigurable =>
      simp only [Cell.step, Cell.answer, Cell.apply, install]
      by_cases hq : q = self
      · simp [hq]
      · simp [hq, agree ctx q rfl hq]
    all_goals rfl
  | _ => rfl

/-- What a solo run leaves of the mutexes: each one free, and as many as before. -/
theorem free_of_map {l l' : List Slot}
    (h : l'.map (fun sl => (sl.readers, sl.writer)) = l.map fun _ => (0, false)) :
    (∀ sl ∈ l', sl.readers = 0 ∧ sl.writer = false) ∧ l'.length = l.length := by
  refine ⟨fun sl mem => ?_, by simpa using congrArg List.length h⟩
  have := List.mem_map_of_mem (fun sl => (sl.readers, sl.writer)) mem
  rw [h] at this
  obtain ⟨-, -, same⟩ := List.mem_map.mp this
  exact ⟨(Prod.mk.inj same).1.symm, (Prod.mk.inj same).2.symm⟩

theorem held_system {w : World} {q : Nat} (hq : q < w.slots.length) :
    w.system.held q = some (w.actualOf q) := by
  simp [system, System.held, actualOf, List.getElem?_eq_getElem hq]

/-- Alone, with every mutex free, a goroutine performs exactly `BaseWrapper.exec` of its
call, and leaves every mutex free. -/
theorem solo_exec (env : Env) {w : World} {i r : Nat} {op : WrapperOp}
    (hi : w.threads[i]? = some (r, .idle op))
    (free : ∀ sl ∈ w.slots, sl.readers = 0 ∧ sl.writer = false)
    (named : ∀ ctx q, op = .reconfigure ctx (.base (.reconfigurable q)) → q < w.slots.length) :
    (w.solo env i 6).map (fun w' => (w'.system, w'.threads,
        w'.slots.map fun sl => (sl.readers, sl.writer))) =
      (BaseWrapper.exec env w.system (op.on r)).map fun x =>
        (x.1, w.threads.set i (r, .done x.2), w.slots.map fun _ => (0, false)) := by
  cases hr : w.slots[r]? with
  | none =>
    rw [exec_on_missing env (by simp [system, System.held, hr]), solo_missing hi rfl hr]
    rfl
  | some sl =>
    obtain ⟨held, readers, writer, queued, admitted⟩ := sl
    obtain ⟨rfl, rfl⟩ := free _ (List.getElem?_mem hr)
    have lt := (List.getElem?_eq_some_iff.mp hr).1
    have self : w.system.held r = some held := by simp [held_system lt, actualOf, hr]
    have locks :
        w.slots.map (fun sl => (sl.readers, sl.writer)) = w.slots.map fun _ => (0, false) :=
      List.map_congr_left fun sl mem => by simp [(free sl mem).1, (free sl mem).2]
    obtain ⟨queued', admitted', alone⟩ :=
      alone_idle env r w.actualOf held w.trace queued admitted op
    rw [solo_alone env i r 6 w _ _ hi hr, show w.shared ⟨held, 0, false, queued, admitted⟩ =
      ⟨held, 0, false, queued, admitted, w.trace⟩ from rfl, alone, ← embed_self self,
      exec_embed env (by simpa [system] using lt),
      step_congr (fun q => some (w.actualOf q)) _ fun ctx q hop _ => held_system (named ctx q hop)]
    simp only [Option.map_map]
    congr 1
    funext x
    simp only [Function.comp_apply, after, system, embed, Slot.of, List.map_set, locks,
      Prod.mk.injEq, true_and, and_true]
    exact set_of_getElem? (by simp [lt])

theorem solo_frame {i : Nat} : ∀ {fuel : Nat} {w w' : World}, w.solo env i fuel = some w' →
    ∀ j, j ≠ i → w'.threads[j]? = w.threads[j]?
  | 0, _, _, h => by cases h; intros; rfl
  | fuel + 1, w, w', h => by
    intro j ne
    simp only [solo] at h
    obtain ⟨g, -, h⟩ := Option.bind_eq_some.mp h
    split at h
    · cases h
      rfl
    · obtain ⟨sl, -, h⟩ := Option.bind_eq_some.mp h
      obtain ⟨w₁, h₁, h⟩ := Option.bind_eq_some.mp h
      obtain ⟨r, ph, sl', x, -, -, -, rfl⟩ := exec_cases h₁
      rw [solo_frame h j ne]
      simp [List.getElem?_set_ne (Ne.symm ne)]

theorem serial_frame : ∀ {order : List Nat} {w w' : World}, w.serial env order = some w' →
    ∀ j, j ∉ order → w'.threads[j]? = w.threads[j]?
  | [], _, _, h => by cases h; intros; rfl
  | i :: is, w, w', h => by
    intro j out
    obtain ⟨w₁, h₁, h⟩ := Option.bind_eq_some.mp h
    rw [serial_frame h j fun mem => out (List.mem_cons_of_mem _ mem),
      solo_frame h₁ j fun same => out (same ▸ List.mem_cons_self _ _)]

theorem callOf_eq_some {w : World} {i : Nat} {o : Op} (h : w.callOf i = some o) :
    ∃ r op, w.threads[i]? = some (r, .idle op) ∧ o = op.on r := by
  unfold callOf at h
  split at h
  · cases h
    exact ⟨_, _, ‹_›, rfl⟩
  · cases h

/-- The calls on an existing wrapper keep the heap's size. -/
theorem exec_wrappers {s : System} {r : Nat} {op : WrapperOp} {x : System × Result}
    (h : BaseWrapper.exec env s (op.on r) = some x) : x.1.wrappers.length = s.wrappers.length := by
  cases op with
  | proxyFor =>
    obtain ⟨v, -, rfl⟩ := Option.map_eq_some'.mp h
    rfl
  | call c =>
    obtain ⟨y, hy, rfl⟩ := Option.map_eq_some'.mp h
    rw [invoke_eq_forward] at hy
    obtain ⟨t, -, rfl⟩ := Option.map_eq_some'.mp hy
    rfl
  | reconfigure ctx n =>
    obtain ⟨y, hy, rfl⟩ := Option.map_eq_some'.mp h
    unfold reconfigure at hy
    split at hy
    · cases hy
    · obtain ⟨b, -, rfl⟩ := Option.map_eq_some'.mp hy
      simp
    · cases hy
      rfl

/-- The first goroutine's result, the same on both sides, prepended to a run's equation. -/
theorem map_cons_result {o : Option World} {p : Option (System × List Result)} {is : List Nat}
    {i : Nat} {res : Result}
    (same : o.map (fun w' => (w'.system, is.map w'.resultOf)) = p.map fun y => (y.1, y.2.map some))
    (mine : ∀ w', o = some w' → w'.resultOf i = some res) :
    o.map (fun w' => (w'.system, w'.resultOf i :: is.map w'.resultOf)) =
      p.map fun y => (y.1, some res :: y.2.map some) := by
  cases o with
  | none => cases p <;> simp_all
  | some w' =>
    cases p with
    | none => cases same
    | some y =>
      simp only [Option.map_some', Option.some.injEq, Prod.mk.injEq] at same ⊢
      exact ⟨same.1, by rw [mine w' rfl, same.2]⟩

/-- Run one at a time from free mutexes, the goroutines of `order` compute exactly the atomic
run of `BaseWrapper` over their calls, and each returns what that run returns for its call. -/
theorem serial_runs_are_atomic_runs (env : Env) (order : List Nat) :
    ∀ (w : World) (ops : List Op), order.map w.callOf = ops.map some → order.Nodup →
      (∀ sl ∈ w.slots, sl.readers = 0 ∧ sl.writer = false) →
      (∀ (i r : Nat) (ctx : Context) (q : Nat),
        w.threads[i]? = some (r, .idle (.reconfigure ctx (.base (.reconfigurable q)))) →
        q < w.slots.length) →
      (w.serial env order).map (fun w' => (w'.system, order.map w'.resultOf)) =
        (BaseWrapper.run env w.system ops).map fun x => (x.1, x.2.map some) := by
  induction order with
  | nil =>
    intro w ops calls _ _ _
    obtain rfl : ops = [] := by simpa using calls.symm
    rfl
  | cons i is ih =>
    intro w ops calls distinct free named
    obtain ⟨o, ops', call, calls', rfl⟩ : ∃ o ops', w.callOf i = some o ∧
        is.map w.callOf = ops'.map some ∧ ops = o :: ops' := by
      cases ops with
      | nil => cases calls
      | cons o ops' =>
        exact ⟨o, ops', (List.cons.inj calls).1.trans rfl, (List.cons.inj calls).2, rfl⟩
    obtain ⟨r, op, hi, rfl⟩ := callOf_eq_some call
    have fresh : i ∉ is := (List.nodup_cons.mp distinct).1
    have solo := solo_exec env hi free fun ctx q hop => named i r ctx q (hop ▸ hi)
    simp only [serial, BaseWrapper.run, runSteps]
    cases hs : w.solo env i 6 with
    | none =>
      rw [hs, Option.map_none'] at solo
      rw [Option.map_eq_none'.mp solo.symm]
      rfl
    | some w₁ =>
      rw [hs, Option.map_some'] at solo
      obtain ⟨x, hx, same⟩ := Option.map_eq_some'.mp solo.symm
      obtain ⟨hsys, rest⟩ := Prod.mk.inj_iff.mp same
      obtain ⟨hthreads, hlocks⟩ := Prod.mk.inj_iff.mp rest
      obtain ⟨free₁, size⟩ := free_of_map hlocks.symm
      have lt := (List.getElem?_eq_some_iff.mp hi).1
      have other : ∀ j, j ≠ i → w₁.threads[j]? = w.threads[j]? := fun j ne => by
        rw [← hthreads]
        exact List.getElem?_set_ne (Ne.symm ne)
      have calls₁ : is.map w₁.callOf = ops'.map some := by
        rw [← calls']
        refine List.map_congr_left fun j mem => ?_
        simp only [callOf, other j fun same => fresh (same ▸ mem)]
      have named₁ : ∀ (j r' : Nat) (ctx : Context) (q : Nat),
          w₁.threads[j]? = some (r', .idle (.reconfigure ctx (.base (.reconfigurable q)))) →
          q < w₁.slots.length := fun j r' ctx q hj => by
        have ne : j ≠ i := fun same => by simp [same, ← hthreads, lt] at hj
        exact size ▸ named j r' ctx q ((other j ne).symm.trans hj)
      have step := ih w₁ ops' calls₁ (List.nodup_cons.mp distinct).2 free₁ named₁
      rw [← hsys] at step
      simp only [hx, Option.map_some', Option.some_bind, Option.map_map, List.map_cons]
      exact map_cons_result step fun w' hs => by
        simp [resultOf, serial_frame hs i fresh, ← hthreads, lt]

theorem serial_runs_are_atomic_runs_for_stop_and_swap :
    ((start [.driver (fakeBase 0), .driver (fakeBase 1)] []
        [(0, .call (.stop ⟨0⟩)), (1, .reconfigure ⟨1⟩ (.base (.reconfigurable 0)))]).serial
        Env.quiet [0, 1]).map (fun w' => (w'.system, [0, 1].map w'.resultOf)) =
      (BaseWrapper.run Env.quiet ⟨[⟨.driver (fakeBase 0)⟩, ⟨.driver (fakeBase 1)⟩], []⟩
        [.call 0 (.stop ⟨0⟩), .reconfigure 1 ⟨1⟩ (.base (.reconfigurable 0))]).map
        fun x => (x.1, x.2.map some) :=
  serial_runs_are_atomic_runs Env.quiet [0, 1] _ _ rfl (by decide) (by simp [start])
    fun i r ctx q h => by
      rcases i with _ | _ | i <;> simp [start] at h
      exact h.2.2 ▸ Nat.zero_lt_two

end Serial

end World

open World

theorem heap_never_deadlocks (held : List Base) (trace : List Event)
    (calls : List (Nat × WrapperOp)) (sched : List (Nat × Move)) (w : World)
    (named : ∀ c ∈ calls, c.1 < held.length) (h : (start held trace calls).run sched = some w)
    (g : Nat × Phase) (mem : g ∈ w.threads) (busy : ∀ res, g.2 ≠ .done res) :
    ∃ t w', w.exec t = some w' :=
  (run_good named h).progress mem busy

/-- A reader inside, a writer announced behind it and a reader asleep behind the writer: the
first reader can move. -/
theorem heap_never_deadlocks_behind_writer :
    ∃ t w', World.exec ⟨[⟨.driver (fakeBase 0), 2, true, 1, 0⟩, ⟨.driver (fakeBase 1), 0, false, 0, 0⟩],
        [], [(0, .callLocked (.stop ⟨0⟩)), (0, .writeWaiting ⟨0⟩ (.base (.reconfigurable 1))),
          (0, .proxyQueued)]⟩ t = some w' :=
  heap_never_deadlocks [.driver (fakeBase 0), .driver (fakeBase 1)] []
    [(0, .call (.stop ⟨0⟩)), (0, .reconfigure ⟨0⟩ (.base (.reconfigurable 1))), (0, .proxyFor)]
    [(0, .go), (1, .go), (2, .go)] _ (by decide) rfl
    (0, .writeWaiting ⟨0⟩ (.base (.reconfigurable 1))) (by simp) fun _ => by simp

theorem heap_interleavings_end (held : List Base) (trace : List Event)
    (calls : List (Nat × WrapperOp)) (sched : List (Nat × Move)) (w : World)
    (h : (start held trace calls).run sched = some w) :
    sched.length ≤ totalBudget (calls.map fun c => .idle c.2) := by
  have := run_remaining h
  simp only [remaining, start, List.map_map, Function.comp_def] at this
  omega

theorem heap_interleavings_end_after_proxy :
    [(0, Move.go), (0, .go), (0, .go)].length ≤
      totalBudget ([(0, WrapperOp.proxyFor)].map fun c => .idle c.2) :=
  heap_interleavings_end [.driver (fakeBase 0)] [] [(0, .proxyFor)] [(0, .go), (0, .go), (0, .go)]
    ⟨[⟨.driver (fakeBase 0), 0, false, 0, 0⟩], [], [(0, .done (.proxy (.driver (fakeBase 0))))]⟩
    rfl

theorem heap_releases_every_mutex (held : List Base) (trace : List Event)
    (calls : List (Nat × WrapperOp)) (sched : List (Nat × Move)) (w : World)
    (named : ∀ c ∈ calls, c.1 < held.length) (h : (start held trace calls).run sched = some w)
    (returned : ∀ g ∈ w.threads, ∃ res, g.2 = .done res) :
    ∀ sl ∈ w.slots, sl.readers = 0 ∧ sl.writer = false :=
  (run_good named h).released returned

theorem heap_releases_every_mutex_after_proxy :
    (⟨.driver (fakeBase 0), 0, false, 0, 0⟩ : Slot).readers = 0 ∧
      (⟨.driver (fakeBase 0), 0, false, 0, 0⟩ : Slot).writer = false :=
  heap_releases_every_mutex [.driver (fakeBase 0)] [] [(0, .proxyFor)]
    [(0, .go), (0, .go), (0, .go)]
    ⟨[⟨.driver (fakeBase 0), 0, false, 0, 0⟩], [], [(0, .done (.proxy (.driver (fakeBase 0))))]⟩
    (by decide) rfl (fun _ mem => ⟨_, congrArg Prod.snd (List.mem_singleton.mp mem)⟩) _
    (List.mem_singleton_self _)

theorem heap_write_lock_is_exclusive (held : List Base) (trace : List Event)
    (calls : List (Nat × WrapperOp)) (sched : List (Nat × Move)) (w : World)
    (named : ∀ c ∈ calls, c.1 < held.length) (h : (start held trace calls).run sched = some w)
    (i j r : Nat) (a b : Phase) (hi : w.threads[i]? = some (r, a))
    (hj : w.threads[j]? = some (r, b)) (writing : a.holdsWrite = true) :
    b.holdsRead = false ∧ (b.holdsWrite = true → i = j) :=
  (run_good named h).write_exclusive hi hj writing

/-- A `ProxyFor` that comes while `Reconfigure` holds the lock sleeps in `RLock`. -/
theorem heap_write_lock_is_exclusive_while_reconfiguring :
    Phase.proxyQueued.holdsRead = false ∧ (Phase.proxyQueued.holdsWrite = true → 0 = 1) :=
  heap_write_lock_is_exclusive [.driver (fakeBase 0)] []
    [(0, .reconfigure ⟨0⟩ (.base (.reconfigurable 0))), (0, .proxyFor)]
    [(0, .go), (0, .go), (1, .go)]
    ⟨[⟨.driver (fakeBase 0), 1, true, 1, 0⟩], [],
      [(0, .writeLocked ⟨0⟩ (.base (.reconfigurable 0))), (0, .proxyQueued)]⟩
    (by decide) rfl 0 1 0 _ _ rfl rfl rfl

theorem heap_in_flight_wrapper_keeps_target (held : List Base) (trace : List Event)
    (calls : List (Nat × WrapperOp)) (sched : List (Nat × Move)) (w : World)
    (named : ∀ c ∈ calls, c.1 < held.length) (h : (start held trace calls).run sched = some w)
    (i r : Nat) (c : Call) (t : Base) (hi : w.threads[i]? = some (r, .inFlight c t)) :
    w.actualOf r = t ∧ ∀ u w', w.exec u = some w' →
      w'.actualOf r = w.actualOf r ∧ closedBy r w'.trace = closedBy r w.trace :=
  (run_good named h).inFlight hi

theorem heap_in_flight_wrapper_keeps_target_beside_reconfigure :
    let w : World := ⟨[⟨.driver (fakeBase 0), 1, false, 0, 0⟩, ⟨.driver (fakeBase 1), 0, false, 0, 0⟩],
      [], [(0, .inFlight (.stop ⟨0⟩) (.driver (fakeBase 0))),
        (1, .idle (.reconfigure ⟨1⟩ (.base (.reconfigurable 0))))]⟩
    w.actualOf 0 = .driver (fakeBase 0) ∧ ∀ u w', w.exec u = some w' →
      w'.actualOf 0 = w.actualOf 0 ∧ closedBy 0 w'.trace = closedBy 0 w.trace :=
  heap_in_flight_wrapper_keeps_target [.driver (fakeBase 0), .driver (fakeBase 1)] []
    [(0, .call (.stop ⟨0⟩)), (1, .reconfigure ⟨1⟩ (.base (.reconfigurable 0)))]
    [(0, .go), (0, .go)] _ (by decide) rfl 0 0 _ _ rfl

end HeapSteps
