import RdkComponents.LockSteps

/-!
# Progress of the goroutines on one wrapper

Every method of `reconfigurableBase` releases `r.mu` through a `defer`, and no step under
the lock waits for another goroutine. So, from every state that keeps `LockInv`: whenever
a goroutine is still inside a method, some goroutine can take its next step. A goroutine
that holds `r.mu` can always move; a reader let in by an `Unlock` can wake; a writer that
has announced itself finds, once no reader holds the lock, only the readers asleep behind
it; and with no writer announced, `RLock` and `Lock` both go ahead. Every step lowers what
the goroutines have left to do (`budget`), and once every goroutine has returned, `r.mu` is
free again. `HeapSteps` carries these to a heap of wrappers and to every run. Waiting on
the driver is a single step here (`answer`): a driver that never returns is outside the
model.
-/

namespace LockProgress

open GoValues BaseWrapper ReferenceCell LockSteps

/-- The steps a goroutine has left, along the longest path through its method. -/
def budget : Phase → Nat
  | .idle .proxyFor => 4
  | .idle (.call _) => 5
  | .idle (.reconfigure _ _) => 6
  | .proxyQueued => 3
  | .callQueued _ => 4
  | .proxyLocked => 2
  | .callLocked _ => 3
  | .inFlight _ _ => 2
  | .readDone _ => 1
  | .writeWaiting _ _ => 5
  | .writeLocked _ _ => 4
  | .typeChecked _ _ => 3
  | .oldClosed _ => 2
  | .writeDone _ => 1
  | .done _ => 0

/-- The steps a list of goroutines has left together. -/
def totalBudget : List Phase → Nat
  | [] => 0
  | ph :: phs => budget ph + totalBudget phs

section Steps

variable {self : Nat} {others : Nat → Base}

theorem moves_budget {sh sh' : Shared} {ph ph' : Phase} {mv : Move}
    (hmv : Moves self others sh ph mv sh' ph') : budget ph' < budget ph := by
  cases hmv <;> simp [budget]

theorem totalBudget_set :
    ∀ {l : List Phase} {i : Nat} {a : Phase}, l[i]? = some a → ∀ b,
      totalBudget (l.set i b) + budget a = totalBudget l + budget b
  | [], _, _, h, _ => by simp at h
  | x :: l, 0, a, h, b => by
    simp only [List.getElem?_cons_zero, Option.some.injEq] at h
    subst h
    simp only [List.set_cons_zero, totalBudget]
    omega
  | x :: l, i + 1, a, h, b => by
    simp only [List.getElem?_cons_succ] at h
    simp only [List.set_cons_succ, totalBudget]
    have := totalBudget_set h b
    omega

theorem exec_of_advance {m : Machine} {ph : Phase} (mem : ph ∈ m.threads) {mv : Move}
    {x : Shared × Phase} (h : advance self others m.shared ph mv = some x) :
    ∃ turn y, m.exec self others turn = some y := by
  obtain ⟨i, hi⟩ := List.mem_iff_getElem?.mp mem
  exact ⟨(i, mv), _, by rw [Machine.exec, hi, Option.some_bind, h, Option.map_some']⟩

variable (self others)

/-- A goroutine that holds `r.mu` is never blocked. -/
theorem advance_of_holds (sh : Shared) {ph : Phase}
    (holds : ph.holdsRead = true ∨ ph.holdsWrite = true) :
    ∃ mv x, advance self others sh ph mv = some x := by
  cases ph with
  | inFlight c t => exact ⟨.answer (.err none), _, rfl⟩
  | writeLocked ctx n => exact ⟨.go, by rcases n with (_ | _ | _) | _ <;> exact ⟨_, rfl⟩⟩
  | typeChecked ctx q => exact ⟨.close none, _, if_pos (Or.inr rfl)⟩
  | idle _ | proxyQueued | callQueued _ | writeWaiting _ _ | done _ =>
    rcases holds with h | h <;> cases h
  | _ => exact ⟨.go, _, rfl⟩

/-- A reader asleep in `RLock` wakes once an `Unlock` has let it in. -/
theorem advance_wake {sh : Shared} (letIn : 0 < sh.admitted) {ph : Phase}
    (asleep : ph.queued = true) : ∃ x, advance self others sh ph .go = some x := by
  cases ph <;> first | exact ⟨_, if_pos letIn⟩ | cases asleep

/-- A goroutine about to call goes ahead when no writer has announced itself: `RLock` takes
the read lock, `Lock` announces a writer. -/
theorem advance_idle {sh : Shared} (free : sh.writer = false) (op : WrapperOp) :
    ∃ x, advance self others sh (.idle op) .go = some x := by
  obtain ⟨actual, readers, writer, queued, admitted, trace⟩ := sh
  dsimp only at free
  subst free
  cases op <;> exact ⟨_, rfl⟩

variable {self others}

/-- A goroutine that neither holds nor waits for `r.mu` and has not returned is about to
call. -/
theorem idle_of_outside {ph : Phase} (reading : ph.holdsRead = false) (asleep : ph.queued = false)
    (announced : ph.announced = false) (busy : ∀ res, ph ≠ .done res) : ∃ op, ph = .idle op := by
  cases ph <;> simp_all [Phase.holdsRead, Phase.queued, Phase.announced, Phase.holdsWrite]

theorem writer_free {m : Machine} (inv : LockInv m)
    (none : m.threads.countP Phase.announced = 0) : m.shared.writer = false := by
  have writers := inv.writers
  rw [none] at writers
  cases hw : m.shared.writer
  · rfl
  · simp [hw] at writers

/-- Some goroutine can step while one has not returned: one that holds `r.mu`; else a reader
let in by an `Unlock`; else the writer that has announced itself, since only readers asleep
behind it are left; else, with no writer announced, the goroutine that has not returned. -/
theorem lockInv_progress {m : Machine} (inv : LockInv m) {ph : Phase} (mem : ph ∈ m.threads)
    (busy : ∀ res, ph ≠ .done res) : ∃ turn y, m.exec self others turn = some y := by
  by_cases holder : ∃ ph' ∈ m.threads, ph'.holdsRead = true ∨ ph'.holdsWrite = true
  · obtain ⟨ph', mem', holds⟩ := holder
    obtain ⟨mv, x, hx⟩ := advance_of_holds self others m.shared holds
    exact exec_of_advance mem' hx
  simp only [not_exists, not_and, not_or, Bool.not_eq_true] at holder
  have noReaders : m.threads.countP Phase.holdsRead = 0 :=
    List.countP_eq_zero.mpr fun ph' mem' => by simp [(holder ph' mem').1]
  have := inv.readers
  have := inv.asleep
  by_cases letIn : 0 < m.shared.admitted
  · obtain ⟨ph', mem', asleep⟩ := List.countP_pos_iff.mp (show 0 < m.threads.countP Phase.queued
      by omega)
    obtain ⟨x, hx⟩ := advance_wake self others letIn asleep
    exact exec_of_advance mem' hx
  by_cases waiting : ∃ ph' ∈ m.threads, ph'.announced = true
  · -- the writer waits in `Lock`, and only readers asleep behind it are counted
    obtain ⟨ph', mem', announced⟩ := waiting
    cases ph' with
    | writeWaiting ctx n =>
      exact exec_of_advance mem' (show advance self others m.shared (.writeWaiting ctx n) .go =
        some _ from if_pos (by omega))
    | _ => simp_all [Phase.announced]
  simp only [not_exists, not_and, Bool.not_eq_true] at waiting
  have free := writer_free inv (List.countP_eq_zero.mpr fun ph' mem' => by simp [waiting ph' mem'])
  have nobodyAsleep : m.threads.countP Phase.queued = 0 := by
    have := mt inv.heldBack (by simp [free])
    omega
  obtain ⟨op, rfl⟩ := idle_of_outside (holder ph mem).1
    (by simpa using List.countP_eq_zero.mp nobodyAsleep ph mem) (waiting ph mem) busy
  obtain ⟨x, hx⟩ := advance_idle self others free op
  exact exec_of_advance mem hx

/-- With no goroutine inside a method, `r.mu` is free. -/
theorem lockInv_released {m : Machine} (inv : LockInv m)
    (returned : ∀ ph ∈ m.threads, ∃ res, ph = .done res) :
    m.shared.readers = 0 ∧ m.shared.writer = false := by
  have idle : ∀ (p : Phase → Bool), (∀ res, p (.done res) = false) → m.threads.countP p = 0 :=
    fun p hp => List.countP_eq_zero.mpr fun ph mem => by
      obtain ⟨res, rfl⟩ := returned ph mem
      simp [hp]
  have := inv.readers
  rw [idle _ fun _ => rfl, idle _ fun _ => rfl] at this
  exact ⟨this, writer_free inv (idle _ fun _ => rfl)⟩

end Steps

end LockProgress
