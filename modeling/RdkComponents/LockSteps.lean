import RdkComponents.ReferenceCell

/-!
# Wrapper calls at lock granularity

One `reconfigurableBase` shared by goroutines, each running one call on it. A forwarding
method takes `r.mu.RLock()`, reads `r.actual` and dispatches, waits for the inner call to
return, and leaves through the deferred `RUnlock`; `ProxyFor` reads `r.actual` under the
read lock. `Reconfigure` takes `r.mu.Lock()`, checks the type of its argument, hands the
old instance to `TryClose`, swaps, and leaves through the deferred `Unlock`.

The mutex is Go's `sync.RWMutex` as its code runs. `Lock` first announces a writer, which
holds back every later writer, and then waits for the readers inside to leave. A reader
whose `RLock` comes after the announcement is counted but sleeps; the writer's `Unlock` lets
all of those in at once, and the next writer waits for them as for any reader inside.

The inner call's reply and `TryClose`'s error are chosen by the schedule, as a driver may
answer anything. Every other wrapper holds a fixed instance (`others`); `HeapSteps` runs
the same steps on a heap of wrappers whose instances change under their own goroutines.
-/

namespace LockSteps

open GoValues BaseWrapper ReferenceCell

/-- Where a goroutine is inside its call on the wrapper. -/
inductive Phase where
  | idle (op : WrapperOp)
  /-- Inside `RLock`, asleep behind a writer that has announced itself. -/
  | proxyQueued
  | callQueued (c : Call)
  | proxyLocked
  | callLocked (c : Call)
  | inFlight (c : Call) (target : Base)
  | readDone (res : Result)
  /-- Inside `Lock`, announced, waiting for the readers inside to leave. -/
  | writeWaiting (ctx : Context) (newBase : Value)
  | writeLocked (ctx : Context) (newBase : Value)
  | typeChecked (ctx : Context) (q : Nat)
  | oldClosed (q : Nat)
  | writeDone (res : Result)
  | done (res : Result)
  deriving DecidableEq, Repr

def Phase.holdsRead : Phase → Bool
  | .proxyLocked | .callLocked _ | .inFlight _ _ | .readDone _ => true
  | _ => false

def Phase.queued : Phase → Bool
  | .proxyQueued | .callQueued _ => true
  | _ => false

def Phase.holdsWrite : Phase → Bool
  | .writeLocked _ _ | .typeChecked _ _ | .oldClosed _ | .writeDone _ => true
  | _ => false

/-- Past the announcement of `Lock`, before its `Unlock`. -/
def Phase.announced : Phase → Bool
  | .writeWaiting _ _ => true
  | ph => ph.holdsWrite

theorem Phase.announced_of_holdsWrite {ph : Phase} (h : ph.holdsWrite = true) :
    ph.announced = true := by
  cases ph <;> first | rfl | exact h

/-- What the goroutines share: `r.actual`, `r.mu`, and the interactions so far. `readers` is
the mutex's `readerCount`: every goroutine between `RLock` and `RUnlock`, the sleeping ones
included. `writer` is set from a `Lock`'s announcement to its `Unlock`. `queued` readers
came after that announcement; `admitted` ones were let in by an `Unlock` and have not woken
yet (the permits it posts on `readerSem`). -/
structure Shared where
  actual : Base
  readers : Nat
  writer : Bool
  queued : Nat
  admitted : Nat
  trace : List Event
  deriving DecidableEq, Repr

structure Machine where
  shared : Shared
  threads : List Phase
  deriving DecidableEq, Repr

/-- A goroutine's next step; `answer` and `close` carry what the world returned. -/
inductive Move where
  | go
  | answer (reply : Reply)
  | close (err : Option String)
  deriving DecidableEq, Repr

/-- `actual.actual` at the swap: the wrapper's own instance if it was handed itself. -/
def replacement (self : Nat) (others : Nat → Base) (actual : Base) (q : Nat) : Base :=
  if q = self then actual else others q

theorem install_replacement (self : Nat) (others : Nat → Base) (held : Base) (q : Nat) :
    install (fun p => some (others p)) self held q = some (replacement self others held q) := by
  by_cases h : q = self <;> simp [install, replacement, h]

/-- `RLock`: the reader is counted at once, and sleeps if a writer has announced itself. -/
def rLock (sh : Shared) (inside asleep : Phase) : Shared × Phase :=
  if sh.writer then ({ sh with readers := sh.readers + 1, queued := sh.queued + 1 }, asleep)
  else ({ sh with readers := sh.readers + 1 }, inside)

/-- A reader asleep in `RLock` wakes once an `Unlock` has let it in. -/
def rWake (sh : Shared) (inside : Phase) : Option (Shared × Phase) :=
  if 0 < sh.admitted then some ({ sh with admitted := sh.admitted - 1 }, inside) else none

/-- One step of one goroutine, from the methods of `reconfigurableBase` and the code of
`sync.RWMutex` they call. -/
def advance (self : Nat) (others : Nat → Base) (sh : Shared) :
    Phase → Move → Option (Shared × Phase)
  | .idle .proxyFor, .go => some (rLock sh .proxyLocked .proxyQueued)
  | .idle (.call c), .go => some (rLock sh (.callLocked c) (.callQueued c))
  | .proxyQueued, .go => rWake sh .proxyLocked
  | .callQueued c, .go => rWake sh (.callLocked c)
  | .idle (.reconfigure ctx n), .go =>
    if sh.writer then none else some ({ sh with writer := true }, .writeWaiting ctx n)
  | .writeWaiting ctx n, .go =>
    if sh.readers ≤ sh.queued then some (sh, .writeLocked ctx n) else none
  | .proxyLocked, .go => some (sh, .readDone (.proxy sh.actual))
  | .callLocked c, .go => some (sh, .inFlight c sh.actual)
  | .inFlight c t, .answer reply =>
    some ({ sh with trace := sh.trace ++ [.call t c reply] }, .readDone (.reply reply))
  | .readDone res, .go => some ({ sh with readers := sh.readers - 1 }, .done res)
  | .writeLocked ctx (.base (.reconfigurable q)), .go => some (sh, .typeChecked ctx q)
  | .writeLocked _ n, .go => some (sh, .writeDone (.reconfigured (some (reconfigureError self n))))
  | .typeChecked ctx q, .close err =>
    if CloseAnswer sh.actual err then
      some ({ sh with trace := sh.trace ++ closeEvents self ctx sh.actual err }, .oldClosed q)
    else none
  | .oldClosed q, .go =>
    some ({ sh with actual := replacement self others sh.actual q },
      .writeDone (.reconfigured none))
  | .writeDone res, .go =>
    some ({ sh with writer := false, queued := 0, admitted := sh.admitted + sh.queued }, .done res)
  | _, _ => none

/-- Every step `advance` can take, one constructor per line of the methods and of the
mutex. -/
inductive Moves (self : Nat) (others : Nat → Base) : Shared → Phase → Move → Shared → Phase → Prop
  | rlockProxy {sh : Shared} (free : sh.writer = false) :
      Moves self others sh (.idle .proxyFor) .go { sh with readers := sh.readers + 1 } .proxyLocked
  | queueProxy {sh : Shared} (announced : sh.writer = true) :
      Moves self others sh (.idle .proxyFor) .go
        { sh with readers := sh.readers + 1, queued := sh.queued + 1 } .proxyQueued
  | wakeProxy {sh : Shared} (letIn : 0 < sh.admitted) :
      Moves self others sh .proxyQueued .go { sh with admitted := sh.admitted - 1 } .proxyLocked
  | rlockCall {sh : Shared} {c : Call} (free : sh.writer = false) :
      Moves self others sh (.idle (.call c)) .go { sh with readers := sh.readers + 1 }
        (.callLocked c)
  | queueCall {sh : Shared} {c : Call} (announced : sh.writer = true) :
      Moves self others sh (.idle (.call c)) .go
        { sh with readers := sh.readers + 1, queued := sh.queued + 1 } (.callQueued c)
  | wakeCall {sh : Shared} {c : Call} (letIn : 0 < sh.admitted) :
      Moves self others sh (.callQueued c) .go { sh with admitted := sh.admitted - 1 }
        (.callLocked c)
  | announce {sh : Shared} {ctx : Context} {n : Value} (free : sh.writer = false) :
      Moves self others sh (.idle (.reconfigure ctx n)) .go { sh with writer := true }
        (.writeWaiting ctx n)
  | lock {sh : Shared} {ctx : Context} {n : Value} (drained : sh.readers ≤ sh.queued) :
      Moves self others sh (.writeWaiting ctx n) .go sh (.writeLocked ctx n)
  | readProxy {sh : Shared} :
      Moves self others sh .proxyLocked .go sh (.readDone (.proxy sh.actual))
  | dispatch {sh : Shared} {c : Call} :
      Moves self others sh (.callLocked c) .go sh (.inFlight c sh.actual)
  | ret {sh : Shared} {c : Call} {t : Base} {reply : Reply} :
      Moves self others sh (.inFlight c t) (.answer reply)
        { sh with trace := sh.trace ++ [.call t c reply] } (.readDone (.reply reply))
  | runlock {sh : Shared} {res : Result} :
      Moves self others sh (.readDone res) .go { sh with readers := sh.readers - 1 } (.done res)
  | checkOk {sh : Shared} {ctx : Context} {q : Nat} :
      Moves self others sh (.writeLocked ctx (.base (.reconfigurable q))) .go sh
        (.typeChecked ctx q)
  | checkFail {sh : Shared} {ctx : Context} {n : Value}
      (mismatch : ∀ q, n ≠ .base (.reconfigurable q)) :
      Moves self others sh (.writeLocked ctx n) .go sh
        (.writeDone (.reconfigured (some (reconfigureError self n))))
  | tryClose {sh : Shared} {ctx : Context} {q : Nat} {err : Option String}
      (answer : CloseAnswer sh.actual err) :
      Moves self others sh (.typeChecked ctx q) (.close err)
        { sh with trace := sh.trace ++ closeEvents self ctx sh.actual err } (.oldClosed q)
  | swap {sh : Shared} {q : Nat} :
      Moves self others sh (.oldClosed q) .go
        { sh with actual := replacement self others sh.actual q } (.writeDone (.reconfigured none))
  | unlock {sh : Shared} {res : Result} :
      Moves self others sh (.writeDone res) .go
        { sh with writer := false, queued := 0, admitted := sh.admitted + sh.queued } (.done res)

theorem advance_moves {self : Nat} {others : Nat → Base} {sh sh' : Shared} {ph ph' : Phase}
    {mv : Move} (h : advance self others sh ph mv = some (sh', ph')) :
    Moves self others sh ph mv sh' ph' := by
  cases ph with
  | idle op =>
    -- with the writer flag and the call made concrete, `advance` computes
    obtain ⟨actual, readers, writer, queued, admitted, trace⟩ := sh
    cases mv <;> cases op <;> cases writer <;> cases h <;>
      first
        | exact .rlockProxy rfl
        | exact .queueProxy rfl
        | exact .rlockCall rfl
        | exact .queueCall rfl
        | exact .announce rfl
  | proxyQueued | callQueued c =>
    cases mv
    case go =>
      obtain ⟨letIn, step⟩ := Option.ite_none_right_eq_some.mp h
      cases step
      first | exact .wakeProxy letIn | exact .wakeCall letIn
    all_goals cases h
  | writeWaiting ctx n =>
    cases mv
    case go =>
      obtain ⟨drained, step⟩ := Option.ite_none_right_eq_some.mp h
      cases step
      exact .lock drained
    all_goals cases h
  | writeLocked ctx n =>
    -- a wrapper passes the type check, anything else fails it
    rcases n with (_ | q | _) | _ <;> cases mv <;> cases h <;>
      first | exact .checkOk | exact .checkFail fun _ h => by cases h
  | typeChecked ctx q =>
    cases mv with
    | close err =>
      obtain ⟨answer, step⟩ := Option.ite_none_right_eq_some.mp h
      cases step
      exact .tryClose answer
    | _ => cases h
  | _ => cases mv <;> cases h <;> constructor

section Effects

variable {self : Nat} {others : Nat → Base} {sh sh' : Shared} {ph ph' : Phase} {mv : Move}

theorem Moves.readers (hmv : Moves self others sh ph mv sh' ph')
    (held : ph.holdsRead = true → 0 < sh.readers) :
    sh'.readers + (if ph.holdsRead then 1 else 0) + (if ph.queued then 1 else 0) =
      sh.readers + (if ph'.holdsRead then 1 else 0) + (if ph'.queued then 1 else 0) := by
  cases hmv <;> simp_all [Phase.holdsRead, Phase.queued]
  omega

theorem Moves.asleep (hmv : Moves self others sh ph mv sh' ph') :
    sh'.queued + sh'.admitted + (if ph.queued then 1 else 0) =
      sh.queued + sh.admitted + (if ph'.queued then 1 else 0) := by
  cases hmv <;> simp [Phase.queued] <;> omega

theorem Moves.writer (hmv : Moves self others sh ph mv sh' ph')
    (held : ph.announced = true → sh.writer = true) :
    (if sh'.writer then 1 else 0) + (if ph.announced then 1 else 0) =
      (if sh.writer then 1 else 0) + (if ph'.announced then 1 else 0) := by
  cases hmv <;> simp_all [Phase.announced, Phase.holdsWrite]

/-- Readers sleep only behind an announced writer. -/
theorem Moves.heldBack (hmv : Moves self others sh ph mv sh' ph')
    (held : 0 < sh.queued → sh.writer = true) : 0 < sh'.queued → sh'.writer = true := by
  cases hmv <;> simp_all

/-- The goroutine that holds the write lock after the step finds only sleeping readers. -/
theorem Moves.holder (hmv : Moves self others sh ph mv sh' ph')
    (held : ph.holdsWrite = true → sh.readers ≤ sh.queued) :
    ph'.holdsWrite = true → sh'.readers ≤ sh'.queued := by
  cases hmv <;> simp_all [Phase.holdsWrite]

/-- A step of another goroutine lets no reader in while a writer holds the lock. -/
theorem Moves.drained (hmv : Moves self others sh ph mv sh' ph')
    (drained : sh.readers ≤ sh.queued) (announced : sh.writer = true)
    (notMine : ph.holdsWrite = false) : sh'.readers ≤ sh'.queued := by
  cases hmv <;> simp_all [Phase.holdsWrite]
  omega

/-- Only the swap changes the held instance. -/
theorem Moves.actual (hmv : Moves self others sh ph mv sh' ph') :
    sh'.actual = sh.actual ∨ ∃ q, ph = .oldClosed q := by
  cases hmv <;> simp

/-- Only `TryClose` adds to the wrapper's closed log. -/
theorem Moves.closedBy (hmv : Moves self others sh ph mv sh' ph') :
    closedBy self sh'.trace = closedBy self sh.trace ∨ ∃ ctx q, ph = .typeChecked ctx q := by
  cases hmv <;> simp

/-- A call is dispatched to the instance held at that moment. -/
theorem Moves.target (hmv : Moves self others sh ph mv sh' ph') {c : Call} {t : Base}
    (h : ph' = .inFlight c t) : t = sh'.actual := by
  cases hmv <;> simp_all

end Effects

/-- The operation a step completes, with the world's answer and the result: the read of
`ProxyFor`, the return of the inner call, a failed type check, or `TryClose` (the swap
after it runs under the same write lock). -/
def commitOf (self : Nat) (sh : Shared) : Phase → Move → Option (Answered × Result)
  | .proxyLocked, .go => some (.proxyFor, .proxy sh.actual)
  | .inFlight c _, .answer reply => some (.call c reply, .reply reply)
  | .writeLocked _ (.base (.reconfigurable _)), .go => none
  | .writeLocked ctx n, .go =>
    some (.reconfigure ctx n none, .reconfigured (some (reconfigureError self n)))
  | .typeChecked ctx q, .close err =>
    some (.reconfigure ctx (.base (.reconfigurable q)) err, .reconfigured none)
  | _, _ => none

theorem commitOf_mismatch {self : Nat} {sh : Shared} {ctx : Context} {n : Value}
    (mismatch : ∀ q, n ≠ .base (.reconfigurable q)) :
    commitOf self sh (.writeLocked ctx n) .go =
      some (.reconfigure ctx n none, .reconfigured (some (reconfigureError self n))) := by
  rcases n with (_ | _ | _) | _ <;> simp_all [commitOf]

/-- Goroutine `t.1` takes its next step; the output is what it commits, if anything. -/
def Machine.exec (self : Nat) (others : Nat → Base) (m : Machine) (t : Nat × Move) :
    Option (Machine × Option (Nat × Answered × Result)) :=
  (m.threads[t.1]?).bind fun ph => (advance self others m.shared ph t.2).map fun x =>
    (⟨x.1, m.threads.set t.1 x.2⟩, (commitOf self m.shared ph t.2).map fun a => (t.1, a))

/-- A run of the goroutines under a schedule: an interleaving of their steps. -/
def run (self : Nat) (others : Nat → Base) :
    Machine → List (Nat × Move) → Option (Machine × List (Option (Nat × Answered × Result))) :=
  runSteps (Machine.exec self others)

/-- Goroutine `i` is about to call `ops[i]`; the wrapper holds `held` and `r.mu` is free. -/
def Machine.start (held : Base) (trace : List Event) (ops : List WrapperOp) : Machine :=
  ⟨⟨held, 0, false, 0, 0, trace⟩, ops.map .idle⟩

theorem exec_cases {self : Nat} {others : Nat → Base} {m m' : Machine} {t : Nat × Move}
    {out : Option (Nat × Answered × Result)} (h : m.exec self others t = some (m', out)) :
    ∃ ph sh' ph', m.threads[t.1]? = some ph ∧ Moves self others m.shared ph t.2 sh' ph' ∧
      m' = ⟨sh', m.threads.set t.1 ph'⟩ ∧
        out = (commitOf self m.shared ph t.2).map fun a => (t.1, a) := by
  obtain ⟨ph, hph, h⟩ := Option.bind_eq_some.mp h
  obtain ⟨⟨sh', ph'⟩, hadv, hx⟩ := Option.map_eq_some'.mp h
  cases hx
  exact ⟨ph, sh', ph', hph, advance_moves hadv, rfl, rfl⟩

theorem countP_set_add {α : Type} (p : α → Bool) {l : List α} {i : Nat} {a : α}
    (h : l[i]? = some a) (b : α) :
    (l.set i b).countP p + (if p a then 1 else 0) = l.countP p + (if p b then 1 else 0) := by
  obtain ⟨hi, rfl⟩ := List.getElem?_eq_some_iff.mp h
  have := List.boole_getElem_le_countP p l i hi
  rw [List.countP_set p l i b hi]
  omega

/-- `r.mu` agrees with the goroutines inside the methods, and every call in flight went
to the instance held now. -/
structure LockInv (m : Machine) : Prop where
  readers : m.shared.readers = m.threads.countP Phase.holdsRead + m.threads.countP Phase.queued
  asleep : m.shared.queued + m.shared.admitted = m.threads.countP Phase.queued
  writers : m.threads.countP Phase.announced = if m.shared.writer then 1 else 0
  heldBack : 0 < m.shared.queued → m.shared.writer = true
  exclusive : 0 < m.threads.countP Phase.holdsWrite → m.shared.readers ≤ m.shared.queued
  inFlight : ∀ c t, Phase.inFlight c t ∈ m.threads → t = m.shared.actual

theorem LockInv.start (held : Base) (trace : List Event) (ops : List WrapperOp) :
    LockInv (Machine.start held trace ops) := by
  refine ⟨?_, ?_, ?_, by simp [Machine.start], ?_, by simp [Machine.start]⟩ <;>
    simp [Machine.start, List.countP_map, Function.comp_def, Phase.holdsRead, Phase.queued,
      Phase.announced, Phase.holdsWrite]

theorem LockInv.writer_of_announced {m : Machine} (inv : LockInv m) {ph : Phase}
    (mem : ph ∈ m.threads) (announced : ph.announced = true) : m.shared.writer = true := by
  have hpos : 0 < m.threads.countP Phase.announced :=
    List.countP_pos_iff.mpr ⟨ph, mem, announced⟩
  have := inv.writers
  cases hw : m.shared.writer <;> simp_all

theorem LockInv.writer_of_holdsWrite {m : Machine} (inv : LockInv m) {ph : Phase}
    (mem : ph ∈ m.threads) (writing : ph.holdsWrite = true) : m.shared.writer = true :=
  inv.writer_of_announced mem (Phase.announced_of_holdsWrite writing)

theorem LockInv.holders_le_one {m : Machine} (inv : LockInv m) :
    m.threads.countP Phase.holdsWrite ≤ 1 := by
  have : m.threads.countP Phase.holdsWrite ≤ m.threads.countP Phase.announced :=
    List.countP_mono_left fun _ _ => Phase.announced_of_holdsWrite
  have := inv.writers
  split at this <;> omega

/-- While a goroutine holds the read lock, no goroutine holds the write lock. -/
theorem LockInv.no_writer {m : Machine} (inv : LockInv m) {ph : Phase} (mem : ph ∈ m.threads)
    (reading : ph.holdsRead = true) : m.threads.countP Phase.holdsWrite = 0 := by
  have hpos : 0 < m.threads.countP Phase.holdsRead := List.countP_pos_iff.mpr ⟨ph, mem, reading⟩
  have := inv.readers
  have := inv.asleep
  by_contra writing
  have := inv.exclusive (Nat.pos_of_ne_zero writing)
  omega

section Lists

variable {α : Type}

theorem getElem?_set_cases {l : List α} {i j : Nat} {a b : α} (h : (l.set i b)[j]? = some a) :
    (j = i ∧ a = b) ∨ (j ≠ i ∧ l[j]? = some a) := by
  by_cases hj : i = j
  · subst hj
    rw [List.getElem?_set] at h
    split at h <;> simp_all
  · exact .inr ⟨Ne.symm hj, by rwa [List.getElem?_set_ne hj] at h⟩

theorem two_le_countP {p : α → Bool} :
    ∀ {l : List α} {i j : Nat} {a b : α}, i ≠ j → l[i]? = some a → l[j]? = some b →
      p a = true → p b = true → 2 ≤ l.countP p
  | [], _, _, _, _, _, hi, _, _, _ => by simp at hi
  | x :: l, 0, 0, _, _, hij, _, _, _, _ => absurd rfl hij
  | x :: l, 0, j + 1, a, b, _, hi, hj, pa, pb => by
    simp only [List.getElem?_cons_zero, List.getElem?_cons_succ, Option.some.injEq] at hi hj
    subst hi
    have : 0 < l.countP p := List.countP_pos_iff.mpr ⟨b, List.getElem?_mem hj, pb⟩
    rw [List.countP_cons, if_pos pa]
    omega
  | x :: l, i + 1, 0, a, b, _, hi, hj, pa, pb => by
    simp only [List.getElem?_cons_zero, List.getElem?_cons_succ, Option.some.injEq] at hi hj
    subst hj
    have : 0 < l.countP p := List.countP_pos_iff.mpr ⟨a, List.getElem?_mem hi, pa⟩
    rw [List.countP_cons, if_pos pb]
    omega
  | x :: l, i + 1, j + 1, a, b, hij, hi, hj, pa, pb => by
    simp only [List.getElem?_cons_succ] at hi hj
    have := two_le_countP (fun h => hij (congrArg (· + 1) h)) hi hj pa pb
    simp [List.countP_cons]
    omega

end Lists

/-- At most one goroutine holds the write lock. -/
theorem LockInv.writer_unique {m : Machine} (lock : LockInv m) {i j : Nat} {a b : Phase}
    (hi : m.threads[i]? = some a) (hj : m.threads[j]? = some b) (wa : a.holdsWrite = true)
    (wb : b.holdsWrite = true) : i = j := by
  by_contra hij
  have := two_le_countP hij hi hj wa wb
  have := lock.holders_le_one
  omega

/-- After a step, a goroutine that holds the write lock finds only sleeping readers. -/
theorem LockInv.exclusive_after {self : Nat} {others : Nat → Base} {m : Machine}
    (inv : LockInv m) {i : Nat} {ph ph' : Phase} {mv : Move} {sh' : Shared}
    (hph : m.threads[i]? = some ph) (hmv : Moves self others m.shared ph mv sh' ph')
    (holding : 0 < (m.threads.set i ph').countP Phase.holdsWrite) : sh'.readers ≤ sh'.queued := by
  have hW := countP_set_add Phase.holdsWrite hph ph'
  have atMostOne := inv.holders_le_one
  have mem := List.getElem?_mem hph
  cases mine : ph'.holdsWrite
  · cases other : ph.holdsWrite
    · -- the holder is another goroutine, and stays one
      simp only [mine, other, Bool.false_eq_true, if_false, Nat.add_zero] at hW
      obtain ⟨holder, mem', writing⟩ := List.countP_pos_iff.mp (hW ▸ holding)
      exact hmv.drained (inv.exclusive (List.countP_pos_iff.mpr ⟨holder, mem', writing⟩))
        (inv.writer_of_holdsWrite mem' writing) other
    · -- the holder left, and there was no other
      simp only [mine, other, Bool.false_eq_true, if_false, if_true, Nat.add_zero] at hW
      omega
  · exact hmv.holder (fun hw => inv.exclusive (List.countP_pos_iff.mpr ⟨ph, mem, hw⟩)) mine

theorem exec_lockInv {self : Nat} {others : Nat → Base} {m m' : Machine} {t : Nat × Move}
    {out : Option (Nat × Answered × Result)} (inv : LockInv m)
    (h : m.exec self others t = some (m', out)) : LockInv m' := by
  obtain ⟨ph, sh', ph', hph, hmv, rfl, -⟩ := exec_cases h
  have mem := List.getElem?_mem hph
  have hR := countP_set_add Phase.holdsRead hph ph'
  have hQ := countP_set_add Phase.queued hph ph'
  have hA := countP_set_add Phase.announced hph ph'
  have readers := hmv.readers fun hr => by
    have := inv.readers
    have : 0 < m.threads.countP Phase.holdsRead := List.countP_pos_iff.mpr ⟨ph, mem, hr⟩
    omega
  have asleep := hmv.asleep
  have writer := hmv.writer (inv.writer_of_announced mem)
  have := inv.readers
  have := inv.asleep
  have := inv.writers
  refine ⟨by dsimp only; omega, by dsimp only; omega, by dsimp only; omega,
    hmv.heldBack inv.heldBack, inv.exclusive_after hph hmv, fun c t ht => ?_⟩
  rcases List.mem_or_eq_of_mem_set ht with ht | ht
  · rcases hmv.actual with same | ⟨q, rfl⟩
    · exact same ▸ inv.inFlight c t ht
    · have := inv.no_writer ht rfl
      have : 0 < m.threads.countP Phase.holdsWrite := List.countP_pos_iff.mpr ⟨_, mem, rfl⟩
      omega
  · exact hmv.target ht.symm

/-- A goroutine at `Reconfigure`'s `TryClose` or at its swap. -/
def Phase.closingOrSwapping : Phase → Bool
  | .typeChecked _ _ | .oldClosed _ => true
  | _ => false

theorem Phase.holdsWrite_of_closingOrSwapping {ph : Phase} (h : ph.closingOrSwapping = true) :
    ph.holdsWrite = true := by
  cases ph <;> first | rfl | cases h

/-- While a goroutine holds the read lock, between its read of `r.actual` and its return,
no goroutine stands at `TryClose` or at the swap, and no step of any goroutine closes or
swaps. -/
theorem LockInv.reading_exclusive {self : Nat} {others : Nat → Base} {m : Machine}
    (inv : LockInv m) {j : Nat} {ph : Phase} (hj : m.threads[j]? = some ph)
    (reading : ph.holdsRead = true) :
    (∀ (i : Nat) (ph' : Phase), m.threads[i]? = some ph' → ph'.closingOrSwapping = false) ∧
      ∀ turn m' out, m.exec self others turn = some (m', out) →
        m'.shared.actual = m.shared.actual ∧
          closedBy self m'.shared.trace = closedBy self m.shared.trace := by
  have noWriter := inv.no_writer (List.getElem?_mem hj) reading
  have quiet : ∀ (i : Nat) (ph' : Phase), m.threads[i]? = some ph' →
      ph'.closingOrSwapping = false := by
    intro i ph' hi
    cases closing : ph'.closingOrSwapping
    · rfl
    · exact absurd (Phase.holdsWrite_of_closingOrSwapping closing)
        (List.countP_eq_zero.mp noWriter ph' (List.getElem?_mem hi))
  refine ⟨quiet, fun turn m' out h => ?_⟩
  obtain ⟨ph', sh', ph'', hph, hmv, rfl, -⟩ := exec_cases h
  have calm := quiet _ ph' hph
  refine ⟨?_, ?_⟩
  · rcases hmv.actual with same | ⟨q, rfl⟩
    · exact same
    · simp [Phase.closingOrSwapping] at calm
  · rcases hmv.closedBy with same | ⟨ctx, q, rfl⟩
    · exact same
    · simp [Phase.closingOrSwapping] at calm

/-- While a goroutine holds a lock that excludes writers, nobody owes a swap. -/
theorem LockInv.no_pending {m : Machine} (lock : LockInv m) {i : Nat} {ph : Phase}
    (hi : m.threads[i]? = some ph) (excl : ph.holdsRead = true ∨ (ph.holdsWrite = true ∧
      ∀ q, ph ≠ .oldClosed q)) : ∀ j q : Nat, m.threads[j]? ≠ some (Phase.oldClosed q) := by
  intro j q hj
  rcases excl with reading | ⟨writing, notOld⟩
  · have := List.countP_eq_zero.mp (lock.no_writer (List.getElem?_mem hi) reading) _
      (List.getElem?_mem hj)
    simp [Phase.holdsWrite] at this
  · have := lock.writer_unique hi hj writing rfl
    subst this
    exact notOld q (Option.some.inj (hi.symm.trans hj))

end LockSteps
