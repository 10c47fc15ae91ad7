import Mathlib.Data.List.Nodup
import RdkComponents.HeapSteps
import RdkComponents.Linearization
import RdkComponents.WrapperOwnership

/-!
# Race-free interleavings on a heap of wrappers are linearizable

Every call on the heap takes effect at one step of its goroutine, as in `Linearization`:
`ProxyFor` at its read of `r.actual`, a forwarding method when its inner call returns, and
`Reconfigure` at a failed type check or at `TryClose`, under the write lock it keeps until
its swap. The swap stores what `actual.actual` reads: `n.actual`, read holding `r.mu` alone.
Each goroutine makes one call and locks only its own wrapper's mutex, so nothing orders that
read with a write of `n.actual`, which only a `Reconfigure` on `n` that passes its type check
makes. Whatever the schedule, two such calls race in Go's memory model, and the read may see
a torn interface. `RaceFree` calls have no such pair; for them `n.actual` stays what it was
at the start, so the swap installs what the commit at `TryClose` read.

For race-free calls, replaying the committed calls in commit order, each as one atomic
operation on the heap with the answer the world gave it, yields the whole run: every
wrapper's instance, the trace event for event, and every result a goroutine returned. So
every such interleaving keeps what the atomic model keeps: wrappers hold only drivers. How
many `TryClose` calls each wrapper makes depends on no value read, and is the same for every
interleaving, racy or not. The calls are made on wrappers of the heap and every
`Reconfigure` names one, as a Go pointer does.

The torn read itself is not modelled: a racy `Reconfigure` here reads what `n` holds at the
swap, and `crossing_swaps_have_no_serial_trace` shows such a run that no order of the atomic
calls yields.
-/

namespace HeapLinearization

open GoValues BaseWrapper ReferenceCell LockSteps HeapSteps World

/-- A call that goroutine `goroutine` made on wrapper `wrapper`, with the world's answer and
what it returned. -/
structure Commit where
  goroutine : Nat
  wrapper : Nat
  op : Answered
  result : Result
  deriving DecidableEq, Repr

/-- Wrapper `r`'s call `a` as one atomic operation on the heap, the other wrappers as they
are now. -/
def commit (s : System) (r : Nat) (a : Answered) : Option (System × Result) :=
  (s.held r).bind fun held =>
    (Cell.apply s.held r ⟨held, s.trace⟩ a).map fun x => (embed s r x.1, x.2)

/-- The committed calls, one after the other. -/
def replay : System → List Commit → Option (System × List Result) :=
  runSteps fun s e => commit s e.wrapper e.op

/-- With the answers the drivers give, one commit is one operation of `BaseWrapper`. -/
theorem commit_answer (env : Env) {s : System} {r : Nat} {held : Base}
    (h : s.held r = some held) (op : WrapperOp) :
    commit s r (Cell.answer env ⟨held, s.trace⟩ op) = exec env s (op.on r) := by
  conv_rhs => rw [← embed_self h]
  rw [exec_embed env (lt_of_held h)]
  simp [commit, h, Cell.step]

/-- A commit that keeps the held instance and adds `es` to the trace. -/
theorem commit_keep {s : System} {r : Nat} {held : Base} (h : s.held r = some held)
    {a : Answered} {es : List Event} {res : Result}
    (step : Cell.apply s.held r ⟨held, s.trace⟩ a = some (⟨held, s.trace ++ es⟩, res)) :
    commit s r a = some (s.record es, res) := by
  have recorded : embed s r ⟨held, s.trace ++ es⟩ = s.record es :=
    (record_embed s r ⟨held, s.trace⟩ es).symm.trans (congrArg (System.record · es) (embed_self h))
  simp only [commit, h, Option.some_bind, step, Option.map_some', recorded]

/-- What goroutine `t.1`'s step `t.2` commits, as `LockSteps.commitOf` has it on its
wrapper. -/
def committedBy (w : World) (t : Nat × Move) : Option Commit :=
  (w.threads[t.1]?).bind fun g => (w.slots[g.1]?).bind fun sl =>
    (commitOf g.1 (w.shared sl) g.2 t.2).map fun a => ⟨t.1, g.1, a.1, a.2⟩

theorem committedBy_eq {w : World} {i r : Nat} {ph : Phase} {sl : Slot}
    (hi : w.threads[i]? = some (r, ph)) (hr : w.slots[r]? = some sl) (mv : Move) :
    committedBy w (i, mv) =
      (commitOf r (w.shared sl) ph mv).map fun a => ⟨i, r, a.1, a.2⟩ := by
  simp [committedBy, hi, hr]

/-- A call that swaps its wrapper's instance: `Reconfigure` handed a `*reconfigurableBase`. -/
def swaps : WrapperOp → Bool
  | .reconfigure _ (.base (.reconfigurable _)) => true
  | _ => false

theorem swaps_mismatch {ctx : Context} {n : Value} (mismatch : ∀ q, n ≠ .base (.reconfigurable q)) :
    swaps (.reconfigure ctx n) = false := by
  rcases n with (_ | _ | _) | _ <;> simp_all [swaps]

/-- The wrapper whose `actual` a call reads without holding its mutex: `Reconfigure(r, n)`
reads `n.actual` holding `r.mu` only. -/
def readsOther : Nat × WrapperOp → Option Nat
  | (r, .reconfigure _ (.base (.reconfigurable q))) => if q = r then none else some q
  | _ => none

/-- No call reads, without its mutex, a wrapper whose instance another call swaps. -/
def RaceFree (calls : List (Nat × WrapperOp)) : Prop :=
  ∀ c ∈ calls, ∀ c' ∈ calls, readsOther c = some c'.1 → swaps c'.2 = false

instance (calls : List (Nat × WrapperOp)) : Decidable (RaceFree calls) :=
  inferInstanceAs
    (Decidable (∀ c ∈ calls, ∀ c' ∈ calls, readsOther c = some c'.1 → swaps c'.2 = false))

/-- In race-free calls, a `Reconfigure` that reads wrapper `q` and one that swaps `q` are
never both made. -/
theorem RaceFree.unswapped {calls : List (Nat × WrapperOp)} (race : RaceFree calls)
    {i j r q q' : Nat} {ctx ctx' : Context}
    (hi : calls[i]? = some (r, .reconfigure ctx (.base (.reconfigurable q)))) (ne : q ≠ r)
    (hj : calls[j]? = some (q, .reconfigure ctx' (.base (.reconfigurable q')))) : False := by
  have := race _ (List.getElem?_mem hi) _ (List.getElem?_mem hj) (by simp [readsOther, ne])
  simp [swaps] at this

def Event.isCloseBy (r : Nat) : Event → Bool
  | .tryClose c _ _ _ => c == r
  | _ => false

/-- The `TryClose` calls wrapper `r` made, in order. -/
def closesOf (r : Nat) (trace : List Event) : List Event := trace.filter (Event.isCloseBy r)

@[simp] theorem closesOf_append (r : Nat) (a b : List Event) :
    closesOf r (a ++ b) = closesOf r a ++ closesOf r b := List.filter_append a b

@[simp] theorem closesOf_call (r : Nat) (t : Base) (c : Call) (reply : Reply) :
    closesOf r [.call t c reply] = [] := rfl

theorem closesOf_closeEvents (r r' : Nat) (ctx : Context) (old : Base) (err : Option String) :
    closesOf r' (closeEvents r ctx old err) =
      if r = r' then [.tryClose r ctx old err] else [] := by
  cases err <;> by_cases h : r = r' <;> simp [closesOf, closeEvents, Event.isCloseBy, h]

/-! The heap after a step, as the replay sees it. -/

theorem held_slot {w : World} {r : Nat} {sl : Slot} (hr : w.slots[r]? = some sl) :
    w.system.held r = some sl.actual := by
  simp [system, System.held, hr]

theorem actualOf_slot {w : World} {r : Nat} {sl : Slot} (hr : w.slots[r]? = some sl) :
    w.actualOf r = sl.actual := by
  simp [actualOf, hr]

theorem actualOf_of_held {w : World} {r : Nat} {b : Base} (hb : w.system.held r = some b) :
    w.actualOf r = b := by
  simp only [system, System.held, List.getElem?_map, Option.map_map] at hb
  obtain ⟨sl, hsl, rfl⟩ := Option.map_eq_some'.mp hb
  exact actualOf_slot hsl

theorem actualOf_after_self {w : World} {r : Nat} {sl : Slot} (hr : w.slots[r]? = some sl)
    (i : Nat) (x : Shared × Phase) : (w.after i r x).actualOf r = x.1.actual := by
  simp [actualOf_slot (slots_after hr i x), Slot.of]

/-- A step that keeps its wrapper's instance keeps every wrapper's. -/
theorem actualOf_after_keep {w : World} {r : Nat} {sl : Slot} (hr : w.slots[r]? = some sl)
    (i : Nat) {x : Shared × Phase} (keep : x.1.actual = sl.actual) (q : Nat) :
    (w.after i r x).actualOf q = w.actualOf q := by
  by_cases hq : q = r
  · subst hq
    rw [actualOf_after_self hr, actualOf_slot hr, keep]
  · exact actualOf_after w i hq x

theorem held_after {w : World} {r : Nat} {sl : Slot} (hr : w.slots[r]? = some sl) (i : Nat)
    (x : Shared × Phase) (q : Nat) :
    (w.after i r x).system.held q = if q = r then some x.1.actual else w.system.held q := by
  by_cases hq : q = r
  · subst hq
    simp [held_slot (slots_after hr i x), Slot.of]
  · simp [system, System.held, hq, List.getElem?_set_ne (Ne.symm hq)]

theorem held_after_keep {w : World} {r : Nat} {sl : Slot} (hr : w.slots[r]? = some sl)
    (i : Nat) {x : Shared × Phase} (keep : x.1.actual = sl.actual) (q : Nat) :
    (w.after i r x).system.held q = w.system.held q := by
  rw [held_after hr]
  split
  · subst q
    rw [keep, held_slot hr]
  · rfl

/-- Only the goroutine that steps changes phase. -/
theorem oldClosed_after {w : World} {i r₀ : Nat} {ph : Phase}
    (hi : w.threads[i]? = some (r₀, ph)) (x : Shared × Phase) (r : Nat)
    (same : ∀ q, (r₀, x.2) = (r, .oldClosed q) ↔ (r₀, ph) = (r, .oldClosed q)) (j q : Nat) :
    (w.after i r₀ x).threads[j]? = some (r, .oldClosed q) ↔
      w.threads[j]? = some (r, .oldClosed q) := by
  by_cases hj : j = i
  · subst hj
    rw [threads_after hi, hi, Option.some.injEq, Option.some.injEq]
    exact same q
  · simp [List.getElem?_set_ne (Ne.symm hj)]

/-- While goroutine `i` holds `r.mu` for writing, it is the only goroutine on `r` that can be
at a swap. -/
theorem oldClosed_unique {w : World} (good : w.Good) {i r : Nat} {ph : Phase}
    (hi : w.threads[i]? = some (r, ph)) (writing : ph.holdsWrite = true) {j q : Nat}
    (hj : w.threads[j]? = some (r, .oldClosed q)) : j = i :=
  ((good.write_exclusive hi hj writing).2 rfl).symm

/-- While goroutine `i` holds `r.mu` short of its swap, no goroutine on `r` is at one. -/
theorem none_pending {w : World} (good : w.Good) {i r : Nat} {ph : Phase}
    (hi : w.threads[i]? = some (r, ph))
    (holds : ph.holdsRead = true ∨ ph.holdsWrite = true ∧ ∀ q, ph ≠ .oldClosed q) (j q : Nat) :
    w.threads[j]? ≠ some (r, .oldClosed q) := fun hj => by
  obtain ⟨sl, hsl⟩ := good.slot hi
  exact (good.locks r sl hsl).no_pending (view_mine hi sl) holds j q (view_mine hj sl)

/-! The goroutines' calls and the order they commit in, whatever the values read. -/

/-- The calls committed so far, in commit order: each goroutine's at most once, with its own
arguments and what it returns, and one `TryClose` by a wrapper for each committed call on it
that swaps. -/
structure Commits (calls : List (Nat × WrapperOp)) (trace₀ : List Event) (w : World)
    (order : List Commit) : Prop where
  threads : ∀ (i : Nat) (g : Nat × Phase), w.threads[i]? = some g →
    ∃ op, calls[i]? = some (g.1, op) ∧ Linearization.Runs op g.2
  closes : ∀ r, (closesOf r w.trace).length =
    (closesOf r trace₀).length + order.countP fun e => e.wrapper == r && swaps e.op.op
  nodup : (order.map (·.goroutine)).Nodup
  source : ∀ e ∈ order, calls[e.goroutine]? = some (e.wrapper, e.op.op)
  placed : ∀ (i : Nat) (g : Nat × Phase), w.threads[i]? = some g →
    Linearization.Placed Commit.goroutine Commit.result order i (Linearization.resultOf g.2)

theorem Commits.initial (held : List Base) (trace : List Event) (calls : List (Nat × WrapperOp)) :
    Commits calls trace (World.start held trace calls) [] := by
  refine ⟨fun i g hi => ?_, fun r => by simp [World.start], List.nodup_nil, by simp,
    fun i g hi => ?_⟩ <;>
  · simp only [World.start, List.getElem?_map, Option.map_eq_some'] at hi
    obtain ⟨c, hc, rfl⟩ := hi
    first
      | exact ⟨c.2, hc, rfl⟩
      | simp [Linearization.Placed, Linearization.resultOf]

section Commits

variable {calls : List (Nat × WrapperOp)} {trace₀ : List Event} {w : World}
  {order : List Commit} {i r : Nat} {ph ph' : Phase} {sh sh' : Shared} {others : Nat → Base}
  {mv : Move}

/-- Every goroutine keeps running the call it was started with. -/
theorem Commits.running (inv : Commits calls trace₀ w order)
    (hi : w.threads[i]? = some (r, ph)) (hmv : Moves r others sh ph mv sh' ph') :
    ∀ (j : Nat) (g : Nat × Phase), (w.after i r (sh', ph')).threads[j]? = some g →
      ∃ op, calls[j]? = some (g.1, op) ∧ Linearization.Runs op g.2 := by
  intro j g hj
  rcases getElem?_set_cases hj with ⟨rfl, rfl⟩ | ⟨-, hj⟩
  · obtain ⟨op, hc, runs⟩ := inv.threads j _ hi
    exact ⟨op, hc, Linearization.runs_of_moves hmv runs⟩
  · exact inv.threads j g hj

/-- A step that commits nothing and leaves the trace alone. -/
theorem Commits.quiet (inv : Commits calls trace₀ w order) (hi : w.threads[i]? = some (r, ph))
    (hmv : Moves r others sh ph mv sh' ph') (trace : sh'.trace = w.trace)
    (result : Linearization.resultOf ph' = Linearization.resultOf ph) {out : Option Commit}
    (none : out = none) : Commits calls trace₀ (w.after i r (sh', ph')) (order ++ out.toList) := by
  rw [none, Option.toList_none, List.append_nil]
  refine ⟨inv.running hi hmv, fun r' => by rw [after_trace, trace, inv.closes r'], inv.nodup,
    inv.source, fun j g hj => ?_⟩
  rcases getElem?_set_cases hj with ⟨rfl, rfl⟩ | ⟨-, hj⟩
  · exact result ▸ inv.placed j _ hi
  · exact inv.placed j g hj

/-- A step at which goroutine `i`'s call commits as `e`; a `TryClose` is on the trace exactly
when `e` swaps. -/
theorem Commits.commitAt (inv : Commits calls trace₀ w order) (hi : w.threads[i]? = some (r, ph))
    (hmv : Moves r others sh ph mv sh' ph') (e : Commit) (goroutine : e.goroutine = i)
    (wrapper : e.wrapper = r) (runs : ∀ op, Linearization.Runs op ph → op = e.op.op)
    (before : Linearization.resultOf ph = none) (now : Linearization.resultOf ph' = some e.result)
    (closes : ∀ r', (closesOf r' sh'.trace).length =
      (closesOf r' w.trace).length + if e.wrapper == r' && swaps e.op.op then 1 else 0) :
    Commits calls trace₀ (w.after i r (sh', ph')) (order ++ [e]) := by
  have fresh : i ∉ order.map (·.goroutine) := by
    simpa only [Linearization.Placed, before] using inv.placed i _ hi
  refine ⟨inv.running hi hmv, fun r' => ?_, ?_, fun e' he' => ?_, fun j g hj => ?_⟩
  · rw [after_trace, closes, inv.closes, List.countP_append, List.countP_singleton]
    omega
  · rw [List.map_append, List.Nodup, List.pairwise_append]
    exact ⟨inv.nodup, by simp, fun a ha b hb same => by
      simp only [List.map_cons, List.map_nil, List.mem_singleton] at hb
      exact fresh (goroutine ▸ hb ▸ same ▸ ha)⟩
  · rcases List.mem_append.mp he' with he' | he'
    · exact inv.source e' he'
    · obtain ⟨op, hc, hruns⟩ := inv.threads i _ hi
      rw [List.mem_singleton.mp he', goroutine, wrapper, ← runs op hruns]
      exact hc
  · rcases getElem?_set_cases hj with ⟨rfl, rfl⟩ | ⟨ne, hj⟩
    · rw [now]
      exact ⟨e, List.mem_append_right _ (List.mem_singleton_self _), goroutine, rfl⟩
    · exact (inv.placed j g hj).append fun e' he' =>
        (List.mem_singleton.mp he') ▸ goroutine ▸ Ne.symm ne

/-- Every step keeps `Commits`, with the call it commits, if any, appended to the order. -/
theorem exec_commits (inv : Commits calls trace₀ w order) {w' : World} {t : Nat × Move}
    (h : w.exec t = some w') : Commits calls trace₀ w' (order ++ (committedBy w t).toList) := by
  obtain ⟨i, mv⟩ := t
  obtain ⟨r, ph, sl, ⟨sh', ph'⟩, hi, hr, hx, rfl⟩ := exec_cases h
  have hmv := advance_moves hx
  rw [committedBy_eq hi hr]
  have moves := hmv
  cases moves
  case readProxy =>
    exact inv.commitAt hi hmv _ rfl rfl (fun _ h => h) rfl rfl (by simp [swaps, Answered.op])
  case ret c t reply =>
    exact inv.commitAt hi hmv _ rfl rfl (fun _ h => h) rfl rfl (by simp [swaps, Answered.op])
  case checkFail ctx n mismatch =>
    rw [commitOf_mismatch mismatch]
    exact inv.commitAt hi hmv _ rfl rfl (fun _ h => h) rfl rfl
      (by simp [swaps_mismatch mismatch, Answered.op])
  case tryClose ctx q err answer =>
    exact inv.commitAt hi hmv _ rfl rfl (fun _ h => h) rfl rfl fun r' => by
      by_cases mine : r = r' <;> simp [closesOf_closeEvents, mine, swaps, Answered.op]
  all_goals exact inv.quiet hi hmv rfl rfl rfl

/-- Goroutine `i` of a run where every goroutine has returned committed exactly once, with
what it returned. -/
theorem Commits.committed_of_returned (inv : Commits calls trace₀ w order)
    (length : w.threads.length = calls.length)
    (returned : ∀ g ∈ w.threads, ∃ res, g.2 = .done res) {i : Nat} (hi : i < calls.length) :
    ∃ e ∈ order, e.goroutine = i ∧ w.threads[i]? = some (e.wrapper, .done e.result) := by
  have hg := List.getElem?_eq_getElem (length ▸ hi)
  obtain ⟨res, hres⟩ := returned _ (List.getElem_mem _)
  have placed := inv.placed i _ hg
  rw [hres] at placed
  obtain ⟨e, he, rfl, rfl⟩ := placed
  obtain ⟨op, hc, -⟩ := inv.threads _ _ hg
  have wrapper := (Prod.mk.inj (Option.some.inj (hc.symm.trans (inv.source e he)))).1
  exact ⟨e, he, rfl, by rw [hg, ← hres, ← wrapper]⟩

theorem Commits.bound (inv : Commits calls trace₀ w order) {e : Commit} (he : e ∈ order) :
    e.goroutine < calls.length :=
  (List.getElem?_eq_some_iff.mp (inv.source e he)).1

/-- Once every goroutine has returned, the commit order holds each goroutine once. -/
theorem Commits.perm (inv : Commits calls trace₀ w order)
    (length : w.threads.length = calls.length)
    (returned : ∀ g ∈ w.threads, ∃ res, g.2 = .done res) :
    (order.map (·.goroutine)).Perm (List.range calls.length) := by
  refine (List.perm_ext_iff_of_nodup inv.nodup (List.nodup_range _)).mpr fun i => ?_
  rw [List.mem_range, List.mem_map]
  refine ⟨fun ⟨e, he, hi⟩ => hi ▸ inv.bound he, fun hi => ?_⟩
  obtain ⟨e, he, rfl, -⟩ := inv.committed_of_returned length returned hi
  exact ⟨e, he, rfl⟩

/-- A goroutine past its type check runs `Reconfigure` with the wrapper it installs from. -/
theorem Commits.reconfiguring (inv : Commits calls trace₀ w order) {q : Nat}
    (hi : w.threads[i]? = some (r, ph))
    (swapping : (∃ ctx, ph = .typeChecked ctx q) ∨ ph = .oldClosed q) :
    ∃ ctx, calls[i]? = some (r, .reconfigure ctx (.base (.reconfigurable q))) := by
  obtain ⟨op, hc, runs⟩ := inv.threads i _ hi
  rcases swapping with ⟨ctx, rfl⟩ | rfl
  · exact ⟨ctx, runs ▸ hc⟩
  · obtain ⟨ctx, rfl⟩ := runs
    exact ⟨ctx, hc⟩

end Commits

theorem exec_length {w w' : World} {t : Nat × Move} (h : w.exec t = some w') :
    w'.slots.length = w.slots.length ∧ w'.threads.length = w.threads.length := by
  obtain ⟨-, -, -, -, -, -, -, rfl⟩ := exec_cases h
  simp

/-- Along every interleaving from the start, the calls committed so far are accounted for. -/
theorem run_commits {held : List Base} {trace : List Event} {calls : List (Nat × WrapperOp)}
    {sched : List (Nat × Move)} {w : World} (named : ∀ c ∈ calls, c.1 < held.length)
    (h : (start held trace calls).run sched = some w) :
    w.Good ∧ w.threads.length = calls.length ∧ ∃ order, Commits calls trace w order := by
  exact run_invariant (fun w => w.Good ∧ w.threads.length = calls.length ∧
      ∃ order, Commits calls trace w order)
    (fun ⟨good, threads, order, inv⟩ step => ⟨⟨exec_locks good.locks step,
      exec_named good.named step⟩, (exec_length step).2.trans threads, _, exec_commits inv step⟩)
    ⟨⟨start_locks held trace calls, start_named named⟩, by simp [start], _,
      Commits.initial held trace calls⟩ h

/-! The values: what the committed calls give when replayed. -/

/-- What wrapper `r` holds once a pending swap is done. With a goroutine on `r` between
`TryClose` and its swap, the instance that swap installs, and the instance it closed has
reached the trace; with none, what `r` holds now. -/
def Settled (w : World) (r : Nat) (held : Option Base) : Prop :=
  (∀ j q : Nat, w.threads[j]? = some (r, .oldClosed q) →
      held = some (replacement r w.actualOf (w.actualOf r) q) ∧
        ∃ e ∈ w.trace, e.reaches = some (w.actualOf r)) ∧
    ((∀ j q : Nat, w.threads[j]? ≠ some (r, .oldClosed q)) → held = w.system.held r)

/-- The calls committed so far, replayed in commit order from `s₀`, give `s`: the run's
trace, and every wrapper's instance once its pending swap is done. -/
structure Replays (s₀ : System) (w : World) (order : List Commit) (s : System) : Prop where
  replayed : replay s₀ order = some (s, order.map (·.result))
  trace : s.trace = w.trace
  held : ∀ r, Settled w r (s.held r)

theorem Replays.initial (held : List Base) (trace : List Event) (calls : List (Nat × WrapperOp)) :
    Replays (World.start held trace calls).system (World.start held trace calls) []
      (World.start held trace calls).system :=
  ⟨rfl, rfl, fun r => ⟨fun j q hj => by simp [World.start] at hj, fun _ => rfl⟩⟩

section Replays

variable {s₀ : System} {w : World} {order : List Commit} {s : System} {i r : Nat} {ph : Phase}
  {sl : Slot}

/-- `Settled` carries over to a world whose instances, as the pending swaps on `r` read them,
and whose swaps on `r` are as before, and whose trace has grown. -/
theorem Settled.frame {w' : World} {held : Option Base} (hS : Settled w r held)
    (same : ∀ j q : Nat,
      w'.threads[j]? = some (r, .oldClosed q) ↔ w.threads[j]? = some (r, .oldClosed q))
    (actual : w'.actualOf r = w.actualOf r)
    (read : ∀ j q : Nat, w.threads[j]? = some (r, .oldClosed q) → q ≠ r →
      w'.actualOf q = w.actualOf q)
    (grows : w.trace <+: w'.trace) (system : w'.system.held r = w.system.held r) :
    Settled w' r held := by
  refine ⟨fun j q hj => ?_, fun none => (hS.2 fun j q hj => none j q ((same j q).mpr hj)).trans
    system.symm⟩
  obtain ⟨h, e, he, reach⟩ := hS.1 j q ((same j q).mp hj)
  refine ⟨?_, e, grows.subset he, by rw [actual]; exact reach⟩
  rw [h, actual]
  by_cases hq : q = r
  · simp [replacement, hq]
  · simp [replacement, hq, read j q ((same j q).mp hj) hq]

/-- A step that keeps every instance, grows the trace, and neither reaches nor leaves a
swap on `r'` keeps `r'` settled. -/
theorem Settled.keep {r' : Nat} {held : Option Base} (hS : Settled w r' held)
    (hi : w.threads[i]? = some (r, ph)) (hr : w.slots[r]? = some sl) {x : Shared × Phase}
    (keep : x.1.actual = sl.actual) (grows : w.trace <+: x.1.trace)
    (same : ∀ q, (r, x.2) = (r', .oldClosed q) ↔ (r, ph) = (r', .oldClosed q)) :
    Settled (w.after i r x) r' held :=
  hS.frame (oldClosed_after hi x r' same) (actualOf_after_keep hr i keep r')
    (fun _ q _ _ => actualOf_after_keep hr i keep q) grows (held_after_keep hr i keep r')

theorem Replays.snoc (inv : Replays s₀ w order s) {e : Commit} {s' : System}
    (step : commit s e.wrapper e.op = some (s', e.result)) :
    replay s₀ (order ++ [e]) = some (s', (order ++ [e]).map (·.result)) := by
  have replayed := inv.replayed
  simp only [replay] at replayed ⊢
  simp [runSteps_snoc, replayed, step]

/-- A step that keeps every instance and adds to the trace what the replay adds. -/
theorem Replays.keep (inv : Replays s₀ w order s) (hi : w.threads[i]? = some (r, ph))
    (hr : w.slots[r]? = some sl) {x : Shared × Phase} (keep : x.1.actual = sl.actual)
    (notOld : ∀ q, ph ≠ .oldClosed q) (notOld' : ∀ q, x.2 ≠ .oldClosed q) {es : List Event}
    (trace : x.1.trace = w.trace ++ es) {out : List Commit} {s' : System}
    (replayed : replay s₀ (order ++ out) = some (s', (order ++ out).map (·.result)))
    (held : s'.held = s.held) (trace' : s'.trace = s.trace ++ es) :
    Replays s₀ (w.after i r x) (order ++ out) s' := by
  refine ⟨replayed, by rw [trace', inv.trace, after_trace, trace], fun r' => ?_⟩
  rw [held]
  exact (inv.held r').keep hi hr keep (trace ▸ List.prefix_append _ _)
    fun q => by simp [notOld q, notOld' q]

theorem Replays.append_none (inv : Replays s₀ w order s) {out : Option Commit}
    (none : out = none) : Replays s₀ w (order ++ out.toList) s := by
  rwa [none, Option.toList_none, List.append_nil]

/-- A step that commits nothing, keeps every instance and the trace, and neither reaches nor
leaves a swap. -/
theorem Replays.quiet (inv : Replays s₀ w order s) (hi : w.threads[i]? = some (r, ph))
    (hr : w.slots[r]? = some sl) {x : Shared × Phase} (keep : x.1.actual = sl.actual)
    (trace : x.1.trace = w.trace) (notOld : ∀ q, ph ≠ .oldClosed q)
    (notOld' : ∀ q, x.2 ≠ .oldClosed q) : Replays s₀ (w.after i r x) order s :=
  ⟨inv.replayed, by rw [inv.trace, after_trace, trace], fun r' => (inv.held r').keep hi hr keep
    (trace ▸ List.prefix_refl _) fun q => by simp [notOld q, notOld' q]⟩

/-- While goroutine `i` holds `r.mu` short of its swap, the replay holds what `r` holds. -/
theorem Replays.held_of_holds (inv : Replays s₀ w order s) (good : w.Good)
    (hi : w.threads[i]? = some (r, ph)) (hr : w.slots[r]? = some sl)
    (holds : ph.holdsRead = true ∨ ph.holdsWrite = true ∧ ∀ q, ph ≠ .oldClosed q) :
    s.held r = some sl.actual :=
  ((inv.held r).2 (none_pending good hi holds)).trans (held_slot hr)

/-- At `TryClose` the replay makes the whole `Reconfigure`: it closes what `r` holds and
installs what the replacement holds, which no goroutine of race-free calls changes before
the swap. -/
theorem Replays.tryClose {calls : List (Nat × WrapperOp)} {trace₀ : List Event}
    (inv : Replays s₀ w order s) (good : w.Good) (race : RaceFree calls)
    (commits : Commits calls trace₀ w order) {ctx : Context} {q : Nat} {err : Option String}
    (hi : w.threads[i]? = some (r, .typeChecked ctx q)) (hr : w.slots[r]? = some sl)
    (target : q < w.slots.length) {x : Shared × Phase} (actual : x.1.actual = sl.actual)
    (trace : x.1.trace = w.trace ++ closeEvents r ctx sl.actual err) (phase : x.2 = .oldClosed q) :
    ∃ s', Replays s₀ (w.after i r x)
      (order ++ [⟨i, r, .reconfigure ctx (.base (.reconfigurable q)) err, .reconfigured none⟩])
      s' := by
  have held := inv.held_of_holds good hi hr (.inr ⟨rfl, by simp⟩)
  have installed : install s.held r sl.actual q = some (replacement r w.actualOf sl.actual q) := by
    by_cases hq : q = r
    · simp [install, replacement, hq]
    · -- no goroutine swaps `q` while this one reads it
      have unswapped : ∀ j q' : Nat, w.threads[j]? ≠ some (q, .oldClosed q') := fun j q' hj => by
        obtain ⟨ctx, hc⟩ := commits.reconfiguring hi (.inl ⟨_, rfl⟩)
        obtain ⟨ctx', hc'⟩ := commits.reconfiguring hj (.inr rfl)
        exact race.unswapped hc hq hc'
      simp [install, replacement, hq, (inv.held q).2 unswapped, held_system target]
  have step : commit s r (.reconfigure ctx (.base (.reconfigurable q)) err) =
      some (embed s r ⟨replacement r w.actualOf sl.actual q,
        s.trace ++ closeEvents r ctx sl.actual err⟩, .reconfigured none) := by
    simp [commit, held, Cell.apply, installed]
  have bound := lt_of_held held
  refine ⟨_, inv.snoc step, by simp [inv.trace, trace], fun r' => ?_⟩
  by_cases mine : r' = r
  · subst mine
    have others : (w.after i r' x).actualOf = w.actualOf := funext (actualOf_after_keep hr i actual)
    rw [held_embed_self bound]
    refine ⟨fun j q' hj => ?_, fun none => absurd (phase ▸ threads_after hi x) (none i q)⟩
    rcases getElem?_set_cases hj with ⟨-, h⟩ | ⟨-, hj⟩
    · obtain rfl : q' = q := by rw [phase] at h; cases h; rfl
      rw [others, actualOf_slot hr]
      refine ⟨rfl, .tryClose r' ctx sl.actual err, ?_, rfl⟩
      rw [after_trace, trace]
      cases err <;> simp [closeEvents]
    · exact absurd hj (none_pending good hi (.inr ⟨rfl, by simp⟩) j q')
  · rw [held_embed_install bound]
    simp only [install, if_neg mine]
    exact (inv.held r').keep hi hr actual (trace ▸ List.prefix_append _ _) fun q' => by
      simp [Ne.symm mine]

/-- At the swap the wrapper catches up with the replay; in race-free calls no other pending
swap reads the wrapper that changes. -/
theorem Replays.swap {calls : List (Nat × WrapperOp)} {trace₀ : List Event}
    (inv : Replays s₀ w order s) (good : w.Good) (race : RaceFree calls)
    (commits : Commits calls trace₀ w order) {q : Nat}
    (hi : w.threads[i]? = some (r, .oldClosed q)) (hr : w.slots[r]? = some sl)
    {x : Shared × Phase} (actual : x.1.actual = replacement r w.actualOf sl.actual q)
    (trace : x.1.trace = w.trace) (phase : ∀ q', x.2 ≠ .oldClosed q') :
    Replays s₀ (w.after i r x) order s := by
  refine ⟨inv.replayed, by rw [inv.trace, after_trace, trace], fun r' => ?_⟩
  by_cases mine : r' = r
  · subst mine
    have none : ∀ j q' : Nat, (w.after i r' x).threads[j]? ≠ some (r', .oldClosed q') :=
      fun j q' hj => by
        rcases getElem?_set_cases hj with ⟨-, h⟩ | ⟨ne, hj⟩
        · exact phase q' (Prod.mk.inj h).2.symm
        · exact ne (oldClosed_unique good hi rfl hj)
    refine ⟨fun j q' hj => absurd hj (none j q'), fun _ => ?_⟩
    rw [held_after hr, if_pos rfl, ((inv.held r').1 i q hi).1, actualOf_slot hr, actual]
  · refine (inv.held r').frame (oldClosed_after hi x r' fun q' => by simp [Ne.symm mine])
      (actualOf_after w i mine x) (fun j q' hj hq => ?_) (trace ▸ List.prefix_refl _)
      (by rw [held_after hr, if_neg mine])
    -- the pending swap on `r'` reads `q'`, which this swap on `r` does not change
    refine actualOf_after w i (fun same => ?_) x
    subst same
    obtain ⟨ctx, hc⟩ := commits.reconfiguring hj (.inr rfl)
    obtain ⟨ctx', hc'⟩ := commits.reconfiguring hi (.inr rfl)
    exact race.unswapped hc hq hc'

/-- Every step of race-free calls keeps `Replays`, with the call it commits, if any,
appended to the order. -/
theorem exec_replays {calls : List (Nat × WrapperOp)} {trace₀ : List Event} (good : w.Good)
    (race : RaceFree calls)
    (targets : ∀ (i r : Nat) (ctx : Context) (q : Nat),
      calls[i]? = some (r, .reconfigure ctx (.base (.reconfigurable q))) → q < w.slots.length)
    (commits : Commits calls trace₀ w order) (inv : Replays s₀ w order s) {w' : World}
    {t : Nat × Move} (h : w.exec t = some w') :
    ∃ s', Replays s₀ w' (order ++ (committedBy w t).toList) s' := by
  obtain ⟨i, mv⟩ := t
  obtain ⟨r, ph, sl, ⟨sh', ph'⟩, hi, hr, hx, rfl⟩ := exec_cases h
  rw [committedBy_eq hi hr]
  have moves := advance_moves hx
  cases moves
  case readProxy =>
    have held := inv.held_of_holds good hi hr (.inl rfl)
    exact ⟨s, inv.keep hi hr rfl (by simp) (by simp) (List.append_nil _).symm
      (inv.snoc (by simp [commit, held, Cell.apply, embed_self held, shared])) rfl
      (List.append_nil _).symm⟩
  case ret c t reply =>
    have held := inv.held_of_holds good hi hr (.inl rfl)
    obtain rfl : t = sl.actual := (good.inFlight hi).1.symm.trans (actualOf_slot hr)
    exact ⟨_, inv.keep hi hr rfl (by simp) (by simp) rfl
      (inv.snoc (commit_keep held (by simp [Cell.apply, inv.trace])))
      (funext (System.held_record s _)) rfl⟩
  case checkFail ctx n mismatch =>
    have held := inv.held_of_holds good hi hr (.inr ⟨rfl, by simp⟩)
    rw [commitOf_mismatch mismatch]
    exact ⟨s, inv.keep hi hr rfl (by simp) (by simp) (List.append_nil _).symm
      (inv.snoc (by simp [commit, held, Cell.apply_mismatch _ _ _ ctx mismatch, embed_self held]))
      rfl (List.append_nil _).symm⟩
  case tryClose ctx q err answer =>
    obtain ⟨ctx', hc⟩ := commits.reconfiguring hi (.inl ⟨_, rfl⟩)
    exact inv.tryClose good race commits hi hr (targets i r ctx' q hc) rfl rfl rfl
  case swap q => exact ⟨s, (inv.swap good race commits hi hr rfl rfl (by simp)).append_none rfl⟩
  all_goals exact ⟨s, (inv.quiet hi hr rfl rfl (by simp) (by simp)).append_none rfl⟩

end Replays

/-- Along every interleaving of race-free calls from the start, the calls committed so far
replay the run. -/
theorem run_replays {held : List Base} {trace : List Event} {calls : List (Nat × WrapperOp)}
    {sched : List (Nat × Move)} {w : World} (named : ∀ c ∈ calls, c.1 < held.length)
    (targets : ∀ c ∈ calls, ∀ ctx q, c.2 = .reconfigure ctx (.base (.reconfigurable q)) →
      q < held.length)
    (race : RaceFree calls) (h : (start held trace calls).run sched = some w) :
    w.Good ∧ w.threads.length = calls.length ∧ ∃ order s, Commits calls trace w order ∧
      Replays (start held trace calls).system w order s := by
  have reach := run_invariant (fun w => w.Good ∧ w.slots.length = held.length ∧
      w.threads.length = calls.length ∧ ∃ order s, Commits calls trace w order ∧
        Replays (start held trace calls).system w order s)
    (fun ⟨good, slots, threads, order, s, commits, inv⟩ step => by
      obtain ⟨s', inv'⟩ := exec_replays good race (fun i r ctx q hc => by
        simpa [slots] using targets _ (List.getElem?_mem hc) ctx q rfl) commits inv step
      exact ⟨⟨exec_locks good.locks step, exec_named good.named step⟩,
        (exec_length step).1.trans slots, (exec_length step).2.trans threads, _, s',
        exec_commits commits step, inv'⟩)
    ⟨⟨start_locks held trace calls, start_named named⟩, by simp [start], by simp [start], _,
      _, Commits.initial held trace calls, Replays.initial held trace calls⟩ h
  exact ⟨reach.1, reach.2.2⟩

section Closes

theorem countP_range_getElem? {α : Type} (p : α → Bool) : ∀ l : List α,
    (List.range l.length).countP (fun i => (l[i]?).any p) = l.countP p
  | [] => rfl
  | a :: l => by
    rw [List.length_cons, List.range_succ_eq_map, List.countP_cons, List.countP_map,
      List.countP_cons, ← countP_range_getElem? p l]
    simp [Function.comp_def]

/-- No `TryClose` is lost or made twice: once every goroutine has returned, wrapper `r` has
made one `TryClose` for each goroutine that called `Reconfigure` on it with a wrapper, and
no other, whatever the interleaving. -/
theorem heap_closes_once_per_swap (held : List Base) (trace : List Event)
    (calls : List (Nat × WrapperOp)) (sched : List (Nat × Move)) (w : World)
    (named : ∀ c ∈ calls, c.1 < held.length) (h : (start held trace calls).run sched = some w)
    (returned : ∀ g ∈ w.threads, ∃ res, g.2 = .done res) (r : Nat) :
    (closesOf r w.trace).length =
      (closesOf r trace).length + calls.countP fun c => c.1 == r && swaps c.2 := by
  obtain ⟨-, length, order, inv⟩ := run_commits named h
  rw [inv.closes r]
  congr 1
  calc order.countP (fun e => e.wrapper == r && swaps e.op.op)
      = (order.map (·.goroutine)).countP
          (fun i => (calls[i]?).any fun c => c.1 == r && swaps c.2) := by
        rw [List.countP_map]
        exact List.countP_congr fun e he => by simp [inv.source e he]
    _ = (List.range calls.length).countP
          (fun i => (calls[i]?).any fun c => c.1 == r && swaps c.2) :=
        (inv.perm length returned).countP_eq _
    _ = calls.countP fun c => c.1 == r && swaps c.2 := countP_range_getElem? _ calls

theorem heap_closes_once_per_swap_across_swaps :
    (closesOf 0 [.tryClose 0 ⟨0⟩ (.driver (fakeBase 0)) none,
        .tryClose 1 ⟨1⟩ (.driver (fakeBase 1)) none]).length =
      (closesOf 0 []).length +
        [(0, WrapperOp.reconfigure ⟨0⟩ (.base (.reconfigurable 1))),
          (1, .reconfigure ⟨1⟩ (.base (.reconfigurable 2)))].countP
          fun c => c.1 == 0 && swaps c.2 :=
  heap_closes_once_per_swap [.driver (fakeBase 0), .driver (fakeBase 1), .driver (fakeBase 2)] []
    [(0, .reconfigure ⟨0⟩ (.base (.reconfigurable 1))),
      (1, .reconfigure ⟨1⟩ (.base (.reconfigurable 2)))]
    [(0, .go), (0, .go), (0, .go), (0, .close none), (1, .go), (1, .go), (1, .go),
      (1, .close none), (1, .go), (1, .go), (0, .go), (0, .go)]
    ⟨[⟨.driver (fakeBase 2), 0, false, 0, 0⟩, ⟨.driver (fakeBase 2), 0, false, 0, 0⟩,
        ⟨.driver (fakeBase 2), 0, false, 0, 0⟩],
      [.tryClose 0 ⟨0⟩ (.driver (fakeBase 0)) none, .tryClose 1 ⟨1⟩ (.driver (fakeBase 1)) none],
      [(0, .done (.reconfigured none)), (1, .done (.reconfigured none))]⟩
    (by decide) rfl (by simp) 0

end Closes

section Drivers

open WrapperOwnership

/-- Drivers that give the answer `a` carries. -/
def answering : Answered → Env
  | .call _ reply => ⟨fun _ _ _ => reply, fun _ _ _ => none⟩
  | .reconfigure _ _ err => ⟨fun _ _ _ => .err none, fun _ _ _ => err⟩
  | .proxyFor => Env.quiet

theorem answer_answering {held : Base} (h : held.IsDriver) (trace : List Event) (a : Answered) :
    Cell.answer (answering a) ⟨held, trace⟩ a.op = a := by
  cases held <;> cases a <;> first | rfl | cases h

/-- A commit on a heap of drivers is an operation of `BaseWrapper`, so it keeps them. -/
theorem commit_drivers {s : System} (inv : DriversOnly s) {r : Nat} {a : Answered}
    {x : System × Result} (h : commit s r a = some x) : DriversOnly x.1 := by
  obtain ⟨held, hheld, -⟩ := Option.bind_eq_some.mp h
  rw [← answer_answering (inv.held r held hheld) s.trace a,
    commit_answer (answering a) hheld] at h
  exact exec_drivers (answering a) inv h

/-- The replay keeps `DriversOnly` call by call, and gives the run's trace and, but for a
pending swap, its instances; a wrapper with a pending swap holds the instance its `TryClose`
reached. So for race-free calls on a heap of drivers, every interleaving keeps
`DriversOnly`. -/
theorem heap_wrappers_hold_only_drivers (held : List Base) (trace : List Event)
    (calls : List (Nat × WrapperOp)) (sched : List (Nat × Move)) (w : World)
    (named : ∀ c ∈ calls, c.1 < held.length)
    (targets : ∀ c ∈ calls, ∀ ctx q, c.2 = .reconfigure ctx (.base (.reconfigurable q)) →
      q < held.length)
    (race : RaceFree calls) (h : (start held trace calls).run sched = some w)
    (drivers : DriversOnly (start held trace calls).system) : DriversOnly w.system := by
  obtain ⟨-, -, order, s, -, inv⟩ := run_replays named targets race h
  have replayed : DriversOnly s :=
    runSteps_invariant DriversOnly (fun _ _ => True) (fun _ _ _ hs _ hx => commit_drivers hs hx)
      _ order _ drivers (along_true _ _ _) inv.replayed
  have reached : ∀ e ∈ w.trace, ∀ b, e.reaches = some b → b.IsDriver :=
    fun e he => replayed.reached e (inv.trace ▸ he)
  refine ⟨fun r b hb => ?_, reached⟩
  by_cases pending : ∃ j q : Nat, w.threads[j]? = some (r, .oldClosed q)
  · obtain ⟨j, q, hj⟩ := pending
    obtain ⟨-, e, he, reach⟩ := (inv.held r).1 j q hj
    exact reached e he b (actualOf_of_held hb ▸ reach)
  · push_neg at pending
    exact replayed.held r b (((inv.held r).2 pending).trans hb)

theorem heap_wrappers_hold_only_drivers_before_swap :
    DriversOnly (World.system ⟨[⟨.driver (fakeBase 0), 1, true, 1, 0⟩,
        ⟨.driver (fakeBase 1), 1, false, 0, 0⟩, ⟨.driver (fakeBase 2), 0, false, 0, 0⟩],
      [.tryClose 0 ⟨0⟩ (.driver (fakeBase 0)) none],
      [(0, .oldClosed 2), (0, .callQueued (.stop ⟨1⟩)), (1, .proxyLocked)]⟩) :=
  heap_wrappers_hold_only_drivers [.driver (fakeBase 0), .driver (fakeBase 1), .driver (fakeBase 2)]
    [] [(0, .reconfigure ⟨0⟩ (.base (.reconfigurable 2))), (0, .call (.stop ⟨1⟩)), (1, .proxyFor)]
    [(0, .go), (1, .go), (0, .go), (0, .go), (0, .close none), (2, .go)] _
    (by decide) (by simp) (by decide) rfl
    ⟨fun p b hb => by
      obtain ⟨sl, hsl, rfl⟩ := Option.map_eq_some'.mp hb
      have mem := List.getElem?_mem hsl
      simp only [World.system, World.start, List.map_map, List.map_cons, List.map_nil,
        List.mem_cons, List.not_mem_nil, or_false, Function.comp_apply] at mem
      rcases mem with rfl | rfl | rfl <;> trivial, by simp [World.system, World.start]⟩

end Drivers

/-- Racy calls need not have a serial trace. Let `Reconfigure(0, 1)` reach `TryClose`
first, and swap after `Reconfigure(1, 2)` has swapped, so that wrapper 0 installs what
wrapper 1 holds after its swap: this is the read of `n.actual` that `RaceFree` excludes. Neither
order of the two atomic calls gives the run's instances together with its trace, whatever the
drivers answer. -/
theorem crossing_swaps_have_no_serial_trace (env : Env) :
    (BaseWrapper.run env
        ⟨[⟨.driver (fakeBase 0)⟩, ⟨.driver (fakeBase 1)⟩, ⟨.driver (fakeBase 2)⟩], []⟩
        [.reconfigure 0 ⟨0⟩ (.base (.reconfigurable 1)),
          .reconfigure 1 ⟨1⟩ (.base (.reconfigurable 2))]).map (·.1) ≠
      some ⟨[⟨.driver (fakeBase 2)⟩, ⟨.driver (fakeBase 2)⟩, ⟨.driver (fakeBase 2)⟩],
        [.tryClose 0 ⟨0⟩ (.driver (fakeBase 0)) none,
          .tryClose 1 ⟨1⟩ (.driver (fakeBase 1)) none]⟩ ∧
    (BaseWrapper.run env
        ⟨[⟨.driver (fakeBase 0)⟩, ⟨.driver (fakeBase 1)⟩, ⟨.driver (fakeBase 2)⟩], []⟩
        [.reconfigure 1 ⟨1⟩ (.base (.reconfigurable 2)),
          .reconfigure 0 ⟨0⟩ (.base (.reconfigurable 1))]).map (·.1) ≠
      some ⟨[⟨.driver (fakeBase 2)⟩, ⟨.driver (fakeBase 2)⟩, ⟨.driver (fakeBase 2)⟩],
        [.tryClose 0 ⟨0⟩ (.driver (fakeBase 0)) none,
          .tryClose 1 ⟨1⟩ (.driver (fakeBase 1)) none]⟩ := by
  constructor <;>
    simp [BaseWrapper.run, runSteps, BaseWrapper.exec, reconfigure, System.held, System.record,
      System.setActual, tryClose] <;>
    cases env.close [] _ _ <;> simp [closeEvents, fakeBase]

end HeapLinearization
