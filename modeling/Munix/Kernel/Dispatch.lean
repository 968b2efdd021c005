import Munix.Kernel.ThreadRuns
import Munix.Lib.RoundRobin

/-!
# Munix — the order in which threads are dispatched

`ThreadTrace` continues a run of the threads of the first process and records its
events: threads that are created, and calls of `schedule` with the thread that is
put back in the queue and the one that has the CPU afterwards. Every such run is a
run of the round-robin queue of `Munix.Lib.RoundRobin` (`ThreadTrace.roundRobin`),
which says in which order its threads are dispatched (`threadTrace_dispatches`).
-/

namespace Munix

-- ---------------------------------------------------------------------------
-- Events
-- ---------------------------------------------------------------------------

/-- What a step of a run does to the queue; threads are given by tid. -/
inductive ThreadEvent where
  | created (tid : BitVec 32)
  /-- A call of `schedule`: who went back to the queue and who has the CPU. -/
  | scheduled (requeued next : Option (BitVec 32))
  | other
deriving DecidableEq

/-- The thread that has the CPU, if one has. -/
def dispatched (r : Ctl × Sched) : Option (BitVec 32) :=
  match r.1 with
  | .noreturn => none
  | .spin => none
  | .wild => none
  | _ => r.2.currentThread.map fun t => (r.2.tcb t).tid

def Sched.currentTid (s : Sched) : Option (BitVec 32) := s.currentThread.map fun t => (s.tcb t).tid

/-- The event of one round of the loop of `thread_join`. -/
def joinLoopEvent (s : Sched) (temp : Fin THREAD_MAX) : ThreadEvent :=
  if (s.tcb temp).runstate = .exited then .other
  else .scheduled s.currentTid (dispatched (threadJoinLoop s temp))

def joinEvent (s : Sched) (tid : BitVec 32) : ThreadEvent :=
  match (List.finRange THREAD_MAX).find? fun i => (s.tcb i).tid = tid with
  | none => .other
  | some temp => joinLoopEvent s temp

/-- One step of a run, as in `ThreadRun`, with its event. -/
inductive ThreadStep (L : Layout) : Ctl → Sched → ThreadEvent → Ctl → Sched → Prop where
  | create {res s} (startAddr ustack : BitVec 32) : ThreadStep L (.user res) s
      (if (threadAlloc s).isSome then .created s.nextTid else .other)
      ((ThreadCall.create startAddr ustack).run L s).1
      ((ThreadCall.create startAddr ustack).run L s).2
  | yield {res s} : ThreadStep L (.user res) s
      (.scheduled s.currentTid (dispatched (ThreadCall.yield.run L s)))
      (ThreadCall.yield.run L s).1 (ThreadCall.yield.run L s).2
  | preempt {res s} : ThreadStep L (.user res) s
      (.scheduled s.currentTid (dispatched (ThreadCall.preempt.run L s)))
      (ThreadCall.preempt.run L s).1 (ThreadCall.preempt.run L s).2
  | exit {res s} (status : BitVec 32) :
      (∃ t, s.currentThread ≠ some t ∧ s.Live t ∧ (s.tcb t).runstate ≠ .exited) →
      ThreadStep L (.user res) s (.scheduled none (dispatched ((ThreadCall.exit status).run L s)))
      ((ThreadCall.exit status).run L s).1 ((ThreadCall.exit status).run L s).2
  | join {res s} (tid : BitVec 32) : ThreadStep L (.user res) s (joinEvent s tid)
      ((ThreadCall.join tid).run L s).1 ((ThreadCall.join tid).run L s).2
  | joinLoop {temp s} : ThreadStep L (.join temp) s (joinLoopEvent s temp)
      (threadJoinLoop s temp).1 (threadJoinLoop s temp).2

inductive ThreadTrace (L : Layout) : Ctl → Sched → List ThreadEvent → Ctl → Sched → Prop where
  | refl {ctl s} : ThreadTrace L ctl s [] ctl s
  | head {ctl s e ctl' s' tr ctl'' s''} : ThreadStep L ctl s e ctl' s' →
      ThreadTrace L ctl' s' tr ctl'' s'' → ThreadTrace L ctl s (e :: tr) ctl'' s''

/-- The number of threads an event creates. -/
def ThreadEvent.creations : ThreadEvent → Nat
  | .created _ => 1
  | _ => 0

/-- The threads that an event puts at the end of the queue. -/
def ThreadEvent.enqueues : ThreadEvent → List (BitVec 32)
  | .created tid => [tid]
  | .scheduled requeued _ => requeued.toList
  | .other => []

/-- What a scheduling event dispatches. -/
def ThreadEvent.dispatches : ThreadEvent → List (Option (BitVec 32))
  | .scheduled _ next => [next]
  | _ => []

def creations (tr : List ThreadEvent) : Nat := (tr.map (·.creations)).sum

def enqueues (tr : List ThreadEvent) : List (BitVec 32) := tr.flatMap (·.enqueues)

def dispatches (tr : List ThreadEvent) : List (Option (BitVec 32)) := tr.flatMap (·.dispatches)

def Sched.tids (s : Sched) (q : List (Fin THREAD_MAX)) : List (BitVec 32) := q.map fun t => (s.tcb t).tid

-- ---------------------------------------------------------------------------
-- The queue is a round-robin queue
-- ---------------------------------------------------------------------------

variable {L : Layout} {p : Fin PROCESS_MAX} {n : Nat} {T : Finset (BitVec 32)} {ctl ctl' : Ctl}
  {s s' : Sched} {q ts : List (Fin THREAD_MAX)} {c : Fin THREAD_MAX} {e : ThreadEvent}
  {tr : List ThreadEvent}

/-- The abstract queue of a state. The members so far are the tids given out. -/
def RunInv.roundRobin (h : RunInv L p n T ctl s q ts c) : RoundRobin (BitVec 32) where
  current := (s.tcb c).tid
  queue := s.tids q
  used := {x | x.toNat ≤ n}
  nodup := by
    have hnd : (c :: q).Nodup :=
      List.nodup_cons.mpr ⟨h.sched.ready.current c h.running.current, h.sched.ready.nodup⟩
    refine List.Nodup.map_on (f := fun t => (s.tcb t).tid) (fun t ht u _ heq => ?_) hnd
    rcases List.mem_cons.mp ht with rfl | ht
    · exact h.sched.tid_inj _ u h.running.live heq
    · exact h.sched.tid_inj t u (h.sched.ready.runnable t ht).1 heq
  known := by
    intro x hx
    have hx' : x ∈ (c :: q).map fun t => (s.tcb t).tid := hx
    obtain ⟨t, -, rfl⟩ := List.mem_map.mp hx'
    have := h.sched.tid_lt t
    rw [h.nextTid] at this
    exact Nat.le_of_lt_succ this

/-- Who has the CPU in a run. -/
theorem RunInv.dispatched (h : RunInv L p n T ctl s q ts c) :
    Munix.dispatched (ctl, s) = some (s.tcb c).tid := by
  have hret := h.returns
  cases ctl with
  | user res => simp [Munix.dispatched, h.running.current]
  | join temp => simp [Munix.dispatched, h.running.current]
  | _ => exact absurd hret (by simp [Ctl.Returns])

theorem RunInv.currentTid (h : RunInv L p n T ctl s q ts c) : s.currentTid = some (s.tcb c).tid := by
  simp [Sched.currentTid, h.running.current]

/-- `schedule` after the current thread stays runnable. -/
theorem RunInv.requeue (h : RunInv L p n T ctl s q ts c) {f : Thread → Thread} (here : Ctl)
    (hf : ∀ th, (f th).tid = th.tid ∧ (f th).process = th.process ∧
      (f th).threadStack = th.threadStack)
    (hready : ∀ th, (f th).runstate = .ready) (hret : here.Returns) :
    ∃ q' c', ∃ h' : RunInv L p n T (schedule (s.setCurrent f) here).1
      (schedule (s.setCurrent f) here).2 q' ts c', RoundRobin.Run h.roundRobin [(s.tcb c).tid]
        [((schedule (s.setCurrent f) here).2.tcb c').tid] h'.roundRobin := by
  obtain ⟨q', c', hq, htid, h'⟩ := h.switch here hf (by simp [hready]) (fun _ _ => hret) (.inr hready)
  have hback : (s.setCurrent f).requeued = [c] := by
    simp [Sched.requeued, Sched.setCurrent, h.running.current, Sched.setThread, hready]
  rw [hback] at hq
  have hqueue : h.roundRobin.queue ++ [h.roundRobin.current] =
      h'.roundRobin.current :: h'.roundRobin.queue := by
    have hmap := congrArg (List.map fun t => (s.tcb t).tid) hq
    simpa [RunInv.roundRobin, Sched.tids, htid] using hmap
  exact ⟨q', c', h', (RoundRobin.Step.requeue hqueue rfl).run⟩

/-- `schedule` after the current thread has exited. -/
theorem RunInv.retire (h : RunInv L p n T ctl s q ts c) {f : Thread → Thread} (here : Ctl)
    (hf : ∀ th, (f th).tid = th.tid ∧ (f th).process = th.process ∧
      (f th).threadStack = th.threadStack)
    (hexited : ∀ th, (f th).runstate = .exited) (hq : q ≠ []) :
    ∃ q' c', ∃ h' : RunInv L p n T (schedule (s.setCurrent f) here).1
      (schedule (s.setCurrent f) here).2 q' ts c', RoundRobin.Run h.roundRobin []
        [((schedule (s.setCurrent f) here).2.tcb c').tid] h'.roundRobin := by
  obtain ⟨q', c', hq, htid, h'⟩ := h.switch here hf (by simp [hexited]) (by simp [hexited]) (.inl hq)
  have hback : (s.setCurrent f).requeued = [] := by
    simp [Sched.requeued, Sched.setCurrent, h.running.current, Sched.setThread, hexited]
  rw [hback, List.append_nil] at hq
  have hqueue : h.roundRobin.queue = h'.roundRobin.current :: h'.roundRobin.queue := by
    have hmap := congrArg (List.map fun t => (s.tcb t).tid) hq
    simpa [RunInv.roundRobin, Sched.tids, htid] using hmap
  exact ⟨q', c', h', (RoundRobin.Step.retire hqueue rfl).run⟩

/-- A step of the threads is a run of the abstract queue with the same events. -/
def Simulates (h : RunInv L p n T ctl s q ts c) (e : ThreadEvent) (r : Ctl × Sched) : Prop :=
  ∃ T' q' ts' c', ∃ h' : RunInv L p (n + e.creations) T' r.1 r.2 q' ts' c', ∃ ds,
    e.dispatches = ds.map some ∧ RoundRobin.Run h.roundRobin e.enqueues ds h'.roundRobin

/-- A step that leaves the queue and the current thread alone. -/
theorem RunInv.idle (h : RunInv L p n T ctl s q ts c) {T' : Finset (BitVec 32)} {r : Ctl × Sched}
    {ts' : List (Fin THREAD_MAX)} (h' : RunInv L p n T' r.1 r.2 q ts' c)
    (htid : ∀ t, s.Live t → t = c ∨ t ∈ q → (r.2.tcb t).tid = (s.tcb t).tid) :
    Simulates h .other r := by
  have hsame : h'.roundRobin = h.roundRobin := by
    have hqueue : r.2.tids q = s.tids q :=
      List.map_congr_left fun t ht => htid t (h.sched.ready.runnable t ht).1 (.inr ht)
    simp only [RunInv.roundRobin, hqueue, htid c h.running.live (.inl rfl)]
  exact ⟨T', q, ts', c, h', [], rfl, hsame ▸ .refl _⟩

/-- A step that ends in `schedule` with the current thread runnable. -/
theorem RunInv.simulates_requeue (h : RunInv L p n T ctl s q ts c) {f : Thread → Thread} (here : Ctl)
    (hf : ∀ th, (f th).tid = th.tid ∧ (f th).process = th.process ∧
      (f th).threadStack = th.threadStack)
    (hready : ∀ th, (f th).runstate = .ready) (hret : here.Returns) :
    Simulates h (.scheduled s.currentTid (Munix.dispatched (schedule (s.setCurrent f) here)))
      (schedule (s.setCurrent f) here) := by
  obtain ⟨q', c', h', hrun⟩ := h.requeue here hf hready hret
  refine ⟨T, q', ts, c', h', [((schedule (s.setCurrent f) here).2.tcb c').tid], ?_, ?_⟩
  · rw [ThreadEvent.dispatches, h'.dispatched]
    rfl
  · rw [ThreadEvent.enqueues, h.currentTid]
    exact hrun

theorem RunInv.simulates_joinLoop (h : RunInv L p n T ctl s q ts c) (temp : Fin THREAD_MAX) :
    Simulates h (joinLoopEvent s temp) (threadJoinLoop s temp) := by
  unfold joinLoopEvent
  by_cases hr : (s.tcb temp).runstate = .exited
  · rw [if_pos hr]
    refine h.idle (h.joined hr) fun t _ hin => ?_
    -- neither the current thread nor a queued one is closed
    have hne : t ≠ temp := by
      rintro rfl
      rcases hin with rfl | hin
      · exact absurd hr (by simp [h.running.state])
      · exact (h.sched.ready.runnable _ hin).2 hr
    simp [threadJoinLoop, hr, threadClose, hne]
  · rw [if_neg hr, threadJoinLoop, if_pos hr]
    exact h.simulates_requeue _ (fun _ => ⟨rfl, rfl, rfl⟩) (fun _ => rfl) trivial

/-- A new thread is put at the end of the queue. -/
theorem RunInv.simulates_create (h : RunInv L p n T ctl s q ts c) (hn : n + 2 < 2 ^ 32)
    {t : Fin THREAD_MAX} (ht : threadAlloc s = some t) (startAddr ustack : BitVec 32) :
    Simulates h (.created s.nextTid) ((ThreadCall.create startAddr ustack).run L s) := by
  have h' := h.create_last hn ht startAddr ustack
  have hfree := not_live_of_alloc ht
  have hs' : ((ThreadCall.create startAddr ustack).run L s).2 =
      (threadCreate L s p startAddr ustack).2 := by
    simp only [ThreadCall.run, h.running.process]
  obtain ⟨-, -, -, -, hself, htcb⟩ := threadCreate_state L p startAddr ustack ht
  rw [← hs'] at hself htcb
  have htid : ∀ u, s.Live u →
      (((ThreadCall.create startAddr ustack).run L s).2.tcb u).tid = (s.tcb u).tid := by
    intro u hu
    have hne : u ≠ t := fun heq => hfree (heq ▸ hu)
    rw [htcb u hne]
  have hcur : h'.roundRobin.current = h.roundRobin.current := htid c h.running.live
  have hqueue : h'.roundRobin.queue = h.roundRobin.queue ++ [s.nextTid] := by
    have hq : ((ThreadCall.create startAddr ustack).run L s).2.tids q = s.tids q :=
      List.map_congr_left fun u hu => htid u (h.sched.ready.runnable u hu).1
    simp only [RunInv.roundRobin, Sched.tids, List.map_append, List.map_cons, List.map_nil, hself]
    rw [← Sched.tids, hq]
    rfl
  have hused : h'.roundRobin.used = insert s.nextTid h.roundRobin.used := by
    ext x
    have hnext := h.nextTid
    simp only [RunInv.roundRobin, Set.mem_insert_iff, Set.mem_ofPred_eq]
    constructor
    · intro hx
      by_cases hle : x.toNat ≤ n
      · exact .inr hle
      · exact .inl (BitVec.eq_of_toNat_eq (by omega))
    · intro hx
      rcases hx with rfl | hx
      · omega
      · omega
  have hfresh : s.nextTid ∉ h.roundRobin.used := by
    have hnext := h.nextTid
    simp only [RunInv.roundRobin, Set.mem_ofPred_eq]
    omega
  exact ⟨_, _, _, _, h', [], rfl, (RoundRobin.Step.spawn _ hfresh hcur hqueue hused).run⟩

theorem RunInv.simulates (h : RunInv L p n T ctl s q ts c) (hstep : ThreadStep L ctl s e ctl' s')
    (hn : n + e.creations < 2 ^ 31) : Simulates h e (ctl', s') := by
  cases hstep with
  | create startAddr ustack =>
    cases ht : threadAlloc s with
    | none =>
      have hrun : (ThreadCall.create startAddr ustack).run L s = (.user (-ENOSYS), s) := by
        simp only [ThreadCall.run, h.running.process, threadCreate, ht]
      rw [hrun]
      exact h.idle (r := (.user (-ENOSYS), s))
        ⟨h.sched, h.running, trivial, h.nextTid, h.tids⟩ fun _ _ _ => rfl
    | some t =>
      rw [ht] at hn
      simp only [Option.isSome_some, if_true, ThreadEvent.creations] at hn
      exact h.simulates_create (by omega) ht startAddr ustack
  | yield => exact h.simulates_requeue _ (fun _ => ⟨rfl, rfl, rfl⟩) (fun _ => rfl) trivial
  | preempt => exact h.simulates_requeue _ (fun _ => ⟨rfl, rfl, rfl⟩) (fun _ => rfl) trivial
  | exit status hother =>
    obtain ⟨t, htc, htl, htr⟩ := hother
    have hq : q ≠ [] := List.ne_nil_of_mem (h.sched.queued t htl htr htc)
    obtain ⟨q', c', h', hrun⟩ := h.retire .noreturn
      (f := fun th => { th with exitStatus := status, runstate := .exited })
      (fun _ => ⟨rfl, rfl, rfl⟩) (fun _ => rfl) hq
    refine ⟨T, q', ts, c', h', _, ?_, hrun⟩
    have hd := h'.dispatched
    exact congrArg (fun x => [x]) hd
  | join tid =>
    simp only [ThreadCall.run, threadJoin, joinEvent]
    cases (List.finRange THREAD_MAX).find? fun i => decide ((s.tcb i).tid = tid) with
    | none =>
      exact h.idle (r := (.user (-ESRCH), s))
        ⟨h.sched, h.running, trivial, h.nextTid, h.tids⟩ fun _ _ _ => rfl
    | some temp => exact h.simulates_joinLoop temp
  | joinLoop => exact h.simulates_joinLoop _

/-- **Every run is a run of the round-robin queue**, with the same threads put in
and dispatched. -/
theorem ThreadTrace.roundRobin (htr : ThreadTrace L ctl s tr ctl' s')
    (h : RunInv L p n T ctl s q ts c) (hn : n + creations tr < 2 ^ 31) :
    ∃ T' q' ts' c', ∃ h' : RunInv L p (n + creations tr) T' ctl' s' q' ts' c', ∃ ds,
      dispatches tr = ds.map some ∧ RoundRobin.Run h.roundRobin (enqueues tr) ds h'.roundRobin := by
  induction htr generalizing n T q ts c with
  | refl => exact ⟨T, q, ts, c, h, [], rfl, .refl _⟩
  | head hstep _ ih =>
    rename_i e _ _ tr _ _ _
    have hsum : n + creations (e :: tr) = n + e.creations + creations tr := by
      simp only [creations, List.map_cons, List.sum_cons]
      omega
    rw [hsum] at hn
    obtain ⟨T₁, q₁, ts₁, c₁, h₁, ds₁, hds₁, hrun₁⟩ := h.simulates hstep (by omega)
    obtain ⟨T', q', ts', c', h', ds, hds, hrun⟩ := ih h₁ hn
    rw [hsum]
    refine ⟨T', q', ts', c', h', ds₁ ++ ds, ?_, hrun₁.trans hrun⟩
    rw [List.map_append, ← hds₁, ← hds]
    rfl

-- ---------------------------------------------------------------------------
-- The order of dispatches
-- ---------------------------------------------------------------------------

/-- **Round-robin order.** A run has reached `s`, with `q` in the ready queue, and
goes on with the events `tr`. The thread at position `k` of the queue is dispatched
at the `k`-th of the following scheduling events, counted from 0, and at none before
it; what was in the queue and what is put in meanwhile leaves it in this order; and
when the thread that was running is dispatched again for the first time, each thread
of the queue has been dispatched once in between. -/
theorem threadTrace_dispatches (hrun : ThreadRun L p n T ctl s) (htr : ThreadTrace L ctl s tr ctl' s')
    (hn : n + creations tr < 2 ^ 31) (hq : IsList s.links .readyQueue (q.map .queue)) :
    (∀ k (hk : k < q.length) (hd : k < (dispatches tr).length),
      (dispatches tr)[k] = some (s.tcb q[k]).tid ∧
        ∀ i (hi : i < k), (dispatches tr)[i] ≠ some (s.tcb q[k]).tid) ∧
    (∃ q', IsList s'.links .readyQueue (q'.map .queue) ∧
      (s.tids q ++ enqueues tr).map some = dispatches tr ++ (s'.tids q').map some) ∧
    ∀ c mid, s.currentThread = some c → dispatches tr = mid ++ [some (s.tcb c).tid] →
      some (s.tcb c).tid ∉ mid → ∀ t ∈ q, mid.count (some (s.tcb t).tid) = 1 := by
  obtain ⟨q₀, ts, c, h⟩ := hrun.inv (by omega)
  obtain rfl : q₀ = q :=
    List.map_injective_iff.mpr queue_injective (h.sched.ready.queue.unique hq)
  obtain ⟨T', q', ts', c', h', ds, hds, hrr⟩ := htr.roundRobin h hn
  refine ⟨fun k hk hd => ?_, ⟨q', h'.sched.ready.queue, ?_⟩, fun c₁ mid hc₁ hmid hout t ht => ?_⟩
  · have hk' : k < h.roundRobin.queue.length := by simpa [RunInv.roundRobin, Sched.tids] using hk
    have hlen : (dispatches tr).length = ds.length := by rw [hds, List.length_map]
    obtain ⟨hat, hbefore⟩ := hrr.dispatched_at hk' (hlen ▸ hd)
    have htid : h.roundRobin.queue[k] = (s.tcb q₀[k]).tid := by simp [RunInv.roundRobin, Sched.tids]
    simp only [hds, List.getElem_map, hat, htid, ne_eq, Option.some.injEq, true_and]
    intro i hi
    rw [← htid]
    exact hbefore i hi
  · rw [hds, ← List.map_append]
    exact congrArg (List.map some) hrr.fifo
  · obtain rfl : c = c₁ := by simpa [h.running.current] using hc₁
    -- the dispatches in between, by tid
    obtain ⟨before, last, hsplit, rfl, hlast⟩ := List.map_eq_append_iff.mp (hds.symm.trans hmid)
    obtain ⟨x, rest, rfl, hx, hrest⟩ := List.map_eq_cons_iff.mp hlast
    obtain rfl := List.map_eq_nil_iff.mp hrest
    obtain rfl : x = (s.tcb c).tid := Option.some.inj hx
    rw [hsplit] at hrr
    have hout' : h.roundRobin.current ∉ before := fun hin => hout (List.mem_map_of_mem hin)
    rw [List.count_map_of_injective _ _ (Option.some_injective _)]
    exact hrr.round hout' _ (List.mem_map_of_mem ht)

theorem threadTrace_dispatches_two :
    ∃ n T tr ctl' s', ∃ q : List (Fin THREAD_MAX),
      ThreadRun lowLayout firstProcess n T twoThreads.1 twoThreads.2 ∧
      ThreadTrace lowLayout twoThreads.1 twoThreads.2 tr ctl' s' ∧ n + creations tr < 2 ^ 31 ∧
      IsList twoThreads.2.links .readyQueue (q.map .queue) ∧
      ∃ t, q.head? = some t ∧ (dispatches tr)[0]? = some (some (twoThreads.2.tcb t).tid) := by
  have hstarted : startedSched.1 = .user 0 := by decide +kernel
  have htwo : twoThreads.1 = .user 2 := by decide +kernel
  have hfree : (threadAlloc startedSched.2).isSome = true := by decide +kernel
  have hnext : (twoThreads.2.links .readyQueue).next = .queue ⟨1, by decide⟩ := by decide +kernel
  have hstart : ThreadRun lowLayout firstProcess 1 {1#32} startedSched.1 startedSched.2 :=
    .start 0#32 0x400000#32 0x500000#32 0
  rw [hstarted] at hstart
  have hrun := hstart.create 0x400100#32 0x600000#32
  rw [hfree] at hrun
  have hrun : ThreadRun lowLayout firstProcess 2 _ twoThreads.1 twoThreads.2 := hrun
  obtain ⟨q, ts, c, h⟩ := hrun.inv (by norm_num)
  have hstep : ThreadStep lowLayout (.user 2) twoThreads.2 _ _ _ := .yield
  rw [← htwo] at hstep
  have htrace := ThreadTrace.head hstep .refl
  refine ⟨_, _, _, _, _, q, hrun, htrace, (by decide), h.sched.ready.queue, ?_⟩
  cases q with
  | nil =>
    have := h.sched.ready.queue.next_eq_of_nil
    rw [hnext] at this
    exact absurd this (by decide)
  | cons t q =>
    have hfirst := ((threadTrace_dispatches hrun htrace (by decide) h.sched.ready.queue).1 0
      (by simp) (by decide)).1
    exact ⟨t, rfl, by rw [List.getElem?_eq_getElem (by decide), hfirst]; rfl⟩

end Munix
