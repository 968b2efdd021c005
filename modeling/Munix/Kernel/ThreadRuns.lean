import Munix.Kernel.SchedulerInv
import Mathlib.Order.CompletePartialOrder

/-!
# Munix — runs of the threads of one process

`ThreadRun` are the runs that `process_start` begins: from then on the thread
that has the CPU makes a thread call or is interrupted by the timer, or goes
on in the loop of `thread_join`. `threadRun_invariant` is what holds in every
state such a run reaches.
-/

namespace Munix

open LinkHeap

-- ---------------------------------------------------------------------------
-- Runs
-- ---------------------------------------------------------------------------

/-- The thread that the loop of `thread_join` closes on slot `temp`, by tid. -/
def joinLoopCloses (s : Sched) (temp : Fin THREAD_MAX) : Finset (BitVec 32) :=
  if (s.tcb temp).runstate = .exited then {(s.tcb temp).tid} else ∅

/-- The thread that `thread_join(tid)` closes at once. -/
def joinCloses (s : Sched) (tid : BitVec 32) : Finset (BitVec 32) :=
  match (List.finRange THREAD_MAX).find? fun i => (s.tcb i).tid = tid with
  | none => ∅
  | some temp => joinLoopCloses s temp

/-- `ThreadRun L p n T ctl s`: a run of the threads of the first process `p`
has reached `s` with the CPU at `ctl`. `n` threads have been created since
boot, and `T` are the tids of those that no join has closed. -/
inductive ThreadRun (L : Layout) (p : Fin PROCESS_MAX) :
    Nat → Finset (BitVec 32) → Ctl → Sched → Prop where
  | start (stray startAddr ustack : BitVec 32) (shell : Nat) :
      ThreadRun L p 1 {1#32} (startThread L (.boot stray) p startAddr ustack (.start shell p)).1
        (startThread L (.boot stray) p startAddr ustack (.start shell p)).2
  | create {n T res s} (startAddr ustack : BitVec 32) : ThreadRun L p n T (.user res) s →
      ThreadRun L p (if (threadAlloc s).isSome then n + 1 else n)
        (if (threadAlloc s).isSome then insert s.nextTid T else T)
        ((ThreadCall.create startAddr ustack).run L s).1
        ((ThreadCall.create startAddr ustack).run L s).2
  | yield {n T res s} : ThreadRun L p n T (.user res) s →
      ThreadRun L p n T (ThreadCall.yield.run L s).1 (ThreadCall.yield.run L s).2
  | preempt {n T res s} : ThreadRun L p n T (.user res) s →
      ThreadRun L p n T (ThreadCall.preempt.run L s).1 (ThreadCall.preempt.run L s).2
  | exit {n T res s} (status : BitVec 32) : ThreadRun L p n T (.user res) s →
      (∃ t, s.currentThread ≠ some t ∧ s.Live t ∧ (s.tcb t).runstate ≠ .exited) →
      ThreadRun L p n T ((ThreadCall.exit status).run L s).1 ((ThreadCall.exit status).run L s).2
  | join {n T res s} (tid : BitVec 32) : ThreadRun L p n T (.user res) s →
      ThreadRun L p n (T \ joinCloses s tid) ((ThreadCall.join tid).run L s).1
        ((ThreadCall.join tid).run L s).2
  | joinLoop {n T temp s} : ThreadRun L p n T (.join temp) s →
      ThreadRun L p n (T \ joinLoopCloses s temp) (threadJoinLoop s temp).1 (threadJoinLoop s temp).2

-- ---------------------------------------------------------------------------
-- Steps
-- ---------------------------------------------------------------------------

/-- The invariant of a run. -/
structure RunInv (L : Layout) (p : Fin PROCESS_MAX) (n : Nat) (T : Finset (BitVec 32)) (ctl : Ctl)
    (s : Sched) (q ts : List (Fin THREAD_MAX)) (c : Fin THREAD_MAX) : Prop where
  sched   : SchedInv L p s q ts
  running : Running p s c
  returns : ctl.Returns
  nextTid : s.nextTid.toNat = n + 1
  tids    : ∀ x, x ∈ T ↔ ∃ t, s.Live t ∧ (s.tcb t).tid = x

variable {L : Layout} {p : Fin PROCESS_MAX} {n : Nat} {T : Finset (BitVec 32)} {ctl : Ctl} {s : Sched}
  {q ts : List (Fin THREAD_MAX)} {c : Fin THREAD_MAX}

theorem setCurrent_tid (s : Sched) {f : Thread → Thread} (hf : ∀ th, (f th).tid = th.tid)
    (t : Fin THREAD_MAX) : ((s.setCurrent f).tcb t).tid = (s.tcb t).tid := by
  unfold Sched.setCurrent
  split
  · rfl
  · rename_i c _
    by_cases ht : t = c
    · subst ht
      simp [Sched.setThread, hf]
    · simp [Sched.setThread, ht]

theorem setCurrent_nextTid (s : Sched) (f : Thread → Thread) :
    (s.setCurrent f).nextTid = s.nextTid := by
  unfold Sched.setCurrent
  split <;> rfl

/-- The current thread changes its run state and calls `schedule`, which takes the
first thread of the queue. -/
theorem RunInv.switch (h : RunInv L p n T ctl s q ts c) {f : Thread → Thread} (here : Ctl)
    (hf : ∀ th, (f th).tid = th.tid ∧ (f th).process = th.process ∧
      (f th).threadStack = th.threadStack)
    (hnew : ∀ th, (f th).runstate ≠ .new) (hret : ∀ th, (f th).runstate = .ready → here.Returns)
    (hsome : q ≠ [] ∨ ∀ th, (f th).runstate = .ready) :
    ∃ q' c', q ++ (s.setCurrent f).requeued = c' :: q' ∧
      (∀ t, ((schedule (s.setCurrent f) here).2.tcb t).tid = (s.tcb t).tid) ∧
      RunInv L p n T (schedule (s.setCurrent f) here).1 (schedule (s.setCurrent f) here).2 q' ts c' := by
  have hcur := h.running.current
  have hinv := h.sched.setCurrent hcur h.running.live hf
  have htid := setCurrent_tid s (f := f) fun th => (hf th).1
  have hs : s.setCurrent f = s.setThread c f := by simp [Sched.setCurrent, hcur]
  have hstate : ((s.setCurrent f).tcb c).runstate = (f (s.tcb c)).runstate := by
    simp [hs, Sched.setThread]
  have hcur' : (s.setCurrent f).currentThread = some c := by
    rw [hs]
    exact hcur
  have hne : q ++ (s.setCurrent f).requeued ≠ [] := by
    rcases hsome with hq | hready
    · simp [hq]
    · have hmem : c ∈ (s.setCurrent f).requeued :=
        mem_requeued.mpr ⟨hcur', by rw [hstate, hready]⟩
      intro h0
      simp [(List.append_eq_nil_iff.mp h0).2] at hmem
  obtain ⟨x, q', hq', hinv', hrun', hret', hnext, htid'⟩ := hinv.schedule here (by
    intro c' hc'
    obtain rfl : c = c' := by simpa [hcur'] using hc'
    refine ⟨?_, ?_, ?_⟩
    · rw [Sched.Live, htid]
      exact h.running.live
    · rw [hstate]
      exact hnew _
    · rw [hstate]
      exact hret _) hne
  refine ⟨q', x, hq', fun t => (htid' t).trans (htid t), hinv', hrun', hret', ?_, ?_⟩
  · rw [hnext, setCurrent_nextTid, h.nextTid]
  · intro y
    rw [h.tids y]
    simp only [Sched.Live, htid', htid]

/-- The current thread changes its run state and calls `schedule`. -/
theorem RunInv.reschedule (h : RunInv L p n T ctl s q ts c) {f : Thread → Thread} (here : Ctl)
    (hf : ∀ th, (f th).tid = th.tid ∧ (f th).process = th.process ∧
      (f th).threadStack = th.threadStack)
    (hnew : ∀ th, (f th).runstate ≠ .new) (hret : ∀ th, (f th).runstate = .ready → here.Returns)
    (hsome : q ≠ [] ∨ ∀ th, (f th).runstate = .ready) :
    ∃ q' c', RunInv L p n T (schedule (s.setCurrent f) here).1 (schedule (s.setCurrent f) here).2
      q' ts c' := by
  obtain ⟨q', c', -, -, h'⟩ := h.switch here hf hnew hret hsome
  exact ⟨q', c', h'⟩

/-- A new thread goes to the end of the queue. -/
theorem RunInv.create_last (h : RunInv L p n T ctl s q ts c) (hn : n + 2 < 2 ^ 32)
    {t : Fin THREAD_MAX} (ht : threadAlloc s = some t) (startAddr ustack : BitVec 32) :
    RunInv L p (n + 1) (insert s.nextTid T) ((ThreadCall.create startAddr ustack).run L s).1
      ((ThreadCall.create startAddr ustack).run L s).2 (q ++ [t]) (t :: ts) c := by
  have hfree := not_live_of_alloc ht
  have hcur := h.running.current
  have htc : t ≠ c := by
    rintro rfl
    exact hfree h.running.live
  have hnext := h.nextTid
  have hinv := h.sched.threadCreate ht (by omega) (by omega)
    (by rw [hcur]; simpa using Ne.symm htc) startAddr ustack
  set s' := (threadCreate L s p startAddr ustack).2 with hs'
  have hrun : (ThreadCall.create startAddr ustack).run L s =
      (.user (threadCreate L s p startAddr ustack).1, s') := by
    simp only [ThreadCall.run, h.running.process, hs']
  obtain ⟨hcur', hproc', hesp', hnext', hself, htcb⟩ := threadCreate_state L p startAddr ustack ht
  have hlivet : s'.Live t := by
    rw [Sched.Live, hself]
    intro h0
    simp [h0] at hnext
  rw [hrun]
  refine ⟨hinv, ?_, trivial, ?_, ?_⟩
  · refine ⟨hcur'.trans hcur, hproc'.trans h.running.process, ?_, ?_, ?_⟩
    · rw [Sched.Live, htcb c (Ne.symm htc)]
      exact h.running.live
    · rw [htcb c (Ne.symm htc)]
      exact h.running.state
    · rw [htcb c (Ne.symm htc)]
      exact hesp'.trans h.running.esp0
  · rw [hnext']
    bv_omega
  · intro x
    rw [Finset.mem_insert, h.tids x]
    constructor
    · rintro (rfl | ⟨u, hu, rfl⟩)
      · exact ⟨t, hlivet, hself⟩
      · have hut : u ≠ t := by
          rintro rfl
          exact hfree hu
        exact ⟨u, by rw [Sched.Live, htcb u hut]; exact hu, by rw [htcb u hut]⟩
    · rintro ⟨u, hu, rfl⟩
      by_cases hut : u = t
      · rw [hut, hself]
        exact .inl rfl
      · rw [Sched.Live, htcb u hut] at hu
        rw [htcb u hut]
        exact .inr ⟨u, hu, rfl⟩

theorem RunInv.create (h : RunInv L p n T ctl s q ts c) (hn : n + 2 < 2 ^ 32)
    {t : Fin THREAD_MAX} (ht : threadAlloc s = some t) (startAddr ustack : BitVec 32) :
    ∃ q' ts', RunInv L p (n + 1) (insert s.nextTid T)
      ((ThreadCall.create startAddr ustack).run L s).1
      ((ThreadCall.create startAddr ustack).run L s).2 q' ts' c :=
  ⟨_, _, h.create_last hn ht startAddr ustack⟩

/-- The thread that has been waited for is closed and its status returned. -/
theorem RunInv.joined (h : RunInv L p n T ctl s q ts c) {temp : Fin THREAD_MAX}
    (hr : (s.tcb temp).runstate = .exited) :
    RunInv L p n (T \ joinLoopCloses s temp) (threadJoinLoop s temp).1 (threadJoinLoop s temp).2 q
      (ts.erase temp) c := by
  unfold threadJoinLoop
  rw [if_neg (by simpa using hr)]
  have hlive : s.Live temp := by
    by_contra hfree
    simp [h.sched.free temp hfree] at hr
  have htc : c ≠ temp := by
    rintro rfl
    simp [h.running.state] at hr
  have htcb : ∀ u, u ≠ temp → (threadClose s temp).tcb u = s.tcb u := by
    intro u hu
    simp [threadClose, hu]
  have hdead : ¬ (threadClose s temp).Live temp := by simp [Sched.Live, threadClose, Thread.zero]
  refine ⟨h.sched.threadClose hr, ?_, trivial, h.nextTid, ?_⟩
  · refine ⟨h.running.current, h.running.process, ?_, ?_, ?_⟩
    · rw [Sched.Live, htcb c htc]
      exact h.running.live
    · rw [htcb c htc]
      exact h.running.state
    · rw [htcb c htc]
      exact h.running.esp0
  · intro x
    rw [joinLoopCloses, if_pos hr, Finset.mem_sdiff, Finset.mem_singleton, h.tids x]
    constructor
    · rintro ⟨⟨u, hu, rfl⟩, hne⟩
      have hut : u ≠ temp := by
        rintro rfl
        exact hne rfl
      exact ⟨u, by rw [Sched.Live, htcb u hut]; exact hu, by rw [htcb u hut]⟩
    · rintro ⟨u, hu, rfl⟩
      have hut : u ≠ temp := by
        rintro rfl
        exact hdead hu
      rw [Sched.Live, htcb u hut] at hu
      rw [htcb u hut]
      exact ⟨⟨u, hu, rfl⟩, fun heq => hut (h.sched.tid_inj u temp hu heq)⟩

theorem RunInv.joinLoop (h : RunInv L p n T ctl s q ts c) (temp : Fin THREAD_MAX) :
    ∃ q' ts' c', RunInv L p n (T \ joinLoopCloses s temp) (threadJoinLoop s temp).1
      (threadJoinLoop s temp).2 q' ts' c' := by
  by_cases hr : (s.tcb temp).runstate = .exited
  · exact ⟨q, ts.erase temp, c, h.joined hr⟩
  · unfold threadJoinLoop
    rw [if_pos hr]
    obtain ⟨q', c', h'⟩ := h.reschedule (.join temp)
      (f := fun th => { th with runstate := .ready, yieldCt := th.yieldCt + 1#32 })
      (fun _ => ⟨rfl, rfl, rfl⟩) (by simp) (fun _ _ => trivial) (.inr fun _ => rfl)
    refine ⟨q', ts, c', ?_⟩
    rw [joinLoopCloses, if_neg hr, Finset.sdiff_empty]
    exact h'

-- ---------------------------------------------------------------------------
-- The start of the first process
-- ---------------------------------------------------------------------------

theorem SchedInv.boot (L : Layout) (p : Fin PROCESS_MAX) (stray : BitVec 32)
    (cp : Option (Fin PROCESS_MAX)) :
    SchedInv L p { Sched.boot stray with currentProcess := cp } [] [] := by
  have hdead : ∀ t, ¬ Sched.Live { Sched.boot stray with currentProcess := cp } t := by
    intro t
    simp [Sched.Live, Sched.boot, Thread.zero]
  have hnil : ∀ head : Node, head ≠ 0 →
      IsList (Sched.boot stray).links head ([] : List Node) := by
    intro head h0
    exact ⟨by simp, by simpa using Ne.symm h0, .inl ⟨rfl, rfl⟩⟩
  refine ⟨⟨hnil _ (by decide), by simp, by simp⟩, fun t ht => absurd ht (hdead t),
    hnil _ (by simp), fun t => iff_of_false (by simp) (hdead t),
    fun t ht => absurd ht (hdead t), fun _ _ => rfl, fun t ht => absurd ht (hdead t),
    fun _ _ => rfl, by simp, ?_, fun t _ ht => absurd ht (hdead t)⟩
  intro t
  simp [Sched.boot, Thread.zero]

theorem threadAlloc_boot (stray : BitVec 32) (cp : Option (Fin PROCESS_MAX)) :
    threadAlloc { Sched.boot stray with currentProcess := cp } = some ⟨0, by decide⟩ := by
  simp [threadAlloc, Sched.boot, Thread.zero, List.finRange, THREAD_MAX]

/-- The first thread has been created. -/
theorem SchedInv.first (L : Layout) (p : Fin PROCESS_MAX) (stray startAddr ustack : BitVec 32) :
    SchedInv L p (Munix.threadCreate L { Sched.boot stray with currentProcess := some p } p startAddr
      ustack).2 [⟨0, by decide⟩] [⟨0, by decide⟩] :=
  (SchedInv.boot L p stray (some p)).threadCreate (threadAlloc_boot stray _)
    (show 0 < (1#32).toNat by decide) (show (1#32).toNat + 1 < 2 ^ 32 by decide) nofun startAddr ustack

theorem RunInv.start (L : Layout) (p : Fin PROCESS_MAX) (stray startAddr ustack : BitVec 32)
    (here : Ctl) :
    ∃ q ts c, RunInv L p 1 {1#32} (startThread L (.boot stray) p startAddr ustack here).1
      (startThread L (.boot stray) p startAddr ustack here).2 q ts c := by
  set s₀ : Sched := { Sched.boot stray with currentProcess := some p } with hs₀
  have ht : threadAlloc s₀ = some ⟨0, by decide⟩ := threadAlloc_boot stray _
  have hone : s₀.nextTid = 1#32 := rfl
  have hinv := SchedInv.first L p stray startAddr ustack
  obtain ⟨hcur, -, -, hnext, hself, htcb⟩ := threadCreate_state L p startAddr ustack ht
  set s₁ := (threadCreate L s₀ p startAddr ustack).2 with hs₁
  have htids : ∀ t, (s₁.tcb t).tid = if t = ⟨0, by decide⟩ then 1#32 else 0#32 := by
    intro t
    split
    · rename_i h0
      rw [h0, hself, hone]
    · rename_i h0
      rw [htcb t h0]
      rfl
  obtain ⟨x, q', -, hinv', hrun', hret', hnext', htid'⟩ := hinv.schedule here
    (fun c hc => absurd (hcur.symm.trans hc) nofun) (by simp)
  refine ⟨q', _, x, hinv', hrun', hret', ?_, ?_⟩
  · change (Munix.schedule s₁ here).2.nextTid.toNat = 2
    rw [hnext', hnext, hone]
    decide
  · intro y
    change _ ↔ ∃ t, (Munix.schedule s₁ here).2.Live t ∧ ((Munix.schedule s₁ here).2.tcb t).tid = y
    simp only [Sched.Live, htid', htids, Finset.mem_singleton]
    constructor
    · rintro rfl
      exact ⟨⟨0, by decide⟩, by simp⟩
    · rintro ⟨t, hne, rfl⟩
      split at hne
      · rename_i h0
        rw [if_pos h0]
      · exact absurd rfl hne

/-- The invariant holds in every state a run reaches. -/
theorem ThreadRun.inv (h : ThreadRun L p n T ctl s) (hn : n < 2 ^ 31) :
    ∃ q ts c, RunInv L p n T ctl s q ts c := by
  induction h with
  | start stray startAddr ustack shell => exact RunInv.start L p stray startAddr ustack _
  | create startAddr ustack _ ih =>
    rename_i n T res s _
    cases ht : threadAlloc s with
    | none =>
      rw [ht] at hn
      obtain ⟨q, ts, c, h⟩ := ih hn
      have hrun : (ThreadCall.create startAddr ustack).run L s = (.user (-ENOSYS), s) := by
        simp only [ThreadCall.run, h.running.process, threadCreate, ht]
      rw [hrun]
      exact ⟨q, ts, c, h.sched, h.running, trivial, h.nextTid, h.tids⟩
    | some t =>
      rw [ht] at hn
      simp only [Option.isSome_some, if_true] at hn
      obtain ⟨q, ts, c, h⟩ := ih (by omega)
      obtain ⟨q', ts', h'⟩ := h.create (by omega) ht startAddr ustack
      exact ⟨q', ts', c, h'⟩
  | yield _ ih =>
    obtain ⟨q, ts, c, h⟩ := ih hn
    obtain ⟨q', c', h'⟩ := h.reschedule (.user 0)
      (f := fun th => { th with runstate := .ready, yieldCt := th.yieldCt + 1#32 })
      (fun _ => ⟨rfl, rfl, rfl⟩) (by simp) (fun _ _ => trivial) (.inr fun _ => rfl)
    exact ⟨q', ts, c', h'⟩
  | preempt _ ih =>
    obtain ⟨q, ts, c, h⟩ := ih hn
    obtain ⟨q', c', h'⟩ := h.reschedule (.user 0)
      (f := fun th => { th with runstate := .ready, preemptCt := th.preemptCt + 1#32 })
      (fun _ => ⟨rfl, rfl, rfl⟩) (by simp) (fun _ _ => trivial) (.inr fun _ => rfl)
    exact ⟨q', ts, c', h'⟩
  | exit status _ hother ih =>
    obtain ⟨q, ts, c, h⟩ := ih hn
    obtain ⟨t, htc, htl, htr⟩ := hother
    have hq : q ≠ [] := List.ne_nil_of_mem (h.sched.queued t htl htr htc)
    obtain ⟨q', c', h'⟩ := h.reschedule .noreturn
      (f := fun th => { th with exitStatus := status, runstate := .exited })
      (fun _ => ⟨rfl, rfl, rfl⟩) (by simp) (by simp) (.inl hq)
    exact ⟨q', ts, c', h'⟩
  | join tid _ ih =>
    rename_i n T res s _
    obtain ⟨q, ts, c, h⟩ := ih hn
    simp only [ThreadCall.run, threadJoin, joinCloses]
    cases (List.finRange THREAD_MAX).find? fun i => decide ((s.tcb i).tid = tid) with
    | none =>
      refine ⟨q, ts, c, h.sched, h.running, trivial, h.nextTid, ?_⟩
      rw [Finset.sdiff_empty]
      exact h.tids
    | some temp => exact h.joinLoop temp
  | joinLoop _ ih =>
    obtain ⟨q, ts, c, h⟩ := ih hn
    exact h.joinLoop _

-- ---------------------------------------------------------------------------
-- The scheduler's guarantees
-- ---------------------------------------------------------------------------

/-- The addresses of a thread's kernel stack. -/
def Thread.kstackRange (th : Thread) : Set Nat :=
  Set.Ico (th.threadStack.toNat - KSTACKSZ.toNat) th.threadStack.toNat

/-- The scheduler state is in order: `q` is in the ready queue, `ts` in the
list of process `p`, `c` is running, and `T` are the tids of the threads that
have been created and not been closed. -/
structure SchedulerOk (L : Layout) (p : Fin PROCESS_MAX) (T : Finset (BitVec 32)) (s : Sched)
    (q ts : List (Fin THREAD_MAX)) (c : Fin THREAD_MAX) : Prop where
  /-- The ready queue is well formed, and no thread is in it twice. -/
  queue         : IsList s.links .readyQueue (q.map .queue)
  queue_nodup   : q.Nodup
  /-- Queued threads are live and can run. -/
  queue_live    : ∀ t ∈ q, s.Live t ∧ ((s.tcb t).runstate = .new ∨ (s.tcb t).runstate = .ready)
  /-- The current thread is not queued. -/
  current       : s.currentThread = some c
  current_out   : c ∉ q
  /-- No other thread that can run is missing from the queue. -/
  none_lost     : ∀ t, s.Live t → (s.tcb t).runstate = .new ∨ (s.tcb t).runstate = .ready → t ≠ c →
                    t ∈ q
  /-- The process's list holds its threads, each once. -/
  threads       : IsList s.links (.threads p) (ts.map .processThreads)
  threads_nodup : ts.Nodup
  threads_live  : ∀ t, t ∈ ts ↔ s.Live t ∧ (s.tcb t).process = some p
  threads_open  : ∀ x, x ∈ T ↔ x ∈ ts.map fun t => (s.tcb t).tid
  tids_nodup    : (ts.map fun t => (s.tcb t).tid).Nodup
  /-- Interrupts use the current thread's own kernel stack. -/
  esp0          : s.esp0 = (s.tcb c).threadStack
  own_stack     : (s.tcb c).threadStack = L.kstackTop c
  disjoint      : ∀ t, s.Live t → t ≠ c → Disjoint (s.tcb c).kstackRange (s.tcb t).kstackRange

/-- Different slots have different stacks. -/
theorem kstackRange_disjoint {L : Layout} {th th' : Thread} {i j : Fin THREAD_MAX}
    (hi : th.threadStack = L.kstackTop i) (hj : th'.threadStack = L.kstackTop j) (hij : i ≠ j) :
    Disjoint th.kstackRange th'.kstackRange := by
  have htop : ∀ k : Fin THREAD_MAX, (L.kstackTop k).toNat = L.kstacks.toNat + 4096 * k.val + 4096 := by
    intro k
    have hk : k.val < 16 := k.isLt
    have hfits := L.fits
    unfold Layout.kstackTop KSTACKSZ
    bv_omega
  have hne : i.val ≠ j.val := fun h => hij (Fin.ext h)
  have hsz : KSTACKSZ.toNat = 4096 := by decide
  rw [Set.disjoint_left]
  intro a ha hb
  simp only [Thread.kstackRange, hi, hj, htop, hsz, Set.mem_Ico] at ha hb
  omega

theorem runnable_iff {s : Sched} {t : Fin THREAD_MAX} :
    (s.tcb t).runstate ≠ .exited ↔ (s.tcb t).runstate = .new ∨ (s.tcb t).runstate = .ready := by
  cases (s.tcb t).runstate <;> simp

theorem RunInv.ok (h : RunInv L p n T ctl s q ts c) : SchedulerOk L p T s q ts c where
  queue := h.sched.ready.queue
  queue_nodup := h.sched.ready.nodup
  queue_live t ht := ⟨(h.sched.ready.runnable t ht).1, runnable_iff.mp (h.sched.ready.runnable t ht).2⟩
  current := h.running.current
  current_out := h.sched.ready.current c h.running.current
  none_lost t htl htr htc := by
    refine h.sched.queued t htl (runnable_iff.mpr htr) ?_
    rw [h.running.current]
    simpa using Ne.symm htc
  threads := h.sched.threads
  threads_nodup := List.Nodup.of_map _ h.sched.threads.nodup_tail
  threads_live t := by
    rw [h.sched.member]
    exact ⟨fun hl => ⟨hl, h.sched.process t hl⟩, fun hl => hl.1⟩
  threads_open x := by
    rw [h.tids x, List.mem_map]
    simp only [h.sched.member]
  tids_nodup := by
    refine List.Nodup.map_on ?_ (List.Nodup.of_map _ h.sched.threads.nodup_tail)
    intro t ht u _ heq
    exact h.sched.tid_inj t u ((h.sched.member t).mp ht) heq
  esp0 := h.running.esp0
  own_stack := h.sched.stack c h.running.live
  disjoint t htl htc :=
    kstackRange_disjoint (h.sched.stack c h.running.live) (h.sched.stack t htl) (Ne.symm htc)

/-- **The scheduler's invariant.** In every state that the threads of the
first process reach, with fewer than `2 ^ 31` threads created and no thread
exiting unless another one can run, the scheduler state is in order. -/
theorem threadRun_schedulerOk (h : ThreadRun L p n T ctl s) (hn : n < 2 ^ 31) :
    ∃ q ts c, SchedulerOk L p T s q ts c := by
  obtain ⟨q, ts, c, h⟩ := h.inv hn
  exact ⟨q, ts, c, h.ok⟩

/-- A layout of the kernel for examples. -/
def lowLayout : Layout := ⟨0x20000#32, kstacks_fit⟩

def firstProcess : Fin PROCESS_MAX := ⟨0, by decide⟩

/-- The first process after its start. -/
def startedSched : Ctl × Sched :=
  startThread lowLayout (.boot 0#32) firstProcess 0x400000#32 0x500000#32 (.start 0 firstProcess)

/-- It creates a second thread and yields to it; that one exits with the status 7 and is joined. -/
def twoThreads : Ctl × Sched := (ThreadCall.create 0x400100#32 0x600000#32).run lowLayout startedSched.2

def yieldedSched : Ctl × Sched := ThreadCall.yield.run lowLayout twoThreads.2

def exitedSched : Ctl × Sched := (ThreadCall.exit 7#32).run lowLayout yieldedSched.2

def joinedSched : Ctl × Sched := (ThreadCall.join 2#32).run lowLayout exitedSched.2

/-- Where the calls go on. -/
theorem joinedSched_ctl : startedSched.1 = .user 0 ∧ twoThreads.1 = .user 2 ∧ yieldedSched.1 = .user 0 ∧
    exitedSched.1 = .user 0 ∧ joinedSched.1 = .user 7 := by
  decide +kernel

theorem threadRun_schedulerOk_round :
    ∃ (T : Finset (BitVec 32)) (q ts : List (Fin THREAD_MAX)) (c : Fin THREAD_MAX),
      ThreadRun lowLayout firstProcess 2 T (.user 7) joinedSched.2 ∧
        SchedulerOk lowLayout firstProcess T joinedSched.2 q ts c := by
  obtain ⟨hstarted, htwo, hyielded, hexited, hjoined⟩ := joinedSched_ctl
  have halloc : (threadAlloc startedSched.2).isSome = true := by decide +kernel
  have hother : ∃ t, yieldedSched.2.currentThread ≠ some t ∧ yieldedSched.2.Live t ∧
      (yieldedSched.2.tcb t).runstate ≠ .exited := by
    refine ⟨⟨0, by decide⟩, ?_, ?_, ?_⟩ <;> decide +kernel
  have hstart : ThreadRun lowLayout firstProcess 1 {1#32} startedSched.1 startedSched.2 :=
    .start 0#32 0x400000#32 0x500000#32 0
  rw [hstarted] at hstart
  have hcreate := hstart.create 0x400100#32 0x600000#32
  rw [halloc, if_pos rfl, if_pos rfl] at hcreate
  change ThreadRun lowLayout firstProcess 2 _ twoThreads.1 twoThreads.2 at hcreate
  rw [htwo] at hcreate
  have hyield := hcreate.yield
  change ThreadRun lowLayout firstProcess 2 _ yieldedSched.1 yieldedSched.2 at hyield
  rw [hyielded] at hyield
  have hexit := hyield.exit 7#32 hother
  change ThreadRun lowLayout firstProcess 2 _ exitedSched.1 exitedSched.2 at hexit
  rw [hexited] at hexit
  have hjoin := hexit.join 2#32
  change ThreadRun lowLayout firstProcess 2 _ joinedSched.1 joinedSched.2 at hjoin
  rw [hjoined] at hjoin
  obtain ⟨q, ts, c, h⟩ := threadRun_schedulerOk hjoin (by norm_num)
  exact ⟨_, q, ts, c, hjoin, h⟩

end Munix
