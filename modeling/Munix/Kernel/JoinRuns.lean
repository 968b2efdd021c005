import Munix.Kernel.ThreadRuns

/-!
# Munix — what thread_join returns

`JoinRun` are the runs of the threads of the first process with a log of what they
passed to `thread_exit`, what they asked `thread_join` for, and how their joins
ended. `thread_join` keeps a pointer to a TCB slot while it waits, and the slot may
be closed and taken by another thread meanwhile; free slots have the tid 0. As long
as no call of `thread_create` takes a slot that a thread still waits for and tid 0
is not joined (`JoinSafe`), every join returns what its thread passed to
`thread_exit` (`joinRun_right`).
-/

namespace Munix

-- ---------------------------------------------------------------------------
-- Runs with a log
-- ---------------------------------------------------------------------------

/-- The record of a run. Threads that joined or exited are given by tid, threads
that wait by their slot. -/
structure JoinLog where
  /-- Tids with the status passed to `thread_exit`. -/
  exits   : List (BitVec 32 × BitVec 32)
  /-- The tid that the thread in a slot passed to `thread_join` last. -/
  asked   : Fin THREAD_MAX → BitVec 32
  /-- Tids passed to `thread_join`, with where the caller went on when it was done. -/
  results : List (BitVec 32 × Ctl)

def JoinLog.empty : JoinLog := ⟨[], fun _ => 0#32, []⟩

/-- One round of the loop of `thread_join`, by the thread in slot `c`. -/
def JoinLog.joinLoop (g : JoinLog) (s : Sched) (c temp : Fin THREAD_MAX) : JoinLog :=
  if (s.tcb temp).runstate = .exited then
    { g with results := g.results ++ [(g.asked c, (threadJoinLoop s temp).1)] }
  else g

/-- A call of the thread in slot `c`. -/
def JoinLog.call (g : JoinLog) (s : Sched) (c : Fin THREAD_MAX) : ThreadCall → JoinLog
  | .exit status => { g with exits := g.exits ++ [((s.tcb c).tid, status)] }
  | .join tid =>
    match (List.finRange THREAD_MAX).find? fun i => (s.tcb i).tid = tid with
    | none => { g with results := g.results ++ [(tid, (threadJoin s tid).1)] }
    | some temp => { g with asked := Function.update g.asked c tid }.joinLoop s c temp
  | _ => g

/-- Runs of the threads of the first process, whose calls all satisfy `safe`. -/
inductive JoinRun (L : Layout) (p : Fin PROCESS_MAX) (safe : Sched → ThreadCall → Prop) :
    Ctl → Sched → JoinLog → Prop where
  | start (stray startAddr ustack : BitVec 32) (shell : Nat) :
      JoinRun L p safe (startThread L (.boot stray) p startAddr ustack (.start shell p)).1
        (startThread L (.boot stray) p startAddr ustack (.start shell p)).2 .empty
  | call {res s g c} (call : ThreadCall) : JoinRun L p safe (.user res) s g →
      s.currentThread = some c → safe s call →
      JoinRun L p safe (call.run L s).1 (call.run L s).2 (g.call s c call)
  | joinLoop {temp s g c} : JoinRun L p safe (.join temp) s g → s.currentThread = some c →
      JoinRun L p safe (threadJoinLoop s temp).1 (threadJoinLoop s temp).2 (g.joinLoop s c temp)

/-- The thread in slot `w` has been switched away from in the loop of `thread_join`
for slot `temp`. -/
def Sched.Waiting (s : Sched) (w temp : Fin THREAD_MAX) : Prop :=
  s.Live w ∧ s.currentThread ≠ some w ∧ (s.tcb w).runstate = .ready ∧
    (s.tcb w).savedState = some (.join temp)

/-- A call that `thread_join` is not confused by: no thread waits for the slot that a
new thread takes, the counter of tids does not overflow, and tid 0 is not joined
while a slot is free. -/
def JoinSafe (s : Sched) : ThreadCall → Prop
  | .create _ _ => ∀ t, threadAlloc s = some t → s.nextTid.toNat + 1 < 2 ^ 31 ∧ ∀ w, ¬ s.Waiting w t
  | .join tid => tid ≠ 0#32 ∨ ∀ t, s.Live t
  | _ => True

-- ---------------------------------------------------------------------------
-- The invariant
-- ---------------------------------------------------------------------------

/-- Every join that is done returned -ESRCH or what its thread passed to
`thread_exit`, which a thread does once. -/
structure JoinLog.Right (g : JoinLog) : Prop where
  exits_nodup : (g.exits.map Prod.fst).Nodup
  results     : ∀ r ∈ g.results, r.2 = .user (-ESRCH) ∨
                  ∃ status, (r.1, status) ∈ g.exits ∧ r.2 = .user status.toInt

/-- The thread in slot `w` is in the loop of `thread_join` for slot `temp`. -/
def Sched.InJoin (s : Sched) (ctl : Ctl) (w temp : Fin THREAD_MAX) : Prop :=
  s.Waiting w temp ∨ (s.currentThread = some w ∧ ctl = .join temp)

/-- The invariant of a run. -/
structure JoinInv (L : Layout) (p : Fin PROCESS_MAX) (n : Nat) (T : Finset (BitVec 32)) (ctl : Ctl)
    (s : Sched) (q ts : List (Fin THREAD_MAX)) (c : Fin THREAD_MAX) (g : JoinLog) : Prop where
  run    : RunInv L p n T ctl s q ts c
  right  : g.Right
  exited : ∀ t, s.Live t → (s.tcb t).runstate = .exited →
             ((s.tcb t).tid, (s.tcb t).exitStatus) ∈ g.exits
  gone   : ∀ e ∈ g.exits, e.1.toNat ≤ n ∧
             ∀ t, s.Live t → (s.tcb t).tid = e.1 → (s.tcb t).runstate = .exited
  /-- A slot that is waited for is free or still has the thread that was asked for. -/
  waits  : ∀ w temp, s.InJoin ctl w temp → s.Live temp → (s.tcb temp).tid = g.asked w

variable {L : Layout} {p : Fin PROCESS_MAX} {n : Nat} {T : Finset (BitVec 32)} {ctl : Ctl} {s : Sched}
  {q ts : List (Fin THREAD_MAX)} {c : Fin THREAD_MAX} {g : JoinLog} {res : Int}

-- ---------------------------------------------------------------------------
-- Switches
-- ---------------------------------------------------------------------------

/-- The threads after `schedule` has switched to the first one of the queue. -/
theorem ReadyInv.schedule_tcb {s : Sched} {q q' : List (Fin THREAD_MAX)} {x : Fin THREAD_MAX}
    (h : ReadyInv s q) (here : Ctl) (hq : q ++ s.requeued = x :: q') :
    (schedule s here).1 = (if (s.tcb x).runstate = .new then .user 0
      else (if s.currentThread = some x then some here else (s.tcb x).savedState).getD .wild) ∧
    (schedule s here).2.currentThread = some x ∧
    ∀ t, (schedule s here).2.tcb t = { s.tcb t with
      savedState := if s.currentThread = some t then some here else (s.tcb t).savedState
      runstate := if t = x then .ready else (s.tcb t).runstate } := by
  obtain ⟨links, heq, -⟩ := schedule_eq here h hq
  have hx : (s.tcb x).runstate ≠ .exited := by
    have hmem : x ∈ q ++ s.requeued := by simp [hq]
    rcases List.mem_append.mp hmem with hx | hx
    · exact (h.runnable x hx).2
    · simp [(mem_requeued.mp hx).2]
  rw [heq, threadSwitch_eq { s with links := links } s.currentThread x here hx]
  exact ⟨rfl, rfl, fun _ => rfl⟩

/-- The current thread after a write to it. -/
theorem RunInv.setCurrent_tcb (h : RunInv L p n T ctl s q ts c) (f : Thread → Thread)
    (t : Fin THREAD_MAX) :
    (s.setCurrent f).tcb t = if t = c then f (s.tcb c) else s.tcb t := by
  simp only [Sched.setCurrent, h.running.current, Sched.setThread, Function.update_apply]

theorem RunInv.setCurrent_current (h : RunInv L p n T ctl s q ts c) (f : Thread → Thread) :
    (s.setCurrent f).currentThread = some c := by
  simp only [Sched.setCurrent, h.running.current, Sched.setThread]

/-- The threads after the current one has changed and called `schedule`. -/
theorem RunInv.switch_tcb (h : RunInv L p n T ctl s q ts c) {f : Thread → Thread} (here : Ctl)
    {q' : List (Fin THREAD_MAX)} {x : Fin THREAD_MAX}
    (hf : ∀ th, (f th).tid = th.tid ∧ (f th).process = th.process ∧
      (f th).threadStack = th.threadStack)
    (hq : q ++ (s.setCurrent f).requeued = x :: q') :
    (schedule (s.setCurrent f) here).2.currentThread = some x ∧
    (∀ temp, (schedule (s.setCurrent f) here).1 = .join temp →
      (x = c ∧ here = .join temp) ∨
      (x ≠ c ∧ (s.tcb x).runstate ≠ .new ∧ (s.tcb x).savedState = some (.join temp))) ∧
    (∀ t, t ≠ c → (schedule (s.setCurrent f) here).2.tcb t =
      { s.tcb t with runstate := if t = x then .ready else (s.tcb t).runstate }) ∧
    (schedule (s.setCurrent f) here).2.tcb c = { f (s.tcb c) with
      savedState := some here
      runstate := if c = x then .ready else (f (s.tcb c)).runstate } := by
  have hinv := (h.sched.setCurrent h.running.current h.running.live hf).ready
  obtain ⟨hctl, hcur, htcb⟩ := hinv.schedule_tcb here hq
  rw [h.setCurrent_current f] at hctl htcb
  refine ⟨hcur, fun temp hjoin => ?_, fun t ht => ?_, ?_⟩
  · rw [hctl] at hjoin
    split at hjoin
    next => cases hjoin
    next hnew =>
      by_cases hxc : x = c
      · subst hxc
        exact .inl ⟨rfl, by simpa using hjoin⟩
      · rw [h.setCurrent_tcb f, if_neg hxc] at hnew hjoin
        rw [if_neg (by simpa using Ne.symm hxc)] at hjoin
        refine .inr ⟨hxc, hnew, ?_⟩
        cases hsaved : (s.tcb x).savedState with
        | none =>
          rw [hsaved] at hjoin
          cases hjoin
        | some place =>
          rw [hsaved] at hjoin
          rw [← hjoin]
          rfl
  · have hne : ¬ some c = some t := by simpa using Ne.symm ht
    simp only [htcb t, h.setCurrent_tcb f, if_neg ht, if_neg hne]
  · rw [htcb c, h.setCurrent_tcb f, if_pos rfl, if_pos rfl]

/-- Who is in `thread_join` after a switch was there before, or just came there. -/
theorem RunInv.inJoin_switch (h : RunInv L p n T ctl s q ts c) {f : Thread → Thread} (here : Ctl)
    {q' : List (Fin THREAD_MAX)} {x w temp : Fin THREAD_MAX}
    (hf : ∀ th, (f th).tid = th.tid ∧ (f th).process = th.process ∧
      (f th).threadStack = th.threadStack)
    (hq : q ++ (s.setCurrent f).requeued = x :: q')
    (hw : (schedule (s.setCurrent f) here).2.InJoin (schedule (s.setCurrent f) here).1 w temp) :
    (w = c ∧ here = .join temp) ∨ s.Waiting w temp := by
  obtain ⟨hcur, hjoin, htcb, hself⟩ := h.switch_tcb here hf hq
  have hncur : w ≠ c → s.currentThread ≠ some w := by
    intro hne
    rw [h.running.current]
    simpa using Ne.symm hne
  rcases hw with ⟨hlive, hout, hready, hsaved⟩ | ⟨hin, hctl⟩
  · by_cases hwc : w = c
    · subst hwc
      rw [hself] at hsaved
      exact .inl ⟨rfl, Option.some.inj hsaved⟩
    · have hwx : w ≠ x := by
        rintro rfl
        exact hout hcur
      rw [Sched.Live, htcb w hwc] at hlive
      rw [htcb w hwc, if_neg hwx] at hready hsaved
      exact .inr ⟨hlive, hncur hwc, hready, hsaved⟩
  · obtain rfl : x = w := Option.some.inj (hcur.symm.trans hin)
    rcases hjoin temp hctl with hhere | ⟨hxc, hnew, hsaved⟩
    · exact .inl hhere
    · -- the thread comes from the queue
      have hmem : x ∈ q := by
        have hx : x ∈ q ++ (s.setCurrent f).requeued := by simp [hq]
        refine (List.mem_append.mp hx).resolve_right fun hback => hxc ?_
        exact Option.some.inj ((mem_requeued.mp hback).1.symm.trans (h.setCurrent_current f))
      obtain ⟨hlive, hexited⟩ := h.sched.ready.runnable x hmem
      refine .inr ⟨hlive, hncur hxc, ?_, hsaved⟩
      exact (runnable_iff.mp hexited).resolve_left hnew

/-- Who was in `thread_join` is there after a switch, and so is the thread that called
`schedule` from there. -/
theorem RunInv.inJoin_kept (h : RunInv L p n T ctl s q ts c) {f : Thread → Thread} (here : Ctl)
    {q' : List (Fin THREAD_MAX)} {x w temp : Fin THREAD_MAX}
    (hf : ∀ th, (f th).tid = th.tid ∧ (f th).process = th.process ∧
      (f th).threadStack = th.threadStack)
    (hq : q ++ (s.setCurrent f).requeued = x :: q')
    (hw : (w = c ∧ here = .join temp ∧ ∀ th, (f th).runstate = .ready) ∨ s.Waiting w temp) :
    (schedule (s.setCurrent f) here).2.InJoin (schedule (s.setCurrent f) here).1 w temp := by
  have hinv := (h.sched.setCurrent h.running.current h.running.live hf).ready
  obtain ⟨hctl, hcur, htcb⟩ := hinv.schedule_tcb here hq
  rw [h.setCurrent_current f] at hctl htcb
  -- in both cases the thread can run and remembers that it is in the loop
  obtain ⟨hlive, hready, hsaved⟩ : s.Live w ∧ ((s.setCurrent f).tcb w).runstate = .ready ∧
      (if some c = some w then some here else ((s.setCurrent f).tcb w).savedState) =
        some (.join temp) := by
    rcases hw with ⟨rfl, rfl, hready⟩ | ⟨hlive, hout, hready, hsaved⟩
    · refine ⟨h.running.live, ?_, if_pos rfl⟩
      rw [h.setCurrent_tcb f, if_pos rfl]
      exact hready _
    · have hwc : w ≠ c := by
        rintro rfl
        exact hout h.running.current
      rw [h.setCurrent_tcb f, if_neg hwc]
      exact ⟨hlive, hready, by rw [if_neg (by simpa using Ne.symm hwc), hsaved]⟩
  have htid : ((s.setCurrent f).tcb w).tid = (s.tcb w).tid := setCurrent_tid s (fun th => (hf th).1) w
  by_cases hwx : w = x
  · subst hwx
    refine .inr ⟨hcur, ?_⟩
    rw [hctl, if_neg (by simp [hready]), hsaved]
    rfl
  · refine .inl ⟨?_, ?_, ?_, ?_⟩
    · rw [Sched.Live, htcb w, htid]
      exact hlive
    · rw [hcur]
      simpa using Ne.symm hwx
    · rw [htcb w, if_neg hwx]
      exact hready
    · rw [htcb w, hsaved]

-- ---------------------------------------------------------------------------
-- Steps
-- ---------------------------------------------------------------------------

/-- The current thread changes its run state and calls `schedule`. The log may say
that it has exited. -/
theorem JoinInv.switch (h : JoinInv L p n T ctl s q ts c g) {f : Thread → Thread} (here : Ctl)
    {g' : JoinLog}
    (hf : ∀ th, (f th).tid = th.tid ∧ (f th).process = th.process ∧
      (f th).threadStack = th.threadStack)
    (hnew : ∀ th, (f th).runstate ≠ .new) (hret : ∀ th, (f th).runstate = .ready → here.Returns)
    (hsome : q ≠ [] ∨ ∀ th, (f th).runstate = .ready)
    (hhere : ∀ temp, here = .join temp → s.Live temp → (s.tcb temp).tid = g.asked c)
    (hright : g'.Right) (hasked : g'.asked = g.asked)
    (hkept : ∀ e ∈ g.exits, e ∈ g'.exits)
    (hadded : ∀ e ∈ g'.exits, e ∈ g.exits ∨
      e.1 = (s.tcb c).tid ∧ ∀ th, (f th).runstate = .exited)
    (hexit : (f (s.tcb c)).runstate = .exited →
      ((s.tcb c).tid, (f (s.tcb c)).exitStatus) ∈ g'.exits) :
    ∃ q' c', JoinInv L p n T (schedule (s.setCurrent f) here).1 (schedule (s.setCurrent f) here).2
      q' ts c' g' := by
  obtain ⟨q', x, hq, htid, hrun⟩ := h.run.switch here hf hnew hret hsome
  obtain ⟨-, -, htcb, hself⟩ := h.run.switch_tcb here hf hq
  have hlive : ∀ t, (schedule (s.setCurrent f) here).2.Live t ↔ s.Live t := by
    intro t
    rw [Sched.Live, htid, Sched.Live]
  -- the thread that runs next had not exited
  have hnext : (x = c → (f (s.tcb c)).runstate = .ready) ∧ (x ≠ c → (s.tcb x).runstate ≠ .exited) := by
    have hx : x ∈ q ++ (s.setCurrent f).requeued := by simp [hq]
    rcases List.mem_append.mp hx with hx | hx
    · have hxc : x ≠ c := by
        rintro rfl
        exact h.run.sched.ready.current x h.run.running.current hx
      exact ⟨fun heq => absurd heq hxc, fun _ => (h.run.sched.ready.runnable x hx).2⟩
    · obtain ⟨hcur, hready⟩ := mem_requeued.mp hx
      obtain rfl : c = x := Option.some.inj ((h.run.setCurrent_current f).symm.trans hcur)
      rw [h.run.setCurrent_tcb f, if_pos rfl] at hready
      exact ⟨fun _ => hready, fun hne => absurd rfl hne⟩
  refine ⟨q', x, hrun, hright, fun t htl htr => ?_, fun e he => ?_, fun w temp hw htl => ?_⟩
  · by_cases htc : t = c
    · subst htc
      have hne : t ≠ x := by
        rintro rfl
        simp [hself] at htr
      rw [hself, if_neg hne] at htr
      rw [hself, (hf _).1]
      exact hexit htr
    · have hne : t ≠ x := by
        rintro rfl
        simp [htcb t htc] at htr
      rw [htcb t htc, if_neg hne] at htr ⊢
      exact hkept _ (h.exited t ((hlive t).mp htl) htr)
  · rcases hadded e he with he | ⟨hec, hfe⟩
    · refine ⟨(h.gone e he).1, fun t htl hte => ?_⟩
      rw [hlive] at htl
      rw [htid] at hte
      have htr := (h.gone e he).2 t htl hte
      have htc : t ≠ c := by
        rintro rfl
        simp [h.run.running.state] at htr
      have htx : t ≠ x := by
        rintro rfl
        exact hnext.2 htc htr
      rw [htcb t htc, if_neg htx]
      exact htr
    · have hlt := h.run.sched.tid_lt c
      rw [h.run.nextTid, ← hec] at hlt
      refine ⟨Nat.le_of_lt_succ hlt, fun t htl hte => ?_⟩
      rw [hlive] at htl
      rw [htid, hec] at hte
      obtain rfl := h.run.sched.tid_inj t c htl hte
      have hne : t ≠ x := by
        rintro rfl
        have := hnext.1 rfl
        simp [hfe] at this
      rw [hself, if_neg hne]
      exact hfe _
  · rw [hlive] at htl
    rw [htid, hasked]
    rcases h.run.inJoin_switch here hf hq hw with ⟨rfl, hjoin⟩ | hwait
    · exact hhere temp hjoin htl
    · exact h.waits w temp (.inl hwait) htl

/-- The current thread stays runnable and calls `schedule`. -/
theorem JoinInv.requeue (h : JoinInv L p n T ctl s q ts c g) {f : Thread → Thread} (here : Ctl)
    (hf : ∀ th, (f th).tid = th.tid ∧ (f th).process = th.process ∧
      (f th).threadStack = th.threadStack)
    (hready : ∀ th, (f th).runstate = .ready) (hret : here.Returns)
    (hhere : ∀ temp, here = .join temp → s.Live temp → (s.tcb temp).tid = g.asked c) :
    ∃ q' c', JoinInv L p n T (schedule (s.setCurrent f) here).1 (schedule (s.setCurrent f) here).2
      q' ts c' g :=
  h.switch here hf (by simp [hready]) (fun _ _ => hret) (.inr hready) hhere h.right rfl
    (fun _ he => he) (fun _ he => .inl he) (by simp [hready])

/-- What `thread_exit` adds to the log. -/
theorem JoinInv.right_exit (h : JoinInv L p n T ctl s q ts c g) (status : BitVec 32) :
    (g.call s c (.exit status)).Right := by
  refine ⟨?_, fun r hr => ?_⟩
  · -- a thread that runs has not exited yet
    rw [JoinLog.call, List.map_append, List.nodup_append]
    refine ⟨h.right.exits_nodup, by simp, fun a ha b hb => ?_⟩
    obtain rfl : b = (s.tcb c).tid := by simpa using hb
    obtain ⟨e, he, rfl⟩ := List.mem_map.mp ha
    intro heq
    have := (h.gone e he).2 c h.run.running.live heq.symm
    simp [h.run.running.state] at this
  · rcases h.right.results r hr with herr | ⟨st, hst, hval⟩
    · exact .inl herr
    · exact .inr ⟨st, List.mem_append_left _ hst, hval⟩

/-- `thread_exit` with another thread in the queue. -/
theorem JoinInv.exit (h : JoinInv L p n T ctl s q ts c g) (status : BitVec 32) (hq : q ≠ []) :
    ∃ q' c', JoinInv L p n T ((ThreadCall.exit status).run L s).1 ((ThreadCall.exit status).run L s).2
      q' ts c' (g.call s c (.exit status)) := by
  refine h.switch .noreturn (f := fun th => { th with exitStatus := status, runstate := .exited })
    (fun _ => ⟨rfl, rfl, rfl⟩) (by simp) (by simp) (.inl hq) nofun (h.right_exit status) rfl ?_ ?_ ?_
  · exact fun e he => List.mem_append_left _ he
  · intro e he
    rcases List.mem_append.mp he with he | he
    · exact .inl he
    · obtain rfl := List.mem_singleton.mp he
      exact .inr ⟨rfl, fun _ => rfl⟩
  · exact fun _ => List.mem_append_right _ (List.mem_singleton_self _)

/-- `thread_exit` of the last thread that can run. -/
theorem RunInv.exit_last (h : RunInv L p n T ctl s [] ts c) (status : BitVec 32) :
    ¬ ((ThreadCall.exit status).run L s).1.Returns := by
  have hinv := (h.sched.setCurrent (f := fun th =>
    { th with exitStatus := status, runstate := .exited }) h.running.current h.running.live
    fun _ => ⟨rfl, rfl, rfl⟩).ready
  refine schedule_nil hinv ?_ .noreturn
  simp [Sched.requeued, h.setCurrent_current, h.setCurrent_tcb]

/-- Nothing happens but that the log may get longer and the CPU goes back to the
current thread. -/
theorem JoinInv.user (h : JoinInv L p n T ctl s q ts c g) (res : Int) {g' : JoinLog}
    (hright : g'.Right) (hexits : g'.exits = g.exits) (hasked : ∀ w, w ≠ c → g'.asked w = g.asked w) :
    JoinInv L p n T (.user res) s q ts c g' := by
  refine ⟨⟨h.run.sched, h.run.running, trivial, h.run.nextTid, h.run.tids⟩, hright, ?_, ?_, ?_⟩
  · rw [hexits]
    exact h.exited
  · rw [hexits]
    exact h.gone
  · rintro w temp (hw | ⟨-, hctl⟩) hlive
    · have hwc : w ≠ c := by
        rintro rfl
        exact hw.2.1 h.run.running.current
      rw [hasked w hwc]
      exact h.waits w temp (.inl hw) hlive
    · cases hctl

/-- A new thread in a slot that nobody waits for. -/
theorem JoinInv.create (h : JoinInv L p n T ctl s q ts c g) (hn : n + 2 < 2 ^ 32)
    {t : Fin THREAD_MAX} (ht : threadAlloc s = some t) (hfree : ∀ w, ¬ s.Waiting w t)
    (startAddr ustack : BitVec 32) :
    JoinInv L p (n + 1) (insert s.nextTid T) ((ThreadCall.create startAddr ustack).run L s).1
      ((ThreadCall.create startAddr ustack).run L s).2 (q ++ [t]) (t :: ts) c g := by
  have hrun := h.run.create_last hn ht startAddr ustack
  have heq : (ThreadCall.create startAddr ustack).run L s =
      (.user (threadCreate L s p startAddr ustack).1, (threadCreate L s p startAddr ustack).2) := by
    simp only [ThreadCall.run, h.run.running.process]
  obtain ⟨hcur, -, -, -, hself, htcb⟩ := threadCreate_state L p startAddr ustack ht
  have hnew : ((threadCreate L s p startAddr ustack).2.tcb t).runstate = .new := by
    simp [threadCreate, ht, schedAdd, Sched.setThread]
  rw [heq] at hrun ⊢
  refine ⟨hrun, h.right, fun u hul hur => ?_, fun e he => ?_, fun w temp hw htl => ?_⟩
  · have hut : u ≠ t := by
      rintro rfl
      exact absurd (hnew.symm.trans hur) (by simp)
    rw [Sched.Live, htcb u hut] at hul
    rw [htcb u hut] at hur ⊢
    exact h.exited u hul hur
  · obtain ⟨hle, hgone⟩ := h.gone e he
    refine ⟨Nat.le_succ_of_le hle, fun u hul hue => ?_⟩
    have hut : u ≠ t := by
      rintro rfl
      have hnext := h.run.nextTid
      rw [← hself, hue] at hnext
      omega
    rw [Sched.Live, htcb u hut] at hul
    rw [htcb u hut] at hue ⊢
    exact hgone u hul hue
  · rcases hw with ⟨hwl, hwc, hwr, hws⟩ | ⟨-, hctl⟩
    · have hwt : w ≠ t := by
        rintro rfl
        exact absurd (hnew.symm.trans hwr) (by simp)
      rw [Sched.Live, htcb w hwt] at hwl
      rw [htcb w hwt] at hwr hws
      rw [hcur] at hwc
      have hwait : s.Waiting w temp := ⟨hwl, hwc, hwr, hws⟩
      have htt : temp ≠ t := by
        rintro rfl
        exact hfree w hwait
      rw [Sched.Live, htcb temp htt] at htl
      rw [htcb temp htt]
      exact h.waits w temp (.inl hwait) htl
    · cases hctl

/-- The loop of `thread_join` ends: the caller gets the status and the slot is closed. -/
theorem JoinInv.joined (h : JoinInv L p n T ctl s q ts c g) {temp : Fin THREAD_MAX}
    (hr : (s.tcb temp).runstate = .exited)
    (hasked : s.Live temp → (s.tcb temp).tid = g.asked c) :
    JoinInv L p n (T \ joinLoopCloses s temp) (threadJoinLoop s temp).1 (threadJoinLoop s temp).2 q
      (ts.erase temp) c (g.joinLoop s c temp) := by
  have hrun := h.run.joined hr
  have hlive : s.Live temp := by
    by_contra hfree
    simp [h.run.sched.free temp hfree] at hr
  have hloop : threadJoinLoop s temp = (.user (s.tcb temp).exitStatus.toInt, threadClose s temp) := by
    rw [threadJoinLoop, if_neg (by simpa using hr)]
  have hlog : g.joinLoop s c temp = { g with
      results := g.results ++ [(g.asked c, .user (s.tcb temp).exitStatus.toInt)] } := by
    rw [JoinLog.joinLoop, if_pos hr, hloop]
  have hdead : ∀ u, (threadClose s temp).Live u → u ≠ temp := by
    rintro u hu rfl
    simp [Sched.Live, threadClose, Thread.zero] at hu
  have htcb : ∀ u, u ≠ temp → (threadClose s temp).tcb u = s.tcb u := by
    intro u hu
    simp [threadClose, hu]
  rw [hloop] at hrun ⊢
  rw [hlog]
  refine ⟨hrun, ⟨h.right.exits_nodup, fun r hres => ?_⟩, fun u hul hur => ?_, fun e he => ?_,
    fun w temp' hw htl => ?_⟩
  · rcases List.mem_append.mp hres with hres | hres
    · exact h.right.results r hres
    · obtain rfl := List.mem_singleton.mp hres
      have := h.exited temp hlive hr
      rw [hasked hlive] at this
      exact .inr ⟨_, this, rfl⟩
  · have hut := hdead u hul
    rw [Sched.Live, htcb u hut] at hul
    rw [htcb u hut] at hur ⊢
    exact h.exited u hul hur
  · refine ⟨(h.gone e he).1, fun u hul hue => ?_⟩
    have hut := hdead u hul
    rw [Sched.Live, htcb u hut] at hul
    rw [htcb u hut] at hue ⊢
    exact (h.gone e he).2 u hul hue
  · rcases hw with ⟨hwl, hwc, hwr, hws⟩ | ⟨-, hctl⟩
    · have hwt := hdead w hwl
      have htt := hdead temp' htl
      rw [Sched.Live, htcb w hwt] at hwl
      rw [htcb w hwt] at hwr hws
      rw [Sched.Live, htcb temp' htt] at htl
      rw [htcb temp' htt]
      exact h.waits w temp' (.inl ⟨hwl, hwc, hwr, hws⟩) htl
    · cases hctl

theorem JoinInv.joinLoop (h : JoinInv L p n T ctl s q ts c g) {temp : Fin THREAD_MAX}
    (hasked : s.Live temp → (s.tcb temp).tid = g.asked c) :
    ∃ T' q' ts' c', JoinInv L p n T' (threadJoinLoop s temp).1 (threadJoinLoop s temp).2 q' ts' c'
      (g.joinLoop s c temp) := by
  by_cases hr : (s.tcb temp).runstate = .exited
  · exact ⟨_, q, _, c, h.joined hr hasked⟩
  · rw [JoinLog.joinLoop, if_neg hr, threadJoinLoop, if_pos hr]
    obtain ⟨q', c', h'⟩ := h.requeue (.join temp)
      (f := fun th => { th with runstate := .ready, yieldCt := th.yieldCt + 1#32 })
      (fun _ => ⟨rfl, rfl, rfl⟩) (fun _ => rfl) trivial (by
        rintro temp' heq hlive
        cases heq
        exact hasked hlive)
    exact ⟨T, q', ts, c', h'⟩

theorem JoinInv.join (h : JoinInv L p n T (.user res) s q ts c g) (tid : BitVec 32) :
    ∃ T' q' ts' c', JoinInv L p n T' (threadJoin s tid).1 (threadJoin s tid).2 q' ts' c'
      (g.call s c (.join tid)) := by
  cases hfind : (List.finRange THREAD_MAX).find? fun i => decide ((s.tcb i).tid = tid) with
  | none =>
    have hjoin : threadJoin s tid = (.user (-ESRCH), s) := by simp only [threadJoin, hfind]
    simp only [JoinLog.call, hfind, hjoin]
    refine ⟨T, q, ts, c, h.user _ ⟨h.right.exits_nodup, fun r hr => ?_⟩ rfl fun _ _ => rfl⟩
    rcases List.mem_append.mp hr with hr | hr
    · exact h.right.results r hr
    · obtain rfl := List.mem_singleton.mp hr
      exact .inl rfl
  | some temp =>
    have hjoin : threadJoin s tid = threadJoinLoop s temp := by simp only [threadJoin, hfind]
    have htid : (s.tcb temp).tid = tid := by simpa using List.find?_some hfind
    simp only [JoinLog.call, hfind, hjoin]
    have h' : JoinInv L p n T (.user res) s q ts c
        { g with asked := Function.update g.asked c tid } :=
      h.user res ⟨h.right.exits_nodup, h.right.results⟩ rfl fun w hw => Function.update_of_ne hw _ _
    refine h'.joinLoop fun _ => ?_
    rw [htid]
    exact (Function.update_self c tid g.asked).symm

-- ---------------------------------------------------------------------------
-- Runs
-- ---------------------------------------------------------------------------

/-- The first thread starts in its user code. -/
theorem startThread_user (L : Layout) (p : Fin PROCESS_MAX) (stray startAddr ustack : BitVec 32)
    (here : Ctl) : (startThread L (.boot stray) p startAddr ustack here).1 = .user 0 := by
  have hinv := SchedInv.first L p stray startAddr ustack
  have ht := threadAlloc_boot stray (some p)
  obtain ⟨hcur, -⟩ := threadCreate_state L p startAddr ustack ht
  have hback : (threadCreate L { Sched.boot stray with currentProcess := some p } p startAddr
      ustack).2.requeued = [] := by
    rw [Sched.requeued, hcur]
    rfl
  obtain ⟨hctl, -⟩ := hinv.ready.schedule_tcb here (by rw [hback]; rfl)
  refine hctl.trans (if_pos ?_)
  simp [threadCreate, ht, schedAdd, Sched.setThread]

theorem JoinInv.start (L : Layout) (p : Fin PROCESS_MAX) (stray startAddr ustack : BitVec 32)
    (here : Ctl) :
    ∃ q ts c, JoinInv L p 1 {1#32} (startThread L (.boot stray) p startAddr ustack here).1
      (startThread L (.boot stray) p startAddr ustack here).2 q ts c .empty := by
  obtain ⟨q, ts, c, hrun⟩ := RunInv.start L p stray startAddr ustack here
  -- there is one thread, and it is running
  have honly : ∀ t, (startThread L (.boot stray) p startAddr ustack here).2.Live t → t = c := by
    intro t ht
    have htid := Finset.mem_singleton.mp ((hrun.tids _).mpr ⟨t, ht, rfl⟩)
    have hctid := Finset.mem_singleton.mp ((hrun.tids _).mpr ⟨c, hrun.running.live, rfl⟩)
    exact hrun.sched.tid_inj t c ht (htid.trans hctid.symm)
  refine ⟨q, ts, c, hrun, ⟨List.nodup_nil, nofun⟩, fun t ht hr => ?_, nofun,
    fun w temp hw _ => ?_⟩
  · obtain rfl := honly t ht
    exact absurd (hrun.running.state.symm.trans hr) (by simp)
  · rcases hw with ⟨hwl, hwc, -⟩ | ⟨-, hctl⟩
    · obtain rfl := honly w hwl
      exact absurd hrun.running.current hwc
    · exact absurd ((startThread_user L p stray startAddr ustack here).symm.trans hctl) (by simp)

/-- The invariant holds in every state a run reaches, unless the last thread that
could run has exited. -/
theorem JoinRun.inv (h : JoinRun L p JoinSafe ctl s g) :
    (∃ n T q ts c, JoinInv L p n T ctl s q ts c g) ∨ (¬ ctl.Returns ∧ g.Right) := by
  induction h with
  | start stray startAddr ustack shell =>
    exact .inl ⟨1, {1#32}, JoinInv.start L p stray startAddr ustack _⟩
  | call call _ hcur hsafe ih =>
    rename_i res s g c₀ _
    obtain ⟨n, T, q, ts, c, h⟩ := ih.resolve_right fun hstuck => hstuck.1 trivial
    obtain rfl : c = c₀ := Option.some.inj (h.run.running.current.symm.trans hcur)
    cases call with
    | create startAddr ustack =>
      left
      cases ht : threadAlloc s with
      | none =>
        have hrun : (ThreadCall.create startAddr ustack).run L s = (.user (-ENOSYS), s) := by
          simp only [ThreadCall.run, h.run.running.process, threadCreate, ht]
        rw [hrun]
        exact ⟨n, T, q, ts, c, h.user _ h.right rfl fun _ _ => rfl⟩
      | some t =>
        obtain ⟨hmax, hfree⟩ := hsafe t ht
        have hnext := h.run.nextTid
        exact ⟨_, _, _, _, c, h.create (by omega) ht hfree startAddr ustack⟩
    | yield =>
      obtain ⟨q', c', h'⟩ := h.requeue (.user 0)
        (f := fun th => { th with runstate := .ready, yieldCt := th.yieldCt + 1#32 })
        (fun _ => ⟨rfl, rfl, rfl⟩) (fun _ => rfl) trivial (by simp)
      exact .inl ⟨n, T, q', ts, c', h'⟩
    | preempt =>
      obtain ⟨q', c', h'⟩ := h.requeue (.user 0)
        (f := fun th => { th with runstate := .ready, preemptCt := th.preemptCt + 1#32 })
        (fun _ => ⟨rfl, rfl, rfl⟩) (fun _ => rfl) trivial (by simp)
      exact .inl ⟨n, T, q', ts, c', h'⟩
    | exit status =>
      cases q with
      | cons x q =>
        obtain ⟨q', c', h'⟩ := h.exit status (List.cons_ne_nil x q)
        exact .inl ⟨n, T, q', ts, c', h'⟩
      | nil => exact .inr ⟨h.run.exit_last status, h.right_exit status⟩
    | join tid =>
      obtain ⟨T', q', ts', c', h'⟩ := h.join tid
      exact .inl ⟨n, T', q', ts', c', h'⟩
  | joinLoop _ hcur ih =>
    rename_i temp s g c₀ _
    obtain ⟨n, T, q, ts, c, h⟩ := ih.resolve_right fun hstuck => hstuck.1 trivial
    obtain rfl : c = c₀ := Option.some.inj (h.run.running.current.symm.trans hcur)
    obtain ⟨T', q', ts', c', h'⟩ := h.joinLoop (h.waits c temp (.inr ⟨hcur, rfl⟩))
    exact .inl ⟨n, T', q', ts', c', h'⟩

/-- **What `thread_join` returns.** In every run whose calls are safe, no thread has
called `thread_exit` twice, every join that is done returned -ESRCH or what the thread
with the given tid passed to `thread_exit`, and a safe call for a tid that no thread
has returns -ESRCH at once and changes nothing. -/
theorem joinRun_right (h : JoinRun L p JoinSafe ctl s g) :
    g.Right ∧ ∀ tid, JoinSafe s (.join tid) → (∀ t, s.Live t → (s.tcb t).tid ≠ tid) →
      threadJoin s tid = (.user (-ESRCH), s) := by
  constructor
  · rcases h.inv with ⟨n, T, q, ts, c, h⟩ | ⟨-, hright⟩
    · exact h.right
    · exact hright
  · intro tid hsafe hnone
    have hfind : ((List.finRange THREAD_MAX).find? fun i => decide ((s.tcb i).tid = tid)) = none := by
      rw [List.find?_eq_none]
      intro t _
      by_cases hlive : s.Live t
      · simpa using hnone t hlive
      · rcases hsafe with h0 | hall
        · have hzero : (s.tcb t).tid = 0#32 := not_not.mp hlive
          rw [hzero]
          simpa using Ne.symm h0
        · exact absurd (hall t) hlive
    simp only [threadJoin, hfind]

/-- The log of a round of create, yield, exit and join. -/
def roundLog : JoinLog :=
  (((JoinLog.empty.call startedSched.2 ⟨0, by decide⟩ (.create 0x400100#32 0x600000#32)).call twoThreads.2
    ⟨0, by decide⟩ .yield).call yieldedSched.2 ⟨1, by decide⟩ (.exit 7#32)).call exitedSched.2
    ⟨0, by decide⟩ (.join 2#32)

/-- The first thread gets the status of the second one. -/
theorem joinRun_right_round :
    JoinRun lowLayout firstProcess JoinSafe (.user 7) joinedSched.2 roundLog ∧
      roundLog.exits = [(2#32, 7#32)] ∧ roundLog.results = [(2#32, .user 7)] ∧ roundLog.Right ∧
      threadJoin joinedSched.2 2#32 = (.user (-ESRCH), joinedSched.2) := by
  obtain ⟨hstarted, htwo, hyielded, hexited, hjoined⟩ := joinedSched_ctl
  obtain ⟨hfirst, hcreator, hsecond, hjoiner⟩ : startedSched.2.currentThread = some ⟨0, by decide⟩ ∧
      twoThreads.2.currentThread = some ⟨0, by decide⟩ ∧
      yieldedSched.2.currentThread = some ⟨1, by decide⟩ ∧
      exitedSched.2.currentThread = some ⟨0, by decide⟩ := by
    decide +kernel
  have hnext : startedSched.2.nextTid.toNat + 1 < 2 ^ 31 := by decide +kernel
  have hsaved : ∀ w, (startedSched.2.tcb w).savedState = none := by decide +kernel
  have hsafe : JoinSafe startedSched.2 (.create 0x400100#32 0x600000#32) := fun t _ =>
    ⟨hnext, fun w hw => absurd ((hsaved w).symm.trans hw.2.2.2) (by simp)⟩
  have hstart : JoinRun lowLayout firstProcess JoinSafe startedSched.1 startedSched.2 .empty :=
    .start 0#32 0x400000#32 0x500000#32 0
  rw [hstarted] at hstart
  have hcreate := hstart.call _ hfirst hsafe
  change JoinRun lowLayout firstProcess JoinSafe twoThreads.1 twoThreads.2 _ at hcreate
  rw [htwo] at hcreate
  have hyield := hcreate.call .yield hcreator trivial
  change JoinRun lowLayout firstProcess JoinSafe yieldedSched.1 yieldedSched.2 _ at hyield
  rw [hyielded] at hyield
  have hexit := hyield.call (.exit 7#32) hsecond trivial
  change JoinRun lowLayout firstProcess JoinSafe exitedSched.1 exitedSched.2 _ at hexit
  rw [hexited] at hexit
  have hjoin := hexit.call (.join 2#32) hjoiner (.inl (by decide))
  change JoinRun lowLayout firstProcess JoinSafe joinedSched.1 joinedSched.2 roundLog at hjoin
  rw [hjoined] at hjoin
  have hnone : ∀ t, (joinedSched.2.tcb t).tid ≠ 2#32 := by decide +kernel
  obtain ⟨hright, hesrch⟩ := joinRun_right hjoin
  exact ⟨hjoin, by decide +kernel, by decide +kernel, hright,
    hesrch 2#32 (.inl (by decide)) fun t _ => hnone t⟩

/-- A call for tid 0, which no thread has, waits for the first free slot. -/
theorem threadJoin_zero_waits :
    JoinRun lowLayout firstProcess (fun _ _ => True) startedSched.1 startedSched.2 .empty ∧
      (∀ t, startedSched.2.Live t → (startedSched.2.tcb t).tid ≠ 0#32) ∧
      (threadJoin startedSched.2 0#32).1 = .join ⟨1, by decide⟩ :=
  ⟨.start 0#32 0x400000#32 0x500000#32 0, fun _ ht => ht, by decide⟩

end Munix
