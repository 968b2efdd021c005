import Munix.Kernel.SystemInv
import Munix.Kernel.ThreadRuns

/-!
# Munix — interrupts, switches and the ends of processes

What whole runs of the kernel keep, and what they do not.

## Results

* `timerSafe_iff`      — the timer is safe in user code, and nowhere else.
* `dispatchesReal_iff` — `schedule` chooses well unless it is called with a ready
  queue that has become empty.
* `terminated_iff`     — a process that ends is gone if it never had a thread.
-/

namespace Munix

open LinkHeap

variable {L : Layout} {stray : BitVec 32} {s s' : System} {e : Event} {σ : Sched}

-- ---------------------------------------------------------------------------
-- Calls of `schedule`
-- ---------------------------------------------------------------------------

/-- The state in which `schedule` is called by the loop of `thread_join`. -/
def joinCall (σ : Sched) (temp : Fin THREAD_MAX) : Option Sched :=
  if (σ.tcb temp).runstate ≠ .exited then
    some (σ.setCurrent fun th => { th with runstate := .ready, yieldCt := th.yieldCt + 1#32 })
  else none

/-- The state in which `schedule` is called when `e` happens, if it is. -/
def System.scheduleCall (s : System) (e : Event) : Option Sched :=
  match e, s.place with
  | .schedule, .created _ _ => some s.sched
  | .call .yield, .thread =>
    some (s.sched.setCurrent fun th => { th with runstate := .ready, yieldCt := th.yieldCt + 1#32 })
  | .call (.exit status), .thread =>
    some (s.sched.setCurrent fun th => { th with exitStatus := status, runstate := .exited })
  | .call (.join tid), .thread =>
    ((List.finRange THREAD_MAX).find? fun i => (s.sched.tcb i).tid = tid).bind (joinCall s.sched)
  | .joinLoop, .joining temp => joinCall s.sched temp
  | .timer, place =>
    if place.intr then
      some (s.sched.setCurrent fun th =>
        { th with runstate := .ready, preemptCt := th.preemptCt + 1#32 })
    else none
  | _, _ => none

theorem joinCall_eq {temp : Fin THREAD_MAX} (h : joinCall s.sched temp = some σ) :
    threadJoinLoop s.sched temp = schedule σ (.join temp) := by
  unfold joinCall at h
  split at h
  next hrun =>
    obtain rfl := Option.some.inj h
    exact if_pos hrun
  next => cases h

/-- The step is that call of `schedule`. -/
theorem System.step_of_scheduleCall (L : Layout) (h : s.scheduleCall e = some σ) :
    ∃ (s₁ : System) (intr : Bool) (here : Ctl), s.step L e = some (s₁.land intr (Munix.schedule σ here)) := by
  unfold scheduleCall at h
  split at h
  next intr p hplace =>
    obtain rfl := Option.some.inj h
    exact ⟨s, intr, .start s.shell p, by simp only [System.step, hplace]⟩
  next hplace =>
    obtain rfl := Option.some.inj h
    exact ⟨s, false, .user 0, by simp only [System.step, hplace]; rfl⟩
  next hplace =>
    obtain rfl := Option.some.inj h
    exact ⟨s, false, .noreturn, by simp only [System.step, hplace]; rfl⟩
  next tid hplace =>
    obtain ⟨temp, hfind, h⟩ := Option.bind_eq_some_iff.mp h
    refine ⟨s, false, .join temp, ?_⟩
    simp only [System.step, hplace, ThreadCall.run, threadJoin, hfind, joinCall_eq h]
  next temp hplace =>
    refine ⟨s, false, .join temp, ?_⟩
    simp only [System.step, hplace, joinCall_eq h]
  next =>
    split at h
    next hintr =>
      obtain rfl := Option.some.inj h
      refine ⟨{ s with irqCt := s.irqCt + 1#64 }, false,
        if s.place = Place.thread then .user 0 else .noreturn, ?_⟩
      simp only [System.step, hintr, if_true]
      rfl
    next => cases h
  next => cases h

theorem joinCall_inv {q : List (Fin THREAD_MAX)} {temp : Fin THREAD_MAX} (h : CoreInv s.sched q)
    (hc : joinCall s.sched temp = some σ) : CoreInv σ q := by
  unfold joinCall at hc
  split at hc
  next =>
    obtain rfl := Option.some.inj hc
    exact h.setCurrent (fun _ => ⟨rfl, rfl⟩) fun _ => nofun
  next => cases hc

/-- The scheduler's data is in order in every call. -/
theorem System.Inv.scheduleCall (h : s.Inv) (hc : s.scheduleCall e = some σ) :
    ∃ q, CoreInv σ q := by
  obtain ⟨q, hcore, -⟩ := h
  refine ⟨q, ?_⟩
  unfold System.scheduleCall at hc
  split at hc
  next =>
    obtain rfl := Option.some.inj hc
    exact hcore
  next =>
    obtain rfl := Option.some.inj hc
    exact hcore.setCurrent (fun _ => ⟨rfl, rfl⟩) fun _ => nofun
  next =>
    obtain rfl := Option.some.inj hc
    exact hcore.setCurrent (fun _ => ⟨rfl, rfl⟩) fun _ => nofun
  next =>
    obtain ⟨temp, -, hc⟩ := Option.bind_eq_some_iff.mp hc
    exact joinCall_inv hcore hc
  next => exact joinCall_inv hcore hc
  next =>
    split at hc
    next =>
      obtain rfl := Option.some.inj hc
      exact hcore.setCurrent (fun _ => ⟨rfl, rfl⟩) fun _ => nofun
    next => cases hc
  next => cases hc

-- ---------------------------------------------------------------------------
-- The timer
-- ---------------------------------------------------------------------------

/-- What a timer interrupt in `s` may do: preempt a live thread, or, with no
thread running, be counted. -/
def System.TimerSafe (s : System) : Prop :=
  (∃ c, s.sched.currentThread = some c ∧ s.sched.Live c) ∨
    (s.place ≠ .thread ∧ s.handleIrq = { s with irqCt := s.irqCt + 1#64 })

/-- In the first shell the timer leads to a new shell, or launches a thread. -/
theorem System.PlaceInv.lost {q : List (Fin THREAD_MAX)} (hcore : CoreInv s.sched q)
    (h : s.PlaceInv q) (hintr : s.place.intr = true) (hplace : s.place ≠ .thread) :
    s.handleIrq.shell = s.shell + 1 ∨ s.handleIrq.place = .thread := by
  obtain ⟨hnone, hboot⟩ := h.booting hintr hplace
  have hset : ∀ f, s.sched.setCurrent f = s.sched := by
    intro f
    rw [Sched.setCurrent, hnone]
  unfold System.handleIrq threadPreempt
  rw [hset, if_neg hplace]
  rcases hboot with ⟨-, hhead⟩ | ⟨hq, hnew⟩
  · have hback : requeueCurrent s.sched = s.sched := by rw [requeueCurrent, hnone]
    left
    rw [schedule, hback, chooseNextThread_unlinked hhead]
    rfl
  · exact .inr (System.land_first hcore hnone hq hnew _ _ false).2

/-- **The timer is safe exactly in user code.** In the first shell there is no
current thread to write to, and the shell does not go on. -/
theorem timerSafe_iff (hs : System.Reachable L stray s) (hintr : s.place.intr = true) :
    s.TimerSafe ↔ s.place = .thread := by
  obtain ⟨q, hcore, hpl⟩ := hs.inv
  constructor
  · intro hsafe
    by_contra hplace
    rcases hsafe with ⟨c, hc, -⟩ | ⟨-, hirq⟩
    · rw [(hpl.booting hintr hplace).1] at hc
      cases hc
    · rcases hpl.lost hcore hintr hplace with hshell | hthread
      · rw [hirq] at hshell
        exact absurd hshell (Nat.ne_of_lt (Nat.lt_succ_self _))
      · rw [hirq] at hthread
        exact hplace hthread
  · intro hplace
    obtain ⟨c, hc, -⟩ := hpl.running (.inl hplace)
    exact .inl ⟨c, hc, (hcore.current c hc).1⟩

/-- A program is started and its first thread launched. -/
def firstProgram : List Event := [.command, .start, .create 0x400000#32 0x500000#32, .schedule]

theorem firstProgram_runs : ((System.boot 0#32).run lowLayout firstProgram).isSome = true := rfl

def firstThread : System := ((System.boot 0#32).run lowLayout firstProgram).get firstProgram_runs

theorem firstThread_reachable : System.Reachable lowLayout 0#32 firstThread :=
  ⟨firstProgram, (Option.some_get _).symm⟩

/-- Where it is, and that the ready queue is empty. -/
theorem firstThread_state : firstThread.place = .thread ∧
    firstThread.sched.currentThread = some ⟨0, by decide⟩ ∧
    (firstThread.sched.links .readyQueue).next = .readyQueue :=
  ⟨rfl, rfl, rfl⟩

theorem timerSafe_iff_firstThread :
    firstThread.place = .thread ∧ firstThread.TimerSafe := by
  have hplace := firstThread_state.1
  exact ⟨hplace, (timerSafe_iff firstThread_reachable (by rw [hplace]; rfl)).mpr hplace⟩

/-- A timer interrupt at the first prompt. -/
theorem timerSafe_fails_boot :
    ∃ s, System.Reachable lowLayout 0#32 s ∧ s.place.intr = true ∧ ¬ s.TimerSafe := by
  refine ⟨.boot 0#32, ⟨[], rfl⟩, rfl, ?_⟩
  rintro (⟨c, hc, -⟩ | ⟨-, hirq⟩)
  · cases hc
  · have hshell : (System.boot 0#32).handleIrq.shell = 1 := rfl
    rw [hirq] at hshell
    cases hshell

-- ---------------------------------------------------------------------------
-- Switches
-- ---------------------------------------------------------------------------

/-- What `choose_next_thread` has to do when `schedule` is called in `σ`: return a
thread that can run, or find the queue empty if there is none. -/
def Sched.DispatchesReal (σ : Sched) : Prop :=
  ∃ n ptr σ', chooseNextThread n (requeueCurrent σ) = some (ptr, σ') ∧
    match ptr with
    | .tcb t => σ'.Live t ∧ ((σ'.tcb t).runstate = .new ∨ (σ'.tcb t).runstate = .ready)
    | .null => ∀ t, σ'.Live t → (σ'.tcb t).runstate = .exited
    | .stray => False

/-- The queue has a thread, or has never had one, or gets the current thread back. -/
def Sched.HasNext (σ : Sched) : Prop :=
  (σ.links .readyQueue).next ≠ .readyQueue ∨
    ∃ c, σ.currentThread = some c ∧ (σ.tcb c).runstate = .ready

theorem CoreInv.dispatchesReal {q : List (Fin THREAD_MAX)} (h : CoreInv σ q) (hnext : σ.HasNext) :
    σ.DispatchesReal := by
  obtain ⟨links, hσ, hlist, -⟩ := requeueCurrent_links h.ready
  cases hq : q ++ σ.requeued with
  | cons x q' =>
    obtain ⟨hlive, hrun⟩ := h.runnable_requeued (t := x) (by simp [hq])
    rw [hq] at hlist
    refine ⟨1, .tcb x, { σ with links := links }, ?_, hlive, ?_⟩
    · rw [hσ]
      exact chooseNextThread_cons (s := { σ with links := links }) hlist hrun 0
    · change (σ.tcb x).runstate = .new ∨ (σ.tcb x).runstate = .ready
      cases hr : (σ.tcb x).runstate with
      | new => exact .inl rfl
      | ready => exact .inr rfl
      | exited => exact absurd hr hrun
  | nil =>
    obtain ⟨rfl, hback⟩ := List.append_eq_nil_iff.mp hq
    -- the current thread is not put back
    have hcur : ∀ c, σ.currentThread = some c → (σ.tcb c).runstate ≠ .ready := by
      intro c hc hr
      have : c ∈ σ.requeued := mem_requeued.mpr ⟨hc, hr⟩
      simp [hback] at this
    have hhead : (σ.links .readyQueue).next = 0 := by
      refine h.ready.queue.next_eq_of_nil.resolve_right fun hself => ?_
      rcases hnext with hne | ⟨c, hc, hr⟩
      · exact hne hself
      · exact hcur c hc hr
    refine ⟨1, .null, σ, ?_, fun t ht => ?_⟩
    · rw [requeueCurrent_eq_self hcur, chooseNextThread_unlinked hhead]
    · by_contra hrun
      have hct : σ.currentThread = some t := by
        by_contra hct
        simpa using h.queued t ht hrun hct
      cases hr : (σ.tcb t).runstate with
      | new => exact (h.current t hct).2 hr
      | ready => exact hcur t hct hr
      | exited => exact hrun hr

/-- In a self-linked queue `choose_next_thread` finds nothing, for ever, or something
that is not a thread. -/
theorem not_dispatchesReal (h : ¬ σ.HasNext) : ¬ σ.DispatchesReal := by
  obtain ⟨hself, hcur⟩ := not_or.mp h
  have hself : (σ.links .readyQueue).next = .readyQueue := not_not.mp hself
  rintro ⟨n, ptr, σ', hchoose, hptr⟩
  rw [requeueCurrent_eq_self fun c hc hr => hcur ⟨c, hc, hr⟩] at hchoose
  rcases chooseNextThread_linked hself n with hnone | hstray
  · rw [hnone] at hchoose
    cases hchoose
  · rw [hstray] at hchoose
    cases hchoose
    exact hptr

/-- **`schedule` only dispatches real threads, unless the ready queue has become
empty.** An empty queue is recognised only as long as its head has never been
linked. -/
theorem dispatchesReal_iff (hs : System.Reachable L stray s) (hc : s.scheduleCall e = some σ) :
    σ.DispatchesReal ↔ σ.HasNext := by
  obtain ⟨q, hcore⟩ := hs.inv.scheduleCall hc
  refine ⟨fun hreal => ?_, hcore.dispatchesReal⟩
  by_contra hnext
  exact not_dispatchesReal hnext hreal

theorem dispatchesReal_iff_yield :
    ∃ σ, firstThread.scheduleCall (.call .yield) = some σ ∧ σ.DispatchesReal := by
  obtain ⟨hplace, hcur, -⟩ := firstThread_state
  have hcall : firstThread.scheduleCall (.call .yield) = some (firstThread.sched.setCurrent
      fun th => { th with runstate := .ready, yieldCt := th.yieldCt + 1#32 }) := by
    simp only [System.scheduleCall, hplace]
  refine ⟨_, hcall, (dispatchesReal_iff firstThread_reachable hcall).mpr (.inr ?_)⟩
  refine ⟨⟨0, by decide⟩, ?_, ?_⟩
  · simp only [Sched.setCurrent, hcur, Sched.setThread]
  · simp only [Sched.setCurrent, hcur, Sched.setThread, Function.update_self]

/-- The only thread exits. -/
theorem dispatchesReal_fails_last :
    ∃ s σ, System.Reachable lowLayout 0#32 s ∧
      s.scheduleCall (.call (.exit 0#32)) = some σ ∧ ¬ σ.DispatchesReal := by
  obtain ⟨hplace, hcur, hempty⟩ := firstThread_state
  have hcall : firstThread.scheduleCall (.call (.exit 0#32)) = some (firstThread.sched.setCurrent
      fun th => { th with exitStatus := 0#32, runstate := .exited }) := by
    simp only [System.scheduleCall, hplace]
  refine ⟨firstThread, _, firstThread_reachable, hcall, ?_⟩
  simp only [Sched.setCurrent, hcur]
  refine not_dispatchesReal (not_or.mpr ⟨not_not.mpr hempty, ?_⟩)
  rintro ⟨c, hc, hr⟩
  obtain rfl : ⟨0, by decide⟩ = c := Option.some.inj (hcur.symm.trans hc)
  simp [Sched.setThread] at hr

-- ---------------------------------------------------------------------------
-- Ends of processes
-- ---------------------------------------------------------------------------

/-- Thread `t` is in the ready queue. -/
def Sched.InQueue (σ : Sched) (t : Fin THREAD_MAX) : Prop :=
  ∃ q : List (Fin THREAD_MAX), IsList σ.links .readyQueue (q.map .queue) ∧ t ∈ q

/-- Event `e` ends the current process `p`: `process_exit`, or an exception. -/
def System.Terminates (s : System) (e : Event) (p : Fin PROCESS_MAX) : Prop :=
  s.sched.currentProcess = some p ∧ (e = .exit ∨ e = .fault)

/-- Process `p`, which has ended between `s` and `s'`, never runs again. -/
structure TerminatedForGood (L : Layout) (s s' : System) (p : Fin PROCESS_MAX) : Prop where
  unqueued : ∀ t, (s.sched.tcb t).process = some p → ¬ s'.sched.InQueue t
  freed    : ∀ t, (s'.sched.tcb t).process ≠ some p
  never    : ∀ t, (s.sched.tcb t).process = some p → ∀ events s'' e σ, s'.run L events = some s'' →
    s''.scheduleCall e = some σ → (σ.tcb t).tid = (s.sched.tcb t).tid →
    ∀ n, (chooseNextThread n (requeueCurrent σ)).map Prod.fst ≠ some (.tcb t)

theorem Sched.setCurrent_process {f : Thread → Thread} (hf : ∀ th, (f th).process = th.process)
    (t : Fin THREAD_MAX) : ((σ.setCurrent f).tcb t).process = (σ.tcb t).process := by
  unfold Sched.setCurrent
  split
  next => rfl
  next c hc =>
    by_cases htc : t = c
    · subst htc
      simp [Sched.setThread, hf]
    · simp [Sched.setThread, htc]

/-- Ending a process leaves all threads with their process. -/
theorem System.Terminates.process {p : Fin PROCESS_MAX} (h : s.Terminates e p)
    (hstep : s.step L e = some s') (t : Fin THREAD_MAX) :
    (s'.sched.tcb t).process = (s.sched.tcb t).process := by
  have hfault : (s.handleException.sched.tcb t).process = (s.sched.tcb t).process := by
    rw [System.handleException, h.1]
    rfl
  rcases h.2 with rfl | rfl
  · cases hplace : s.place with
    | thread =>
      rw [System.step_exit L hplace, h.1, Option.map_some] at hstep
      obtain rfl := Option.some.inj hstep
      change ((Sched.setCurrent _ _).tcb t).process = _
      rw [Sched.setCurrent_process]
      · rfl
      · intro th
        rfl
    | _ => simp [System.step, hplace] at hstep
  · cases hplace : s.place with
    | shell _ | loading _ _ | starting _ _ | thread =>
      simp only [System.step, hplace] at hstep
      obtain rfl := Option.some.inj hstep
      exact hfault
    | _ => simp [System.step, hplace] at hstep

/-- **A process that has ended is gone exactly if it had no thread.** Neither
`process_exit` nor an exception closes the threads; in user code there is at least
the current one. -/
theorem terminated_iff {p : Fin PROCESS_MAX} (hs : System.Reachable L stray s)
    (hend : s.Terminates e p) (hstep : s.step L e = some s') :
    TerminatedForGood L s s' p ↔ s.place ≠ .thread ∧ ∀ t, (s.sched.tcb t).process ≠ some p := by
  have hprocess := hend.process hstep
  constructor
  · intro hgood
    have hfree : ∀ t, (s.sched.tcb t).process ≠ some p := by
      intro t
      rw [← hprocess t]
      exact hgood.freed t
    refine ⟨fun hplace => ?_, hfree⟩
    obtain ⟨q, -, hpl⟩ := hs.inv
    obtain ⟨c, -, -, hc⟩ := hpl.running (.inl hplace)
    exact hfree c (hc.symm.trans hend.1)
  · rintro ⟨-, hfree⟩
    refine ⟨fun t ht => absurd ht (hfree t), fun t => ?_, fun t ht => absurd ht (hfree t)⟩
    rw [hprocess t]
    exact hfree t

/-- The arguments of a program are being pushed. -/
def pushing : System := ((System.boot 0#32).run lowLayout [.command, .start]).get (by decide +kernel)

theorem pushing_reachable : System.Reachable lowLayout 0#32 pushing :=
  ⟨[.command, .start], (Option.some_get _).symm⟩

/-- A page fault there ends a process without threads. -/
theorem terminated_iff_pushing :
    pushing.Terminates .fault firstProcess ∧
      ∃ s', pushing.step lowLayout .fault = some s' ∧
        TerminatedForGood lowLayout pushing s' firstProcess := by
  have hend : pushing.Terminates .fault firstProcess := ⟨by decide, .inr rfl⟩
  have hstep : pushing.step lowLayout .fault = some pushing.handleException := rfl
  refine ⟨hend, _, hstep, (terminated_iff pushing_reachable hend hstep).mpr ⟨?_, ?_⟩⟩
  · decide
  · decide

/-- The first thread has created another one. -/
def siblingEvents : List Event := firstProgram ++ [.call (.create 0x400100#32 0x4f0000#32)]

theorem siblingEvents_run : ((System.boot 0#32).run lowLayout siblingEvents).isSome = true := by
  decide

def siblings : System := ((System.boot 0#32).run lowLayout siblingEvents).get siblingEvents_run

theorem siblings_reachable : System.Reachable lowLayout 0#32 siblings :=
  ⟨siblingEvents, (Option.some_get _).symm⟩

/-- Another program, after `process_exit`. -/
def nextEvents : List Event := [.command, .start, .create 0x400000#32 0x500000#32]

def nextProgram : System :=
  ((siblings.processExit firstProcess).run lowLayout nextEvents).get (by decide +kernel)

/-- After `process_exit` in one thread, the other one is still in the queue. The
next program that is started finds it there, and it runs. -/
theorem terminated_fails_sibling :
    ∃ s s' p t, System.Reachable lowLayout 0#32 s ∧ s.Terminates .exit p ∧
      s.step lowLayout .exit = some s' ∧ (s.sched.tcb t).process = some p ∧
      s'.sched.InQueue t ∧ (s'.sched.tcb t).process = some p ∧
      ∃ events s'' σ, s'.run lowLayout events = some s'' ∧ s''.scheduleCall .schedule = some σ ∧
        (σ.tcb t).tid = (s.sched.tcb t).tid ∧
        (chooseNextThread 1 (requeueCurrent σ)).map Prod.fst = some (.tcb t) := by
  have hend : siblings.Terminates .exit firstProcess := ⟨by decide, .inl rfl⟩
  have hplace : siblings.place = .thread := by decide
  have hstep : siblings.step lowLayout .exit = some (siblings.processExit firstProcess) := by
    rw [System.step_exit lowLayout hplace, hend.1, Option.map_some]
  obtain ⟨q, hcore, -⟩ := siblings_reachable.inv.step hstep
  have hcreated : nextProgram.place = .created false firstProcess := by decide
  refine ⟨siblings, _, firstProcess, ⟨1, by decide⟩, siblings_reachable, hend, hstep,
    by decide, ⟨q, hcore.ready.queue, hcore.queued _ ?_ ?_ ?_⟩, by decide,
    nextEvents, nextProgram, nextProgram.sched, (Option.some_get _).symm, ?_, by decide,
    by decide⟩
  · decide
  · decide
  · decide
  · simp only [System.scheduleCall, hcreated]

end Munix
