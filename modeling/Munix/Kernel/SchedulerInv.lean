import Munix.Kernel.Scheduler

/-!
# Munix — the scheduler's invariant

`ReadyInv s q` is what the scheduler itself relies on: the ready queue is a
well-formed list that holds the threads `q`, all of them in a state they can
be run from, and the current thread is not among them. `SchedInv` adds what
ties the queue and the process's list to the TCB array while the threads of a
single process run.

`schedule_eq` says once what `schedule` does with a non-empty queue; the
invariants follow from that.
-/

namespace Munix

open LinkHeap

-- ---------------------------------------------------------------------------
-- The ready queue
-- ---------------------------------------------------------------------------

/-- The slot holds a thread. -/
def Sched.Live (s : Sched) (t : Fin THREAD_MAX) : Prop := (s.tcb t).tid ≠ 0#32

instance (s : Sched) (t : Fin THREAD_MAX) : Decidable (s.Live t) := inferInstanceAs (Decidable (_ ≠ _))

structure ReadyInv (s : Sched) (q : List (Fin THREAD_MAX)) : Prop where
  queue    : IsList s.links .readyQueue (q.map .queue)
  runnable : ∀ t ∈ q, s.Live t ∧ (s.tcb t).runstate ≠ .exited
  current  : ∀ t, s.currentThread = some t → t ∉ q

theorem queue_injective : Function.Injective Node.queue := fun _ _ h => Node.queue.inj h

theorem mem_map_queue {q : List (Fin THREAD_MAX)} {t : Fin THREAD_MAX} :
    Node.queue t ∈ q.map Node.queue ↔ t ∈ q :=
  List.mem_map_of_injective queue_injective

theorem ReadyInv.nodup {s : Sched} {q : List (Fin THREAD_MAX)} (h : ReadyInv s q) : q.Nodup :=
  List.Nodup.of_map _ h.queue.nodup_tail

/-- Nodes that are not in the ready queue's ring. -/
def Node.OffQueue (q : List (Fin THREAD_MAX)) (n : Node) : Prop :=
  n ≠ .readyQueue ∧ ∀ t ∈ q, n ≠ .queue t

theorem Node.OffQueue.not_mem {q : List (Fin THREAD_MAX)} {n : Node} (h : n.OffQueue q) :
    n ∉ Node.readyQueue :: q.map Node.queue := by
  simp only [List.mem_cons, List.mem_map, not_or, not_exists, not_and]
  exact ⟨h.1, fun t ht heq => h.2 t ht heq.symm⟩

/-- Adding a thread at the back of the queue. -/
theorem schedAdd_links {s : Sched} {q : List (Fin THREAD_MAX)} {t : Fin THREAD_MAX}
    (h : IsList s.links .readyQueue (q.map .queue)) (ht : t ∉ q) :
    IsList (schedAdd s t).links .readyQueue ((q ++ [t]).map .queue) ∧
      ∀ n, n.OffQueue (q ++ [t]) → (schedAdd s t).links n = s.links n := by
  refine ⟨?_, ?_⟩
  · rw [List.map_append]
    refine listAddTail_isList h ?_ (nofun : Node.queue t ≠ .null)
    simp only [List.mem_cons, reduceCtorEq, mem_map_queue, ht, or_self, not_false_eq_true]
  · intro n hn
    refine listAddTail_frame h ?_
    simp only [List.mem_cons, not_or]
    refine ⟨hn.2 t (by simp), hn.1, ?_⟩
    simp only [List.mem_map, not_exists, not_and]
    exact fun u hu heq => hn.2 u (by simp [hu]) heq.symm

/-- Taking the first thread out of the queue. -/
theorem schedRemove_links {s : Sched} {q : List (Fin THREAD_MAX)} {x : Fin THREAD_MAX}
    (h : IsList s.links .readyQueue ((x :: q).map .queue)) :
    IsList (schedRemove s x).links .readyQueue (q.map .queue) ∧
      (schedRemove s x).links (.queue x) = ⟨0, 0⟩ ∧
      ∀ n, n.OffQueue (x :: q) → (schedRemove s x).links n = s.links n := by
  have hx : Node.queue x ∈ (x :: q).map Node.queue := by simp
  have hdel : (schedRemove s x).links = listDel s.links (.queue x) := if_pos (h.linked hx)
  rw [hdel]
  refine ⟨(listDel_isList h : IsList _ _ ([] ++ _)), listDel_self _ _, ?_⟩
  intro n hn
  exact listDel_frame h hx hn.not_mem

/-- With a runnable thread at its head the queue's choice is that thread. -/
theorem chooseNextThread_cons {s : Sched} {q : List (Fin THREAD_MAX)} {x : Fin THREAD_MAX}
    (h : IsList s.links .readyQueue ((x :: q).map .queue)) (hx : (s.tcb x).runstate ≠ .exited)
    (n : Nat) : chooseNextThread (n + 1) s = some (.tcb x, s) := by
  have hnext : (s.links .readyQueue).next = .queue x := h.next_eq
  rw [chooseNextThread, hnext]
  cases hr : (s.tcb x).runstate with
  | new => simp [threadOfQueue, hr]
  | ready => simp [threadOfQueue, hr]
  | exited => exact absurd hr hx

-- ---------------------------------------------------------------------------
-- schedule
-- ---------------------------------------------------------------------------

/-- The current thread, if `schedule` puts it back in the queue. -/
def Sched.requeued (s : Sched) : List (Fin THREAD_MAX) :=
  match s.currentThread with
  | none => []
  | some t => if (s.tcb t).runstate = .ready then [t] else []

theorem mem_requeued {s : Sched} {t : Fin THREAD_MAX} :
    t ∈ s.requeued ↔ s.currentThread = some t ∧ (s.tcb t).runstate = .ready := by
  unfold Sched.requeued
  cases hc : s.currentThread with
  | none => simp
  | some c =>
    dsimp only
    split <;> rename_i hr
    · simp only [List.mem_singleton, Option.some.injEq]
      constructor
      · rintro rfl
        exact ⟨rfl, hr⟩
      · exact fun h => h.1.symm
    · simp only [List.not_mem_nil, Option.some.injEq, false_iff, not_and]
      rintro rfl
      exact hr

/-- A current thread that is not running is not put back. -/
theorem requeueCurrent_eq_self {s : Sched}
    (h : ∀ c, s.currentThread = some c → (s.tcb c).runstate ≠ .ready) : requeueCurrent s = s := by
  unfold requeueCurrent
  split
  next => rfl
  next c hc => exact if_neg (h c hc)

theorem requeueCurrent_links {s : Sched} {q : List (Fin THREAD_MAX)} (h : ReadyInv s q) :
    ∃ links, requeueCurrent s = { s with links := links } ∧
      IsList links .readyQueue ((q ++ s.requeued).map .queue) ∧
      ∀ n, n.OffQueue (q ++ s.requeued) → links n = s.links n := by
  by_cases hc : ∃ c, s.currentThread = some c ∧ (s.tcb c).runstate = .ready
  · obtain ⟨c, hc, hready⟩ := hc
    have hr : s.requeued = [c] := by simp [Sched.requeued, hc, hready]
    obtain ⟨hl, hf⟩ := schedAdd_links h.queue (h.current c hc)
    rw [hr]
    exact ⟨(schedAdd s c).links, by simp [requeueCurrent, hc, hready, schedAdd], hl, hf⟩
  · have hr : s.requeued = [] := by
      apply List.eq_nil_iff_forall_not_mem.mpr
      intro t ht
      exact hc ⟨t, mem_requeued.mp ht⟩
    have hs : requeueCurrent s = s :=
      requeueCurrent_eq_self fun c hcur hready => hc ⟨c, hcur, hready⟩
    rw [hr, List.append_nil, hs]
    exact ⟨s.links, rfl, h.queue, fun _ _ => rfl⟩

/-- What `schedule` does when some thread can run: it switches to the first
thread of the queue, once the current one has been put back. -/
theorem schedule_eq {s : Sched} {q q' : List (Fin THREAD_MAX)} {x : Fin THREAD_MAX} (here : Ctl)
    (h : ReadyInv s q) (hq : q ++ s.requeued = x :: q') :
    ∃ links, schedule s here = threadSwitch { s with links := links } s.currentThread x here ∧
      IsList links .readyQueue (q'.map .queue) ∧ links (.queue x) = ⟨0, 0⟩ ∧
      ∀ n, n.OffQueue (x :: q') → links n = s.links n := by
  obtain ⟨links, hs₁, hl₁, hframe₁⟩ := requeueCurrent_links h
  rw [hq] at hl₁ hframe₁
  have hx : (s.tcb x).runstate ≠ .exited := by
    have hmem : x ∈ q ++ s.requeued := by simp [hq]
    rcases List.mem_append.mp hmem with hx | hx
    · exact (h.runnable x hx).2
    · simp [(mem_requeued.mp hx).2]
  set s₁ : Sched := { s with links := links } with hs₁'
  obtain ⟨hl₂, hself, hframe₂⟩ := schedRemove_links (s := s₁) hl₁
  refine ⟨(schedRemove s₁ x).links, ?_, hl₂, hself, fun n hn => (hframe₂ n hn).trans (hframe₁ n hn)⟩
  have hchoose : chooseNextThread (THREAD_MAX + 1) s₁ = some (.tcb x, s₁) :=
    chooseNextThread_cons (s := s₁) hl₁ hx _
  rw [schedule, hs₁, hchoose]
  rfl

/-- The places a thread waits at while it is in the queue. -/
def Ctl.Returns : Ctl → Prop
  | .user _ => True
  | .join _ => True
  | _ => False

/-- An empty queue whose head has never been linked is recognised. -/
theorem chooseNextThread_unlinked {s : Sched} (h : (s.links .readyQueue).next = 0) (n : Nat) :
    chooseNextThread (n + 1) s = some (.null, s) := by
  rw [chooseNextThread, h]
  rfl

/-- An empty queue whose head is linked to itself is not. -/
theorem chooseNextThread_linked {s : Sched} (h : (s.links .readyQueue).next = .readyQueue) (n : Nat) :
    chooseNextThread n s = none ∨ chooseNextThread n s = some (.stray, s) := by
  induction n with
  | zero => exact .inl rfl
  | succ n ih =>
    have hrotate : listRotateLeft s.links .readyQueue = s.links := by
      simp [listRotateLeft, listEmpty, h]
    rw [chooseNextThread, h, hrotate]
    simp only [threadOfQueue]
    split
    · exact .inr rfl
    · exact ih

/-- The loop of `choose_next_thread` finds no thread in an empty queue. -/
theorem chooseNextThread_nil {s : Sched} (h : IsList s.links .readyQueue []) (n : Nat) :
    chooseNextThread n s = none ∨ chooseNextThread n s = some (.null, s) ∨
      chooseNextThread n s = some (.stray, s) := by
  rcases h.next_eq_of_nil with hnext | hnext
  · cases n with
    | zero => exact .inl rfl
    | succ n => exact .inr (.inl (chooseNextThread_unlinked hnext n))
  · exact (chooseNextThread_linked hnext n).imp_right .inr

theorem saveOutgoing_eq (s : Sched) (outgoing : Option (Fin THREAD_MAX)) (here : Ctl) :
    saveOutgoing s outgoing here = { s with tcb := fun t => { s.tcb t with
      savedState := if outgoing = some t then some here else (s.tcb t).savedState } } := by
  cases outgoing with
  | none => simp [saveOutgoing]
  | some u =>
    simp only [saveOutgoing, Sched.setThread, Sched.mk.injEq, and_true]
    funext t
    by_cases hu : t = u
    · subst hu; simp
    · simp [hu, Ne.symm hu]

/-- The state after a switch: the threads' run states change only where a new
thread is started, and the outgoing thread remembers where it was. -/
def switched (s : Sched) (outgoing : Option (Fin THREAD_MAX)) (incoming : Fin THREAD_MAX)
    (here : Ctl) : Sched where
  tcb t := { s.tcb t with
    savedState := if outgoing = some t then some here else (s.tcb t).savedState
    runstate := if t = incoming then .ready else (s.tcb t).runstate }
  nextTid := s.nextTid
  links := s.links
  currentThread := some incoming
  currentProcess := (s.tcb incoming).process
  esp0 := (s.tcb incoming).threadStack
  strayRunstate := s.strayRunstate

theorem threadSwitch_eq (s : Sched) (outgoing : Option (Fin THREAD_MAX)) (incoming : Fin THREAD_MAX)
    (here : Ctl) (hrun : (s.tcb incoming).runstate ≠ .exited) :
    threadSwitch s outgoing incoming here =
      (if (s.tcb incoming).runstate = .new then .user 0
        else (if outgoing = some incoming then some here else (s.tcb incoming).savedState).getD .wild,
      switched s outgoing incoming here) := by
  unfold threadSwitch
  rw [saveOutgoing_eq]
  cases hr : (s.tcb incoming).runstate with
  | exited => exact absurd hr hrun
  | new =>
    simp only [hr, if_true, Prod.mk.injEq, true_and, switched, Sched.setThread, Sched.mk.injEq,
      and_true]
    funext t
    by_cases ht : t = incoming
    · subst ht; simp
    · simp [ht]
  | ready =>
    simp only [hr, reduceCtorEq, if_false, Prod.mk.injEq, true_and, switched, Sched.mk.injEq, and_true]
    funext t
    by_cases ht : t = incoming
    · subst ht; simp [hr]
    · simp [ht]

/-- With no thread that can run, `schedule` does not come back. -/
theorem schedule_nil {s : Sched} (h : ReadyInv s []) (hback : s.requeued = []) (here : Ctl) :
    ¬ (schedule s here).1.Returns := by
  obtain ⟨links, hs, hl, -⟩ := requeueCurrent_links h
  rw [hback, List.append_nil] at hl
  rw [schedule, hs]
  rcases chooseNextThread_nil (s := { s with links := links }) hl (THREAD_MAX + 1) with hc | hc | hc
  · simp [hc, Ctl.Returns]
  · simp [hc, Ctl.Returns]
  · simp [hc, Ctl.Returns]

-- ---------------------------------------------------------------------------
-- thread_create
-- ---------------------------------------------------------------------------

theorem not_live_of_alloc {s : Sched} {t : Fin THREAD_MAX} (h : threadAlloc s = some t) :
    ¬ s.Live t := by
  have := List.find?_some h
  simpa [Sched.Live] using this

/-- Everything but the lists after a thread has been created in slot `t`. -/
theorem threadCreate_state {s : Sched} {t : Fin THREAD_MAX} (L : Layout) (p : Fin PROCESS_MAX)
    (startAddr ustack : BitVec 32) (ht : threadAlloc s = some t) :
    let s' := (threadCreate L s p startAddr ustack).2
    s'.currentThread = s.currentThread ∧ s'.currentProcess = s.currentProcess ∧ s'.esp0 = s.esp0 ∧
      s'.nextTid = s.nextTid + 1#32 ∧ (s'.tcb t).tid = s.nextTid ∧
      ∀ u, u ≠ t → s'.tcb u = s.tcb u := by
  simp only [threadCreate, ht, schedAdd, Sched.setThread, Function.update_self, true_and]
  intro u hu
  rw [Function.update_of_ne hu]

-- ---------------------------------------------------------------------------
-- The threads of one process
-- ---------------------------------------------------------------------------

/-- The queue `q` and the process's list `ts` are the threads in the TCB
array that should be there. -/
structure SchedInv (L : Layout) (p : Fin PROCESS_MAX) (s : Sched) (q ts : List (Fin THREAD_MAX)) :
    Prop where
  ready    : ReadyInv s q
  queued   : ∀ t, s.Live t → (s.tcb t).runstate ≠ .exited → s.currentThread ≠ some t → t ∈ q
  threads  : IsList s.links (.threads p) (ts.map .processThreads)
  member   : ∀ t, t ∈ ts ↔ s.Live t
  process  : ∀ t, s.Live t → (s.tcb t).process = some p
  unqueued : ∀ t, t ∉ q → s.links (.queue t) = ⟨0, 0⟩
  stack    : ∀ t, s.Live t → (s.tcb t).threadStack = L.kstackTop t
  free     : ∀ t, ¬ s.Live t → (s.tcb t).runstate = .new
  saved    : ∀ t ∈ q, (s.tcb t).runstate = .ready → ∃ c, (s.tcb t).savedState = some c ∧ c.Returns
  tid_lt   : ∀ t, (s.tcb t).tid.toNat < s.nextTid.toNat
  tid_inj  : ∀ t u, s.Live t → (s.tcb t).tid = (s.tcb u).tid → t = u

/-- Some thread runs, on its own kernel stack. -/
structure Running (p : Fin PROCESS_MAX) (s : Sched) (c : Fin THREAD_MAX) : Prop where
  current : s.currentThread = some c
  process : s.currentProcess = some p
  live    : s.Live c
  state   : (s.tcb c).runstate = .ready
  esp0    : s.esp0 = (s.tcb c).threadStack

namespace SchedInv

variable {L : Layout} {p : Fin PROCESS_MAX} {s : Sched} {q ts : List (Fin THREAD_MAX)}

theorem off_of_not_queue {q : List (Fin THREAD_MAX)} {n : Node} (hr : n ≠ .readyQueue)
    (hq : ∀ t, n ≠ .queue t) : n.OffQueue q :=
  ⟨hr, fun t _ => hq t⟩

/-- **One switch.** If some thread can run once the current one has been put
back, the first such thread runs next and the invariant holds again. -/
theorem schedule (h : SchedInv L p s q ts) (here : Ctl)
    (hcur : ∀ c, s.currentThread = some c → s.Live c ∧ (s.tcb c).runstate ≠ .new ∧
      ((s.tcb c).runstate = .ready → here.Returns))
    (hne : q ++ s.requeued ≠ []) :
    ∃ x q', q ++ s.requeued = x :: q' ∧ SchedInv L p (Munix.schedule s here).2 q' ts ∧
      Running p (Munix.schedule s here).2 x ∧ (Munix.schedule s here).1.Returns ∧
      (Munix.schedule s here).2.nextTid = s.nextTid ∧
      ∀ t, ((Munix.schedule s here).2.tcb t).tid = (s.tcb t).tid := by
  obtain ⟨x, q', hq⟩ := List.exists_cons_of_ne_nil hne
  have hnodup : (x :: q').Nodup := by
    rw [← hq]
    refine List.Nodup.append h.ready.nodup ?_ ?_
    · unfold Sched.requeued
      split
      · exact List.nodup_nil
      · split <;> simp
    · intro t ht ht'
      exact h.ready.current t (mem_requeued.mp ht').1 ht
  have hlive : ∀ t ∈ x :: q', s.Live t ∧ (s.tcb t).runstate ≠ .exited := by
    intro t ht
    rw [← hq] at ht
    rcases List.mem_append.mp ht with ht | ht
    · exact h.ready.runnable t ht
    · obtain ⟨hc, hr⟩ := mem_requeued.mp ht
      exact ⟨(hcur t hc).1, by simp [hr]⟩
  obtain ⟨hxl, hxr⟩ := hlive x List.mem_cons_self
  obtain ⟨links, hsched, hl, hself, hframe⟩ := schedule_eq here h.ready hq
  rw [threadSwitch_eq { s with links := links } s.currentThread x here hxr] at hsched
  set s' := switched { s with links := links } s.currentThread x here with hs'
  rw [hsched]
  have hstate : ∀ t, t ≠ x → (s'.tcb t).runstate = (s.tcb t).runstate := fun t ht => if_neg ht
  have hmem : ∀ t, t ∈ x :: q' ↔ t ∈ q ∨ s.currentThread = some t ∧ (s.tcb t).runstate = .ready := by
    intro t
    rw [← hq, List.mem_append, mem_requeued]
  -- a thread in the queue waits at a place it can go on from
  have hsaved : ∀ t ∈ x :: q', (s.tcb t).runstate = .ready →
      ∃ c, (s'.tcb t).savedState = some c ∧ c.Returns := by
    intro t ht hr
    by_cases hc : s.currentThread = some t
    · exact ⟨here, if_pos hc, (hcur t hc).2.2 hr⟩
    · obtain ⟨c, hc', hret⟩ := h.saved t (((hmem t).mp ht).resolve_right fun h => hc h.1) hr
      exact ⟨c, (if_neg hc).trans hc', hret⟩
  refine ⟨x, q', hq, ?_, ⟨rfl, h.process x hxl, hxl, if_pos rfl, rfl⟩, ?_, rfl, fun _ => rfl⟩
  · refine ⟨⟨hl, ?_, ?_⟩, ?_, ?_, h.member, h.process, ?_, h.stack, ?_, ?_, h.tid_lt, h.tid_inj⟩
    · intro t ht
      have htx : t ≠ x := by
        rintro rfl
        exact (List.nodup_cons.mp hnodup).1 ht
      rw [hstate t htx]
      exact hlive t (List.mem_cons_of_mem _ ht)
    · intro t ht
      obtain rfl : x = t := by simpa [hs', switched] using ht
      exact (List.nodup_cons.mp hnodup).1
    · intro t htl htr hct
      have htx : t ≠ x := by
        rintro rfl
        exact hct rfl
      rw [hstate t htx] at htr
      have ht : t ∈ x :: q' := by
        rw [hmem]
        by_cases hc : s.currentThread = some t
        · refine .inr ⟨hc, ?_⟩
          have := (hcur t hc).2.1
          cases hr : (s.tcb t).runstate <;> simp_all
        · exact .inl (h.queued t htl htr hc)
      exact (List.mem_cons.mp ht).resolve_left htx
    · refine h.threads.congr ?_
      intro n hn
      refine hframe n ?_
      rcases List.mem_cons.mp hn with rfl | hn
      · exact off_of_not_queue (by simp) (by simp)
      · obtain ⟨t, -, rfl⟩ := List.mem_map.mp hn
        exact off_of_not_queue (by simp) (by simp)
    · intro t ht
      by_cases htx : t = x
      · subst htx
        exact hself
      · have hoff : (Node.queue t).OffQueue (x :: q') := by
          refine ⟨by simp, ?_⟩
          rintro u hu heq
          obtain rfl := Node.queue.inj heq
          exact (List.mem_cons.mp hu).elim htx ht
        refine (hframe _ hoff).trans (h.unqueued t ?_)
        intro hq'
        exact ((List.mem_cons.mp ((hmem t).mpr (.inl hq'))).elim htx ht)
    · intro t ht
      have htx : t ≠ x := by
        rintro rfl
        exact ht hxl
      rw [hstate t htx]
      exact h.free t ht
    · intro t ht hr
      have htx : t ≠ x := by
        rintro rfl
        exact (List.nodup_cons.mp hnodup).1 ht
      rw [hstate t htx] at hr
      exact hsaved t (List.mem_cons_of_mem _ ht) hr
  · change Ctl.Returns (if (s.tcb x).runstate = .new then .user 0 else _)
    split
    · trivial
    · rename_i hnew
      have hr : (s.tcb x).runstate = .ready := by
        cases hr : (s.tcb x).runstate <;> simp_all
      obtain ⟨c, hc, hret⟩ := hsaved x List.mem_cons_self hr
      change Ctl.Returns (Option.getD (s'.tcb x).savedState .wild)
      rw [hc]
      exact hret

/-- Writes to the run state and the counters of the current thread. -/
theorem setCurrent (h : SchedInv L p s q ts) {c : Fin THREAD_MAX} (hc : s.currentThread = some c)
    (hl : s.Live c) {f : Thread → Thread}
    (hf : ∀ th, (f th).tid = th.tid ∧ (f th).process = th.process ∧
      (f th).threadStack = th.threadStack) :
    SchedInv L p (s.setCurrent f) q ts := by
  have hs : s.setCurrent f = s.setThread c f := by simp [Sched.setCurrent, hc]
  have hother : ∀ t, t ≠ c → (s.setThread c f).tcb t = s.tcb t := by
    intro t ht
    simp [Sched.setThread, ht]
  have hsame : ∀ t, ((s.setThread c f).tcb t).tid = (s.tcb t).tid ∧
      ((s.setThread c f).tcb t).process = (s.tcb t).process ∧
      ((s.setThread c f).tcb t).threadStack = (s.tcb t).threadStack := by
    intro t
    by_cases ht : t = c
    · subst ht
      simpa [Sched.setThread] using hf (s.tcb t)
    · rw [hother t ht]
      exact ⟨rfl, rfl, rfl⟩
  have hlive : ∀ t, (s.setThread c f).Live t ↔ s.Live t := by
    intro t
    rw [Sched.Live, Sched.Live, (hsame t).1]
  have hq : ∀ t ∈ q, t ≠ c := by
    rintro t ht rfl
    exact h.ready.current t hc ht
  rw [hs]
  refine ⟨⟨h.ready.queue, ?_, h.ready.current⟩, ?_, h.threads, fun t => (h.member t).trans (hlive t).symm,
    ?_, h.unqueued, ?_, ?_, ?_, ?_, ?_⟩
  · intro t ht
    rw [hlive, hother t (hq t ht)]
    exact h.ready.runnable t ht
  · intro t htl htr hct
    have htc : t ≠ c := by
      rintro rfl
      exact hct hc
    rw [hlive] at htl
    rw [hother t htc] at htr
    exact h.queued t htl htr hct
  · intro t ht
    rw [(hsame t).2.1]
    exact h.process t ((hlive t).mp ht)
  · intro t ht
    rw [(hsame t).2.2]
    exact h.stack t ((hlive t).mp ht)
  · intro t ht
    rw [hlive] at ht
    have htc : t ≠ c := by
      rintro rfl
      exact ht hl
    rw [hother t htc]
    exact h.free t ht
  · intro t ht
    rw [hother t (hq t ht)]
    exact h.saved t ht
  · intro t
    rw [(hsame t).1]
    exact h.tid_lt t
  · intro t u ht heq
    rw [(hsame t).1, (hsame u).1] at heq
    exact h.tid_inj t u ((hlive t).mp ht) heq

/-- **Creating a thread** puts it at the end of the queue and at the front of
the process's list. -/
theorem threadCreate (h : SchedInv L p s q ts) {t : Fin THREAD_MAX} (ht : threadAlloc s = some t)
    (htid : 0 < s.nextTid.toNat) (hmax : s.nextTid.toNat + 1 < 2 ^ 32)
    (hcur : s.currentThread ≠ some t) (startAddr ustack : BitVec 32) :
    SchedInv L p (Munix.threadCreate L s p startAddr ustack).2 (q ++ [t]) (t :: ts) := by
  have hfree : ¬ s.Live t := not_live_of_alloc ht
  have htq : t ∉ q := fun hq => hfree (h.ready.runnable t hq).1
  have htts : t ∉ ts := fun hts => hfree ((h.member t).mp hts)
  set th : Thread := { s.tcb t with
    process := some p
    threadStack := L.kstackTop t
    processStack := ustack
    startAddr := startAddr
    runstate := .new
    tid := s.nextTid } with hth
  set l₁ := listAdd s.links (.processThreads t) (.threads p) with hl₁
  set s₁ : Sched := { s with
    tcb := Function.update s.tcb t th
    nextTid := s.nextTid + 1#32
    links := l₁ } with hs₁
  have hs' : (Munix.threadCreate L s p startAddr ustack).2 = schedAdd s₁ t := by
    simp only [Munix.threadCreate, ht, Sched.setThread, hs₁, hth, hl₁]
  rw [hs']
  have hframe₁ : ∀ n, n ≠ .threads p → (∀ u, n ≠ .processThreads u) → l₁ n = s.links n := by
    intro n hn hu
    refine listAdd_frame h.threads ?_
    simp only [List.mem_cons, List.mem_map, not_or, not_exists, not_and]
    exact ⟨hu t, hn, fun u _ heq => hu u heq.symm⟩
  have hq₁ : IsList s₁.links .readyQueue (q.map .queue) := by
    refine h.ready.queue.congr fun n hn => ?_
    rcases List.mem_cons.mp hn with rfl | hn
    · exact hframe₁ _ (by simp) (by simp)
    · obtain ⟨u, -, rfl⟩ := List.mem_map.mp hn
      exact hframe₁ _ (by simp) (by simp)
  have hthreads₁ : IsList s₁.links (.threads p) ((t :: ts).map .processThreads) := by
    refine listAdd_isList h.threads ?_ (nofun : Node.processThreads t ≠ .null)
    simp only [List.mem_cons, reduceCtorEq, List.mem_map, Node.processThreads.injEq, false_or,
      not_exists, not_and]
    rintro u hu rfl
    exact htts hu
  obtain ⟨hq₂, hframe₂⟩ := schedAdd_links hq₁ htq
  have hother : ∀ u, u ≠ t → (schedAdd s₁ t).tcb u = s.tcb u := by
    intro u hu
    simp [schedAdd, hs₁, hu]
  have hself : (schedAdd s₁ t).tcb t = th := by simp [schedAdd, hs₁]
  have hnz : s.nextTid ≠ 0#32 := by
    intro h0
    simp [h0] at htid
  have hlivet : (schedAdd s₁ t).Live t := by
    rw [Sched.Live, hself]
    exact hnz
  have hlive : ∀ u, u ≠ t → ((schedAdd s₁ t).Live u ↔ s.Live u) := by
    intro u hu
    rw [Sched.Live, hother u hu, Sched.Live]
  refine ⟨⟨hq₂, ?_, ?_⟩, ?_, ?_, ?_, ?_, ?_, ?_, ?_, ?_, ?_, ?_⟩
  · intro u hu
    by_cases hut : u = t
    · subst hut
      exact ⟨hlivet, by rw [hself]; simp [hth]⟩
    · rw [hlive u hut, hother u hut]
      exact h.ready.runnable u (by simpa [hut] using hu)
  · intro u hu
    have hcu : s.currentThread = some u := hu
    rw [List.mem_append, not_or]
    refine ⟨h.ready.current u hcu, ?_⟩
    rw [List.mem_singleton]
    rintro rfl
    exact hcur hcu
  · intro u hul hur hcu
    by_cases hut : u = t
    · simp [hut]
    · rw [hlive u hut] at hul
      rw [hother u hut] at hur
      exact List.mem_append_left _ (h.queued u hul hur hcu)
  · refine hthreads₁.congr fun n hn => hframe₂ n ?_
    rcases List.mem_cons.mp hn with rfl | hn
    · exact off_of_not_queue (by simp) (by simp)
    · obtain ⟨u, -, rfl⟩ := List.mem_map.mp hn
      exact off_of_not_queue (by simp) (by simp)
  · intro u
    by_cases hut : u = t
    · subst hut
      exact iff_of_true List.mem_cons_self hlivet
    · rw [hlive u hut, List.mem_cons, h.member]
      exact or_iff_right hut
  · intro u hu
    by_cases hut : u = t
    · subst hut
      rw [hself]
    · rw [hother u hut]
      exact h.process u ((hlive u hut).mp hu)
  · intro u hu
    rw [List.mem_append, not_or, List.mem_singleton] at hu
    have hoff : (Node.queue u).OffQueue (q ++ [t]) := by
      refine ⟨by simp, fun v hv heq => ?_⟩
      obtain rfl := Node.queue.inj heq
      simp [hu.1, hu.2] at hv
    rw [hframe₂ _ hoff]
    exact (hframe₁ _ (by simp) (by simp)).trans (h.unqueued u hu.1)
  · intro u hu
    by_cases hut : u = t
    · subst hut
      rw [hself]
    · rw [hother u hut]
      exact h.stack u ((hlive u hut).mp hu)
  · intro u hu
    by_cases hut : u = t
    · subst hut
      exact absurd hlivet hu
    · rw [hother u hut]
      exact h.free u (mt (hlive u hut).mpr hu)
  · intro u hu hr
    by_cases hut : u = t
    · subst hut
      rw [hself] at hr
      simp [hth] at hr
    · rw [hother u hut] at hr ⊢
      exact h.saved u (by simpa [hut] using hu) hr
  · intro u
    change _ < (s.nextTid + 1#32).toNat
    have hnext : (s.nextTid + 1#32).toNat = s.nextTid.toNat + 1 := by bv_omega
    by_cases hut : u = t
    · subst hut
      rw [hself, hnext]
      exact Nat.lt_succ_self _
    · rw [hother u hut, hnext]
      exact Nat.lt_succ_of_lt (h.tid_lt u)
  · -- the new tid is above all others
    have hnew : ∀ u, u ≠ t → ((schedAdd s₁ t).tcb u).tid ≠ s.nextTid := by
      intro u hu heq
      have := h.tid_lt u
      rw [hother u hu] at heq
      rw [heq] at this
      exact lt_irrefl _ this
    intro u v hu heq
    by_cases hut : u = t <;> by_cases hvt : v = t
    · rw [hut, hvt]
    · subst hut
      rw [hself] at heq
      exact absurd heq.symm (hnew v hvt)
    · subst hvt
      rw [hself] at heq
      exact absurd heq (hnew u hut)
    · rw [hother u hut, hother v hvt] at heq
      exact h.tid_inj u v ((hlive u hut).mp hu) heq

/-- **Closing an exited thread** takes it out of the process's list and frees
its slot. -/
theorem threadClose (h : SchedInv L p s q ts) {t : Fin THREAD_MAX}
    (ht : (s.tcb t).runstate = .exited) :
    SchedInv L p (Munix.threadClose s t) q (ts.erase t) := by
  have hlive : s.Live t := by
    by_contra hfree
    simp [h.free t hfree] at ht
  have htq : t ∉ q := fun hq => (h.ready.runnable t hq).2 ht
  obtain ⟨ts₁, ts₂, hts⟩ := List.append_of_mem ((h.member t).mpr hlive)
  have hnodup : ts.Nodup := List.Nodup.of_map _ h.threads.nodup_tail
  have hnot₁ : t ∉ ts₁ := by
    rw [hts, List.nodup_append] at hnodup
    exact fun hm => hnodup.2.2 t hm t (by simp) rfl
  have hnot₂ : t ∉ ts₂ := by
    rw [hts, List.nodup_append] at hnodup
    exact (List.nodup_cons.mp hnodup.2.1).1
  have herase : ts.erase t = ts₁ ++ ts₂ := by
    rw [hts, List.erase_append_right _ hnot₁, List.erase_cons_head]
  have hmap : ts.map Node.processThreads =
      ts₁.map Node.processThreads ++ Node.processThreads t :: ts₂.map Node.processThreads := by
    rw [hts]
    simp
  have hmem : Node.processThreads t ∈ ts.map Node.processThreads := by simp [hmap]
  -- its own nodes: one is linked, the other is not
  set l₁ := listDel s.links (.processThreads t) with hl₁
  have hdel₁ : delIfLinked s.links (.processThreads t) = l₁ := if_pos (h.threads.linked hmem)
  have hframe₁ : ∀ n, n ≠ .threads p → (∀ u, n ≠ .processThreads u) → l₁ n = s.links n := by
    intro n hn hu
    refine listDel_frame h.threads hmem ?_
    simp only [List.mem_cons, List.mem_map, not_or, not_exists, not_and]
    exact ⟨hn, fun u _ heq => hu u heq.symm⟩
  have hqt : l₁ (.queue t) = ⟨0, 0⟩ := (hframe₁ _ (by simp) (by simp)).trans (h.unqueued t htq)
  have hdel₂ : delIfLinked l₁ (.queue t) = l₁ := if_neg (by simp [hqt])
  have hlinks : (Munix.threadClose s t).links = l₁ := by
    simp only [Munix.threadClose, hdel₁, hdel₂]
    funext n
    by_cases hn : n = .queue t
    · rw [hn]
      simp [hqt]
    · by_cases hn' : n = .processThreads t
      · rw [hn']
        simp [hl₁, listDel_self]
      · simp [hn, hn']
  have hother : ∀ u, u ≠ t → (Munix.threadClose s t).tcb u = s.tcb u := by
    intro u hu
    simp [Munix.threadClose, hu]
  have hself : (Munix.threadClose s t).tcb t = .zero := by simp [Munix.threadClose]
  have hdead : ¬ (Munix.threadClose s t).Live t := by simp [Sched.Live, hself, Thread.zero]
  have hlive' : ∀ u, u ≠ t → ((Munix.threadClose s t).Live u ↔ s.Live u) := by
    intro u hu
    rw [Sched.Live, hother u hu, Sched.Live]
  have hne : ∀ u, (Munix.threadClose s t).Live u → u ≠ t := by
    rintro u hu rfl
    exact hdead hu
  have hqne : ∀ u ∈ q, u ≠ t := by
    rintro u hu rfl
    exact htq hu
  refine ⟨⟨?_, ?_, h.ready.current⟩, ?_, ?_, ?_, ?_, ?_, ?_, ?_, ?_, ?_, ?_⟩
  · rw [hlinks]
    refine h.ready.queue.congr fun n hn => ?_
    rcases List.mem_cons.mp hn with rfl | hn
    · exact hframe₁ _ (by simp) (by simp)
    · obtain ⟨u, -, rfl⟩ := List.mem_map.mp hn
      exact hframe₁ _ (by simp) (by simp)
  · intro u hu
    rw [hlive' u (hqne u hu), hother u (hqne u hu)]
    exact h.ready.runnable u hu
  · intro u hul hur hcu
    have hut := hne u hul
    rw [hlive' u hut] at hul
    rw [hother u hut] at hur
    exact h.queued u hul hur hcu
  · rw [hlinks, herase, List.map_append]
    have := h.threads
    rw [hmap] at this
    exact listDel_isList this
  · intro u
    rw [hnodup.mem_erase_iff, h.member]
    by_cases hut : u = t
    · subst hut
      exact iff_of_false (by simp) hdead
    · rw [hlive' u hut]
      exact and_iff_right hut
  · intro u hu
    rw [hother u (hne u hu)]
    exact h.process u ((hlive' u (hne u hu)).mp hu)
  · intro u hu
    rw [hlinks]
    exact (hframe₁ _ (by simp) (by simp)).trans (h.unqueued u hu)
  · intro u hu
    rw [hother u (hne u hu)]
    exact h.stack u ((hlive' u (hne u hu)).mp hu)
  · intro u hu
    by_cases hut : u = t
    · rw [hut, hself]
      rfl
    · rw [hother u hut]
      exact h.free u (mt (hlive' u hut).mpr hu)
  · intro u hu hr
    rw [hother u (hqne u hu)] at hr ⊢
    exact h.saved u hu hr
  · intro u
    by_cases hut : u = t
    · rw [hut, hself]
      exact lt_of_le_of_lt (Nat.zero_le _) (h.tid_lt t)
    · rw [hother u hut]
      exact h.tid_lt u
  · intro u v hu heq
    have hut := hne u hu
    have hul := (hlive' u hut).mp hu
    rw [hother u hut] at heq
    by_cases hvt : v = t
    · rw [hvt, hself] at heq
      exact absurd heq hul
    · rw [hother v hvt] at heq
      exact h.tid_inj u v hul heq

end SchedInv

end Munix
