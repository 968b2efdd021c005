import Munix.Kernel.System

/-!
# Munix — what holds in every state of the kernel

`CoreInv s q` is what is left of the scheduler's invariant when processes are
started, exit and are killed one after the other: the ready queue is well formed
and holds the threads that can run, apart from the current one. The lists of the
processes do not matter to it, however broken they are: closing a process resets
their head while its threads are still linked to it, but no pointer leads from
there to the queue (`LinksWithin`).

## Results

* `CoreInv.schedule`   — a switch to the next thread.
* `System.Inv.step`    — what every event keeps.
* `System.Reachable.inv` — it holds in every state of the kernel.
-/

namespace Munix

open LinkHeap

-- ---------------------------------------------------------------------------
-- Lists that stay among some nodes
-- ---------------------------------------------------------------------------

section Within

variable {N : Type} [Zero N]

/-- No pointer of a node of `R` leads elsewhere. -/
def LinksWithin (R : N → Prop) (h : LinkHeap N) : Prop :=
  ∀ n, R n → ((h n).next = 0 ∨ R (h n).next) ∧ ((h n).prev = 0 ∨ R (h n).prev)

variable [DecidableEq N] {R : N → Prop} {h : LinkHeap N}

namespace LinksWithin

theorem update (hw : LinksWithin R h) {a : N} {l : Links N}
    (hnext : l.next = 0 ∨ R l.next) (hprev : l.prev = 0 ∨ R l.prev) :
    LinksWithin R (Function.update h a l) := by
  intro n hn
  by_cases hna : n = a
  · subst hna
    rw [Function.update_self]
    exact ⟨hnext, hprev⟩
  · rw [Function.update_of_ne hna]
    exact hw n hn

theorem setNext (hw : LinksWithin R h) {a b : N} (ha : R a) (hb : R b) :
    LinksWithin R (h.setNext a b) := hw.update (.inr hb) (hw a ha).2

theorem setPrev (hw : LinksWithin R h) {a b : N} (ha : R a) (hb : R b) :
    LinksWithin R (h.setPrev a b) := hw.update (hw a ha).1 (.inr hb)

/-- Adding a node of `R` to a list of nodes of `R`. -/
theorem listAdd (hw : LinksWithin R h) {new head : N} (hnew : R new) (hhead : R head)
    (h0 : head ≠ 0) :
    LinksWithin R (Munix.listAdd h new head) ∧ ∀ n, ¬ R n → Munix.listAdd h new head n = h n := by
  have hinit : LinksWithin R (listEnsureInit h head) := by
    unfold listEnsureInit
    split
    · exact (hw.setNext hhead hhead).setPrev hhead hhead
    · exact hw
  have hnext : R (listEnsureInit h head head).next := by
    refine ((hinit head hhead).1).resolve_left ?_
    unfold listEnsureInit
    split
    · simpa [initListHead] using h0
    · assumption
  refine ⟨?_, fun n hn => ?_⟩
  · exact (((hinit.setNext hhead hnew).setPrev hnew hhead).setNext hnew hnext).setPrev hnext hnew
  · have hne : ∀ x, R x → n ≠ x := fun x hx heq => hn (heq ▸ hx)
    rw [Munix.listAdd, listAddBetween,
      insertBetween_of_ne _ (hne _ hnew) (hne _ hhead) (hne _ hnext),
      listEnsureInit_of_ne (hne _ hhead)]

/-- Taking a node of `R` out of the list it is linked in. -/
theorem listDel (hw : LinksWithin R h) {item : N} (hitem : R item) (hnext : (h item).next ≠ 0)
    (hprev : (h item).prev ≠ 0) :
    LinksWithin R (Munix.listDel h item) ∧ ∀ n, ¬ R n → Munix.listDel h item n = h n := by
  have hn := (hw item hitem).1.resolve_left hnext
  have hp := (hw item hitem).2.resolve_left hprev
  have hne : ∀ n, ¬ R n → ∀ x, R x → n ≠ x := fun n hn x hx heq => hn (heq ▸ hx)
  rw [listDel_eq]
  refine ⟨?_, fun n hR => ?_⟩
  · have hby : LinksWithin R (h.bypass item) := (hw.setNext hp hn).setPrev hn hp
    have h₁ : LinksWithin R ((h.bypass item).setNext item 0) :=
      hby.update (.inl rfl) (hby item hitem).2
    exact h₁.update (h₁ item hitem).1 (.inl rfl)
  · rw [setPrev_of_ne _ (hne n hR _ hitem), setNext_of_ne _ (hne n hR _ hitem), bypass,
      setPrev_of_ne _ (hne n hR _ hn), setNext_of_ne _ (hne n hR _ hp)]

end LinksWithin

end Within

-- ---------------------------------------------------------------------------
-- The lists of the processes
-- ---------------------------------------------------------------------------

/-- The nodes of the processes' lists. -/
def Node.OfProcess : Node → Prop
  | .processThreads _ => True
  | .threads _ => True
  | _ => False

section Processes

variable {h : LinkHeap Node}

theorem listAdd_process (hw : LinksWithin Node.OfProcess h) (t : Fin THREAD_MAX)
    (p : Fin PROCESS_MAX) :
    LinksWithin Node.OfProcess (listAdd h (.processThreads t) (.threads p)) ∧
      ∀ n, ¬ n.OfProcess → listAdd h (.processThreads t) (.threads p) n = h n :=
  hw.listAdd trivial trivial nofun

theorem delIfLinked_process (hw : LinksWithin Node.OfProcess h) (t : Fin THREAD_MAX) :
    LinksWithin Node.OfProcess (delIfLinked h (.processThreads t)) ∧
      ∀ n, ¬ n.OfProcess → delIfLinked h (.processThreads t) n = h n := by
  unfold delIfLinked
  split
  next hlinked => exact hw.listDel trivial hlinked.1 hlinked.2
  next => exact ⟨hw, fun _ _ => rfl⟩

/-- Clearing the head of a process's list. -/
theorem clear_process (hw : LinksWithin Node.OfProcess h) (n : Node) (hn : n.OfProcess) :
    LinksWithin Node.OfProcess (Function.update h n ⟨0, 0⟩) ∧
      ∀ x, ¬ x.OfProcess → Function.update h n ⟨0, 0⟩ x = h x := by
  refine ⟨hw.update (.inl rfl) (.inl rfl), fun x hx => ?_⟩
  exact Function.update_of_ne (fun heq : x = n => hx (heq ▸ hn)) _ _

end Processes

-- ---------------------------------------------------------------------------
-- The scheduler
-- ---------------------------------------------------------------------------

/-- The places a thread in the queue goes on at. -/
def Ctl.Resumes : Ctl → Prop
  | .user _ => True
  | .join _ => True
  | .start _ _ => True
  | _ => False

/-- The ready queue holds the threads `q`: all that can run but the current one.
The current thread has been started. -/
structure CoreInv (s : Sched) (q : List (Fin THREAD_MAX)) : Prop where
  ready    : ReadyInv s q
  queued   : ∀ t, s.Live t → (s.tcb t).runstate ≠ .exited → s.currentThread ≠ some t → t ∈ q
  unqueued : ∀ t, t ∉ q → s.links (.queue t) = ⟨0, 0⟩
  procs    : LinksWithin Node.OfProcess s.links
  saved    : ∀ t ∈ q, (s.tcb t).runstate = .ready → ∃ c, (s.tcb t).savedState = some c ∧ c.Resumes
  current  : ∀ c, s.currentThread = some c → s.Live c ∧ (s.tcb c).runstate ≠ .new
  process  : ∀ t, s.Live t → ∃ p, (s.tcb t).process = some p
  tid      : 0 < s.nextTid.toNat

namespace CoreInv

variable {s : Sched} {q : List (Fin THREAD_MAX)}

theorem boot (stray : BitVec 32) : CoreInv (.boot stray) [] where
  ready := ⟨⟨by simp, by simp, .inl ⟨rfl, rfl⟩⟩, by simp, nofun⟩
  queued t ht := absurd rfl ht
  unqueued _ _ := rfl
  procs _ _ := ⟨.inl rfl, .inl rfl⟩
  saved := by simp
  current := nofun
  process t ht := absurd rfl ht
  tid := by simp [Sched.boot]

/-- Nodes off the queue do not matter. -/
theorem congr_links (h : CoreInv s q) {links : LinkHeap Node} {p : Option (Fin PROCESS_MAX)}
    (hw : LinksWithin Node.OfProcess links) (hframe : ∀ n, ¬ n.OfProcess → links n = s.links n) :
    CoreInv { s with links := links, currentProcess := p } q where
  ready := by
    refine ⟨h.ready.queue.congr fun n hn => hframe n ?_, h.ready.runnable, h.ready.current⟩
    rcases List.mem_cons.mp hn with rfl | hn
    · exact id
    · obtain ⟨t, -, rfl⟩ := List.mem_map.mp hn
      exact id
  queued := h.queued
  unqueued t ht := (hframe _ id).trans (h.unqueued t ht)
  procs := hw
  saved := h.saved
  current := h.current
  process := h.process
  tid := h.tid

theorem closeSched (h : CoreInv s q) (p : Fin PROCESS_MAX) : CoreInv (closeSched s p) q :=
  h.congr_links (clear_process h.procs (.threads p) trivial).1
    (clear_process h.procs (.threads p) trivial).2

/-- Writes to the current thread, which keeps being the same thread. -/
theorem setCurrent (h : CoreInv s q) {f : Thread → Thread}
    (hf : ∀ th, (f th).tid = th.tid ∧ (f th).process = th.process)
    (hnew : ∀ th, (f th).runstate ≠ .new) : CoreInv (s.setCurrent f) q := by
  cases hc : s.currentThread with
  | none => simpa [Sched.setCurrent, hc] using h
  | some c =>
    have hs : s.setCurrent f = s.setThread c f := by simp [Sched.setCurrent, hc]
    have hself : (s.setThread c f).tcb c = f (s.tcb c) := by simp [Sched.setThread]
    have hother : ∀ t, t ≠ c → (s.setThread c f).tcb t = s.tcb t := by
      intro t ht
      simp [Sched.setThread, ht]
    have hlive : ∀ t, (s.setThread c f).Live t ↔ s.Live t := by
      intro t
      by_cases ht : t = c
      · subst ht
        rw [Sched.Live, hself, (hf _).1, Sched.Live]
      · rw [Sched.Live, hother t ht, Sched.Live]
    have hq : ∀ t ∈ q, t ≠ c := by
      rintro t ht rfl
      exact h.ready.current t hc ht
    rw [hs]
    refine ⟨⟨h.ready.queue, fun t ht => ?_, h.ready.current⟩, fun t htl htr hct => ?_, h.unqueued,
      h.procs, fun t ht => ?_, fun c' hc' => ?_, fun t ht => ?_, h.tid⟩
    · rw [hlive, hother t (hq t ht)]
      exact h.ready.runnable t ht
    · have htc : t ≠ c := by
        rintro rfl
        exact hct hc
      rw [hlive] at htl
      rw [hother t htc] at htr
      exact h.queued t htl htr hct
    · rw [hother t (hq t ht)]
      exact h.saved t ht
    · obtain rfl : c = c' := Option.some.inj (hc.symm.trans hc')
      rw [hlive, hself]
      exact ⟨(h.current c hc).1, hnew _⟩
    · rw [hlive] at ht
      by_cases htc : t = c
      · subst htc
        rw [hself, (hf _).2]
        exact h.process t ht
      · rw [hother t htc]
        exact h.process t ht

/-- A new thread is at the end of the queue. -/
theorem threadCreate (h : CoreInv s q) {t : Fin THREAD_MAX} (ht : threadAlloc s = some t)
    (hmax : s.nextTid.toNat + 1 < 2 ^ 31) (L : Layout) (p : Fin PROCESS_MAX)
    (startAddr ustack : BitVec 32) :
    CoreInv (Munix.threadCreate L s p startAddr ustack).2 (q ++ [t]) := by
  have hfree : ¬ s.Live t := not_live_of_alloc ht
  have htq : t ∉ q := fun hq => hfree (h.ready.runnable t hq).1
  have htc : s.currentThread ≠ some t := fun hc => hfree (h.current t hc).1
  obtain ⟨hw, hframe⟩ := listAdd_process h.procs t p
  set th : Thread := { s.tcb t with
    process := some p
    threadStack := L.kstackTop t
    processStack := ustack
    startAddr := startAddr
    runstate := .new
    tid := s.nextTid } with hth
  set s₁ : Sched := { s with
    tcb := Function.update s.tcb t th
    nextTid := s.nextTid + 1#32
    links := listAdd s.links (.processThreads t) (.threads p) } with hs₁
  have hs' : (Munix.threadCreate L s p startAddr ustack).2 = schedAdd s₁ t := by
    simp only [Munix.threadCreate, ht, Sched.setThread, hs₁, hth]
  rw [hs']
  have hq₁ : IsList s₁.links .readyQueue (q.map .queue) := by
    refine h.ready.queue.congr fun n hn => hframe n ?_
    rcases List.mem_cons.mp hn with rfl | hn
    · exact id
    · obtain ⟨u, -, rfl⟩ := List.mem_map.mp hn
      exact id
  obtain ⟨hq₂, hframe₂⟩ := schedAdd_links hq₁ htq
  have hother : ∀ u, u ≠ t → (schedAdd s₁ t).tcb u = s.tcb u := by
    intro u hu
    simp [schedAdd, hs₁, hu]
  have hself : (schedAdd s₁ t).tcb t = th := by simp [schedAdd, hs₁]
  have hlivet : (schedAdd s₁ t).Live t := by
    rw [Sched.Live, hself]
    have := h.tid
    intro h0
    have h0 : s.nextTid = 0#32 := h0
    rw [h0] at this
    exact absurd this (by decide)
  have hlive : ∀ u, u ≠ t → ((schedAdd s₁ t).Live u ↔ s.Live u) := by
    intro u hu
    rw [Sched.Live, hother u hu, Sched.Live]
  refine ⟨⟨hq₂, fun u hu => ?_, fun u hu => ?_⟩, fun u hul hur hcu => ?_, fun u hu => ?_, ?_,
    fun u hu hr => ?_, fun c hc => ?_, fun u hu => ?_, ?_⟩
  · by_cases hut : u = t
    · subst hut
      exact ⟨hlivet, by rw [hself]; simp [hth]⟩
    · rw [hlive u hut, hother u hut]
      exact h.ready.runnable u (by simpa [hut] using hu)
  · have hcu : s.currentThread = some u := hu
    rw [List.mem_append, not_or, List.mem_singleton]
    refine ⟨h.ready.current u hcu, ?_⟩
    rintro rfl
    exact htc hcu
  · by_cases hut : u = t
    · simp [hut]
    · rw [hlive u hut] at hul
      rw [hother u hut] at hur
      exact List.mem_append_left _ (h.queued u hul hur hcu)
  · rw [List.mem_append, not_or, List.mem_singleton] at hu
    have hoff : (Node.queue u).OffQueue (q ++ [t]) := by
      refine ⟨by simp, fun v hv heq => ?_⟩
      obtain rfl := Node.queue.inj heq
      simp [hu.1, hu.2] at hv
    rw [hframe₂ _ hoff]
    exact (hframe _ id).trans (h.unqueued u hu.1)
  · -- the queue's links are not in the processes' lists
    intro n hn
    have hoff : n.OffQueue (q ++ [t]) := by
      refine ⟨?_, fun v _ => ?_⟩
      · rintro rfl
        exact hn
      · rintro rfl
        exact hn
    rw [hframe₂ n hoff]
    exact hw n hn
  · by_cases hut : u = t
    · subst hut
      rw [hself] at hr
      simp [hth] at hr
    · rw [hother u hut] at hr ⊢
      exact h.saved u (by simpa [hut] using hu) hr
  · have hcu : s.currentThread = some c := hc
    have hct : c ≠ t := by
      rintro rfl
      exact htc hcu
    rw [hlive c hct, hother c hct]
    exact h.current c hcu
  · by_cases hut : u = t
    · subst hut
      exact ⟨p, by rw [hself]⟩
    · rw [hother u hut]
      exact h.process u ((hlive u hut).mp hu)
  · change 0 < (s.nextTid + 1#32).toNat
    bv_omega

/-- Closing a thread that has exited. -/
theorem threadClose (h : CoreInv s q) {t : Fin THREAD_MAX} (ht : (s.tcb t).runstate = .exited)
    (hcur : s.currentThread ≠ some t) : CoreInv (Munix.threadClose s t) q := by
  have htq : t ∉ q := fun hq => (h.ready.runnable t hq).2 ht
  obtain ⟨hw₁, hframe₁⟩ := delIfLinked_process h.procs t
  -- its queue node is not linked
  have hqueue : delIfLinked s.links (.processThreads t) (.queue t) = ⟨0, 0⟩ :=
    (hframe₁ _ id).trans (h.unqueued t htq)
  have hdel : delIfLinked (delIfLinked s.links (.processThreads t)) (.queue t) =
      delIfLinked s.links (.processThreads t) := by
    rw [delIfLinked, hqueue]
    exact if_neg fun hne => hne.1 rfl
  obtain ⟨hw₂, hframe₂⟩ := clear_process hw₁ (.processThreads t) trivial
  have hsame : Function.update
      (Function.update (delIfLinked s.links (.processThreads t)) (.processThreads t) ⟨0, 0⟩)
      (.queue t) ⟨0, 0⟩ =
      Function.update (delIfLinked s.links (.processThreads t)) (.processThreads t) ⟨0, 0⟩ := by
    refine Function.update_eq_self_iff.mpr ?_
    rw [hframe₂ _ id, hqueue]
  have hclose : Munix.threadClose s t = { s with
      tcb := Function.update s.tcb t .zero
      links := Function.update (delIfLinked s.links (.processThreads t)) (.processThreads t)
        ⟨0, 0⟩ } := by
    simp only [Munix.threadClose, hdel, hsame]
  have hother : ∀ u, u ≠ t → (Munix.threadClose s t).tcb u = s.tcb u := by
    intro u hu
    rw [hclose]
    exact Function.update_of_ne hu _ _
  have hself : ¬ (Munix.threadClose s t).Live t := by
    rw [hclose, Sched.Live]
    simp [Thread.zero]
  have hlive : ∀ u, (Munix.threadClose s t).Live u → u ≠ t ∧ s.Live u := by
    intro u hu
    have hut : u ≠ t := by
      rintro rfl
      exact hself hu
    rw [Sched.Live, hother u hut] at hu
    exact ⟨hut, hu⟩
  have hne : ∀ u ∈ q, u ≠ t := by
    rintro u hu rfl
    exact htq hu
  have hlinks := h.congr_links (p := s.currentProcess) hw₂
    fun n hn => (hframe₂ n hn).trans (hframe₁ n hn)
  have hcurrent : (Munix.threadClose s t).currentThread = s.currentThread := by rw [hclose]
  refine ⟨⟨by rw [hclose]; exact hlinks.ready.queue, fun u hu => ?_, fun u hu => ?_⟩,
    fun u hul hur hcu => ?_, fun u hu => by rw [hclose]; exact hlinks.unqueued u hu,
    by rw [hclose]; exact hlinks.procs, fun u hu => ?_, fun c hc => ?_, fun u hu => ?_,
    by rw [hclose]; exact h.tid⟩
  · rw [Sched.Live, hother u (hne u hu)]
    exact h.ready.runnable u hu
  · rw [hcurrent] at hu
    exact h.ready.current u hu
  · obtain ⟨hut, hul⟩ := hlive u hul
    rw [hother u hut] at hur
    rw [hcurrent] at hcu
    exact h.queued u hul hur hcu
  · rw [hother u (hne u hu)]
    exact h.saved u hu
  · rw [hcurrent] at hc
    have hct : c ≠ t := by
      rintro rfl
      exact hcur hc
    rw [Sched.Live, hother c hct]
    exact h.current c hc
  · obtain ⟨hut, hul⟩ := hlive u hu
    rw [hother u hut]
    exact h.process u hul

/-- The threads that `schedule` chooses from. -/
theorem runnable_requeued (h : CoreInv s q) {t : Fin THREAD_MAX} (ht : t ∈ q ++ s.requeued) :
    s.Live t ∧ (s.tcb t).runstate ≠ .exited := by
  rcases List.mem_append.mp ht with ht | ht
  · exact h.ready.runnable t ht
  · obtain ⟨hc, hr⟩ := mem_requeued.mp ht
    exact ⟨(h.current t hc).1, by simp [hr]⟩

theorem nodup_requeued (h : CoreInv s q) : (q ++ s.requeued).Nodup := by
  refine List.Nodup.append h.ready.nodup ?_ ?_
  · unfold Sched.requeued
    split
    · exact List.nodup_nil
    · split <;> simp
  · intro t ht ht'
    exact h.ready.current t (mem_requeued.mp ht').1 ht

/-- What holds after a switch to thread `x`. -/
structure Switched (s : Sched) (q : List (Fin THREAD_MAX)) (x : Fin THREAD_MAX) (ctl : Ctl) (s' : Sched) :
    Prop where
  inv     : CoreInv s' q
  resumes : ctl.Resumes
  launch  : (s.tcb x).runstate = .new → ctl = .user 0
  current : s'.currentThread = some x
  ready   : (s'.tcb x).runstate = .ready
  process : s'.currentProcess = (s'.tcb x).process
  kept    : ∀ t, (s'.tcb t).tid = (s.tcb t).tid ∧ (s'.tcb t).process = (s.tcb t).process
  nextTid : s'.nextTid = s.nextTid

/-- **A switch.** If some thread can run once the current one has been put back,
the first such thread runs next. -/
theorem schedule (h : CoreInv s q) {here : Ctl} {x : Fin THREAD_MAX} {q' : List (Fin THREAD_MAX)}
    (hhere : ∀ c, s.currentThread = some c → (s.tcb c).runstate = .ready → here.Resumes)
    (hq : q ++ s.requeued = x :: q') :
    Switched s q' x (Munix.schedule s here).1 (Munix.schedule s here).2 := by
  have hnodup : (x :: q').Nodup := hq ▸ h.nodup_requeued
  have hlive : ∀ t ∈ x :: q', s.Live t ∧ (s.tcb t).runstate ≠ .exited :=
    fun t ht => h.runnable_requeued (hq ▸ ht)
  obtain ⟨hxl, hxr⟩ := hlive x List.mem_cons_self
  obtain ⟨links, hsched, hl, hself, hframe⟩ := schedule_eq here h.ready hq
  rw [threadSwitch_eq { s with links := links } s.currentThread x here hxr] at hsched
  set s' := switched { s with links := links } s.currentThread x here with hs'
  rw [hsched]
  have hstate : ∀ t, t ≠ x → (s'.tcb t).runstate = (s.tcb t).runstate := fun t ht => if_neg ht
  have hne : ∀ t ∈ q', t ≠ x := by
    rintro t ht rfl
    exact (List.nodup_cons.mp hnodup).1 ht
  have hmem : ∀ t, t ∈ x :: q' ↔ t ∈ q ∨ s.currentThread = some t ∧ (s.tcb t).runstate = .ready := by
    intro t
    rw [← hq, List.mem_append, mem_requeued]
  -- a thread in the queue waits at a place it can go on from
  have hsaved : ∀ t ∈ x :: q', (s.tcb t).runstate = .ready →
      ∃ c, (s'.tcb t).savedState = some c ∧ c.Resumes := by
    intro t ht hr
    by_cases hc : s.currentThread = some t
    · exact ⟨here, if_pos hc, hhere t hc hr⟩
    · obtain ⟨c, hc', hres⟩ := h.saved t (((hmem t).mp ht).resolve_right fun h => hc h.1) hr
      exact ⟨c, (if_neg hc).trans hc', hres⟩
  refine ⟨?_, ?_, fun hnew => if_pos hnew, rfl, if_pos rfl, rfl, fun _ => ⟨rfl, rfl⟩, rfl⟩
  · refine ⟨⟨hl, fun t ht => ?_, fun t ht => ?_⟩, fun t htl htr hct => ?_, fun t ht => ?_, ?_,
      fun t ht hr => ?_, fun c hc => ?_, h.process, h.tid⟩
    · rw [hstate t (hne t ht)]
      exact hlive t (List.mem_cons_of_mem _ ht)
    · obtain rfl : x = t := Option.some.inj ht
      exact (List.nodup_cons.mp hnodup).1
    · have htx : t ≠ x := by
        rintro rfl
        exact hct rfl
      rw [hstate t htx] at htr
      have ht : t ∈ x :: q' := by
        rw [hmem]
        by_cases hc : s.currentThread = some t
        · refine .inr ⟨hc, ?_⟩
          have := (h.current t hc).2
          cases hr : (s.tcb t).runstate <;> simp_all
        · exact .inl (h.queued t htl htr hc)
      exact (List.mem_cons.mp ht).resolve_left htx
    · by_cases htx : t = x
      · subst htx
        exact hself
      · have hoff : (Node.queue t).OffQueue (x :: q') := by
          refine ⟨by simp, fun u hu heq => ?_⟩
          obtain rfl := Node.queue.inj heq
          exact (List.mem_cons.mp hu).elim htx ht
        refine (hframe _ hoff).trans (h.unqueued t fun hq' => ?_)
        exact (List.mem_cons.mp ((hmem t).mpr (.inl hq'))).elim htx ht
    · intro n hn
      have hoff : n.OffQueue (x :: q') := by
        refine ⟨?_, fun v _ => ?_⟩
        · rintro rfl
          exact hn
        · rintro rfl
          exact hn
      rw [show s'.links n = s.links n from hframe n hoff]
      exact h.procs n hn
    · rw [hstate t (hne t ht)] at hr
      exact hsaved t (List.mem_cons_of_mem _ ht) hr
    · obtain rfl : x = c := Option.some.inj hc
      refine ⟨hxl, ?_⟩
      rw [show (s'.tcb x).runstate = .ready from if_pos rfl]
      simp
  · change Ctl.Resumes (if (s.tcb x).runstate = .new then .user 0 else _)
    split
    · trivial
    next hnew =>
      have hr : (s.tcb x).runstate = .ready := by
        cases hr : (s.tcb x).runstate <;> simp_all
      obtain ⟨c, hc, hres⟩ := hsaved x List.mem_cons_self hr
      change Ctl.Resumes (Option.getD (s'.tcb x).savedState .wild)
      rw [hc]
      exact hres

/-- With no thread that can run, nothing changes. The empty queue is recognised
if its head has never been linked. -/
theorem schedule_empty (h : CoreInv s q) (hq : q ++ s.requeued = []) (here : Ctl) :
    (Munix.schedule s here).2 = s ∧
      (if (s.links .readyQueue).next = 0 then (Munix.schedule s here).1 = .noreturn
        else (Munix.schedule s here).1 = .spin ∨ (Munix.schedule s here).1 = .wild) := by
  obtain ⟨rfl, hback⟩ := List.append_eq_nil_iff.mp hq
  have hs : requeueCurrent s = s := by
    refine requeueCurrent_eq_self fun c hc hready => ?_
    have : c ∈ s.requeued := mem_requeued.mpr ⟨hc, hready⟩
    simp [hback] at this
  rw [Munix.schedule, hs]
  by_cases h0 : (s.links .readyQueue).next = 0
  · rw [if_pos h0, chooseNextThread_unlinked h0]
    exact ⟨rfl, rfl⟩
  · have hself := h.ready.queue.next_eq_of_nil.resolve_left h0
    rw [if_neg h0]
    rcases chooseNextThread_linked hself (THREAD_MAX + 1) with hc | hc
    · rw [hc]
      exact ⟨rfl, .inl rfl⟩
    · rw [hc]
      exact ⟨rfl, .inr rfl⟩

end CoreInv

-- ---------------------------------------------------------------------------
-- Everything
-- ---------------------------------------------------------------------------

/-- What holds where the CPU is. As long as interrupts are enabled in the shell
there has been no thread yet. -/
def System.PlaceInv (s : System) (q : List (Fin THREAD_MAX)) : Prop :=
  match s.place with
  | .thread | .joining _ =>
    ∃ c, s.sched.currentThread = some c ∧ (s.sched.tcb c).runstate = .ready ∧
      s.sched.currentProcess = (s.sched.tcb c).process
  | .shell true | .loading true _ | .starting true _ =>
    s.sched.currentThread = none ∧ (∀ t, ¬ s.sched.Live t) ∧ (s.sched.links .readyQueue).next = 0
  | .created true _ =>
    s.sched.currentThread = none ∧ q ≠ [] ∧ ∀ t ∈ q, (s.sched.tcb t).runstate = .new
  | _ => True

/-- The state is in order. -/
def System.Inv (s : System) : Prop := ∃ q, CoreInv s.sched q ∧ s.PlaceInv q

namespace System

variable {L : Layout} {s : System} {σ : Sched} {q : List (Fin THREAD_MAX)}

theorem Inv.boot (stray : BitVec 32) : (System.boot stray).Inv :=
  ⟨[], .boot stray, rfl, fun _ ht => ht rfl, rfl⟩

/-- After a switch, with interrupts off. -/
theorem land_switched {q' : List (Fin THREAD_MAX)} {x : Fin THREAD_MAX} {ctl : Ctl} {σ' : Sched}
    (h : CoreInv.Switched σ q' x ctl σ') (s : System) : (s.land false (ctl, σ')).Inv := by
  have hrunning : ∃ c, σ'.currentThread = some c ∧ (σ'.tcb c).runstate = .ready ∧
      σ'.currentProcess = (σ'.tcb c).process := ⟨x, h.current, h.ready, h.process⟩
  have hresumes := h.resumes
  cases ctl with
  | user res => exact ⟨q', h.inv, hrunning⟩
  | join temp => exact ⟨q', h.inv, hrunning⟩
  | start shell p =>
    change (if shell = s.shell then _ else _ : System).Inv
    split
    · exact ⟨q', h.inv.closeSched p, trivial⟩
    · exact ⟨q', h.inv, trivial⟩
  | noreturn => exact hresumes.elim
  | spin => exact hresumes.elim
  | wild => exact hresumes.elim

/-- After a call of `schedule`, with interrupts off. -/
theorem land_schedule (h : CoreInv σ q) {here : Ctl}
    (hhere : ∀ c, σ.currentThread = some c → (σ.tcb c).runstate = .ready → here.Resumes)
    (s : System) : (s.land false (Munix.schedule σ here)).Inv := by
  cases hq : q ++ σ.requeued with
  | cons x q' => exact land_switched (h.schedule hhere hq) s
  | nil =>
    obtain ⟨hsame, hend⟩ := h.schedule_empty hq here
    rw [show Munix.schedule σ here = ((Munix.schedule σ here).1, σ) from Prod.ext rfl hsame]
    split at hend
    · rw [hend]
      exact ⟨q, h, trivial⟩
    · obtain hend | hend := hend <;> rw [hend] <;> exact ⟨q, h, trivial⟩

/-- The current thread is put back and another one is chosen. -/
theorem land_yield (h : CoreInv σ q) {f : Thread → Thread} {here : Ctl}
    (hf : ∀ th, (f th).tid = th.tid ∧ (f th).process = th.process)
    (hnew : ∀ th, (f th).runstate ≠ .new) (hhere : (∃ th, (f th).runstate = .ready) → here.Resumes)
    (s : System) : (s.land false (Munix.schedule (σ.setCurrent f) here)).Inv := by
  refine land_schedule (h.setCurrent hf hnew) (fun c hc hready => hhere ?_) s
  cases hcur : σ.currentThread with
  | none =>
    rw [Sched.setCurrent, hcur] at hc
    rw [hcur] at hc
    cases hc
  | some c' =>
    have hs : σ.setCurrent f = σ.setThread c' f := by simp [Sched.setCurrent, hcur]
    rw [hs] at hc hready
    obtain rfl : c' = c := Option.some.inj (hcur.symm.trans hc)
    exact ⟨σ.tcb c', by simpa [Sched.setThread] using hready⟩

theorem land_threadYield (h : CoreInv σ q) (here : Ctl) (hhere : here.Resumes) (s : System) :
    (s.land false (threadYield σ here)).Inv := by
  refine land_yield h ?_ ?_ (fun _ => hhere) s
  · exact fun th => ⟨rfl, rfl⟩
  · exact fun th => nofun

/-- Where a thread runs. -/
theorem PlaceInv.running (h : s.PlaceInv q)
    (hplace : s.place = .thread ∨ ∃ temp, s.place = .joining temp) :
    ∃ c, s.sched.currentThread = some c ∧ (s.sched.tcb c).runstate = .ready ∧
      s.sched.currentProcess = (s.sched.tcb c).process := by
  obtain hplace | ⟨temp, hplace⟩ := hplace <;> simpa only [PlaceInv, hplace] using h

theorem Inv.command (h : s.Inv) {intr : Bool} (hplace : s.place = .shell intr) {s' : System}
    (hstep : s.step L .command = some s') : s'.Inv := by
  obtain ⟨q, hcore, hpl⟩ := h
  simp only [System.step, hplace] at hstep
  split at hstep
  next =>
    obtain rfl := Option.some.inj hstep
    exact ⟨q, hcore, trivial⟩
  next p _ =>
    obtain rfl := Option.some.inj hstep
    obtain ⟨hw, hframe⟩ := clear_process hcore.procs (.threads p) trivial
    refine ⟨q, hcore.congr_links (p := s.sched.currentProcess) hw hframe, ?_⟩
    cases intr with
    | false => trivial
    | true =>
      simp only [PlaceInv, hplace] at hpl
      obtain ⟨hcur, hfree, hhead⟩ := hpl
      exact ⟨hcur, hfree, (congrArg Links.next (hframe .readyQueue id)).trans hhead⟩

theorem Inv.start (h : s.Inv) {intr : Bool} {p : Fin PROCESS_MAX}
    (hplace : s.place = .loading intr p) {s' : System} (hstep : s.step L .start = some s') :
    s'.Inv := by
  obtain ⟨q, hcore, hpl⟩ := h
  simp only [System.step, hplace] at hstep
  obtain rfl := Option.some.inj hstep
  refine ⟨q, hcore.congr_links (p := some p) hcore.procs fun _ _ => rfl, ?_⟩
  cases intr with
  | false => trivial
  | true =>
    simp only [PlaceInv, hplace] at hpl
    exact hpl

/-- The first thread of all is the only one in the queue. -/
theorem Inv.create (h : s.Inv) {intr : Bool} {p : Fin PROCESS_MAX}
    (hplace : s.place = .starting intr p) {startAddr ustack : BitVec 32} {s' : System}
    (hstep : s.step L (.create startAddr ustack) = some s') : s'.Inv := by
  obtain ⟨q, hcore, hpl⟩ := h
  simp only [System.step, hplace] at hstep
  split at hstep
  next hmax =>
    obtain rfl := Option.some.inj hstep
    cases halloc : threadAlloc s.sched with
    | none =>
      have hsame : (threadCreate L s.sched p startAddr ustack).2 = s.sched := by
        simp only [threadCreate, halloc]
      rw [hsame]
      refine ⟨q, hcore, ?_⟩
      cases intr with
      | false => trivial
      | true =>
        -- all slots are free
        simp only [PlaceInv, hplace] at hpl
        have hslot := List.find?_eq_none.mp halloc ⟨0, by decide⟩ (List.mem_finRange _)
        exact absurd (not_not.mp (hpl.2.1 ⟨0, by decide⟩)) (by simpa using hslot)
    | some t =>
      obtain ⟨hcur, -, -, -, -, hother⟩ := threadCreate_state L p startAddr ustack halloc
      refine ⟨q ++ [t], hcore.threadCreate halloc hmax L p startAddr ustack, ?_⟩
      cases intr with
      | false => trivial
      | true =>
        simp only [PlaceInv, hplace] at hpl
        obtain ⟨hnone, hfree, -⟩ := hpl
        have hq : q = [] := List.eq_nil_iff_forall_not_mem.mpr fun u hu =>
          hfree u (hcore.ready.runnable u hu).1
        subst hq
        refine ⟨hcur.trans hnone, by simp, fun u hu => ?_⟩
        obtain rfl : u = t := by simpa using hu
        simp [threadCreate, halloc, schedAdd, Sched.setThread]
  next => cases hstep

/-- The first thread of all is launched. -/
theorem land_first (h : CoreInv σ q) (hnone : σ.currentThread = none) (hq : q ≠ [])
    (hnew : ∀ t ∈ q, (σ.tcb t).runstate = .new) (here : Ctl) (s : System) (intr : Bool) :
    (s.land intr (Munix.schedule σ here)).Inv ∧
      (s.land intr (Munix.schedule σ here)).place = .thread := by
  obtain ⟨x, q', rfl⟩ := List.exists_cons_of_ne_nil hq
  have hback : x :: q' ++ σ.requeued = x :: q' := by simp [Sched.requeued, hnone]
  have hsw : CoreInv.Switched σ q' x (Munix.schedule σ here).1 (Munix.schedule σ here).2 :=
    h.schedule (by simp [hnone]) hback
  have huser := hsw.launch (hnew x List.mem_cons_self)
  rw [show Munix.schedule σ here = (.user 0, (Munix.schedule σ here).2) from Prod.ext huser rfl]
  exact ⟨⟨q', hsw.inv, x, hsw.current, hsw.ready, hsw.process⟩, rfl⟩

theorem Inv.schedule (h : s.Inv) {intr : Bool} {p : Fin PROCESS_MAX}
    (hplace : s.place = .created intr p) {s' : System} (hstep : s.step L .schedule = some s') :
    s'.Inv := by
  obtain ⟨q, hcore, hpl⟩ := h
  simp only [System.step, hplace] at hstep
  obtain rfl := Option.some.inj hstep
  cases intr with
  | false =>
    refine land_schedule hcore ?_ s
    intro c hc hready
    trivial
  | true =>
    simp only [PlaceInv, hplace] at hpl
    exact (land_first hcore hpl.1 hpl.2.1 hpl.2.2 _ s true).1

/-- A thread creates another one. -/
theorem Inv.callCreate (h : s.Inv) (hplace : s.place = .thread) {startAddr ustack : BitVec 32}
    (hmax : s.sched.nextTid.toNat + 1 < 2 ^ 31) :
    (s.land false ((ThreadCall.create startAddr ustack).run L s.sched)).Inv := by
  obtain ⟨q, hcore, hpl⟩ := h
  obtain ⟨c, hc, hready, hprocess⟩ := hpl.running (.inl hplace)
  have hlive := (hcore.current c hc).1
  obtain ⟨p, hp⟩ := hcore.process c hlive
  rw [hp] at hprocess
  simp only [ThreadCall.run, hprocess]
  cases halloc : threadAlloc s.sched with
  | none =>
    have hsame : (threadCreate L s.sched p startAddr ustack).2 = s.sched := by
      simp only [threadCreate, halloc]
    rw [hsame]
    exact ⟨q, hcore, c, hc, hready, hprocess.trans hp.symm⟩
  | some t =>
    obtain ⟨hcur, hproc, -, -, -, hother⟩ := threadCreate_state L p startAddr ustack halloc
    have hct : c ≠ t := by
      rintro rfl
      exact not_live_of_alloc halloc hlive
    refine ⟨q ++ [t], hcore.threadCreate halloc hmax L p startAddr ustack, c, hcur.trans hc, ?_⟩
    change ((threadCreate L s.sched p startAddr ustack).2.tcb c).runstate = .ready ∧
      (threadCreate L s.sched p startAddr ustack).2.currentProcess =
        ((threadCreate L s.sched p startAddr ustack).2.tcb c).process
    rw [hother c hct]
    exact ⟨hready, (hproc.trans hprocess).trans hp.symm⟩

/-- The loop of `thread_join`. -/
theorem Inv.join (h : s.Inv) (hplace : s.place = .thread ∨ ∃ temp, s.place = .joining temp)
    (temp : Fin THREAD_MAX) : (s.land false (threadJoinLoop s.sched temp)).Inv := by
  obtain ⟨q, hcore, hpl⟩ := h
  obtain ⟨c, hc, hready, hprocess⟩ := hpl.running hplace
  unfold threadJoinLoop
  split
  next =>
    exact land_threadYield hcore (.join temp) trivial s
  next hexited =>
    have hexited : (s.sched.tcb temp).runstate = .exited := not_not.mp hexited
    have hct : c ≠ temp := by
      rintro rfl
      rw [hready] at hexited
      cases hexited
    have hother : (Munix.threadClose s.sched temp).tcb c = s.sched.tcb c :=
      Function.update_of_ne hct _ _
    refine ⟨q, hcore.threadClose hexited fun hcur => hct (Option.some.inj (hc.symm.trans hcur)), c,
      hc, ?_⟩
    change ((Munix.threadClose s.sched temp).tcb c).runstate = .ready ∧
      s.sched.currentProcess = ((Munix.threadClose s.sched temp).tcb c).process
    rw [hother]
    exact ⟨hready, hprocess⟩

/-- The system calls of a thread. -/
theorem Inv.call (h : s.Inv) (hplace : s.place = .thread) {c : ThreadCall} {s' : System}
    (hstep : s.step L (.call c) = some s') : s'.Inv := by
  cases c with
  | create startAddr ustack =>
    simp only [System.step, hplace] at hstep
    split at hstep
    next hmax =>
      obtain rfl := Option.some.inj hstep
      exact h.callCreate hplace hmax
    next => cases hstep
  | yield =>
    simp only [System.step, hplace] at hstep
    obtain rfl := Option.some.inj hstep
    obtain ⟨q, hcore, -⟩ := h
    exact land_threadYield hcore (.user 0) trivial s
  | preempt =>
    simp only [System.step] at hstep
    cases hstep
  | exit status =>
    simp only [System.step, hplace] at hstep
    obtain rfl := Option.some.inj hstep
    obtain ⟨q, hcore, -⟩ := h
    -- it is not put back
    refine land_yield hcore ?_ ?_ ?_ s
    · exact fun th => ⟨rfl, rfl⟩
    · intro th hth
      cases hth
    · rintro ⟨th, hth⟩
      cases hth
  | join tid =>
    simp only [System.step, hplace] at hstep
    obtain rfl := Option.some.inj hstep
    simp only [ThreadCall.run, threadJoin]
    split
    next =>
      obtain ⟨q, hcore, hpl⟩ := h
      exact ⟨q, hcore, hpl.running (.inl hplace)⟩
    next temp _ => exact h.join (.inl hplace) temp

/-- `process_exit`: the current thread is not put back. -/
theorem Inv.exit (h : s.Inv) (p : Fin PROCESS_MAX) : (s.processExit p).Inv := by
  obtain ⟨q, hcore, -⟩ := h
  refine ⟨q, (hcore.closeSched p).setCurrent ?_ ?_, trivial⟩
  · exact fun th => ⟨rfl, rfl⟩
  · exact fun th => nofun

theorem Inv.fault (h : s.Inv) : s.handleException.Inv := by
  obtain ⟨q, hcore, -⟩ := h
  refine ⟨q, ?_, trivial⟩
  unfold handleException processKill
  split
  next => exact hcore
  next p _ => exact hcore.closeSched p

/-- Interrupts are enabled in the shell only before the first thread runs. -/
theorem PlaceInv.booting (h : s.PlaceInv q) (hintr : s.place.intr = true)
    (hplace : s.place ≠ .thread) :
    s.sched.currentThread = none ∧
      (((∀ t, ¬ s.sched.Live t) ∧ (s.sched.links .readyQueue).next = 0) ∨
        (q ≠ [] ∧ ∀ t ∈ q, (s.sched.tcb t).runstate = .new)) := by
  cases hp : s.place with
  | shell intr | loading intr p | starting intr p =>
    obtain rfl : intr = true := by simpa only [hp, Place.intr] using hintr
    simp only [PlaceInv, hp] at h
    exact ⟨h.1, .inl h.2⟩
  | created intr p =>
    obtain rfl : intr = true := by simpa only [hp, Place.intr] using hintr
    simp only [PlaceInv, hp] at h
    exact ⟨h.1, .inr h.2⟩
  | thread => exact absurd hp hplace
  | joining temp => simp [hp, Place.intr] at hintr
  | stopped => simp [hp, Place.intr] at hintr

/-- The timer, in a thread and in the first shell. -/
theorem Inv.timer (h : s.Inv) (hintr : s.place.intr = true) : s.handleIrq.Inv := by
  obtain ⟨q, hcore, hpl⟩ := h
  unfold handleIrq threadPreempt
  by_cases hplace : s.place = .thread
  · rw [if_pos hplace]
    refine land_yield hcore ?_ ?_ ?_ _
    · exact fun th => ⟨rfl, rfl⟩
    · exact fun th => nofun
    · exact fun _ => trivial
  · obtain ⟨hnone, hboot⟩ := hpl.booting hintr hplace
    rw [if_neg hplace, Sched.setCurrent, hnone]
    refine land_schedule hcore ?_ _
    intro c hc
    rw [hnone] at hc
    cases hc

/-- **Every event keeps the state in order.** -/
theorem Inv.step (h : s.Inv) {e : Event} {s' : System} (hstep : s.step L e = some s') : s'.Inv := by
  cases e with
  | command =>
    cases hplace : s.place with
    | shell intr => exact h.command hplace hstep
    | _ => simp [System.step, hplace] at hstep
  | start =>
    cases hplace : s.place with
    | loading intr p => exact h.start hplace hstep
    | _ => simp [System.step, hplace] at hstep
  | create startAddr ustack =>
    cases hplace : s.place with
    | starting intr p => exact h.create hplace hstep
    | _ => simp [System.step, hplace] at hstep
  | schedule =>
    cases hplace : s.place with
    | created intr p => exact h.schedule hplace hstep
    | _ => simp [System.step, hplace] at hstep
  | call c =>
    cases hplace : s.place with
    | thread => exact h.call hplace hstep
    | _ => cases c <;> simp [System.step, hplace] at hstep
  | joinLoop =>
    cases hplace : s.place with
    | joining temp =>
      simp only [System.step, hplace] at hstep
      obtain rfl := Option.some.inj hstep
      exact h.join (.inr ⟨temp, hplace⟩) temp
    | _ => simp [System.step, hplace] at hstep
  | exit =>
    cases hplace : s.place with
    | thread =>
      rw [System.step_exit L hplace] at hstep
      obtain ⟨p, -, rfl⟩ := Option.map_eq_some_iff.mp hstep
      exact h.exit p
    | _ => simp [System.step, hplace] at hstep
  | fault =>
    cases hplace : s.place with
    | shell _ | loading _ _ | starting _ _ | thread =>
      simp only [System.step, hplace] at hstep
      obtain rfl := Option.some.inj hstep
      exact h.fault
    | _ => simp [System.step, hplace] at hstep
  | timer =>
    simp only [System.step] at hstep
    split at hstep
    next hintr =>
      obtain rfl := Option.some.inj hstep
      exact h.timer hintr
    next => cases hstep

theorem Inv.run (h : s.Inv) {events : List Event} {s' : System}
    (hrun : s.run L events = some s') : s'.Inv := by
  induction events generalizing s with
  | nil =>
    obtain rfl := Option.some.inj hrun
    exact h
  | cons e events ih =>
    obtain ⟨s₁, hstep, hrun⟩ := Option.bind_eq_some_iff.mp hrun
    exact ih (h.step hstep) hrun

/-- **The state is in order from boot on.** -/
theorem Reachable.inv {stray : BitVec 32} (h : Reachable L stray s) : s.Inv := by
  obtain ⟨events, hrun⟩ := h
  exact (Inv.boot stray).run hrun

end System

end Munix
