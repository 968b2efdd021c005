import Mathlib.Data.List.Nodup
import Mathlib.Data.Set.Insert
import Mathlib.Tactic

/-!
# Round-robin scheduling

One member runs and the others wait in a queue. New members go to the end of the
queue; when the running member gives way it goes to the end as well, or leaves for
good, and the first one waiting runs. A run records who was put in the queue and
who was dispatched, in order (`RoundRobin.Run`).

* `Run.fifo`: what was waiting and what was put in comes out in this order.
* `Run.dispatched_at`: the member at position `k` is dispatched at the `k`-th of the
  following events, counted from 0, and not before.
* `Run.round`: between two times that a member is dispatched, each of those waiting
  at the first one is dispatched once.
-/

/-- The running member, the queue, and everything that was a member so far. -/
structure RoundRobin (α : Type*) where
  current : α
  queue   : List α
  used    : Set α
  nodup   : (current :: queue).Nodup
  known   : ∀ x ∈ current :: queue, x ∈ used

namespace RoundRobin

variable {α : Type*} {r r' r'' : RoundRobin α} {es ds : List α} {x : α}

/-- One step, with what it puts in the queue and what it dispatches. -/
inductive Step : RoundRobin α → List α → List α → RoundRobin α → Prop where
  | spawn {r r' : RoundRobin α} (y : α) (hfresh : y ∉ r.used) (hcur : r'.current = r.current)
      (hqueue : r'.queue = r.queue ++ [y]) (hused : r'.used = insert y r.used) : Step r [y] [] r'
  | requeue {r r' : RoundRobin α} (hqueue : r.queue ++ [r.current] = r'.current :: r'.queue)
      (hused : r'.used = r.used) : Step r [r.current] [r'.current] r'
  | retire {r r' : RoundRobin α} (hqueue : r.queue = r'.current :: r'.queue)
      (hused : r'.used = r.used) : Step r [] [r'.current] r'

inductive Run : RoundRobin α → List α → List α → RoundRobin α → Prop where
  | refl (r : RoundRobin α) : Run r [] [] r
  | head {r r' r'' : RoundRobin α} {e d es ds : List α} :
      Step r e d r' → Run r' es ds r'' → Run r (e ++ es) (d ++ ds) r''

theorem Run.trans {es' ds' : List α} (h : Run r es ds r') (h' : Run r' es' ds' r'') :
    Run r (es ++ es') (ds ++ ds') r'' := by
  induction h with
  | refl => exact h'
  | head hstep _ ih =>
    rw [List.append_assoc, List.append_assoc]
    exact .head hstep (ih h')

theorem Step.run {e d : List α} (h : Step r e d r') : Run r e d r' := by
  simpa using Run.head h (.refl r')

-- ---------------------------------------------------------------------------
-- The order of dispatches
-- ---------------------------------------------------------------------------

theorem Step.fifo {e d : List α} (h : Step r e d r') : r.queue ++ e = d ++ r'.queue := by
  cases h with
  | spawn y hfresh hcur hqueue hused => exact hqueue.symm
  | requeue hqueue hused => exact hqueue
  | retire hqueue hused =>
    rw [List.append_nil]
    exact hqueue

/-- **First in, first out.** -/
theorem Run.fifo (h : Run r es ds r') : r.queue ++ es = ds ++ r'.queue := by
  induction h with
  | refl r => simp
  | head hstep _ ih =>
    rw [← List.append_assoc, hstep.fifo, List.append_assoc, ih, List.append_assoc]

/-- **A member waits for those in front of it.** -/
theorem Run.dispatched_at (h : Run r es ds r') {k : Nat} (hk : k < r.queue.length)
    (hds : k < ds.length) : ds[k] = r.queue[k] ∧ ∀ i (hi : i < k), ds[i] ≠ r.queue[k] := by
  have hat : ∀ i (hi : i < r.queue.length) (hi' : i < ds.length), ds[i] = r.queue[i] := by
    intro i hi hi'
    have hget := congrArg (·[i]?) h.fifo
    simp only [List.getElem?_append_left hi, List.getElem?_append_left hi'] at hget
    simpa [hi, hi'] using hget.symm
  refine ⟨hat k hk hds, fun i hi heq => ?_⟩
  rw [hat i (by omega) (by omega)] at heq
  have hsame := (List.nodup_cons.mp r.nodup).2.getElem_inj_iff.mp heq
  omega

-- ---------------------------------------------------------------------------
-- One round
-- ---------------------------------------------------------------------------

/-- Whoever has left does not come back. -/
theorem Run.gone (h : Run r es ds r') (hused : x ∈ r.used) (hx : x ∉ r.current :: r.queue) :
    x ∉ es := by
  induction h with
  | refl => simp
  | head hstep hrun ih =>
    rw [List.mem_cons, not_or] at hx
    rw [List.mem_append, not_or]
    cases hstep with
    | spawn y hfresh hcur hqueue hused' =>
      have hxy : x ≠ y := by
        rintro rfl
        exact hfresh hused
      refine ⟨by simpa using hxy, ih (by rw [hused']; exact Set.mem_insert_of_mem y hused) ?_⟩
      simp [hcur, hqueue, hx, hxy]
    | requeue hqueue hused' =>
      refine ⟨by simpa using hx.1, ih (by rwa [hused']) ?_⟩
      rw [← hqueue]
      simp [hx]
    | retire hqueue hused' =>
      refine ⟨by simp, ih (by rwa [hused']) ?_⟩
      rw [← hqueue]
      exact hx.2

/-- Until the running member is put back, only new ones are put in the queue. -/
theorem Run.put_back (h : Run r es ds r') (hx : r.current ∈ es) :
    ∃ new later, es = new ++ r.current :: later ∧ ∀ y ∈ new, y ∉ r.used := by
  induction h with
  | refl => simp at hx
  | head hstep hrun ih =>
    cases hstep with
    | spawn y hfresh hcur hqueue hused =>
      rename_i r r' r'' es ds
      have hne : r.current ≠ y := by
        rintro rfl
        exact hfresh (r.known _ List.mem_cons_self)
      have hx' : r'.current ∈ es := by
        rw [hcur]
        simpa [hne] using hx
      obtain ⟨new, later, hes, hnew⟩ := ih hx'
      refine ⟨y :: new, later, by rw [hes, hcur]; rfl, fun z hz => ?_⟩
      rcases List.mem_cons.mp hz with rfl | hz
      · exact hfresh
      · have hout := hnew z hz
        rw [hused] at hout
        exact fun hin => hout (Set.mem_insert_of_mem y hin)
    | requeue hqueue hused => exact ⟨[], _, rfl, by simp⟩
    | retire hqueue hused =>
      rename_i r r' r'' es ds
      -- the member has left, and its name is not used again
      have hout := hrun.gone (x := r.current) (by rw [hused]; exact r.known _ List.mem_cons_self) (by
        rw [← hqueue]
        exact (List.nodup_cons.mp r.nodup).1)
      exact absurd (by simpa using hx) hout

/-- Lists that go on after the first time an element occurs. -/
theorem append_cons_left_inj {l₁ l₂ m₁ m₂ : List α} (h : l₁ ++ x :: l₂ = m₁ ++ x :: m₂)
    (hl : x ∉ l₁) (hm : x ∉ m₁) : l₁ = m₁ := by
  induction l₁ generalizing m₁ with
  | nil =>
    cases m₁ with
    | nil => rfl
    | cons b m₁ =>
      rw [List.nil_append, List.cons_append, List.cons.injEq] at h
      exact absurd (by simp [h.1]) hm
  | cons a l₁ ih =>
    cases m₁ with
    | nil =>
      rw [List.nil_append, List.cons_append, List.cons.injEq] at h
      exact absurd (by simp [h.1]) hl
    | cons b m₁ =>
      rw [List.cons_append, List.cons_append, List.cons.injEq] at h
      rw [h.1, ih h.2 (by simp_all) (by simp_all)]

/-- **One round.** Between two dispatches of the running member, everybody who was
waiting is dispatched once. -/
theorem Run.round [DecidableEq α] {mid : List α} (h : Run r es (mid ++ [r.current]) r')
    (hmid : r.current ∉ mid) : ∀ x ∈ r.queue, mid.count x = 1 := by
  have hfifo := h.fifo
  have hout : r.current ∉ r.queue := (List.nodup_cons.mp r.nodup).1
  have hin : r.current ∈ es := by
    have hmem : r.current ∈ r.queue ++ es := by simp [hfifo]
    exact (List.mem_append.mp hmem).resolve_left hout
  obtain ⟨new, later, rfl, hnew⟩ := h.put_back hin
  have hmid_eq : r.queue ++ new = mid := by
    have hsplit : (r.queue ++ new) ++ r.current :: later = mid ++ r.current :: r'.queue := by
      simpa using hfifo
    refine append_cons_left_inj hsplit ?_ hmid
    rw [List.mem_append, not_or]
    exact ⟨hout, fun hn => hnew _ hn (r.known _ List.mem_cons_self)⟩
  intro x hx
  rw [← hmid_eq, List.count_append, List.count_eq_one_of_mem (List.nodup_cons.mp r.nodup).2 hx,
    List.count_eq_zero_of_not_mem fun hn => hnew x hn (r.known x (List.mem_cons_of_mem _ hx))]

end RoundRobin
