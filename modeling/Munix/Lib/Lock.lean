import Mathlib.Tactic

/-!
# Locks

A lock is a flag that is tested and set in one step. Who holds it is not stored
anywhere: it follows from where the threads are. `Owned` says that the flag and
the threads agree, and it is kept by taking a free lock and by giving it back.

The second part is about threads that run straight-line programs over a family
of locks. `holds` reads off the rest of a program what the thread holds, and a
program is `Ordered` when every lock it takes ranks above those it holds.

## Results

* `Owned.acquire`, `Owned.release` — the two steps that change a lock.
* `Locks.Inv.step`                 — ordered programs keep every lock owned.
* `Locks.Inv.progress`             — with ordered programs, not everyone waits.
-/

namespace Lock

-- ---------------------------------------------------------------------------
-- One lock
-- ---------------------------------------------------------------------------

section One

variable {ι : Type} {flag : Bool} {H : ι → Prop} {i : ι}

/-- The flag is set exactly when a thread holds the lock, and then only one
does. -/
structure Owned (flag : Bool) (H : ι → Prop) : Prop where
  flag_iff : flag = true ↔ ∃ i, H i
  unique   : ∀ i j, H i → H j → i = j

theorem Owned.free (hH : ∀ i, ¬ H i) : Owned false H where
  flag_iff := ⟨nofun, fun ⟨i, hi⟩ => absurd hi (hH i)⟩
  unique i _ hi := absurd hi (hH i)

theorem Owned.congr {H' : ι → Prop} (h : Owned flag H) (hH : ∀ i, H' i ↔ H i) : Owned flag H' := by
  obtain rfl : H' = H := funext fun i => propext (hH i)
  exact h

/-- Nobody holds a lock whose flag is not set. -/
theorem Owned.not_held (h : Owned false H) (j : ι) : ¬ H j := by
  intro hj
  cases h.flag_iff.mpr ⟨j, hj⟩

theorem Owned.flag_of_held (h : Owned flag H) (hi : H i) : flag = true := h.flag_iff.mpr ⟨i, hi⟩

/-- A thread that finds the flag not set has the lock. -/
theorem Owned.acquire {H' : ι → Prop} (h : Owned false H) (hi : H' i)
    (hH : ∀ j, j ≠ i → (H' j ↔ H j)) : Owned true H' := by
  have honly : ∀ j, H' j → j = i := by
    intro j hj
    by_contra hne
    exact h.not_held j ((hH j hne).mp hj)
  refine ⟨⟨fun _ => ⟨i, hi⟩, fun _ => rfl⟩, fun j k hj hk => ?_⟩
  rw [honly j hj, honly k hk]

/-- The holder gives the lock back. -/
theorem Owned.release {H' : ι → Prop} (h : Owned flag H) (hi : H i) (hi' : ¬ H' i)
    (hH : ∀ j, j ≠ i → (H' j ↔ H j)) : Owned false H' := by
  apply Owned.free
  intro j hj
  by_cases hne : j = i
  · exact hi' (hne ▸ hj)
  · exact hne (h.unique j i ((hH j hne).mp hj) hi)

end One

-- ---------------------------------------------------------------------------
-- Programs over a family of locks
-- ---------------------------------------------------------------------------

/-- What a step of a program does to the locks. -/
inductive Op (μ : Type) where
  | lock (m : μ)
  | unlock (m : μ)
  | other
deriving DecidableEq

section Programs

variable {μ : Type} [DecidableEq μ]

/-- A thread with this program ahead of it holds `m`: it will give it back
before it takes it. -/
def holds : List (Op μ) → μ → Bool
  | [], _ => false
  | .lock x :: rest, m => if x = m then false else holds rest m
  | .unlock x :: rest, m => if x = m then true else holds rest m
  | .other :: rest, m => holds rest m

/-- The program starts without a lock. -/
def Closed (p : List (Op μ)) : Prop := ∀ m, holds p m = false

/-- Every lock that is taken ranks above those that are held and is given back
before it is taken again; only a lock that is held is given back. -/
def Ordered (rank : μ → Nat) : List (Op μ) → Prop
  | [] => True
  | .lock x :: rest =>
    holds rest x = true ∧ (∀ m, m ≠ x → holds rest m = true → rank m < rank x) ∧
      Ordered rank rest
  | .unlock x :: rest => holds rest x = false ∧ Ordered rank rest
  | .other :: rest => Ordered rank rest

/-- After a program that starts and ends without a lock. -/
theorem holds_append {p q : List (Op μ)} (hq : Closed q) (m : μ) :
    holds (p ++ q) m = holds p m := by
  induction p with
  | nil => exact hq m
  | cons op p ih => cases op <;> simp only [List.cons_append, holds, ih]

theorem Closed.append {p q : List (Op μ)} (hp : Closed p) (hq : Closed q) : Closed (p ++ q) := by
  intro m
  rw [holds_append hq, hp m]

theorem Ordered.append {rank : μ → Nat} {p q : List (Op μ)} (hp : Ordered rank p)
    (hq : Ordered rank q) (hclosed : Closed q) : Ordered rank (p ++ q) := by
  induction p with
  | nil => exact hq
  | cons op p ih =>
    cases op with
    | lock x =>
      obtain ⟨hback, hrank, hrest⟩ := hp
      refine ⟨(holds_append hclosed x).trans hback, fun m hm hheld => ?_, ih hrest⟩
      exact hrank m hm ((holds_append hclosed m).symm.trans hheld)
    | unlock x => exact ⟨(holds_append hclosed x).trans hp.1, ih hp.2⟩
    | other => exact ih hp

/-- A program that is run again and again. -/
theorem closed_repeat {p : List (Op μ)} (hp : Closed p) (k : Nat) :
    Closed (List.replicate k p).flatten := by
  induction k with
  | zero => exact fun m => rfl
  | succ k ih => exact hp.append ih

theorem ordered_repeat {rank : μ → Nat} {p : List (Op μ)} (hp : Ordered rank p) (hclosed : Closed p)
    (k : Nat) : Ordered rank (List.replicate k p).flatten := by
  induction k with
  | zero => trivial
  | succ k ih => exact hp.append ih (closed_repeat hclosed k)

/-- A thread that is about to take a lock does not hold it, and what it holds
ranks below it. -/
theorem Ordered.rank_lt {rank : μ → Nat} {x m : μ} {rest : List (Op μ)}
    (h : Ordered rank (.lock x :: rest)) (hm : holds (.lock x :: rest) m = true) :
    m ≠ x ∧ rank m < rank x := by
  obtain ⟨-, hrank, -⟩ := h
  rw [holds] at hm
  split at hm
  · cases hm
  next hne => exact ⟨fun h => hne h.symm, hrank m (fun h => hne h.symm) hm⟩

-- ---------------------------------------------------------------------------
-- Threads that run such programs
-- ---------------------------------------------------------------------------

variable {ι : Type}

/-- The flags of the locks, and what every thread still has to do. -/
structure Locks (μ ι : Type) where
  flag : μ → Bool
  rest : ι → List (Op μ)

/-- A thread waits: it is about to take a lock whose flag is set. -/
def Locks.Waits (s : Locks μ ι) (i : ι) : Prop :=
  ∃ m rest, s.rest i = .lock m :: rest ∧ s.flag m = true

/-- All programs are ordered, and every lock is owned by who holds it. -/
structure Locks.Inv (rank : μ → Nat) (s : Locks μ ι) : Prop where
  ordered : ∀ i, Ordered rank (s.rest i)
  owned   : ∀ m, Owned (s.flag m) (fun i => holds (s.rest i) m = true)

namespace Locks

variable {rank : μ → Nat} {s : Locks μ ι}

theorem Inv.start {rest : ι → List (Op μ)} (hord : ∀ i, Ordered rank (rest i))
    (hclosed : ∀ i, Closed (rest i)) : Inv rank ⟨fun _ => false, rest⟩ where
  ordered := hord
  owned m := Owned.free fun i => by simp [hclosed i m]

/-- **No deadlock.** Let `S` be a set of threads that has every thread that holds
a lock. If one of them is not at its end, then one of them is not at its end and
does not wait: the lock that the holder of a lock waits for ranks higher. -/
theorem Inv.progress (h : Inv rank s) {bound : Nat} (hbound : ∀ m, rank m ≤ bound) (S : ι → Prop)
    (hS : ∀ i m, holds (s.rest i) m = true → S i) {i : ι} (hi : S i) (hrest : s.rest i ≠ []) :
    ∃ j, S j ∧ s.rest j ≠ [] ∧ ¬ s.Waits j := by
  by_contra hall
  push Not at hall
  -- from a thread that waits, the chain of holders goes up in rank
  have hchain : ∀ k m j rest, S j → s.rest j = .lock m :: rest → bound - rank m = k → False := by
    intro k
    induction k using Nat.strongRecOn with
    | _ k ih =>
      intro m j rest hj hlock hk
      obtain ⟨m', rest', hlock', hflag⟩ := hall j hj (by rw [hlock]; simp)
      rw [hlock] at hlock'
      obtain ⟨rfl, rfl⟩ : m = m' ∧ rest = rest' := by simpa using hlock'
      obtain ⟨j', hheld⟩ := (h.owned m).flag_iff.mp hflag
      have hj' : S j' := hS j' m hheld
      have hne : s.rest j' ≠ [] := by
        intro hnil
        rw [hnil, holds] at hheld
        cases hheld
      obtain ⟨x, rest', hlock', -⟩ := hall j' hj' hne
      have hord := h.ordered j'
      rw [hlock'] at hord hheld
      obtain ⟨-, hlt⟩ := hord.rank_lt hheld
      have hx := hbound x
      exact ih (bound - rank x) (by omega) x j' rest' hj' hlock' rfl
  obtain ⟨m, rest, hlock, -⟩ := hall i hi hrest
  exact hchain _ m i rest hi hlock rfl

end Locks

variable [DecidableEq ι]

/-- One step of one thread. -/
inductive Locks.Step : Locks μ ι → Locks μ ι → Prop where
  | acquire {s : Locks μ ι} {i : ι} {m : μ} {rest : List (Op μ)}
      (h : s.rest i = .lock m :: rest) (hfree : s.flag m = false) :
      Step s ⟨Function.update s.flag m true, Function.update s.rest i rest⟩
  | release {s : Locks μ ι} {i : ι} {m : μ} {rest : List (Op μ)}
      (h : s.rest i = .unlock m :: rest) :
      Step s ⟨Function.update s.flag m false, Function.update s.rest i rest⟩
  | other {s : Locks μ ι} {i : ι} {rest : List (Op μ)} (h : s.rest i = .other :: rest) :
      Step s ⟨s.flag, Function.update s.rest i rest⟩

namespace Locks

variable {rank : μ → Nat} {s s' : Locks μ ι}

/-- What is ahead of the other threads has not changed. -/
theorem holds_update_ne {rest : ι → List (Op μ)} {i j : ι} (p : List (Op μ)) (m : μ) (h : j ≠ i) :
    holds (Function.update rest i p j) m = true ↔ holds (rest j) m = true := by
  rw [Function.update_of_ne h]

/-- A step that does not touch a lock does not change who holds it. -/
theorem Inv.owned_update {i : ι} {p : List (Op μ)} {m : μ} (h : Inv rank s)
    (hsame : holds p m = holds (s.rest i) m) :
    Owned (s.flag m) (fun j => holds (Function.update s.rest i p j) m = true) := by
  apply (h.owned m).congr
  intro j
  by_cases hj : j = i
  · subst hj
    rw [Function.update_self, hsame]
  · exact holds_update_ne p m hj

/-- A step keeps the rest of every program ordered. -/
theorem Inv.ordered_update {i : ι} {p : List (Op μ)} (h : Inv rank s) (hp : Ordered rank p)
    (j : ι) : Ordered rank (Function.update s.rest i p j) := by
  by_cases hj : j = i
  · subst hj
    rwa [Function.update_self]
  · rw [Function.update_of_ne hj]
    exact h.ordered j

/-- **Every step keeps the invariant.** -/
theorem Inv.step (h : Inv rank s) (hstep : Step s s') : Inv rank s' := by
  cases hstep with
  | @acquire i x rest hrest hfree =>
    have hord := h.ordered i
    rw [hrest] at hord
    obtain ⟨hback, -, hord⟩ := hord
    refine ⟨h.ordered_update hord, fun m => ?_⟩
    dsimp only
    by_cases hm : m = x
    · subst hm
      rw [Function.update_self]
      have howned := h.owned m
      rw [hfree] at howned
      exact howned.acquire (i := i) (by rw [Function.update_self, hback])
        fun j hj => holds_update_ne rest m hj
    · rw [Function.update_of_ne hm]
      exact h.owned_update (by rw [hrest, holds, if_neg fun hx => hm hx.symm])
  | @release i x rest hrest =>
    have hord := h.ordered i
    rw [hrest] at hord
    obtain ⟨hback, hord⟩ := hord
    refine ⟨h.ordered_update hord, fun m => ?_⟩
    dsimp only
    by_cases hm : m = x
    · subst hm
      rw [Function.update_self]
      exact (h.owned m).release (i := i) (by rw [hrest, holds, if_pos rfl])
        (by rw [Function.update_self, hback]; simp) fun j hj => holds_update_ne rest m hj
    · rw [Function.update_of_ne hm]
      exact h.owned_update (by rw [hrest, holds, if_neg fun hx => hm hx.symm])
  | @other i rest hrest =>
    have hord := h.ordered i
    rw [hrest] at hord
    refine ⟨h.ordered_update hord, fun m => h.owned_update ?_⟩
    rw [hrest, holds]

end Locks

end Programs

end Lock
