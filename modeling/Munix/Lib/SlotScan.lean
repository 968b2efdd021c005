import Mathlib.Algebra.BigOperators.Fin
import Mathlib.Tactic

/-!
# First-fit slots and concurrent scans

A pool of `N` slots is shared by processes that look for a free slot from the first
slot on, one slot at a time, while others take and release slots. A scan can miss
a slot that is released behind it. If the slots in use and the scans under way are
never more than `N` together, every scan still finds a slot (`Fits.lt`): from every
position on, there is room for the scans that have come so far.
-/

namespace SlotScan

open Finset

variable {ι : Type*} [Fintype ι] {N : Nat}

/-- Slots in use from position `k` on. -/
def usedFrom (used : Fin N → Bool) (k : Nat) : Nat := ∑ i, if k ≤ i.val ∧ used i then 1 else 0

/-- Scans that are at position `k` or further. -/
def scansFrom (pos : ι → Option Nat) (k : Nat) : Nat :=
  ∑ w, if (pos w).any (fun j => decide (k ≤ j)) then 1 else 0

/-- There is room for all scans in the slots that they have not looked at. -/
def Fits (used : Fin N → Bool) (pos : ι → Option Nat) : Prop :=
  ∀ k ≤ N, usedFrom used k + scansFrom pos k ≤ N - k

variable {used : Fin N → Bool} {pos : ι → Option Nat} {w : ι} {j : Nat}

/-- What one change does to a sum. -/
theorem sum_update {κ α : Type*} [Fintype κ] [DecidableEq κ] (h : κ → α → Nat) (f : κ → α) (a : κ)
    (v : α) : (∑ b, h b (Function.update f a v b)) + h a (f a) = (∑ b, h b (f b)) + h a v := by
  have hrest : ∑ b ∈ univ.erase a, h b (Function.update f a v b) = ∑ b ∈ univ.erase a, h b (f b) :=
    sum_congr rfl fun b hb => by rw [Function.update_of_ne (ne_of_mem_erase hb)]
  rw [← add_sum_erase univ (fun b => h b (Function.update f a v b)) (mem_univ a),
    ← add_sum_erase univ (fun b => h b (f b)) (mem_univ a), hrest, Function.update_self]
  omega

theorem usedFrom_update (used : Fin N → Bool) (i : Fin N) (b : Bool) (k : Nat) :
    usedFrom (Function.update used i b) k + (if k ≤ i.val ∧ used i then 1 else 0) =
      usedFrom used k + if k ≤ i.val ∧ b then 1 else 0 :=
  sum_update (fun (i : Fin N) (b : Bool) => if k ≤ i.val ∧ b then 1 else 0) used i b

theorem scansFrom_update [DecidableEq ι] (pos : ι → Option Nat) (w : ι) (v : Option Nat) (k : Nat) :
    scansFrom (Function.update pos w v) k +
        (if (pos w).any (fun j => decide (k ≤ j)) then 1 else 0) =
      scansFrom pos k + if v.any (fun j => decide (k ≤ j)) then 1 else 0 :=
  sum_update (fun _ p => if p.any (fun j => decide (k ≤ j)) then 1 else 0) pos w v

/-- A slot in use counts at its own position and not behind it. -/
theorem usedFrom_succ {i : Fin N} (hi : used i = true) : usedFrom used (i.val + 1) + 1 ≤ usedFrom used i.val := by
  have hone : (∑ b : Fin N, if b = i then 1 else 0) = 1 := by simp
  rw [usedFrom, usedFrom, ← hone, ← sum_add_distrib]
  refine sum_le_sum fun b _ => ?_
  by_cases hb : b = i
  · subst hb
    simp [hi]
  · have hne : b.val ≠ i.val := fun h => hb (Fin.ext h)
    by_cases hu : used b = true
    · simp only [hb, hu, and_true, if_false]
      split <;> split <;> omega
    · simp [hb, hu]

theorem fits_init (hused : ∀ i, used i = false) (hpos : ∀ w, pos w = none) : Fits used pos := by
  intro k _
  simp [usedFrom, scansFrom, hused, hpos]

namespace Fits

/-- **A scan does not get past the last slot.** -/
theorem lt (h : Fits used pos) (hw : pos w = some j) : j < N := by
  by_contra hge
  have hN := h N le_rfl
  have hone : (if (pos w).any (fun j => decide (N ≤ j)) then 1 else 0) ≤ scansFrom pos N :=
    single_le_sum (f := fun w => if (pos w).any (fun j => decide (N ≤ j)) then 1 else 0)
      (fun _ _ => Nat.zero_le _) (mem_univ w)
  rw [hw] at hone
  have hle : N ≤ j := Nat.le_of_not_lt hge
  simp [hle] at hone
  omega

/-- A slot is released. -/
theorem release (h : Fits used pos) (i : Fin N) : Fits (Function.update used i false) pos := by
  intro k hk
  have hslot := usedFrom_update used i false k
  have hfit := h k hk
  simp only [Bool.false_eq_true, and_false, if_false] at hslot
  omega

variable [DecidableEq ι]

/-- A scan begins. -/
theorem start (h : Fits used pos) (hw : pos w = none) (hroom : usedFrom used 0 + scansFrom pos 0 < N) :
    Fits used (Function.update pos w (some 0)) := by
  intro k hk
  have hupd := scansFrom_update pos w (some 0) k
  have hfit := h k hk
  rw [hw] at hupd
  simp only [Option.any_none, Bool.false_eq_true, if_false, Option.any_some] at hupd
  cases k with
  | zero =>
    simp at hupd
    omega
  | succ k =>
    simp at hupd
    omega

/-- A scan passes a slot that is in use. -/
theorem pass {i : Fin N} (h : Fits used pos) (hw : pos w = some i.val) (hi : used i = true) :
    Fits used (Function.update pos w (some (i.val + 1))) := by
  intro k hk
  have hupd := scansFrom_update pos w (some (i.val + 1)) k
  have hfit := h k hk
  rw [hw] at hupd
  simp only [Option.any_some, decide_eq_true_eq] at hupd
  by_cases hki : k = i.val + 1
  · -- the scan was counted at the slot it passes, and so was the slot
    subst hki
    have hbefore := h i.val (Nat.le_of_lt i.isLt)
    have hslot := usedFrom_succ hi
    have hle : scansFrom (Function.update pos w (some (i.val + 1))) (i.val + 1) ≤ scansFrom pos i.val := by
      refine sum_le_sum fun b _ => ?_
      by_cases hb : b = w
      · subst hb
        simp [hw]
      · rw [Function.update_of_ne hb]
        cases pos b with
        | none => simp
        | some j =>
          simp only [Option.any_some, decide_eq_true_eq]
          split <;> split <;> omega
    omega
  · split at hupd <;> split at hupd <;> omega

/-- A scan takes the slot it is at. -/
theorem take {i : Fin N} (h : Fits used pos) (hw : pos w = some i.val) (hi : used i = false) :
    Fits (Function.update used i true) (Function.update pos w none) := by
  intro k hk
  have hslot := usedFrom_update used i true k
  have hscan := scansFrom_update pos w none k
  have hfit := h k hk
  rw [hw] at hscan
  simp only [hi, Bool.false_eq_true, and_false, if_false, and_true] at hslot
  simp only [Option.any_some, decide_eq_true_eq, Option.any_none, Bool.false_eq_true, if_false] at hscan
  split at hslot <;> split at hscan <;> omega

end Fits

end SlotScan
