import Munix.Kernel.PagemapMap

/-!
# Munix — what `addrspc_unmap` does

The unmap walk charges its `size` for every entry it looks at: 4 KiB for a
present page, 4 MiB for an absent entry of a page table (`pme_coversz` is
asked about the wrong level), and nothing for an absent directory entry (the
4 GiB that the same mistake yields there do not fit in a `size_t`). Which
pages it reaches is therefore a matter of bookkeeping over the entries that
are there, and the first section states that bookkeeping for any assignment
of translations to page numbers: `InWalk` are the entries the walk can look
at, `sizeLeft` is what the entries before a page leave of the size, and
`Reached` are the pages it gets to.

`addrspcUnmap_spec` shows that the walk removes exactly the reached pages.
-/

namespace Munix

open ByteMem

-- ---------------------------------------------------------------------------
-- The bookkeeping of the walk
-- ---------------------------------------------------------------------------

section Ledger

variable {α : Type} (v : Nat → Option α) (p : Nat) (size : BitVec 32)

/-- Some page below directory entry `d` is translated. -/
def DirPresent (d : Nat) : Prop := ∃ t < 1024, (v (1024 * d + t)).isSome = true

instance (d : Nat) : Decidable (DirPresent v d) := inferInstanceAs (Decidable (∃ t < 1024, _))

/-- The offset at which the walk from page `p` enters the table of directory
entry `d`: the offset of `p`, until a table has been walked to its end. -/
def enterAt (d : Nat) : Nat :=
  if ∃ d' < d, p / 1024 ≤ d' ∧ DirPresent v d' then 0 else p % 1024

/-- The page-table entries the walk from page `p` can look at. -/
def InWalk (x : Nat) : Prop :=
  p / 1024 ≤ x / 1024 ∧ DirPresent v (x / 1024) ∧ enterAt v p (x / 1024) ≤ x % 1024

instance (x : Nat) : Decidable (InWalk v p x) := inferInstanceAs (Decidable (_ ∧ _ ∧ _))

/-- Translated pages on the walk before page `x`. -/
def pagesBefore (x : Nat) : Nat :=
  ((Finset.range x).filter fun y => InWalk v p y ∧ (v y).isSome = true).card

/-- Untranslated pages on the walk before page `x`. -/
def holesBefore (x : Nat) : Nat :=
  ((Finset.range x).filter fun y => InWalk v p y ∧ (v y).isSome = false).card

/-- What the entries before page `x` leave of `size`. -/
def sizeLeft (x : Nat) : BitVec 32 :=
  size - BitVec.ofNat 32 (4096 * pagesBefore v p x + 4194304 * holesBefore v p x)

/-- The size is not used up before page `x`. -/
def SizeLasts (x : Nat) : Prop :=
  size ≠ 0#32 ∧ ∀ y < x, InWalk v p y →
    if (v y).isSome then sizeLeft v p size y ≠ 4096#32 else 4194304#32 < sizeLeft v p size y

/-- The walk gets to page `x`. -/
def Reached (x : Nat) : Prop := InWalk v p x ∧ SizeLasts v p size x

variable {v p size}

theorem enterAt_start : enterAt v p (p / 1024) = p % 1024 := by
  unfold enterAt
  rw [if_neg]
  rintro ⟨d, hlt, hle, -⟩
  omega

theorem enterAt_lt (d : Nat) : enterAt v p d < 1024 := by
  unfold enterAt
  split <;> omega

theorem enterAt_succ_present {d : Nat} (hd : p / 1024 ≤ d) (h : DirPresent v d) :
    enterAt v p (d + 1) = 0 := by
  unfold enterAt
  exact if_pos ⟨d, by omega, hd, h⟩

theorem enterAt_succ_absent {d : Nat} (h : ¬ DirPresent v d) :
    enterAt v p (d + 1) = enterAt v p d := by
  have hiff : (∃ d' < d + 1, p / 1024 ≤ d' ∧ DirPresent v d') ↔
      ∃ d' < d, p / 1024 ≤ d' ∧ DirPresent v d' := by
    constructor
    · rintro ⟨d', hlt, hle, hp⟩
      rcases Nat.lt_succ_iff_lt_or_eq.mp hlt with hlt | rfl
      · exact ⟨d', hlt, hle, hp⟩
      · exact absurd hp h
    · rintro ⟨d', hlt, hle, hp⟩
      exact ⟨d', by omega, hle, hp⟩
  unfold enterAt
  simp only [hiff]

theorem pagesBefore_succ (x : Nat) : pagesBefore v p (x + 1) =
    pagesBefore v p x + if InWalk v p x ∧ (v x).isSome = true then 1 else 0 := by
  unfold pagesBefore
  rw [Finset.range_add_one, Finset.filter_insert]
  split <;> simp

theorem holesBefore_succ (x : Nat) : holesBefore v p (x + 1) =
    holesBefore v p x + if InWalk v p x ∧ (v x).isSome = false then 1 else 0 := by
  unfold holesBefore
  rw [Finset.range_add_one, Finset.filter_insert]
  split <;> simp

theorem sizeLeft_succ_page {x : Nat} (hx : InWalk v p x) (hv : (v x).isSome = true) :
    sizeLeft v p size (x + 1) = sizeLeft v p size x - 4096#32 := by
  have hp : pagesBefore v p (x + 1) = pagesBefore v p x + 1 := by
    rw [pagesBefore_succ, if_pos ⟨hx, hv⟩]
  have hh : holesBefore v p (x + 1) = holesBefore v p x := by
    rw [holesBefore_succ, if_neg (by simp [hv]), Nat.add_zero]
  rw [sizeLeft, sizeLeft, hp, hh]
  bv_omega

theorem sizeLeft_succ_hole {x : Nat} (hx : InWalk v p x) (hv : (v x).isSome = false) :
    sizeLeft v p size (x + 1) = sizeLeft v p size x - 4194304#32 := by
  have hp : pagesBefore v p (x + 1) = pagesBefore v p x := by
    rw [pagesBefore_succ, if_neg (by simp [hv]), Nat.add_zero]
  have hh : holesBefore v p (x + 1) = holesBefore v p x + 1 := by
    rw [holesBefore_succ, if_pos ⟨hx, hv⟩]
  rw [sizeLeft, sizeLeft, hp, hh]
  bv_omega

theorem sizeLeft_succ_skip {x : Nat} (hx : ¬ InWalk v p x) :
    sizeLeft v p size (x + 1) = sizeLeft v p size x := by
  simp [sizeLeft, pagesBefore_succ, holesBefore_succ, hx]

theorem sizeLasts_succ {x : Nat} : SizeLasts v p size (x + 1) ↔ SizeLasts v p size x ∧
    (InWalk v p x →
      if (v x).isSome then sizeLeft v p size x ≠ 4096#32 else 4194304#32 < sizeLeft v p size x) := by
  unfold SizeLasts
  rw [and_assoc]
  apply and_congr_right
  intro _
  constructor
  · intro h
    exact ⟨fun y hy => h y (by omega), h x (by omega)⟩
  · rintro ⟨h, hx⟩ y hy
    rcases Nat.lt_succ_iff_lt_or_eq.mp hy with hlt | rfl
    · exact h y hlt
    · exact hx

theorem SizeLasts.mono {x y : Nat} (h : SizeLasts v p size y) (hxy : x ≤ y) :
    SizeLasts v p size x :=
  ⟨h.1, fun z hz => h.2 z (by omega)⟩

/-- The walk stands at page `c` with `left` bytes to go: either it is still
alive and `left` is what the ledger says, or the size is used up. -/
def LedgerAt (v : Nat → Option α) (p : Nat) (size : BitVec 32) (c : Nat) (left : BitVec 32) : Prop :=
  if left = 0#32 then ∀ x, c ≤ x → ¬ Reached v p size x
  else SizeLasts v p size c ∧ sizeLeft v p size c = left

/-- Pages off the walk are passed for free. -/
theorem LedgerAt.skip {c c' : Nat} {left : BitVec 32} (h : LedgerAt v p size c left) (hc : c ≤ c')
    (hskip : ∀ x, c ≤ x → x < c' → ¬ InWalk v p x) : LedgerAt v p size c' left := by
  induction c', hc using Nat.le_induction with
  | base => exact h
  | succ c' hc ih =>
    have hprev := ih fun x hx hx' => hskip x hx (by omega)
    have hout := hskip c' hc (by omega)
    unfold LedgerAt at hprev ⊢
    split at hprev
    · rename_i h0
      rw [if_pos h0]
      exact fun x hx => hprev x (by omega)
    · rename_i h0
      rw [if_neg h0, sizeLasts_succ, sizeLeft_succ_skip hout]
      exact ⟨⟨hprev.1, fun h => absurd h hout⟩, hprev.2⟩

/-- A translated page costs 4 KiB. -/
theorem LedgerAt.page {c : Nat} {left : BitVec 32} (h : LedgerAt v p size c left) (h0 : left ≠ 0#32)
    (hc : InWalk v p c) (hv : (v c).isSome = true) :
    LedgerAt v p size (c + 1) (left - 4096#32) := by
  unfold LedgerAt at h ⊢
  rw [if_neg h0] at h
  obtain ⟨hlive, rfl⟩ := h
  split
  · rename_i hz
    intro x hx hr
    have hx' := (sizeLasts_succ.mp (hr.2.mono hx)).2 hc
    rw [if_pos hv] at hx'
    exact hx' (by bv_omega)
  · rename_i hz
    refine ⟨sizeLasts_succ.mpr ⟨hlive, fun _ => ?_⟩, sizeLeft_succ_page hc hv⟩
    rw [if_pos hv]
    intro heq
    exact hz (by rw [heq]; decide)

/-- An untranslated one in a present table costs 4 MiB, or all that is left. -/
theorem LedgerAt.hole {c : Nat} {left : BitVec 32} (h : LedgerAt v p size c left) (h0 : left ≠ 0#32)
    (hc : InWalk v p c) (hv : (v c).isSome = false) :
    LedgerAt v p size (c + 1) (left - minWord 4194304#32 left) := by
  unfold LedgerAt at h ⊢
  rw [if_neg h0] at h
  obtain ⟨hlive, rfl⟩ := h
  by_cases hle : 4194304#32 < sizeLeft v p size c
  · have hmin : minWord 4194304#32 (sizeLeft v p size c) = 4194304#32 := by
      rw [minWord, if_pos (by bv_omega)]
    rw [hmin, if_neg (by bv_omega)]
    refine ⟨sizeLasts_succ.mpr ⟨hlive, fun _ => ?_⟩, sizeLeft_succ_hole hc hv⟩
    rw [if_neg (by simp [hv])]
    exact hle
  · have hz : sizeLeft v p size c - minWord 4194304#32 (sizeLeft v p size c) = 0#32 := by
      unfold minWord
      split <;> bv_omega
    rw [if_pos hz]
    intro x hx hr
    have hx' := (sizeLasts_succ.mp (hr.2.mono hx)).2 hc
    rw [if_neg (by simp [hv])] at hx'
    exact hle hx'

end Ledger

-- ---------------------------------------------------------------------------
-- The effect of unmapping
-- ---------------------------------------------------------------------------

/-- Between `st` and `st'` exactly the pages in `gone` of space `s` lost their
translation, and no table was added. -/
structure UnmapTo (gone : Nat → Prop) (st st' : PmState) (s : Nat) : Prop where
  inv    : PmInv st'
  roots  : st'.roots = st.roots
  shrink : ∀ e, st'.Present e → st.Present e
  lost   : ∀ x, x < 2 ^ 20 → gone x → st'.view s x = none
  kept   : ∀ x, x < 2 ^ 20 → ¬ gone x → st'.view s x = st.view s x
  other  : ∀ s' x, s' ≠ s → x < 2 ^ 20 → st'.view s' x = st.view s' x
  keep   : ∀ e i, e.space ≠ s → (st'.Designates e i ↔ st.Designates e i)
  leaked : ∀ i, st'.Leaked i ↔ st.Leaked i

namespace UnmapTo

variable {gone gone' : Nat → Prop} {st st₁ st₂ : PmState} {s : Nat}

theorem of_same (hinv : PmInv st) (h : SameTables st st₁)
    (hnone : ∀ x, x < 2 ^ 20 → gone x → st.view s x = none) : UnmapTo gone st st₁ s where
  inv := h.inv hinv
  roots := h.roots
  shrink e he := (h.present e).mp he
  lost x hx hg := by rw [h.view, hnone x hx hg]
  kept x _ _ := h.view s x
  other s' x _ _ := h.view s' x
  keep e i _ := h.designates e i
  leaked _ := Lost.congr_iff h.designates h.allocated

theorem refl (hinv : PmInv st) (hnone : ∀ x, x < 2 ^ 20 → gone x → st.view s x = none) :
    UnmapTo gone st st s :=
  of_same hinv ⟨rfl, rfl, fun _ => rfl⟩ hnone

theorem trans {gone₂ : Nat → Prop} (h₁ : UnmapTo gone st st₁ s) (h₂ : UnmapTo gone' st₁ st₂ s)
    (hg : ∀ x, x < 2 ^ 20 → (gone₂ x ↔ gone x ∨ gone' x)) : UnmapTo gone₂ st st₂ s where
  inv := h₂.inv
  roots := h₂.roots.trans h₁.roots
  shrink e he := h₁.shrink e (h₂.shrink e he)
  lost := by
    intro x hx hgone
    by_cases hx' : gone' x
    · exact h₂.lost x hx hx'
    · rw [h₂.kept x hx hx']
      exact h₁.lost x hx (((hg x hx).mp hgone).resolve_right hx')
  kept := by
    intro x hx hkept
    rw [hg x hx, not_or] at hkept
    rw [h₂.kept x hx hkept.2, h₁.kept x hx hkept.1]
  other s' x hs hx := (h₂.other s' x hs hx).trans (h₁.other s' x hs hx)
  keep e i he := (h₂.keep e i he).trans (h₁.keep e i he)
  leaked i := (h₂.leaked i).trans (h₁.leaked i)

theorem same_right (h : UnmapTo gone st st₁ s) (hs : SameTables st₁ st₂) :
    UnmapTo gone st st₂ s :=
  trans h (@of_same (fun _ => False) _ _ _ h.inv hs fun _ _ hf => hf.elim) fun _ _ => by simp

theorem same_left (hinv : PmInv st) (hs : SameTables st st₁) (h : UnmapTo gone st₁ st₂ s) :
    UnmapTo gone st st₂ s :=
  trans (@of_same (fun _ => False) _ _ _ hinv hs fun _ _ hf => hf.elim) h fun _ _ => by simp

end UnmapTo

-- ---------------------------------------------------------------------------
-- Level 2: page-table entries
-- ---------------------------------------------------------------------------

theorem pmeCoversz_page : pmeCoversz 3 = 4096#32 := by
  rw [pmeCoversz, dif_pos (by decide)]
  decide

/-- The size of a whole page table, charged for a single absent page. -/
theorem pmeCoversz_pgtbl : pmeCoversz 2 = 4194304#32 := by
  rw [pmeCoversz, dif_neg (by decide), pmeCoversz_page]
  decide

/-- 4 GiB do not fit: an absent table costs nothing. -/
theorem pmeCoversz_pgdir : pmeCoversz 1 = 0#32 := by
  rw [pmeCoversz, dif_neg (by decide), pmeCoversz_pgtbl]
  decide

theorem pmeIspresent_clear (pme : Pme) {lvl : Nat} (hl : lvl ≠ 0) :
    pmeIspresent (pme &&& ~~~PME_PRESENT) lvl = false := by
  rw [pmeIspresent_inner _ hl, BitVec.getLsbD_and,
    show (~~~PME_PRESENT : BitVec 32).getLsbD 0 = false by decide, Bool.and_false]

theorem addrspcUnmapRecursive_absent {st : PmState} {lvl : Nat} {entry : PmePtr} (cur : UnmapCursor)
    (h : pmeIspresent (st.pme entry) lvl = false) :
    addrspcUnmapRecursive lvl entry cur st =
      some (0, { cur with size := cur.size - minWord (pmeCoversz lvl) cur.size }, st) := by
  rw [addrspcUnmapRecursive, h]
  rfl

theorem addrspcUnmapRecursive_page {st : PmState} {entry : PmePtr} (cur : UnmapCursor)
    (h : pmeIspresent (st.pme entry) 2 = true) :
    addrspcUnmapRecursive 2 entry cur st = some (0, { cur with size := cur.size - PAGESZ },
      st.setPme entry (st.pme entry &&& ~~~PME_PRESENT)) := by
  rw [addrspcUnmapRecursive, h, if_neg (by decide), dif_pos (by decide)]

/-- An entry that points to a table: the loop over the table, and then the
table is freed if nothing in it is present. -/
theorem addrspcUnmapRecursive_table {st st₂ : PmState} (lvl : Nat) {entry : PmePtr}
    {j : Fin PHYSPAGES_MAX} {cur cur' : UnmapCursor} (hpres : pmeIspresent (st.pme entry) lvl = true)
    (hlvl : ¬ (pmLvl (lvl + 1)).isPage = true) (hbits : 1 <<< (pmLvl (lvl + 1)).idxBits = 1024)
    (hfind : physpageFind (pmePaddr (st.pme entry)) = some j)
    (hal : (st.physpages j).paddr = pageAddr j)
    (hloop : unmapLoop (addrspcUnmapRecursive (lvl + 1)) (lvl + 1) 1024 (pageAddr j) 1024 cur
      (physpageAccess st j).2 = some (0, cur', st₂)) :
    addrspcUnmapRecursive lvl entry cur st = some (0, cur',
      if tblEmpty st₂ (lvl + 1) 1024 (pageAddr j) then
        physpageFree ((physpageClose st₂ j).setPme entry
          ((physpageClose st₂ j).pme entry &&& ~~~PME_PRESENT)) j
      else physpageClose st₂ j) := by
  have htbl : (physpageAccess st j).1 = pageAddr j := hal
  rw [addrspcUnmapRecursive, hpres, if_neg (by decide), dif_neg hlvl, hfind]
  dsimp only
  rw [htbl, if_neg (pageAddr_ne_zero j), hbits, hloop]
  dsimp only
  rw [if_neg (by decide)]
  split <;> rfl

/-- Unmapping one page. -/
theorem unmapTo_setPte {st : PmState} {s d t : Nat} {j : Fin PHYSPAGES_MAX} (hinv : PmInv st)
    (hj : st.Designates (.pde s d) j) (ht : t < 1024) :
    UnmapTo (fun x => x = 1024 * d + t) st
      (st.setTbl j t (st.pte s d t &&& ~~~PME_PRESENT)) s := by
  set v := st.pte s d t &&& ~~~PME_PRESENT with hv
  have habs : pmeIspresent v 2 = false := pmeIspresent_clear _ (by decide)
  have hv' : pmeIspresent v 2 = true → (pmePerm (st.pde s d)).and (pmePerm v) = pmePerm v := by
    intro h
    simp [habs] at h
  refine ⟨hinv.setPte v hj ht hv', rfl, ?_, ?_, ?_, ?_,
    fun e i _ => setTbl_designates_of_pte v hinv hj ht e i,
    fun _ => Lost.congr_iff (setTbl_designates_of_pte v hinv hj ht) fun _ => Iff.rfl⟩
  · intro e he
    exact (setTbl_present_of_pte v hinv hj ht e).mp he
  · intro x hx hxe
    rw [view_setPte v hinv hj ht hv' hx, if_pos ⟨rfl, hxe⟩, habs]
    rfl
  · intro x hx hne
    rw [view_setPte v hinv hj ht hv' hx, if_neg fun h => hne h.2]
  · intro s' x hs hx
    rw [view_setPte v hinv hj ht hv' hx, if_neg fun h => hs h.1]

/-- Under a present directory entry a page is translated when its entry is
present. -/
theorem isSome_view {st : PmState} (hinv : PmInv st) {s d t : Nat} (hp : st.Present (.pde s d))
    (ht : t < 1024) :
    (st.view s (1024 * d + t)).isSome = pmeIspresent (st.pte s d t) 2 := by
  have hd : (1024 * d + t) / 1024 = d := by omega
  have hm : (1024 * d + t) % 1024 = t := by omega
  rw [view_eq_of_present hinv (by rwa [hd]), hd, hm]
  split
  · rename_i h
    rw [h]
    rfl
  · rename_i h
    rw [Bool.not_eq_true] at h
    rw [h]
    rfl

-- ---------------------------------------------------------------------------
-- Freeing an empty page table
-- ---------------------------------------------------------------------------

/-- A directory entry whose page table is empty is cleared and the table's
page goes back to the pool. -/
theorem release_pde {st : PmState} {s₀ d₀ : Nat} {r j : Fin PHYSPAGES_MAX} (hinv : PmInv st)
    (hr : st.Designates (.root s₀) r) (hj : st.Designates (.pde s₀ d₀) j)
    (hempty : ∀ t, t < 1024 → pmeIspresent (st.pte s₀ d₀ t) 2 = false) :
    UnmapTo (fun _ => False) st
        (physpageFree (st.setTbl r d₀ (st.pde s₀ d₀ &&& ~~~PME_PRESENT)) j) s₀ ∧
      ¬ (physpageFree (st.setTbl r d₀ (st.pde s₀ d₀ &&& ~~~PME_PRESENT)) j).Present (.pde s₀ d₀) := by
  set v := st.pde s₀ d₀ &&& ~~~PME_PRESENT with hv
  set st' := physpageFree (st.setTbl r d₀ v) j with hst'
  have hd₀ := hj.1.2.1
  have hclear : pmeIspresent v 1 = false := pmeIspresent_clear _ (by decide)
  have hpde : ∀ s d, st.Present (.root s) → d < 1024 →
      st'.pde s d = if s = s₀ ∧ d = d₀ then v else st.pde s d :=
    fun s d hs hd => setTbl_pde_of_root v hinv hr hd₀ hs hd
  have hpresent : ∀ e, st'.Present e ↔ st.Present e ∧ e ≠ .pde s₀ d₀ := by
    rintro (s | ⟨s, d⟩)
    · exact (and_iff_left (by simp)).symm
    · constructor
      · rintro ⟨hs, hd, hp⟩
        rw [hpde s d hs hd] at hp
        split at hp
        · simp [hclear] at hp
        · rename_i hne
          exact ⟨⟨hs, hd, hp⟩, by simpa using hne⟩
      · rintro ⟨⟨hs, hd, hp⟩, hne⟩
        exact ⟨hs, hd, by rwa [hpde s d hs hd, if_neg (by simpa using hne)]⟩
  have hdes : ∀ e i, st'.Designates e i ↔ st.Designates e i ∧ e ≠ .pde s₀ d₀ := by
    intro e i
    unfold PmState.Designates
    rw [hpresent, and_right_comm]
    apply and_congr_left
    intro hne
    apply and_congr_right
    intro he
    cases e with
    | root s => rfl
    | pde s d =>
      have hne' : ¬ (s = s₀ ∧ d = d₀) := by simpa using hne
      simp only [PmState.entry, hpde s d he.1 he.2.1, if_neg hne']
  have hpte : ∀ s d t, st.Present (.pde s d) → (.pde s d) ≠ TableRef.pde s₀ d₀ → t < 1024 →
      st'.pte s d t = st.pte s d t := by
    intro s d t hp hne ht
    exact setTbl_pte_of_root v hinv hr hd₀ hp ht fun h => absurd (by rw [h.1, h.2]) hne
  have hpaddr : ∀ i, (st'.physpages i).paddr = if i = j then 0#32 else (st.physpages i).paddr := by
    intro i
    by_cases hi : i = j
    · subst hi; simp [hst', physpageFree, PmState.setPhyspage]
    · simp [hst', physpageFree, PmState.setPhyspage, hi, PmState.setTbl, PmState.setPme]
  have halloc : ∀ i, st'.Allocated i ↔ st.Allocated i ∧ i ≠ j := by
    intro i
    unfold PmState.Allocated
    rw [hpaddr]
    split <;> simp_all
  have hinv' : PmInv st' := {
    owned := hinv.owned.release hj hpresent hdes halloc
    pool := by
      intro i hi
      obtain ⟨hi, hne⟩ := (halloc i).mp hi
      rw [hpaddr, if_neg hne, hinv.pool i hi]
    perm := by
      intro s d t hp ht hpt
      obtain ⟨hp, hne⟩ := (hpresent _).mp hp
      rw [hpte s d t hp hne ht] at hpt ⊢
      rw [hpde s d hp.1 hp.2.1, if_neg (by simpa using hne)]
      exact hinv.perm s d t hp ht hpt }
  have hview : ∀ s x, x < 2 ^ 20 → st'.view s x = st.view s x := by
    intro s x hx
    by_cases hp : st.Present (.pde s (x / 1024))
    · by_cases he : (.pde s (x / 1024)) = TableRef.pde s₀ d₀
      · rw [view_eq_none_of_absent hx fun hq => ((hpresent _).mp hq).2 he, view_eq_of_present hinv hp]
        obtain ⟨rfl, rfl⟩ : s = s₀ ∧ x / 1024 = d₀ := by simpa using he
        rw [hempty _ (Nat.mod_lt _ (by decide))]
        rfl
      · rw [view_eq_of_present hinv' ((hpresent _).mpr ⟨hp, he⟩), view_eq_of_present hinv hp,
          hpte s _ _ hp he (Nat.mod_lt _ (by decide))]
    · rw [view_eq_none_of_absent hx hp, view_eq_none_of_absent hx fun hq => hp ((hpresent _).mp hq).1]
  refine ⟨⟨hinv', rfl, fun e he => ((hpresent e).mp he).1, fun _ _ hf => hf.elim,
    fun x hx _ => hview s₀ x hx, fun s' x _ hx => hview s' x hx,
    ?_, fun _ => Lost.release_iff hj (fun i hi => Designates.functional hi hj) hdes halloc⟩, ?_⟩
  · intro e i he
    rw [hdes]
    refine and_iff_left ?_
    rintro rfl
    exact he rfl
  · intro h
    exact ((hpresent _).mp h).2 rfl

section Walk

variable {v : Nat → Option (Addr × Perm)} {p : Nat} {size : BitVec 32} {s : Nat}

/-- The loop over one page table, which follows the ledger of the original
translations `v`. -/
theorem unmapLoop_pgtbl {d : Nat} {j : Fin PHYSPAGES_MAX} (hd : d < 1024)
    (hwalk : ∀ t, enterAt v p d ≤ t → t < 1024 → InWalk v p (1024 * d + t)) :
    ∀ (n : Nat) (cur : UnmapCursor) (st : PmState), PmInv st → st.Designates (.pde s d) j →
      enterAt v p d ≤ cur.offsets 2 → cur.offsets 2 < 1024 → 1024 ≤ n + cur.offsets 2 →
      (∀ x, 1024 * d + cur.offsets 2 ≤ x → x < 1024 * (d + 1) → st.view s x = v x) →
      LedgerAt v p size (1024 * d + cur.offsets 2) cur.size →
      ∃ cur' st', unmapLoop (addrspcUnmapRecursive 2) 2 1024 (pageAddr j) n cur st =
          some (0, cur', st') ∧
        UnmapTo (fun x => 1024 * d + cur.offsets 2 ≤ x ∧ x < 1024 * (d + 1) ∧ Reached v p size x)
          st st' s ∧
        st'.Designates (.pde s d) j ∧
        cur'.offsets 1 = cur.offsets 1 ∧ (cur'.size ≠ 0#32 → cur'.offsets 2 = 0) ∧
        LedgerAt v p size (1024 * (d + 1)) cur'.size := by
  intro n
  induction n with
  | zero => intro cur st _ _ _ ht hn; omega
  | succ n ih =>
    intro cur st hinv hj hent ht hn hview hled
    by_cases h0 : cur.size = 0#32
    · -- the size is used up: nothing from here on is reached
      have hstop : ∀ x, 1024 * d + cur.offsets 2 ≤ x → ¬ Reached v p size x := by
        rwa [LedgerAt, if_pos h0] at hled
      refine ⟨cur, st, by rw [unmapLoop, if_pos h0], ?_, hj, rfl, fun h => absurd h0 h, ?_⟩
      · exact UnmapTo.refl hinv fun x _ hx => absurd hx.2.2 (hstop x hx.1)
      · rw [LedgerAt, if_pos h0]
        exact fun x hx => hstop x (by omega)
    set t := cur.offsets 2 with hteq
    set c := 1024 * d + t with hc
    have hin : InWalk v p c := hwalk t hent ht
    have hlive : SizeLasts v p size c := by
      rw [LedgerAt, if_neg h0] at hled
      exact hled.1
    have hpme : st.pme (.word (tblEntry (pageAddr j) t)) = st.pte s d t := (pte_eq_tbl hj t).symm
    have hsome : (v c).isSome = pmeIspresent (st.pte s d t) 2 := by
      rw [← hview c (le_refl c) (by omega), isSome_view hinv hj.1 ht]
    -- one entry: the page at `c` goes, and the ledger moves on
    obtain ⟨size₁, st₁, hstep, hun, hj₁, hled₁⟩ : ∃ size₁ st₁,
        addrspcUnmapRecursive 2 (.word (tblEntry (pageAddr j) t)) cur st =
          some (0, { cur with size := size₁ }, st₁) ∧
        UnmapTo (fun x => x = c) st st₁ s ∧ st₁.Designates (.pde s d) j ∧
        LedgerAt v p size (c + 1) size₁ := by
      cases hpres : pmeIspresent (st.pte s d t) 2 with
      | true =>
        rw [hpres] at hsome
        refine ⟨cur.size - PAGESZ, st.setTbl j t (st.pte s d t &&& ~~~PME_PRESENT), ?_,
          unmapTo_setPte hinv hj ht, (setTbl_designates_of_pte _ hinv hj ht _ _).mpr hj,
          hled.page h0 hin hsome⟩
        rw [addrspcUnmapRecursive_page cur (by rw [hpme, hpres]), hpme]
        rfl
      | false =>
        rw [hpres] at hsome
        refine ⟨cur.size - minWord 4194304#32 cur.size, st, ?_, ?_, hj, hled.hole h0 hin hsome⟩
        · rw [addrspcUnmapRecursive_absent cur (by rw [hpme, hpres]), pmeCoversz_pgtbl]
        · refine UnmapTo.refl hinv fun x _ hx => ?_
          rw [hx, hview c (le_refl c) (by omega)]
          simpa using hsome
    by_cases hend : t + 1 = 1024
    · -- last entry of the table
      have hnext : c + 1 = 1024 * (d + 1) := by omega
      refine ⟨⟨Function.update cur.offsets 2 0, size₁⟩, st₁,
        by rw [unmapLoop, if_neg h0, hstep]; simp [← hteq, hend], ?_, hj₁, by simp, by simp,
        by rwa [← hnext]⟩
      refine UnmapTo.trans hun (@UnmapTo.refl (fun _ => False) _ _ hun.inv fun _ _ hf => hf.elim) ?_
      intro x hx
      constructor
      · rintro ⟨hlo, hhi, -⟩
        exact .inl (by omega)
      · rintro (rfl | hf)
        · exact ⟨le_refl _, by omega, hin, hlive⟩
        · exact hf.elim
    · obtain ⟨cur', st', hloop, hun', hj', ho1, ho2, hled'⟩ := ih
        ⟨Function.update cur.offsets 2 (t + 1), size₁⟩ st₁ hun.inv hj₁ (by simp; omega)
        (by simp; omega) (by simp; omega)
        (by
          intro x hlo hhi
          simp only [Function.update_self] at hlo
          rw [hun.kept x (by omega) (by omega), hview x (by omega) hhi])
        (by simpa [hc, Nat.add_assoc] using hled₁)
      simp only [Function.update_self, ne_eq, Nat.reduceEqDiff, not_false_eq_true,
        Function.update_of_ne] at hun' ho1
      refine ⟨cur', st', by rw [unmapLoop, if_neg h0, hstep]; simpa [← hteq, hend] using hloop,
        ?_, hj', ho1, ho2, hled'⟩
      refine UnmapTo.trans hun hun' ?_
      intro x hx
      constructor
      · rintro ⟨hlo, hhi, hr⟩
        by_cases hxc : x = c
        · exact .inl hxc
        · exact .inr ⟨by omega, hhi, hr⟩
      · rintro (rfl | ⟨hlo, hhi, hr⟩)
        · exact ⟨le_refl _, by omega, hin, hlive⟩
        · exact ⟨by omega, hhi, hr⟩

/-- Every page table holds a translated page. -/
def PmState.Filled (st : PmState) : Prop :=
  ∀ s d, st.Present (.pde s d) → DirPresent (st.view s) d

theorem SameTables.filled {st st' : PmState} (h : SameTables st st') (hf : st.Filled) :
    st'.Filled := by
  intro s' d hp
  obtain ⟨t, ht, hsome⟩ := hf s' d ((h.present _).mp hp)
  exact ⟨t, ht, by rwa [h.view]⟩

theorem tblEmpty_iff (st : PmState) (lvl : Nat) (tbl : Addr) :
    tblEmpty st lvl 1024 tbl = true ↔
      ∀ t, t < 1024 → pmeIspresent (load32 st.mem (tblEntry tbl t)) lvl = false := by
  simp [tblEmpty]

/-- Unmapping in the tables of one directory entry keeps the other tables as
they were. -/
theorem UnmapTo.dirPresent_of_ne {st st' : PmState} {d : Nat} {gone : Nat → Prop}
    (h : UnmapTo gone st st' s) (hfill : st.Filled)
    (hgone : ∀ x, gone x → x / 1024 = d) {s' d' : Nat} (hp : st'.Present (.pde s' d'))
    (hne : ¬ (s' = s ∧ d' = d)) : DirPresent (st'.view s') d' := by
  obtain ⟨t, ht, hsome⟩ := hfill s' d' (h.shrink _ hp)
  have hd' : d' < 1024 := hp.2.1
  refine ⟨t, ht, ?_⟩
  by_cases hs : s' = s
  · subst hs
    rw [h.kept _ (by omega)]
    · exact hsome
    · intro hg
      exact hne ⟨rfl, by have := hgone _ hg; omega⟩
  · rw [h.other s' _ hs (by omega)]
    exact hsome

/-- Unmapping below one directory entry. -/
theorem addrspcUnmapRecursive_pgdir {st : PmState} {d : Nat} {r : Fin PHYSPAGES_MAX}
    {cur : UnmapCursor} (hinv : PmInv st) (hfill : st.Filled) (hr : st.Designates (.root s) r)
    (hd : d < 1024) (hpd : p / 1024 ≤ d) (hent : cur.offsets 2 = enterAt v p d)
    (hview : ∀ x, 1024 * d ≤ x → x < 2 ^ 20 → st.view s x = v x)
    (hled : LedgerAt v p size (1024 * d) cur.size) :
    ∃ cur' st', addrspcUnmapRecursive 1 (.word (tblEntry (pageAddr r) d)) cur st =
        some (0, cur', st') ∧
      UnmapTo (fun x => x / 1024 = d ∧ Reached v p size x) st st' s ∧ st'.Filled ∧
      cur'.offsets 1 = cur.offsets 1 ∧
      (cur'.size ≠ 0#32 → cur'.offsets 2 = enterAt v p (d + 1)) ∧
      LedgerAt v p size (1024 * (d + 1)) cur'.size := by
  have hpme : st.pme (.word (tblEntry (pageAddr r) d)) = st.pde s d := (pde_eq_tbl hr d).symm
  cases hpres : pmeIspresent (st.pde s d) 1 with
  | false =>
    -- no table: nothing is charged and nothing happens
    have habs : ¬ DirPresent v d := by
      rintro ⟨t, ht, hsome⟩
      have hnone : st.view s (1024 * d + t) = none := by
        apply view_eq_none_of_absent (by omega)
        rw [show (1024 * d + t) / 1024 = d by omega]
        intro h
        simp [h.2.2] at hpres
      rw [← hview _ (by omega) (by omega), hnone] at hsome
      simp at hsome
    have hoff : ∀ x, x / 1024 = d → ¬ InWalk v p x := fun x hx h => habs (hx ▸ h.2.1)
    refine ⟨cur, st, ?_, UnmapTo.refl hinv fun x _ hx => absurd hx.2.1 (hoff x hx.1), hfill, rfl,
      fun _ => hent.trans (enterAt_succ_absent habs).symm, hled.skip (by omega) ?_⟩
    · rw [addrspcUnmapRecursive_absent cur (by rw [hpme, hpres]), pmeCoversz_pgdir,
        minWord_zero, BitVec.sub_zero]
    · exact fun x hlo hhi => hoff x (by omega)
  | true =>
    have hp : st.Present (.pde s d) := ⟨hr.1, hd, hpres⟩
    obtain ⟨j, hal, hj⟩ := hinv.owned.allocated _ hp
    have hdir : DirPresent v d := by
      obtain ⟨t, ht, hsome⟩ := hfill s d hp
      exact ⟨t, ht, by rwa [← hview _ (by omega) (by omega)]⟩
    have hwalk : ∀ t, enterAt v p d ≤ t → t < 1024 → InWalk v p (1024 * d + t) := by
      intro t hent ht
      rw [InWalk, show (1024 * d + t) / 1024 = d by omega, show (1024 * d + t) % 1024 = t by omega]
      exact ⟨hpd, hdir, hent⟩
    have hlt := enterAt_lt (v := v) (p := p) d
    have hsame := physpageAccess_same st j
    obtain ⟨cur', st₂, hloop, hun, hj₂, ho1, ho2, hled'⟩ := unmapLoop_pgtbl hd hwalk 1024 cur
      (physpageAccess st j).2 (hsame.inv hinv) ((hsame.designates _ _).mpr hj) (by omega) (by omega)
      (by omega)
      (fun x hlo hhi => by rw [hsame.view]; exact hview x (by omega) (by omega))
      (by
        rw [hent]
        refine hled.skip (by omega) fun x hlo hhi h => ?_
        have hx : x / 1024 = d := by omega
        have := h.2.2
        rw [hx] at this
        omega)
    have hgone : ∀ x, x < 2 ^ 20 → (x / 1024 = d ∧ Reached v p size x ↔
        1024 * d + cur.offsets 2 ≤ x ∧ x < 1024 * (d + 1) ∧ Reached v p size x) := by
      intro x _
      constructor
      · rintro ⟨hx, hr⟩
        have := hr.1.2.2
        rw [hx] at this
        exact ⟨by omega, by omega, hr⟩
      · rintro ⟨hlo, hhi, hr⟩
        exact ⟨by omega, hr⟩
    have hun' : UnmapTo (fun x => x / 1024 = d ∧ Reached v p size x) st (physpageClose st₂ j) s := by
      refine UnmapTo.trans (UnmapTo.same_left hinv hsame hun)
        (@UnmapTo.of_same (fun _ => False) _ _ _ hun.inv (physpageClose_same st₂ j)
          fun _ _ hf => hf.elim) ?_
      intro x hx
      rw [hgone x hx, or_false]
    have hr₂ : (physpageClose st₂ j).Designates (.root s) r :=
      ⟨by
        change pmeIspresent ((physpageClose st₂ j).roots s) 0 = true
        rw [hun'.roots]
        exact hr.1, by
        change pmePaddr ((physpageClose st₂ j).roots s) = pageAddr r
        rw [hun'.roots]
        exact hr.2⟩
    have hj₃ : (physpageClose st₂ j).Designates (.pde s d) j :=
      ((physpageClose_same st₂ j).designates _ _).mpr hj₂
    have hfind : physpageFind (pmePaddr (st.pme (.word (tblEntry (pageAddr r) d)))) = some j := by
      rw [hpme, show pmePaddr (st.pde s d) = pageAddr j from hj.2, physpageFind_pageAddr]
    have hrun := addrspcUnmapRecursive_table 1 (by rw [hpme, hpres]) (by decide) (by decide)
      hfind (hinv.pool j hal) hloop
    by_cases hempty : tblEmpty st₂ 2 1024 (pageAddr j) = true
    · -- the table is empty now and is freed
      have hpme₃ : (physpageClose st₂ j).pme (.word (tblEntry (pageAddr r) d)) =
          (physpageClose st₂ j).pde s d := (pde_eq_tbl hr₂ d).symm
      have hnone : ∀ t, t < 1024 → pmeIspresent ((physpageClose st₂ j).pte s d t) 2 = false := by
        intro t ht
        rw [pte_eq_tbl hj₃]
        exact (tblEmpty_iff st₂ 2 (pageAddr j)).mp hempty t ht
      obtain ⟨hrel, habs⟩ := release_pde hun'.inv hr₂ hj₃ hnone
      rw [if_pos hempty, hpme₃] at hrun
      refine ⟨cur', _, hrun, hun'.trans hrel (by simp), ?_, ho1,
        fun h => (ho2 h).trans (enterAt_succ_present hpd hdir).symm, hled'⟩
      intro s' d' hp'
      have hboth : UnmapTo (fun x => x / 1024 = d ∧ Reached v p size x) st _ s :=
        hun'.trans hrel (by simp)
      refine hboth.dirPresent_of_ne hfill (fun x hx => hx.1) hp' ?_
      rintro ⟨rfl, rfl⟩
      exact habs hp'
    · rw [if_neg hempty] at hrun
      refine ⟨cur', _, hrun, hun', ?_, ho1,
        fun h => (ho2 h).trans (enterAt_succ_present hpd hdir).symm, hled'⟩
      intro s' d' hp'
      by_cases hsd : s' = s ∧ d' = d
      · obtain ⟨rfl, rfl⟩ := hsd
        rw [tblEmpty_iff] at hempty
        push Not at hempty
        obtain ⟨t, ht, hpt⟩ := hempty
        refine ⟨t, ht, ?_⟩
        rw [isSome_view hun'.inv hp' ht, pte_eq_tbl hj₃]
        exact (Bool.not_eq_false _).mp hpt
      · exact hun'.dirPresent_of_ne hfill (fun x hx => hx.1) hp' hsd

/-- The loop over the page directory. -/
theorem unmapLoop_pgdir {r : Fin PHYSPAGES_MAX} :
    ∀ (n : Nat) (cur : UnmapCursor) (st : PmState), PmInv st → st.Filled →
      st.Designates (.root s) r → p / 1024 ≤ cur.offsets 1 → cur.offsets 1 < 1024 →
      1024 ≤ n + cur.offsets 1 →
      (cur.size ≠ 0#32 → cur.offsets 2 = enterAt v p (cur.offsets 1)) →
      (∀ x, 1024 * cur.offsets 1 ≤ x → x < 2 ^ 20 → st.view s x = v x) →
      LedgerAt v p size (1024 * cur.offsets 1) cur.size →
      ∃ cur' st', unmapLoop (addrspcUnmapRecursive 1) 1 1024 (pageAddr r) n cur st =
          some (0, cur', st') ∧
        UnmapTo (fun x => 1024 * cur.offsets 1 ≤ x ∧ Reached v p size x) st st' s ∧
        st'.Filled := by
  intro n
  induction n with
  | zero => intro cur st _ _ _ _ hd hn; omega
  | succ n ih =>
    intro cur st hinv hfill hr hpd hd hn hent hview hled
    by_cases h0 : cur.size = 0#32
    · rw [LedgerAt, if_pos h0] at hled
      exact ⟨cur, st, by rw [unmapLoop, if_pos h0],
        UnmapTo.refl hinv fun x _ hx => absurd hx.2 (hled x hx.1), hfill⟩
    set d := cur.offsets 1 with hdeq
    obtain ⟨cur₁, st₁, hstep, hun, hfill₁, ho1, ho2, hled₁⟩ :=
      addrspcUnmapRecursive_pgdir hinv hfill hr hd hpd (hent h0) hview hled
    by_cases hend : d + 1 = 1024
    · -- last directory entry
      refine ⟨⟨Function.update cur₁.offsets 1 0, cur₁.size⟩, st₁,
        by rw [unmapLoop, if_neg h0, hstep]; simp [ho1, ← hdeq, hend], ?_, hfill₁⟩
      refine hun.trans (@UnmapTo.refl (fun _ => False) _ _ hun.inv fun _ _ hf => hf.elim) ?_
      intro x hx
      rw [or_false]
      apply and_congr_left
      intro _
      omega
    · have hr₁ : st₁.Designates (.root s) r := by
        have hroot : st₁.roots s = st.roots s := congrFun hun.roots s
        exact ⟨by rw [PmState.Present, hroot]; exact hr.1, by rw [PmState.entry, hroot]; exact hr.2⟩
      obtain ⟨cur', st', hloop, hun', hfill'⟩ := ih
        ⟨Function.update cur₁.offsets 1 (d + 1), cur₁.size⟩ st₁ hun.inv hfill₁ hr₁ (by simp; omega)
        (by simp; omega) (by simp; omega) (by simpa using ho2)
        (by
          intro x hlo hx
          simp only [Function.update_self] at hlo
          rw [hun.kept x hx (by omega), hview x (by omega) hx])
        (by simpa using hled₁)
      simp only [Function.update_self] at hun'
      refine ⟨cur', st', by rw [unmapLoop, if_neg h0, hstep]; simpa [ho1, ← hdeq, hend] using hloop,
        ?_, hfill'⟩
      refine hun.trans hun' ?_
      intro x hx
      constructor
      · rintro ⟨hlo, hr⟩
        by_cases hxd : x / 1024 = d
        · exact .inl ⟨hxd, hr⟩
        · exact .inr ⟨by omega, hr⟩
      · rintro (⟨hxd, hr⟩ | ⟨hlo, hr⟩)
        · exact ⟨by omega, hr⟩
        · exact ⟨by omega, hr⟩

/-- At the start of the walk nothing has been charged. -/
theorem LedgerAt.start (v : Nat → Option (Addr × Perm)) (p : Nat) (size : BitVec 32) :
    LedgerAt v p size (1024 * (p / 1024)) size := by
  have hzero : LedgerAt v p size 0 size := by
    unfold LedgerAt
    split
    · rename_i h
      exact fun x _ hr => hr.2.1 h
    · rename_i h
      exact ⟨⟨h, fun y hy => absurd hy (Nat.not_lt_zero y)⟩, by
        simp [sizeLeft, pagesBefore, holesBefore]⟩
  refine hzero.skip (Nat.zero_le _) fun x _ hx h => ?_
  have := h.1
  omega

end Walk

-- ---------------------------------------------------------------------------
-- Level 0: the root
-- ---------------------------------------------------------------------------

theorem pmePaddr_clear (pme : Pme) : pmePaddr (pme &&& ~~~PME_PRESENT) = pmePaddr pme := by
  unfold pmePaddr
  rw [BitVec.and_assoc, show (~~~PME_PRESENT &&& ~~~0xfff#32 : BitVec 32) = ~~~0xfff#32 by decide]

/-- The page directory, which is empty, goes back to the pool. -/
def PmState.releaseRoot (st : PmState) (s : Nat) (r : Fin PHYSPAGES_MAX) : PmState :=
  physpageFree (st.setPme (.root s) (st.roots s &&& ~~~PME_PRESENT)) r

/-- Freeing the page directory leaves the root entry as good as it was:
clearing the PRESENT bit does not make it zero, and pages translate as before. -/
theorem release_root {st : PmState} {s : Nat} {r : Fin PHYSPAGES_MAX}
    (hr : st.Designates (.root s) r) :
    (∀ s' x, (st.releaseRoot s r).view s' x = st.view s' x) ∧ ¬ (st.releaseRoot s r).TablesOwned := by
  set st' := st.releaseRoot s r with hst'
  have hpaddr : ∀ s', pmePaddr (st'.roots s') = pmePaddr (st.roots s') := by
    intro s'
    by_cases h : s' = s
    · subst h
      simp [hst', PmState.releaseRoot, physpageFree, PmState.setPhyspage, PmState.setPme, pmePaddr_clear]
    · simp [hst', PmState.releaseRoot, physpageFree, PmState.setPhyspage, PmState.setPme, h]
  have hpres : pmeIspresent (st'.roots s) 0 = true := by
    rw [pmeIspresent_root]
    intro h0
    have hz := hpaddr s
    rw [h0, show pmePaddr (st.roots s) = pageAddr r from hr.2] at hz
    exact pageAddr_ne_zero r (hz.symm.trans (by decide))
  have hpresent : ∀ s', pmeIspresent (st'.roots s') 0 = pmeIspresent (st.roots s') 0 := by
    intro s'
    by_cases h : s' = s
    · subst h
      exact hpres.trans (show pmeIspresent (st.roots s') 0 = true from hr.1).symm
    · simp [hst', PmState.releaseRoot, physpageFree, PmState.setPhyspage, PmState.setPme, h]
  have hpde : ∀ s' d, st'.pde s' d = st.pde s' d := by
    intro s' d
    rw [PmState.pde, hpaddr]
    rfl
  have hpte : ∀ s' d t, st'.pte s' d t = st.pte s' d t := by
    intro s' d t
    rw [PmState.pte, hpde]
    rfl
  refine ⟨?_, ?_⟩
  · intro s' x
    rw [PmState.view, hpresent, hpde, hpte]
    rfl
  · intro hown
    obtain ⟨i, hal, hi⟩ := hown.1.allocated (.root s) hpres
    obtain rfl : i = r := pageAddr_injective (hi.2.symm.trans ((hpaddr s).trans hr.2))
    exact hal (by simp [hst', PmState.releaseRoot, physpageFree, PmState.setPhyspage])

/-- The size the walk starts with. -/
def unmapSize (size : BitVec 32) : BitVec 32 :=
  if size < SIZE_MAX - PAGESZ then alignUp size PAGESZ else size

/-- Some page of the space is left after unmapping `size` bytes from `vaddr`,
or there was no page directory to begin with. -/
def PmState.PageLeft (st : PmState) (s : Nat) (vaddr size : BitVec 32) : Prop :=
  st.roots s = 0#32 ∨ ∃ x < 2 ^ 20, (st.view s x).isSome = true ∧
    ¬ Reached (st.view s) (vaddr.toNat / 4096) (unmapSize size) x

theorem addrspcUnmap_eq (st : PmState) (s : Nat) (vaddr size : BitVec 32) :
    addrspcUnmap st s vaddr size =
      (addrspcUnmapRecursive 0 (.root s) ⟨pmOffsets (alignDown vaddr PAGESZ), unmapSize size⟩ st).map
        fun r => (r.1, r.2.2) := by
  rw [addrspcUnmap, unmapSize]
  split
  next hwalk => rw [hwalk, Option.map_none]
  next hwalk => rw [hwalk, Option.map_some]

/-- The walk of `addrspc_unmap`: exactly the reached pages lose their
translation, and then the page directory is released if no page is left. -/
theorem addrspcUnmap_walk {st : PmState} (hinv : PmInv st) (hfill : st.Filled) (s : Nat)
    (vaddr size : BitVec 32) :
    ∃ st₁, UnmapTo (Reached (st.view s) (vaddr.toNat / 4096) (unmapSize size)) st st₁ s ∧
      st₁.Filled ∧
      ((st.PageLeft s vaddr size ∧ addrspcUnmap st s vaddr size = some (0, st₁)) ∨
        (¬ st.PageLeft s vaddr size ∧ ∃ r, st₁.Designates (.root s) r ∧
          (∀ d, ¬ st₁.Present (.pde s d)) ∧
          addrspcUnmap st s vaddr size = some (0, st₁.releaseRoot s r))) := by
  have hv : (alignDown vaddr PAGESZ).toNat = vaddr.toNat / 4096 * 4096 := alignDown_toNat vaddr
  have hvlt := vaddr.isLt
  set p := vaddr.toNat / 4096 with hp
  set cur : UnmapCursor := ⟨pmOffsets (alignDown vaddr PAGESZ), unmapSize size⟩ with hcur
  have hd : cur.offsets 1 = p / 1024 := by
    simp only [hcur, pmOffsets_pgdir, hv]
    omega
  have ht : cur.offsets 2 = p % 1024 := by
    simp only [hcur, pmOffsets_pgtbl, hv]
    omega
  have hmain : ∀ {cur' : UnmapCursor} {st' : PmState},
      addrspcUnmapRecursive 0 (.root s) cur st = some (0, cur', st') →
      addrspcUnmap st s vaddr size = some (0, st') := by
    intro cur' st' h
    rw [addrspcUnmap_eq, ← hcur, h]
    rfl
  cases hpres : pmeIspresent (st.roots s) 0 with
  | false =>
    have hroot : st.roots s = 0#32 := by simpa [pmeIspresent] using hpres
    have hnone : ∀ x, st.view s x = none := fun x => by rw [PmState.view, hpres]; rfl
    exact ⟨st, UnmapTo.refl hinv fun x _ _ => hnone x, hfill,
      .inl ⟨.inl hroot, hmain (addrspcUnmapRecursive_absent cur hpres)⟩⟩
  | true =>
    obtain ⟨r, hal, hr⟩ := hinv.owned.allocated (.root s) hpres
    have hsame := physpageAccess_same st r
    have hled := LedgerAt.start (st.view s) p (unmapSize size)
    obtain ⟨cur', st₂, hloop, hun, hfill₂⟩ := unmapLoop_pgdir (v := st.view s) (p := p)
      1024 cur (physpageAccess st r).2 (hsame.inv hinv) (hsame.filled hfill)
      ((hsame.designates _ _).mpr hr) (by omega) (by omega) (by omega)
      (fun _ => by rw [ht, hd, enterAt_start]) (fun x _ _ => hsame.view s x) (by rwa [hd])
    have hclose := physpageClose_same st₂ r
    -- the pages that are gone are the reached ones: those before the first table are not
    have hun' : UnmapTo (Reached (st.view s) p (unmapSize size)) st (physpageClose st₂ r) s := by
      refine UnmapTo.trans (UnmapTo.same_left hinv hsame hun)
        (@UnmapTo.of_same (fun _ => False) _ _ _ hun.inv hclose fun _ _ hf => hf.elim) ?_
      intro x _
      rw [or_false]
      refine ⟨fun h => ⟨?_, h⟩, fun h => h.2⟩
      have := h.1.1
      omega
    have hfill₃ := hclose.filled hfill₂
    have hroots : (physpageClose st₂ r).roots = st.roots := hun'.roots
    have hr₃ : (physpageClose st₂ r).Designates (.root s) r :=
      ⟨by rw [PmState.Present, hroots]; exact hr.1, by rw [PmState.entry, hroots]; exact hr.2⟩
    have hrun := hmain (addrspcUnmapRecursive_table 0 hpres (by decide) (by decide)
      (by rw [show pmePaddr (st.pme (.root s)) = pageAddr r from hr.2, physpageFind_pageAddr])
      (hinv.pool r hal) hloop)
    -- the directory is empty exactly when no translated page is left
    have hleft : ¬ tblEmpty st₂ 1 1024 (pageAddr r) = true ↔ st.PageLeft s vaddr size := by
      rw [tblEmpty_iff]
      constructor
      · intro h
        push Not at h
        obtain ⟨d, hd, hpd⟩ := h
        have hpd' : pmeIspresent ((physpageClose st₂ r).pde s d) 1 = true := by
          rw [pde_eq_tbl hr₃]
          exact (Bool.not_eq_false _).mp hpd
        obtain ⟨t, ht, hsome⟩ := hfill₃ s d ⟨hr₃.1, hd, hpd'⟩
        refine .inr ⟨1024 * d + t, by omega, ?_⟩
        by_cases hg : Reached (st.view s) p (unmapSize size) (1024 * d + t)
        · rw [hun'.lost _ (by omega) hg] at hsome
          simp at hsome
        · rw [hun'.kept _ (by omega) hg] at hsome
          exact ⟨hsome, hg⟩
      · rintro (h0 | ⟨x, hx, hsome, hg⟩) hempty
        · simp [pmeIspresent, h0] at hpres
        · rw [← hun'.kept x hx hg, view_eq_none_of_absent hx] at hsome
          · simp at hsome
          · intro hpx
            have := hempty (x / 1024) hpx.2.1
            have hpx' := hpx.2.2
            rw [pde_eq_tbl hr₃] at hpx'
            exact absurd (hpx'.symm.trans this) (by decide)
    refine ⟨physpageClose st₂ r, hun', hfill₃, ?_⟩
    by_cases hempty : tblEmpty st₂ 1 1024 (pageAddr r) = true
    · rw [if_pos hempty] at hrun
      refine .inr ⟨fun h => absurd hempty (hleft.mpr h), r, hr₃, ?_, hrun⟩
      intro d hpd
      have habs := (tblEmpty_iff st₂ 1 (pageAddr r)).mp hempty d hpd.2.1
      have hpd' := hpd.2.2
      rw [pde_eq_tbl hr₃] at hpd'
      exact absurd (hpd'.symm.trans habs) (by decide)
    · rw [if_neg hempty] at hrun
      exact .inl ⟨hleft.mp hempty, hrun⟩

/-- **What `addrspc_unmap` does**: it returns 0 and exactly the reached pages
lose their translation. The tables are in order afterwards unless the page
directory itself became empty; then it is back in the pool, but the root
entry still counts as present and designates it. -/
theorem addrspcUnmap_spec {st : PmState} (hinv : PmInv st) (hfill : st.Filled) (s : Nat)
    (vaddr size : BitVec 32) :
    ∃ st', addrspcUnmap st s vaddr size = some (0, st') ∧
      (∀ x, x < 2 ^ 20 → Reached (st.view s) (vaddr.toNat / 4096) (unmapSize size) x →
        st'.view s x = none) ∧
      (∀ x, x < 2 ^ 20 → ¬ Reached (st.view s) (vaddr.toNat / 4096) (unmapSize size) x →
        st'.view s x = st.view s x) ∧
      (∀ s' x, s' ≠ s → x < 2 ^ 20 → st'.view s' x = st.view s' x) ∧
      (st.PageLeft s vaddr size → PmInv st' ∧ st'.Filled ∧ ∀ i, st'.Leaked i ↔ st.Leaked i) ∧
      (¬ st.PageLeft s vaddr size → ¬ st'.TablesOwned) := by
  obtain ⟨st₁, hun, hfill₁, ⟨hleft, hrun⟩ | ⟨hleft, r, hr, -, hrun⟩⟩ :=
    addrspcUnmap_walk hinv hfill s vaddr size
  · exact ⟨st₁, hrun, hun.lost, hun.kept, hun.other, fun _ => ⟨hun.inv, hfill₁, hun.leaked⟩,
      fun h => absurd hleft h⟩
  · obtain ⟨hview, hnot⟩ := release_root hr
    exact ⟨_, hrun, fun x hx hg => (hview s x).trans (hun.lost x hx hg),
      fun x hx hg => (hview s x).trans (hun.kept x hx hg),
      fun s' x hs hx => (hview s' x).trans (hun.other s' x hs hx),
      fun h => absurd h hleft, fun _ => hnot⟩

end Munix
