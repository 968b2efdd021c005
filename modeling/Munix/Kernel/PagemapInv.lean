import Munix.Kernel.Pagemap
import Munix.Lib.Ownership

/-!
# Munix — table ownership

The state of the page-map code, seen from its tables: which entries are
present at a table level, which pool page each of them designates, and the
invariant `PmInv` that ties them together:

* every present table entry designates an allocated pool page;
* no pool page is designated twice;
* a pool page is free exactly when nothing designates it;
* the permission bits of a page-table entry are included in those of the
  directory entry above it, so that the effective permission is the leaf's.

The last part of the file says how the invariant and the translations react
to the three ways the walks write to a table.
-/

namespace Munix

open ByteMem

-- ---------------------------------------------------------------------------
-- Bits of an entry
-- ---------------------------------------------------------------------------

/-- A set of flags: only the low 12 bits, which hold no address. -/
def FlagSet (flags : Pme) : Prop := flags.toNat < 4096

instance (flags : Pme) : Decidable (FlagSet flags) := inferInstanceAs (Decidable (_ < _))

theorem and_bit_ne_zero (x : BitVec 32) (i : Nat) (hi : i < 32) :
    (x &&& BitVec.twoPow 32 i != 0#32) = x.getLsbD i := by
  rw [BitVec.and_twoPow]
  cases h : x.getLsbD i with
  | false => simp
  | true =>
    have hne : BitVec.twoPow 32 i ≠ 0#32 := by
      intro h0
      have := congrArg (fun y => y.getLsbD i) h0
      simp [hi] at this
    simpa using hne

theorem pmeIspresent_root (pme : Pme) : pmeIspresent pme 0 = true ↔ pme ≠ 0#32 := by
  simp [pmeIspresent]

theorem pmeIspresent_inner (pme : Pme) {lvl : Nat} (h : lvl ≠ 0) :
    pmeIspresent pme lvl = pme.getLsbD 0 := by
  rw [pmeIspresent, if_neg h]
  exact and_bit_ne_zero pme 0 (by decide)

theorem pmePerm_user (pme : Pme) : (pmePerm pme).user = pme.getLsbD 2 :=
  and_bit_ne_zero pme 2 (by decide)

theorem pmePerm_write (pme : Pme) : (pmePerm pme).write = pme.getLsbD 1 :=
  and_bit_ne_zero pme 1 (by decide)

theorem pmePaddr_toNat (pme : Pme) : (pmePaddr pme).toNat = pme.toNat / 4096 * 4096 :=
  and_not_low_toNat pme 12

theorem pmePaddr_of_aligned {a : BitVec 32} (h : a.toNat % 4096 = 0) : pmePaddr a = a := by
  apply BitVec.eq_of_toNat_eq
  rw [pmePaddr_toNat]
  omega

theorem pmePaddr_or (a : BitVec 32) {flags : Pme} (hf : FlagSet flags) :
    pmePaddr (a ||| flags) = pmePaddr a := by
  have hz : pmePaddr flags = 0#32 := by
    apply BitVec.eq_of_toNat_eq
    rw [pmePaddr_toNat, Nat.div_eq_of_lt hf]
    rfl
  unfold pmePaddr at *
  rw [BitVec.and_comm, BitVec.and_or_distrib_left, BitVec.and_comm, BitVec.and_comm _ flags, hz]
  simp

/-- The low 12 bits of an aligned address are clear. -/
theorem getLsbD_of_aligned {a : BitVec 32} (h : a.toNat % 4096 = 0) {i : Nat} (hi : i < 12) :
    a.getLsbD i = false := by
  have ha : pmePaddr a = a := pmePaddr_of_aligned h
  have hbit : (pmePaddr a).getLsbD i = false := by
    rw [show pmePaddr a = (a >>> 12) <<< 12 from and_not_low a 12]
    simp [hi]
  rwa [ha] at hbit

theorem flagSet_or_present {flags : Pme} (hf : FlagSet flags) : FlagSet (flags ||| PME_PRESENT) := by
  unfold FlagSet at *
  rw [BitVec.toNat_or]
  exact Nat.or_lt_two_pow (n := 12) hf (by decide)

-- ---------------------------------------------------------------------------
-- Pool pages as tables
-- ---------------------------------------------------------------------------

theorem pageAddr_toNat (i : Fin PHYSPAGES_MAX) : (pageAddr i).toNat = 0x100000 + 4096 * i.val := by
  have hi : i.val < 5 := i.isLt
  unfold pageAddr PM_AREA PAGESZ
  bv_omega

theorem pageAddr_aligned (i : Fin PHYSPAGES_MAX) : (pageAddr i).toNat % 4096 = 0 := by
  rw [pageAddr_toNat]
  omega

theorem pageAddr_ne_zero (i : Fin PHYSPAGES_MAX) : pageAddr i ≠ 0#32 := by
  intro h
  have := congrArg BitVec.toNat h
  rw [pageAddr_toNat] at this
  simp at this

theorem pageAddr_injective {i j : Fin PHYSPAGES_MAX} (h : pageAddr i = pageAddr j) : i = j := by
  have := congrArg BitVec.toNat h
  rw [pageAddr_toNat, pageAddr_toNat] at this
  exact Fin.ext (by omega)

theorem physpageFind_pageAddr (i : Fin PHYSPAGES_MAX) : physpageFind (pageAddr i) = some i := by
  have hi : i.val < 5 := i.isLt
  have hidx : ((pageAddr i - PM_AREA) / PAGESZ).toNat = i.val := by
    have hsub : (pageAddr i - PM_AREA).toNat = 4096 * i.val := by
      have := pageAddr_toNat i
      unfold PM_AREA
      bv_omega
    rw [BitVec.toNat_udiv, hsub]
    simp [PAGESZ]
  simp only [physpageFind, hidx]
  exact dif_pos i.isLt

theorem tblEntry_toNat (i : Fin PHYSPAGES_MAX) {t : Nat} (ht : t < 1024) :
    (tblEntry (pageAddr i) t).toNat = 0x100000 + 4096 * i.val + 4 * t := by
  have hi : i.val < 5 := i.isLt
  have := pageAddr_toNat i
  unfold tblEntry
  bv_omega

theorem tblEntry_aligned (i : Fin PHYSPAGES_MAX) {t : Nat} (ht : t < 1024) :
    Aligned (tblEntry (pageAddr i) t) := by
  unfold Aligned
  rw [tblEntry_toNat i ht]
  omega

theorem tblEntry_injective {i j : Fin PHYSPAGES_MAX} {t u : Nat} (ht : t < 1024) (hu : u < 1024)
    (h : tblEntry (pageAddr i) t = tblEntry (pageAddr j) u) : i = j ∧ t = u := by
  have := congrArg BitVec.toNat h
  rw [tblEntry_toNat i ht, tblEntry_toNat j hu] at this
  exact ⟨Fin.ext (by omega), by omega⟩

/-- Entry `t` of the table in pool page `i`. -/
def PmState.tbl (st : PmState) (i : Fin PHYSPAGES_MAX) (t : Nat) : Pme :=
  load32 st.mem (tblEntry (pageAddr i) t)

/-- A pool page in use. -/
def PmState.Allocated (st : PmState) (i : Fin PHYSPAGES_MAX) : Prop := (st.physpages i).paddr ≠ 0#32

theorem tbl_setPme_same (st : PmState) (i : Fin PHYSPAGES_MAX) (t : Nat) (v : Pme) :
    (st.setPme (.word (tblEntry (pageAddr i) t)) v).tbl i t = v := by
  simp [PmState.tbl, PmState.setPme]

theorem tbl_setPme_ne (st : PmState) {i j : Fin PHYSPAGES_MAX} {t u : Nat} (v : Pme)
    (ht : t < 1024) (hu : u < 1024) (hne : ¬ (j = i ∧ u = t)) :
    (st.setPme (.word (tblEntry (pageAddr i) t)) v).tbl j u = st.tbl j u := by
  apply load32_store32_ne (tblEntry_aligned i ht) (tblEntry_aligned j hu)
  intro h
  exact hne (tblEntry_injective hu ht h)

/-- Zeroing pool page `i`. -/
theorem tbl_memset (st : PmState) {i j : Fin PHYSPAGES_MAX} {u : Nat} (hu : u < 1024) :
    PmState.tbl { st with mem := memset st.mem (pageAddr i) 0#8 PAGESZ.toNat } j u =
      if j = i then 0#32 else st.tbl j u := by
  have hj : j.val < 5 := j.isLt
  have hi : i.val < 5 := i.isLt
  have hja := tblEntry_toNat j hu
  have hia := pageAddr_toNat i
  have hmem := memset_eq_memFill st.mem (pageAddr i) 0#8 (show PAGESZ.toNat ≤ 2 ^ 32 by decide)
  have hsz : PAGESZ.toNat = 4096 := by decide
  unfold PmState.tbl
  rw [hmem, hsz]
  split
  · rename_i h
    subst h
    apply load32_memFill_zero _ (by decide)
    bv_omega
  · rename_i h
    have hne : j.val ≠ i.val := fun h' => h (Fin.ext h')
    apply load32_memFill_outside <;> bv_omega

-- ---------------------------------------------------------------------------
-- Entries that point to tables
-- ---------------------------------------------------------------------------

/-- The `d`-th page-directory entry of a space. -/
def PmState.pde (st : PmState) (s d : Nat) : Pme :=
  load32 st.mem (tblEntry (pmePaddr (st.roots s)) d)

/-- The `t`-th entry of the page table under directory entry `d`. -/
def PmState.pte (st : PmState) (s d t : Nat) : Pme :=
  load32 st.mem (tblEntry (pmePaddr (st.pde s d)) t)

/-- The entries at a table level: a space's root, and its directory entries. -/
inductive TableRef where
  | root (s : Nat)
  | pde (s d : Nat)
deriving DecidableEq

/-- The space an entry belongs to. -/
def TableRef.space : TableRef → Nat
  | .root s => s
  | .pde s _ => s

def PmState.entry (st : PmState) : TableRef → Pme
  | .root s => st.roots s
  | .pde s d => st.pde s d

/-- `pme_ispresent` holds of the entry, and of the ones above it. -/
def PmState.Present (st : PmState) : TableRef → Prop
  | .root s => pmeIspresent (st.roots s) 0 = true
  | .pde s d => pmeIspresent (st.roots s) 0 = true ∧ d < 1024 ∧ pmeIspresent (st.pde s d) 1 = true

def PmState.Designates (st : PmState) (e : TableRef) (i : Fin PHYSPAGES_MAX) : Prop :=
  st.Present e ∧ pmePaddr (st.entry e) = pageAddr i

/-- The page is allocated, but no table entry designates it. -/
def PmState.Leaked (st : PmState) (i : Fin PHYSPAGES_MAX) : Prop := Lost st.Designates st.Allocated i

/-- Every present table entry designates an allocated page of its own, and
the pages nothing designates are the free ones. -/
def PmState.TablesOwned (st : PmState) : Prop :=
  Owns st.Present st.Designates st.Allocated ∧ ∀ i, ¬ st.Leaked i

/-- The page maps are in order. Pages may have been leaked. -/
structure PmInv (st : PmState) : Prop where
  owned : Owns st.Present st.Designates st.Allocated
  pool  : ∀ i, st.Allocated i → (st.physpages i).paddr = pageAddr i
  perm  : ∀ s d t, st.Present (.pde s d) → t < 1024 → pmeIspresent (st.pte s d t) 2 = true →
            (pmePerm (st.pde s d)).and (pmePerm (st.pte s d t)) = pmePerm (st.pte s d t)

theorem Designates.functional {st : PmState} {e : TableRef} {i j : Fin PHYSPAGES_MAX}
    (hi : st.Designates e i) (hj : st.Designates e j) : i = j :=
  pageAddr_injective (hi.2.symm.trans hj.2)

theorem PmInv.exists_designates {st : PmState} (h : PmInv st) {e : TableRef} (he : st.Present e) :
    ∃ i, st.Designates e i := by
  obtain ⟨i, -, hi⟩ := h.owned.allocated e he
  exact ⟨i, hi⟩

theorem pde_eq_tbl {st : PmState} {s : Nat} {r : Fin PHYSPAGES_MAX}
    (h : st.Designates (.root s) r) (d : Nat) : st.pde s d = st.tbl r d := by
  have hr : pmePaddr (st.roots s) = pageAddr r := h.2
  rw [PmState.pde, hr, PmState.tbl]

theorem pte_eq_tbl {st : PmState} {s d : Nat} {j : Fin PHYSPAGES_MAX}
    (h : st.Designates (.pde s d) j) (t : Nat) : st.pte s d t = st.tbl j t := by
  have hj : pmePaddr (st.pde s d) = pageAddr j := h.2
  rw [PmState.pte, hj, PmState.tbl]

theorem Present.root {st : PmState} {s d : Nat} (h : st.Present (.pde s d)) :
    st.Present (.root s) := h.1

-- ---------------------------------------------------------------------------
-- Translations by page number
-- ---------------------------------------------------------------------------

/-- What a page map says about page `x` of space `s`. -/
def PmState.view (st : PmState) (s x : Nat) : Option (Addr × Perm) :=
  if pmeIspresent (st.roots s) 0 then
    if pmeIspresent (st.pde s (x / 1024)) 1 then
      if pmeIspresent (st.pte s (x / 1024) (x % 1024)) 2 then
        some (pmePaddr (st.pte s (x / 1024) (x % 1024)),
          (pmePerm (st.pde s (x / 1024))).and (pmePerm (st.pte s (x / 1024) (x % 1024))))
      else none
    else none
  else none

/-- On page addresses the hardware walk is the view. -/
theorem translate_eq_view (st : PmState) (s : Nat) {va : Addr} (hva : va.toNat % 4096 = 0) :
    st.translate s va = st.view s (va.toNat / 4096) := by
  have hlow : va &&& 0xfff#32 = 0#32 := by
    apply BitVec.eq_of_getLsbD_eq
    intro i hi
    rw [BitVec.getLsbD_and, show (0xfff#32).getLsbD i = decide (i < 12) by
      rw [show (0xfff#32) = BitVec.ofNat 32 (2 ^ 12 - 1) from rfl, BitVec.getLsbD_ofNat,
        Nat.testBit_two_pow_sub_one]
      simp [hi]]
    by_cases h : i < 12
    · simp [getLsbD_of_aligned hva h]
    · simp [h]
  have hd : va.toNat / 4096 / 1024 = va.toNat / 2 ^ 22 := by omega
  have ht : va.toNat / 4096 % 1024 = va.toNat / 2 ^ 12 % 1024 := by omega
  simp only [PmState.translate, hwWalk, PmState.view, PmState.pde, PmState.pte, pdeAddr, pteAddr,
    hd, ht, hlow, BitVec.or_zero]

/-- With the invariant the effective permission is the leaf's. -/
theorem view_eq_of_present {st : PmState} (h : PmInv st) {s x : Nat}
    (hp : st.Present (.pde s (x / 1024))) :
    st.view s x =
      if pmeIspresent (st.pte s (x / 1024) (x % 1024)) 2 then
        some (pmePaddr (st.pte s (x / 1024) (x % 1024)), pmePerm (st.pte s (x / 1024) (x % 1024)))
      else none := by
  rw [PmState.view, if_pos hp.1, if_pos hp.2.2]
  split
  · rename_i ht
    rw [h.perm s (x / 1024) (x % 1024) hp (Nat.mod_lt _ (by decide)) ht]
  · rfl

theorem view_eq_none_of_absent {st : PmState} {s x : Nat} (hx : x < 2 ^ 20)
    (hp : ¬ st.Present (.pde s (x / 1024))) : st.view s x = none := by
  rw [PmState.view]
  split
  · rename_i hr
    rw [if_neg]
    intro hd
    exact hp ⟨hr, by omega, hd⟩
  · rfl

-- ---------------------------------------------------------------------------
-- States with the same tables
-- ---------------------------------------------------------------------------

/-- Equal up to the `vaddr` bookkeeping of the pool. -/
structure SameTables (st st' : PmState) : Prop where
  roots : st'.roots = st.roots
  mem   : st'.mem = st.mem
  paddr : ∀ i, (st'.physpages i).paddr = (st.physpages i).paddr

namespace SameTables

variable {st st' : PmState}

theorem pde (h : SameTables st st') (s d : Nat) : st'.pde s d = st.pde s d := by
  simp only [PmState.pde, h.roots, h.mem]

theorem pte (h : SameTables st st') (s d t : Nat) : st'.pte s d t = st.pte s d t := by
  simp only [PmState.pte, h.pde, h.mem]

theorem view (h : SameTables st st') (s x : Nat) : st'.view s x = st.view s x := by
  simp only [PmState.view, h.pde, h.pte, h.roots]

theorem present (h : SameTables st st') (e : TableRef) : st'.Present e ↔ st.Present e := by
  cases e <;> simp only [PmState.Present, h.pde, h.roots]

theorem designates (h : SameTables st st') (e : TableRef) (i : Fin PHYSPAGES_MAX) :
    st'.Designates e i ↔ st.Designates e i := by
  rw [PmState.Designates, PmState.Designates, h.present]
  cases e <;> simp only [PmState.entry, h.pde, h.roots]

theorem allocated (h : SameTables st st') (i : Fin PHYSPAGES_MAX) :
    st'.Allocated i ↔ st.Allocated i := by
  simp only [PmState.Allocated, h.paddr]

theorem inv (h : SameTables st st') (hinv : PmInv st) : PmInv st' where
  owned := hinv.owned.congr h.present h.designates h.allocated
  pool := by
    intro i hi
    rw [h.paddr]
    exact hinv.pool i ((h.allocated i).mp hi)
  perm := by
    intro s d t hp ht hpt
    rw [h.pte] at hpt
    rw [h.pte, h.pde]
    exact hinv.perm s d t ((h.present _).mp hp) ht hpt

theorem trans {st'' : PmState} (h : SameTables st st') (h' : SameTables st' st'') :
    SameTables st st'' where
  roots := h'.roots.trans h.roots
  mem := h'.mem.trans h.mem
  paddr i := (h'.paddr i).trans (h.paddr i)

end SameTables

theorem physpageClose_same (st : PmState) (i : Fin PHYSPAGES_MAX) :
    SameTables st (physpageClose st i) where
  roots := rfl
  mem := rfl
  paddr j := by
    by_cases hj : j = i
    · subst hj; simp [physpageClose, PmState.setPhyspage]
    · simp [physpageClose, PmState.setPhyspage, hj]

theorem physpageAccess_same (st : PmState) (i : Fin PHYSPAGES_MAX) :
    SameTables st (physpageAccess st i).2 where
  roots := rfl
  mem := rfl
  paddr j := by
    by_cases hj : j = i
    · subst hj; simp [physpageAccess, PmState.setPhyspage]
    · simp [physpageAccess, PmState.setPhyspage, hj]

-- ---------------------------------------------------------------------------
-- Writing a page-table entry
-- ---------------------------------------------------------------------------

section WritePte

variable {st : PmState} {s₀ d₀ t₀ : Nat} {j : Fin PHYSPAGES_MAX} (v : Pme)

/-- The state after a store to entry `t` of the table in page `j`. -/
def PmState.setTbl (st : PmState) (j : Fin PHYSPAGES_MAX) (t : Nat) (v : Pme) : PmState :=
  st.setPme (.word (tblEntry (pageAddr j) t)) v

theorem setTbl_pde_of_pte (h : PmInv st) (hj : st.Designates (.pde s₀ d₀) j) (ht : t₀ < 1024)
    {s d : Nat} (hs : st.Present (.root s)) (hd : d < 1024) :
    (st.setTbl j t₀ v).pde s d = st.pde s d := by
  obtain ⟨r, hr⟩ := h.exists_designates hs
  have hne : ¬ (r = j ∧ d = t₀) := by
    rintro ⟨rfl, -⟩
    exact absurd (h.owned.unique _ _ _ hr hj) (by simp)
  have hr' : (st.setTbl j t₀ v).Designates (.root s) r := hr
  rw [pde_eq_tbl hr, pde_eq_tbl hr']
  exact tbl_setPme_ne st v ht hd hne

theorem setTbl_present_of_pte (h : PmInv st) (hj : st.Designates (.pde s₀ d₀) j) (ht : t₀ < 1024)
    (e : TableRef) : (st.setTbl j t₀ v).Present e ↔ st.Present e := by
  cases e with
  | root s => rfl
  | pde s d =>
    constructor
    · rintro ⟨hs, hd, hp⟩
      exact ⟨hs, hd, by rwa [setTbl_pde_of_pte v h hj ht hs hd] at hp⟩
    · rintro ⟨hs, hd, hp⟩
      exact ⟨hs, hd, by rwa [setTbl_pde_of_pte v h hj ht hs hd]⟩

theorem setTbl_designates_of_pte (h : PmInv st) (hj : st.Designates (.pde s₀ d₀) j)
    (ht : t₀ < 1024) (e : TableRef) (i : Fin PHYSPAGES_MAX) :
    (st.setTbl j t₀ v).Designates e i ↔ st.Designates e i := by
  unfold PmState.Designates
  rw [setTbl_present_of_pte v h hj ht]
  apply and_congr_right
  intro he
  cases e with
  | root s => rfl
  | pde s d => simp only [PmState.entry, setTbl_pde_of_pte v h hj ht he.1 he.2.1]

theorem setTbl_pte (h : PmInv st) (hj : st.Designates (.pde s₀ d₀) j) (ht : t₀ < 1024)
    {s d u : Nat} (hp : st.Present (.pde s d)) (hu : u < 1024) :
    (st.setTbl j t₀ v).pte s d u =
      if s = s₀ ∧ d = d₀ ∧ u = t₀ then v else st.pte s d u := by
  obtain ⟨k, hk⟩ := h.exists_designates hp
  have hk' := (setTbl_designates_of_pte v h hj ht _ _).mpr hk
  rw [pte_eq_tbl hk', pte_eq_tbl hk]
  split
  · rename_i heq
    obtain ⟨rfl, rfl, rfl⟩ := heq
    rw [Designates.functional hk hj]
    exact tbl_setPme_same st j _ v
  · rename_i hne
    apply tbl_setPme_ne st v ht hu
    rintro ⟨rfl, rfl⟩
    have := h.owned.unique _ _ _ hk hj
    simp only [TableRef.pde.injEq] at this
    exact hne ⟨this.1, this.2, rfl⟩

/-- A page-table entry may be overwritten by anything whose permission the
directory entry allows. -/
theorem PmInv.setPte (h : PmInv st) (hj : st.Designates (.pde s₀ d₀) j) (ht : t₀ < 1024)
    (hperm : pmeIspresent v 2 = true → (pmePerm (st.pde s₀ d₀)).and (pmePerm v) = pmePerm v) :
    PmInv (st.setTbl j t₀ v) where
  owned := h.owned.congr (setTbl_present_of_pte v h hj ht) (setTbl_designates_of_pte v h hj ht)
    fun _ => Iff.rfl
  pool := h.pool
  perm := by
    intro s d t hp ht' hpt
    have hp' := (setTbl_present_of_pte v h hj ht _).mp hp
    rw [setTbl_pde_of_pte v h hj ht hp'.1 hp'.2.1]
    rw [setTbl_pte v h hj ht hp' ht'] at hpt ⊢
    split at hpt
    · rename_i heq
      obtain ⟨rfl, rfl, rfl⟩ := heq
      simpa using hperm hpt
    · rename_i hne
      rw [if_neg hne]
      exact h.perm s d t hp' ht' hpt

/-- Only the page of that entry is translated differently. -/
theorem view_setPte (h : PmInv st) (hj : st.Designates (.pde s₀ d₀) j) (ht : t₀ < 1024)
    (hperm : pmeIspresent v 2 = true → (pmePerm (st.pde s₀ d₀)).and (pmePerm v) = pmePerm v)
    {s x : Nat} (hx : x < 2 ^ 20) :
    (st.setTbl j t₀ v).view s x =
      if s = s₀ ∧ x = 1024 * d₀ + t₀ then
        if pmeIspresent v 2 then some (pmePaddr v, pmePerm v) else none
      else st.view s x := by
  have hinv := h.setPte v hj ht hperm
  by_cases hp : st.Present (.pde s (x / 1024))
  · have hp' := (setTbl_present_of_pte v h hj ht _).mpr hp
    rw [view_eq_of_present hinv hp', view_eq_of_present h hp,
      setTbl_pte v h hj ht hp (Nat.mod_lt _ (by decide))]
    have hiff : (s = s₀ ∧ x / 1024 = d₀ ∧ x % 1024 = t₀) ↔ (s = s₀ ∧ x = 1024 * d₀ + t₀) := by
      constructor
      · rintro ⟨rfl, rfl, rfl⟩
        exact ⟨rfl, by omega⟩
      · rintro ⟨rfl, rfl⟩
        exact ⟨rfl, by omega, by omega⟩
    simp only [hiff]
    split <;> rfl
  · have hp' := fun hq => hp ((setTbl_present_of_pte v h hj ht _).mp hq)
    rw [view_eq_none_of_absent hx hp', view_eq_none_of_absent hx hp, if_neg]
    rintro ⟨rfl, rfl⟩
    apply hp
    rw [show (1024 * d₀ + t₀) / 1024 = d₀ by omega]
    exact hj.1

end WritePte

-- ---------------------------------------------------------------------------
-- Writing a directory entry
-- ---------------------------------------------------------------------------

section WritePde

variable {st : PmState} {s₀ d₀ : Nat} {r : Fin PHYSPAGES_MAX} (v : Pme)

theorem setTbl_pde_of_root (h : PmInv st) (hr : st.Designates (.root s₀) r) (hd₀ : d₀ < 1024)
    {s d : Nat} (hs : st.Present (.root s)) (hd : d < 1024) :
    (st.setTbl r d₀ v).pde s d = if s = s₀ ∧ d = d₀ then v else st.pde s d := by
  obtain ⟨r', hr'⟩ := h.exists_designates hs
  have hr'' : (st.setTbl r d₀ v).Designates (.root s) r' := hr'
  rw [pde_eq_tbl hr'', pde_eq_tbl hr']
  split
  · rename_i heq
    obtain ⟨rfl, rfl⟩ := heq
    rw [Designates.functional hr' hr]
    exact tbl_setPme_same st r d v
  · rename_i hne
    apply tbl_setPme_ne st v hd₀ hd
    rintro ⟨rfl, rfl⟩
    have := h.owned.unique _ _ _ hr' hr
    exact hne ⟨by simpa using this, rfl⟩

/-- The page tables are not touched. -/
theorem setTbl_pte_of_root (h : PmInv st) (hr : st.Designates (.root s₀) r) (hd₀ : d₀ < 1024)
    {s d t : Nat} (hp : st.Present (.pde s d)) (ht : t < 1024)
    (hv : s = s₀ ∧ d = d₀ → pmePaddr v = pmePaddr (st.pde s₀ d₀)) :
    (st.setTbl r d₀ v).pte s d t = st.pte s d t := by
  obtain ⟨j, hj⟩ := h.exists_designates hp
  have hj' : pmePaddr ((st.setTbl r d₀ v).pde s d) = pageAddr j := by
    rw [setTbl_pde_of_root v h hr hd₀ hp.1 hp.2.1]
    split
    · rename_i heq
      rw [hv heq, ← heq.1, ← heq.2]
      exact hj.2
    · exact hj.2
  have hne : ¬ (j = r ∧ t = d₀) := by
    rintro ⟨rfl, -⟩
    exact absurd (h.owned.unique _ _ _ hj hr) (by simp)
  rw [PmState.pte, hj', pte_eq_tbl hj]
  exact tbl_setPme_ne st v hd₀ ht hne

end WritePde

-- ---------------------------------------------------------------------------
-- Adding flags to an entry
-- ---------------------------------------------------------------------------

theorem pmeIspresent_or {pme : Pme} {lvl : Nat} (flags : Pme) (h : pmeIspresent pme lvl = true) :
    pmeIspresent (pme ||| flags) lvl = true := by
  by_cases hl : lvl = 0
  · subst hl
    rw [pmeIspresent_root] at h ⊢
    intro hz
    exact h (BitVec.or_eq_zero_iff.mp hz).1
  · rw [pmeIspresent_inner _ hl] at h ⊢
    rw [BitVec.getLsbD_or, h, Bool.true_or]

/-- Permissions only grow with added flags. -/
theorem pmePerm_or_and {pme flags q : Pme}
    (h : (pmePerm pme).and (pmePerm q) = pmePerm q) :
    (pmePerm (pme ||| flags)).and (pmePerm q) = pmePerm q := by
  have hu := congrArg Perm.user h
  have hw := congrArg Perm.write h
  simp only [Perm.and, pmePerm_user, pmePerm_write] at hu hw
  simp only [Perm.and, pmePerm, Perm.mk.injEq]
  constructor
  · change ((pmePerm (pme ||| flags)).user && (pmePerm q).user) = (pmePerm q).user
    rw [pmePerm_user, pmePerm_user, BitVec.getLsbD_or]
    cases h2 : q.getLsbD 2 <;> simp_all
  · change ((pmePerm (pme ||| flags)).write && (pmePerm q).write) = (pmePerm q).write
    rw [pmePerm_write, pmePerm_write, BitVec.getLsbD_or]
    cases h1 : q.getLsbD 1 <;> simp_all

section AddFlags

variable {st st' : PmState}

/-- What changes when flags are added to table entries: addresses and presence
stay, and so do the page tables. -/
structure FlagsAdded (st st' : PmState) : Prop where
  root : ∀ s, ∃ flags, FlagSet flags ∧ st'.roots s = st.roots s ||| flags ∧
    (¬ st.Present (.root s) → flags = 0#32)
  pde  : ∀ s d, st.Present (.root s) → d < 1024 → ∃ flags, FlagSet flags ∧
    st'.pde s d = st.pde s d ||| flags ∧ (¬ st.Present (.pde s d) → flags = 0#32)
  pte  : ∀ s d t, st.Present (.pde s d) → t < 1024 → st'.pte s d t = st.pte s d t
  paddr : ∀ i, (st'.physpages i).paddr = (st.physpages i).paddr

theorem FlagsAdded.present_root (h : FlagsAdded st st') (s : Nat) :
    st'.Present (.root s) ↔ st.Present (.root s) := by
  obtain ⟨flags, -, hv, hz⟩ := h.root s
  by_cases hp : st.Present (.root s)
  · refine iff_of_true ?_ hp
    change pmeIspresent (st'.roots s) 0 = true
    rw [hv]
    exact pmeIspresent_or flags hp
  · refine iff_of_false ?_ hp
    change ¬ pmeIspresent (st'.roots s) 0 = true
    rw [hv, hz hp, BitVec.or_zero]
    exact hp

theorem FlagsAdded.present (h : FlagsAdded st st') (e : TableRef) :
    st'.Present e ↔ st.Present e := by
  cases e with
  | root s => exact h.present_root s
  | pde s d =>
    change (st'.Present (.root s) ∧ d < 1024 ∧ _) ↔ (st.Present (.root s) ∧ d < 1024 ∧ _)
    rw [h.present_root]
    apply and_congr_right
    intro hs
    apply and_congr_right
    intro hd
    obtain ⟨flags, -, hv, hz⟩ := h.pde s d hs hd
    rw [hv]
    by_cases hp : pmeIspresent (st.pde s d) 1 = true
    · exact iff_of_true (pmeIspresent_or flags hp) hp
    · rw [hz fun hq => hp hq.2.2, BitVec.or_zero]

theorem FlagsAdded.designates (h : FlagsAdded st st') (e : TableRef) (i : Fin PHYSPAGES_MAX) :
    st'.Designates e i ↔ st.Designates e i := by
  unfold PmState.Designates
  rw [h.present]
  apply and_congr_right
  intro he
  cases e with
  | root s =>
    obtain ⟨flags, hf, hv, -⟩ := h.root s
    simp only [PmState.entry, hv, pmePaddr_or _ hf]
  | pde s d =>
    obtain ⟨flags, hf, hv, -⟩ := h.pde s d he.1 he.2.1
    simp only [PmState.entry, hv, pmePaddr_or _ hf]

theorem FlagsAdded.allocated (h : FlagsAdded st st') (i : Fin PHYSPAGES_MAX) :
    st'.Allocated i ↔ st.Allocated i := by
  simp only [PmState.Allocated, h.paddr]

theorem FlagsAdded.inv (h : FlagsAdded st st') (hinv : PmInv st) : PmInv st' where
  owned := hinv.owned.congr h.present h.designates h.allocated
  pool := by
    intro i hi
    rw [h.paddr]
    exact hinv.pool i (by simpa only [PmState.Allocated, h.paddr] using hi)
  perm := by
    intro s d t hp ht hpt
    have hp' := (h.present _).mp hp
    obtain ⟨flags, -, hv, -⟩ := h.pde s d hp'.1 hp'.2.1
    rw [h.pte s d t hp' ht] at hpt ⊢
    rw [hv]
    exact pmePerm_or_and (hinv.perm s d t hp' ht hpt)

theorem FlagsAdded.view (h : FlagsAdded st st') (hinv : PmInv st) {s x : Nat} (hx : x < 2 ^ 20) :
    st'.view s x = st.view s x := by
  by_cases hp : st.Present (.pde s (x / 1024))
  · rw [view_eq_of_present (h.inv hinv) ((h.present _).mpr hp), view_eq_of_present hinv hp,
      h.pte s _ _ hp (Nat.mod_lt _ (by decide))]
  · rw [view_eq_none_of_absent hx hp, view_eq_none_of_absent hx fun hq => hp ((h.present _).mp hq)]

end AddFlags

-- ---------------------------------------------------------------------------
-- Claiming a page for a new table
-- ---------------------------------------------------------------------------

section Claim

variable {st st' : PmState} {e₀ : TableRef} {pg : Fin PHYSPAGES_MAX}

/-- Entry `e₀`, absent before, now designates the zeroed page `pg`. -/
structure TableClaimed (st st' : PmState) (e₀ : TableRef) (pg : Fin PHYSPAGES_MAX) : Prop where
  fresh   : ¬ st.Allocated pg
  absent  : ¬ st.Present e₀
  paddr   : ∀ i, (st'.physpages i).paddr = if i = pg then pageAddr pg else (st.physpages i).paddr
  present : ∀ e, st'.Present e ↔ st.Present e ∨ e = e₀
  old     : ∀ e, st.Present e → st'.entry e = st.entry e
  oldPte  : ∀ s d t, st.Present (.pde s d) → t < 1024 → st'.pte s d t = st.pte s d t
  new     : pmePaddr (st'.entry e₀) = pageAddr pg
  newPte  : ∀ s d t, e₀ = .pde s d → t < 1024 → st'.pte s d t = 0#32

theorem TableClaimed.designates (h : TableClaimed st st' e₀ pg) (e : TableRef)
    (i : Fin PHYSPAGES_MAX) : st'.Designates e i ↔ st.Designates e i ∨ (e = e₀ ∧ i = pg) := by
  unfold PmState.Designates
  rw [h.present]
  constructor
  · rintro ⟨he | rfl, hi⟩
    · rw [h.old e he] at hi
      exact .inl ⟨he, hi⟩
    · exact .inr ⟨rfl, pageAddr_injective (hi.symm.trans h.new)⟩
  · rintro (⟨he, hi⟩ | ⟨rfl, rfl⟩)
    · exact ⟨.inl he, by rwa [h.old e he]⟩
    · exact ⟨.inr rfl, h.new⟩

theorem TableClaimed.allocated (h : TableClaimed st st' e₀ pg) (i : Fin PHYSPAGES_MAX) :
    st'.Allocated i ↔ st.Allocated i ∨ i = pg := by
  unfold PmState.Allocated
  rw [h.paddr]
  split
  · rename_i hi
    exact iff_of_true (pageAddr_ne_zero pg) (.inr hi)
  · rename_i hi
    simp [hi]

theorem TableClaimed.inv (h : TableClaimed st st' e₀ pg) (hinv : PmInv st) : PmInv st' where
  owned := hinv.owned.claim h.fresh h.present h.designates h.allocated
  pool := by
    intro i hi
    rw [h.paddr]
    split
    · rename_i heq
      rw [heq]
    · rename_i hne
      exact hinv.pool i (((h.allocated i).mp hi).resolve_right hne)
  perm := by
    intro s d t hp ht hpt
    rcases (h.present _).mp hp with hp' | rfl
    · have hpde : st'.pde s d = st.pde s d := h.old _ hp'
      rw [h.oldPte s d t hp' ht] at hpt ⊢
      rw [hpde]
      exact hinv.perm s d t hp' ht hpt
    · rw [h.newPte s d t rfl ht] at hpt
      simp [pmeIspresent] at hpt

theorem TableClaimed.view (h : TableClaimed st st' e₀ pg) (hinv : PmInv st) {s x : Nat}
    (hx : x < 2 ^ 20) : st'.view s x = st.view s x := by
  have ht : x % 1024 < 1024 := Nat.mod_lt _ (by decide)
  by_cases hp : st.Present (.pde s (x / 1024))
  · rw [view_eq_of_present (h.inv hinv) ((h.present _).mpr (.inl hp)), view_eq_of_present hinv hp,
      h.oldPte s _ _ hp ht]
  · rw [view_eq_none_of_absent hx hp]
    by_cases he : (.pde s (x / 1024)) = e₀
    · rw [view_eq_of_present (h.inv hinv) ((h.present _).mpr (.inr he)),
        h.newPte s _ _ he.symm ht, if_neg (by simp [pmeIspresent])]
    · exact view_eq_none_of_absent hx fun hq => ((h.present _).mp hq).elim hp he

/-- `st₃` is `st` with page `pg` marked used and zeroed. -/
structure PageZeroed (st st₃ : PmState) (pg : Fin PHYSPAGES_MAX) : Prop where
  roots : st₃.roots = st.roots
  tbl   : ∀ j u, u < 1024 → st₃.tbl j u = if j = pg then 0#32 else st.tbl j u
  paddr : ∀ i, (st₃.physpages i).paddr = if i = pg then pageAddr pg else (st.physpages i).paddr

/-- A free page is designated by nothing. -/
theorem PmInv.ne_of_fresh (hinv : PmInv st) (hfree : ¬ st.Allocated pg) {e : TableRef}
    {i : Fin PHYSPAGES_MAX} (h : st.Designates e i) : i ≠ pg := by
  rintro rfl
  exact hfree (hinv.owned.alloc_of_des _ _ h)

theorem claim_root {st₃ : PmState} {s₀ : Nat} {v : Pme} (hinv : PmInv st)
    (hz : PageZeroed st st₃ pg) (hfree : ¬ st.Allocated pg) (hs₀ : ¬ st.Present (.root s₀))
    (hv : pmePaddr v = pageAddr pg) :
    TableClaimed st (st₃.setPme (.root s₀) v) (.root s₀) pg := by
  set st' := st₃.setPme (.root s₀) v with hst'
  have hroots : ∀ s, st'.roots s = if s = s₀ then v else st.roots s := by
    intro s
    simp only [hst', PmState.setPme, hz.roots, Function.update_apply]
  have htbl : ∀ j u, u < 1024 → st'.tbl j u = if j = pg then 0#32 else st.tbl j u := hz.tbl
  have hvne : pmeIspresent v 0 = true := by
    rw [pmeIspresent_root]
    rintro rfl
    exact pageAddr_ne_zero pg (hv.symm.trans (by decide))
  have hne : ∀ {s}, st.Present (.root s) → s ≠ s₀ := by
    rintro s hs rfl
    exact hs₀ hs
  have hpde : ∀ s d, st.Present (.root s) → d < 1024 → st'.pde s d = st.pde s d := by
    intro s d hs hd
    obtain ⟨r, hr⟩ := hinv.exists_designates hs
    have hr' : pmePaddr (st'.roots s) = pageAddr r := by
      rw [hroots, if_neg (hne hs)]
      exact hr.2
    rw [PmState.pde, hr', pde_eq_tbl hr]
    exact (htbl r d hd).trans (if_neg (hinv.ne_of_fresh hfree hr))
  have hnew : ∀ d, d < 1024 → st'.pde s₀ d = 0#32 := by
    intro d hd
    have hr' : pmePaddr (st'.roots s₀) = pageAddr pg := by
      rw [hroots, if_pos rfl, hv]
    rw [PmState.pde, hr']
    exact (htbl pg d hd).trans (if_pos rfl)
  refine ⟨hfree, hs₀, hz.paddr, ?_, ?_, ?_, ?_, ?_⟩
  · rintro (s | ⟨s, d⟩)
    · change pmeIspresent (st'.roots s) 0 = true ↔ pmeIspresent (st.roots s) 0 = true ∨ _
      rw [hroots]
      by_cases hs : s = s₀ <;> simp [hs, hvne]
    · constructor
      · rintro ⟨hs, hd, hp⟩
        by_cases hss : s = s₀
        · rw [hss, hnew d hd] at hp
          simp [pmeIspresent] at hp
        · have hs' : st.Present (.root s) := by
            change pmeIspresent (st.roots s) 0 = true
            rwa [hroots, if_neg hss] at hs
          exact .inl ⟨hs', hd, by rwa [hpde s d hs' hd] at hp⟩
      · rintro (⟨hs, hd, hp⟩ | h)
        · refine ⟨?_, hd, by rwa [hpde s d hs hd]⟩
          rw [hroots, if_neg (hne hs)]
          exact hs
        · simp at h
  · rintro (s | ⟨s, d⟩) he
    · exact (hroots s).trans (if_neg (hne he))
    · exact hpde s d he.1 he.2.1
  · intro s d t hp ht
    obtain ⟨j, hj⟩ := hinv.exists_designates hp
    have hj' : pmePaddr (st'.pde s d) = pageAddr j := by
      rw [hpde s d hp.1 hp.2.1]
      exact hj.2
    rw [PmState.pte, hj', pte_eq_tbl hj]
    exact (htbl j t ht).trans (if_neg (hinv.ne_of_fresh hfree hj))
  · exact (congrArg pmePaddr ((hroots s₀).trans (if_pos rfl))).trans hv
  · intro s d t h
    simp at h

theorem claim_pde {st₃ : PmState} {s₀ d₀ : Nat} {r : Fin PHYSPAGES_MAX} {v : Pme}
    (hinv : PmInv st) (hz : PageZeroed st st₃ pg) (hfree : ¬ st.Allocated pg)
    (hr₀ : st.Designates (.root s₀) r) (hd₀ : d₀ < 1024) (habs : ¬ st.Present (.pde s₀ d₀))
    (hv : pmePaddr v = pageAddr pg) (hvp : pmeIspresent v 1 = true) :
    TableClaimed st (st₃.setTbl r d₀ v) (.pde s₀ d₀) pg := by
  set st' := st₃.setTbl r d₀ v with hst'
  have hroots : st'.roots = st.roots := hz.roots
  have hrpg : r ≠ pg := hinv.ne_of_fresh hfree hr₀
  have htbl : ∀ j u, u < 1024 → st'.tbl j u =
      if j = r ∧ u = d₀ then v else if j = pg then 0#32 else st.tbl j u := by
    intro j u hu
    split
    · rename_i h
      rw [h.1, h.2]
      exact tbl_setPme_same st₃ r d₀ v
    · rename_i h
      rw [← hz.tbl j u hu]
      exact tbl_setPme_ne st₃ v hd₀ hu h
  have hpde : ∀ s d, st.Present (.root s) → d < 1024 →
      st'.pde s d = if s = s₀ ∧ d = d₀ then v else st.pde s d := by
    intro s d hs hd
    obtain ⟨r', hr'⟩ := hinv.exists_designates hs
    have hr'' : pmePaddr (st'.roots s) = pageAddr r' := by
      rw [hroots]
      exact hr'.2
    have hiff : (r' = r ∧ d = d₀) ↔ (s = s₀ ∧ d = d₀) := by
      constructor
      · rintro ⟨rfl, rfl⟩
        have := hinv.owned.unique _ _ _ hr' hr₀
        exact ⟨by simpa using this, rfl⟩
      · rintro ⟨rfl, rfl⟩
        exact ⟨Designates.functional hr' hr₀, rfl⟩
    rw [PmState.pde, hr'', pde_eq_tbl hr']
    change st'.tbl r' d = _
    rw [htbl r' d hd, if_neg (hinv.ne_of_fresh hfree hr')]
    simp only [hiff]
  have hne : ∀ {s d}, st.Present (.pde s d) → ¬ (s = s₀ ∧ d = d₀) := by
    rintro s d hp ⟨rfl, rfl⟩
    exact habs hp
  refine ⟨hfree, habs, hz.paddr, ?_, ?_, ?_, ?_, ?_⟩
  · rintro (s | ⟨s, d⟩)
    · simp only [PmState.Present, hroots, reduceCtorEq, or_false]
    · simp only [PmState.Present, hroots, TableRef.pde.injEq]
      constructor
      · rintro ⟨hs, hd, hp⟩
        rw [hpde s d hs hd] at hp
        split at hp
        · rename_i h
          exact .inr h
        · exact .inl ⟨hs, hd, hp⟩
      · rintro (⟨hs, hd, hp⟩ | ⟨rfl, rfl⟩)
        · exact ⟨hs, hd, by rwa [hpde s d hs hd, if_neg (hne ⟨hs, hd, hp⟩)]⟩
        · exact ⟨hr₀.1, hd₀, by rwa [hpde s d hr₀.1 hd₀, if_pos ⟨rfl, rfl⟩]⟩
  · rintro (s | ⟨s, d⟩) he
    · exact congrFun hroots s
    · exact (hpde s d he.1 he.2.1).trans (if_neg (hne he))
  · intro s d t hp ht
    obtain ⟨j, hj⟩ := hinv.exists_designates hp
    have hj' : pmePaddr (st'.pde s d) = pageAddr j := by
      rw [hpde s d hp.1 hp.2.1, if_neg (hne hp)]
      exact hj.2
    have hjr : ¬ (j = r ∧ t = d₀) := by
      rintro ⟨rfl, -⟩
      exact absurd (hinv.owned.unique _ _ _ hj hr₀) (by simp)
    rw [PmState.pte, hj', pte_eq_tbl hj]
    change st'.tbl j t = _
    rw [htbl j t ht, if_neg hjr, if_neg (hinv.ne_of_fresh hfree hj)]
  · change pmePaddr (st'.pde s₀ d₀) = _
    rw [hpde s₀ d₀ hr₀.1 hd₀, if_pos ⟨rfl, rfl⟩, hv]
  · rintro s d t h ht
    obtain ⟨rfl, rfl⟩ : s₀ = s ∧ d₀ = d := by simpa using h
    rw [PmState.pte, hpde s₀ d₀ hr₀.1 hd₀, if_pos ⟨rfl, rfl⟩, hv]
    change st'.tbl pg t = _
    rw [htbl pg t ht, if_neg (fun h => hrpg h.1.symm), if_pos rfl]

end Claim

end Munix
