import Munix.Kernel.PagemapRuns

/-!
# Munix — closing address spaces

A process's address space is given up by `addrspc_cleanup` and by zeroing the
process structure, which holds its root entry. The cleanup alone can leave the
root entry pointing to a page directory that is back in the pool; zeroing the
entry puts the page maps in order again (`addrspcUnmap_drop`). Pages that the
cleanup did not reach are leaked, with the tables they are in.
-/

namespace Munix

open ByteMem

-- ---------------------------------------------------------------------------
-- Dropping a root
-- ---------------------------------------------------------------------------

/-- The root entry of space `s` is zeroed. -/
def PmState.dropRoot (st : PmState) (s : Nat) : PmState :=
  { st with roots := Function.update st.roots s 0#32 }

section Drop

variable {st : PmState} {s : Nat}

theorem dropRoot_roots_ne {s' : Nat} (hs : s' ≠ s) : (st.dropRoot s).roots s' = st.roots s' :=
  Function.update_of_ne hs _ _

theorem dropRoot_pde_ne {s' : Nat} (hs : s' ≠ s) (d : Nat) :
    (st.dropRoot s).pde s' d = st.pde s' d := by
  rw [PmState.pde, dropRoot_roots_ne hs]
  rfl

theorem dropRoot_pte_ne {s' : Nat} (hs : s' ≠ s) (d t : Nat) :
    (st.dropRoot s).pte s' d t = st.pte s' d t := by
  rw [PmState.pte, dropRoot_pde_ne hs]
  rfl

theorem dropRoot_absent : pmeIspresent ((st.dropRoot s).roots s) 0 = false := by
  simp [PmState.dropRoot, pmeIspresent]

theorem dropRoot_present (e : TableRef) :
    (st.dropRoot s).Present e ↔ st.Present e ∧ ¬ e.space = s := by
  by_cases hs : e.space = s
  · refine iff_of_false (fun h => ?_) fun h => h.2 hs
    have habs : pmeIspresent ((st.dropRoot s).roots e.space) 0 = false := by
      rw [hs]
      exact dropRoot_absent
    cases e with
    | root s' => exact absurd (h.symm.trans habs) (by decide)
    | pde s' d => exact absurd (h.1.symm.trans habs) (by decide)
  · rw [and_iff_left hs]
    cases e with
    | root s' =>
      have hs : s' ≠ s := hs
      rw [PmState.Present, dropRoot_roots_ne hs, PmState.Present]
    | pde s' d =>
      have hs : s' ≠ s := hs
      rw [PmState.Present, dropRoot_roots_ne hs, dropRoot_pde_ne hs, PmState.Present]

theorem dropRoot_designates (e : TableRef) (i : Fin PHYSPAGES_MAX) :
    (st.dropRoot s).Designates e i ↔ st.Designates e i ∧ ¬ e.space = s := by
  rw [PmState.Designates, PmState.Designates, dropRoot_present, and_right_comm]
  refine and_congr_left fun hs => and_congr_right fun _ => ?_
  cases e with
  | root s' =>
    have hs : s' ≠ s := hs
    rw [PmState.entry, PmState.entry, dropRoot_roots_ne hs]
  | pde s' d =>
    have hs : s' ≠ s := hs
    rw [PmState.entry, PmState.entry, dropRoot_pde_ne hs]

theorem PmInv.dropRoot (hinv : PmInv st) (s : Nat) : PmInv (st.dropRoot s) where
  owned := hinv.owned.drop dropRoot_present dropRoot_designates
  pool := hinv.pool
  perm := by
    intro s' d t hp ht hpt
    obtain ⟨hp, hs : s' ≠ s⟩ := (dropRoot_present _).mp hp
    rw [dropRoot_pte_ne hs] at hpt ⊢
    rw [dropRoot_pde_ne hs]
    exact hinv.perm s' d t hp ht hpt

theorem dropRoot_view_ne {s' : Nat} (hs : s' ≠ s) (x : Nat) :
    (st.dropRoot s).view s' x = st.view s' x := by
  simp only [PmState.view, dropRoot_roots_ne hs, dropRoot_pde_ne hs, dropRoot_pte_ne hs]

theorem PmState.Filled.dropRoot (hfill : st.Filled) (s : Nat) : (st.dropRoot s).Filled := by
  intro s' d hp
  obtain ⟨hp, hs : s' ≠ s⟩ := (dropRoot_present _).mp hp
  obtain ⟨t, ht, hsome⟩ := hfill s' d hp
  exact ⟨t, ht, by rwa [dropRoot_view_ne hs]⟩

/-- Dropping the root of a space that has none. -/
theorem dropRoot_of_zero (h : st.roots s = 0#32) : st.dropRoot s = st := by
  rw [PmState.dropRoot, ← h, Function.update_eq_self]

end Drop

-- ---------------------------------------------------------------------------
-- Cleaning up and dropping the root
-- ---------------------------------------------------------------------------

/-- Space `s` is gone, and every other one is as before. -/
structure Closed (st st' : PmState) (s : Nat) : Prop where
  inv    : PmInv st'
  filled : st'.Filled
  root   : st'.roots s = 0#32
  roots  : ∀ s', s' ≠ s → st'.roots s' = st.roots s'
  keep   : ∀ e i, e.space ≠ s → (st'.Designates e i ↔ st.Designates e i)
  view   : ∀ s' x, s' ≠ s → x < 2 ^ 20 → st'.view s' x = st.view s' x

theorem UnmapTo.closed {gone : Nat → Prop} {st st₁ : PmState} {s : Nat} (h : UnmapTo gone st st₁ s)
    (hfill : st₁.Filled) : Closed st (st₁.dropRoot s) s where
  inv := h.inv.dropRoot s
  filled := hfill.dropRoot s
  root := Function.update_self _ _ _
  roots s' hs := by rw [dropRoot_roots_ne hs, h.roots]
  keep e i he := by rw [dropRoot_designates, and_iff_left he, h.keep e i he]
  view s' x hs hx := by rw [dropRoot_view_ne hs, h.other s' x hs hx]

theorem closed_dropRoot {st : PmState} (hinv : PmInv st) (hfill : st.Filled) (s : Nat) :
    Closed st (st.dropRoot s) s :=
  (@UnmapTo.refl (fun _ => False) _ _ hinv fun _ _ hf => hf.elim).closed hfill

/-- The released page directory, with the root dropped. -/
theorem releaseRoot_dropRoot (st : PmState) (s : Nat) (r : Fin PHYSPAGES_MAX) :
    (st.releaseRoot s r).dropRoot s = physpageFree (st.dropRoot s) r := by
  simp [PmState.releaseRoot, PmState.dropRoot, physpageFree, PmState.setPhyspage, PmState.setPme]

/-- A page directory that is empty can be freed once its root is dropped. -/
theorem Closed.releaseRoot {st st₁ : PmState} {s : Nat} {r : Fin PHYSPAGES_MAX}
    (h : Closed st (st₁.dropRoot s) s) (hinv : PmInv st₁) (hr : st₁.Designates (.root s) r)
    (hempty : ∀ d, ¬ st₁.Present (.pde s d)) :
    Closed st ((st₁.releaseRoot s r).dropRoot s) s ∧
      ∀ i, ((st₁.releaseRoot s r).dropRoot s).Leaked i ↔ st₁.Leaked i := by
  rw [releaseRoot_dropRoot]
  set st' := physpageFree (st₁.dropRoot s) r with hst'
  -- the space has no entry but its root
  have honly : ∀ e, st₁.Present e → (¬ e.space = s ↔ e ≠ .root s) := by
    intro e he
    cases e with
    | root s' => simp [TableRef.space]
    | pde s' d =>
      refine iff_of_true ?_ (by simp)
      rintro rfl
      exact hempty d he
  have hpres : ∀ e, st'.Present e ↔ st₁.Present e ∧ e ≠ .root s := by
    intro e
    change (st₁.dropRoot s).Present e ↔ _
    rw [dropRoot_present]
    exact and_congr_right (honly e)
  have hdes : ∀ e i, st'.Designates e i ↔ st₁.Designates e i ∧ e ≠ .root s := by
    intro e i
    change (st₁.dropRoot s).Designates e i ↔ _
    rw [dropRoot_designates]
    exact and_congr_right fun he => honly e he.1
  have hpaddr : ∀ i, (st'.physpages i).paddr = if i = r then 0#32 else (st₁.physpages i).paddr := by
    intro i
    by_cases hi : i = r
    · subst hi
      simp [hst', physpageFree, PmState.setPhyspage]
    · simp [hst', physpageFree, PmState.setPhyspage, hi, PmState.dropRoot]
  have halloc : ∀ i, st'.Allocated i ↔ st₁.Allocated i ∧ i ≠ r := by
    intro i
    unfold PmState.Allocated
    rw [hpaddr]
    split <;> simp_all
  refine ⟨⟨⟨hinv.owned.release hr hpres hdes halloc, ?_, h.inv.perm⟩, h.filled, h.root, h.roots,
    h.keep, h.view⟩, fun i => Lost.release_iff hr (fun i hi => Designates.functional hi hr) hdes halloc⟩
  intro i hi
  obtain ⟨hi, hne⟩ := (halloc i).mp hi
  rw [hpaddr, if_neg hne, hinv.pool i hi]

/-- **Unmapping and then dropping the root** keeps the page maps in order. No
page is leaked if no page is left in the space. -/
theorem addrspcUnmap_drop {st : PmState} (hinv : PmInv st) (hfill : st.Filled) (s : Nat)
    (vaddr size : BitVec 32) :
    ∃ st', addrspcUnmap st s vaddr size = some (0, st') ∧ Closed st (st'.dropRoot s) s ∧
      (¬ st.PageLeft s vaddr size → ∀ i, (st'.dropRoot s).Leaked i ↔ st.Leaked i) := by
  obtain ⟨st₁, hun, hfill₁, ⟨hleft, hrun⟩ | ⟨-, r, hr, hempty, hrun⟩⟩ :=
    addrspcUnmap_walk hinv hfill s vaddr size
  · exact ⟨st₁, hrun, hun.closed hfill₁, fun h => absurd hleft h⟩
  · obtain ⟨hclosed, hleak⟩ := (hun.closed hfill₁).releaseRoot hun.inv hr hempty
    exact ⟨_, hrun, hclosed, fun _ i => (hleak i).trans (hun.leaked i)⟩

-- ---------------------------------------------------------------------------
-- A new address space
-- ---------------------------------------------------------------------------

/-- `addrspc_init` maps the kernel, or nothing if the pool is used up. -/
theorem addrspcInit_spec {st : PmState} (hinv : PmInv st) (s : Nat) :
    ∃ res st' n, addrspcInit st s = some (res, st') ∧ MapTo st st' s 0 n 0#32 0#32 ∧
      ((res = 0 ∧ n = 1024) ∨ (res = -ENOMEM ∧ n = 0)) := by
  obtain ⟨res, st', n, hrun, hmap, hn, hend⟩ := addrspcMap_spec hinv s KMAP_MIN KMAP_MIN
    (KMAP_MAX - KMAP_MIN) (by decide : FlagSet 0#32)
  have h0 : KMAP_MIN.toNat / 4096 = 0 := by decide
  have hpaddr : alignDown KMAP_MIN PAGESZ = 0#32 := by decide
  have hk : (alignUp (KMAP_MAX - KMAP_MIN) PAGESZ).toNat / 4096 = 1024 := by decide
  rw [h0, hpaddr] at hmap
  rw [h0, hk] at hend
  rw [hk] at hn
  refine ⟨res, st', n, hrun, hmap, ?_⟩
  rcases hend with ⟨hres, hn'⟩ | ⟨hres, hn', -⟩
  · exact .inl ⟨hres, by omega⟩
  · exact .inr ⟨hres, by omega⟩

/-- A table that was not there before has a page that was free before. -/
theorem MapTo.new_page {st st' : PmState} {s p m : Nat} {paddr : BitVec 32} {flags : Pme}
    (h : MapTo st st' s p m paddr flags) {e : TableRef} {i : Fin PHYSPAGES_MAX}
    (hi : st'.Designates e i) (he : ¬ st.Present e) : ¬ st.Allocated i := by
  intro hal
  by_cases hno : ∀ e', ¬ st.Designates e' i
  · exact ((h.leaked i).mpr ⟨hal, hno⟩).2 e hi
  · push Not at hno
    obtain ⟨e', he'⟩ := hno
    rw [← h.inv.owned.unique e' e i (h.designates e' i he') hi] at he
    exact he he'.1

/-- **Setting up a space takes two pages**, one for its page directory and one
for the page table of the kernel; it fails exactly when there are fewer. -/
theorem addrspcInit_fails_iff {st : PmState} (hinv : PmInv st) {s : Nat} (hroot : st.roots s = 0#32) :
    (∃ st', addrspcInit st s = some (-ENOMEM, st')) ↔ PHYSPAGES_MAX < st.used.card + 2 := by
  constructor
  · rintro ⟨st', hrun⟩
    by_contra hfit
    obtain ⟨st'', hrun', -⟩ := addrspcMap_succeeds hinv s KMAP_MIN KMAP_MIN (KMAP_MAX - KMAP_MIN)
      (by decide : FlagSet 0#32) 2 (by decide) (.inl rfl) (by omega)
    have h := (Prod.mk.inj (Option.some.inj (hrun.symm.trans hrun'))).1
    simp [ENOMEM] at h
  · intro hused
    obtain ⟨res, st', n, hrun, hmap, ⟨-, rfl⟩ | ⟨rfl, -⟩⟩ := addrspcInit_spec hinv s
    · exfalso
      have habs : ¬ st.Present (.root s) := by simp [PmState.Present, pmeIspresent, hroot]
      have htbl : st'.Present (.pde s 0) := by
        by_contra hno
        have hview := hmap.view 0 (by decide)
        rw [view_eq_none_of_absent (by decide) hno, if_pos (by decide)] at hview
        simp at hview
      obtain ⟨i, hi⟩ := hmap.inv.exists_designates (Present.root htbl)
      obtain ⟨j, hj⟩ := hmap.inv.exists_designates htbl
      have hi₀ := hmap.new_page hi habs
      have hj₀ := hmap.new_page hj fun h => habs (Present.root h)
      have hij : i ≠ j := by
        rintro rfl
        exact absurd (hmap.inv.owned.unique _ _ _ hi hj) (by simp)
      have hcard : (insert i (insert j st.used)).card = st.used.card + 2 := by
        rw [Finset.card_insert_of_notMem, Finset.card_insert_of_notMem]
        · exact fun h => hj₀ (mem_used.mp h)
        · simpa [hij] using fun h => hi₀ (mem_used.mp h)
      have hle := Finset.card_le_univ (insert i (insert j st.used))
      rw [Fintype.card_fin] at hle
      omega
    · exact ⟨st', hrun⟩

-- ---------------------------------------------------------------------------
-- A space that could not be set up
-- ---------------------------------------------------------------------------

theorem addrspcUnmap_of_zero {st : PmState} {s : Nat} (h : st.roots s = 0#32) (vaddr size : BitVec 32) :
    addrspcUnmap st s vaddr size = some (0, st) := by
  rw [addrspcUnmap, addrspcUnmapRecursive_absent]
  simp [PmState.pme, h, pmeIspresent]

/-- Unmapping a space whose page directory has been released: the pool has no
address for it any more, and nothing happens. -/
theorem addrspcUnmap_of_released {st : PmState} {s : Nat} {r : Fin PHYSPAGES_MAX}
    (hr : st.Designates (.root s) r) (vaddr size : BitVec 32) :
    ∃ st', addrspcUnmap (st.releaseRoot s r) s vaddr size = some (-ENOMEM, st') ∧
      SameTables (st.releaseRoot s r) st' := by
  have hroot : (st.releaseRoot s r).roots s = st.roots s &&& ~~~PME_PRESENT :=
    Function.update_self _ _ _
  have hpaddr : pmePaddr ((st.releaseRoot s r).roots s) = pageAddr r := by
    rw [hroot, pmePaddr_clear]
    exact hr.2
  have hpres : pmeIspresent ((st.releaseRoot s r).roots s) 0 = true := by
    rw [pmeIspresent_root]
    intro h0
    rw [h0] at hpaddr
    exact pageAddr_ne_zero r (hpaddr.symm.trans (by decide))
  have hfree : ((st.releaseRoot s r).physpages r).paddr = 0#32 := by
    simp [PmState.releaseRoot, physpageFree, PmState.setPhyspage]
  refine ⟨_, ?_, physpageAccess_same (st.releaseRoot s r) r⟩
  rw [addrspcUnmap, addrspcUnmapRecursive]
  simp only [PmState.pme, hpres, hpaddr, physpageFind_pageAddr, physpageAccess, hfree]
  rfl

theorem Closed.same_right {st st₁ st₂ : PmState} {s : Nat} (h : Closed st st₁ s)
    (hs : SameTables st₁ st₂) : Closed st st₂ s where
  inv := hs.inv h.inv
  filled := hs.filled h.filled
  root := (congrFun hs.roots s).trans h.root
  roots s' hs' := (congrFun hs.roots s').trans (h.roots s' hs')
  keep e i he := (hs.designates e i).trans (h.keep e i he)
  view s' x hs' hx := (hs.view s' x).trans (h.view s' x hs' hx)

/-- What is mapped in a space before it is closed does not matter. -/
theorem Closed.of_mapTo {st st₁ st₂ : PmState} {s p m : Nat} {paddr : BitVec 32} {flags : Pme}
    (h : Closed st₁ st₂ s) (hinv : PmInv st) (hm : MapTo st st₁ s p m paddr flags) :
    Closed st st₂ s where
  inv := h.inv
  filled := h.filled
  root := h.root
  roots s' hs := (h.roots s' hs).trans (hm.roots s' hs)
  keep e i he := by
    rw [h.keep e i he]
    refine ⟨fun hd => ?_, hm.designates e i⟩
    have hp : st.Present e := by
      cases e with
      | root s' =>
        have hs : s' ≠ s := he
        simpa only [PmState.Present, hm.roots s' hs] using hd.1
      | pde s' d =>
        rcases hm.grow s' d hd.1 with hp | ⟨rfl, -⟩
        · exact hp
        · exact absurd rfl he
    obtain ⟨i', hi'⟩ := hinv.exists_designates hp
    rwa [Designates.functional hd (hm.designates e i' hi')]
  view s' x hs hx := (h.view s' x hs hx).trans (hm.other s' x hs hx)

theorem SameTables.dropRoot {st st' : PmState} (h : SameTables st st') (s : Nat) :
    SameTables (st.dropRoot s) (st'.dropRoot s) where
  roots := by rw [PmState.dropRoot, PmState.dropRoot, h.roots]
  mem := h.mem
  paddr := h.paddr

/-- If nothing was in a space and closing it leaks no page, then the pool is as
before. -/
theorem Closed.paddr_eq {st st' : PmState} {s : Nat} (h : Closed st st' s) (hinv : PmInv st)
    (hroot : st.roots s = 0#32) (hleak : ∀ i, st'.Leaked i ↔ st.Leaked i) (i : Fin PHYSPAGES_MAX) :
    (st'.physpages i).paddr = (st.physpages i).paddr := by
  have habs : ∀ {σ : PmState}, σ.roots s = 0#32 → ∀ e, e.space = s → ¬ σ.Designates e i := by
    rintro σ h0 e rfl hd
    have hz : pmeIspresent (σ.roots e.space) 0 = false := by rw [h0]; rfl
    cases e with
    | root s' => exact absurd (hd.1.symm.trans hz) (by decide)
    | pde s' d => exact absurd (hd.1.1.symm.trans hz) (by decide)
  have hdes : ∀ e, st'.Designates e i ↔ st.Designates e i := by
    intro e
    by_cases he : e.space = s
    · exact iff_of_false (habs h.root e he) (habs hroot e he)
    · exact h.keep e i he
  have hcases : ∀ {σ : PmState}, PmInv σ → (σ.Allocated i ↔ (∃ e, σ.Designates e i) ∨ σ.Leaked i) := by
    intro σ hσ
    constructor
    · intro hal
      by_cases hex : ∃ e, σ.Designates e i
      · exact .inl hex
      · exact .inr ⟨hal, fun e he => hex ⟨e, he⟩⟩
    · rintro (⟨e, he⟩ | hl)
      · exact hσ.owned.alloc_of_des e i he
      · exact hl.1
  have hal : st'.Allocated i ↔ st.Allocated i := by
    rw [hcases h.inv, hcases hinv, hleak i]
    simp only [hdes]
  by_cases ha : st.Allocated i
  · rw [hinv.pool i ha, h.inv.pool i (hal.mpr ha)]
  · have h0 : (st.physpages i).paddr = 0#32 := not_not.mp ha
    have h0' : (st'.physpages i).paddr = 0#32 := not_not.mp fun h => ha (hal.mp h)
    rw [h0, h0']

/-- **A space that could not be set up** and is cleaned up twice, as on the error
path of the loader and then by `process_close`, leaves the pool as it was. -/
theorem addrspcInit_fails_closed {st st₀ : PmState} (hinv : PmInv st) (hfill : st.Filled) {s : Nat}
    (hroot : st.roots s = 0#32) (hinit : addrspcInit st s = some (-ENOMEM, st₀)) :
    ∃ st₁ res st₂, addrspcCleanup st₀ s = some (0, st₁) ∧ addrspcCleanup st₁ s = some (res, st₂) ∧
      (∀ s', s' ≠ s → st₁.roots s' = st.roots s') ∧
      (∀ s' x, s' ≠ s → x < 2 ^ 20 → st₁.view s' x = st.view s' x) ∧
      Closed st (st₂.dropRoot s) s ∧
      ∀ i, ((st₂.dropRoot s).physpages i).paddr = (st.physpages i).paddr := by
  obtain ⟨res, st', n, hrun, hmap, hend⟩ := addrspcInit_spec hinv s
  obtain ⟨rfl, rfl⟩ : -ENOMEM = res ∧ st₀ = st' := by simpa using hinit.symm.trans hrun
  obtain rfl : n = 0 := by
    rcases hend with ⟨h0, -⟩ | ⟨-, hn⟩
    · simp [ENOMEM] at h0
    · exact hn
  have hfill₀ := hmap.filled hfill
  have hnone : ∀ x, x < 2 ^ 20 → st₀.view s x = none := by
    intro x hx
    rw [hmap.view x hx, if_neg (by omega), PmState.view, hroot]
    rfl
  obtain ⟨st₁, hun, hfill₁, ⟨hleft, -⟩ | ⟨-, r, hr, hempty, hclean⟩⟩ :=
    addrspcUnmap_walk hmap.inv hfill₀ s 0#32 SIZE_MAX
  · -- not even a page directory
    have h0 : st₀.roots s = 0#32 := by
      rcases hleft with h0 | ⟨x, hx, hsome, -⟩
      · exact h0
      · rw [hnone x hx] at hsome
        cases hsome
    have hclosed := (closed_dropRoot hmap.inv hfill₀ s).of_mapTo hinv hmap
    refine ⟨st₀, 0, st₀, addrspcUnmap_of_zero h0 _ _, addrspcUnmap_of_zero h0 _ _, hmap.roots,
      hmap.other, hclosed, ?_⟩
    refine hclosed.paddr_eq hinv hroot fun i => ?_
    rw [dropRoot_of_zero h0]
    exact hmap.leaked i
  · -- the page directory goes back at once, and the second cleanup finds it released
    obtain ⟨st₂, hclean₂, hsame⟩ := addrspcUnmap_of_released hr 0#32 SIZE_MAX
    obtain ⟨hclosed, hleak⟩ := (hun.closed hfill₁).releaseRoot hun.inv hr hempty
    have hsame := hsame.dropRoot s
    have hclosed := (hclosed.same_right hsame).of_mapTo hinv hmap
    refine ⟨_, _, st₂, hclean, hclean₂, ?_, ?_, hclosed, ?_⟩
    · intro s' hs
      rw [← hmap.roots s' hs, ← hun.roots]
      exact Function.update_of_ne hs _ _
    · intro s' x hs hx
      rw [(release_root hr).1 s' x, hun.other s' x hs hx, hmap.other s' x hs hx]
    refine hclosed.paddr_eq hinv hroot fun i => ?_
    calc (st₂.dropRoot s).Leaked i
      _ ↔ ((st₁.releaseRoot s r).dropRoot s).Leaked i :=
          Lost.congr_iff hsame.designates hsame.allocated
      _ ↔ st₁.Leaked i := hleak i
      _ ↔ st₀.Leaked i := hun.leaked i
      _ ↔ st.Leaked i := hmap.leaked i

end Munix
