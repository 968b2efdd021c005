import Munix.Kernel.LoaderRuns

/-!
# Munix — the pool of page tables while a program is loaded

The pool has five pages. The kernel's own page map takes two of them, and that
of a process three: its page directory, the page table of the kernel, and the
page table that the user stack is in. So while the segments of a program are
loaded the pool is used up (`Resources.Packed`), and a segment can be mapped
exactly if all of its pages are below 8 MiB.

`addrspc_cleanup` charges 4 MiB for every page that is not there. With the
stack in the second table, there are too few of them for the size to run out,
and all three pages of the process go back to the pool.

* `processLoadPath_conserves`: loading a program and closing it leaves the pool
  as it was, and so does a load that fails.
-/

namespace Munix

open ByteMem

-- ---------------------------------------------------------------------------
-- A pool that is used up
-- ---------------------------------------------------------------------------

/-- The process in slot `p` has an address space with the kernel and the user
stack in it. -/
structure Resources.Packed (r : Resources) (p : Fin PROCESS_MAX) : Prop where
  inOrder : r.InOrder
  kernel  : ∀ x, x < 1024 → (r.pm.view p.val x).isSome = true
  stack   : ∀ x, 1264 ≤ x → x < 1280 → (r.pm.view p.val x).isSome = true

/-- The table entries that there are then. -/
def packedRefs (p : Fin PROCESS_MAX) : Fin 5 → TableRef
  | 0 => .root kernelSpace
  | 1 => .pde kernelSpace 0
  | 2 => .root p.val
  | 3 => .pde p.val 0
  | 4 => .pde p.val 1

theorem packedRefs_injective (p : Fin PROCESS_MAX) : Function.Injective (packedRefs p) := by
  have hne := kernelSpace_ne p
  intro i j h
  match i, j with
  | 0, 0 | 1, 1 | 2, 2 | 3, 3 | 4, 4 => rfl
  | 0, 2 | 2, 0 | 1, 3 | 3, 1 => exact absurd h (by simp [packedRefs, hne, hne.symm])
  | 0, 1 | 0, 3 | 0, 4 | 1, 0 | 1, 2 | 1, 4 | 2, 1 | 2, 3 | 2, 4 | 3, 0 | 3, 2 | 3, 4 | 4, 0 | 4, 1
  | 4, 2 | 4, 3 => exact absurd h (by simp [packedRefs])

theorem present_of_view {st : PmState} {s x : Nat} (hx : x < 2 ^ 20)
    (h : (st.view s x).isSome = true) : st.Present (.pde s (x / 1024)) := by
  by_contra hno
  rw [view_eq_none_of_absent hx hno] at h
  cases h

section Packed

variable {r r' : Resources} {p : Fin PROCESS_MAX}

theorem Resources.Packed.present (h : r.Packed p) (k : Fin 5) :
    r.pm.Present (packedRefs p k) := by
  have hkernel : r.pm.Present (.pde kernelSpace 0) :=
    present_of_view (x := 0) (by decide) ((h.inOrder.kernel 0 (by decide)).mpr (by decide))
  have hfirst : r.pm.Present (.pde p.val 0) :=
    present_of_view (x := 0) (by decide) (h.kernel 0 (by decide))
  have hstack : r.pm.Present (.pde p.val 1) :=
    present_of_view (x := 1264) (by decide) (h.stack 1264 (by decide) (by decide))
  match k with
  | 0 => exact Present.root hkernel
  | 1 => exact hkernel
  | 2 => exact Present.root hfirst
  | 3 => exact hfirst
  | 4 => exact hstack

/-- Five entries for five pages: every page is owned by one of them. -/
theorem Resources.Packed.owner (h : r.Packed p) (i : Fin PHYSPAGES_MAX) :
    ∃ k, r.pm.Designates (packedRefs p k) i := by
  choose f hf using fun k => h.inOrder.inv.exists_designates (h.present k)
  have hinj : Function.Injective f := by
    intro k k' heq
    apply packedRefs_injective p
    exact h.inOrder.inv.owned.unique _ _ (f k) (hf k) (heq ▸ hf k')
  obtain ⟨k, rfl⟩ := @Finite.surjective_of_injective (Fin 5) _ f hinj i
  exact ⟨k, hf k⟩

/-- There is no other entry. -/
theorem Resources.Packed.eq_ref (h : r.Packed p) {e : TableRef} (he : r.pm.Present e) :
    ∃ k, e = packedRefs p k := by
  obtain ⟨i, hi⟩ := h.inOrder.inv.exists_designates he
  obtain ⟨k, hk⟩ := h.owner i
  exact ⟨k, h.inOrder.inv.owned.unique _ _ i hi hk⟩

theorem Resources.Packed.pde_le (h : r.Packed p) {d : Nat} (hd : r.pm.Present (.pde p.val d)) :
    d ≤ 1 := by
  have hne := kernelSpace_ne p
  obtain ⟨k, hk⟩ := h.eq_ref hd
  match k with
  | 0 | 1 | 2 => simp [packedRefs, hne.symm] at hk
  | 3 | 4 =>
    simp only [packedRefs, TableRef.pde.injEq, true_and] at hk
    omega

/-- Nothing is mapped from 8 MiB on. -/
theorem Resources.Packed.view_high (h : r.Packed p) {x : Nat} (hx : x < 2 ^ 20)
    (hhigh : 2048 ≤ x) : r.pm.view p.val x = none := by
  refine view_eq_none_of_absent hx fun hp => ?_
  have := h.pde_le hp
  omega

theorem Resources.Packed.allocated (h : r.Packed p) (i : Fin PHYSPAGES_MAX) : r.pm.Allocated i := by
  obtain ⟨k, hk⟩ := h.owner i
  exact h.inOrder.inv.owned.alloc_of_des _ i hk

theorem Resources.Packed.not_leaked (h : r.Packed p) (i : Fin PHYSPAGES_MAX) : ¬ r.pm.Leaked i := by
  obtain ⟨k, hk⟩ := h.owner i
  exact fun hleak => hleak.2 _ hk

theorem Resources.Packed.used (h : r.Packed p) : r.pm.used.card = PHYSPAGES_MAX := by
  rw [Finset.eq_univ_iff_forall.mpr fun i => mem_used.mpr (h.allocated i), Finset.card_univ,
    Fintype.card_fin]

/-- A view that only grows. -/
theorem Resources.Packed.of_view (h : r.Packed p) (hr' : r'.InOrder)
    (hview : ∀ x, x < 2 ^ 20 → (r.pm.view p.val x).isSome = true → (r'.pm.view p.val x).isSome = true) :
    r'.Packed p where
  inOrder := hr'
  kernel x hx := hview x (by omega) (h.kernel x hx)
  stack x hx hx' := hview x (by omega) (h.stack x hx hx')

theorem Resources.Packed.mapTo {x n : Nat} {paddr : BitVec 32} {flags : Pme} (h : r.Packed p)
    (hm : MapTo r.pm r'.pm p.val x n paddr flags) : r'.Packed p := by
  refine h.of_view (h.inOrder.mapTo hm) fun y hy hsome => ?_
  rw [hm.view y hy]
  split
  · rfl
  · exact hsome

theorem Resources.Packed.setMem {m : Mem} (h : r.Packed p) (hm : KernelKept r.pm.mem m) :
    (r.setMem m).Packed p := by
  refine h.of_view (h.inOrder.setMem hm) fun y hy hsome => ?_
  exact (congrArg Option.isSome (view_kept h.inOrder.inv hm p.val hy)).trans hsome

theorem Resources.Packed.of_pm (h : r.Packed p) (hpm : r'.pm = r.pm) : r'.Packed p := by
  refine h.of_view (h.inOrder.of_pm hpm) fun y _ hsome => ?_
  rwa [hpm]

/-- Closing another space. -/
theorem Resources.Packed.closed {q : Fin PROCESS_MAX} (h : r.Packed p) (hpq : p ≠ q)
    (hc : Closed r.pm r'.pm q.val) : r'.Packed p := by
  refine h.of_view (h.inOrder.closed hc) fun y hy hsome => ?_
  rwa [hc.view p.val y (fun heq => hpq (Fin.ext heq)) hy]

end Packed

-- ---------------------------------------------------------------------------
-- Mapping a segment
-- ---------------------------------------------------------------------------

/-- The pages of the segment are in the tables that a process has. -/
def SegMappable (phdr : Phdr) : Prop :=
  segSize phdr = 0#32 ∨ (segVaddr phdr).toNat + (segSize phdr).toNat ≤ 0x800000

instance (phdr : Phdr) : Decidable (SegMappable phdr) := inferInstanceAs (Decidable (_ ∨ _))

/-- **When a segment can be mapped.** -/
theorem Resources.Packed.map_segment {r : Resources} {p : Fin PROCESS_MAX} (h : r.Packed p)
    (phdr : Phdr) :
    ∃ res st n, addrspcMap r.pm p.val (segVaddr phdr) (segVaddr phdr) (segSize phdr) (segFlags phdr) =
        some (res, st) ∧
      MapTo r.pm st p.val ((segVaddr phdr).toNat / 4096) n (segVaddr phdr) (segFlags phdr) ∧
      (res = 0 ∧ SegMappable phdr ∧ n = (segSize phdr).toNat / 4096 ∨
        res = -ENOMEM ∧ ¬ SegMappable phdr) := by
  obtain ⟨res, st, n, hrun, hmap, hn, hend⟩ := addrspcMap_spec h.inOrder.inv p.val (segVaddr phdr)
    (segVaddr phdr) (segSize phdr) (segFlags_flagSet phdr)
  have hpacked : Resources.Packed { r with pm := st } p := h.mapTo hmap
  have hal := segSize_aligned phdr
  have hvlt := (segVaddr phdr).isLt
  have hslt := (segSize phdr).isLt
  have hdown : (segVaddr phdr).toNat % 4096 = 0 := by
    rw [segVaddr, PAGESZ, alignDown_toNat]
    omega
  have hupEq : (alignUp (segSize phdr) PAGESZ).toNat = (segSize phdr).toNat := by
    rw [PAGESZ, alignUp_toNat (by omega)]
    omega
  have hpaddr : alignDown (segVaddr phdr) PAGESZ = segVaddr phdr := by
    refine BitVec.eq_of_toNat_eq ?_
    rw [PAGESZ, alignDown_toNat]
    omega
  rw [hpaddr] at hmap
  rw [hupEq] at hn hend
  refine ⟨res, st, n, hrun, hmap, ?_⟩
  have hzero : segSize phdr = 0#32 ↔ (segSize phdr).toNat = 0 :=
    ⟨fun h => by rw [h]; rfl, fun h => BitVec.eq_of_toNat_eq h⟩
  rw [SegMappable, hzero]
  set v := (segVaddr phdr).toNat
  set k := (segSize phdr).toNat
  rcases hend with ⟨rfl, hmin⟩ | ⟨rfl, hstop, -, habs⟩
  · -- the last page that was mapped is below 8 MiB
    left
    have hlast : n = 0 ∨ v / 4096 + n ≤ 2048 := by
      by_contra hout
      push Not at hout
      have hview := hmap.view (v / 4096 + (n - 1)) (by omega)
      rw [if_pos (by omega)] at hview
      have hp := present_of_view (s := p.val) (x := v / 4096 + (n - 1)) (by omega)
        (by rw [hview]; rfl)
      have := hpacked.pde_le hp
      omega
    exact ⟨rfl, by omega, by omega⟩
  · right
    refine ⟨rfl, fun hfit => ?_⟩
    by_cases hk : k = 0
    · -- nothing to map
      obtain ⟨st', hok⟩ := addrspcMap_empty h.inOrder.inv (h.present 2) (segVaddr phdr) (segVaddr phdr)
        (BitVec.eq_of_toNat_eq (hupEq.trans hk)) (segFlags_flagSet phdr)
      have := (Prod.mk.inj (Option.some.inj (hrun.symm.trans hok))).1
      simp [ENOMEM] at this
    · have hd : (v / 4096 + n) / 1024 ≤ 1 := by omega
      obtain hd | hd : (v / 4096 + n) / 1024 = 0 ∨ (v / 4096 + n) / 1024 = 1 := by omega
      · exact habs (hd ▸ hpacked.present 3)
      · exact habs (hd ▸ hpacked.present 4)

-- ---------------------------------------------------------------------------
-- Cleaning up
-- ---------------------------------------------------------------------------

section Cleanup

variable {r : Resources} {p : Fin PROCESS_MAX}

/-- The untranslated pages that the walk can meet are in the second table, and
none of the stack's. -/
theorem Resources.Packed.holes_le (h : r.Packed p) {y : Nat} (hy : y ≤ 2 ^ 20) :
    holesBefore (r.pm.view p.val) 0 y ≤ 1008 := by
  have hsub : ((Finset.range y).filter fun x => InWalk (r.pm.view p.val) 0 x ∧
      (r.pm.view p.val x).isSome = false) ⊆ Finset.Ico 1024 1264 ∪ Finset.Ico 1280 2048 := by
    intro x hx
    obtain ⟨hxy, ⟨-, ⟨t, ht, hsome⟩, -⟩, hnone⟩ := Finset.mem_filter.mp hx
    have hxy := Finset.mem_range.mp hxy
    have hlow : ¬ x < 1024 := fun hlt => by
      rw [h.kernel x hlt] at hnone
      cases hnone
    have hstack : ¬ (1264 ≤ x ∧ x < 1280) := fun hs => by
      rw [h.stack x hs.1 hs.2] at hnone
      cases hnone
    have hd : x / 1024 ≤ 1 := by
      by_contra hd
      rw [h.view_high (x := 1024 * (x / 1024) + t) (by omega) (by omega)] at hsome
      cases hsome
    rw [Finset.mem_union, Finset.mem_Ico, Finset.mem_Ico]
    omega
  refine (Finset.card_le_card hsub).trans ((Finset.card_union_le _ _).trans ?_)
  simp

/-- The translated ones are in the first two tables. -/
theorem Resources.Packed.pages_le (h : r.Packed p) {y : Nat} (hy : y ≤ 2 ^ 20) :
    pagesBefore (r.pm.view p.val) 0 y ≤ 2048 := by
  have hsub : ((Finset.range y).filter fun x => InWalk (r.pm.view p.val) 0 x ∧
      (r.pm.view p.val x).isSome = true) ⊆ Finset.range 2048 := by
    intro x hx
    obtain ⟨hxy, -, hsome⟩ := Finset.mem_filter.mp hx
    have hxy := Finset.mem_range.mp hxy
    rw [Finset.mem_range]
    by_contra hhigh
    rw [h.view_high (by omega) (by omega)] at hsome
    cases hsome
  exact (Finset.card_le_card hsub).trans (by simp)

/-- The size never gets down to what one entry can cost. -/
theorem Resources.Packed.sizeLeft_gt (h : r.Packed p) {y : Nat} (hy : y ≤ 2 ^ 20) :
    4194304#32 < sizeLeft (r.pm.view p.val) 0 SIZE_MAX y := by
  have hpages := h.pages_le hy
  have hholes := h.holes_le hy
  rw [sizeLeft]
  generalize pagesBefore (r.pm.view p.val) 0 y = n at *
  generalize holesBefore (r.pm.view p.val) 0 y = k at *
  have hcost : (BitVec.ofNat 32 (4096 * n + 4194304 * k)).toNat = 4096 * n + 4194304 * k := by
    rw [BitVec.toNat_ofNat, Nat.mod_eq_of_lt (by omega)]
  unfold SIZE_MAX
  bv_omega

/-- **The cleanup walk reaches every page** of a process. -/
theorem Resources.Packed.not_pageLeft (h : r.Packed p) : ¬ r.pm.PageLeft p.val 0#32 SIZE_MAX := by
  rintro (hroot | ⟨x, hx, hsome, hreach⟩)
  · have hp : pmeIspresent (r.pm.roots p.val) 0 = true := Present.root (h.present 3)
    rw [hroot] at hp
    cases hp
  · refine hreach ⟨⟨by simp, ⟨x % 1024, Nat.mod_lt _ (by decide), ?_⟩, ?_⟩, by decide, ?_⟩
    · rwa [show 1024 * (x / 1024) + x % 1024 = x by omega]
    · have hstart : enterAt (r.pm.view p.val) ((0#32).toNat / 4096) (x / 1024) = 0 := by
        unfold enterAt
        split <;> rfl
      omega
    · intro y hy _
      have hleft : 4194304#32 < sizeLeft (r.pm.view p.val) 0 SIZE_MAX y := h.sizeLeft_gt (by omega)
      split
      · intro heq
        have heq : sizeLeft (r.pm.view p.val) 0 SIZE_MAX y = 4096#32 := heq
        rw [heq] at hleft
        exact absurd hleft (by decide)
      · exact hleft

end Cleanup

-- ---------------------------------------------------------------------------
-- The pool, before and after
-- ---------------------------------------------------------------------------

/-- The page map of the kernel has the same tables. -/
def SameKernel (r r' : Resources) : Prop :=
  ∀ e i, e.space = kernelSpace → (r'.pm.Designates e i ↔ r.pm.Designates e i)

/-- So has the pool the same pages in use. -/
structure SamePool (r r' : Resources) : Prop where
  paddr  : ∀ i, (r'.pm.physpages i).paddr = (r.pm.physpages i).paddr
  kernel : SameKernel r r'

/-- No page but those of the kernel's own page map is in use. -/
def Resources.OnlyKernel (r : Resources) : Prop :=
  ∀ i, r.pm.Allocated i → ∃ e, e.space = kernelSpace ∧ r.pm.Designates e i

/-- What the kernel's entries designate stays when the root of a process is dropped. -/
theorem dropRoot_designates_kernel (st : PmState) (p : Fin PROCESS_MAX) {e : TableRef}
    (i : Fin PHYSPAGES_MAX) (he : e.space = kernelSpace) :
    (st.dropRoot p.val).Designates e i ↔ st.Designates e i := by
  have hne := kernelSpace_ne p
  rw [dropRoot_designates, and_iff_left (by rw [he]; exact hne)]

section SamePool

variable {r r₁ r₂ : Resources} {p : Fin PROCESS_MAX}

theorem SameKernel.refl (r : Resources) : SameKernel r r := fun _ _ _ => Iff.rfl

theorem SameKernel.trans (h : SameKernel r r₁) (h' : SameKernel r₁ r₂) : SameKernel r r₂ :=
  fun e i he => (h' e i he).trans (h e i he)

theorem SameKernel.of_pm (hpm : r₁.pm = r.pm) : SameKernel r r₁ := by
  intro e i _
  rw [hpm]

theorem SameKernel.mapTo {x n : Nat} {paddr : BitVec 32} {flags : Pme} (hinv : PmInv r.pm)
    (hm : MapTo r.pm r₁.pm p.val x n paddr flags) : SameKernel r r₁ := by
  intro e i he
  have hne := kernelSpace_ne p
  refine ⟨fun hi => ?_, hm.designates e i⟩
  -- the entry was there before, and designates the same page now
  have hp : r.pm.Present e := by
    cases e with
    | root s =>
      have hs : s = kernelSpace := he
      have := hi.1
      simpa only [PmState.Present, hm.roots s (by rw [hs]; exact hne)] using this
    | pde s d =>
      have hs : s = kernelSpace := he
      exact (hm.grow s d hi.1).resolve_right fun h => hne (hs.symm.trans h.1)
  obtain ⟨j, hj⟩ := hinv.exists_designates hp
  rwa [Designates.functional hi (hm.designates e j hj)]

theorem SameKernel.setMem {m : Mem} (hinv : PmInv r.pm) (hm : KernelKept r.pm.mem m) :
    SameKernel r (r.setMem m) :=
  fun e i _ => designates_kept hinv hm e i

theorem SameKernel.closed (hc : Closed r.pm r₁.pm p.val) : SameKernel r r₁ := by
  intro e i he
  exact hc.keep e i (by rw [he]; exact kernelSpace_ne p)

/-- The pages of the kernel's tables are in use, and no others: then the pool is
as it was. -/
theorem SamePool.of_kernel (hr : r.InOrder) (honly : r.OnlyKernel) (hsame : SameKernel r r₁)
    (hpool : ∀ i, r₁.pm.Allocated i → (r₁.pm.physpages i).paddr = pageAddr i)
    (halloc : ∀ i, r₁.pm.Allocated i ↔ ∃ e, e.space = kernelSpace ∧ r₁.pm.Designates e i) :
    SamePool r r₁ := by
  refine ⟨fun i => ?_, hsame⟩
  have hiff : r₁.pm.Allocated i ↔ r.pm.Allocated i := by
    rw [halloc i]
    constructor
    · rintro ⟨e, he, hi⟩
      exact hr.inv.owned.alloc_of_des e i ((hsame e i he).mp hi)
    · intro hal
      obtain ⟨e, he, hi⟩ := honly i hal
      exact ⟨e, he, (hsame e i he).mpr hi⟩
  by_cases hal : r.pm.Allocated i
  · rw [hr.inv.pool i hal, hpool i (hiff.mpr hal)]
  · have hal₁ : ¬ r₁.pm.Allocated i := fun h => hal (hiff.mp h)
    unfold PmState.Allocated at hal hal₁
    rw [not_not.mp hal, not_not.mp hal₁]

/-- **Cleaning up a process** leaves the pages of the kernel's own page map in
use, and frees all others. -/
theorem Resources.Packed.cleanup (h : r₁.Packed p) :
    ∃ st, addrspcCleanup r₁.pm p.val = some (0, st) ∧
      (∀ e i, e.space = kernelSpace → (st.Designates e i ↔ r₁.pm.Designates e i)) ∧
      (∀ i, st.Allocated i → (st.physpages i).paddr = pageAddr i) ∧
      ∀ i, st.Allocated i ↔ ∃ e, e.space = kernelSpace ∧ st.Designates e i := by
  obtain ⟨st, hrun, hclosed, hleak⟩ :=
    addrspcUnmap_drop h.inOrder.inv h.inOrder.filled p.val 0#32 SIZE_MAX
  have hleak := hleak h.not_pageLeft
  have hne := kernelSpace_ne p
  have hkeep : ∀ e i, e.space = kernelSpace → (st.Designates e i ↔ r₁.pm.Designates e i) := by
    intro e i he
    rw [← dropRoot_designates_kernel st p i he]
    exact hclosed.keep e i (by rw [he]; exact hne)
  refine ⟨st, hrun, hkeep, hclosed.inv.pool, fun i => ⟨fun hal => ?_, ?_⟩⟩
  · -- what is allocated has an owner, and the owner is the kernel
    have hal : (st.dropRoot p.val).Allocated i := hal
    by_cases hno : ∀ e, ¬ (st.dropRoot p.val).Designates e i
    · exact absurd ((hleak i).mp ⟨hal, hno⟩) (h.not_leaked i)
    · push Not at hno
      obtain ⟨e, he⟩ := hno
      have hspace : ¬ e.space = p.val := ((dropRoot_designates e i).mp he).2
      have hold : r₁.pm.Designates e i := (hclosed.keep e i hspace).mp he
      obtain ⟨k, rfl⟩ := h.eq_ref hold.1
      refine ⟨packedRefs p k, ?_, ((dropRoot_designates _ i).mp he).1⟩
      match k with
      | 0 | 1 => rfl
      | 2 | 3 | 4 => exact absurd rfl hspace
  · rintro ⟨e, he, hi⟩
    exact hclosed.inv.owned.alloc_of_des e i ((dropRoot_designates_kernel st p i he).mpr hi)

end SamePool

-- ---------------------------------------------------------------------------
-- What a load keeps
-- ---------------------------------------------------------------------------

/-- Kept by all that loading segments does: mapping in the process's space,
stores outside kernel memory, and moving in the file. -/
structure LoadStable (p : Fin PROCESS_MAX) (I : Resources → Prop) : Prop where
  inv   : ∀ {r}, I r → PmInv r.pm
  map   : ∀ {r st x n paddr flags}, I r → MapTo r.pm st p.val x n paddr flags → I { r with pm := st }
  store : ∀ {r m}, I r → KernelKept r.pm.mem m → I (r.setMem m)
  file  : ∀ {r} f, I r → I (r.setProcess p f)

/-- The same, with what all segments have in common: their pages are mapped to themselves, and the
stack pointer of the process stays. -/
structure SegmentStable (p : Fin PROCESS_MAX) (I : Resources → Prop) : Prop where
  inv   : ∀ {r}, I r → PmInv r.pm
  map   : ∀ {r st x n flags}, I r → MapTo r.pm st p.val x n (BitVec.ofNat 32 (4096 * x)) flags →
            I { r with pm := st }
  store : ∀ {r m}, I r → KernelKept r.pm.mem m → I (r.setMem m)
  file  : ∀ {r} {f : Process → Process}, (∀ pr, (f pr).ustack = pr.ustack) → I r → I (r.setProcess p f)

theorem LoadStable.segmentStable {p : Fin PROCESS_MAX} {I : Resources → Prop} (h : LoadStable p I) :
    SegmentStable p I where
  inv := h.inv
  map hr hm := h.map hr hm
  store := h.store
  file _ hr := h.file _ hr

theorem segVaddr_aligned (phdr : Phdr) :
    alignDown (segVaddr phdr) PAGESZ = BitVec.ofNat 32 (4096 * ((segVaddr phdr).toNat / 4096)) := by
  have hlt := (segVaddr phdr).isLt
  apply BitVec.eq_of_toNat_eq
  rw [PAGESZ, alignDown_toNat, BitVec.toNat_ofNat]
  omega

section Stable

variable {I : Resources → Prop} {fuel : Nat} {p : Fin PROCESS_MAX} {r : Resources}
  {o : Outcome Resources (Int × Resources)}

theorem SegmentStable.segment (hI : SegmentStable p I) {phdr : Phdr} (hr : I r)
    (h : loadSegment fuel p r phdr = some o) : o.All I fun a => I a.2 := by
  obtain ⟨res, st, n, hrun, hmap, -, -⟩ := addrspcMap_spec (hI.inv hr) p.val (segVaddr phdr)
    (segVaddr phdr) (segSize phdr) (segFlags_flagSet phdr)
  rw [segVaddr_aligned phdr] at hmap
  have hst := hI.map hr hmap
  rw [loadSegment, Resources.onPm, hrun] at h
  simp only [Option.map_some] at h
  split at h
  · cases h
    exact hst
  · split at h
    · cases h
    · cases h
      trivial
    · rename_i hseg
      cases h
      exact hI.store hst (elfLoadSeg32_spec hseg)
    · rename_i hseg
      cases h
      dsimp only [Outcome.All]
      exact hI.file (fun _ => rfl) (hI.store hst (elfLoadSeg32_spec hseg).2)

theorem SegmentStable.segments (hI : SegmentStable p I) {ehdr : Ehdr} {junk : Nat → Phdr} {n i : Nat}
    (hr : I r) (h : loadSegments fuel p ehdr junk n i r = some o) : o.All I fun a => I a.2 := by
  induction n generalizing i r with
  | zero =>
    cases h
    exact hr
  | succ n ih =>
    rw [loadSegments] at h
    dsimp only at h
    have hr₁ : ∀ f, I (r.setProcess p fun pr => { pr with execfile := f }) := fun f =>
      hI.file (fun _ => rfl) hr
    split at h
    · cases h
      dsimp only [Outcome.All]
      exact hr₁ _
    · split at h
      · exact ih (hr₁ _) h
      · split at h
        · cases h
        · cases h
          trivial
        · rename_i hseg
          cases h
          exact hI.segment (hr₁ _) hseg
        · rename_i hseg
          have hr₂ := hI.segment (hr₁ _) hseg
          split at h
          · cases h
            exact hr₂
          · exact ih hr₂ h

theorem LoadStable.segments (hI : LoadStable p I) {ehdr : Ehdr} {junk : Nat → Phdr} {n i : Nat}
    (hr : I r) (h : loadSegments fuel p ehdr junk n i r = some o) : o.All I fun a => I a.2 :=
  hI.segmentStable.segments hr h

end Stable

-- ---------------------------------------------------------------------------
-- The address space of a load
-- ---------------------------------------------------------------------------

section Start

variable {L : Layout} {r r₁ : Resources} {p : Fin PROCESS_MAX}

/-- **A load that gets to the file** has set up the whole address space. -/
theorem loadStart_spec (hr : r.InOrder) {res : Int} (h : loadStart L r p = some (res, r₁))
    (hres : ¬ res < 0) :
    r₁.Packed p ∧ r₁.Loading p ∧ SameKernel r r₁ ∧ r₁.vfs = r.vfs ∧
      (r₁.pcb p).execfile = File.zero FileOps := by
  have hreset := resetProcess_closed hr L p
  have hr₀ : (resetProcess L r p).InOrder := hr.closed hreset
  obtain ⟨st₀, st₁, hmap, hmap₁, rfl⟩ := loadStart_maps hr h hres
  have hload₁ : Resources.Loading
      { pmSetRoot { resetProcess L r p with pm := st₀ } (st₀.roots p.val) with pm := st₁ } p :=
    (loading_init hr₀ hmap).mapTo hmap₁ rfl
  refine ⟨⟨hload₁.inOrder, fun x hx => ?_, fun x hx hx' => ?_⟩, hload₁, ?_, rfl, ?_⟩
  · change (st₁.view p.val x).isSome = true
    rw [hmap₁.view x (by omega), hmap.view x (by omega)]
    split
    · rfl
    · rw [if_pos (by omega)]
      rfl
  · change (st₁.view p.val x).isSome = true
    rw [hmap₁.view x (by omega), if_pos (by omega)]
    rfl
  · have h₀ : SameKernel r (resetProcess L r p) := .closed hreset
    have h₁ : SameKernel (resetProcess L r p) { resetProcess L r p with pm := st₀ } :=
      .mapTo hreset.inv hmap
    have h₂ : SameKernel { resetProcess L r p with pm := st₀ }
        { pmSetRoot { resetProcess L r p with pm := st₀ } (st₀.roots p.val) with pm := st₁ } :=
      .mapTo hmap.inv hmap₁
    exact (h₀.trans h₁).trans h₂
  · simp [pmSetRoot, resetProcess, Resources.setProcess, Process.zero]

/-- **What holds of a program that has been loaded**: what holds when its address space is set up and is
kept by opening the file and by its segments. -/
theorem SegmentStable.load {I : Resources → Prop} (hI : SegmentStable p I)
    (hvfs : ∀ {r : Resources} v, I r → I { r with vfs := v })
    (hstart : ∀ {res : Int} {r₁ : Resources}, loadStart L r p = some (res, r₁) → ¬ res < 0 → I r₁)
    {fuel : Nat} {junk : StackJunk} {cwd path : List Byte}
    (h : processLoadPath L fuel junk r p cwd path = some (.ok (0, r₁))) : I r₁ := by
  have hfail : ∀ {fileIsopen res r₂}, res < 0 → loadError p fileIsopen res r₂ ≠ some (.ok (0, r₁)) := by
    intro fileIsopen res r₂ hneg herr
    rw [loadError] at herr
    split at herr
    · cases herr
    · obtain rfl := (Prod.mk.inj (Outcome.ok.inj (Option.some.inj herr))).1
      exact absurd hneg (Int.lt_irrefl 0)
  rw [processLoadPath_eq] at h
  rcases hrun : loadStart L r p with _ | ⟨res, r₀⟩
  · rw [hrun] at h
    cases h
  rw [hrun] at h
  dsimp only at h
  split at h
  · rename_i hneg
    exact absurd h (hfail hneg)
  rename_i hpos
  rw [loadFile] at h
  split at h
  · cases h
  rename_i res₁ file vfs _
  dsimp only at h
  have hopen : I { r₀.setProcess p fun pr => { pr with execfile := file } with vfs := vfs } :=
    hvfs vfs (hI.file (fun _ => rfl) (hstart hrun hpos))
  split at h
  · rename_i hneg
    exact absurd h (hfail hneg)
  split at h
  · rename_i hneg
    exact absurd h (hfail hneg)
  split at h
  · cases h
  · cases h
  · cases h
  rename_i res₂ r₂ hsegs
  have hsegments := fun hr => hI.segments hr hsegs
  have hend := hsegments (hI.file (fun _ => rfl) (hI.file (fun _ => rfl) hopen))
  split at h
  · rename_i hneg
    exact absurd h (hfail hneg)
  · obtain rfl := (Prod.mk.inj (Outcome.ok.inj (Option.some.inj h))).2
    exact hend

end Start

-- ---------------------------------------------------------------------------
-- Loading and closing
-- ---------------------------------------------------------------------------

section Conserve

variable {L : Layout} {r r₁ : Resources} {p : Fin PROCESS_MAX}

/-- The segments are loaded into the tables that there are. -/
theorem packed_loadStable (r : Resources) (p : Fin PROCESS_MAX) :
    LoadStable p fun r' => r'.Packed p ∧ SameKernel r r' where
  inv h := h.1.inOrder.inv
  map h hm := ⟨h.1.mapTo hm, h.2.trans (.mapTo h.1.inOrder.inv hm)⟩
  store h hm := ⟨h.1.setMem hm, h.2.trans (.setMem h.1.inOrder.inv hm)⟩
  file _ h := ⟨h.1.of_pm rfl, h.2.trans (.of_pm rfl)⟩

/-- The error path gives back all that the load has taken. -/
theorem loadError_conserves (hr : r.InOrder) (honly : r.OnlyKernel) (h : r₁.Packed p)
    (hsame : SameKernel r r₁) {fileIsopen : Bool} {res res' : Int} {r' : Resources}
    (ho : loadError p fileIsopen res r₁ = some (.ok (res', r'))) : res' = res ∧ SamePool r r' := by
  obtain ⟨st, hrun, hkeep, hpool, halloc⟩ := h.cleanup
  rw [loadError, Resources.onPm, hrun] at ho
  obtain ⟨rfl, rfl⟩ := Prod.mk.inj (Outcome.ok.inj (Option.some.inj ho))
  refine ⟨rfl, .of_kernel hr honly ?_ ?_ ?_⟩
  · intro e i he
    split <;> exact (hkeep e i he).trans (hsame e i he)
  · split <;> exact hpool
  · split <;> exact halloc

/-- How a load ends, as far as the pool is concerned. -/
def PoolEnd (r : Resources) (p : Fin PROCESS_MAX) (a : Int × Resources) : Prop :=
  a.1 < 0 ∧ SamePool r a.2 ∨ ¬ a.1 < 0 ∧ a.2.Packed p ∧ SameKernel r a.2

theorem loadFile_pool (hr : r.InOrder) (honly : r.OnlyKernel) (h : r₁.Packed p)
    (hsame : SameKernel r r₁) {fuel : Nat} {junk : StackJunk} {cwd path : List Byte}
    {a : Int × Resources} (ho : loadFile fuel junk r₁ p cwd path = some (.ok a)) : PoolEnd r p a := by
  have hstable := packed_loadStable r p
  have hfail : ∀ {r₂ fileIsopen res}, res < 0 → r₂.Packed p ∧ SameKernel r r₂ →
      loadError p fileIsopen res r₂ = some (.ok a) → PoolEnd r p a := by
    intro r₂ fileIsopen res hneg h₂ ho
    obtain ⟨hres, hpool⟩ := loadError_conserves hr honly h₂.1 h₂.2 ho
    exact .inl ⟨by rw [hres]; exact hneg, hpool⟩
  rw [loadFile] at ho
  split at ho
  · cases ho
  · rename_i res file vfs _
    dsimp only at ho
    -- opening the file is no matter of the page maps
    have hopen : ∀ f, (Resources.Packed { r₁.setProcess p f with vfs := vfs } p) ∧
        SameKernel r { r₁.setProcess p f with vfs := vfs } :=
      fun f => ⟨h.of_pm rfl, hsame.trans (.of_pm rfl)⟩
    split at ho
    · rename_i hneg
      exact hfail hneg (hopen _) ho
    · split at ho
      · rename_i hneg
        exact hfail hneg (hstable.file _ (hopen _)) ho
      · split at ho
        · cases ho
        · cases ho
        · cases ho
        · rename_i hsegs
          have hend := hstable.segments (hstable.file _ (hstable.file _ (hopen _))) hsegs
          split at ho
          · rename_i hneg
            exact hfail hneg hend ho
          · obtain rfl := Outcome.ok.inj (Option.some.inj ho)
            exact .inr ⟨Int.lt_irrefl 0, hend⟩

/-- The kernel's own page map takes two pages. -/
theorem Resources.OnlyKernel.used_le (hr : r.InOrder) (honly : r.OnlyKernel) :
    r.pm.used.card ≤ 2 := by
  have hkernel : r.pm.Present (.pde kernelSpace 0) :=
    present_of_view (x := 0) (by decide) ((hr.kernel 0 (by decide)).mpr (by decide))
  obtain ⟨i, hi⟩ := hr.inv.exists_designates (Present.root hkernel)
  obtain ⟨j, hj⟩ := hr.inv.exists_designates hkernel
  have hsub : r.pm.used ⊆ {i, j} := by
    intro k hk
    obtain ⟨e, he, hdes⟩ := honly k (mem_used.mp hk)
    rw [Finset.mem_insert, Finset.mem_singleton]
    cases e with
    | root s =>
      obtain rfl : s = kernelSpace := he
      exact .inl (Designates.functional hdes hi)
    | pde s d =>
      obtain rfl : s = kernelSpace := he
      -- a table with a translated page, which is one of the kernel's
      obtain ⟨t, ht, hsome⟩ := hr.filled kernelSpace d hdes.1
      have hd : d < 1024 := hdes.1.2.1
      have hlow := (hr.kernel (1024 * d + t) (by omega)).mp hsome
      obtain rfl : d = 0 := by omega
      exact .inr (Designates.functional hdes hj)
  exact (Finset.card_le_card hsub).trans Finset.card_le_two

/-- A load into a kernel that runs no process: it fails with the pool as it was,
or the process has its three pages. -/
theorem processLoadPath_pool (hr : r.InOrder) (honly : r.OnlyKernel) {fuel : Nat} {junk : StackJunk}
    {cwd path : List Byte} {a : Int × Resources}
    (ho : processLoadPath L fuel junk r p cwd path = some (.ok a)) : PoolEnd r p a := by
  have hroom : r.pm.used.card + 3 ≤ PHYSPAGES_MAX := Nat.add_le_add_right (honly.used_le hr) 3
  obtain ⟨r₁, hstart, -⟩ := loadStart_room (L := L) (p := p) hr hroom
  obtain ⟨hpacked, -, hsame, -⟩ := loadStart_spec hr hstart (by decide)
  rw [processLoadPath_eq, hstart] at ho
  exact loadFile_pool hr honly hpacked hsame ho

/-- What can happen until the process in slot `p` is closed: it runs, files are
opened and closed, and programs are loaded into other slots and closed. -/
inductive Resources.Later (L : Layout) (p : Fin PROCESS_MAX) (r : Resources) : Resources → Prop where
  | refl : Later L p r r
  | load {r₁ r₂ : Resources} (fuel : Nat) (junk : StackJunk) (q : Fin PROCESS_MAX)
      (cwd path : List Byte) : q ≠ p → Later L p r r₁ →
      processLoadPath L fuel junk r₁ q cwd path = some (.ok (0, r₂)) → Later L p r r₂
  | fault {r₁ r₂ : Resources} (fuel : Nat) (junk : StackJunk) (q : Fin PROCESS_MAX)
      (cwd path : List Byte) : q ≠ p → Later L p r r₁ →
      processLoadPath L fuel junk r₁ q cwd path = some (.fault r₂) → Later L p r r₂
  | abort {r₁ r₂ r₃ : Resources} {res : Int} (fuel : Nat) (junk : StackJunk) (q : Fin PROCESS_MAX)
      (cwd path : List Byte) : q ≠ p → Later L p r r₁ →
      processLoadPath L fuel junk r₁ q cwd path = some (.ok (res, r₂)) → res < 0 →
      r₂.kernelMapped = true → closeResources r₂ q = some r₃ → Later L p r r₃
  | close {r₁ r₂ : Resources} (q : Fin PROCESS_MAX) : q ≠ p → Later L p r r₁ →
      closeResources r₁ q = some r₂ → Later L p r r₂
  | run {r₁ : Resources} (m : Mem) : Later L p r r₁ → KernelKept r₁.pm.mem m →
      Later L p r (r₁.setMem m)
  | push {r₁ : Resources} (q : Fin PROCESS_MAX) (sp : BitVec 32) : Later L p r r₁ →
      Later L p r (r₁.setProcess q fun pr => { pr with ustack := sp })
  | files {r₁ : Resources} (v : Vfs) : Later L p r r₁ → Later L p r { r₁ with vfs := v }

/-- There is no room for a second process. -/
theorem Resources.Packed.no_room (h : r.Packed p) (q : Fin PROCESS_MAX) (st : PmState) :
    addrspcInit (r.pm.dropRoot q.val) q.val ≠ some (0, st) := by
  intro hrun
  have hclosed := closed_dropRoot h.inOrder.inv h.inOrder.filled q.val
  have hused : (r.pm.dropRoot q.val).used.card = PHYSPAGES_MAX := h.used
  obtain ⟨st', hfail⟩ := (addrspcInit_fails_iff hclosed.inv hclosed.root).mpr (by omega)
  have := (Prod.mk.inj (Option.some.inj (hrun.symm.trans hfail))).1
  simp [ENOMEM] at this

theorem Resources.Later.packed {r' : Resources} (hlater : r.Later L p r') (h : r.Packed p) :
    r'.Packed p ∧ SameKernel r r' := by
  induction hlater with
  | refl => exact ⟨h, .refl r⟩
  | load fuel junk q cwd path _ _ hload ih =>
    rcases processLoadPath_spec ih.1.inOrder hload with ⟨_, _, -, -, ho⟩ | ⟨⟨st, hinit⟩, -⟩
    · simp [ENOMEM] at ho
    · exact absurd hinit (ih.1.no_room q st)
  | fault fuel junk q cwd path _ _ hload ih =>
    rcases processLoadPath_spec ih.1.inOrder hload with ⟨_, _, -, -, ho⟩ | ⟨⟨st, hinit⟩, -⟩
    · cases ho
    · exact absurd hinit (ih.1.no_room q st)
  | @abort r₁ r₂ r₃ res fuel junk q cwd path hq _ hload _ _ hclose ih =>
    rcases processLoadPath_spec ih.1.inOrder hload with ⟨st₀, st₁, hinit, hclean, ho⟩ | ⟨⟨st, hinit⟩, -⟩
    · -- the other slot had nothing but its root, and is closed again
      have hreset := resetProcess_closed ih.1.inOrder L q
      obtain ⟨-, rfl⟩ := Prod.mk.inj (Outcome.ok.inj ho)
      obtain ⟨st₁', res₂, st₂, hclean', hclean₂, -, -, hclosed, -⟩ :=
        addrspcInit_fails_closed hreset.inv hreset.filled hreset.root hinit
      obtain rfl : st₁ = st₁' := by simpa using hclean.symm.trans hclean'
      rw [closeResources_eq hclean₂] at hclose
      obtain rfl := Option.some.inj hclose
      have h₁ : (resetProcess L r₁ q).Packed p := ih.1.closed hq.symm hreset
      exact ⟨h₁.closed (q := q) hq.symm hclosed,
        (ih.2.trans (.closed hreset)).trans (.closed (p := q) hclosed)⟩
    · exact absurd hinit (ih.1.no_room q st)
  | @close r₁ r₂ q hq _ hclose ih =>
    obtain ⟨st, hrun, hclosed, -⟩ :=
      addrspcUnmap_drop ih.1.inOrder.inv ih.1.inOrder.filled q.val 0#32 SIZE_MAX
    rw [closeResources_eq hrun] at hclose
    obtain rfl := Option.some.inj hclose
    exact ⟨ih.1.closed (q := q) hq.symm hclosed, ih.2.trans (.closed (p := q) hclosed)⟩
  | run m _ hm ih => exact ⟨ih.1.setMem hm, ih.2.trans (.setMem ih.1.inOrder.inv hm)⟩
  | push q sp _ ih => exact ⟨ih.1.of_pm rfl, ih.2.trans (.of_pm rfl)⟩
  | files v _ ih => exact ⟨ih.1.of_pm rfl, ih.2.trans (.of_pm rfl)⟩

/-- `process_close` gives back the three pages of a process. -/
theorem closeResources_conserves (hr : r.InOrder) (honly : r.OnlyKernel) (h : r₁.Packed p)
    (hsame : SameKernel r r₁) : ∃ r', closeResources r₁ p = some r' ∧ SamePool r r' := by
  obtain ⟨st, hrun, hkeep, hpool, halloc⟩ := h.cleanup
  refine ⟨_, closeResources_eq hrun, .of_kernel hr honly ?_ hpool fun i => ?_⟩
  · intro e i he
    exact (dropRoot_designates_kernel st p i he).trans ((hkeep e i he).trans (hsame e i he))
  · refine (halloc i).trans (exists_congr fun e => and_congr_right fun he => ?_)
    exact (dropRoot_designates_kernel st p i he).symm

/-- **Loading and closing a process conserves the pool.** From a kernel that runs
no process: if the load fails, then the pool is as it was; if it succeeds, then
the pool is as it was once the process has been closed, whatever happens until
then. -/
theorem processLoadPath_conserves (hr : r.Reachable L) (honly : r.OnlyKernel) {fuel : Nat}
    {junk : StackJunk} {cwd path : List Byte} {res : Int}
    (hload : processLoadPath L fuel junk r p cwd path = some (.ok (res, r₁))) :
    (res < 0 → SamePool r r₁) ∧
      (¬ res < 0 → ∀ r₂, r₁.Later L p r₂ → ∃ r₃, closeResources r₂ p = some r₃ ∧ SamePool r r₃) := by
  rcases processLoadPath_pool hr.inOrder honly hload with ⟨hneg, hpool⟩ | ⟨hpos, hpacked, hsame⟩
  · exact ⟨fun _ => hpool, fun hpos => absurd hneg hpos⟩
  · refine ⟨fun hneg => absurd hneg hpos, fun _ r₂ hlater => ?_⟩
    obtain ⟨hpacked₂, hsame₂⟩ := hlater.packed hpacked
    exact closeResources_conserves hr.inOrder honly hpacked₂ (hsame.trans hsame₂)

end Conserve

/-- After boot there is nothing but the kernel's own page map. -/
theorem Resources.Booted.onlyKernel {r : Resources} (h : r.Booted) : r.OnlyKernel := by
  obtain ⟨mem, hrun⟩ := h.init
  obtain ⟨res, st, n, hrun', hmap, -⟩ := addrspcInit_spec (PmInv.initial mem) kernelSpace
  obtain ⟨-, rfl⟩ : 0 = res ∧ r.pm = st := by simpa using hrun.symm.trans hrun'
  intro i hi
  rcases hmap.allocated_cases (PmInv.initial mem) hi with h0 | hroot | ⟨x, -, -, hpde⟩
  · exact absurd rfl h0
  · exact ⟨_, rfl, hroot⟩
  · exact ⟨_, rfl, hpde⟩

/-- A program is loaded and closed. -/
theorem processLoadPath_conserves_above :
    ∃ r r₁ r₃, r.Reachable exampleLayout ∧ r.OnlyKernel ∧
      processLoadPath exampleLayout 4 zeroJunk r ⟨0, by decide⟩ (bytes "/bin") (bytes "prog") =
        some (.ok (0, r₁)) ∧ closeResources r₁ ⟨0, by decide⟩ = some r₃ ∧ SamePool r r₃ := by
  obtain ⟨r, r₁, hboot, hload, -⟩ :=
    exists_load_above opens_above (by decide) (by decide) exampleLayout ⟨0, by decide⟩
  obtain ⟨r₃, hclose, hpool⟩ :=
    (processLoadPath_conserves (.boot hboot) hboot.onlyKernel hload).2 (by decide) r₁ .refl
  exact ⟨r, r₁, r₃, .boot hboot, hboot.onlyKernel, hload, hclose, hpool⟩

end Munix
