import Munix.Kernel.PagemapInv

/-!
# Munix — what `addrspc_map` does

The map walk, level by level. `MapTo st st' s p m paddr flags` says that
between `st` and `st'` exactly the `m` pages from page `p` of space `s` were
mapped, to consecutive frames from `paddr` on and with the permission of
`flags`; everything else translates as before. Each level of the walk
establishes it for the part of the range below its entry, and the parts
compose (`MapTo.trans`).
-/

namespace Munix

open ByteMem

-- ---------------------------------------------------------------------------
-- Entry values
-- ---------------------------------------------------------------------------

section Pack

variable {paddr : BitVec 32} {flags : Pme}

theorem pmePack_paddr (hp : paddr.toNat % 4096 = 0) (hf : FlagSet flags) (lvl : Nat) :
    pmePaddr (pmePack paddr (flags ||| PME_PRESENT) lvl) = paddr := by
  have hf' := flagSet_or_present hf
  unfold pmePack pmeSetFlags
  split
  · rw [pmePaddr_or, pmePaddr_of_aligned hp]
    unfold FlagSet
    rw [BitVec.toNat_and]
    exact lt_of_le_of_lt Nat.and_le_right (by decide)
  · rw [pmePaddr_or _ hf', pmePaddr_of_aligned hp]

theorem pmePack_present (paddr flags : BitVec 32) {lvl : Nat} (hl : lvl ≠ 0) :
    pmeIspresent (pmePack paddr (flags ||| PME_PRESENT) lvl) lvl = true := by
  rw [pmeIspresent_inner _ hl, pmePack, pmeSetFlags, if_neg hl]
  simp [PME_PRESENT]

theorem pmePack_perm (hp : paddr.toNat % 4096 = 0) (flags : Pme) {lvl : Nat} (hl : lvl ≠ 0) :
    pmePerm (pmePack paddr (flags ||| PME_PRESENT) lvl) = pmePerm flags := by
  have h1 := getLsbD_of_aligned hp (i := 1) (by decide)
  have h2 := getLsbD_of_aligned hp (i := 2) (by decide)
  have hu := pmePerm_user (pmePack paddr (flags ||| PME_PRESENT) lvl)
  have hw := pmePerm_write (pmePack paddr (flags ||| PME_PRESENT) lvl)
  rw [pmePack, pmeSetFlags, if_neg hl] at hu hw ⊢
  rw [BitVec.getLsbD_or, BitVec.getLsbD_or, h2, Bool.false_or,
    show (PME_PRESENT).getLsbD 2 = false by decide, Bool.or_false, ← pmePerm_user] at hu
  rw [BitVec.getLsbD_or, BitVec.getLsbD_or, h1, Bool.false_or,
    show (PME_PRESENT).getLsbD 1 = false by decide, Bool.or_false, ← pmePerm_write] at hw
  exact congrArg₂ Perm.mk hu hw

/-- An entry that carries the flags allows their permission below it. -/
theorem pmePerm_or_flags (pme flags : Pme) :
    (pmePerm (pme ||| flags)).and (pmePerm flags) = pmePerm flags := by
  rw [BitVec.or_comm]
  exact pmePerm_or_and (by simp [Perm.and])

end Pack

theorem pmOffsets_pgdir (v : BitVec 32) : pmOffsets v 1 = v.toNat / 2 ^ 22 := by
  have hv : v.toNat < 2 ^ 32 := v.isLt
  have h : pmOffsets v 1 = (v >>> 12 >>> 10 &&& 1023#32).toNat := by
    simp [pmOffsets, pmOffsetsFrom, x86Paging32, pmLvl]
  rw [h, BitVec.toNat_and, show (1023#32).toNat = 2 ^ 10 - 1 by decide,
    Nat.and_two_pow_sub_one_eq_mod, BitVec.toNat_ushiftRight, BitVec.toNat_ushiftRight,
    Nat.shiftRight_eq_div_pow, Nat.shiftRight_eq_div_pow]
  omega

theorem pmOffsets_pgtbl (v : BitVec 32) : pmOffsets v 2 = v.toNat / 4096 % 1024 := by
  have h : pmOffsets v 2 = (v >>> 12 &&& 1023#32).toNat := by
    simp [pmOffsets, pmOffsetsFrom, x86Paging32, pmLvl]
  rw [h, BitVec.toNat_and, show (1023#32).toNat = 2 ^ 10 - 1 by decide,
    Nat.and_two_pow_sub_one_eq_mod, BitVec.toNat_ushiftRight, Nat.shiftRight_eq_div_pow]

-- ---------------------------------------------------------------------------
-- The effect of mapping a range
-- ---------------------------------------------------------------------------

structure MapTo (st st' : PmState) (s p m : Nat) (paddr : BitVec 32) (flags : Pme) : Prop where
  inv        : PmInv st'
  designates : ∀ e i, st.Designates e i → st'.Designates e i
  grow       : ∀ s' d, st'.Present (.pde s' d) →
                 st.Present (.pde s' d) ∨ (s' = s ∧ ∃ x, p ≤ x ∧ x < p + m ∧ x / 1024 = d)
  roots      : ∀ s', s' ≠ s → st'.roots s' = st.roots s'
  view       : ∀ x, x < 2 ^ 20 → st'.view s x =
                 if p ≤ x ∧ x < p + m then
                   some (paddr + BitVec.ofNat 32 (4096 * (x - p)), pmePerm flags)
                 else st.view s x
  other      : ∀ s' x, s' ≠ s → x < 2 ^ 20 → st'.view s' x = st.view s' x
  leaked     : ∀ i, st'.Leaked i ↔ st.Leaked i

namespace MapTo

variable {st st₁ st₂ : PmState} {s p m k : Nat} {paddr : BitVec 32} {flags : Pme}

theorem trans (h₁ : MapTo st st₁ s p m paddr flags)
    (h₂ : MapTo st₁ st₂ s (p + m) k (paddr + BitVec.ofNat 32 (4096 * m)) flags) :
    MapTo st st₂ s p (m + k) paddr flags where
  inv := h₂.inv
  designates e i h := h₂.designates e i (h₁.designates e i h)
  grow := by
    intro s' d h
    rcases h₂.grow s' d h with h | ⟨rfl, x, hx⟩
    · rcases h₁.grow s' d h with h | ⟨rfl, x, hx⟩
      · exact .inl h
      · exact .inr ⟨rfl, x, by omega, by omega, hx.2.2⟩
    · exact .inr ⟨rfl, x, by omega, by omega, hx.2.2⟩
  roots s' hs := (h₂.roots s' hs).trans (h₁.roots s' hs)
  view := by
    intro x hx
    rw [h₂.view x hx, h₁.view x hx]
    by_cases hlo : p ≤ x ∧ x < p + m
    · rw [if_neg (by omega), if_pos hlo, if_pos (by omega)]
    · by_cases hhi : p + m ≤ x ∧ x < p + m + k
      · have hframe : paddr + BitVec.ofNat 32 (4096 * m) + BitVec.ofNat 32 (4096 * (x - (p + m))) =
            paddr + BitVec.ofNat 32 (4096 * (x - p)) := by
          rw [BitVec.add_assoc, ← BitVec.ofNat_add]
          congr 2
          omega
        rw [if_pos hhi, if_pos (by omega), hframe]
      · rw [if_neg hhi, if_neg hlo, if_neg (by omega)]
  other s' x hs hx := (h₂.other s' x hs hx).trans (h₁.other s' x hs hx)
  leaked i := (h₂.leaked i).trans (h₁.leaked i)

theorem of_same (hinv : PmInv st) (h : SameTables st st₁) (s p : Nat) (paddr : BitVec 32)
    (flags : Pme) : MapTo st st₁ s p 0 paddr flags where
  inv := h.inv hinv
  designates e i hd := (h.designates e i).mpr hd
  grow s' d hp := .inl ((h.present _).mp hp)
  roots s' _ := congrFun h.roots s'
  view x _ := by rw [h.view, if_neg (by omega)]
  other s' x _ _ := h.view s' x
  leaked _ := Lost.congr_iff h.designates h.allocated

theorem refl (hinv : PmInv st) (s p : Nat) (paddr : BitVec 32) (flags : Pme) :
    MapTo st st s p 0 paddr flags :=
  of_same hinv ⟨rfl, rfl, fun _ => rfl⟩ s p paddr flags

theorem of_flagsAdded (hinv : PmInv st) (h : FlagsAdded st st₁)
    (hroots : ∀ s', s' ≠ s → st₁.roots s' = st.roots s') (p : Nat) (paddr : BitVec 32)
    (flags : Pme) : MapTo st st₁ s p 0 paddr flags where
  inv := h.inv hinv
  designates e i hd := (h.designates e i).mpr hd
  grow s' d hp := .inl ((h.present _).mp hp)
  roots := hroots
  view x hx := by rw [h.view hinv hx, if_neg (by omega)]
  other s' x _ hx := h.view hinv hx
  leaked _ := Lost.congr_iff h.designates h.allocated

theorem same_right (h : MapTo st st₁ s p m paddr flags) (hs : SameTables st₁ st₂) :
    MapTo st st₂ s p m paddr flags :=
  trans h (of_same h.inv hs s (p + m) _ flags)

theorem same_left (hinv : PmInv st) (hs : SameTables st st₁) (h : MapTo st₁ st₂ s p m paddr flags) :
    MapTo st st₂ s p m paddr flags := by
  have h₀ := of_same hinv hs s p paddr flags
  have := trans h₀ (k := m) (by simpa using h)
  rwa [Nat.zero_add] at this

end MapTo

-- ---------------------------------------------------------------------------
-- Level 2: page-table entries
-- ---------------------------------------------------------------------------

theorem addrspcMapRecursive_page (flags : Pme) (entry : PmePtr) (cur : MapCursor) (st : PmState) :
    addrspcMapRecursive 2 flags entry cur st =
      some (0, { cur with paddr := cur.paddr + PAGESZ, size := cur.size - PAGESZ },
        st.setPme entry (pmePack cur.paddr (flags ||| PME_PRESENT) 2)) := by
  rw [addrspcMapRecursive, dif_pos (by decide)]

/-- Mapping one page. -/
theorem mapTo_setPte {st : PmState} {s d t : Nat} {j : Fin PHYSPAGES_MAX} {paddr : BitVec 32}
    {flags : Pme} (hinv : PmInv st) (hf : FlagSet flags) (hj : st.Designates (.pde s d) j)
    (ht : t < 1024) (hp : paddr.toNat % 4096 = 0)
    (hperm : (pmePerm (st.pde s d)).and (pmePerm flags) = pmePerm flags) :
    MapTo st (st.setTbl j t (pmePack paddr (flags ||| PME_PRESENT) 2)) s (1024 * d + t) 1
      paddr flags := by
  set v := pmePack paddr (flags ||| PME_PRESENT) 2 with hv
  have hvp : pmePerm v = pmePerm flags := pmePack_perm hp flags (by decide)
  have hv' : pmeIspresent v 2 = true → (pmePerm (st.pde s d)).and (pmePerm v) = pmePerm v := by
    intro _
    rw [hvp, hperm]
  refine ⟨hinv.setPte v hj ht hv', ?_, ?_, fun _ _ => rfl, ?_, ?_,
    fun _ => Lost.congr_iff (setTbl_designates_of_pte v hinv hj ht) fun _ => Iff.rfl⟩
  · intro e i h
    exact (setTbl_designates_of_pte v hinv hj ht e i).mpr h
  · intro s' d' h
    exact .inl ((setTbl_present_of_pte v hinv hj ht _).mp h)
  · intro x hx
    rw [view_setPte v hinv hj ht hv' hx]
    by_cases hxe : x = 1024 * d + t
    · have hpres : pmeIspresent v 2 = true := pmePack_present paddr flags (by decide)
      rw [if_pos ⟨rfl, hxe⟩, if_pos hpres, if_pos (by omega), hv, pmePack_paddr hp hf, ← hv, hvp, hxe]
      simp
    · rw [if_neg (by tauto), if_neg (by omega)]
  · intro s' x hs hx
    rw [view_setPte v hinv hj ht hv' hx, if_neg (by tauto)]

/-- The loop over one page table maps pages until the size is used up or the
table ends. -/
theorem mapLoop_pgtbl {flags : Pme} (hf : FlagSet flags) {s d : Nat} {j : Fin PHYSPAGES_MAX} :
    ∀ (n k : Nat) (cur : MapCursor) (st : PmState), PmInv st → st.Designates (.pde s d) j →
      (pmePerm (st.pde s d)).and (pmePerm flags) = pmePerm flags →
      cur.offsets 2 < 1024 → 1024 ≤ n + cur.offsets 2 →
      cur.size.toNat = 4096 * k → cur.paddr.toNat % 4096 = 0 →
      ∃ cur' st', mapLoop (addrspcMapRecursive 2 flags) 2 1024 (pageAddr j) n cur st =
          some (0, cur', st') ∧
        MapTo st st' s (1024 * d + cur.offsets 2) (min k (1024 - cur.offsets 2)) cur.paddr flags ∧
        cur'.offsets 1 = cur.offsets 1 ∧
        (1024 - cur.offsets 2 ≤ k → cur'.offsets 2 = 0) ∧
        cur'.size.toNat = 4096 * (k - min k (1024 - cur.offsets 2)) ∧
        cur'.paddr = cur.paddr + BitVec.ofNat 32 (4096 * min k (1024 - cur.offsets 2)) := by
  intro n
  induction n with
  | zero => intro k cur st _ _ _ ht hn; omega
  | succ n ih =>
    intro k cur st hinv hj hperm ht hn hsz hp
    by_cases hk : k = 0
    · -- nothing left: the loop condition fails
      subst hk
      have hz : cur.size = 0#32 := BitVec.eq_of_toNat_eq hsz
      refine ⟨cur, st, by rw [mapLoop, if_pos hz], ?_, rfl, by omega, by simp [hz], by simp⟩
      rw [Nat.zero_min]
      exact MapTo.refl hinv s _ _ _
    have hlt := cur.size.isLt
    have hnz : ¬ cur.size = 0#32 := by
      intro h
      rw [h] at hsz
      simp at hsz
      omega
    set st₁ := st.setTbl j (cur.offsets 2) (pmePack cur.paddr (flags ||| PME_PRESENT) 2) with hst₁
    have hone : MapTo st st₁ s (1024 * d + cur.offsets 2) 1 cur.paddr flags :=
      mapTo_setPte hinv hf hj ht hp hperm
    have hstep : addrspcMapRecursive 2 flags (.word (tblEntry (pageAddr j) (cur.offsets 2))) cur st =
        some (0, { cur with paddr := cur.paddr + PAGESZ, size := cur.size - PAGESZ }, st₁) :=
      addrspcMapRecursive_page flags _ cur st
    have hsz₁ : (cur.size - PAGESZ).toNat = 4096 * (k - 1) := by
      unfold PAGESZ
      bv_omega
    by_cases hend : cur.offsets 2 + 1 = 1024
    · -- last entry of the table
      have hmin : min k (1024 - cur.offsets 2) = 1 := by omega
      refine ⟨⟨Function.update cur.offsets 2 0, cur.paddr + PAGESZ, cur.size - PAGESZ⟩, st₁,
        by rw [mapLoop, if_neg hnz, hstep]; simp [hend], ?_, ?_, ?_, ?_, ?_⟩
      · rw [hmin]
        exact hone
      · simp
      · simp
      · rw [hmin]
        exact hsz₁
      · rw [hmin]
        rfl
    · have hpde : st₁.pde s d = st.pde s d := setTbl_pde_of_pte _ hinv hj ht hj.1.1 hj.1.2.1
      have hp₁ : (cur.paddr + PAGESZ).toNat % 4096 = 0 := by
        unfold PAGESZ
        bv_omega
      obtain ⟨cur', st', hloop, hmap, ho1, ho2, hsz', hpa⟩ := ih (k - 1)
        ⟨Function.update cur.offsets 2 (cur.offsets 2 + 1), cur.paddr + PAGESZ, cur.size - PAGESZ⟩
        st₁ hone.inv (hone.designates _ _ hj) (by rw [hpde, hperm]) (by simp; omega)
        (by simp; omega) hsz₁ hp₁
      simp only [Function.update_self, ne_eq, Nat.reduceEqDiff, not_false_eq_true,
        Function.update_of_ne] at hmap ho1 ho2 hsz' hpa
      have hmin : 1 + min (k - 1) (1024 - (cur.offsets 2 + 1)) = min k (1024 - cur.offsets 2) := by
        omega
      refine ⟨cur', st', by rw [mapLoop, if_neg hnz, hstep]; simpa [hend] using hloop, ?_, ho1,
        fun h => ho2 (by omega), by rw [hsz']; omega, ?_⟩
      · rw [← hmin]
        exact hone.trans hmap
      · rw [hpa, ← hmin, PAGESZ, show (4096#32) = BitVec.ofNat 32 (4096 * 1) from rfl,
          BitVec.add_assoc, ← BitVec.ofNat_add, ← Nat.mul_add]

-- ---------------------------------------------------------------------------
-- Opening the table below an entry
-- ---------------------------------------------------------------------------

theorem physpageAlloc_eq_none {st : PmState} (h : physpageAlloc st = none)
    (i : Fin PHYSPAGES_MAX) : st.Allocated i := by
  unfold physpageAlloc at h
  split at h
  · simp at h
  · rename_i hnone
    have := List.find?_eq_none.mp hnone i (List.mem_finRange i)
    simpa [PmState.Allocated] using this

theorem physpageAlloc_eq_some {st st₁ : PmState} {pg : Fin PHYSPAGES_MAX}
    (h : physpageAlloc st = some (pg, st₁)) :
    ¬ st.Allocated pg ∧ st₁ = st.setPhyspage pg { st.physpages pg with paddr := pageAddr pg } := by
  unfold physpageAlloc at h
  split at h
  · rename_i i hsome
    have hi := List.find?_some hsome
    simp only [Option.some.injEq, Prod.mk.injEq] at h
    obtain ⟨rfl, rfl⟩ := h
    exact ⟨by simpa [PmState.Allocated] using hi, rfl⟩
  · simp at h

theorem mapOpenTable_absent {st : PmState} {lvl : Nat} {entry : PmePtr} (flags : Pme)
    (hp : pmeIspresent (st.pme entry) lvl = false) :
    (mapOpenTable lvl entry flags st = none ∧ ∀ i, st.Allocated i) ∨
    ∃ pg st₃, PageZeroed st st₃ pg ∧ ¬ st.Allocated pg ∧
      mapOpenTable lvl entry flags st = some (pg, pageAddr pg,
        st₃.setPme entry (pmePack (pageAddr pg) (flags ||| PME_PRESENT) lvl)) := by
  cases hal : physpageAlloc st with
  | none => exact .inl ⟨by simp [mapOpenTable, hp, hal], physpageAlloc_eq_none hal⟩
  | some r =>
    obtain ⟨pg, st₁⟩ := r
    obtain ⟨hfree, rfl⟩ := physpageAlloc_eq_some hal
    right
    set st₁ := st.setPhyspage pg { st.physpages pg with paddr := pageAddr pg } with hst₁
    have htbl : (physpageAccess st₁ pg).1 = pageAddr pg := by
      simp [physpageAccess, hst₁, PmState.setPhyspage]
    set st₂ := (physpageAccess st₁ pg).2 with hst₂
    have hpg : (st₂.physpages pg).paddr = pageAddr pg := by
      simp [hst₂, physpageAccess, hst₁, PmState.setPhyspage]
    refine ⟨pg, { st₂ with mem := memset st₂.mem (pageAddr pg) 0#8 PAGESZ.toNat }, ⟨rfl, ?_, ?_⟩,
      hfree, ?_⟩
    · intro j u hu
      exact tbl_memset st₂ hu
    · intro i
      by_cases hi : i = pg
      · subst hi
        simpa using hpg
      · simp [hst₂, physpageAccess, hst₁, PmState.setPhyspage, hi]
    · simp only [mapOpenTable, hp, Bool.not_false, if_true, hal, htbl, ← hst₂, hpg]

theorem mapOpenTable_present {st : PmState} {lvl : Nat} {entry : PmePtr} {i : Fin PHYSPAGES_MAX}
    (flags : Pme) (hp : pmeIspresent (st.pme entry) lvl = true)
    (hi : pmePaddr (st.pme entry) = pageAddr i) (hal : (st.physpages i).paddr = pageAddr i) :
    ∃ st₁, SameTables st st₁ ∧ mapOpenTable lvl entry flags st =
      some (i, pageAddr i, st₁.setPme entry (pmeSetFlags (st.pme entry) flags lvl)) := by
  refine ⟨(physpageAccess st i).2, physpageAccess_same st i, ?_⟩
  have hpme : (physpageAccess st i).2.pme entry = st.pme entry := by cases entry <;> rfl
  have htbl : (physpageAccess st i).1 = pageAddr i := hal
  simp only [mapOpenTable, hp, Bool.not_true, Bool.false_eq_true, if_false, hi,
    physpageFind_pageAddr, hpme, htbl]

/-- Adding flags to a present root entry. -/
theorem flagsAdded_root {st : PmState} {s₀ : Nat} (hs : st.Present (.root s₀)) (flags : Pme) :
    FlagsAdded st (st.setPme (.root s₀) (pmeSetFlags (st.roots s₀) flags 0)) := by
  set st' := st.setPme (.root s₀) (pmeSetFlags (st.roots s₀) flags 0) with hst'
  have hlow : FlagSet (flags &&& 0x18#32) := by
    unfold FlagSet
    rw [BitVec.toNat_and]
    exact lt_of_le_of_lt Nat.and_le_right (by decide)
  have hroots : ∀ s, st'.roots s =
      if s = s₀ then st.roots s₀ ||| (flags &&& 0x18#32) else st.roots s := by
    intro s
    simp only [hst', PmState.setPme, Function.update_apply, pmeSetFlags, if_true]
  have hpaddr : ∀ s, pmePaddr (st'.roots s) = pmePaddr (st.roots s) := by
    intro s
    rw [hroots]
    split
    · rename_i h
      rw [h, pmePaddr_or _ hlow]
    · rfl
  have hpde : ∀ s d, st'.pde s d = st.pde s d := by
    intro s d
    simp only [PmState.pde, hpaddr]
    rfl
  refine ⟨?_, ?_, ?_, fun _ => rfl⟩
  · intro s
    by_cases h : s = s₀
    · subst h
      exact ⟨flags &&& 0x18#32, hlow, by rw [hroots, if_pos rfl], fun hn => absurd hs hn⟩
    · exact ⟨0#32, by simp [FlagSet], by rw [hroots, if_neg h, BitVec.or_zero], fun _ => rfl⟩
  · intro s d _ _
    exact ⟨0#32, by simp [FlagSet], by rw [hpde, BitVec.or_zero], fun _ => rfl⟩
  · intro s d t _ _
    simp only [PmState.pte, hpde]
    rfl

/-- Adding flags to a present directory entry. -/
theorem flagsAdded_pde {st : PmState} {s₀ d₀ : Nat} {r : Fin PHYSPAGES_MAX} {flags : Pme}
    (hinv : PmInv st) (hf : FlagSet flags) (hr : st.Designates (.root s₀) r)
    (hp : st.Present (.pde s₀ d₀)) :
    FlagsAdded st (st.setTbl r d₀ (st.pde s₀ d₀ ||| flags)) ∧
      (st.setTbl r d₀ (st.pde s₀ d₀ ||| flags)).pde s₀ d₀ = st.pde s₀ d₀ ||| flags := by
  have hd₀ := hp.2.1
  have hpde : ∀ s d, st.Present (.root s) → d < 1024 →
      (st.setTbl r d₀ (st.pde s₀ d₀ ||| flags)).pde s d =
        if s = s₀ ∧ d = d₀ then st.pde s₀ d₀ ||| flags else st.pde s d :=
    fun s d hs hd => setTbl_pde_of_root _ hinv hr hd₀ hs hd
  refine ⟨⟨?_, ?_, ?_, fun _ => rfl⟩, by rw [hpde s₀ d₀ hp.1 hd₀, if_pos ⟨rfl, rfl⟩]⟩
  · intro s
    exact ⟨0#32, by simp [FlagSet], by rw [BitVec.or_zero]; rfl, fun _ => rfl⟩
  · intro s d hs hd
    by_cases h : s = s₀ ∧ d = d₀
    · obtain ⟨rfl, rfl⟩ := h
      exact ⟨flags, hf, by rw [hpde s d hs hd, if_pos ⟨rfl, rfl⟩], fun hn => absurd hp hn⟩
    · exact ⟨0#32, by simp [FlagSet], by rw [hpde s d hs hd, if_neg h, BitVec.or_zero], fun _ => rfl⟩
  · intro s d t hsd ht
    exact setTbl_pte_of_root _ hinv hr hd₀ hsd ht fun _ => pmePaddr_or _ hf

-- ---------------------------------------------------------------------------
-- Level 1: directory entries
-- ---------------------------------------------------------------------------

/-- The page table under `(s, d)` is there, in page `j`, and its directory
entry allows `flags`; nothing is translated differently. -/
structure PgtblOpened (st st₁ : PmState) (s d : Nat) (j : Fin PHYSPAGES_MAX) (flags : Pme) :
    Prop where
  inv        : PmInv st₁
  roots      : st₁.roots = st.roots
  designates : ∀ e i, st.Designates e i → st₁.Designates e i
  table      : st₁.Designates (.pde s d) j
  perm       : (pmePerm (st₁.pde s d)).and (pmePerm flags) = pmePerm flags
  present    : ∀ e, st₁.Present e → st.Present e ∨ e = .pde s d
  view       : ∀ s' x, x < 2 ^ 20 → st₁.view s' x = st.view s' x
  leaked     : ∀ i, st₁.Leaked i ↔ st.Leaked i

theorem mapOpenTable_pgtbl {st : PmState} {s d : Nat} {r : Fin PHYSPAGES_MAX} {flags : Pme}
    (hinv : PmInv st) (hf : FlagSet flags) (hr : st.Designates (.root s) r) (hd : d < 1024) :
    (mapOpenTable 1 (.word (tblEntry (pageAddr r) d)) flags st = none ∧
      (∀ i, st.Allocated i) ∧ ¬ st.Present (.pde s d)) ∨
    ∃ j st₁, mapOpenTable 1 (.word (tblEntry (pageAddr r) d)) flags st =
      some (j, pageAddr j, st₁) ∧ PgtblOpened st st₁ s d j flags := by
  have hpme : st.pme (.word (tblEntry (pageAddr r) d)) = st.pde s d := (pde_eq_tbl hr d).symm
  cases hp : pmeIspresent (st.pde s d) 1 with
  | false =>
    have habs : ¬ st.Present (.pde s d) := fun h => by simp [h.2.2] at hp
    rcases mapOpenTable_absent flags (hpme ▸ hp) with ⟨hnone, hall⟩ | ⟨pg, st₃, hz, hfree, hopen⟩
    · exact .inl ⟨hnone, hall, habs⟩
    · right
      have hcl := claim_pde (v := pmePack (pageAddr pg) (flags ||| PME_PRESENT) 1) hinv hz hfree hr
        hd habs (pmePack_paddr (pageAddr_aligned pg) hf 1) (pmePack_present _ _ (by decide))
      have hpres := (hcl.present (.pde s d)).mpr (.inr rfl)
      have hpde : (st₃.setTbl r d (pmePack (pageAddr pg) (flags ||| PME_PRESENT) 1)).pde s d =
          pmePack (pageAddr pg) (flags ||| PME_PRESENT) 1 := by
        have hr' := (hcl.designates _ _).mpr (.inl hr)
        rw [pde_eq_tbl hr']
        exact tbl_setPme_same st₃ r d _
      refine ⟨pg, _, hopen, hcl.inv hinv, hz.roots, fun e i h => (hcl.designates e i).mpr (.inl h),
        ⟨hpres, hcl.new⟩, ?_, fun e he => (hcl.present e).mp he, fun s' x hx => hcl.view hinv hx,
        fun i => Lost.claim_iff hfree hcl.designates hcl.allocated⟩
      change (pmePerm ((st₃.setTbl r d _).pde s d)).and _ = _
      rw [hpde, pmePack_perm (pageAddr_aligned pg) flags (by decide)]
      simp [Perm.and]
  | true =>
    have hpres : st.Present (.pde s d) := ⟨hr.1, hd, hp⟩
    obtain ⟨j, hal, hj⟩ := hinv.owned.allocated _ hpres
    obtain ⟨st₀, hsame, hopen⟩ := mapOpenTable_present flags (hpme ▸ hp)
      (show pmePaddr (st.pme (.word (tblEntry (pageAddr r) d))) = pageAddr j by rw [hpme]; exact hj.2)
      (hinv.pool j hal)
    right
    have hinv₀ := hsame.inv hinv
    have hr₀ := (hsame.designates _ _).mpr hr
    have hpres₀ := (hsame.present _).mpr hpres
    obtain ⟨hfl, hpde⟩ := flagsAdded_pde hinv₀ hf hr₀ hpres₀
    rw [hpme, ← hsame.pde] at hopen
    have hj₁ := (hfl.designates _ _).mpr ((hsame.designates _ _).mpr hj)
    refine ⟨j, _, hopen, hfl.inv hinv₀, hsame.roots, ?_, hj₁, ?_, ?_, ?_, ?_⟩
    · intro e i h
      exact (hfl.designates e i).mpr ((hsame.designates e i).mpr h)
    · change (pmePerm ((st₀.setTbl r d (st₀.pde s d ||| flags)).pde s d)).and _ = _
      rw [hpde]
      exact pmePerm_or_flags _ _
    · intro e he
      exact .inl ((hsame.present e).mp ((hfl.present e).mp he))
    · intro s' x hx
      exact (hfl.view hinv₀ hx).trans (hsame.view s' x)
    · intro i
      exact (Lost.congr_iff hfl.designates hfl.allocated).trans
        (Lost.congr_iff hsame.designates hsame.allocated)

/-- Opening a table and then mapping at least one page in it. -/
theorem MapTo.of_opened {st st₁ st₂ : PmState} {s d p m : Nat} {j : Fin PHYSPAGES_MAX}
    {paddr : BitVec 32} {flags : Pme} (ho : PgtblOpened st st₁ s d j flags)
    (h : MapTo st₁ st₂ s p m paddr flags) (hm : 0 < m) (hp : p / 1024 = d) :
    MapTo st st₂ s p m paddr flags where
  inv := h.inv
  designates e i hd := h.designates e i (ho.designates e i hd)
  grow := by
    intro s' d' hpres
    rcases h.grow s' d' hpres with h' | h'
    · rcases ho.present _ h' with h'' | h''
      · exact .inl h''
      · obtain ⟨rfl, rfl⟩ : s' = s ∧ d' = d := by simpa using h''
        exact .inr ⟨rfl, p, le_refl p, by omega, hp⟩
    · exact .inr h'
  roots s' hs := (h.roots s' hs).trans (congrFun ho.roots s')
  view x hx := by rw [h.view x hx, ho.view s x hx]
  other s' x hs hx := (h.other s' x hs hx).trans (ho.view s' x hx)
  leaked i := (h.leaked i).trans (ho.leaked i)

/-- Mapping below one directory entry: either there is no page left for its
table and nothing happens, or the pages of the range in this table are mapped. -/
theorem addrspcMapRecursive_pgdir {flags : Pme} (hf : FlagSet flags) {st : PmState} {s d k : Nat}
    {r : Fin PHYSPAGES_MAX} {cur : MapCursor} (hinv : PmInv st) (hr : st.Designates (.root s) r)
    (hd : d < 1024) (ht : cur.offsets 2 < 1024) (hk : 0 < k) (hsz : cur.size.toNat = 4096 * k)
    (hp : cur.paddr.toNat % 4096 = 0) :
    (addrspcMapRecursive 1 flags (.word (tblEntry (pageAddr r) d)) cur st =
      some (-ENOMEM, cur, st) ∧ (∀ i, st.Allocated i) ∧ ¬ st.Present (.pde s d)) ∨
    ∃ cur' st', addrspcMapRecursive 1 flags (.word (tblEntry (pageAddr r) d)) cur st =
        some (0, cur', st') ∧
      MapTo st st' s (1024 * d + cur.offsets 2) (min k (1024 - cur.offsets 2)) cur.paddr flags ∧
      cur'.offsets 1 = cur.offsets 1 ∧
      (1024 - cur.offsets 2 ≤ k → cur'.offsets 2 = 0) ∧
      cur'.size.toNat = 4096 * (k - min k (1024 - cur.offsets 2)) ∧
      cur'.paddr = cur.paddr + BitVec.ofNat 32 (4096 * min k (1024 - cur.offsets 2)) := by
  rcases mapOpenTable_pgtbl hinv hf hr hd with ⟨hnone, hall, habs⟩ | ⟨j, st₁, hopen, ho⟩
  · left
    exact ⟨by rw [addrspcMapRecursive, dif_neg (by decide), hnone], hall, habs⟩
  · right
    obtain ⟨cur', st₂, hloop, hmap, ho1, ho2, hsz', hpa⟩ :=
      mapLoop_pgtbl hf 1024 k cur st₁ ho.inv ho.table ho.perm ht (by omega) hsz hp
    refine ⟨cur', physpageClose st₂ j, ?_, ?_, ho1, ho2, hsz', hpa⟩
    · rw [addrspcMapRecursive, dif_neg (by decide), hopen]
      dsimp only
      rw [show 1 <<< (pmLvl (1 + 1)).idxBits = 1024 by decide, hloop]
    · exact (MapTo.of_opened ho hmap (by omega) (by omega)).same_right (physpageClose_same st₂ j)

/-- How a walk over `k` pages from page `p` of space `s` on can end after `m` of
them: at the end of the range or of the address space, or at the boundary of a
table for which there was no page left. -/
def MapEnd (res : Int) (st' : PmState) (s p m k : Nat) : Prop :=
  (res = 0 ∧ m = min k (2 ^ 20 - p)) ∨
  (res = -ENOMEM ∧ (m = 0 ∨ m < k ∧ (p + m) % 1024 = 0) ∧ (∀ i, st'.Allocated i) ∧
    ¬ st'.Present (.pde s ((p + m) / 1024)))

/-- The loop over the page directory. -/
theorem mapLoop_pgdir {flags : Pme} (hf : FlagSet flags) {s : Nat} {r : Fin PHYSPAGES_MAX} :
    ∀ (n k : Nat) (cur : MapCursor) (st : PmState), PmInv st → st.Designates (.root s) r →
      cur.offsets 1 < 1024 → cur.offsets 2 < 1024 → 1024 ≤ n + cur.offsets 1 →
      cur.size.toNat = 4096 * k → cur.paddr.toNat % 4096 = 0 →
      ∃ res cur' st' m, mapLoop (addrspcMapRecursive 1 flags) 1 1024 (pageAddr r) n cur st =
          some (res, cur', st') ∧
        MapTo st st' s (1024 * cur.offsets 1 + cur.offsets 2) m cur.paddr flags ∧ m ≤ k ∧
        (res = 0 ∨ m < k) ∧ MapEnd res st' s (1024 * cur.offsets 1 + cur.offsets 2) m k := by
  intro n
  induction n with
  | zero => intro k cur st _ _ hd _ hn; omega
  | succ n ih =>
    intro k cur st hinv hr hd ht hn hsz hp
    by_cases hk : k = 0
    · subst hk
      have hz : cur.size = 0#32 := BitVec.eq_of_toNat_eq hsz
      exact ⟨0, cur, st, 0, by rw [mapLoop, if_pos hz], MapTo.refl hinv s _ _ _, le_refl 0,
        .inl rfl, .inl ⟨rfl, by simp⟩⟩
    have hlt := cur.size.isLt
    have hnz : ¬ cur.size = 0#32 := by
      intro h
      rw [h] at hsz
      simp at hsz
      omega
    rcases addrspcMapRecursive_pgdir hf hinv hr hd ht (by omega) hsz hp with
      ⟨hstep, hall, habs⟩ | ⟨cur₁, st₁, hstep, hmap, ho1, ho2, hsz₁, hpa⟩
    · refine ⟨-ENOMEM, cur, st, 0, by rw [mapLoop, if_neg hnz, hstep]; simp [ENOMEM],
        MapTo.refl hinv s _ _ _, Nat.zero_le k, .inr (by omega), .inr ⟨rfl, .inl rfl, hall, ?_⟩⟩
      rwa [show (1024 * cur.offsets 1 + cur.offsets 2 + 0) / 1024 = cur.offsets 1 by omega]
    by_cases hend : cur.offsets 1 + 1 = 1024
    · -- last directory entry: the walk ends here, whatever size is left
      refine ⟨0, ⟨Function.update cur₁.offsets 1 0, cur₁.paddr, cur₁.size⟩, st₁, _,
        by rw [mapLoop, if_neg hnz, hstep]; simp [ho1, hend], hmap, by omega, .inl rfl,
        .inl ⟨rfl, by omega⟩⟩
    by_cases hfull : 1024 - cur.offsets 2 ≤ k
    · -- this table is done, continue with the next one
      have hmin : min k (1024 - cur.offsets 2) = 1024 - cur.offsets 2 := by omega
      rw [hmin] at hmap hsz₁ hpa
      have hp₁ : cur₁.paddr.toNat % 4096 = 0 := by
        rw [hpa, BitVec.toNat_add, BitVec.toNat_ofNat]
        omega
      obtain ⟨res, cur', st', m, hloop, hmap', hm, hlt', hres⟩ := ih (k - (1024 - cur.offsets 2))
        ⟨Function.update cur₁.offsets 1 (cur₁.offsets 1 + 1), cur₁.paddr, cur₁.size⟩ st₁ hmap.inv
        (hmap.designates _ _ hr) (by simp; omega) (by simp [ho2 hfull]) (by simp; omega)
        (by simpa using hsz₁) hp₁
      simp only [Function.update_self, ne_eq, Nat.reduceEqDiff, not_false_eq_true,
        Function.update_of_ne, ho1, ho2 hfull, hpa, MapEnd] at hmap' hres
      refine ⟨res, cur', st', (1024 - cur.offsets 2) + m, ?_, ?_, by omega,
        hlt'.imp_right fun h => by omega, ?_⟩
      · rw [mapLoop, if_neg hnz, hstep]
        simpa [ho1, hend] using hloop
      · have hcur : 1024 * (cur.offsets 1 + 1) + 0 =
            1024 * cur.offsets 1 + cur.offsets 2 + (1024 - cur.offsets 2) := by omega
        rw [hcur] at hmap'
        exact hmap.trans hmap'
      · rcases hres with ⟨rfl, hm'⟩ | ⟨rfl, hm', hall, habs⟩
        · exact .inl ⟨rfl, by omega⟩
        · have hlt'' := hlt'.resolve_left (by decide)
          refine .inr ⟨rfl, .inr (by omega), hall, ?_⟩
          rwa [show 1024 * cur.offsets 1 + cur.offsets 2 + (1024 - cur.offsets 2 + m) =
            1024 * (cur.offsets 1 + 1) + 0 + m by omega]
    · -- the range ends inside this table: the next check of the size stops the loop
      have hmin : min k (1024 - cur.offsets 2) = k := by omega
      rw [hmin] at hmap hsz₁
      have hz : cur₁.size = 0#32 := BitVec.eq_of_toNat_eq (by rw [hsz₁]; simp)
      refine ⟨0, ⟨Function.update cur₁.offsets 1 (cur₁.offsets 1 + 1), cur₁.paddr, cur₁.size⟩, st₁, k,
        ?_, hmap, le_refl k, .inl rfl, .inl ⟨rfl, by omega⟩⟩
      obtain ⟨n, rfl⟩ : ∃ n', n = n' + 1 := ⟨n - 1, by omega⟩
      rw [mapLoop, if_neg hnz, hstep]
      simp [ho1, hend, mapLoop, hz]

-- ---------------------------------------------------------------------------
-- Level 0: the root
-- ---------------------------------------------------------------------------

theorem MapTo.of_claimed_root {st st₁ : PmState} {s : Nat} {pg : Fin PHYSPAGES_MAX}
    (hinv : PmInv st) (h : TableClaimed st st₁ (.root s) pg)
    (hroots : ∀ s', s' ≠ s → st₁.roots s' = st.roots s') (p : Nat) (paddr : BitVec 32)
    (flags : Pme) : MapTo st st₁ s p 0 paddr flags where
  inv := h.inv hinv
  designates e i hd := (h.designates e i).mpr (.inl hd)
  grow s' d hp := .inl (((h.present _).mp hp).resolve_right (by simp))
  roots := hroots
  view x hx := by rw [h.view hinv hx, if_neg (by omega)]
  other s' x _ hx := h.view hinv hx
  leaked _ := Lost.claim_iff h.fresh h.designates h.allocated

/-- Opening the page directory of a space. -/
theorem mapOpenTable_pgdir {st : PmState} (hinv : PmInv st) (s p : Nat) (paddr : BitVec 32)
    {flags : Pme} (hf : FlagSet flags) :
    (mapOpenTable 0 (.root s) flags st = none ∧ (∀ i, st.Allocated i) ∧ ¬ st.Present (.root s)) ∨
    ∃ r st₁, mapOpenTable 0 (.root s) flags st = some (r, pageAddr r, st₁) ∧
      MapTo st st₁ s p 0 paddr flags ∧ st₁.Designates (.root s) r := by
  cases hp : pmeIspresent (st.pme (.root s)) 0 with
  | false =>
    have habs : ¬ st.Present (.root s) := fun h => absurd (h.symm.trans hp) (by simp)
    rcases mapOpenTable_absent flags hp with ⟨hnone, hall⟩ | ⟨pg, st₃, hz, hfree, hopen⟩
    · exact .inl ⟨hnone, hall, habs⟩
    · right
      have hcl := claim_root hinv hz hfree habs
        (v := pmePack (pageAddr pg) (flags ||| PME_PRESENT) 0)
        (pmePack_paddr (pageAddr_aligned pg) hf 0)
      refine ⟨pg, _, hopen, MapTo.of_claimed_root hinv hcl ?_ p paddr flags,
        (hcl.designates _ _).mpr (.inr ⟨rfl, rfl⟩)⟩
      intro s' hs
      simp [PmState.setPme, hs, hz.roots]
  | true =>
    have hpres : st.Present (.root s) := hp
    obtain ⟨r, hal, hr⟩ := hinv.owned.allocated _ hpres
    obtain ⟨st₀, hsame, hopen⟩ := mapOpenTable_present flags hp hr.2 (hinv.pool r hal)
    right
    have hinv₀ := hsame.inv hinv
    have hfl := flagsAdded_root ((hsame.present (.root s)).mpr hpres) flags
    have hpme : st.pme (.root s) = st₀.roots s := (congrFun hsame.roots s).symm
    rw [hpme] at hopen
    refine ⟨r, _, hopen, ?_, (hfl.designates _ _).mpr ((hsame.designates _ _).mpr hr)⟩
    apply MapTo.same_left hinv hsame
    apply MapTo.of_flagsAdded hinv₀ hfl
    intro s' hs
    simp [PmState.setPme, hs]

/-- **What `addrspc_map` does**, for any arguments: it returns, and the pages
it has mapped by then are an initial part of the range, all of it (up to the
end of the address space) unless it ran out of table pages. -/
theorem addrspcMap_spec {st : PmState} (hinv : PmInv st) (s : Nat) (vaddr paddr size : BitVec 32)
    {flags : Pme} (hf : FlagSet flags) :
    ∃ res st' m, addrspcMap st s vaddr paddr size flags = some (res, st') ∧
      MapTo st st' s (vaddr.toNat / 4096) m (alignDown paddr PAGESZ) flags ∧
      m ≤ (alignUp size PAGESZ).toNat / 4096 ∧
      MapEnd res st' s (vaddr.toNat / 4096) m ((alignUp size PAGESZ).toNat / 4096) := by
  have hv : (alignDown vaddr PAGESZ).toNat = vaddr.toNat / 4096 * 4096 := alignDown_toNat vaddr
  have hp : (alignDown paddr PAGESZ).toNat = paddr.toNat / 4096 * 4096 := alignDown_toNat paddr
  have hs : (alignUp size PAGESZ).toNat = (size + 4095#32).toNat / 4096 * 4096 :=
    and_not_low_toNat (size + 4095#32) 12
  have hvlt := vaddr.isLt
  set k := (alignUp size PAGESZ).toNat / 4096 with hk
  set cur : MapCursor :=
    ⟨pmOffsets (alignDown vaddr PAGESZ), alignDown paddr PAGESZ, alignUp size PAGESZ⟩ with hcur
  have hd : cur.offsets 1 = vaddr.toNat / 2 ^ 22 := by
    simp only [hcur, pmOffsets_pgdir, hv]
    omega
  have ht : cur.offsets 2 = vaddr.toNat / 4096 % 1024 := by
    simp only [hcur, pmOffsets_pgtbl, hv]
    omega
  have hpage : 1024 * cur.offsets 1 + cur.offsets 2 = vaddr.toNat / 4096 := by omega
  rcases mapOpenTable_pgdir hinv s (vaddr.toNat / 4096) (alignDown paddr PAGESZ) hf with
    ⟨hnone, hall, habs⟩ | ⟨r, st₁, hopen, hmap₁, hr⟩
  · refine ⟨-ENOMEM, st, 0, ?_, MapTo.refl hinv s _ _ _, Nat.zero_le k,
      .inr ⟨rfl, .inl rfl, hall, fun h => habs h.1⟩⟩
    rw [addrspcMap, addrspcMapRecursive, dif_neg (by decide), hnone]
  · obtain ⟨res, cur', st₂, m, hloop, hmap, hm, -, hend⟩ := mapLoop_pgdir hf 1024 k cur st₁ hmap₁.inv hr
      (by omega) (by omega) (by omega) (by simp only [hcur]; omega) (by simp only [hcur]; omega)
    rw [hpage] at hmap hend
    have hclose := physpageClose_same st₂ r
    refine ⟨res, physpageClose st₂ r, m, ?_, ?_, hm, ?_⟩
    · rw [addrspcMap, addrspcMapRecursive, dif_neg (by decide), hopen]
      dsimp only
      rw [show 1 <<< (pmLvl (0 + 1)).idxBits = 1024 by decide, hloop]
    · have := hmap₁.trans (k := m) (by simpa using hmap)
      rw [Nat.zero_add] at this
      exact this.same_right hclose
    · rcases hend with h | ⟨h, hm', hall, habs⟩
      · exact .inl h
      · exact .inr ⟨h, hm', fun i => (hclose.allocated i).mpr (hall i),
          fun h => habs ((hclose.present _).mp h)⟩

-- ---------------------------------------------------------------------------
-- Pool usage
-- ---------------------------------------------------------------------------

/-- The pool pages in use. -/
def PmState.used (st : PmState) : Finset (Fin PHYSPAGES_MAX) :=
  Finset.univ.filter fun i => (st.physpages i).paddr ≠ 0#32

theorem mem_used {st : PmState} {i : Fin PHYSPAGES_MAX} : i ∈ st.used ↔ st.Allocated i := by
  simp [PmState.used, PmState.Allocated]

/-- A page that is in use after mapping was in use before, or holds the page
directory of the space, or one of the page tables of the range. -/
theorem MapTo.allocated_cases {st st' : PmState} {s p m : Nat} {paddr : BitVec 32} {flags : Pme}
    (h : MapTo st st' s p m paddr flags) (hinv : PmInv st) {i : Fin PHYSPAGES_MAX}
    (hi : st'.Allocated i) :
    st.Allocated i ∨ st'.Designates (.root s) i ∨
      ∃ x, p ≤ x ∧ x < p + m ∧ st'.Designates (.pde s (x / 1024)) i := by
  have hold : ∀ e, st.Present e → st'.Designates e i → st.Allocated i := by
    intro e he hd
    obtain ⟨i', hal, hi'⟩ := hinv.owned.allocated e he
    rwa [Designates.functional hd (h.designates e i' hi')]
  by_cases hno : ∀ e, ¬ st'.Designates e i
  · exact .inl ((h.leaked i).mp ⟨hi, hno⟩).1
  push Not at hno
  obtain ⟨e, he⟩ := hno
  cases e with
  | root s' =>
    by_cases hs : s' = s
    · subst hs
      exact .inr (.inl he)
    · have hp : st.Present (.root s') := by
        have := he.1
        simpa only [PmState.Present, h.roots s' hs] using this
      exact .inl (hold _ hp he)
  | pde s' d =>
    rcases h.grow s' d he.1 with hp | ⟨rfl, x, hx, hx', rfl⟩
    · exact .inl (hold _ hp he)
    · exact .inr (.inr ⟨x, hx, hx', he⟩)

open Classical in
/-- The pages that entry `e` designates only after mapping: at most one. -/
noncomputable def newPages (st st' : PmState) (e : TableRef) : Finset (Fin PHYSPAGES_MAX) :=
  Finset.univ.filter fun i => ¬ st.Present e ∧ st'.Designates e i

theorem mem_newPages {st st' : PmState} {e : TableRef} {i : Fin PHYSPAGES_MAX} :
    i ∈ newPages st st' e ↔ ¬ st.Present e ∧ st'.Designates e i := by
  simp [newPages]

theorem card_newPages (st st' : PmState) (e : TableRef) : (newPages st st' e).card ≤ 1 := by
  refine Finset.card_le_one.mpr fun i hi j hj => ?_
  exact Designates.functional (mem_newPages.mp hi).2 (mem_newPages.mp hj).2

theorem card_newPages_of_present {st : PmState} (st' : PmState) {e : TableRef} (h : st.Present e) :
    (newPages st st' e).card = 0 := by
  refine Finset.card_eq_zero.mpr (Finset.eq_empty_of_forall_notMem fun i hi => ?_)
  exact (mem_newPages.mp hi).1 h

theorem card_newPages_of_absent (st : PmState) {st' : PmState} {e : TableRef} (h : ¬ st'.Present e) :
    (newPages st st' e).card = 0 := by
  refine Finset.card_eq_zero.mpr (Finset.eq_empty_of_forall_notMem fun i hi => ?_)
  exact h (mem_newPages.mp hi).2.1

/-- A map inside one page table takes pages for the page directory and for this
table only. -/
theorem MapTo.card_used {st st' : PmState} {s p m : Nat} {paddr : BitVec 32} {flags : Pme}
    (h : MapTo st st' s p m paddr flags) (hinv : PmInv st) (hone : p % 1024 + m ≤ 1024) :
    st'.used.card ≤ st.used.card + (newPages st st' (.root s)).card +
      (newPages st st' (.pde s (p / 1024))).card := by
  have hnew : ∀ {e i}, st'.Designates e i → st.Allocated i ∨ i ∈ newPages st st' e := by
    intro e i hi
    by_cases he : st.Present e
    · obtain ⟨i', hal, hi'⟩ := hinv.owned.allocated e he
      left
      rwa [Designates.functional hi (h.designates e i' hi')]
    · exact .inr (mem_newPages.mpr ⟨he, hi⟩)
  have hsub : st'.used ⊆ st.used ∪ newPages st st' (.root s) ∪ newPages st st' (.pde s (p / 1024)) := by
    intro i hi
    rw [Finset.mem_union, Finset.mem_union, mem_used]
    rcases h.allocated_cases hinv (mem_used.mp hi) with h | h | ⟨x, hx, hx', h⟩
    · exact .inl (.inl h)
    · exact .inl (hnew h)
    · rw [show x / 1024 = p / 1024 by omega] at h
      exact (hnew h).imp_left .inl
  refine (Finset.card_le_card hsub).trans ((Finset.card_union_le _ _).trans ?_)
  exact Nat.add_le_add_right (Finset.card_union_le _ _) _

/-- A range inside one page table can be mapped when two pages are left, or one
if the space has a page directory already, or none if it has the page table
already; it takes no more than that. -/
theorem addrspcMap_succeeds {st : PmState} (hinv : PmInv st) (s : Nat) (vaddr paddr size : BitVec 32)
    {flags : Pme} (hf : FlagSet flags) (c : Nat)
    (hone : vaddr.toNat / 4096 % 1024 + (alignUp size PAGESZ).toNat / 4096 ≤ 1024)
    (hc : c = 2 ∨ c = 1 ∧ st.Present (.root s) ∨
      c = 0 ∧ st.Present (.pde s (vaddr.toNat / 4096 / 1024)))
    (hused : st.used.card + c ≤ PHYSPAGES_MAX) :
    ∃ st', addrspcMap st s vaddr paddr size flags = some (0, st') ∧
      MapTo st st' s (vaddr.toNat / 4096) ((alignUp size PAGESZ).toNat / 4096)
        (alignDown paddr PAGESZ) flags ∧ st'.used.card ≤ st.used.card + c := by
  obtain ⟨res, st', m, hrun, hmap, hm, hend⟩ := addrspcMap_spec hinv s vaddr paddr size hf
  set p := vaddr.toNat / 4096 with hp
  set k := (alignUp size PAGESZ).toNat / 4096 with hk
  have hvlt := vaddr.isLt
  have hcard := hmap.card_used hinv (by omega)
  have hroot := card_newPages st st' (.root s)
  have htbl := card_newPages st st' (.pde s (p / 1024))
  rcases hend with ⟨rfl, hmk⟩ | ⟨-, hmz, hall, habs⟩
  · obtain rfl : m = k := by omega
    refine ⟨st', hrun, hmap, ?_⟩
    rcases hc with rfl | ⟨rfl, hr⟩ | ⟨rfl, ht⟩
    · omega
    · have := card_newPages_of_present st' hr
      omega
    · have := card_newPages_of_present st' ht
      have := card_newPages_of_present st' (Present.root ht)
      omega
  · -- running out would mean that every page was in use
    exfalso
    obtain rfl : m = 0 := by omega
    rw [Nat.add_zero] at habs
    have hfull : st'.used.card = PHYSPAGES_MAX := by
      rw [Finset.eq_univ_iff_forall.mpr fun i => mem_used.mpr (hall i), Finset.card_univ,
        Fintype.card_fin]
    have htbl := card_newPages_of_absent st habs
    rcases hc with rfl | ⟨rfl, hr⟩ | ⟨rfl, ht⟩
    · omega
    · have := card_newPages_of_present st' hr
      omega
    · obtain ⟨i, hi⟩ := hinv.exists_designates ht
      exact habs (hmap.designates _ i hi).1

/-- Mapping nothing, in a space that has a page directory, always succeeds. -/
theorem addrspcMap_empty {st : PmState} (hinv : PmInv st) {s : Nat} (hroot : st.Present (.root s))
    (vaddr paddr : BitVec 32) {size : BitVec 32} (hsize : alignUp size PAGESZ = 0#32) {flags : Pme}
    (hf : FlagSet flags) : ∃ st', addrspcMap st s vaddr paddr size flags = some (0, st') := by
  rcases mapOpenTable_pgdir hinv s 0 0#32 hf with ⟨-, -, habs⟩ | ⟨r, st₁, hopen, -, -⟩
  · exact absurd hroot habs
  · refine ⟨physpageClose st₁ r, ?_⟩
    rw [addrspcMap, addrspcMapRecursive, dif_neg (by decide), hopen]
    dsimp only
    rw [show 1 <<< (pmLvl (0 + 1)).idxBits = 1023 + 1 by decide, mapLoop, if_pos hsize]

-- ---------------------------------------------------------------------------
-- Spaces built by mapping
-- ---------------------------------------------------------------------------

/-- No space has a page map yet, and the pages of `taken` are not in the pool. -/
def PmState.fresh (mem : Mem) (taken : Fin PHYSPAGES_MAX → Bool) : PmState where
  physpages i := ⟨if taken i then pageAddr i else 0#32, 0#32⟩
  roots _ := 0#32
  mem := mem

/-- At boot: no page in use, every space zeroed, memory arbitrary. -/
def PmState.initial (mem : Mem) : PmState := PmState.fresh mem fun _ => false

theorem PmState.fresh_absent (mem : Mem) (taken : Fin PHYSPAGES_MAX → Bool) (e : TableRef) :
    ¬ (PmState.fresh mem taken).Present e := by
  cases e <;> simp [PmState.Present, PmState.fresh, pmeIspresent]

theorem PmInv.fresh (mem : Mem) (taken : Fin PHYSPAGES_MAX → Bool) : PmInv (PmState.fresh mem taken) where
  owned := {
    allocated := fun e he => absurd he (PmState.fresh_absent mem taken e)
    unique := fun e _ _ he => absurd he.1 (PmState.fresh_absent mem taken e)
    alloc_of_des := fun e _ he => absurd he.1 (PmState.fresh_absent mem taken e) }
  pool i hi := by
    by_cases ht : taken i = true
    · simp [PmState.fresh, ht]
    · exact absurd hi (by simp [PmState.Allocated, PmState.fresh, ht])
  perm s d _ hp := absurd hp (PmState.fresh_absent mem taken _)

theorem PmState.initial_absent (mem : Mem) (e : TableRef) : ¬ (PmState.initial mem).Present e :=
  PmState.fresh_absent mem _ e

theorem PmInv.initial (mem : Mem) : PmInv (PmState.initial mem) := PmInv.fresh mem _

/-- The states that sequences of successful `addrspc_map` calls reach, with the pages of
`taken` in other hands. -/
inductive MapBuilt (taken : Fin PHYSPAGES_MAX → Bool) : PmState → Prop where
  | fresh (mem : Mem) : MapBuilt taken (PmState.fresh mem taken)
  | map {st st' : PmState} (s : Nat) (vaddr paddr size : BitVec 32) (flags : Pme) :
      MapBuilt taken st → FlagSet flags → addrspcMap st s vaddr paddr size flags = some (0, st') →
      MapBuilt taken st'

theorem MapBuilt.inv {taken : Fin PHYSPAGES_MAX → Bool} {st : PmState} (h : MapBuilt taken st) :
    PmInv st := by
  induction h with
  | fresh mem => exact PmInv.fresh mem taken
  | map s vaddr paddr size flags _ hf hrun ih =>
    obtain ⟨res, st', m, hrun', hmap, -, -⟩ := addrspcMap_spec ih s vaddr paddr size hf
    rw [hrun] at hrun'
    obtain ⟨rfl, rfl⟩ : 0 = res ∧ _ = st' := by simpa using hrun'
    exact hmap.inv

/-- The states that they reach from the boot. -/
abbrev MapReachable : PmState → Prop := MapBuilt fun _ => false

theorem MapReachable.initial (mem : Mem) : MapReachable (PmState.initial mem) := .fresh mem

/-- **A successful map builds exactly the requested translation.** The pages
of the range go to consecutive frames from `paddr` on, with the effective
permission of `flags`; every other page of the space and every page of every
other space is translated as before. -/
theorem addrspcMap_exact {st st' : PmState} {s : Nat} {vaddr paddr size : BitVec 32} {flags : Pme}
    (hst : MapReachable st) (hv : vaddr.toNat % 4096 = 0) (hp : paddr.toNat % 4096 = 0)
    (hend : vaddr.toNat + size.toNat ≤ 2 ^ 32) (hsize : size.toNat ≤ 2 ^ 32 - 4096)
    (hf : FlagSet flags) (hrun : addrspcMap st s vaddr paddr size flags = some (0, st')) :
    (∀ va : Addr, va.toNat % 4096 = 0 → vaddr.toNat ≤ va.toNat →
      va.toNat < vaddr.toNat + (alignUp size PAGESZ).toNat →
      st'.translate s va = some (paddr + (va - vaddr), pmePerm flags)) ∧
    (∀ va : Addr, va.toNat % 4096 = 0 →
      ¬ (vaddr.toNat ≤ va.toNat ∧ va.toNat < vaddr.toNat + (alignUp size PAGESZ).toNat) →
      st'.translate s va = st.translate s va) ∧
    (∀ s' : Nat, s' ≠ s → ∀ va : Addr, va.toNat % 4096 = 0 →
      st'.translate s' va = st.translate s' va) := by
  obtain ⟨res, st'', m, hrun', hmap, -, hres⟩ := addrspcMap_spec hst.inv s vaddr paddr size hf
  rw [hrun] at hrun'
  obtain ⟨rfl, rfl⟩ : 0 = res ∧ st' = st'' := by simpa using hrun'
  have hup : (alignUp size PAGESZ).toNat = (size.toNat + 4095) / 4096 * 4096 :=
    alignUp_toNat (by omega)
  have hm : m = min ((alignUp size PAGESZ).toNat / 4096) (2 ^ 20 - vaddr.toNat / 4096) := by
    rcases hres with ⟨-, h⟩ | ⟨h, -⟩
    · exact h
    · simp [ENOMEM] at h
  have hpaddr : alignDown paddr PAGESZ = paddr := alignDown_of_aligned hp
  have hpage : ∀ va : Addr, va.toNat / 4096 < 2 ^ 20 := by
    intro va
    have := va.isLt
    omega
  refine ⟨?_, ?_, ?_⟩
  · intro va hva hlo hhi
    have hframe : BitVec.ofNat 32 (4096 * (va.toNat / 4096 - vaddr.toNat / 4096)) = va - vaddr := by
      bv_omega
    rw [translate_eq_view st' s hva, hmap.view _ (hpage va), if_pos (by omega), hpaddr, hframe]
  · intro va hva hout
    rw [translate_eq_view st' s hva, translate_eq_view st s hva, hmap.view _ (hpage va),
      if_neg (by omega)]
  · intro s' hs va hva
    rw [translate_eq_view st' s' hva, translate_eq_view st s' hva, hmap.other s' _ hs (hpage va)]

theorem used_initial (mem : Mem) : (PmState.initial mem).used.card = 0 := by
  simp [PmState.used, PmState.initial, PmState.fresh]

/-- One user page in an empty space. -/
theorem addrspcMap_exact_onePage :
    ∃ st', addrspcMap (PmState.initial fun _ => 0#8) 0 0x400000#32 0x800000#32 4096#32 PME_USER =
        some (0, st') ∧
      st'.translate 0 0x400000#32 = some (0x800000#32, pmePerm PME_USER) := by
  obtain ⟨st', hrun, -⟩ := addrspcMap_succeeds (PmInv.initial fun _ => 0#8) 0 0x400000#32
    0x800000#32 4096#32 (by decide : FlagSet PME_USER) 2 (by decide) (.inl rfl)
    (by rw [used_initial]; decide)
  have h := addrspcMap_exact (.initial _) (by decide) (by decide) (by decide) (by decide) (by decide)
    hrun
  refine ⟨st', hrun, ?_⟩
  rw [h.1 0x400000#32 (by decide) (by decide) (by decide)]
  decide

end Munix
