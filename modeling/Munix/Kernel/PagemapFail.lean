import Munix.Kernel.PagemapClose

/-!
# Munix — a map call that runs out of pages

A map call can need a pool page at its root entry and at every page table of its
range, and it stops where it does not get one. What it has done by then stays:
`PartlyMapped` says that an initial part of the range is mapped and that the
rest, the other pages and the other spaces are as they were, with every page that
the call took hanging in the tables of its space.

The spaces are those that successful map calls build, with any pages of the pool
in other hands (`MapBuilt`).
-/

namespace Munix

open ByteMem

-- ---------------------------------------------------------------------------
-- Half a map
-- ---------------------------------------------------------------------------

/-- Pool page `i` is the page directory of the space or one of its page tables. -/
def PmState.InTree (st : PmState) (s : Nat) (i : Fin PHYSPAGES_MAX) : Prop :=
  st.Designates (.root s) i ∨ ∃ d, st.Designates (.pde s d) i

/-- The first `k` pages of the range have been mapped, and nothing else has happened. -/
structure PartlyMapped (st st' : PmState) (s : Nat) (vaddr paddr size : BitVec 32) (flags : Pme)
    (k : Nat) : Prop where
  /-- the pages are pages of the range -/
  inRange : 4096 * k ≤ size.toNat
  mapped : ∀ va : Addr, va.toNat % 4096 = 0 → vaddr.toNat ≤ va.toNat → va.toNat < vaddr.toNat + 4096 * k →
    st'.translate s va = some (paddr + (va - vaddr), pmePerm flags)
  rest : ∀ va : Addr, va.toNat % 4096 = 0 → vaddr.toNat + 4096 * k ≤ va.toNat →
    va.toNat < vaddr.toNat + size.toNat → st'.translate s va = st.translate s va
  outside : ∀ va : Addr, va.toNat % 4096 = 0 →
    ¬ (vaddr.toNat ≤ va.toNat ∧ va.toNat < vaddr.toNat + size.toNat) →
    st'.translate s va = st.translate s va
  others : ∀ s', s' ≠ s → ∀ va : Addr, va.toNat % 4096 = 0 → st'.translate s' va = st.translate s' va
  /-- what the call took from the pool can be reached from the root of the space -/
  noneLost : ∀ i, ¬ st.Allocated i → st'.Allocated i → st'.InTree s i
  /-- the tables are in order, and further calls find them so -/
  inv : PmInv st'

/-- The effect of a walk, in addresses. -/
theorem MapTo.partlyMapped {st st' : PmState} {s m : Nat} {vaddr paddr size : BitVec 32} {flags : Pme}
    (h : MapTo st st' s (vaddr.toNat / 4096) m paddr flags) (hinv : PmInv st)
    (hv : vaddr.toNat % 4096 = 0) (hm : 4096 * m ≤ size.toNat) :
    PartlyMapped st st' s vaddr paddr size flags m := by
  have hpage : ∀ va : Addr, va.toNat / 4096 < 2 ^ 20 := by
    intro va
    have := va.isLt
    omega
  -- pages that are not among the first `m` keep their translation
  have hkeep : ∀ va : Addr, va.toNat % 4096 = 0 →
      ¬ (vaddr.toNat ≤ va.toNat ∧ va.toNat < vaddr.toNat + 4096 * m) →
      st'.translate s va = st.translate s va := by
    intro va hva hout
    rw [translate_eq_view st' s hva, translate_eq_view st s hva, h.view _ (hpage va), if_neg (by omega)]
  refine ⟨hm, ?_, ?_, ?_, ?_, ?_, h.inv⟩
  · intro va hva hlo hhi
    have hframe : BitVec.ofNat 32 (4096 * (va.toNat / 4096 - vaddr.toNat / 4096)) = va - vaddr := by
      bv_omega
    rw [translate_eq_view st' s hva, h.view _ (hpage va), if_pos (by omega), hframe]
  · exact fun va hva hlo _ => hkeep va hva (by omega)
  · exact fun va hva hout => hkeep va hva (by omega)
  · intro s' hs va hva
    rw [translate_eq_view st' s' hva, translate_eq_view st s' hva, h.other s' _ hs (hpage va)]
  · intro i hfree hi
    rcases h.allocated_cases hinv hi with hold | hroot | ⟨x, -, -, htbl⟩
    · exact absurd hold hfree
    · exact .inl hroot
    · exact .inr ⟨_, htbl⟩

/--
**A map call that fails leaves a consistent space.** Whatever successful map calls have built before,
and however many pages of the pool are left: if a page-aligned request ends with `-ENOMEM`, then an
initial part of its range (which may even run over the end of the address space) is mapped as
requested, everything else is translated as before, and no page of the pool is lost.
-/
theorem addrspcMap_enomem {taken : Fin PHYSPAGES_MAX → Bool} {st st' : PmState} {s : Nat}
    {vaddr paddr size : BitVec 32} {flags : Pme} (hst : MapBuilt taken st)
    (hv : vaddr.toNat % 4096 = 0) (hp : paddr.toNat % 4096 = 0) (hsize : size.toNat % 4096 = 0)
    (hf : FlagSet flags) (hrun : addrspcMap st s vaddr paddr size flags = some (-ENOMEM, st')) :
    ∃ k, PartlyMapped st st' s vaddr paddr size flags k := by
  have hslt := size.isLt
  have hup : (alignUp size PAGESZ).toNat = (size.toNat + 4095) / 4096 * 4096 := alignUp_toNat (by omega)
  have hpaddr : alignDown paddr PAGESZ = paddr := alignDown_of_aligned hp
  obtain ⟨res, st'', m, hrun', hmap, hm, -⟩ := addrspcMap_spec hst.inv s vaddr paddr size hf
  obtain ⟨-, rfl⟩ : -ENOMEM = res ∧ st' = st'' := by simpa using hrun.symm.trans hrun'
  rw [hpaddr] at hmap
  exact ⟨m, hmap.partlyMapped hst.inv hv (by omega)⟩

/-- With a single page left, the kernel range gets a page directory and no page table. -/
theorem addrspcMap_enomem_kernel :
    ∃ st' k, addrspcMap (PmState.fresh (fun _ => 0#8) fun i => i.val != 0) 0 0#32 0#32 0x400000#32 0#32 =
        some (-ENOMEM, st') ∧
      PartlyMapped (PmState.fresh (fun _ => 0#8) fun i => i.val != 0) st' 0 0#32 0#32 0x400000#32 0#32 k := by
  have hused : PHYSPAGES_MAX < (PmState.fresh (fun _ => 0#8) fun i => i.val != 0).used.card + 2 := by
    decide
  obtain ⟨st', hrun⟩ := (addrspcInit_fails_iff (PmInv.fresh _ _) (s := 0) rfl).mpr hused
  obtain ⟨k, hk⟩ := addrspcMap_enomem (.fresh _) (by decide) (by decide) (by decide) (by decide)
    hrun
  exact ⟨st', k, hrun, hk⟩

end Munix
