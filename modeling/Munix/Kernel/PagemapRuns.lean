import Munix.Kernel.PagemapUnmap

/-!
# Munix — runs of page-map calls

What sequences of `addrspc_map`, `addrspc_unmap` and `addrspc_cleanup` calls
do to the tables and the translations, in every state they reach.

* `addrspcUnmap_exact_iff`: an unmap removes exactly the requested range if
  and only if its size, charged as the walk charges it, lasts for exactly the
  translated pages of the range.
* `PmReachable.tablesOwned`: as long as no unmap takes the last page out of a
  space, every table entry owns the pool page it designates.
-/

namespace Munix

open ByteMem

-- ---------------------------------------------------------------------------
-- Tables are never left empty
-- ---------------------------------------------------------------------------

theorem MapTo.filled {st st' : PmState} {s p m : Nat} {paddr : BitVec 32} {flags : Pme}
    (h : MapTo st st' s p m paddr flags) (hfill : st.Filled) : st'.Filled := by
  intro s' d hp
  have hd : d < 1024 := hp.2.1
  rcases h.grow s' d hp with hold | ⟨rfl, x, hlo, hhi, rfl⟩
  · obtain ⟨t, ht, hsome⟩ := hfill s' d hold
    refine ⟨t, ht, ?_⟩
    by_cases hs : s' = s
    · subst hs
      rw [h.view _ (by omega)]
      split
      · rfl
      · exact hsome
    · rw [h.other s' _ hs (by omega)]
      exact hsome
  · refine ⟨x % 1024, Nat.mod_lt _ (by decide), ?_⟩
    rw [show 1024 * (x / 1024) + x % 1024 = x by omega, h.view x (by omega), if_pos ⟨hlo, hhi⟩]
    rfl

theorem PmState.Filled.initial (mem : Mem) : (PmState.initial mem).Filled := by
  intro s d hp
  exact absurd hp (PmState.initial_absent mem _)

theorem MapReachable.filled {st : PmState} (h : MapReachable st) : st.Filled := by
  induction h with
  | fresh mem => exact PmState.Filled.initial mem
  | map s vaddr paddr size flags hst hf hrun ih =>
    obtain ⟨res, st', m, hrun', hmap, -, -⟩ := addrspcMap_spec hst.inv s vaddr paddr size hf
    rw [hrun] at hrun'
    obtain ⟨rfl, rfl⟩ : 0 = res ∧ _ = st' := by simpa using hrun'
    exact hmap.filled ih

-- ---------------------------------------------------------------------------
-- When an unmap removes exactly its range
-- ---------------------------------------------------------------------------

/-- Page `x` lies in the `size` bytes from `vaddr` on, rounded up to pages. -/
def InRange (vaddr size : BitVec 32) (x : Nat) : Prop :=
  vaddr.toNat ≤ 4096 * x ∧ 4096 * x < vaddr.toNat + (size.toNat + 4095) / 4096 * 4096

instance (vaddr size : BitVec 32) (x : Nat) : Decidable (InRange vaddr size x) :=
  inferInstanceAs (Decidable (_ ∧ _))

/-- No page of the range is translated any more, and every other page of this
space and of the others is translated as before. -/
def UnmapsExactly (st st' : PmState) (s : Nat) (vaddr size : BitVec 32) : Prop :=
  (∀ va : Addr, va.toNat % 4096 = 0 → InRange vaddr size (va.toNat / 4096) →
    st'.translate s va = none) ∧
  (∀ va : Addr, va.toNat % 4096 = 0 → ¬ InRange vaddr size (va.toNat / 4096) →
    st'.translate s va = st.translate s va) ∧
  (∀ s' : Nat, s' ≠ s → ∀ va : Addr, va.toNat % 4096 = 0 →
    st'.translate s' va = st.translate s' va)

/-- The size lasts for exactly the translated pages of the range, when 4 KiB
are charged for a translated page, 4 MiB for an untranslated one that shares
a table with a translated one, and nothing for a missing table. -/
def PmState.SizeFits (st : PmState) (s : Nat) (vaddr size : BitVec 32) : Prop :=
  ∀ x < 2 ^ 20, (st.view s x).isSome = true →
    (InRange vaddr size x ↔ Reached (st.view s) (vaddr.toNat / 4096) (unmapSize size) x)

/-- **When an unmap removes exactly the requested range.** -/
theorem addrspcUnmap_exact_iff {st st' : PmState} {s : Nat} {vaddr size : BitVec 32}
    (hst : MapReachable st) (hrun : addrspcUnmap st s vaddr size = some (0, st')) :
    UnmapsExactly st st' s vaddr size ↔ st.SizeFits s vaddr size := by
  obtain ⟨st'', hrun', hlost, hkept, hother, -, -⟩ :=
    addrspcUnmap_spec hst.inv hst.filled s vaddr size
  obtain rfl : st' = st'' := by
    rw [hrun] at hrun'
    simpa using hrun'
  have hpage : ∀ va : Addr, va.toNat / 4096 < 2 ^ 20 := by
    intro va
    have := va.isLt
    omega
  constructor
  · rintro ⟨hin, hout, -⟩ x hx hsome
    -- the page address of `x`
    have hva : (BitVec.ofNat 32 (4096 * x)).toNat = 4096 * x := by
      rw [BitVec.toNat_ofNat]
      omega
    have hx' : (BitVec.ofNat 32 (4096 * x)).toNat / 4096 = x := by omega
    have htr : ∀ σ : PmState, σ.translate s (BitVec.ofNat 32 (4096 * x)) = σ.view s x := by
      intro σ
      rw [translate_eq_view σ s (by omega), hx']
    constructor
    · intro hr
      by_contra hno
      have hnone := hin (BitVec.ofNat 32 (4096 * x)) (by omega) (by rwa [hx'])
      rw [htr, hkept x hx hno] at hnone
      simp [hnone] at hsome
    · intro hr
      by_contra hno
      have hsame := hout (BitVec.ofNat 32 (4096 * x)) (by omega) (by rwa [hx'])
      rw [htr, htr, hlost x hx hr] at hsame
      simp [← hsame] at hsome
  · intro hfits
    -- an untranslated page stays untranslated, whether it is reached or not
    have hnone : ∀ x, x < 2 ^ 20 → (st.view s x).isSome = false → st'.view s x = st.view s x := by
      intro x hx hn
      by_cases hr : Reached (st.view s) (vaddr.toNat / 4096) (unmapSize size) x
      · rw [hlost x hx hr]
        exact (Option.isSome_eq_false_iff.mp hn |> Option.isNone_iff_eq_none.mp).symm
      · exact hkept x hx hr
    refine ⟨?_, ?_, ?_⟩
    · intro va hva hr
      rw [translate_eq_view st' s hva]
      cases hsome : (st.view s (va.toNat / 4096)).isSome with
      | true => exact hlost _ (hpage va) ((hfits _ (hpage va) hsome).mp hr)
      | false =>
        rw [hnone _ (hpage va) hsome]
        exact Option.isNone_iff_eq_none.mp (Option.isSome_eq_false_iff.mp hsome)
    · intro va hva hr
      rw [translate_eq_view st' s hva, translate_eq_view st s hva]
      cases hsome : (st.view s (va.toNat / 4096)).isSome with
      | true => exact hkept _ (hpage va) fun h => hr ((hfits _ (hpage va) hsome).mpr h)
      | false => exact hnone _ (hpage va) hsome
    · intro s' hs va hva
      rw [translate_eq_view st' s' hva, translate_eq_view st s' hva, hother s' _ hs (hpage va)]

/-- A space with pages in one page table. -/
theorem exists_pages (vaddr size : BitVec 32)
    (hone : vaddr.toNat / 4096 % 1024 + (alignUp size PAGESZ).toNat / 4096 ≤ 1024) :
    ∃ st, addrspcMap (PmState.initial fun _ => 0#8) 0 vaddr 0x800000#32 size PME_USER = some (0, st) ∧
      MapReachable st ∧ ∀ x, x < 2 ^ 20 → ((st.view 0 x).isSome = true ↔
        vaddr.toNat / 4096 ≤ x ∧ x < vaddr.toNat / 4096 + (alignUp size PAGESZ).toNat / 4096) := by
  obtain ⟨st, hrun, hmap, -⟩ := addrspcMap_succeeds (PmInv.initial fun _ => 0#8) 0 vaddr
    0x800000#32 size (by decide : FlagSet PME_USER) 2 hone (.inl rfl) (by rw [used_initial]; decide)
  refine ⟨st, hrun, .map 0 vaddr 0x800000#32 size PME_USER (.fresh _) (by decide) hrun, ?_⟩
  intro x hx
  have hempty : (PmState.initial fun _ => 0#8).view 0 x = none :=
    view_eq_none_of_absent hx (PmState.initial_absent _ _)
  rw [hmap.view x hx, hempty]
  split
  · simpa
  · simp only [Option.isSome_none, Bool.false_eq_true, false_iff]
    omega

/-- A space with a single page. -/
theorem exists_onePage (vaddr : BitVec 32) (hv : vaddr.toNat % 4096 = 0) :
    ∃ st, addrspcMap (PmState.initial fun _ => 0#8) 0 vaddr 0x800000#32 4096#32 PME_USER =
        some (0, st) ∧ MapReachable st ∧
      ∀ x, x < 2 ^ 20 → ((st.view 0 x).isSome = true ↔ 4096 * x = vaddr.toNat) := by
  have hup : (alignUp 4096#32 PAGESZ).toNat / 4096 = 1 := by decide
  obtain ⟨st, hrun, hst, hview⟩ := exists_pages vaddr 4096#32 (by omega)
  refine ⟨st, hrun, hst, fun x hx => ?_⟩
  rw [hview x hx, hup]
  omega

/-- Before the table of page `p` there is nothing to charge. -/
theorem sizeLeft_start {α : Type} {v : Nat → Option α} {p : Nat} (size : BitVec 32) {x : Nat}
    (hx : x ≤ 1024 * (p / 1024)) : sizeLeft v p size x = size := by
  have hout : ∀ y, y < x → ¬ InWalk v p y := by
    intro y hy h
    have := h.1
    omega
  have hpages : pagesBefore v p x = 0 := by
    rw [pagesBefore, Finset.card_eq_zero, Finset.filter_eq_empty_iff]
    intro y hy h
    exact hout y (Finset.mem_range.mp hy) h.1
  have hholes : holesBefore v p x = 0 := by
    rw [holesBefore, Finset.card_eq_zero, Finset.filter_eq_empty_iff]
    intro y hy h
    exact hout y (Finset.mem_range.mp hy) h.1
  simp [sizeLeft, hpages, hholes]

/-- The first page of the walk is reached if it is there. -/
theorem reached_first {α : Type} {v : Nat → Option α} {p : Nat} {size : BitVec 32}
    (hv : (v p).isSome = true) (hp : p % 1024 = 0) (hsize : size ≠ 0#32) : Reached v p size p := by
  refine ⟨⟨le_refl _, ⟨p % 1024, Nat.mod_lt _ (by decide), ?_⟩, by rw [enterAt_start]⟩, hsize, ?_⟩
  · rwa [show 1024 * (p / 1024) + p % 1024 = p by omega]
  · intro y hy hwalk
    have := hwalk.1
    omega

/-- A page that is alone in its space can be unmapped by itself. -/
theorem addrspcUnmap_exact_iff_onePage :
    ∃ st st', MapReachable st ∧ addrspcUnmap st 0 0x400000#32 4096#32 = some (0, st') ∧
      UnmapsExactly st st' 0 0x400000#32 4096#32 := by
  obtain ⟨st, -, hst, hview⟩ := exists_onePage 0x400000#32 (by decide)
  obtain ⟨st', hrun, -⟩ := addrspcUnmap_spec hst.inv hst.filled 0 0x400000#32 4096#32
  refine ⟨st, st', hst, hrun, ?_⟩
  refine (addrspcUnmap_exact_iff hst hrun).mpr ?_
  intro x hx hsome
  obtain rfl : x = 1024 := by
    have : 4096 * x = 4194304 := (hview x hx).mp hsome
    omega
  exact iff_of_true (by decide) (reached_first hsome (by decide) (by decide))

/-- With a hole before the page, the hole is charged 4 MiB and the page stays. -/
theorem addrspcUnmap_stops_at_hole :
    ∃ st st', MapReachable st ∧ addrspcUnmap st 0 0x400000#32 8192#32 = some (0, st') ∧
      ¬ UnmapsExactly st st' 0 0x400000#32 8192#32 := by
  obtain ⟨st, -, hst, hview⟩ := exists_onePage 0x401000#32 (by decide)
  obtain ⟨st', hrun, -, hkept, -⟩ := addrspcUnmap_spec hst.inv hst.filled 0 0x400000#32 8192#32
  refine ⟨st, st', hst, hrun, ?_⟩
  intro hexact
  have hpage : (st.view 0 1025).isSome = true := (hview 1025 (by decide)).mpr (by decide)
  have hhole : (st.view 0 1024).isSome = false := by
    rw [Bool.eq_false_iff, ne_eq, hview 1024 (by decide)]
    decide
  have hp : (0x400000#32).toNat / 4096 = 1024 := by decide
  have hin : InWalk (st.view 0) ((0x400000#32).toNat / 4096) 1024 := by
    refine ⟨by decide, ⟨1, by decide, hpage⟩, ?_⟩
    rw [show 1024 / 1024 = (0x400000#32).toNat / 4096 / 1024 by decide, enterAt_start]
    decide
  have hnot : ¬ Reached (st.view 0) ((0x400000#32).toNat / 4096) (unmapSize 8192#32) 1025 := by
    rintro ⟨-, -, hlast⟩
    have h := hlast 1024 (by decide) hin
    rw [hhole, if_neg (by decide), sizeLeft_start _ (by decide)] at h
    exact absurd h (by decide)
  have hnone := hexact.1 0x401000#32 (by decide) (by decide)
  rw [translate_eq_view st' 0 (by decide), show (0x401000#32).toNat / 4096 = 1025 by decide,
    hkept 1025 (by decide) hnot] at hnone
  simp [hnone] at hpage

-- ---------------------------------------------------------------------------
-- Runs
-- ---------------------------------------------------------------------------

/-- The calls that change page maps. -/
inductive PmCall where
  | map (s : Nat) (vaddr paddr size : BitVec 32) (flags : Pme)
  | unmap (s : Nat) (vaddr size : BitVec 32)
  | cleanup (s : Nat)

def PmCall.run (st : PmState) : PmCall → Option (Int × PmState)
  | .map s vaddr paddr size flags => addrspcMap st s vaddr paddr size flags
  | .unmap s vaddr size => addrspcUnmap st s vaddr size
  | .cleanup s => addrspcCleanup st s

/-- The flags of a map call are flags. -/
def PmCall.FlagsOk : PmCall → Prop
  | .map _ _ _ _ flags => FlagSet flags
  | _ => True

/-- The states that sequences of calls reach from the initial state, when
every call is one that `ok` admits in the state it is made in. Calls may fail. -/
inductive PmReachable (ok : PmState → PmCall → Prop) : PmState → Prop where
  | initial (mem : Mem) : PmReachable ok (PmState.initial mem)
  | call {st st' : PmState} {res : Int} (c : PmCall) : PmReachable ok st → c.FlagsOk → ok st c →
      c.run st = some (res, st') → PmReachable ok st'

/-- An unmap or cleanup does not take the last page out of a space. -/
def KeepsPage (st : PmState) : PmCall → Prop
  | .map .. => True
  | .unmap s vaddr size => st.PageLeft s vaddr size
  | .cleanup s => st.PageLeft s 0#32 SIZE_MAX

theorem PmCall.run_inv {st st' : PmState} {res : Int} {c : PmCall} (hinv : PmInv st)
    (hfill : st.Filled) (hflags : c.FlagsOk) (hkeep : KeepsPage st c)
    (hrun : c.run st = some (res, st')) :
    PmInv st' ∧ st'.Filled ∧ ∀ i, st'.Leaked i ↔ st.Leaked i := by
  cases c with
  | map s vaddr paddr size flags =>
    obtain ⟨res', st'', m, hrun', hmap, -, -⟩ := addrspcMap_spec hinv s vaddr paddr size hflags
    obtain ⟨rfl, rfl⟩ : res = res' ∧ st' = st'' := by simpa using hrun.symm.trans hrun'
    exact ⟨hmap.inv, hmap.filled hfill, hmap.leaked⟩
  | unmap s vaddr size =>
    obtain ⟨st'', hrun', -, -, -, hkept, -⟩ := addrspcUnmap_spec hinv hfill s vaddr size
    obtain ⟨-, rfl⟩ : res = 0 ∧ st' = st'' := by simpa using hrun.symm.trans hrun'
    exact hkept hkeep
  | cleanup s =>
    obtain ⟨st'', hrun', -, -, -, hkept, -⟩ := addrspcUnmap_spec hinv hfill s 0#32 SIZE_MAX
    obtain ⟨-, rfl⟩ : res = 0 ∧ st' = st'' := by simpa using hrun.symm.trans hrun'
    exact hkept hkeep

theorem PmReachable.inv {st : PmState} (h : PmReachable KeepsPage st) :
    PmInv st ∧ st.Filled ∧ ∀ i, ¬ st.Leaked i := by
  induction h with
  | initial mem =>
    refine ⟨PmInv.initial mem, PmState.Filled.initial mem, fun i hi => ?_⟩
    exact hi.1 rfl
  | call c _ hflags hkeep hrun ih =>
    obtain ⟨hinv, hfill, hleak⟩ := ih
    obtain ⟨hinv', hfill', hsame⟩ := PmCall.run_inv hinv hfill hflags hkeep hrun
    exact ⟨hinv', hfill', fun i hi => hleak i ((hsame i).mp hi)⟩

/-- **Table ownership.** In every state that calls reach without taking the
last page out of a space, each present table entry designates an allocated
pool page of its own, and the pages that nothing designates are the free ones. -/
theorem pmReachable_tablesOwned {st : PmState} (h : PmReachable KeepsPage st) : st.TablesOwned :=
  ⟨h.inv.1.owned, h.inv.2.2⟩

/-- Mapping two pages and unmapping the first one is such a run. -/
theorem pmReachable_tablesOwned_twoPages :
    ∃ st, PmReachable KeepsPage st ∧ st.view 0 1024 = none ∧ (st.view 0 1025).isSome = true ∧
      st.TablesOwned := by
  obtain ⟨st, hrun, hst, hview⟩ := exists_pages 0x400000#32 8192#32 (by decide)
  have hfirst : (st.view 0 1024).isSome = true := (hview 1024 (by decide)).mpr (by decide)
  have hsecond : (st.view 0 1025).isSome = true := (hview 1025 (by decide)).mpr (by decide)
  obtain ⟨st', hrun', hlost, hkept, -⟩ := addrspcUnmap_spec hst.inv hst.filled 0 0x400000#32 4096#32
  have hreached : Reached (st.view 0) ((0x400000#32).toNat / 4096) (unmapSize 4096#32) 1024 :=
    reached_first hfirst (by decide) (by decide)
  -- the size is used up by the first page
  have hnot : ¬ Reached (st.view 0) ((0x400000#32).toNat / 4096) (unmapSize 4096#32) 1025 := by
    rintro ⟨-, -, hlast⟩
    have h := hlast 1024 (by decide) hreached.1
    rw [if_pos hfirst, sizeLeft_start _ (by decide)] at h
    exact absurd h (by decide)
  have hmap : PmReachable KeepsPage st :=
    .call (.map 0 0x400000#32 0x800000#32 8192#32 PME_USER) (.initial _)
      (show FlagSet PME_USER by decide) trivial hrun
  have hleft : st.PageLeft 0 0x400000#32 4096#32 := .inr ⟨1025, by decide, hsecond, hnot⟩
  have hreach : PmReachable KeepsPage st' := .call (.unmap 0 0x400000#32 4096#32) hmap trivial hleft hrun'
  exact ⟨st', hreach, hlost 1024 (by decide) hreached, by rwa [hkept 1025 (by decide) hnot],
    pmReachable_tablesOwned hreach⟩

/-- Unmapping the only page of a space: its page directory is freed, and the
root entry goes on designating it. -/
theorem tablesOwned_lost_at_last_page :
    ∃ st, PmReachable (fun _ _ => True) st ∧ ¬ st.TablesOwned := by
  obtain ⟨st, hrun, hst, hview⟩ := exists_onePage 0x400000#32 (by decide)
  obtain ⟨st', hrun', -, -, -, -, hlost⟩ := addrspcUnmap_spec hst.inv hst.filled 0 0x400000#32 4096#32
  have hreach : PmReachable (fun _ _ => True) st :=
    .call (.map 0 0x400000#32 0x800000#32 4096#32 PME_USER) (.initial _)
      (show FlagSet PME_USER by decide) trivial hrun
  refine ⟨st', .call (.unmap 0 0x400000#32 4096#32) hreach trivial trivial hrun', hlost ?_⟩
  rintro (h0 | ⟨x, hx, hsome, hnot⟩)
  · have hnone : st.view 0 1024 = none := by
      rw [PmState.view, h0]
      rfl
    have := (hview 1024 (by decide)).mpr (by decide)
    simp [hnone] at this
  · obtain rfl : x = 1024 := by
      have : 4096 * x = 4194304 := (hview x hx).mp hsome
      omega
    apply hnot
    exact reached_first hsome (by decide) (by decide)

end Munix
