import Munix.Drivers.CpioBounds
import Munix.Kernel.LoadPool

/-!
# Munix — where loading a segment stores

`elf_load_seg32` copies `p_filesz` bytes to `p_vaddr`, one read after another,
and fills up to `p_memsz` with zeros; what it maps for that is computed from
`p_vaddr` and `p_memsz`. Nothing compares the three numbers, and a read from
behind the end of the file stores more than it is asked for.

`segRanges` are the ranges that the code stores to, one for each read and one for
`memset`. They are what the memory model does: memory changes there and nowhere
else (`elfLoadSeg32_touched`), and the call returns if and only if the copy loop
ends and all of them can be written (`elfLoadSeg32_returns_iff`).

* `processLoadPath_contained_iff`: in every load, a segment is stored inside its
  memory range, or refused, if and only if its range does not wrap around and
  holds all that the file can deliver, or it cannot be mapped.
-/

namespace Munix

open ByteMem

-- ---------------------------------------------------------------------------
-- Ranges
-- ---------------------------------------------------------------------------

/-- Address `a` is in one of the ranges, each given by its address and length. -/
def Stores (rs : List (Addr × Nat)) (a : Addr) : Prop :=
  ∃ q ∈ rs, ∃ j < q.2, a = q.1 + BitVec.ofNat 32 j

/-- Where the reads of the copy loop store, and `vpos` when the loop is done. -/
def copyRanges (d : Drivers) (fend : Addr) : Nat → File FileOps → Addr →
    List (Addr × Nat) × Option Addr
  | 0, _, _ => ([], none)
  | fuel + 1, f, vpos =>
    if vpos < fend then
      let (res, bs, f) := fileRead d.read f (vpos != 0#32) (fend - vpos)
      if res < 0 then ([(vpos, bs.length)], none)
      else
        let r := copyRanges d fend fuel f (vpos + BitVec.ofInt 32 res)
        ((vpos, bs.length) :: r.1, r.2)
    else ([], some vpos)

/-- Where `elf_load_seg32` stores, as long as no page fault stops it. -/
def segRanges (d : Drivers) (fuel : Nat) (f : File FileOps) (phdr : Phdr) : List (Addr × Nat) :=
  let (res, f) := fileLseek f (pOffset phdr) .seekSet
  if res < 0 then []
  else
    let vaddr := pVaddr phdr
    let r := copyRanges d (vaddr + pFilesz phdr) fuel f vaddr
    match r.2 with
    | none => r.1
    | some vpos => r.1 ++ [(vpos, (vaddr + pMemsz phdr - vpos).toNat)]

theorem stores_nil (a : Addr) : ¬ Stores [] a := by
  rintro ⟨q, hq, -⟩
  cases hq

theorem stores_cons {va : Addr} {n : Nat} {rs : List (Addr × Nat)} {a : Addr} :
    Stores ((va, n) :: rs) a ↔ (∃ j < n, a = va + BitVec.ofNat 32 j) ∨ Stores rs a := by
  simp only [Stores, List.mem_cons, exists_eq_or_imp]

theorem stores_append {rs rs' : List (Addr × Nat)} {a : Addr} :
    Stores (rs ++ rs') a ↔ Stores rs a ∨ Stores rs' a := by
  induction rs with
  | nil => simp [stores_nil]
  | cons q rs ih => rw [List.cons_append, stores_cons, stores_cons, ih, or_assoc]

-- ---------------------------------------------------------------------------
-- Stores through the page map of a process
-- ---------------------------------------------------------------------------

/-- Address `a` of process `p` can be written without hitting the kernel. -/
def Resources.Writable (r : Resources) (p : Fin PROCESS_MAX) (a : Addr) : Prop :=
  ∃ pa perm, r.pm.translate p.val a = some (pa, perm) ∧ ¬ pa < KMAP_MAX

/-- Memory has changed in the ranges only. -/
def Resources.Touched (r : Resources) (p : Fin PROCESS_MAX) (rs : List (Addr × Nat)) (m : Mem) : Prop :=
  ∀ pa, m pa ≠ r.pm.mem pa → ∃ a perm, Stores rs a ∧ r.pm.translate p.val a = some (pa, perm)

section Exec

variable {r : Resources} {p : Fin PROCESS_MAX} {m : Mem}

theorem storeV_eq (hr : r.Loading p) (hm : KernelKept r.pm.mem m) (va : Addr) (b : Byte) :
    storeV r.cr3 m va b =
      match r.pm.translate p.val va with
      | none => .fault m
      | some (pa, _) => if pa < KMAP_MAX then .clobber else .ok (store8 m pa b) := by
  cases htr : r.pm.translate p.val va <;> simp [storeV, hr.walk hm, htr]

/-- What a store does, to memory and as a result. -/
theorem storeV_cases (hr : r.Loading p) (hm : KernelKept r.pm.mem m) (va : Addr) (b : Byte) :
    (∃ pa perm, r.pm.translate p.val va = some (pa, perm) ∧ r.Writable p va ∧
      storeV r.cr3 m va b = .ok (store8 m pa b)) ∨
    (¬ r.Writable p va ∧ (storeV r.cr3 m va b = .fault m ∨ storeV r.cr3 m va b = .clobber)) := by
  rw [storeV_eq hr hm]
  rcases ht : r.pm.translate p.val va with _ | ⟨pa, perm⟩
  · refine .inr ⟨?_, .inl rfl⟩
    rintro ⟨pa, perm, h, -⟩
    rw [ht] at h
    cases h
  · by_cases hpa : pa < KMAP_MAX
    · refine .inr ⟨?_, .inr (if_pos hpa)⟩
      rintro ⟨pa', perm', h, hno⟩
      obtain ⟨rfl, -⟩ := Prod.mk.inj (Option.some.inj (ht.symm.trans h))
      exact hno hpa
    · exact .inl ⟨pa, perm, rfl, ⟨pa, perm, ht, hpa⟩, if_neg hpa⟩

theorem ofNat_succ_add (va : Addr) (j : Nat) :
    va + BitVec.ofNat 32 (j + 1) = va + 1#32 + BitVec.ofNat 32 j := by
  rw [BitVec.add_assoc, ← BitVec.ofNat_add, Nat.add_comm]

/-- A run of stores, given by what it does to the next byte. -/
theorem forall_lt_succ_add {P : Addr → Prop} (va : Addr) (n : Nat) :
    (∀ j < n + 1, P (va + BitVec.ofNat 32 j)) ↔
      P va ∧ ∀ j < n, P (va + 1#32 + BitVec.ofNat 32 j) := by
  constructor
  · intro h
    refine ⟨by simpa using h 0 (by omega), fun j hj => ?_⟩
    rw [← ofNat_succ_add]
    exact h (j + 1) (by omega)
  · rintro ⟨h0, h⟩ j hj
    cases j with
    | zero => simpa using h0
    | succ j =>
      rw [ofNat_succ_add]
      exact h j (by omega)

theorem storeV_touched (hr : r.Loading p) (hm : KernelKept r.pm.mem m) {rs : List (Addr × Nat)}
    (ht : r.Touched p rs m) {va : Addr} (hva : Stores rs va) (b : Byte) :
    (storeV r.cr3 m va b).All (r.Touched p rs) (r.Touched p rs) := by
  rcases storeV_cases hr hm va b with ⟨pa, perm, htr, -, hrun⟩ | ⟨-, hrun | hrun⟩
  · rw [hrun]
    intro a ha
    by_cases hpa : a = pa
    · subst hpa
      exact ⟨va, perm, hva, htr⟩
    · rw [store8_ne hpa] at ha
      exact ht a ha
  · rw [hrun]
    exact ht
  · rw [hrun]
    trivial

theorem storeBytesV_touched (hr : r.Loading p) (hm : KernelKept r.pm.mem m) {rs : List (Addr × Nat)}
    (ht : r.Touched p rs m) (va : Addr) (bs : List Byte)
    (hva : ∀ j < bs.length, Stores rs (va + BitVec.ofNat 32 j)) :
    (storeBytesV r.cr3 m va bs).All (r.Touched p rs) (r.Touched p rs) := by
  induction bs generalizing m va with
  | nil => exact ht
  | cons b bs ih =>
    rw [List.length_cons, forall_lt_succ_add] at hva
    have htouch := storeV_touched hr hm ht hva.1 b
    have hkept := storeV_kept r.cr3 m va b
    rw [storeBytesV]
    split <;> rename_i heq <;> rw [heq] at htouch hkept
    · exact ih (hm.trans hkept) htouch _ hva.2
    · exact htouch
    · trivial

theorem memsetV_touched (hr : r.Loading p) (hm : KernelKept r.pm.mem m) {rs : List (Addr × Nat)}
    (ht : r.Touched p rs m) (va : Addr) (c : Byte) (n : Nat)
    (hva : ∀ j < n, Stores rs (va + BitVec.ofNat 32 j)) :
    (memsetV r.cr3 m va c n).All (r.Touched p rs) (r.Touched p rs) := by
  rw [memsetV_eq]
  exact storeBytesV_touched hr hm ht va (List.replicate n c) (by rwa [List.length_replicate])

end Exec

-- ---------------------------------------------------------------------------
-- The ranges are what the code does
-- ---------------------------------------------------------------------------

section Load

variable {r : Resources} {p : Fin PROCESS_MAX} {m : Mem} {d : Drivers} {fuel : Nat}

theorem segCopyLoop_touched (hr : r.Loading p) (hm : KernelKept r.pm.mem m) {rs : List (Addr × Nat)}
    (ht : r.Touched p rs m) {f : File FileOps} {fend vpos : Addr}
    (hrs : ∀ a, Stores (copyRanges d fend fuel f vpos).1 a → Stores rs a)
    {o : Outcome Mem (Int × File FileOps × Mem × Addr)}
    (h : segCopyLoop d r.cr3 fend fuel f m vpos = some o) :
    o.All (r.Touched p rs) fun a => r.Touched p rs a.2.2.1 ∧
      (¬ a.1 < 0 → (copyRanges d fend fuel f vpos).2 = some a.2.2.2) := by
  induction fuel generalizing f m vpos with
  | zero => cases h
  | succ fuel ih =>
    rw [segCopyLoop] at h
    rw [copyRanges] at hrs ⊢
    split at h
    · rename_i hlt
      rw [if_pos hlt] at hrs ⊢
      dsimp only at hrs ⊢
      have hkept := storeBytesV_kept r.cr3 (fileRead d.read f (vpos != 0#32) (fend - vpos)).2.1 m vpos
      have htouch := storeBytesV_touched hr hm ht vpos
        (fileRead d.read f (vpos != 0#32) (fend - vpos)).2.1 (by
          intro j hj
          apply hrs
          split <;> exact stores_cons.mpr (.inl ⟨j, hj, rfl⟩))
      dsimp only at h
      split at h <;> rename_i heq <;> rw [heq] at htouch hkept
      · split at h
        · rename_i hneg
          cases h
          exact ⟨htouch, fun hpos => absurd hneg hpos⟩
        · rename_i hpos
          simp only [if_neg hpos] at hrs ⊢
          exact ih (hm.trans hkept) htouch (fun a ha => hrs a (stores_cons.mpr (.inr ha))) h
      · cases h
        exact htouch
      · cases h
        trivial
    · rename_i hlt
      rw [if_neg hlt]
      cases h
      exact ⟨ht, fun _ => rfl⟩

/-- **Memory changes in the ranges of a segment and nowhere else.** -/
theorem elfLoadSeg32_touched (hr : r.Loading p) {f : File FileOps} {phdr : Phdr}
    {o : Outcome Mem (Int × File FileOps × Mem)}
    (h : elfLoadSeg32 d fuel r.cr3 f r.pm.mem phdr = some o) :
    o.All (r.Touched p (segRanges d fuel f phdr)) fun a =>
      r.Touched p (segRanges d fuel f phdr) a.2.2 := by
  have hnone : r.Touched p (segRanges d fuel f phdr) r.pm.mem := fun pa hpa => absurd rfl hpa
  have hm := KernelKept.refl r.pm.mem
  rw [elfLoadSeg32] at h
  dsimp only at h
  split at h
  · cases h
    exact hnone
  · rename_i hseek
    have hranges : segRanges d fuel f phdr =
        match (copyRanges d (pVaddr phdr + pFilesz phdr) fuel
          (fileLseek f (pOffset phdr) .seekSet).2 (pVaddr phdr)).2 with
        | none => (copyRanges d (pVaddr phdr + pFilesz phdr) fuel
            (fileLseek f (pOffset phdr) .seekSet).2 (pVaddr phdr)).1
        | some vpos => (copyRanges d (pVaddr phdr + pFilesz phdr) fuel
            (fileLseek f (pOffset phdr) .seekSet).2 (pVaddr phdr)).1 ++
              [(vpos, (pVaddr phdr + pMemsz phdr - vpos).toNat)] := by
      rw [segRanges]
      dsimp only
      rw [if_neg hseek]
    have hcopy : ∀ a, Stores (copyRanges d (pVaddr phdr + pFilesz phdr) fuel
        (fileLseek f (pOffset phdr) .seekSet).2 (pVaddr phdr)).1 a →
          Stores (segRanges d fuel f phdr) a := by
      intro a ha
      rw [hranges]
      split
      · exact ha
      · exact stores_append.mpr (.inl ha)
    split at h
    · cases h
    · rename_i hloop
      cases h
      exact segCopyLoop_touched hr hm hnone hcopy hloop
    · cases h
      trivial
    · rename_i res f' m' vpos hloop
      obtain ⟨htouch, hend⟩ := segCopyLoop_touched hr hm hnone hcopy hloop
      have hkept : KernelKept r.pm.mem m' := (segCopyLoop_spec hloop).2
      dsimp only at htouch hend
      split at h
      · cases h
        exact htouch
      · rename_i hpos
        have hset := memsetV_touched hr hkept htouch vpos 0#8
          (pVaddr phdr + pMemsz phdr - vpos).toNat (by
            intro j hj
            rw [hranges, hend hpos]
            exact stores_append.mpr (.inr (stores_cons.mpr (.inl ⟨j, hj, rfl⟩))))
        split at h <;> rename_i heq <;> rw [heq] at hset
        · cases h
          exact hset
        · cases h
          exact hset
        · cases h
          trivial

/-- A file that is open in the archive is open at every position. -/
theorem CpioOpen.seek {f : File FileOps} {i : Nat} {data : List Byte} (h : CpioOpen d f i data)
    (pos : BitVec 32) : CpioOpen d (f.seek pos) i data :=
  ⟨h.op, h.slot, h.archive, h.ne_nil⟩

/-- No read of it fails. -/
theorem CpioOpen.fileRead_any {f : File FileOps} {i : Nat} {data : List Byte}
    (h : CpioOpen d f i data) (dst : Bool) (count : BitVec 32) :
    ∃ bs pos, Munix.fileRead d.read f dst count = ((bs.length : Int), bs, f.seek pos) := by
  have hseek : f.seek f.fPos = f := rfl
  cases dst with
  | false => exact ⟨[], f.fPos, by rw [hseek]; simp [Munix.fileRead, h.op]⟩
  | true =>
    by_cases hcount : count = 0#32
    · exact ⟨[], f.fPos, by rw [hseek]; simp [Munix.fileRead, h.op, hcount]⟩
    · exact ⟨_, _, h.fileRead hcount⟩

theorem segCopyLoop_res {i : Nat} {data : List Byte} {f : File FileOps} (hf : CpioOpen d f i data)
    {cr3 : Pme} {fend vpos : Addr} {a : Int × File FileOps × Mem × Addr}
    (h : segCopyLoop d cr3 fend fuel f m vpos = some (.ok a)) : a.1 = 0 := by
  induction fuel generalizing f m vpos with
  | zero => cases h
  | succ fuel ih =>
    rw [segCopyLoop] at h
    split at h
    · obtain ⟨bs, pos, hread⟩ := hf.fileRead_any (vpos != 0#32) (fend - vpos)
      simp only [hread, if_neg (show ¬ (bs.length : Int) < 0 by omega)] at h
      split at h
      · exact ih (hf.seek pos) h
      · cases h
      · cases h
    · cases h
      rfl

/-- An open file can be positioned. -/
theorem CpioOpen.lseek {f : File FileOps} {i : Nat} {data : List Byte} (h : CpioOpen d f i data)
    (off : BitVec 32) : fileLseek f off .seekSet = (0, f.seek off) := by
  simp [fileLseek, h.op, File.seek]

theorem segRanges_eq {i : Nat} {data : List Byte} {f : File FileOps} (hf : CpioOpen d f i data)
    (phdr : Phdr) :
    segRanges d fuel f phdr =
      match (copyRanges d (pVaddr phdr + pFilesz phdr) fuel (f.seek (pOffset phdr))
        (pVaddr phdr)).2 with
      | none => (copyRanges d (pVaddr phdr + pFilesz phdr) fuel (f.seek (pOffset phdr))
          (pVaddr phdr)).1
      | some vpos => (copyRanges d (pVaddr phdr + pFilesz phdr) fuel (f.seek (pOffset phdr))
          (pVaddr phdr)).1 ++ [(vpos, (pVaddr phdr + pMemsz phdr - vpos).toNat)] := by
  rw [segRanges, hf.lseek]
  rfl

theorem elfLoadSeg32_res {i : Nat} {data : List Byte} {f : File FileOps} (hf : CpioOpen d f i data)
    {cr3 : Pme} {phdr : Phdr} {a : Int × File FileOps × Mem}
    (h : elfLoadSeg32 d fuel cr3 f m phdr = some (.ok a)) : a.1 = 0 := by
  rw [elfLoadSeg32, hf.lseek] at h
  dsimp only at h
  rw [if_neg (Int.lt_irrefl 0)] at h
  split at h
  · cases h
  · cases h
  · cases h
  · rename_i hloop
    have hres := segCopyLoop_res (hf.seek (pOffset phdr)) hloop
    dsimp only at hres
    rw [if_neg (by omega)] at h
    split at h
    · cases h
      rfl
    · cases h
    · cases h

end Load

-- ---------------------------------------------------------------------------
-- How far the copy can get
-- ---------------------------------------------------------------------------

section Copy

variable {d : Drivers} {i : Nat} {data : List Byte} {f : File FileOps} {fend vpos : Addr}

/-- What a read leaves of the clipped count is the clipped count of the next one. -/
theorem cpioClip_step (f : File FileOps) {count : BitVec 32} {k : Nat}
    (hclip : k ≤ (cpioClip f count).toNat) (hk : k < count.toNat) :
    (cpioClip (f.seek (f.fPos + BitVec.ofNat 32 k)) (count - BitVec.ofNat 32 k)).toNat =
      (cpioClip f count).toNat - k := by
  have hklt : (BitVec.ofNat 32 k).toNat = k := by
    have := count.isLt
    rw [BitVec.toNat_ofNat, Nat.mod_eq_of_lt (by omega)]
  have hend : f.fPos + BitVec.ofNat 32 k + (count - BitVec.ofNat 32 k) = f.fPos + count := by
    rw [BitVec.add_assoc, BitVec.add_comm (BitVec.ofNat 32 k), BitVec.sub_add_cancel]
  unfold cpioClip at *
  change (if f.fStat.fSize.slt (f.fPos + BitVec.ofNat 32 k + (count - BitVec.ofNat 32 k)) then
    f.fStat.fSize - (f.fPos + BitVec.ofNat 32 k) else count - BitVec.ofNat 32 k).toNat = _
  rw [hend]
  split
  · rename_i hlt
    rw [if_pos hlt] at hclip
    bv_omega
  · bv_omega

theorem length_cpioBytes_le (data : List Byte) (foff : BitVec 32) (f : File FileOps)
    (count : BitVec 32) : (cpioBytes data foff f count).length ≤ (cpioClip f count).toNat := by
  rw [cpioBytes, List.length_take]
  exact Nat.min_le_left _ _

/-- One turn of the loop. -/
theorem CpioOpen.copyRanges_succ (h : CpioOpen d f i data) (hlt : vpos < fend) (h0 : vpos ≠ 0#32)
    (fuel : Nat) :
    copyRanges d fend (fuel + 1) f vpos =
      (let n := (cpioBytes data (d.cfdatas i).foff f (fend - vpos)).length
       let q := copyRanges d fend fuel (f.seek (f.fPos + BitVec.ofNat 32 n)) (vpos + BitVec.ofNat 32 n)
       ((vpos, n) :: q.1, q.2)) := by
  have hcount : fend - vpos ≠ 0#32 := by bv_omega
  have hdst : (vpos != 0#32) = true := by simpa using h0
  rw [copyRanges, if_pos hlt, hdst, h.fileRead hcount]
  dsimp only
  rw [if_neg (by omega), BitVec.ofInt_natCast]
  rfl

/-- Nothing is ever stored through a NULL pointer: the loop turns for ever. -/
theorem CpioOpen.copyRanges_null (h : CpioOpen d f i data) (hfend : 0#32 < fend) (fuel : Nat) :
    (∀ q ∈ (copyRanges d fend fuel f 0#32).1, q.2 = 0) ∧ (copyRanges d fend fuel f 0#32).2 = none := by
  induction fuel with
  | zero => exact ⟨nofun, rfl⟩
  | succ fuel ih =>
    have hread : Munix.fileRead d.read f (0#32 != 0#32) (fend - 0#32) = (0, [], f) := by
      simp [Munix.fileRead, h.op]
    rw [copyRanges, if_pos hfend, hread]
    simp only [Int.lt_irrefl, if_false, List.length_nil, List.mem_cons, forall_eq_or_imp, true_and]
    exact ih

/-- **What the reads of the loop store** stays below `lim` if the first count
that the archive is asked for does. -/
theorem CpioOpen.copyRanges_inside (h : CpioOpen d f i data) {lim : Nat} (hlim : lim ≤ 2 ^ 32)
    (hpos : vpos.toNat ≤ lim)
    (hclip : vpos ≠ 0#32 → vpos < fend → vpos.toNat + (cpioClip f (fend - vpos)).toNat ≤ lim)
    (fuel : Nat) :
    (∀ q ∈ (copyRanges d fend fuel f vpos).1,
      q.2 = 0 ∨ vpos.toNat ≤ q.1.toNat ∧ q.1.toNat + q.2 ≤ lim) ∧
    ∀ e, (copyRanges d fend fuel f vpos).2 = some e → vpos.toNat ≤ e.toNat ∧ e.toNat ≤ lim := by
  induction fuel generalizing f vpos with
  | zero => exact ⟨nofun, nofun⟩
  | succ fuel ih =>
    by_cases hlt : vpos < fend
    · by_cases h0 : vpos = 0#32
      · subst h0
        obtain ⟨hranges, hend⟩ := h.copyRanges_null hlt (fuel + 1)
        exact ⟨fun q hq => .inl (hranges q hq), fun e he => absurd (hend.symm.trans he) (by simp)⟩
      · have hclip := hclip h0 hlt
        have hle := length_cpioBytes_le data (d.cfdatas i).foff f (fend - vpos)
        rw [h.copyRanges_succ hlt h0]
        dsimp only
        generalize (cpioBytes data (d.cfdatas i).foff f (fend - vpos)).length = n at *
        have hv := vpos.isLt
        by_cases hwrap : vpos.toNat + n = 2 ^ 32
        · -- the last byte of memory has been written, and `vpos` is NULL now
          have hnull : vpos + BitVec.ofNat 32 n = 0#32 := by bv_omega
          rw [hnull]
          obtain ⟨hranges, hend⟩ := (h.seek (f.fPos + BitVec.ofNat 32 n)).copyRanges_null
            (show 0#32 < fend by bv_omega) fuel
          refine ⟨fun q hq => ?_, fun e he => absurd (hend.symm.trans he) (by simp)⟩
          rcases List.mem_cons.mp hq with rfl | hq
          · exact .inr ⟨Nat.le_refl _, by dsimp only; omega⟩
          · exact .inl (hranges q hq)
        · have hnext : (vpos + BitVec.ofNat 32 n).toNat = vpos.toNat + n := by
            rw [BitVec.toNat_add, BitVec.toNat_ofNat]
            omega
          obtain ⟨hranges, hend⟩ := ih (h.seek (f.fPos + BitVec.ofNat 32 n))
            (show (vpos + BitVec.ofNat 32 n).toNat ≤ lim by omega) (by
              intro _ hlt'
              have hn : n < (fend - vpos).toNat := by bv_omega
              have hcount : fend - (vpos + BitVec.ofNat 32 n) = fend - vpos - BitVec.ofNat 32 n := by
                bv_omega
              rw [hcount, cpioClip_step f hle hn, hnext]
              omega)
          refine ⟨fun q hq => ?_, fun e he => ?_⟩
          · rcases List.mem_cons.mp hq with rfl | hq
            · exact .inr ⟨Nat.le_refl _, by dsimp only; omega⟩
            · have := hranges q hq
              omega
          · have := hend e he
            omega
    · rw [copyRanges, if_neg hlt]
      refine ⟨nofun, ?_⟩
      rintro e he
      obtain rfl : vpos = e := Option.some.inj he
      exact ⟨Nat.le_refl _, hpos⟩

end Copy

-- ---------------------------------------------------------------------------
-- Segments that fit
-- ---------------------------------------------------------------------------

/-- The address is in the memory range of the segment, which does not wrap
around. -/
def InSegment (phdr : Phdr) (a : Addr) : Prop :=
  (pVaddr phdr).toNat + (pMemsz phdr).toNat ≤ 2 ^ 32 ∧ (pVaddr phdr).toNat ≤ a.toNat ∧
    a.toNat < (pVaddr phdr).toNat + (pMemsz phdr).toNat

/-- What the header and the size of the file `f` promise: the memory range does
not wrap around, its pages are not all that there are, and if anything is copied,
then the count that `cpio_file_read` makes of `p_filesz` at `p_offset` is not above
`p_memsz`. -/
def SegFits (f : File FileOps) (phdr : Phdr) : Prop :=
  (pVaddr phdr).toNat + (pMemsz phdr).toNat ≤ 2 ^ 32 ∧
  ((pVaddr phdr).toNat < 4096 → (pVaddr phdr).toNat + (pMemsz phdr).toNat ≤ 2 ^ 32 - 4096) ∧
  (pVaddr phdr ≠ 0#32 → pVaddr phdr < pVaddr phdr + pFilesz phdr →
    (cpioClip (f.seek (pOffset phdr)) (pFilesz phdr)).toNat ≤ (pMemsz phdr).toNat)

instance (f : File FileOps) (phdr : Phdr) : Decidable (SegFits f phdr) :=
  inferInstanceAs (Decidable (_ ∧ _ ∧ (_ → _ → _)))

section Fits

variable {d : Drivers} {i : Nat} {data : List Byte} {f : File FileOps} {phdr : Phdr}

/-- **A count above `p_memsz` is stored.** If the archive has the bytes, then the first
read stores one of them behind the memory range. -/
theorem segRanges_outside (h : CpioOpen d f i data) (h0 : pVaddr phdr ≠ 0#32)
    (hcopy : pVaddr phdr < pVaddr phdr + pFilesz phdr)
    (hclip : (pMemsz phdr).toNat < (cpioClip (f.seek (pOffset phdr)) (pFilesz phdr)).toNat)
    (hdata : diskStart (pOffset phdr + (d.cfdatas i).foff) + (pMemsz phdr).toNat < data.length) :
    Stores (segRanges d 1 f phdr) (pVaddr phdr + pMemsz phdr) ∧
      ¬ InSegment phdr (pVaddr phdr + pMemsz phdr) := by
  have hcount : pVaddr phdr + pFilesz phdr - pVaddr phdr = pFilesz phdr := by bv_omega
  have hpos : (f.seek (pOffset phdr)).fPos = pOffset phdr := rfl
  have hread : (pMemsz phdr).toNat < (cpioBytes data (d.cfdatas i).foff (f.seek (pOffset phdr))
      (pFilesz phdr)).length := by
    rw [cpioBytes, List.length_take, List.length_drop, hpos]
    omega
  constructor
  · rw [segRanges_eq h, (h.seek (pOffset phdr)).copyRanges_succ hcopy h0 0, hcount]
    refine ⟨_, List.mem_singleton_self _, (pMemsz phdr).toNat, hread, ?_⟩
    rw [BitVec.ofNat_toNat, BitVec.setWidth_eq]
  · rintro ⟨hwrap, hlo, hhi⟩
    have := (pVaddr phdr).isLt
    rw [BitVec.toNat_add] at hlo hhi
    omega

/-- **Such a segment is stored inside its memory range.** -/
theorem SegFits.inSegment (hfit : SegFits f phdr) (h : CpioOpen d f i data) {fuel : Nat} {a : Addr}
    (ha : Stores (segRanges d fuel f phdr) a) : InSegment phdr a := by
  obtain ⟨hwrap, -, hclip⟩ := hfit
  have hm := (pMemsz phdr).isLt
  have hcount : pVaddr phdr + pFilesz phdr - pVaddr phdr = pFilesz phdr := by bv_omega
  have hclip' : pVaddr phdr ≠ 0#32 → pVaddr phdr < pVaddr phdr + pFilesz phdr →
      (pVaddr phdr).toNat + (cpioClip (f.seek (pOffset phdr))
        (pVaddr phdr + pFilesz phdr - pVaddr phdr)).toNat ≤
          (pVaddr phdr).toNat + (pMemsz phdr).toNat := by
    intro h0 hlt
    rw [hcount]
    exact Nat.add_le_add_left (hclip h0 hlt) _
  obtain ⟨hranges, hend⟩ := (h.seek (pOffset phdr)).copyRanges_inside hwrap (Nat.le_add_right _ _)
    hclip' fuel
  -- a range that is inside gives an address that is inside
  have hin : ∀ {q : Addr × Nat} {j : Nat}, j < q.2 → q.2 = 0 ∨ (pVaddr phdr).toNat ≤ q.1.toNat ∧
      q.1.toNat + q.2 ≤ (pVaddr phdr).toNat + (pMemsz phdr).toNat →
        InSegment phdr (q.1 + BitVec.ofNat 32 j) := by
    intro q j hj hq
    have hq := hq.resolve_left (by omega)
    have hq1 := q.1.isLt
    have hnat : (q.1 + BitVec.ofNat 32 j).toNat = q.1.toNat + j := by
      rw [BitVec.toNat_add, BitVec.toNat_ofNat]
      omega
    exact ⟨hwrap, by omega, by omega⟩
  rw [segRanges_eq h] at ha
  split at ha
  · obtain ⟨q, hq, j, hj, rfl⟩ := ha
    exact hin hj (hranges q hq)
  · rename_i vpos hvpos
    rcases stores_append.mp ha with ⟨q, hq, j, hj, rfl⟩ | ha
    · exact hin hj (hranges q hq)
    · obtain ⟨hlo, hhi⟩ := hend vpos hvpos
      have hv := vpos.isLt
      rcases stores_cons.mp ha with ⟨j, hj, rfl⟩ | ha
      · have hlen : (pVaddr phdr + pMemsz phdr - vpos).toNat =
            (pVaddr phdr).toNat + (pMemsz phdr).toNat - vpos.toNat := by
          rw [BitVec.toNat_sub, BitVec.toNat_add]
          omega
        rw [hlen] at hj
        exact @hin (vpos, (pVaddr phdr).toNat + (pMemsz phdr).toNat - vpos.toNat) j hj
          (.inr ⟨hlo, by dsimp only; omega⟩)
      · exact absurd ha (stores_nil a)

/-- The memory range of a segment is in the pages that are mapped for it, unless
these are all that there are. -/
theorem InSegment.inPages {a : Addr} (ha : InSegment phdr a)
    (hpages : (pVaddr phdr).toNat < 4096 → (pVaddr phdr).toNat + (pMemsz phdr).toNat ≤ 2 ^ 32 - 4096) :
    (segVaddr phdr).toNat ≤ a.toNat ∧ a.toNat < (segVaddr phdr).toNat + (segSize phdr).toNat := by
  obtain ⟨hwrap, hlo, hhi⟩ := ha
  have hv := (pVaddr phdr).isLt
  have hm := (pMemsz phdr).isLt
  have hdown : (segVaddr phdr).toNat = (pVaddr phdr).toNat / 4096 * 4096 := alignDown_toNat _
  have hup : (alignUp (pVaddr phdr + pMemsz phdr) PAGESZ).toNat =
      (pVaddr phdr + pMemsz phdr + 4095#32).toNat / 2 ^ 12 * 2 ^ 12 :=
    and_not_low_toNat (pVaddr phdr + pMemsz phdr + 4095#32) 12
  have hsum : (pVaddr phdr + pMemsz phdr + 4095#32).toNat =
      ((pVaddr phdr).toNat + (pMemsz phdr).toNat + 4095) % 2 ^ 32 := by
    rw [BitVec.toNat_add, BitVec.toNat_add]
    simp
  have hsize : (segSize phdr).toNat =
      (2 ^ 32 - (segVaddr phdr).toNat + (alignUp (pVaddr phdr + pMemsz phdr) PAGESZ).toNat) % 2 ^ 32 := by
    rw [segSize, BitVec.toNat_sub]
  omega

end Fits

-- ---------------------------------------------------------------------------
-- The segments that a load gets to
-- ---------------------------------------------------------------------------

/-- The segments that the loop of `process_load_path` loads, each with the state
that it finds. -/
def segmentLoads (fuel : Nat) (p : Fin PROCESS_MAX) (ehdr : Ehdr) (junk : Nat → Phdr) :
    Nat → Nat → Resources → List (Resources × Phdr)
  | 0, _, _ => []
  | n + 1, i, r =>
    let (res, f, phdr) := elfReadPhdr32 r.vfs.drivers (r.pcb p).execfile ehdr i (junk i)
    let r := r.setProcess p fun pr => { pr with execfile := f }
    if res < 0 then []
    else if pType phdr ≠ PT_LOAD then segmentLoads fuel p ehdr junk n (i + 1) r
    else (r, phdr) ::
      match loadSegment fuel p r phdr with
      | some (.ok (res, r)) => if res < 0 then [] else segmentLoads fuel p ehdr junk n (i + 1) r
      | _ => []

def fileLoads (fuel : Nat) (junk : StackJunk) (r : Resources) (p : Fin PROCESS_MAX)
    (cwd path : List Byte) : List (Resources × Phdr) :=
  match fileOpenPath fuel r.vfs (r.pcb p).execfile cwd path with
  | none => []
  | some ⟨res, file, vfs⟩ =>
    let r := { r.setProcess p fun pr => { pr with execfile := file } with vfs := vfs }
    if res < 0 then []
    else
      let (res, f, ehdr) := elfReadEhdr32 r.vfs.drivers file junk.ehdr
      let r := r.setProcess p fun pr => { pr with execfile := f }
      if res < 0 then []
      else
        let r := r.setProcess p fun pr => { pr with startAddr := eEntry ehdr }
        segmentLoads fuel p ehdr junk.phdr (ePhnum ehdr).toNat 0 r

/-- The segments that `process_load_path` loads. -/
def pathLoads (L : Layout) (fuel : Nat) (junk : StackJunk) (r : Resources) (p : Fin PROCESS_MAX)
    (cwd path : List Byte) : List (Resources × Phdr) :=
  match loadStart L r p with
  | none => []
  | some (res, r) => if res < 0 then [] else fileLoads fuel junk r p cwd path

/-- In the middle of a load, with the executable open in the archive. -/
structure Resources.AtSegment (r : Resources) (p : Fin PROCESS_MAX) : Prop where
  packed  : r.Packed p
  loading : r.Loading p
  opened  : ∃ i data, CpioOpen r.vfs.drivers (r.pcb p).execfile i data

section Visits

variable {L : Layout} {fuel : Nat} {p : Fin PROCESS_MAX} {r : Resources} {x : Resources × Phdr}

theorem CpioOpen.sameFile {d : Drivers} {f f' : File FileOps} {i : Nat} {data : List Byte}
    (h : CpioOpen d f i data) (hf : SameFile f f') : CpioOpen d f' i data := by
  obtain ⟨pos, rfl⟩ := hf
  exact h.seek pos

/-- Loading segments keeps what a segment needs. -/
theorem Resources.AtSegment.segment (hr : r.AtSegment p) {phdr : Phdr} {a : Int × Resources}
    (h : loadSegment fuel p r phdr = some (.ok a)) : a.2.AtSegment p := by
  obtain ⟨i, data, hopen⟩ := hr.opened
  obtain ⟨hload, hvfs, hfile, -⟩ := loadSegment_spec hr.loading h
  have hpacked := (packed_loadStable r p).segmentStable.segment ⟨hr.packed, .refl r⟩ h
  refine ⟨hpacked.1, hload, i, data, ?_⟩
  rw [hvfs]
  exact hopen.sameFile hfile

theorem Resources.AtSegment.setFile (hr : r.AtSegment p) {f : File FileOps}
    (hf : SameFile (r.pcb p).execfile f) :
    (r.setProcess p fun pr => { pr with execfile := f }).AtSegment p := by
  obtain ⟨i, data, hopen⟩ := hr.opened
  refine ⟨hr.packed.of_pm rfl, hr.loading.of_pm rfl rfl, i, data, ?_⟩
  have heq : ((r.setProcess p fun pr => { pr with execfile := f }).pcb p).execfile = f := by
    simp [Resources.setProcess]
  rw [heq]
  exact hopen.sameFile hf

/-- A segment that the loop gets to. If it cannot be loaded, then its error is
what the loop returns. -/
theorem mem_segmentLoads {ehdr : Ehdr} {junk : Nat → Phdr} {n i : Nat} (hr : r.AtSegment p)
    (hx : x ∈ segmentLoads fuel p ehdr junk n i r) :
    x.1.AtSegment p ∧ pType x.2 = PT_LOAD ∧ ∀ a, loadSegment fuel p x.1 x.2 = some (.ok a) →
      a.1 < 0 → loadSegments fuel p ehdr junk n i r = some (.ok a) := by
  induction n generalizing i r with
  | zero => cases hx
  | succ n ih =>
    have hr₁ := hr.setFile (elfReadPhdr32_sameFile r.vfs.drivers (r.pcb p).execfile ehdr i (junk i))
    rw [segmentLoads] at hx
    rw [loadSegments]
    dsimp only at hx ⊢
    split at hx
    · cases hx
    · rename_i hres
      rw [if_neg hres]
      split at hx
      · rename_i htype
        rw [if_pos htype]
        exact ih hr₁ hx
      · rename_i htype
        rw [if_neg htype]
        rcases List.mem_cons.mp hx with rfl | hx
        · refine ⟨hr₁, not_not.mp htype, fun a ha hneg => ?_⟩
          rw [ha]
          exact if_pos hneg
        · split at hx
          · rename_i hseg
            split at hx
            · cases hx
            · rename_i hpos
              obtain ⟨hx₁, htype₁, hfail⟩ := ih (hr₁.segment hseg) hx
              refine ⟨hx₁, htype₁, fun a ha hneg => ?_⟩
              rw [hseg]
              simp only [if_neg hpos]
              exact hfail a ha hneg
          · cases hx

/-- Opening a file: it is found in an archive, or the result is negative. -/
theorem fileOpenPath_open {v : Vfs} {file : File FileOps} {cwd path : List Byte} {o : Opened}
    (hdisks : ∀ rd data, v.drivers.dev.ramdisks rd = some data → data.length < 2 ^ 32)
    (h : fileOpenPath fuel v file cwd path = some o) (hres : ¬ o.res < 0) :
    ∃ i data, CpioOpen o.vfs.drivers o.file i data := by
  rw [fileOpenPath, fileOpenPathAbs] at h
  split at h
  · cases h
    exact absurd (show -ENOENT < 0 by decide) hres
  · split at h
    · cases h
    · rename_i sb _ relpath _
      rw [fileOpenSbPath] at h
      split at h
      · cases h
      · rename_i res f d hopen
        cases h
        have hle := cpioFileOpenPath_res hopen
        obtain rfl : res = 0 := Int.le_antisymm hle (Int.not_lt.mp hres)
        exact cpioFileOpenPath_open hdisks hopen

/-- The process when its executable has been opened and the ELF header read. -/
def headerRead (r : Resources) (p : Fin PROCESS_MAX) (junk : StackJunk) (o : Opened) : Resources :=
  (({ r.setProcess p fun pr => { pr with execfile := o.file } with vfs := o.vfs } : Resources).setProcess
    p fun pr => { pr with execfile := (elfReadEhdr32 o.vfs.drivers o.file junk.ehdr).2.1 }).setProcess
      p fun pr => { pr with startAddr := eEntry (elfReadEhdr32 o.vfs.drivers o.file junk.ehdr).2.2 }

theorem headerRead_atSegment (junk : StackJunk) (hpacked : r.Packed p) (hload : r.Loading p)
    (hdisks : ∀ rd data, r.vfs.drivers.dev.ramdisks rd = some data → data.length < 2 ^ 32)
    {o : Opened} (ho : fileOpenPath fuel r.vfs (r.pcb p).execfile cwd path = some o)
    (hres : ¬ o.res < 0) : (headerRead r p junk o).AtSegment p := by
  obtain ⟨i, data, hfile⟩ := fileOpenPath_open hdisks ho hres
  have hsame := elfReadEhdr32_sameFile o.vfs.drivers o.file junk.ehdr
  refine ⟨hpacked.of_pm rfl, hload.of_pm rfl rfl, i, data, ?_⟩
  simpa [headerRead, Resources.setProcess] using hfile.sameFile hsame

theorem mem_fileLoads {junk : StackJunk} {cwd path : List Byte}
    (hdisks : ∀ rd data, r.vfs.drivers.dev.ramdisks rd = some data → data.length < 2 ^ 32)
    (hpacked : r.Packed p) (hload : r.Loading p) (hx : x ∈ fileLoads fuel junk r p cwd path) :
    x.1.AtSegment p ∧ pType x.2 = PT_LOAD ∧ ∀ a, loadSegment fuel p x.1 x.2 = some (.ok a) →
      a.1 < 0 → ∃ r', loadFile fuel junk r p cwd path = some (.ok (a.1, r')) := by
  rw [fileLoads] at hx
  rw [loadFile]
  cases hopen : fileOpenPath fuel r.vfs (r.pcb p).execfile cwd path with
  | none => simp [hopen] at hx
  | some o =>
    obtain ⟨res, file, vfs⟩ := o
    rw [hopen] at hx
    dsimp only at hx ⊢
    split at hx
    · cases hx
    · rename_i hres
      rw [if_neg hres]
      split at hx
      · cases hx
      · rename_i hres'
        rw [if_neg hres']
        have hr₁ : (headerRead r p junk ⟨res, file, vfs⟩).AtSegment p :=
          headerRead_atSegment junk hpacked hload hdisks hopen hres
        obtain ⟨hx₁, htype, hfail⟩ := mem_segmentLoads hr₁ hx
        refine ⟨hx₁, htype, fun a ha hneg => ?_⟩
        have hsegs := hfail a ha hneg
        rw [headerRead] at hsegs
        rw [hsegs]
        dsimp only
        rw [if_pos hneg]
        obtain ⟨st, hrun, -⟩ := (hx₁.segment ha).packed.cleanup
        rw [loadError, Resources.onPm, hrun]
        exact ⟨_, rfl⟩

/-- **A segment that a load gets to.** If it cannot be loaded, then its error is
the result of `process_load_path`. -/
theorem mem_pathLoads {junk : StackJunk} {cwd path : List Byte}
    (hdisks : ∀ rd data, r.vfs.drivers.dev.ramdisks rd = some data → data.length < 2 ^ 32)
    (hr : r.InOrder) (hx : x ∈ pathLoads L fuel junk r p cwd path) :
    x.1.AtSegment p ∧ pType x.2 = PT_LOAD ∧ ∀ a, loadSegment fuel p x.1 x.2 = some (.ok a) →
      a.1 < 0 → ∃ r', processLoadPath L fuel junk r p cwd path = some (.ok (a.1, r')) := by
  rw [pathLoads] at hx
  rw [processLoadPath_eq]
  cases hstart : loadStart L r p with
  | none => simp [hstart] at hx
  | some a =>
    obtain ⟨res, r₁⟩ := a
    rw [hstart] at hx
    dsimp only at hx ⊢
    split at hx
    · cases hx
    · rename_i hres
      obtain ⟨hpacked, hload, -, hvfs, -⟩ := loadStart_spec hr hstart hres
      rw [if_neg hres]
      exact mem_fileLoads (by rw [hvfs]; exact hdisks) hpacked hload hx

end Visits

-- ---------------------------------------------------------------------------
-- Containment
-- ---------------------------------------------------------------------------

/-- The address is in a page that mapping the segment has mapped, with user
access. -/
def MappedFor (st : PmState) (p : Fin PROCESS_MAX) (phdr : Phdr) (a : Addr) : Prop :=
  (segVaddr phdr).toNat ≤ a.toNat ∧ a.toNat < (segVaddr phdr).toNat + (segSize phdr).toNat ∧
    ∃ pa perm, st.translate p.val a = some (pa, perm) ∧ perm.user = true

/-- Loading the segment in state `s` stores in the memory range of the segment only,
in pages that have been mapped for it; and where the header and the size of the
file do not promise that, the segment is refused, and with it the program. -/
structure SegContained (L : Layout) (fuel : Nat) (junk : StackJunk) (r : Resources)
    (p : Fin PROCESS_MAX) (cwd path : List Byte) (s : Resources) (phdr : Phdr) : Prop where
  stores  : ∀ st, addrspcMap s.pm p.val (segVaddr phdr) (segVaddr phdr) (segSize phdr)
      (segFlags phdr) = some (0, st) → ∀ k a,
        Stores (segRanges s.vfs.drivers k (s.pcb p).execfile phdr) a →
          InSegment phdr a ∧ MappedFor st p phdr a
  refused : ¬ SegFits (s.pcb p).execfile phdr → ∃ res s' r', res < 0 ∧
    loadSegment fuel p s phdr = some (.ok (res, s')) ∧
    processLoadPath L fuel junk r p cwd path = some (.ok (res, r'))

section Contained

variable {L : Layout} {fuel : Nat} {junk : StackJunk} {r : Resources} {p : Fin PROCESS_MAX}
  {cwd path : List Byte} {s : Resources} {phdr : Phdr}

theorem div_lt_of_pages {a v n : Nat} (hv : v % 4096 = 0) (hlo : v ≤ a) (hhi : a < v + n)
    (hn : n % 4096 = 0) : v / 4096 ≤ a / 4096 ∧ a / 4096 < v / 4096 + n / 4096 := by
  omega

/-- A page of the segment is mapped to itself, for the user. -/
theorem mappedFor_of_mapTo {st st' : PmState} (hmap : MapTo st st' p.val
      ((segVaddr phdr).toNat / 4096) ((segSize phdr).toNat / 4096) (segVaddr phdr) (segFlags phdr))
    {a : Addr} (hlo : (segVaddr phdr).toNat ≤ a.toNat)
    (hhi : a.toNat < (segVaddr phdr).toNat + (segSize phdr).toNat) : MappedFor st' p phdr a := by
  have hlt := a.isLt
  have hdown : (segVaddr phdr).toNat % 4096 = 0 := by
    rw [segVaddr, PAGESZ, alignDown_toNat]
    omega
  obtain ⟨h₁, h₂⟩ := div_lt_of_pages hdown hlo hhi (segSize_aligned phdr)
  refine ⟨hlo, hhi, ?_⟩
  rw [translate_eq_map_view, hmap.view _ (by omega), if_pos ⟨h₁, h₂⟩]
  exact ⟨_, _, rfl, segFlags_user phdr⟩

/-- A segment that cannot be mapped is refused. -/
theorem loadSegment_refused (hs : s.AtSegment p) (hmap : ¬ SegMappable phdr) (fuel : Nat) :
    ∃ s', loadSegment fuel p s phdr = some (.ok (-ENOMEM, s')) := by
  obtain ⟨res, st, n, hrun, -, ⟨-, hfit, -⟩ | ⟨rfl, -⟩⟩ := hs.packed.map_segment phdr
  · exact absurd hfit hmap
  · refine ⟨{ s with pm := st }, ?_⟩
    rw [loadSegment, Resources.onPm, hrun]
    rfl

/-- One that can be mapped is not. -/
theorem loadSegment_accepted (hs : s.AtSegment p) (hmap : SegMappable phdr) {a : Int × Resources}
    (h : loadSegment fuel p s phdr = some (.ok a)) : a.1 = 0 := by
  obtain ⟨res, st, n, hrun, -, ⟨rfl, -, -⟩ | ⟨-, hno⟩⟩ := hs.packed.map_segment phdr
  · obtain ⟨i, data, hopen⟩ := hs.opened
    rw [loadSegment, Resources.onPm, hrun] at h
    simp only [Option.map_some] at h
    rw [if_neg (Int.lt_irrefl 0)] at h
    split at h
    · cases h
    · cases h
    · cases h
    · rename_i hseg
      cases h
      exact elfLoadSeg32_res hopen hseg
  · exact absurd hmap hno

/-- **When loading a segment stays inside it.** For every load and every segment
that it gets to: the segment is contained, or refused, if and only if its header
and the size of the file promise so, or its pages are not below 8 MiB. -/
theorem processLoadPath_contained_iff (hr : r.Reachable L)
    (hdisks : ∀ rd data, r.vfs.drivers.dev.ramdisks rd = some data → data.length < 2 ^ 32)
    (hx : (s, phdr) ∈ pathLoads L fuel junk r p cwd path) :
    SegContained L fuel junk r p cwd path s phdr ↔
      SegFits (s.pcb p).execfile phdr ∨ ¬ SegMappable phdr := by
  obtain ⟨hs, -, hfail⟩ := mem_pathLoads hdisks hr.inOrder hx
  obtain ⟨i, data, hopen⟩ := hs.opened
  constructor
  · intro h
    by_contra hno
    push Not at hno
    obtain ⟨res, s', r', hneg, hseg, -⟩ := h.refused hno.1
    have := loadSegment_accepted hs hno.2 hseg
    dsimp only at this
    omega
  · intro hcond
    by_cases hmap : SegMappable phdr
    · have hfit := hcond.resolve_right (not_not.mpr hmap)
      refine ⟨fun st hrun k a ha => ?_, fun hno => absurd hfit hno⟩
      have hin := hfit.inSegment hopen ha
      refine ⟨hin, ?_⟩
      obtain ⟨res, st', n, hrun', hto, ⟨-, -, rfl⟩ | ⟨-, hno⟩⟩ := hs.packed.map_segment phdr
      · obtain ⟨-, rfl⟩ := Prod.mk.inj (Option.some.inj (hrun.symm.trans hrun'))
        obtain ⟨hlo, hhi⟩ := hin.inPages hfit.2.1
        exact mappedFor_of_mapTo hto hlo hhi
      · exact absurd hmap hno
    · obtain ⟨s', hseg⟩ := loadSegment_refused hs hmap fuel
      obtain ⟨r', hload⟩ := hfail _ hseg (show -ENOMEM < 0 by decide)
      refine ⟨fun st hrun => ?_, fun _ => ⟨-ENOMEM, s', r', by decide, hseg, hload⟩⟩
      obtain ⟨res, st', n, hrun', -, ⟨-, hfit, -⟩ | ⟨rfl, -⟩⟩ := hs.packed.map_segment phdr
      · exact absurd hfit hmap
      · have := (Prod.mk.inj (Option.some.inj (hrun.symm.trans hrun'))).1
        simp [ENOMEM] at this

end Contained

-- ---------------------------------------------------------------------------
-- Programs with one segment
-- ---------------------------------------------------------------------------

/-- An executable with one segment at `vaddr`, of the given sizes, which begins at
the begin of the file. -/
def segFile (vaddr filesz memsz : BitVec 32) : List Byte :=
  (elfFile ELFCLASS32 vaddr).take 68 ++ word filesz ++ word memsz ++ (elfFile ELFCLASS32 vaddr).drop 76

theorem length_segFile (vaddr filesz memsz : BitVec 32) : (segFile vaddr filesz memsz).length = 84 := rfl

def segEntry (vaddr filesz memsz : BitVec 32) : Record :=
  { elfEntry ELFCLASS32 vaddr with
    data := segFile vaddr filesz memsz
    filesize := by
      rw [length_segFile]
      exact (elfEntry ELFCLASS32 vaddr).filesize
    dataPad_length := by
      rw [length_segFile]
      exact (elfEntry ELFCLASS32 vaddr).dataPad_length }

def segArchive (vaddr filesz memsz : BitVec 32) : Archive where
  entries := [segEntry vaddr filesz memsz]
  trailer := helloTrailer
  rest := []
  entries_name := by
    intro r hr
    obtain rfl := List.mem_singleton.mp hr
    change bytes "bin/prog" ≠ _
    decide
  trailer_name := helloArchive.trailer_name
  trailer_data := helloArchive.trailer_data
  size_lt := by
    rw [List.flatMap_singleton, List.append_nil, List.length_append, Record.length_encode,
      Record.length_front, Record.length_encode, Record.length_front]
    simp only [segEntry, elfEntry, length_segFile]
    decide

/-- The file is an executable with one segment. -/
def OneSegment (vaddr filesz memsz : BitVec 32) (o : Opened) : Prop :=
  let e := elfReadEhdr32 o.vfs.drivers o.file zeroJunk.ehdr
  let ph := elfReadPhdr32 o.vfs.drivers e.2.1 e.2.2 0 (zeroJunk.phdr 0)
  o.res = 0 ∧ e.1 = 0 ∧ ePhnum e.2.2 = 1#16 ∧ ph.1 = 0 ∧ pType ph.2.2 = PT_LOAD ∧
    pOffset ph.2.2 = 0#32 ∧ pVaddr ph.2.2 = vaddr ∧ pFilesz ph.2.2 = filesz ∧ pMemsz ph.2.2 = memsz

instance (vaddr filesz memsz : BitVec 32) (o : Opened) : Decidable (OneSegment vaddr filesz memsz o) :=
  inferInstanceAs (Decidable (_ ∧ _))

/-- The first header, if it is that of a segment. -/
theorem segmentLoads_first {fuel : Nat} {p : Fin PROCESS_MAX} {ehdr : Ehdr} {junk : Nat → Phdr}
    {n i : Nat} {r : Resources} {ph : Int × File FileOps × Phdr}
    (hph : elfReadPhdr32 r.vfs.drivers (r.pcb p).execfile ehdr i (junk i) = ph) (hres : ph.1 = 0)
    (htype : pType ph.2.2 = PT_LOAD) :
    (r.setProcess p fun pr => { pr with execfile := ph.2.1 }, ph.2.2) ∈
      segmentLoads fuel p ehdr junk (n + 1) i r := by
  rw [segmentLoads, hph]
  dsimp only
  rw [if_neg (by omega), if_neg (not_not.mpr htype)]
  exact List.mem_cons_self

/-- Loading it gets to the segment. -/
theorem OneSegment.visit {vaddr filesz memsz : BitVec 32} {o : Opened}
    (hseg : OneSegment vaddr filesz memsz o) {fuel : Nat} {r : Resources} {p : Fin PROCESS_MAX}
    {cwd path : List Byte} (ho : fileOpenPath fuel r.vfs (r.pcb p).execfile cwd path = some o) :
    ∃ s phdr, (s, phdr) ∈ fileLoads fuel zeroJunk r p cwd path ∧
      s.vfs.drivers = o.vfs.drivers ∧ SameFile o.file (s.pcb p).execfile ∧
      pOffset phdr = 0#32 ∧ pVaddr phdr = vaddr ∧ pFilesz phdr = filesz ∧ pMemsz phdr = memsz := by
  obtain ⟨hres, hehdr, hnum, hphdr, htype, hoff, hv, hf, hm⟩ := hseg
  set e := elfReadEhdr32 o.vfs.drivers o.file zeroJunk.ehdr with he
  set ph := elfReadPhdr32 o.vfs.drivers e.2.1 e.2.2 0 (zeroJunk.phdr 0) with hph
  have hsame : SameFile o.file ph.2.1 :=
    (elfReadEhdr32_sameFile o.vfs.drivers o.file zeroJunk.ehdr).trans
      (elfReadPhdr32_sameFile o.vfs.drivers e.2.1 e.2.2 0 (zeroJunk.phdr 0))
  set r₁ : Resources := (({ r.setProcess p fun pr => { pr with execfile := o.file } with
      vfs := o.vfs } : Resources).setProcess p fun pr => { pr with execfile := e.2.1 }).setProcess p
        fun pr => { pr with startAddr := eEntry e.2.2 } with hr₁
  have hread : elfReadPhdr32 r₁.vfs.drivers (r₁.pcb p).execfile e.2.2 0 (zeroJunk.phdr 0) = ph := by
    simp [hr₁, Resources.setProcess, hph]
  refine ⟨r₁.setProcess p fun pr => { pr with execfile := ph.2.1 }, ph.2.2, ?_, rfl, ?_, hoff, hv, hf,
    hm⟩
  · rw [fileLoads, ho]
    dsimp only
    rw [if_neg (by omega), ← he, if_neg (by omega), hnum]
    exact segmentLoads_first (n := 0) (i := 0) hread hphdr htype
  · simpa [Resources.setProcess] using hsame

theorem exists_visit {vaddr filesz memsz : BitVec 32} {o : Opened}
    (ho : fileOpenPath 4 (rootVfs (segArchive vaddr filesz memsz)) (File.zero FileOps) (bytes "/bin")
      (bytes "prog") = some o) (hseg : OneSegment vaddr filesz memsz o) (L : Layout)
    (p : Fin PROCESS_MAX) :
    ∃ r s phdr, r.Booted ∧ r.vfs = rootVfs (segArchive vaddr filesz memsz) ∧
      (s, phdr) ∈ pathLoads L 4 zeroJunk r p (bytes "/bin") (bytes "prog") ∧
      s.vfs.drivers = o.vfs.drivers ∧ SameFile o.file (s.pcb p).execfile ∧
      pOffset phdr = 0#32 ∧ pVaddr phdr = vaddr ∧ pFilesz phdr = filesz ∧ pMemsz phdr = memsz := by
  obtain ⟨r, hboot, hvfs, hused⟩ := exists_booted (rootVfs (segArchive vaddr filesz memsz))
  have hroom : r.pm.used.card + 3 ≤ PHYSPAGES_MAX := Nat.add_le_add_right hused 3
  obtain ⟨r₁, hstart, -⟩ := loadStart_room (L := L) (p := p) hboot.inOrder hroom
  obtain ⟨-, -, -, hvfs₁, hfile₁⟩ := loadStart_spec hboot.inOrder hstart (by decide)
  rw [← hvfs, ← hvfs₁, ← hfile₁] at ho
  obtain ⟨s, phdr, hmem, hrest⟩ := hseg.visit ho
  refine ⟨r, s, phdr, hboot, hvfs, ?_, hrest⟩
  rw [pathLoads, hstart]
  exact hmem

/-- A program with a segment of 84 bytes, all of them in the file. -/
theorem opens_fitting :
    (fileOpenPath 4 (rootVfs (segArchive 0x400000#32 84#32 84#32)) (File.zero FileOps) (bytes "/bin")
      (bytes "prog")).any (fun o => OneSegment 0x400000#32 84#32 84#32 o ∧
        o.file.fStat.fSize = 84#32) = true := by
  decide +kernel

theorem processLoadPath_contained_iff_fitting :
    ∃ r s phdr, r.Reachable exampleLayout ∧
      (s, phdr) ∈ pathLoads exampleLayout 4 zeroJunk r ⟨0, by decide⟩ (bytes "/bin") (bytes "prog") ∧
      pFilesz phdr = 84#32 ∧ SegContained exampleLayout 4 zeroJunk r ⟨0, by decide⟩ (bytes "/bin")
        (bytes "prog") s phdr := by
  obtain ⟨o, ho, hprop⟩ := (Option.any_eq_true _ _).mp opens_fitting
  obtain ⟨hseg, hsize⟩ := of_decide_eq_true hprop
  obtain ⟨r, s, phdr, hboot, hvfs, hmem, -, ⟨pos, hsame⟩, hoff, hv, hf, hm⟩ :=
    exists_visit ho hseg exampleLayout ⟨0, by decide⟩
  have hdisks : ∀ rd data, r.vfs.drivers.dev.ramdisks rd = some data → data.length < 2 ^ 32 := by
    rw [hvfs]
    exact Archive.drivers_small _
  refine ⟨r, s, phdr, .boot hboot, hmem, hf, ?_⟩
  refine (processLoadPath_contained_iff (.boot hboot) hdisks hmem).mpr (.inl ?_)
  rw [SegFits, hv, hf, hm, hsame, hoff, cpioClip]
  simp only [File.seek, hsize]
  decide

/-- A program whose segment has two bytes in the file and one in memory. -/
theorem opens_long :
    (fileOpenPath 4 (rootVfs (segArchive 0x400001#32 2#32 1#32)) (File.zero FileOps) (bytes "/bin")
      (bytes "prog")).any (fun o => OneSegment 0x400001#32 2#32 1#32 o ∧
        (0x400001#32, 2) ∈ (copyRanges o.vfs.drivers 0x400003#32 1 (o.file.seek 0#32) 0x400001#32).1) =
      true := by
  decide +kernel

/-- Its second byte is stored behind the memory range of the segment. -/
theorem processLoadPath_stores_outside :
    ∃ r s phdr, r.Reachable exampleLayout ∧
      (s, phdr) ∈ pathLoads exampleLayout 4 zeroJunk r ⟨0, by decide⟩ (bytes "/bin") (bytes "prog") ∧
      Stores (segRanges s.vfs.drivers 1 (s.pcb ⟨0, by decide⟩).execfile phdr) 0x400002#32 ∧
      ¬ InSegment phdr 0x400002#32 ∧
      ¬ SegContained exampleLayout 4 zeroJunk r ⟨0, by decide⟩ (bytes "/bin") (bytes "prog") s phdr := by
  obtain ⟨o, ho, hprop⟩ := (Option.any_eq_true _ _).mp opens_long
  obtain ⟨hseg, hrange⟩ := of_decide_eq_true hprop
  obtain ⟨r, s, phdr, hboot, hvfs, hmem, hdrv, ⟨pos, hsame⟩, hoff, hv, hf, hm⟩ :=
    exists_visit ho hseg exampleLayout ⟨0, by decide⟩
  have hdisks : ∀ rd data, r.vfs.drivers.dev.ramdisks rd = some data → data.length < 2 ^ 32 := by
    rw [hvfs]
    exact Archive.drivers_small _
  obtain ⟨hs, -, -⟩ := mem_pathLoads hdisks hboot.inOrder hmem
  obtain ⟨i, data, hopen⟩ := hs.opened
  have hlt : pVaddr phdr < pVaddr phdr + pFilesz phdr := by
    rw [hv, hf]
    decide
  have h0 : pVaddr phdr ≠ 0#32 := by
    rw [hv]
    decide
  -- the first read gets both bytes
  have hread : (cpioBytes data (s.vfs.drivers.cfdatas i).foff
      ((s.pcb ⟨0, by decide⟩).execfile.seek (pOffset phdr)) 2#32).length = 2 := by
    have hsucc := (hopen.seek (pOffset phdr)).copyRanges_succ hlt h0 0
    rw [hdrv, hsame, hoff, hv, hf] at hsucc
    have hmem := congrArg Prod.fst hsucc ▸ hrange
    rw [hdrv, hsame, hoff]
    exact (congrArg Prod.snd (List.mem_singleton.mp hmem)).symm
  have hpos : ((s.pcb ⟨0, by decide⟩).execfile.seek (pOffset phdr)).fPos = pOffset phdr := rfl
  rw [cpioBytes, List.length_take, List.length_drop, hpos] at hread
  have hone : (1#32).toNat = 1 := rfl
  obtain ⟨hstores, hout⟩ := segRanges_outside hopen h0 hlt (by dsimp only; rw [hf, hm]; omega)
    (by dsimp only; rw [hm]; omega)
  rw [hv, hm] at hstores hout
  have hmap : SegMappable phdr := by
    rw [SegMappable, segSize, segVaddr, hv, hm]
    decide
  refine ⟨r, s, phdr, .boot hboot, hmem, hstores, hout, fun h => ?_⟩
  obtain ⟨res, st, n, hrun, -, ⟨rfl, -⟩ | ⟨-, hno⟩⟩ := hs.packed.map_segment phdr
  · exact hout (h.stores st hrun 1 _ hstores).1
  · exact hno hmap

end Munix
