import Munix.Drivers.CpioRead
import Munix.Kernel.SegmentStores

/-!
# Munix — the image of a segment

`elf_load_seg32` on a flat memory, where no store fails, and on any file whose reads
come in positive chunks. The files of an archive are such files, and a page map that
translates the segment to memory of its own makes the flat memory out of the physical
one.

* `elfLoadSeg32_image_iff` — when the segment's image is in memory afterwards.
* `elfLoadSeg32_simulates` — the loader through such a page map does what the flat one
  does, so that a process sees the image of its segment (`OpenFile.elfLoadSeg32`).
-/

namespace Munix

open ByteMem

-- ---------------------------------------------------------------------------
-- The loader on a flat memory
-- ---------------------------------------------------------------------------

/-- Store bytes at `va` and up. -/
def storeBytes (m : Mem) (va : Addr) : List Byte → Mem
  | [] => m
  | b :: bs => storeBytes (store8 m va b) (va + 1#32) bs

theorem storeBytes_eq (m : Mem) (va : Addr) {bs : List Byte} (h : bs.length ≤ 2 ^ 32) :
    storeBytes m va bs = memPut m va bs := by
  induction bs generalizing m va with
  | nil => rfl
  | cons b bs ih =>
    rw [List.length_cons] at h
    rw [storeBytes, ih _ _ (by omega), memPut_cons _ _ _ (by omega)]

section Flat

variable {Ops : Type} (read : Ops → File Ops → BitVec 32 → BitVec 32 → ReadResult)

/-- The copy loop of `elf_load_seg32`. -/
def segCopyFlat (fend : Addr) : Nat → File Ops → Mem → Addr → Option (Int × File Ops × Mem × Addr)
  | 0, _, _, _ => none
  | fuel + 1, f, m, vpos =>
    if vpos < fend then
      let (res, bs, f) := fileRead read f (vpos != 0#32) (fend - vpos)
      let m := storeBytes m vpos bs
      if res < 0 then some (res, f, m, vpos)
      else segCopyFlat fend fuel f m (vpos + BitVec.ofInt 32 res)
    else some (0, f, m, vpos)

/-- `elf_load_seg32(f, phdr)`. -/
def elfLoadSeg32Flat (fuel : Nat) (f : File Ops) (m : Mem) (phdr : Phdr) :
    Option (Int × File Ops × Mem) :=
  let (res, f) := fileLseek f (pOffset phdr) .seekSet
  if res < 0 then some (res, f, m)
  else
    let vaddr := pVaddr phdr
    let fend := vaddr + pFilesz phdr
    let mend := vaddr + pMemsz phdr
    (segCopyFlat read fend fuel f m vaddr).map fun (res, f, m, vpos) =>
      if res < 0 then (res, f, m) else (0, f, memset m vpos 0#8 (mend - vpos).toNat)

end Flat

-- ---------------------------------------------------------------------------
-- Files that are read in chunks
-- ---------------------------------------------------------------------------

/-- A read of bytes that the file has, at any position of the same open file, returns
some of them and moves on behind them. -/
def Chunked {Ops : Type} (read : Ops → File Ops → BitVec 32 → BitVec 32 → ReadResult) (f : File Ops)
    (data : List Byte) : Prop :=
  ∃ op, f.fOp = some op ∧ ∀ f', SameFile f f' → ∀ count : BitVec 32, 0 < count.toNat →
    f'.fPos.toNat + count.toNat ≤ data.length → ∃ k, 1 ≤ k ∧ k ≤ count.toNat ∧
      read op f' count f'.fPos =
        ⟨(k : Int), (data.drop f'.fPos.toNat).take k, f'.fPos + BitVec.ofNat 32 k⟩

/-- A ramdisk is read in chunks, each as long as it is asked for. -/
theorem DiskFile.chunked {dev : Devices} {data : List Byte} {f : File DevOps} (h : DiskFile dev data f) :
    Chunked dev.read f data := by
  refine ⟨.ramdisk, h.op, fun f' hsame count hpos hfit => ⟨count.toNat, hpos, le_rfl, ?_⟩⟩
  obtain ⟨pos, rfl⟩ := hsame
  have hlen : ((data.drop pos.toNat).take count.toNat).length = count.toNat := by
    dsimp only at hfit
    rw [List.length_take, List.length_drop]
    omega
  have hdisk : DiskFile dev data { f with fPos := pos } := ⟨h.op, h.disk, h.size, h.lt⟩
  have hread := hdisk.read (show pos.toNat ≤ data.length by dsimp only at hfit; omega) count
  rw [BitVec.ofNat_toNat, BitVec.setWidth_eq] at hread
  dsimp only at hfit ⊢
  rw [hread, hlen, Nat.min_eq_left (by omega), BitVec.ofNat_add, BitVec.ofNat_toNat,
    BitVec.setWidth_eq]

/-- A file of an archive is read in chunks, each as long as it is asked for. -/
theorem OpenFile.chunked {d : Drivers} {content : List Byte} {f : File FileOps} {pos : Nat}
    (h : OpenFile d content f pos) : Chunked d.read f content := by
  refine ⟨.cpioFile, h.op, fun f' hsame count hpos hfit => ⟨count.toNat, hpos, le_rfl, ?_⟩⟩
  obtain ⟨pos', rfl⟩ := hsame
  obtain ⟨i, pre, post, -, -, -, hlt⟩ := id h.archive
  rw [List.length_append, List.length_append] at hlt
  have hopen : OpenFile d content { f with fPos := pos' } pos'.toNat :=
    ⟨h.op, h.size, by simp, by dsimp only at hfit; omega, h.archive⟩
  have hlen : ((content.drop pos'.toNat).take count.toNat).length = count.toNat := by
    dsimp only at hfit
    rw [List.length_take, List.length_drop]
    omega
  rw [hopen.read (by dsimp only at hfit; omega), hlen, BitVec.ofNat_add, BitVec.ofNat_toNat,
    BitVec.setWidth_eq]

section Chunks

variable {Ops : Type} {read : Ops → File Ops → BitVec 32 → BitVec 32 → ReadResult} {f : File Ops}
  {data : List Byte}

theorem Chunked.fileRead (h : Chunked read f data) {f' : File Ops} (hsame : SameFile f f')
    {count : BitVec 32} (hcount : 0 < count.toNat) (hfit : f'.fPos.toNat + count.toNat ≤ data.length) :
    ∃ k, 1 ≤ k ∧ k ≤ count.toNat ∧ Munix.fileRead read f' true count =
      ((k : Int), (data.drop f'.fPos.toNat).take k, f'.at (f'.fPos.toNat + k)) := by
  obtain ⟨op, hop, hread⟩ := h
  obtain ⟨k, hk, hle, hres⟩ := hread f' hsame count hcount hfit
  have hop' : f'.fOp = some op := by
    obtain ⟨pos, rfl⟩ := hsame
    exact hop
  refine ⟨k, hk, hle, ?_⟩
  rw [fileRead_of_op hop' (by bv_omega), hres, File.at, BitVec.ofNat_add, BitVec.ofNat_toNat,
    BitVec.setWidth_eq]

/-- **The copy loop**: after any number of chunks the bytes read so far are in memory, and
the cursor and the position of the file stand behind them. -/
theorem Chunked.segCopy (h : Chunked read f data) {off n : Nat} (hfit : off + n ≤ data.length)
    (hdata : data.length < 2 ^ 31) {vaddr : Addr} (h0 : vaddr ≠ 0#32) (hend : vaddr.toNat + n < 2 ^ 32)
    (m : Mem) {fuel done : Nat} (hdone : done ≤ n) (hfuel : n - done < fuel) :
    segCopyFlat read (vaddr + BitVec.ofNat 32 n) fuel (f.at (off + done))
        (memPut m vaddr ((data.drop off).take done)) (vaddr + BitVec.ofNat 32 done) =
      some (0, f.at (off + n), memPut m vaddr ((data.drop off).take n), vaddr + BitVec.ofNat 32 n) := by
  induction fuel generalizing done with
  | zero => omega
  | succ fuel ih =>
    have hn : (vaddr + BitVec.ofNat 32 n).toNat = vaddr.toNat + n := by bv_omega
    have hpos : (vaddr + BitVec.ofNat 32 done).toNat = vaddr.toNat + done := by bv_omega
    rw [segCopyFlat]
    rcases Nat.eq_or_lt_of_le hdone with rfl | hlt
    · rw [if_neg (by bv_omega)]
    · have hcount : (vaddr + BitVec.ofNat 32 n - (vaddr + BitVec.ofNat 32 done)).toNat = n - done := by
        bv_omega
      have hat : (f.at (off + done)).fPos.toNat = off + done := by
        change (BitVec.ofNat 32 (off + done)).toNat = _
        rw [BitVec.toNat_ofNat]
        omega
      have hnonnull : (vaddr + BitVec.ofNat 32 done != 0#32) = true := by
        rw [bne_iff_ne]
        bv_omega
      have hsame : SameFile f (f.at (off + done)) := ⟨_, rfl⟩
      obtain ⟨k, hk, hle, hread⟩ := h.fileRead hsame
        (by rw [hcount]; omega) (by rw [hat, hcount]; omega)
      rw [hcount] at hle
      rw [if_pos (by bv_omega), hnonnull, hread, hat]
      dsimp only
      have hlen : ((data.drop (off + done)).take k).length = k := by
        rw [List.length_take, List.length_drop]
        omega
      have hlenDone : ((data.drop off).take done).length = done := by
        rw [List.length_take, List.length_drop]
        omega
      have hmore : (data.drop off).take done ++ (data.drop (off + done)).take k =
          (data.drop off).take (done + k) := by
        rw [List.take_add, List.drop_drop]
      have hmem : storeBytes (memPut m vaddr ((data.drop off).take done)) (vaddr + BitVec.ofNat 32 done)
          ((data.drop (off + done)).take k) = memPut m vaddr ((data.drop off).take (done + k)) := by
        rw [storeBytes_eq _ _ (by omega)]
        have happend := @memPut_append m vaddr ((data.drop off).take done)
          ((data.drop (off + done)).take k) (by omega)
        rwa [hlenDone, hmore] at happend
      have hcursor : vaddr + BitVec.ofNat 32 done + BitVec.ofInt 32 (k : Int) =
          vaddr + BitVec.ofNat 32 (done + k) := by
        rw [BitVec.ofInt_natCast, BitVec.add_assoc, ← BitVec.ofNat_add]
      have hfile : (f.at (off + done)).at (off + done + k) = f.at (off + (done + k)) := by
        rw [Nat.add_assoc]
        rfl
      rw [if_neg (by omega), hmem, hcursor, hfile]
      exact ih (by omega) (by omega)

/-- A NULL destination is never read to, so that the loop does not come to its end. -/
theorem segCopyFlat_null (hop : ∃ op, f.fOp = some op) {fend : Addr} (hfend : 0#32 < fend) (m : Mem)
    (fuel : Nat) : segCopyFlat read fend fuel f m 0#32 = none := by
  obtain ⟨op, hop⟩ := hop
  induction fuel with
  | zero => rfl
  | succ fuel ih =>
    have hread : fileRead read f (0#32 != (0#32 : Addr)) (fend - 0#32) = (0, [], f) := by
      simp [Munix.fileRead, hop]
    rw [segCopyFlat, if_pos hfend, hread]
    dsimp only
    rw [if_neg (Int.lt_irrefl 0)]
    exact ih

-- ---------------------------------------------------------------------------
-- The image
-- ---------------------------------------------------------------------------

/-- The segment's image is in memory, and nothing else has changed. -/
structure HoldsImage (data : List Byte) (phdr : Phdr) (m m' : Mem) : Prop where
  file  : ∀ i < (pFilesz phdr).toNat,
    m' (pVaddr phdr + BitVec.ofNat 32 i) = data.getD ((pOffset phdr).toNat + i) 0#8
  zero  : ∀ i, (pFilesz phdr).toNat ≤ i → i < (pMemsz phdr).toNat →
    m' (pVaddr phdr + BitVec.ofNat 32 i) = 0#8
  other : ∀ a : Addr, ¬ ((pVaddr phdr).toNat ≤ a.toNat ∧
    a.toNat < (pVaddr phdr).toNat + (pMemsz phdr).toNat) → m' a = m a

/-- Loading the segment ends with result 0 and its image in memory. -/
def LoadsImage (read : Ops → File Ops → BitVec 32 → BitVec 32 → ReadResult) (f : File Ops)
    (data : List Byte) (m : Mem) (phdr : Phdr) : Prop :=
  ∃ f' m' N, (∀ fuel, N < fuel → elfLoadSeg32Flat read fuel f m phdr = some (0, f', m')) ∧
    HoldsImage data phdr m m'

/-- What bytes of a file with zeros behind them look like in memory. -/
theorem memFill_memPut_at (m : Mem) (vaddr : Addr) {bs : List Byte} {k : Nat}
    (hwrap : vaddr.toNat + (bs.length + k) ≤ 2 ^ 32) (a : Addr) :
    memFill (memPut m vaddr bs) (vaddr + BitVec.ofNat 32 bs.length) 0#8 k a =
      if vaddr.toNat ≤ a.toNat ∧ a.toNat < vaddr.toNat + (bs.length + k) then
        bs.getD (a.toNat - vaddr.toNat) 0#8
      else m a := by
  by_cases hin : vaddr.toNat ≤ a.toNat ∧ a.toNat < vaddr.toNat + (bs.length + k)
  · obtain ⟨hlo, hhi⟩ := hin
    have hidx : (a - vaddr).toNat = a.toNat - vaddr.toNat := by bv_omega
    rw [if_pos ⟨hlo, hhi⟩]
    by_cases hfile : a.toNat - vaddr.toNat < bs.length
    · rw [memFill_outside (by bv_omega), memPut, hidx, List.getD_eq_getElem _ _ hfile,
        List.getD_eq_getElem _ _ hfile]
    · rw [List.getD_eq_default _ _ (by omega)]
      exact if_pos (by bv_omega)
  · have hout : bs.length + k ≤ (a - vaddr).toNat := by bv_omega
    rw [if_neg hin, memFill_outside (by bv_omega), memPut_outside (by omega)]

/-- The file's bytes of the segment. -/
def segBytes (data : List Byte) (phdr : Phdr) : List Byte :=
  (data.drop (pOffset phdr).toNat).take (pFilesz phdr).toNat

theorem length_segBytes {phdr : Phdr}
    (hfit : (pOffset phdr).toNat + (pFilesz phdr).toNat ≤ data.length) :
    (segBytes data phdr).length = (pFilesz phdr).toNat := by
  rw [segBytes, List.length_take, List.length_drop]
  omega

theorem getD_segBytes {phdr : Phdr} {i : Nat} (hi : i < (pFilesz phdr).toNat) :
    (segBytes data phdr).getD i 0#8 = data.getD ((pOffset phdr).toNat + i) 0#8 := by
  rw [segBytes, List.getD_eq_getElem?_getD, List.getElem?_take_of_lt hi, List.getElem?_drop,
    ← List.getD_eq_getElem?_getD]

/-- The bytes of the segment with zeros behind them are its image. -/
theorem holdsImage_put {phdr : Phdr} (m : Mem) (hsz : (pFilesz phdr).toNat ≤ (pMemsz phdr).toNat)
    (hfit : (pOffset phdr).toNat + (pFilesz phdr).toNat ≤ data.length)
    (hwrap : (pVaddr phdr).toNat + (pMemsz phdr).toNat ≤ 2 ^ 32) :
    HoldsImage data phdr m (memFill (memPut m (pVaddr phdr) (segBytes data phdr))
      (pVaddr phdr + pFilesz phdr) 0#8 ((pMemsz phdr).toNat - (pFilesz phdr).toNat)) := by
  have hlen := length_segBytes hfit
  have hend : pVaddr phdr + pFilesz phdr =
      pVaddr phdr + BitVec.ofNat 32 (segBytes data phdr).length := by
    rw [hlen, BitVec.ofNat_toNat, BitVec.setWidth_eq]
  have hat := @memFill_memPut_at m (pVaddr phdr) (segBytes data phdr)
    ((pMemsz phdr).toNat - (pFilesz phdr).toNat) (by omega)
  rw [← hend, hlen, Nat.add_sub_cancel' hsz] at hat
  have haddr : ∀ i < (pMemsz phdr).toNat, (pVaddr phdr + BitVec.ofNat 32 i).toNat =
      (pVaddr phdr).toNat + i := by
    intro i hi
    bv_omega
  refine ⟨fun i hi => ?_, fun i hlo hhi => ?_, fun a ha => ?_⟩
  · rw [hat, haddr i (by omega), if_pos (by omega), Nat.add_sub_cancel_left, getD_segBytes hi]
  · rw [hat, haddr i hhi, if_pos (by omega), Nat.add_sub_cancel_left,
      List.getD_eq_default _ _ (by omega)]
  · rw [hat, if_neg ha]

/-- A segment whose bytes all go to addresses that the code can tell from NULL and from
the end of memory: the loader ends with its image. -/
theorem Chunked.elfLoadSeg32Flat (h : Chunked read f data) (hdata : data.length < 2 ^ 31) {phdr : Phdr}
    (hsz : (pFilesz phdr).toNat ≤ (pMemsz phdr).toNat)
    (hfit : (pOffset phdr).toNat + (pFilesz phdr).toNat ≤ data.length)
    (hgood : pFilesz phdr = 0#32 ∨
      pVaddr phdr ≠ 0#32 ∧ (pVaddr phdr).toNat + (pFilesz phdr).toNat < 2 ^ 32)
    (m : Mem) {fuel : Nat} (hfuel : (pFilesz phdr).toNat < fuel) :
    Munix.elfLoadSeg32Flat read fuel f m phdr =
      some (0, f.at ((pOffset phdr).toNat + (pFilesz phdr).toNat),
        memFill (memPut m (pVaddr phdr) (segBytes data phdr)) (pVaddr phdr + pFilesz phdr) 0#8
          ((pMemsz phdr).toNat - (pFilesz phdr).toNat)) := by
  obtain ⟨op, hop, -⟩ := id h
  have hseek : fileLseek f (pOffset phdr) .seekSet = (0, f.at (pOffset phdr).toNat) := by
    simp [fileLseek, hop, File.at]
  have hcopy : segCopyFlat read (pVaddr phdr + pFilesz phdr) fuel (f.at (pOffset phdr).toNat) m
      (pVaddr phdr) = some (0, f.at ((pOffset phdr).toNat + (pFilesz phdr).toNat),
        memPut m (pVaddr phdr) (segBytes data phdr), pVaddr phdr + pFilesz phdr) := by
    rcases hgood with h0 | ⟨h0, hlt⟩
    · obtain ⟨fuel, rfl⟩ := Nat.exists_eq_succ_of_ne_zero (Nat.ne_of_gt (Nat.zero_lt_of_lt hfuel))
      rw [segCopyFlat, h0, BitVec.add_zero, if_neg (BitVec.lt_irrefl _), segBytes, h0]
      rfl
    · have hrun := h.segCopy hfit hdata h0 hlt m (Nat.zero_le _) (by omega : _ - 0 < fuel)
      rwa [BitVec.ofNat_toNat, BitVec.setWidth_eq, List.take_zero, memPut_nil, BitVec.add_zero,
        Nat.add_zero] at hrun
  have hcount : (pVaddr phdr + pMemsz phdr - (pVaddr phdr + pFilesz phdr)).toNat =
      (pMemsz phdr).toNat - (pFilesz phdr).toNat := by bv_omega
  rw [Munix.elfLoadSeg32Flat, hseek]
  dsimp only
  rw [if_neg (by decide), hcopy, Option.map_some]
  dsimp only
  rw [if_neg (by decide), hcount, memset_eq_memFill _ _ _ (by omega)]

/-- A NULL destination with bytes to copy: the loader does not come to its end. -/
theorem elfLoadSeg32Flat_null (hop : ∃ op, f.fOp = some op) {phdr : Phdr} (h0 : pVaddr phdr = 0#32)
    (hpos : 0 < (pFilesz phdr).toNat) (m : Mem) (fuel : Nat) :
    elfLoadSeg32Flat read fuel f m phdr = none := by
  obtain ⟨op, hop⟩ := hop
  have hseek : fileLseek f (pOffset phdr) .seekSet = (0, f.at (pOffset phdr).toNat) := by
    simp [fileLseek, hop, File.at]
  have hop' : ∃ op, (f.at (pOffset phdr).toNat).fOp = some op := ⟨op, hop⟩
  have hcopy : segCopyFlat read (pFilesz phdr) fuel (f.at (pOffset phdr).toNat) m 0#32 = none :=
    segCopyFlat_null hop' (by bv_omega) m fuel
  rw [elfLoadSeg32Flat, hseek]
  dsimp only
  rw [if_neg (by decide)]
  simp only [h0, BitVec.zero_add, hcopy, Option.map_none]

/-- The file's bytes up to the end of memory: `fend` is 0, and the loader clears them all. -/
theorem elfLoadSeg32Flat_wrap (hop : ∃ op, f.fOp = some op) {phdr : Phdr}
    (hend : (pVaddr phdr).toNat + (pFilesz phdr).toNat = 2 ^ 32)
    (hmem : pMemsz phdr = pFilesz phdr) (m : Mem) {fuel : Nat} (hfuel : 0 < fuel) :
    elfLoadSeg32Flat read fuel f m phdr =
      some (0, f.at (pOffset phdr).toNat, memFill m (pVaddr phdr) 0#8 (pFilesz phdr).toNat) := by
  obtain ⟨op, hop⟩ := hop
  obtain ⟨fuel, rfl⟩ := Nat.exists_eq_succ_of_ne_zero (Nat.ne_of_gt hfuel)
  have hseek : fileLseek f (pOffset phdr) .seekSet = (0, f.at (pOffset phdr).toNat) := by
    simp [fileLseek, hop, File.at]
  have hfend : pVaddr phdr + pFilesz phdr = 0#32 := by bv_omega
  have hcount : (0#32 - pVaddr phdr).toNat = (pFilesz phdr).toNat := by bv_omega
  rw [elfLoadSeg32Flat, hseek]
  dsimp only
  rw [if_neg (by decide), hmem, hfend, segCopyFlat, if_neg BitVec.not_lt_zero, Option.map_some]
  dsimp only
  rw [if_neg (by decide), hcount, memset_eq_memFill _ _ _ (by omega)]

/-- **Segment loading produces the image**: for every header whose bytes are in the file
and whose range does not wrap around, and however the transfer is split, the loader
ends with the image in memory if and only if it has nothing to copy, or has a
destination that is not NULL and ends before the end of memory, or copies zeros up to it. -/
theorem elfLoadSeg32_image_iff (h : Chunked read f data) (hdata : data.length < 2 ^ 31) {phdr : Phdr}
    (hsz : (pFilesz phdr).toNat ≤ (pMemsz phdr).toNat)
    (hfit : (pOffset phdr).toNat + (pFilesz phdr).toNat ≤ data.length)
    (hwrap : (pVaddr phdr).toNat + (pMemsz phdr).toNat ≤ 2 ^ 32) (m : Mem) :
    LoadsImage read f data m phdr ↔
      pFilesz phdr = 0#32 ∨ (pVaddr phdr ≠ 0#32 ∧
        ((pVaddr phdr).toNat + (pFilesz phdr).toNat < 2 ^ 32 ∨
          ∀ i < (pFilesz phdr).toNat, data.getD ((pOffset phdr).toNat + i) 0#8 = 0#8)) := by
  have hop : ∃ op, f.fOp = some op := by
    obtain ⟨op, hop, -⟩ := h
    exact ⟨op, hop⟩
  by_cases hgood : pFilesz phdr = 0#32 ∨
      pVaddr phdr ≠ 0#32 ∧ (pVaddr phdr).toNat + (pFilesz phdr).toNat < 2 ^ 32
  · have hrun : LoadsImage read f data m phdr :=
      ⟨_, _, _, fun fuel hfuel => h.elfLoadSeg32Flat hdata hsz hfit hgood m hfuel,
        holdsImage_put m hsz hfit hwrap⟩
    exact iff_of_true hrun (hgood.imp_right fun hg => ⟨hg.1, .inl hg.2⟩)
  · obtain ⟨hne, hbad⟩ := not_or.mp hgood
    rw [or_iff_right hne]
    by_cases h0 : pVaddr phdr = 0#32
    · refine iff_of_false ?_ fun hr => hr.1 h0
      rintro ⟨f', m', N, hrun, -⟩
      have hnone := hrun (N + 1) (Nat.lt_succ_self N)
      rw [elfLoadSeg32Flat_null hop h0 (by bv_omega)] at hnone
      cases hnone
    · have hend : (pVaddr phdr).toNat + (pFilesz phdr).toNat = 2 ^ 32 := by
        have hge : ¬ (pVaddr phdr).toNat + (pFilesz phdr).toNat < 2 ^ 32 := fun hlt => hbad ⟨h0, hlt⟩
        omega
      have hmem : pMemsz phdr = pFilesz phdr := by bv_omega
      rw [and_iff_right h0, or_iff_right (by omega)]
      constructor
      · rintro ⟨f', m', N, hrun, himg⟩ i hi
        have hsome := hrun (N + 1) (Nat.lt_succ_self N)
        rw [elfLoadSeg32Flat_wrap hop hend hmem m (Nat.succ_pos N)] at hsome
        cases hsome
        rw [← himg.file i hi]
        exact if_pos (by bv_omega)
      · intro hzero
        refine ⟨_, _, 0, fun fuel hfuel => elfLoadSeg32Flat_wrap hop hend hmem m hfuel,
          fun i hi => ?_, fun i hlo hhi => ?_, fun a ha => ?_⟩
        · rw [hzero i hi]
          exact if_pos (by bv_omega)
        · rw [hmem] at hhi
          omega
        · exact memFill_outside (by bv_omega)

end Chunks

/-- The header of a segment at `vaddr` whose bytes begin the file. -/
def segHeader (vaddr filesz memsz : BitVec 32) : Phdr :=
  word PT_LOAD ++ word 0#32 ++ word vaddr ++ word vaddr ++ word filesz ++ word memsz ++ word 5#32 ++
    word PAGESZ

/-- A ramdisk of one byte, and an open file of it. -/
def byteDisk : Devices := ⟨fun _ => none, fun _ => some [7#8]⟩
def byteFile : File DevOps := ⟨⟨0#32, .unknown, 0#32, 1#32⟩, 0#32, some .ramdisk, some 0⟩

theorem byteFile_disk : DiskFile byteDisk [7#8] byteFile := ⟨rfl, rfl, rfl, by decide⟩

theorem elfLoadSeg32_image_byte :
    LoadsImage byteDisk.read byteFile [7#8] (fun _ => 1#8) (segHeader 0x2000000#32 1#32 3#32) :=
  (elfLoadSeg32_image_iff byteFile_disk.chunked (by decide) (by decide) (by decide) (by decide)
    fun _ => 1#8).mpr (.inr ⟨by decide, .inl (by decide)⟩)

/-- A segment at address 0: the loader turns for ever. -/
theorem elfLoadSeg32_null_hangs :
    Chunked byteDisk.read byteFile [7#8] ∧
      (pFilesz (segHeader 0#32 1#32 1#32)).toNat ≤ (pMemsz (segHeader 0#32 1#32 1#32)).toNat ∧
      (pOffset (segHeader 0#32 1#32 1#32)).toNat + (pFilesz (segHeader 0#32 1#32 1#32)).toNat ≤ 1 ∧
      (pVaddr (segHeader 0#32 1#32 1#32)).toNat + (pMemsz (segHeader 0#32 1#32 1#32)).toNat < 2 ^ 32 ∧
      (∀ fuel, elfLoadSeg32Flat byteDisk.read fuel byteFile (fun _ => 1#8)
        (segHeader 0#32 1#32 1#32) = none) ∧
      ¬ LoadsImage byteDisk.read byteFile [7#8] (fun _ => 1#8) (segHeader 0#32 1#32 1#32) := by
  have hnone : ∀ fuel, elfLoadSeg32Flat byteDisk.read fuel byteFile (fun _ => 1#8)
      (segHeader 0#32 1#32 1#32) = none := fun fuel =>
    elfLoadSeg32Flat_null ⟨.ramdisk, rfl⟩ (by decide) (by decide) _ fuel
  refine ⟨byteFile_disk.chunked, by decide, by decide, by decide, hnone, ?_⟩
  rintro ⟨f', m', N, hrun, -⟩
  cases (hnone (N + 1)).symm.trans (hrun (N + 1) (Nat.lt_succ_self N))

-- ---------------------------------------------------------------------------
-- Through a page map
-- ---------------------------------------------------------------------------

/-- The memory `m` of a process shows the flat memory `v` at the addresses `S`. -/
def Resources.Shows (r : Resources) (p : Fin PROCESS_MAX) (S : Addr → Prop) (m v : Mem) : Prop :=
  ∀ a pa perm, S a → r.pm.translate p.val a = some (pa, perm) → m pa = v a

/-- The addresses `S` can be written, and no two of them share memory. -/
structure Resources.Owns (r : Resources) (p : Fin PROCESS_MAX) (S : Addr → Prop) : Prop where
  writable : ∀ a, S a → r.Writable p a
  inj      : ∀ a b pa perm perm', S a → S b → r.pm.translate p.val a = some (pa, perm) →
    r.pm.translate p.val b = some (pa, perm') → a = b

section Map

variable {r : Resources} {p : Fin PROCESS_MAX} {S : Addr → Prop} {m v : Mem}

theorem storeV_shows (hr : r.Loading p) (hm : KernelKept r.pm.mem m) (hown : r.Owns p S)
    (hv : r.Shows p S m v) {a : Addr} (ha : S a) (b : Byte) :
    ∃ m', storeV r.cr3 m a b = .ok m' ∧ KernelKept r.pm.mem m' ∧ r.Shows p S m' (store8 v a b) := by
  rcases storeV_cases hr hm a b with ⟨pa, perm, htr, -, hrun⟩ | ⟨hw, -⟩
  · have hkept := storeV_kept r.cr3 m a b
    rw [hrun] at hkept
    refine ⟨_, hrun, hm.trans hkept, fun a' pa' perm' ha' htr' => ?_⟩
    by_cases heq : a' = a
    · subst heq
      obtain ⟨rfl, -⟩ := Prod.mk.inj (Option.some.inj (htr.symm.trans htr'))
      rw [store8_same, store8_same]
    · have hne : pa' ≠ pa := by
        rintro rfl
        exact heq (hown.inj _ _ _ _ _ ha' ha htr' htr)
      rw [store8_ne hne, store8_ne heq]
      exact hv a' pa' perm' ha' htr'
  · exact absurd (hown.writable a ha) hw

theorem storeBytesV_shows (hr : r.Loading p) (hm : KernelKept r.pm.mem m) (hown : r.Owns p S)
    (hv : r.Shows p S m v) {a : Addr} {bs : List Byte}
    (hS : ∀ j < bs.length, S (a + BitVec.ofNat 32 j)) :
    ∃ m', storeBytesV r.cr3 m a bs = .ok m' ∧ KernelKept r.pm.mem m' ∧
      r.Shows p S m' (storeBytes v a bs) := by
  induction bs generalizing m v a with
  | nil => exact ⟨m, rfl, hm, hv⟩
  | cons b bs ih =>
    rw [List.length_cons, forall_lt_succ_add] at hS
    obtain ⟨m₁, hrun, hm₁, hv₁⟩ := storeV_shows hr hm hown hv hS.1 b
    obtain ⟨m₂, hrun₂, hm₂, hv₂⟩ := ih hm₁ hv₁ hS.2
    exact ⟨m₂, by rw [storeBytesV, hrun]; exact hrun₂, hm₂, hv₂⟩

theorem memset_eq_storeBytes (v : Mem) (a : Addr) (c : Byte) (n : Nat) :
    memset v a c n = storeBytes v a (List.replicate n c) := by
  induction n generalizing v a with
  | zero => rfl
  | succ n ih => rw [memset, List.replicate_succ, storeBytes, ih]

theorem memsetV_shows (hr : r.Loading p) (hm : KernelKept r.pm.mem m) (hown : r.Owns p S)
    (hv : r.Shows p S m v) {a : Addr} (c : Byte) {n : Nat} (hS : ∀ j < n, S (a + BitVec.ofNat 32 j)) :
    ∃ m', memsetV r.cr3 m a c n = .ok m' ∧ KernelKept r.pm.mem m' ∧
      r.Shows p S m' (memset v a c n) := by
  rw [memsetV_eq, memset_eq_storeBytes]
  exact storeBytesV_shows hr hm hown hv (by rwa [List.length_replicate])

/-- The copy loop goes through the page map as on the flat memory. -/
theorem segCopyLoop_shows {d : Drivers} (hr : r.Loading p) (hown : r.Owns p S) {fend vpos vpos' : Addr}
    {fuel : Nat} {f f' : File FileOps} {res : Int} {v' : Mem} (hm : KernelKept r.pm.mem m)
    (hv : r.Shows p S m v) (hS : ∀ a, Stores (copyRanges d fend fuel f vpos).1 a → S a)
    (hflat : segCopyFlat d.read fend fuel f v vpos = some (res, f', v', vpos')) :
    ∃ m', segCopyLoop d r.cr3 fend fuel f m vpos = some (.ok (res, f', m', vpos')) ∧
      KernelKept r.pm.mem m' ∧ r.Shows p S m' v' ∧
      (¬ res < 0 → (copyRanges d fend fuel f vpos).2 = some vpos') := by
  induction fuel generalizing f m v vpos with
  | zero => cases hflat
  | succ fuel ih =>
    rw [segCopyFlat] at hflat
    rw [copyRanges] at hS ⊢
    rw [segCopyLoop]
    by_cases hlt : vpos < fend
    · rw [if_pos hlt] at hflat hS ⊢
      rw [if_pos hlt]
      rcases hread : fileRead d.read f (vpos != 0#32) (fend - vpos) with ⟨res₁, bs, f₁⟩
      rw [hread] at hflat hS
      dsimp only at hflat hS ⊢
      obtain ⟨m₁, hrun, hm₁, hv₁⟩ := storeBytesV_shows hr hm hown hv
        (show ∀ j < bs.length, S (vpos + BitVec.ofNat 32 j) by
          intro j hj
          apply hS
          split <;> exact stores_cons.mpr (.inl ⟨j, hj, rfl⟩))
      rw [hrun]
      dsimp only
      by_cases hneg : res₁ < 0
      · rw [if_pos hneg] at hflat
        cases hflat
        exact ⟨m₁, if_pos hneg, hm₁, hv₁, fun hpos => absurd hneg hpos⟩
      · rw [if_neg hneg] at hflat
        simp only [if_neg hneg] at hS ⊢
        exact ih hm₁ hv₁ (fun a ha => hS a (stores_cons.mpr (.inr ha))) hflat
    · rw [if_neg hlt] at hflat ⊢
      rw [if_neg hlt]
      cases hflat
      exact ⟨m, rfl, hm, hv, fun _ => rfl⟩

/-- **The loader through a page map** does what the flat one does, as long as the
addresses that it stores to can be written and share no memory. -/
theorem elfLoadSeg32_simulates {d : Drivers} (hr : r.Loading p) (hown : r.Owns p S) {fuel : Nat}
    {f f' : File FileOps} {phdr : Phdr} {res : Int} {v' : Mem} (hv : r.Shows p S r.pm.mem v)
    (hS : ∀ a, Stores (segRanges d fuel f phdr) a → S a)
    (hflat : elfLoadSeg32Flat d.read fuel f v phdr = some (res, f', v')) :
    ∃ m', elfLoadSeg32 d fuel r.cr3 f r.pm.mem phdr = some (.ok (res, f', m')) ∧
      KernelKept r.pm.mem m' ∧ r.Shows p S m' v' := by
  rcases hseek : fileLseek f (pOffset phdr) .seekSet with ⟨res₀, f₀⟩
  rw [elfLoadSeg32Flat, hseek] at hflat
  rw [segRanges, hseek] at hS
  rw [elfLoadSeg32, hseek]
  dsimp only at hflat hS ⊢
  by_cases hneg₀ : res₀ < 0
  · rw [if_pos hneg₀] at hflat ⊢
    cases hflat
    exact ⟨_, rfl, .refl _, hv⟩
  · rw [if_neg hneg₀] at hflat hS ⊢
    obtain ⟨⟨res₁, f₁, v₁, vpos⟩, hcopy, hend⟩ := Option.map_eq_some_iff.mp hflat
    obtain ⟨m₁, hrun, hm₁, hv₁, hvpos⟩ := segCopyLoop_shows hr hown (.refl _) hv (fun a ha => hS a (by
      split
      · exact ha
      · exact stores_append.mpr (.inl ha))) hcopy
    rw [hrun]
    dsimp only at hend ⊢
    by_cases hneg : res₁ < 0
    · rw [if_pos hneg] at hend ⊢
      cases hend
      exact ⟨m₁, rfl, hm₁, hv₁⟩
    · rw [if_neg hneg] at hend ⊢
      cases hend
      rw [hvpos hneg] at hS
      obtain ⟨m₂, hset, hm₂, hv₂⟩ := memsetV_shows hr hm₁ hown hv₁ 0#8 (a := vpos)
        (n := (pVaddr phdr + pMemsz phdr - vpos).toNat) fun j hj =>
          hS _ (stores_append.mpr (.inr (stores_cons.mpr (.inl ⟨j, hj, rfl⟩))))
      exact ⟨m₂, by rw [hset], hm₂, hv₂⟩

/-- The memory of a process as it sees it. -/
def Resources.view (r : Resources) (p : Fin PROCESS_MAX) : Mem :=
  fun a => ((r.pm.translate p.val a).map fun q => r.pm.mem q.1).getD 0#8

theorem Resources.shows_view (r : Resources) (p : Fin PROCESS_MAX) (S : Addr → Prop) :
    r.Shows p S r.pm.mem (r.view p) := by
  intro a pa perm _ htr
  rw [Resources.view, htr]
  rfl

/-- **A segment of an archived file**, loaded to memory that the process has of its own:
afterwards the process sees the segment's image, and nothing else has changed. -/
theorem OpenFile.elfLoadSeg32 {d : Drivers} {content : List Byte} {f : File FileOps} {pos : Nat}
    (h : OpenFile d content f pos) (hne : content ≠ []) (hr : r.Loading p) {phdr : Phdr}
    (hown : r.Owns p (InSegment phdr)) (hseg : SegFits f phdr)
    (hsz : (pFilesz phdr).toNat ≤ (pMemsz phdr).toNat)
    (hfit : (pOffset phdr).toNat + (pFilesz phdr).toNat ≤ content.length)
    (hgood : pFilesz phdr = 0#32 ∨
      pVaddr phdr ≠ 0#32 ∧ (pVaddr phdr).toNat + (pFilesz phdr).toNat < 2 ^ 32)
    {fuel : Nat} (hfuel : (pFilesz phdr).toNat < fuel) :
    ∃ f' m' v', Munix.elfLoadSeg32 d fuel r.cr3 f r.pm.mem phdr = some (.ok (0, f', m')) ∧
      HoldsImage content phdr (r.view p) v' ∧ r.Shows p (InSegment phdr) m' v' ∧
      r.Touched p (segRanges d fuel f phdr) m' := by
  obtain ⟨i, pre, post, hdata, haf, -, hlt⟩ := id h.archive
  have hdisk : CpioOpen d f i (pre ++ content ++ post) := ⟨h.op, hdata, haf, by simp [hne]⟩
  rw [List.length_append, List.length_append] at hlt
  have hflat := h.chunked.elfLoadSeg32Flat (by omega) hsz hfit hgood (r.view p) hfuel
  obtain ⟨m', hrun, -, hshows⟩ := elfLoadSeg32_simulates hr hown (r.shows_view p _)
    (fun a ha => hseg.inSegment hdisk ha) hflat
  exact ⟨_, m', _, hrun, holdsImage_put _ hsz hfit hseg.1, hshows, elfLoadSeg32_touched hr hrun⟩

end Map

end Munix
