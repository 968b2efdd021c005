import Munix.Drivers.CpioWalk

/-!
# Munix — the bounds of a read of an archived file

`cpio_file_read` clips the count at the end of the file with 32-bit arithmetic,
and relies on the ramdisk for the rest. This module says when that keeps a read
inside the file and inside the caller's buffer (`cpioFile_readInFile_iff`), for
every position that a seek can reach and every count.
-/

namespace Munix

section Read

variable {d : Drivers} {f : File FileOps} {i : Nat} {data : List Byte}

/-- A file that `cpio_file_open_path` has opened: its driver data has an open file
of the ramdisk with the archive. -/
structure CpioOpen (d : Drivers) (f : File FileOps) (i : Nat) (data : List Byte) : Prop where
  op      : f.fOp = some .cpioFile
  slot    : f.fDriverData = some i
  archive : DiskFile d.dev data (d.cfdatas i).af
  ne_nil  : data ≠ []

/-- The count that `cpio_file_read` asks the archive for. -/
def cpioClip (f : File FileOps) (count : BitVec 32) : BitVec 32 :=
  if f.fStat.fSize.slt (f.fPos + count) then f.fStat.fSize - f.fPos else count

/-- What a read stores: bytes of the archive, from the place of the file's
position on. -/
def cpioBytes (data : List Byte) (foff : BitVec 32) (f : File FileOps) (count : BitVec 32) :
    List Byte :=
  (data.drop (diskStart (f.fPos + foff))).take (cpioClip f count).toNat

theorem filePread_disk {dev : Devices} {af : File DevOps} (h : DiskFile dev data af)
    (count off : BitVec 32) :
    filePread dev.read af true count off =
      (((((data.drop (diskStart off)).take count.toNat).length : Nat) : Int),
        (data.drop (diskStart off)).take count.toNat) := by
  by_cases hzero : count = 0#32
  · simp [filePread, h.op, hzero]
  · rw [filePread_of_op h.op hzero, h.read_any]

/-- **A read** stores the bytes of the archive that the clipped count covers. -/
theorem CpioOpen.fileRead (h : CpioOpen d f i data) {count : BitVec 32} (hcount : count ≠ 0#32) :
    Munix.fileRead d.read f true count =
      ((((cpioBytes data (d.cfdatas i).foff f count).length : Nat) : Int),
        cpioBytes data (d.cfdatas i).foff f count,
        { f with fPos := f.fPos +
            BitVec.ofNat 32 (cpioBytes data (d.cfdatas i).foff f count).length }) := by
  have hread : d.read .cpioFile f count f.fPos =
      ⟨((cpioBytes data (d.cfdatas i).foff f count).length : Nat),
        cpioBytes data (d.cfdatas i).foff f count,
        f.fPos + BitVec.ofNat 32 (cpioBytes data (d.cfdatas i).foff f count).length⟩ := by
    have hpread : filePread d.dev.read (d.cfdatas i).af true
        (if f.fStat.fSize.slt (f.fPos + count) then f.fStat.fSize - f.fPos else count)
        (f.fPos + (d.cfdatas i).foff) =
          ((((cpioBytes data (d.cfdatas i).foff f count).length : Nat) : Int),
            cpioBytes data (d.cfdatas i).foff f count) := filePread_disk h.archive _ _
    simp only [Drivers.read, cpioFileRead, h.slot, hpread]
    rw [if_neg (by omega), BitVec.ofInt_natCast]
    generalize (cpioBytes data (d.cfdatas i).foff f count).length = n
    congr 1
    bv_omega
  rw [fileRead_of_op h.op hcount, hread]

/-- A read stays inside the file and inside the caller's buffer. The file's data
begins at offset `foff` of the archive. -/
structure ReadInFile (data : List Byte) (foff : BitVec 32) (f : File FileOps) (count : BitVec 32)
    (r : Int × List Byte × File FileOps) : Prop where
  room    : r.2.1.length ≤ count.toNat
  own     : ∀ j, j < r.2.1.length → 0 ≤ f.fPos.toInt + j ∧ f.fPos.toInt + j < f.fStat.fSize.toInt ∧
    r.2.1[j]? = data[(f.fPos + foff).toNat + j]?
  inside  : 0 ≤ f.fPos.toInt ∧ f.fPos.toInt ≤ f.fStat.fSize.toInt →
    r.1 = min (count.toNat : Int) (f.fStat.fSize.toInt - f.fPos.toInt) ∧ (r.2.1.length : Int) = r.1
  outside : ¬ (0 ≤ f.fPos.toInt ∧ f.fPos.toInt ≤ f.fStat.fSize.toInt) → r.2.1 = [] ∧ r.1 ≤ 0
  moved   : r.2.2 = { f with fPos := f.fPos + BitVec.ofInt 32 (max r.1 0) }

/-- When a read does so. Inside the file the end of the read must not overflow,
and the archive must have the bytes; where it does overflow, the archive has to
end with the file. Outside the file the archive must have nothing at all there. -/
def ReadFits (asize : Nat) (foff : BitVec 32) (f : File FileOps) (count : BitVec 32) : Prop :=
  let pos := f.fPos.toInt
  let size := f.fStat.fSize.toInt
  let apos := (f.fPos + foff).toNat
  count = 0#32 ∨
    if 0 ≤ pos ∧ pos ≤ size then
      if pos + count.toNat < 2 ^ 31 then
        pos = size ∨ apos + min (count.toNat : Int) (size - pos) ≤ asize
      else apos < 2 ^ 31 ∧ ((asize - apos : Nat) : Int) = size - pos
    else pos = size ∧ pos + count.toNat < 2 ^ 31 ∨ asize ≤ apos ∧ apos < 2 ^ 31

/-- What the clipped count is, in integers. -/
theorem cpioClip_toNat (f : File FileOps) (count : BitVec 32) (hcount : count ≠ 0#32) :
    (0 ≤ f.fPos.toInt → f.fPos.toInt ≤ f.fStat.fSize.toInt →
      ((cpioClip f count).toNat : Int) =
        if f.fPos.toInt + count.toNat < 2 ^ 31 then
          min (count.toNat : Int) (f.fStat.fSize.toInt - f.fPos.toInt)
        else count.toNat) ∧
    (¬ (0 ≤ f.fPos.toInt ∧ f.fPos.toInt ≤ f.fStat.fSize.toInt) →
      ((cpioClip f count).toNat = 0 ↔
        f.fPos.toInt = f.fStat.fSize.toInt ∧ f.fPos.toInt + count.toNat < 2 ^ 31)) := by
  have hn : 0 < count.toNat := by
    rw [Nat.pos_iff_ne_zero]
    exact fun h => hcount (BitVec.eq_of_toNat_eq h)
  unfold cpioClip
  simp only [BitVec.slt, decide_eq_true_eq]
  have hp := BitVec.toInt_eq_toNat_cond f.fPos
  have hs := BitVec.toInt_eq_toNat_cond f.fStat.fSize
  have hsum := BitVec.toInt_eq_toNat_cond (f.fPos + count)
  have hadd := BitVec.toNat_add f.fPos count
  have hsub := BitVec.toNat_sub f.fStat.fSize f.fPos
  have hpl := f.fPos.isLt
  have hsl := f.fStat.fSize.isLt
  have hcl := count.isLt
  constructor
  · intro h0 h1
    split <;> split at hp <;> split at hs <;> split at hsum <;> split <;> omega
  · intro hout
    split <;> split at hp <;> split at hs <;> split at hsum <;> omega

theorem diskStart_of_lt {off : BitVec 32} (h : off.toNat < 2 ^ 31) : diskStart off = off.toNat := by
  unfold diskStart
  rw [if_neg]
  simp only [BitVec.slt, decide_eq_true_eq, BitVec.toInt_eq_toNat_cond]
  rw [if_pos (by omega)]
  simp

theorem diskStart_of_ge {off : BitVec 32} (h : 2 ^ 31 ≤ off.toNat) : diskStart off = 0 := by
  have hlt := off.isLt
  unfold diskStart
  rw [if_pos]
  simp only [BitVec.slt, decide_eq_true_eq, BitVec.toInt_eq_toNat_cond]
  rw [if_neg (by omega)]
  norm_num
  omega

/-- The bounds of a read depend on how many bytes it stores, and where it starts. -/
theorem CpioOpen.readInFile_iff (h : CpioOpen d f i data) {count : BitVec 32}
    (hcount : count ≠ 0#32) :
    ReadInFile data (d.cfdatas i).foff f count (Munix.fileRead d.read f true count) ↔
      (cpioBytes data (d.cfdatas i).foff f count).length ≤ count.toNat ∧
      (0 < (cpioBytes data (d.cfdatas i).foff f count).length →
        (f.fPos + (d.cfdatas i).foff).toNat < 2 ^ 31 ∧ 0 ≤ f.fPos.toInt ∧
          f.fPos.toInt + (cpioBytes data (d.cfdatas i).foff f count).length ≤
            f.fStat.fSize.toInt) ∧
      (0 ≤ f.fPos.toInt ∧ f.fPos.toInt ≤ f.fStat.fSize.toInt →
        ((cpioBytes data (d.cfdatas i).foff f count).length : Int) =
          min (count.toNat : Int) (f.fStat.fSize.toInt - f.fPos.toInt)) ∧
      (¬ (0 ≤ f.fPos.toInt ∧ f.fPos.toInt ≤ f.fStat.fSize.toInt) →
        (cpioBytes data (d.cfdatas i).foff f count).length = 0) := by
  have hlt := h.archive.lt
  rw [h.fileRead hcount]
  set foff := (d.cfdatas i).foff
  set bs := cpioBytes data foff f count with hbs
  constructor
  · intro hr
    refine ⟨hr.room, fun hpos => ?_, fun hin => (hr.inside hin).1, fun hout => ?_⟩
    · obtain ⟨h0, -, hbyte⟩ := hr.own 0 hpos
      refine ⟨?_, by simpa using h0, ?_⟩
      · -- a byte that is stored is a byte of the archive
        refine Nat.lt_of_not_le fun hge => ?_
        have hnone : data[(f.fPos + foff).toNat + 0]? = none := List.getElem?_eq_none (by omega)
        have hstored : bs[0]? = none := hbyte.trans hnone
        rw [List.getElem?_eq_none_iff] at hstored
        exact absurd hpos (Nat.not_lt.mpr hstored)
      · obtain ⟨-, hlast, -⟩ := hr.own (bs.length - 1) (by change bs.length - 1 < bs.length; omega)
        omega
    · rw [List.length_eq_zero_iff]
      exact (hr.outside hout).1
  · rintro ⟨hroom, hown, hin, hout⟩
    refine ⟨hroom, fun j hj => ?_, fun h => ⟨hin h, rfl⟩, fun h => ?_, ?_⟩
    · have hj : j < bs.length := hj
      obtain ⟨hstart, h0, hend⟩ := hown (by omega)
      refine ⟨by omega, by omega, ?_⟩
      have hclip : j < (cpioClip f count).toNat := by
        have hle : bs.length ≤ (cpioClip f count).toNat := by
          rw [hbs, cpioBytes, List.length_take]
          exact Nat.min_le_left _ _
        omega
      change bs[j]? = _
      rw [hbs, cpioBytes, List.getElem?_take, if_pos hclip, List.getElem?_drop,
        diskStart_of_lt hstart]
    · have hzero := hout h
      exact ⟨List.length_eq_zero_iff.mp hzero, by change (bs.length : Int) ≤ 0; omega⟩
    · change _ = { f with fPos := f.fPos + BitVec.ofInt 32 (max (bs.length : Int) 0) }
      rw [max_eq_left (by omega), BitVec.ofInt_natCast]

/-- **When a read of an archived file stays in bounds**, at any position and with
any count. -/
theorem fileRead_inFile_iff (h : CpioOpen d f i data) (count : BitVec 32) :
    ReadInFile data (d.cfdatas i).foff f count (Munix.fileRead d.read f true count) ↔
      ReadFits data.length (d.cfdatas i).foff f count := by
  by_cases hcount : count = 0#32
  · refine iff_of_true ?_ (.inl hcount)
    have hrun : Munix.fileRead d.read f true count = (0, [], f) := by
      simp [Munix.fileRead, h.op, hcount]
    rw [hrun, hcount]
    exact ⟨Nat.le_refl _, by simp, fun hin => ⟨by simp; omega, rfl⟩, fun _ => ⟨rfl, Int.le_refl _⟩, by simp⟩
  rw [h.readInFile_iff hcount]
  have hlt := h.archive.lt
  have hne : 0 < data.length := List.length_pos_of_ne_nil h.ne_nil
  have hn : 0 < count.toNat := Nat.pos_of_ne_zero fun h0 => hcount (BitVec.eq_of_toNat_eq h0)
  obtain ⟨hclipIn, hclipOut⟩ := cpioClip_toNat f count hcount
  set foff := (d.cfdatas i).foff
  have hlen : (cpioBytes data foff f count).length =
      min (cpioClip f count).toNat (data.length - diskStart (f.fPos + foff)) := by
    rw [cpioBytes, List.length_take, List.length_drop]
  have hfits : ReadFits data.length foff f count ↔
      if 0 ≤ f.fPos.toInt ∧ f.fPos.toInt ≤ f.fStat.fSize.toInt then
        if f.fPos.toInt + count.toNat < 2 ^ 31 then
          f.fPos.toInt = f.fStat.fSize.toInt ∨ ((f.fPos + foff).toNat : Int) +
            min (count.toNat : Int) (f.fStat.fSize.toInt - f.fPos.toInt) ≤ data.length
        else (f.fPos + foff).toNat < 2 ^ 31 ∧
          ((data.length - (f.fPos + foff).toNat : Nat) : Int) = f.fStat.fSize.toInt - f.fPos.toInt
      else f.fPos.toInt = f.fStat.fSize.toInt ∧ f.fPos.toInt + count.toNat < 2 ^ 31 ∨
        data.length ≤ (f.fPos + foff).toNat ∧ (f.fPos + foff).toNat < 2 ^ 31 :=
    or_iff_right hcount
  have hstart : diskStart (f.fPos + foff) =
      if (f.fPos + foff).toNat < 2 ^ 31 then (f.fPos + foff).toNat else 0 := by
    split
    next h => exact diskStart_of_lt h
    next h => exact diskStart_of_ge (by omega)
  rw [hfits, hlen, hstart]
  have hcl := count.isLt
  have hsz : f.fStat.fSize.toInt < 2 ^ 31 := BitVec.toInt_lt
  generalize (cpioClip f count).toNat = m at *
  generalize (f.fPos + foff).toNat = a at *
  generalize f.fPos.toInt = p at *
  generalize f.fStat.fSize.toInt = s at *
  generalize count.toNat = n at *
  by_cases hin : 0 ≤ p ∧ p ≤ s
  · have hm := hclipIn hin.1 hin.2
    rw [if_pos hin]
    by_cases hend : p + n < 2 ^ 31
    · rw [if_pos hend] at hm ⊢
      by_cases ha : a < 2 ^ 31
      · rw [if_pos ha]
        omega
      · rw [if_neg ha]
        omega
    · rw [if_neg hend] at hm ⊢
      by_cases ha : a < 2 ^ 31
      · rw [if_pos ha]
        omega
      · rw [if_neg ha]
        omega
  · have hm := hclipOut hin
    rw [if_neg hin]
    by_cases ha : a < 2 ^ 31
    · rw [if_pos ha]
      omega
    · rw [if_neg ha]
      omega

end Read

-- ---------------------------------------------------------------------------
-- Opening a file
-- ---------------------------------------------------------------------------

section Open

variable {dev : Devices} {f f' : File DevOps}

theorem cpioReadHeaderRaw_sameFile (dev : Devices) (f : File DevOps) :
    SameFile f (cpioReadHeaderRaw dev f).2.1 := by
  have h₁ := fileRead_sameFile dev.read f true 6#32
  rw [cpioReadHeaderRaw]
  dsimp only
  split
  · exact h₁
  split
  · exact h₁
  split
  · exact h₁
  split
  · exact h₁.trans (fileRead_sameFile dev.read _ true _)
  · exact h₁.trans (fileRead_sameFile dev.read _ true _)

theorem readPathnameLoop_sameFile {readsz fuel ct : Nat} {pathname pathname' : List Byte} {res : Int}
    (h : readPathnameLoop dev readsz fuel f pathname ct = some (res, f', pathname')) :
    SameFile f f' := by
  induction fuel generalizing f pathname ct with
  | zero => cases h
  | succ fuel ih =>
    have hread := fileRead_sameFile dev.read f true (BitVec.ofNat 32 (readsz - ct))
    rw [readPathnameLoop] at h
    dsimp only at h
    split at h
    · split at h
      · cases h
        exact hread
      · exact hread.trans (ih h)
    · cases h
      exact .refl _

theorem cpioReadPathname_sameFile {fuel : Nat} {h h' : CpioHeader} {res : Int}
    (hrun : cpioReadPathname dev fuel f h = some (res, f', h')) : SameFile f f' := by
  rw [cpioReadPathname] at hrun
  dsimp only at hrun
  split at hrun
  · cases hrun
  · rename_i hloop
    have hsame := readPathnameLoop_sameFile hloop
    split at hrun
    · cases hrun
      exact hsame
    split at hrun
    · cases hrun
      exact hsame
    split at hrun
    · cases hrun
      exact hsame
    split at hrun
    · cases hrun
      exact hsame.trans (fileLseek_sameFile _ _ _)
    · cases hrun
      exact hsame.trans (fileLseek_sameFile _ _ _)

theorem cpioReadHeader_sameFile {fuel : Nat} {h : CpioHeader} {res : Int}
    (hrun : cpioReadHeader dev fuel f = some (res, f', h)) : SameFile f f' := by
  have hraw := cpioReadHeaderRaw_sameFile dev f
  rw [cpioReadHeader] at hrun
  dsimp only at hrun
  split at hrun
  · cases hrun
    exact hraw
  split at hrun
  · cases hrun
    exact hraw
  split at hrun
  · cases hrun
  · rename_i hname
    have hsame := hraw.trans (cpioReadPathname_sameFile hname)
    split at hrun
    · cases hrun
      exact hsame
    · cases hrun
      exact hsame

/-- A search that finds something has read a header. -/
theorem cpioFindPathLoop_found {p : List Byte} {fuel i : Nat} {h h' : CpioHeader} {res : Int}
    (hrun : cpioFindPathLoop dev p fuel i f h = some (res, f', h')) :
    SameFile f f' ∧ (0 ≤ res → ∃ q, 0 ≤ (cpioReadHeaderRaw dev (f.seek q)).1) := by
  induction fuel generalizing i f h with
  | zero => cases hrun
  | succ fuel ih =>
    rw [cpioFindPathLoop] at hrun
    split at hrun
    · cases hrun
      exact ⟨.refl _, fun hres => absurd hres (by decide)⟩
    · split at hrun
      · cases hrun
      · rename_i res₁ f₁ h₁ hread
        have hsame := cpioReadHeader_sameFile hread
        split at hrun
        · rename_i hneg
          cases hrun
          exact ⟨hsame, fun hres => absurd hres (Int.not_le.mpr hneg)⟩
        · rename_i hres₁
          split at hrun
          · cases hrun
            refine ⟨hsame, fun _ => ⟨f.fPos, Int.not_lt.mp fun hraw => hres₁ ?_⟩⟩
            have hraw : (cpioReadHeaderRaw dev f).1 < 0 := hraw
            rw [cpioReadHeader_bad (fuel + 1) hraw] at hread
            have hfst := congrArg Prod.fst (Option.some.inj hread)
            omega
          · have hskip := fileLseek_sameFile f₁ (h₁.fsize + h₁.fpad) .seekCur
            have hsame' := hsame.trans hskip
            dsimp only at hrun
            split at hrun
            · rename_i hneg
              cases hrun
              exact ⟨hsame', fun hres => absurd hres (Int.not_le.mpr hneg)⟩
            · obtain ⟨hrest, hfound⟩ := ih hrun
              refine ⟨hsame'.trans hrest, fun hres => ?_⟩
              obtain ⟨q, hq⟩ := hfound hres
              obtain ⟨pos, hpos⟩ := hsame'
              exact ⟨q, by rwa [show (cpioSkipFdata f₁ h₁).2 = { f with fPos := pos } from hpos] at hq⟩

/-- Opening the device of an archive. -/
theorem fileOpenDev_archive {rdev : BitVec 32}
    (hdisks : ∀ rd data, dev.ramdisks rd = some data → data.length < 2 ^ 32) {res : Int}
    (hopen : fileOpenDev dev rdev = (res, f)) (hres : 0 ≤ res) :
    ∃ data, ArchiveFile dev data f := by
  rw [fileOpenDev] at hopen
  dsimp only at hopen
  split at hopen
  · cases hopen
    exact absurd hres (by decide)
  · split at hopen
    · cases hopen
      exact absurd hres (by decide)
    · rename_i op _
      cases op
      simp only [Devices.openDev, ramdiskOpenDev] at hopen
      split at hopen
      · cases hopen
        exact absurd hres (by decide)
      · split at hopen
        · cases hopen
          exact absurd hres (by decide)
        · rename_i data hdata
          cases hopen
          exact ⟨data, rfl, hdata, rfl, hdisks _ _ hdata⟩

/-- In an empty archive there is no header. -/
theorem ArchiveFile.ne_nil {data : List Byte} (h : ArchiveFile dev data f) {q : BitVec 32}
    (hraw : 0 ≤ (cpioReadHeaderRaw dev (f.seek q)).1) : data ≠ [] := by
  rintro rfl
  have hdisk := (h.diskFile (by decide)).seek q
  rw [cpioReadHeaderRaw] at hraw
  simp only [hdisk.fileRead_any (show (6#32) ≠ 0#32 by decide), List.drop_nil, List.take_nil,
    List.length_nil] at hraw
  rw [if_neg (by decide), if_pos (by decide)] at hraw
  exact absurd hraw (show ¬ 0 ≤ -EINVAL by decide)

/-- Opening returns 0 or an error. -/
theorem cpioFileOpenPath_res {d d' : Drivers} {sb : Superblock} {path : List Byte}
    {f file : File FileOps} {fuel : Nat} {res : Int}
    (hopen : cpioFileOpenPath fuel d f sb path = some (res, file, d')) : res ≤ 0 := by
  rw [cpioFileOpenPath] at hopen
  dsimp only at hopen
  split at hopen
  · cases hopen
    decide
  · split at hopen
    · rename_i hneg
      cases hopen
      exact Int.le_of_lt hneg
    · split at hopen
      · cases hopen
      · split at hopen
        · rename_i hneg
          cases hopen
          exact Int.le_of_lt hneg
        · split at hopen
          · rename_i hneg
            cases hopen
            exact Int.le_of_lt hneg
          · cases hopen
            exact Int.le_refl 0

/-- **A successful open** gives an open file. -/
theorem cpioFileOpenPath_open {d d' : Drivers} {sb : Superblock} {path : List Byte}
    {file : File FileOps} {fuel : Nat}
    (hdisks : ∀ rd data, d.dev.ramdisks rd = some data → data.length < 2 ^ 32)
    (hopen : cpioFileOpenPath fuel d cpioFileNew sb path = some (0, file, d')) :
    ∃ i data, CpioOpen d' file i data := by
  rw [cpioFileOpenPath] at hopen
  split at hopen
  · cases hopen
  · rename_i i _
    rcases hdev : fileOpenDev d.dev sb.sBdev with ⟨res₀, af⟩
    simp only [hdev] at hopen
    split at hopen
    · rename_i hneg
      cases hopen
      exact absurd hneg (by decide)
    · rename_i hres₀
      obtain ⟨data, harchive⟩ := fileOpenDev_archive hdisks hdev (Int.not_lt.mp hres₀)
      split at hopen
      · cases hopen
      · rename_i res₁ af₁ h₁ hfind
        obtain ⟨⟨pos, hsame⟩, hfound⟩ := cpioFindPathLoop_found hfind
        split at hopen
        · rename_i hneg
          cases hopen
          exact absurd hneg (by decide)
        · rename_i hres₁
          obtain ⟨q, hraw⟩ := hfound (Int.not_lt.mp hres₁)
          split at hopen
          · rename_i hneg
            have hfst := congrArg Prod.fst (Option.some.inj hopen)
            exact absurd hneg (by rw [show (cpiohFstat h₁ cpioFileNew.fStat).1 = 0 from hfst]; decide)
          · cases hopen
            have hlt : data.length < 2 ^ 31 := Nat.lt_of_not_le fun hle =>
              absurd hraw (Int.not_le.mpr (harchive.raw_neg hle q))
            refine ⟨i, data, rfl, rfl, ?_, harchive.ne_nil hraw⟩
            have haf : DiskFile d.dev data af₁ := by
              rw [hsame]
              exact (harchive.diskFile hlt).seek pos
            simpa [Drivers.setCfdata] using haf

end Open

/-- **When reads of an archived file stay in bounds.** For every file that can be
opened, every position and every count, a read stays inside the file and inside
the caller's buffer exactly if it fits. -/
theorem cpioFile_readInFile_iff {d d' : Drivers} {sb : Superblock} {path : List Byte}
    {file : File FileOps} {fuel : Nat}
    (hdisks : ∀ rd data, d.dev.ramdisks rd = some data → data.length < 2 ^ 32)
    (hopen : cpioFileOpenPath fuel d cpioFileNew sb path = some (0, file, d')) :
    ∃ i data, CpioOpen d' file i data ∧ ∀ pos count : BitVec 32,
      (ReadInFile data (d'.cfdatas i).foff (file.seek pos) count
          (fileRead d'.read (file.seek pos) true count) ↔
        ReadFits data.length (d'.cfdatas i).foff (file.seek pos) count) := by
  obtain ⟨i, data, hfile⟩ := cpioFileOpenPath_open hdisks hopen
  refine ⟨i, data, hfile, fun pos count => ?_⟩
  have hseek : CpioOpen d' (file.seek pos) i data :=
    ⟨hfile.op, hfile.slot, hfile.archive, hfile.ne_nil⟩
  exact fileRead_inFile_iff hseek count

/-- The archive with `hello` is mounted, and the file opened. -/
theorem exists_helloFile :
    ∃ file d', cpioFileOpenPath 4 helloArchive.drivers cpioFileNew ⟨0x400#32, bytes "/"⟩
        (bytes "hello") = some (0, file, d') ∧
      1 < (fileRead d'.read (file.seek 4#32) true 1#32).2.1.length := by
  have hany : (cpioFileOpenPath 4 helloArchive.drivers cpioFileNew ⟨0x400#32, bytes "/"⟩
      (bytes "hello")).any (fun r => decide (r.1 = 0 ∧
        1 < (fileRead r.2.2.read (r.2.1.seek 4#32) true 1#32).2.1.length)) = true := by
    decide +kernel
  obtain ⟨⟨res, file, d'⟩, hopen, hprop⟩ := (Option.any_eq_true _ _).mp hany
  obtain ⟨hres, hlong⟩ := of_decide_eq_true hprop
  obtain rfl : res = 0 := hres
  exact ⟨file, d', hopen, hlong⟩

theorem cpioFile_readInFile_iff_hello :
    ∃ (file : File FileOps) (d' : Drivers) (i : Nat) (data : List Byte), CpioOpen d' file i data ∧
      ∀ pos count : BitVec 32,
        (ReadInFile data (d'.cfdatas i).foff (file.seek pos) count
            (fileRead d'.read (file.seek pos) true count) ↔
          ReadFits data.length (d'.cfdatas i).foff (file.seek pos) count) := by
  obtain ⟨file, d', hopen, -⟩ := exists_helloFile
  exact ⟨file, d', cpioFile_readInFile_iff helloArchive.drivers_small hopen⟩

/-- A read of one byte behind the end of `hello` stores more than that. -/
theorem cpioFile_read_overflows :
    ∃ file d', cpioFileOpenPath 4 helloArchive.drivers cpioFileNew ⟨0x400#32, bytes "/"⟩
        (bytes "hello") = some (0, file, d') ∧
      ∀ (data : List Byte) (foff : BitVec 32),
        ¬ ReadInFile data foff (file.seek 4#32) 1#32
          (fileRead d'.read (file.seek 4#32) true 1#32) := by
  obtain ⟨file, d', hopen, hlong⟩ := exists_helloFile
  exact ⟨file, d', hopen, fun data foff h => absurd h.room (Nat.not_le.mpr hlong)⟩

end Munix
