import Munix.Drivers.CpioArchive

/-!
# Munix — reading back what an archive stores

The search walks over the records before the first one with the path it looks
for (`cpioFindPath_archive`); opening that path leaves a file whose data lies in
the archive at a known offset (`OpenFile`), and each read returns the next piece
of it. `cpiofs_reads_back` puts the pieces together.
-/

namespace Munix

-- ---------------------------------------------------------------------------
-- The search
-- ---------------------------------------------------------------------------

theorem Record.decoded_path (r : Record) (off : Nat) : (r.decoded off).path = r.name :=
  r.namedHeader_path off

theorem Record.length_encode (r : Record) :
    r.encode.length = r.front.length + r.data.length + r.dataPad.length := by
  simp only [Record.encode, List.length_append]

section Search

variable {dev : Devices} {data p : List Byte}

theorem cpioSkipFdata_record {f : File DevOps} (hf : DiskFile dev data f) (r : Record) (n : Nat) :
    cpioSkipFdata (f.at (n + r.front.length)) (r.decoded n) = (0, f.at (n + r.encode.length)) := by
  have hoff : (r.decoded n).fsize + (r.decoded n).fpad =
      BitVec.ofNat 32 (r.data.length + r.dataPad.length) := (BitVec.ofNat_add _ _).symm
  rw [cpioSkipFdata, fileLseek_cur (hf.at _) rfl hoff, r.length_encode]
  simp only [File.at]
  congr 3
  omega

/-- The search walks over records with other names. -/
theorem cpioFindPathLoop_skip (hp : IsString p) (before : List Record)
    (hbefore : ∀ b ∈ before, b.name ≠ p ∧ b.name ≠ trailerName) {fuel i : Nat} (hfuel : 1 ≤ fuel)
    {f : File DevOps} {h : CpioHeader} (hh : h.isEndmarker = false) (hf : DiskFile dev data f)
    {pre post : List Byte} (hdata : data = pre ++ before.flatMap Record.encode ++ post)
    (hpos : f.fPos = BitVec.ofNat 32 pre.length) :
    ∃ h' : CpioHeader, h'.isEndmarker = false ∧
      cpioFindPathLoop dev p (before.length + fuel) i f h =
        cpioFindPathLoop dev p fuel (i + before.length)
          (f.at (pre ++ before.flatMap Record.encode).length) h' := by
  induction before generalizing i f h pre with
  | nil =>
    refine ⟨h, hh, ?_⟩
    have hat : f.at pre.length = f := by rw [File.at, ← hpos]
    simp only [List.flatMap_nil, List.append_nil, List.length_nil, Nat.zero_add, Nat.add_zero, hat]
  | cons b before ih =>
    obtain ⟨hbp, hbt⟩ := hbefore b (by simp)
    have hdata' : data = pre ++ b.encode ++ (before.flatMap Record.encode ++ post) := by
      rw [hdata, List.flatMap_cons]
      simp only [List.append_assoc]
    have hread := cpioReadHeader_record (before.length + fuel + 1) (by omega) hf hdata' hpos
    have hcmp : strcmp (b.decoded pre.length).path p ≠ 0 := by
      rw [b.decoded_path]
      exact fun h => hbp ((strcmp_eq_zero b.name_string hp).mp h)
    have hnext : (b.decoded pre.length).isEndmarker = false := by
      simp [Record.decoded, hbt]
    obtain ⟨h', hh', hloop⟩ := ih (fun x hx => hbefore x (by simp [hx])) (i := i + 1) hnext
      (hf.at (pre ++ b.encode).length)
      (show data = pre ++ b.encode ++ before.flatMap Record.encode ++ post by
        rw [hdata']; simp only [List.append_assoc]) rfl
    refine ⟨h', hh', ?_⟩
    have hlen : (b :: before).length + fuel = before.length + fuel + 1 := by
      rw [List.length_cons]
      omega
    have hi : i + 1 + before.length = i + (b :: before).length := by
      rw [List.length_cons]
      omega
    have hskip : cpioSkipFdata (f.at (pre.length + b.front.length)) (b.decoded pre.length) =
        (0, f.at (pre ++ b.encode).length) := by
      rw [List.length_append]
      exact cpioSkipFdata_record hf b pre.length
    rw [hlen, cpioFindPathLoop, hh, hread]
    simp only [Bool.false_eq_true, if_false, hcmp, hskip]
    rw [if_neg (by omega), if_neg (by decide), hloop, hi, List.flatMap_cons, List.append_assoc]
    rfl

theorem cpioFindPathLoop_records (hp : IsString p) {r : Record} (hr : r.name = p)
    (before : List Record) (hbefore : ∀ b ∈ before, b.name ≠ p ∧ b.name ≠ trailerName)
    {fuel i : Nat} (hfuel : before.length + 2 ≤ fuel) {f : File DevOps} {h : CpioHeader}
    (hh : h.isEndmarker = false) (hf : DiskFile dev data f) {pre post : List Byte}
    (hdata : data = pre ++ before.flatMap Record.encode ++ r.encode ++ post)
    (hpos : f.fPos = BitVec.ofNat 32 pre.length) :
    ∃ off, off = (pre ++ before.flatMap Record.encode).length ∧
      cpioFindPathLoop dev p fuel i f h =
        some (((i + before.length : Nat) : Int), f.at (off + r.front.length), r.decoded off) := by
  refine ⟨_, rfl, ?_⟩
  obtain ⟨k, rfl⟩ := Nat.exists_eq_add_of_le hfuel
  obtain ⟨h', hh', hloop⟩ := cpioFindPathLoop_skip hp before hbefore (i := i)
    (show 1 ≤ k + 2 by omega) hh hf
    (show data = pre ++ before.flatMap Record.encode ++ (r.encode ++ post) by
      rw [hdata]; simp only [List.append_assoc]) hpos
  have hread := cpioReadHeader_record (k + 2) (by omega)
    (hf.at (pre ++ before.flatMap Record.encode).length) hdata rfl
  have hcmp : strcmp (r.decoded (pre ++ before.flatMap Record.encode).length).path p = 0 := by
    rw [r.decoded_path, hr]
    exact (strcmp_eq_zero hp hp).mpr rfl
  rw [show before.length + 2 + k = before.length + (k + 2) by omega, hloop, cpioFindPathLoop, hh',
    hread]
  simp only [Bool.false_eq_true, if_false, hcmp, if_true]
  rw [if_neg (by omega)]
  rfl

end Search

-- ---------------------------------------------------------------------------
-- Reading
-- ---------------------------------------------------------------------------

/-- An open file with the given content, at position `pos`: its data lies in the
archive at the offset that its driver data holds. -/
structure OpenFile (d : Drivers) (content : List Byte) (f : File FileOps) (pos : Nat) : Prop where
  op      : f.fOp = some .cpioFile
  size    : f.fStat.fSize = BitVec.ofNat 32 content.length
  pos_eq  : f.fPos = BitVec.ofNat 32 pos
  pos_le  : pos ≤ content.length
  archive : ∃ i pre post, f.fDriverData = some i ∧
    DiskFile d.dev (pre ++ content ++ post) (d.cfdatas i).af ∧
    (d.cfdatas i).foff = BitVec.ofNat 32 pre.length ∧ (pre ++ content ++ post).length < 2 ^ 30

section Read

variable {d : Drivers} {content : List Byte} {f : File FileOps} {pos : Nat}

/-- The `read` of an open file: the next piece of its content. -/
theorem OpenFile.read (h : OpenFile d content f pos) {count : BitVec 32}
    (hcount : count.toNat < 2 ^ 30) :
    d.read .cpioFile f count f.fPos =
      ⟨((content.drop pos).take count.toNat).length, (content.drop pos).take count.toNat,
        BitVec.ofNat 32 (pos + ((content.drop pos).take count.toNat).length)⟩ := by
  obtain ⟨i, pre, post, hdata, haf, hfoff, hlt⟩ := h.archive
  have hpos := h.pos_le
  have hlen : (pre ++ content ++ post).length = pre.length + content.length + post.length := by
    rw [List.length_append, List.length_append]
  set n := ((content.drop pos).take count.toNat).length with hn
  have hnmin : n = min count.toNat (content.length - pos) := by
    rw [hn, List.length_take, List.length_drop]
  -- the count is clipped at the end of the file
  have hclip : (if f.fStat.fSize.slt (BitVec.ofNat 32 pos + count) then f.fStat.fSize - f.fPos
      else count) = BitVec.ofNat 32 n := by
    have hsum : BitVec.ofNat 32 pos + count = BitVec.ofNat 32 (pos + count.toNat) := by bv_omega
    rw [hsum, h.size, slt_ofNat (by omega) (by omega), h.pos_eq]
    split
    next hlt' =>
      have := of_decide_eq_true hlt'
      bv_omega
    next hge =>
      have : ¬ content.length < pos + count.toNat := fun h => hge (decide_eq_true h)
      bv_omega
  -- and the archive is read at the place of the file
  have hpread : filePread d.dev.read (d.cfdatas i).af true (BitVec.ofNat 32 n)
      (BitVec.ofNat 32 pos + BitVec.ofNat 32 pre.length) =
        ((n : Int), (content.drop pos).take count.toNat) := by
    have haoff : BitVec.ofNat 32 pos + BitVec.ofNat 32 pre.length =
        BitVec.ofNat 32 (pre.length + pos) := by
      rw [← BitVec.ofNat_add, Nat.add_comm]
    have hnat : (BitVec.ofNat 32 n).toNat = n := by
      rw [BitVec.toNat_ofNat, Nat.mod_eq_of_lt (by omega)]
    by_cases hz : n = 0
    · have hnil : (content.drop pos).take count.toNat = [] := List.eq_nil_of_length_eq_zero hz
      rw [hz, hnil]
      simp [filePread, haf.op]
    · have hne : BitVec.ofNat 32 n ≠ 0#32 := by bv_omega
      have hseg : ((pre ++ content ++ post).drop (pre.length + pos)).take n =
          (content.drop pos).take count.toNat := by
        rw [List.append_assoc, List.drop_length_add_append, List.drop_append_of_le_length hpos,
          List.take_append_of_le_length (by rw [List.length_drop]; omega), hnmin,
          ← List.length_drop, List.take_eq_take_min]
        simp [Nat.min_comm]
      rw [filePread_of_op haf.op hne, haoff, haf.read (by omega), hnat, hseg, ← hn]
  have hoff : BitVec.ofNat 32 pos + BitVec.ofNat 32 pre.length + BitVec.ofInt 32 (n : Int) -
      BitVec.ofNat 32 pre.length = BitVec.ofNat 32 (pos + n) := by
    rw [BitVec.ofInt_natCast]
    bv_omega
  simp only [Drivers.read, cpioFileRead, hdata, hfoff]
  rw [h.pos_eq] at hclip ⊢
  rw [hclip, hpread]
  simp only [hoff]
  rw [if_neg (by omega)]

/-- **One read** returns the next piece of the content, and moves on behind it. -/
theorem OpenFile.fileRead (h : OpenFile d content f pos) {count : BitVec 32}
    (hpos : 0 < count.toNat) (hcount : count.toNat < 2 ^ 30) :
    ∃ f', Munix.fileRead d.read f true count =
        (((((content.drop pos).take count.toNat).length : Nat) : Int),
          (content.drop pos).take count.toNat, f') ∧
      OpenFile d content f' (pos + ((content.drop pos).take count.toNat).length) := by
  have hne : count ≠ 0#32 := by bv_omega
  refine ⟨f.at (pos + ((content.drop pos).take count.toNat).length), ?_, h.op, h.size, rfl, ?_,
    h.archive⟩
  · rw [fileRead_of_op h.op hne, h.read hcount]
    rfl
  · have hle := h.pos_le
    rw [List.length_take, List.length_drop]
    omega

/-- The file after `k` reads with the given counts. -/
def fileAfter (d : Drivers) (f : File FileOps) (counts : Nat → BitVec 32) : Nat → File FileOps
  | 0 => f
  | k + 1 => (Munix.fileRead d.read (fileAfter d f counts k) true (counts k)).2.2

/-- The result of the read after `k` reads. -/
def readRet (d : Drivers) (f : File FileOps) (counts : Nat → BitVec 32) (k : Nat) : Int :=
  (Munix.fileRead d.read (fileAfter d f counts k) true (counts k)).1

/-- The bytes that the read after `k` reads stores. -/
def readChunk (d : Drivers) (f : File FileOps) (counts : Nat → BitVec 32) (k : Nat) : List Byte :=
  (Munix.fileRead d.read (fileAfter d f counts k) true (counts k)).2.1

section Sequence

variable {counts : Nat → BitVec 32}
  (hcounts : ∀ k, 0 < (counts k).toNat ∧ (counts k).toNat < 2 ^ 30)

include hcounts

/-- What a run of reads has got so far is the beginning of the content. -/
theorem OpenFile.fileAfter (h : OpenFile d content f 0) (k : Nat) :
    ∃ pos, OpenFile d content (fileAfter d f counts k) pos ∧
      (List.range k).flatMap (readChunk d f counts) = content.take pos ∧ min k content.length ≤ pos := by
  induction k with
  | zero => exact ⟨0, h, by simp, by simp⟩
  | succ k ih =>
    obtain ⟨pos, hopen, hsofar, hmin⟩ := ih
    obtain ⟨f', hread, hopen'⟩ := hopen.fileRead (hcounts k).1 (hcounts k).2
    have hle := hopen.pos_le
    have hpos := (hcounts k).1
    refine ⟨_, by rw [Munix.fileAfter, hread]; exact hopen', ?_, ?_⟩
    · rw [List.range_succ, List.flatMap_append, hsofar, List.flatMap_singleton, readChunk, hread]
      dsimp only
      rw [List.take_add, List.length_take, ← List.take_eq_take_min]
    · rw [List.length_take, List.length_drop]
      omega

/-- **A run of reads** returns the content in non-empty pieces, and nothing after
that. -/
theorem OpenFile.reads (h : OpenFile d content f 0) :
    ∃ K, (List.range K).flatMap (readChunk d f counts) = content ∧
      (∀ k < K, 0 < readRet d f counts k) ∧
      (∀ k, readRet d f counts k = (readChunk d f counts k).length) ∧
      ∀ k, K ≤ k → readRet d f counts k = 0 := by
  -- the read after `k` reads, and how far these have come
  have hstep : ∀ k, ∃ pos, pos ≤ content.length ∧ min k content.length ≤ pos ∧
      (List.range k).flatMap (readChunk d f counts) = content.take pos ∧
      readRet d f counts k = (readChunk d f counts k).length ∧
      (readChunk d f counts k).length = min (counts k).toNat (content.length - pos) := by
    intro k
    obtain ⟨pos, hopen, hsofar, hmin⟩ := h.fileAfter hcounts k
    obtain ⟨f', hread, -⟩ := hopen.fileRead (hcounts k).1 (hcounts k).2
    refine ⟨pos, hopen.pos_le, hmin, hsofar, by rw [readRet, readChunk, hread], ?_⟩
    rw [readChunk, hread, List.length_take, List.length_drop]
  have hex : ∃ k, (List.range k).flatMap (readChunk d f counts) = content := by
    obtain ⟨pos, hle, hmin, hsofar, -⟩ := hstep content.length
    refine ⟨content.length, hsofar.trans (List.take_of_length_le (by omega))⟩
  classical
  refine ⟨Nat.find hex, Nat.find_spec hex, fun k hk => ?_, fun k => ?_, fun k hk => ?_⟩
  · obtain ⟨pos, hle, -, hsofar, hret, hlen⟩ := hstep k
    have hlt : pos < content.length := by
      refine lt_of_not_ge fun hge => Nat.find_min hex hk ?_
      rw [hsofar, List.take_of_length_le hge]
    have hpos := (hcounts k).1
    omega
  · obtain ⟨pos, -, -, -, hret, -⟩ := hstep k
    exact hret
  · obtain ⟨pos, hle, -, hsofar, hret, hlen⟩ := hstep k
    -- what comes after the content would make the text longer than it
    obtain ⟨n, rfl⟩ := Nat.exists_eq_add_of_le hk
    have hlong := congrArg List.length hsofar
    rw [List.range_add, List.flatMap_append, Nat.find_spec hex, List.length_append,
      List.length_take] at hlong
    omega

end Sequence

end Read

-- ---------------------------------------------------------------------------
-- Opening
-- ---------------------------------------------------------------------------

/-- An archive is held in ramdisk `rd`, the device of the superblock. -/
structure MountedArchive (d : Drivers) (sb : Superblock) (rd : Nat) (data : List Byte) : Prop where
  driver : d.dev.chrdevDrivers MAJ_RAMDISK = some .ramdisk
  disk   : d.dev.ramdisks rd = some data
  minor  : rd < RAMDISKS_MAX
  bdev   : sb.sBdev = makedev (BitVec.ofNat 32 MAJ_RAMDISK) (BitVec.ofNat 32 rd)

section Open

variable {d : Drivers} {sb : Superblock} {rd : Nat} {data : List Byte}

theorem MountedArchive.fileOpenDev (h : MountedArchive d sb rd data) (hlt : data.length < 2 ^ 31) :
    ∃ af, Munix.fileOpenDev d.dev sb.sBdev = (0, af) ∧ DiskFile d.dev data af ∧ af.fPos = 0#32 := by
  have hrd : rd < 4 := h.minor
  have hmaj : (sb.sBdev >>> 8).toNat = MAJ_RAMDISK := by
    rw [h.bdev]
    interval_cases rd <;> rfl
  have hmin : (sb.sBdev &&& 0xff#32).toNat = rd := by
    rw [h.bdev]
    interval_cases rd <;> rfl
  refine ⟨⟨⟨0#32, .chr, sb.sBdev, BitVec.ofNat 32 data.length⟩, 0#32, some .ramdisk, some rd⟩, ?_,
    ⟨rfl, h.disk, rfl, hlt⟩, rfl⟩
  · simp only [Munix.fileOpenDev, hmaj, hmin, h.driver, Devices.openDev, ramdiskOpenDev, h.disk]
    rw [if_neg (by decide), if_neg (by unfold RAMDISKS_MAX; omega)]
    rfl

theorem cfdataAlloc_of_free (h : ∃ i < MAX_CPIO_OPEN, (d.cfdatas i).af.fOp = none) :
    ∃ i, cfdataAlloc d = some i := by
  obtain ⟨i, hi, hfree⟩ := h
  rw [← Option.isSome_iff_exists, cfdataAlloc, List.find?_isSome]
  exact ⟨i, List.mem_range.mpr hi, by simp [hfree]⟩

/-- Opening a path that the search finds. -/
theorem cpioFileOpenPath_found {fuel k i : Nat} {p : List Byte} (hp : p ≠ []) (hi : cfdataAlloc d = some i)
    {af af' : File DevOps} (hdev : fileOpenDev d.dev sb.sBdev = (0, af)) {h : CpioHeader}
    (hfind : cpioFindPath d.dev fuel af p = some ((k : Int), af', h)) (hfmt : h.fmt = .newc) :
    ∃ d', cpioFileOpenPath fuel d cpioFileNew sb p = some (0, { cpioFileNew with
        fStat := (cpiohFstat h cpioFileNew.fStat).2, fDriverData := some i }, d') ∧ d'.dev = d.dev ∧
      d'.cfdatas i = ⟨af', h, h.hoff + h.hsize + h.psize + h.ppad⟩ := by
  let d₁ := d.setCfdata i { d.cfdatas i with af := af }
  let d₂ := d₁.setCfdata i { d₁.cfdatas i with af := af', h := h }
  refine ⟨d₂.setCfdata i { d₂.cfdatas i with foff := h.hoff + h.hsize + h.psize + h.ppad }, ?_, rfl, ?_⟩
  · have hfind₁ : cpioFindPath (d.setCfdata i { d.cfdatas i with af := af }).dev fuel af p =
        some ((k : Int), af', h) := hfind
    have hstat : (cpiohFstat h cpioFileNew.fStat).1 = 0 := by rw [cpiohFstat, hfmt]
    rw [cpioFileOpenPath, if_neg hp, hi, hdev]
    dsimp only
    rw [if_neg (by decide), hfind₁]
    dsimp only
    rw [if_neg (by omega), hstat, if_neg (by decide)]
  · simp [Drivers.setCfdata, d₂]

/-- Opening a path that an archive holds, with the first record of that name. -/
theorem MountedArchive.open (h : MountedArchive d sb rd data) (hlt : data.length < 2 ^ 30)
    (hfree : ∃ i < MAX_CPIO_OPEN, (d.cfdatas i).af.fOp = none) {r : Record} {before : List Record}
    (hbefore : ∀ b ∈ before, b.name ≠ r.name ∧ b.name ≠ trailerName) {post : List Byte}
    (hdata : data = before.flatMap Record.encode ++ r.encode ++ post) {fuel : Nat}
    (hfuel : before.length + 2 ≤ fuel) :
    ∃ f d', cpioFileOpenPath fuel d cpioFileNew sb r.name = some (0, f, d') ∧
      OpenFile d' r.data f 0 := by
  obtain ⟨i, hi⟩ := cfdataAlloc_of_free hfree
  obtain ⟨af, hdev, haf, hpos⟩ := h.fileOpenDev (by omega)
  obtain ⟨off, hoff, hfind⟩ := cpioFindPathLoop_records r.name_string rfl before hbefore hfuel
    (i := 0) (h := CpioHeader.reset 0#32) rfl haf
    (show data = [] ++ before.flatMap Record.encode ++ r.encode ++ post by simpa using hdata) hpos
  obtain ⟨d', hopen, hdev', hslot⟩ := cpioFileOpenPath_found r.name_nonempty hi hdev hfind rfl
  refine ⟨_, d', hopen, rfl, rfl, rfl, by simp, i, before.flatMap Record.encode ++ r.front,
    r.dataPad ++ post, rfl, ?_⟩
  have hsplit : before.flatMap Record.encode ++ r.front ++ r.data ++ (r.dataPad ++ post) = data := by
    rw [hdata, Record.encode]
    simp only [List.append_assoc]
  rw [hslot, hdev', hsplit]
  refine ⟨haf.at _, ?_, hlt⟩
  have hfoff : (r.decoded off).hoff + (r.decoded off).hsize + (r.decoded off).psize +
      (r.decoded off).ppad = BitVec.ofNat 32 (off + 110 + (r.name.length + 1) + r.namePad.length) := by
    rw [BitVec.ofNat_add, BitVec.ofNat_add, BitVec.ofNat_add]
    rfl
  dsimp only
  rw [hfoff, List.length_append, r.length_front, hoff]
  simp only [List.nil_append]
  congr 1
  omega

end Open

-- ---------------------------------------------------------------------------
-- Reading back
-- ---------------------------------------------------------------------------

/-- The first entry of a name in the archive. -/
theorem Archive.first {a : Archive} {p : List Byte} (hp : ∃ r ∈ a.entries, r.name = p) :
    ∃ r, ∃ before : List Record, ∃ post, a.entries.find? (fun r => r.name = p) = some r ∧ r.name = p ∧
      (∀ b ∈ before, b.name ≠ p ∧ b.name ≠ trailerName) ∧ before.length < a.entries.length ∧
      a.bytes = before.flatMap Record.encode ++ r.encode ++ post := by
  obtain ⟨r, hfind⟩ : ∃ r, a.entries.find? (fun r => r.name = p) = some r := by
    obtain ⟨r, hr, hname⟩ := hp
    rw [← Option.isSome_iff_exists, List.find?_isSome]
    exact ⟨r, hr, by simpa using hname⟩
  obtain ⟨hname, before, after, hentries, hnot⟩ := List.find?_eq_some_iff_append.mp hfind
  have hbefore : ∀ b ∈ before, b.name ≠ p ∧ b.name ≠ trailerName := by
    intro b hb
    exact ⟨by simpa using hnot b hb, a.entries_name b (by rw [hentries]; simp [hb])⟩
  refine ⟨r, before, after.flatMap Record.encode ++ a.trailer.encode ++ a.rest, hfind, by simpa using hname,
    hbefore, ?_, ?_⟩
  · rw [hentries, List.length_append, List.length_cons]
    omega
  · rw [Archive.bytes, hentries, List.flatMap_append, List.flatMap_cons]
    simp only [List.append_assoc]

/-- **An archived file reads back as it was stored.** Opening the name of an
entry gives the first entry of that name; whatever the counts of the reads, the
pieces they return make up its data, and after that every read returns 0. -/
theorem cpiofs_reads_back (a : Archive) (d : Drivers) (sb : Superblock) (rd : Nat)
    (hmount : MountedArchive d sb rd a.bytes)
    (hfree : ∃ i < MAX_CPIO_OPEN, (d.cfdatas i).af.fOp = none)
    (p : List Byte) (hp : ∃ r ∈ a.entries, r.name = p) :
    ∃ r N, a.entries.find? (fun r => r.name = p) = some r ∧ ∀ fuel, N ≤ fuel →
      ∃ f d', cpioFileOpenPath fuel d cpioFileNew sb p = some (0, f, d') ∧
        f.fStat.fSize.toInt = r.data.length ∧
        ∀ counts : Nat → BitVec 32, (∀ k, 0 < (counts k).toNat ∧ (counts k).toNat < 2 ^ 30) →
          ∃ K, (List.range K).flatMap (readChunk d' f counts) = r.data ∧
            (∀ k < K, 0 < readRet d' f counts k) ∧
            (∀ k, readRet d' f counts k = (readChunk d' f counts k).length) ∧
            ∀ k, K ≤ k → readRet d' f counts k = 0 := by
  obtain ⟨r, before, post, hfind, rfl, hbefore, -, hdata⟩ := Archive.first hp
  have hlt : a.bytes.length < 2 ^ 30 := a.size_lt
  refine ⟨r, before.length + 2, hfind, fun fuel hfuel => ?_⟩
  obtain ⟨f, d', hopen, hfile⟩ := hmount.open hlt hfree hbefore hdata hfuel
  refine ⟨f, d', hopen, ?_, fun counts hcounts => hfile.reads hcounts⟩
  have hsize : r.data.length < 2 ^ 30 := by
    have := congrArg List.length hdata
    rw [List.length_append, List.length_append, r.length_encode] at this
    omega
  rw [hfile.size, toInt_ofNat (by omega)]

/-- A file `hello` with three bytes. -/
def helloEntry : Record where
  header := bytes ("070701" ++ "00000001" ++ "000081A4" ++ "00000000" ++ "00000000" ++ "00000001" ++
    "00000000" ++ "00000003" ++ "00000000" ++ "00000000" ++ "00000000" ++ "00000000" ++
    "00000006" ++ "00000000")
  name := bytes "hello"
  namePad := []
  data := bytes "hi!"
  dataPad := [0#8]
  header_length := by decide
  magic := by decide
  fields_hex := by decide +kernel
  namesize := by decide +kernel
  filesize := by decide +kernel
  name_nonempty := by decide
  name_string := by decide
  name_fits := by decide
  namePad_length := by decide
  dataPad_length := by decide

def helloTrailer : Record where
  header := bytes ("070701" ++ "00000000" ++ "00000000" ++ "00000000" ++ "00000000" ++ "00000001" ++
    "00000000" ++ "00000000" ++ "00000000" ++ "00000000" ++ "00000000" ++ "00000000" ++
    "0000000B" ++ "00000000")
  name := trailerName
  namePad := [0#8, 0#8, 0#8]
  data := []
  dataPad := []
  header_length := by decide
  magic := by decide
  fields_hex := by decide +kernel
  namesize := by decide +kernel
  filesize := by decide +kernel
  name_nonempty := by decide
  name_string := by decide
  name_fits := by decide
  namePad_length := by decide
  dataPad_length := no_dataPad

/-- An archive with one file. -/
def helloArchive : Archive where
  entries := [helloEntry]
  trailer := helloTrailer
  rest := []
  entries_name := by decide
  trailer_name := rfl
  trailer_data := rfl
  size_lt := by decide +kernel

/-- The archive in the first ramdisk, and no file open. -/
def Archive.drivers (a : Archive) : Drivers where
  dev := ⟨fun maj => if maj = MAJ_RAMDISK then some .ramdisk else none,
    fun i => if i = 0 then some a.bytes else none⟩
  cfdatas := fun _ => ⟨File.zero DevOps, CpioHeader.reset 0#32, 0#32⟩

/-- The disk of an archive is small. -/
theorem Archive.drivers_small (a : Archive) (rd : Nat) (data : List Byte)
    (h : a.drivers.dev.ramdisks rd = some data) : data.length < 2 ^ 32 := by
  simp only [Archive.drivers, Option.ite_none_right_eq_some, Option.some.injEq] at h
  rw [← h.2]
  exact Nat.lt_trans a.size_lt (by decide)

theorem cpiofs_reads_back_hello :
    ∃ r N, helloArchive.entries.find? (fun r => r.name = bytes "hello") = some r ∧
      ∀ fuel, N ≤ fuel →
      ∃ f d', cpioFileOpenPath fuel helloArchive.drivers cpioFileNew ⟨0x400#32, bytes "/"⟩ (bytes "hello") =
          some (0, f, d') ∧
        f.fStat.fSize.toInt = r.data.length ∧
        ∀ counts : Nat → BitVec 32, (∀ k, 0 < (counts k).toNat ∧ (counts k).toNat < 2 ^ 30) →
          ∃ K, (List.range K).flatMap (readChunk d' f counts) = r.data ∧
            (∀ k < K, 0 < readRet d' f counts k) ∧
            (∀ k, readRet d' f counts k = (readChunk d' f counts k).length) ∧
            ∀ k, K ≤ k → readRet d' f counts k = 0 :=
  cpiofs_reads_back helloArchive helloArchive.drivers ⟨0x400#32, bytes "/"⟩ 0 ⟨rfl, rfl, by decide, by decide⟩
    ⟨0, by decide, rfl⟩ (bytes "hello") ⟨helloEntry, List.mem_singleton_self _, rfl⟩

end Munix
