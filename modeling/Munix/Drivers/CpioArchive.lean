import Munix.Drivers.Cpiofs

/-!
# Munix — well-formed archives

The "newc" format, as a description of its own: a record is a header, a name
with its terminator, file data, and padding to 4-byte alignment; an archive is a
list of records, the `TRAILER!!!` record, and whatever fills the last block.

Over it, what the reading functions of `cpiofs.c` do at a record: a ramdisk read
returns the segment that follows the position (`fileRead_segment`), and
`cpio_read_header` decodes the record and leaves the position at its data
(`cpioReadHeader_record`).
-/

namespace Munix

-- ---------------------------------------------------------------------------
-- The format
-- ---------------------------------------------------------------------------

/-- The value of a hexadecimal digit. -/
def hexDigit (c : Byte) : Option Nat :=
  if byte '0' ≤ c ∧ c ≤ byte '9' then some (c.toNat - 48)
  else if byte 'a' ≤ c ∧ c ≤ byte 'f' then some (c.toNat - 87)
  else if byte 'A' ≤ c ∧ c ≤ byte 'F' then some (c.toNat - 55)
  else none

/-- The number that a text of hexadecimal digits stands for, after the digits of
`v`. -/
def hexValueFrom : Nat → List Byte → Option Nat
  | v, [] => some v
  | v, c :: text =>
    match hexDigit c with
    | none => none
    | some digit => hexValueFrom (v * 16 + digit) text

def hexValue (text : List Byte) : Option Nat := hexValueFrom 0 text

/-- Bytes to the next multiple of 4. -/
def pad4 (n : Nat) : Nat := (4 - n % 4) % 4

/-- A record of an archive, with a name of any length. -/
structure Entry where
  header   : List Byte
  name     : List Byte
  namePad  : List Byte
  data     : List Byte
  dataPad  : List Byte
  header_length  : header.length = 110
  magic          : header.take 6 = bytes "070701"
  fields_hex     : ∀ i < 13, (hexValue ((header.drop (6 + 8 * i)).take 8)).isSome
  namesize       : hexValue ((header.drop 94).take 8) = some (name.length + 1)
  filesize       : hexValue ((header.drop 54).take 8) = some data.length
  name_nonempty  : name ≠ []
  name_string    : IsString name
  namePad_length : namePad.length = pad4 (110 + (name.length + 1))
  dataPad_length : dataPad.length = pad4 data.length

/-- A record whose name fits `pathname`. -/
structure Record extends Entry where
  name_fits : name.length + 1 ≤ PATH_MAX

theorem no_dataPad : ([] : List Byte).length = pad4 ([] : List Byte).length := rfl

/-- The part of a record before its data. -/
def Record.front (r : Record) : List Byte := r.header ++ (r.name ++ [0#8]) ++ r.namePad

def Record.encode (r : Record) : List Byte := r.front ++ r.data ++ r.dataPad

/-- An archive, ended by its trailer record. -/
structure Archive where
  entries      : List Record
  trailer      : Record
  rest         : List Byte
  entries_name : ∀ r ∈ entries, r.name ≠ bytes "TRAILER!!!"
  trailer_name : trailer.name = bytes "TRAILER!!!"
  trailer_data : trailer.data = []
  size_lt      : (entries.flatMap Record.encode ++ trailer.encode ++ rest).length < 2 ^ 30

def Archive.bytes (a : Archive) : List Byte :=
  a.entries.flatMap Record.encode ++ a.trailer.encode ++ a.rest

theorem Record.length_front (r : Record) :
    r.front.length = 110 + (r.name.length + 1) + r.namePad.length := by
  simp only [Record.front, List.length_append, List.length_cons, List.length_nil, r.header_length]

-- ---------------------------------------------------------------------------
-- Numbers and padding
-- ---------------------------------------------------------------------------

theorem cpioDigit_eq (c : Byte) : cpioDigit c = hexDigit c := by
  revert c
  decide +kernel

theorem hexDigit_lt {c : Byte} {digit : Nat} (h : hexDigit c = some digit) : digit < 16 := by
  have hall : ∀ c : Byte, ∀ digit ∈ hexDigit c, digit < 16 := by decide +kernel
  exact hall c digit h

theorem cpioAtoiLoop_eq {text : List Byte} {v value : Nat} (h : hexValueFrom v text = some value) :
    cpioAtoiLoop 16 (BitVec.ofNat 32 v) text = (BitVec.ofNat 32 value).toInt := by
  induction text generalizing v with
  | nil =>
    obtain rfl : v = value := by simpa [hexValueFrom] using h
    rfl
  | cons c text ih =>
    rw [hexValueFrom] at h
    rw [cpioAtoiLoop, cpioDigit_eq]
    cases hc : hexDigit c with
    | none => simp [hc] at h
    | some digit =>
      have hlt := hexDigit_lt hc
      simp only [hc] at h
      have hstep : BitVec.ofNat 32 v * BitVec.ofNat 32 16 + BitVec.ofNat 32 digit =
          BitVec.ofNat 32 (v * 16 + digit) := by
        rw [BitVec.ofNat_add, BitVec.ofNat_mul]
      simp only [if_neg (show ¬ 16 ≤ digit by omega), hstep]
      exact ih h

/-- A field decodes to its value, as a word. -/
theorem ofInt_newcAtoi {text : List Byte} {value : Nat} (h : hexValue text = some value) :
    BitVec.ofInt 32 (newcAtoi text) = BitVec.ofNat 32 value := by
  have heq : newcAtoi text = (BitVec.ofNat 32 value).toInt := cpioAtoiLoop_eq h
  rw [heq, BitVec.ofInt_toInt]

/-- Padding to a multiple of 4, also where the multiple is not a word any more. -/
theorem alignUp4_sub_toNat (x : BitVec 32) : (alignUp x 4#32 - x).toNat = pad4 x.toNat := by
  have hlow := and_not_low_toNat (x + 3#32) 2
  have hup : (alignUp x 4#32).toNat = (x + 3#32).toNat / 4 * 4 := hlow
  have hx := x.isLt
  have hadd : (x + 3#32).toNat = (x.toNat + 3) % 2 ^ 32 := by
    rw [BitVec.toNat_add]
    rfl
  rw [BitVec.toNat_sub, hup, hadd]
  unfold pad4
  omega

theorem alignUp4_sub {x : BitVec 32} {n : Nat} (hx : x = BitVec.ofNat 32 n) (hn : n < 2 ^ 31) :
    alignUp x 4#32 - x = BitVec.ofNat 32 (pad4 n) := by
  have hxn : x.toNat = n := by bv_omega
  apply BitVec.eq_of_toNat_eq
  rw [alignUp4_sub_toNat, hxn, BitVec.toNat_ofNat, Nat.mod_eq_of_lt]
  unfold pad4
  omega

-- ---------------------------------------------------------------------------
-- Ramdisk files
-- ---------------------------------------------------------------------------

/-- An open file of a ramdisk that holds `data`. -/
structure DiskFile (dev : Devices) (data : List Byte) (f : File DevOps) : Prop where
  op   : f.fOp = some .ramdisk
  disk : f.fDriverData.bind dev.ramdisks = some data
  size : f.fStat.fSize = BitVec.ofNat 32 data.length
  lt   : data.length < 2 ^ 31

/-- The file at another position. -/
def File.at {Ops : Type} (f : File Ops) (pos : Nat) : File Ops :=
  { f with fPos := BitVec.ofNat 32 pos }

theorem DiskFile.at {dev : Devices} {data : List Byte} {f : File DevOps}
    (h : DiskFile dev data f) (pos : Nat) : DiskFile dev data (f.at pos) :=
  ⟨h.op, h.disk, h.size, h.lt⟩

theorem ramdiskLoop_eq {data : List Byte} (hlt : data.length < 2 ^ 31) (count : Nat) {off : Nat}
    (hoff : off ≤ data.length) :
    ramdiskLoop data (BitVec.ofNat 32 data.length) count (BitVec.ofNat 32 off) =
      ((data.drop off).take count, BitVec.ofNat 32 (off + min count (data.length - off))) := by
  induction count generalizing off with
  | zero => simp [ramdiskLoop]
  | succ count ih =>
    rw [ramdiskLoop, slt_ofNat (by omega) hlt]
    by_cases hin : off < data.length
    · have hnat : (BitVec.ofNat 32 off).toNat = off := by
        rw [BitVec.toNat_ofNat, Nat.mod_eq_of_lt (by omega)]
      have hnext : BitVec.ofNat 32 off + 1#32 = BitVec.ofNat 32 (off + 1) := by bv_omega
      have hhead : data.getD off 0#8 = data[off] := by
        simp [List.getD_eq_getElem?_getD, List.getElem?_eq_getElem hin]
      rw [decide_eq_true hin, if_pos rfl, hnat, hnext, ih hin, hhead, List.drop_eq_getElem_cons hin,
        List.take_succ_cons]
      have hoff' : off + 1 + min count (data.length - (off + 1)) =
          off + min (count + 1) (data.length - off) := by omega
      rw [hoff']
    · have hend : off = data.length := by omega
      subst hend
      simp

section Reads

variable {dev : Devices} {data : List Byte} {f : File DevOps}

/-- A read inside a ramdisk returns what is there. -/
theorem DiskFile.read (h : DiskFile dev data f) {off : Nat} (hoff : off ≤ data.length)
    (count : BitVec 32) :
    dev.read .ramdisk f count (BitVec.ofNat 32 off) =
      ⟨((data.drop off).take count.toNat).length, (data.drop off).take count.toNat,
        BitVec.ofNat 32 (off + min count.toNat (data.length - off))⟩ := by
  have hlt := h.lt
  have hpos : (BitVec.ofNat 32 off).slt (BitVec.ofNat 32 0) = false := by
    rw [slt_ofNat (by omega) (by omega)]
    simp
  have hsle := sle_ofNat (m := data.length) (n := off) (by omega) (by omega)
  simp only [Devices.read, ramdiskRead, h.disk, h.size, Option.getD_some, hpos, Bool.false_eq_true,
    if_false, hsle, ramdiskLoop_eq hlt count.toNat hoff]
  split
  next hend =>
    obtain rfl : off = data.length := by
      have := of_decide_eq_true hend
      omega
    simp
  next => rfl

/-- Where a ramdisk is read: never below zero. -/
def diskStart (off : BitVec 32) : Nat := if off.slt 0#32 then 0 else off.toNat

/-- A read anywhere, also before the beginning and behind the end. -/
theorem DiskFile.read_any (h : DiskFile dev data f) (count off : BitVec 32) :
    dev.read .ramdisk f count off =
      ⟨((data.drop (diskStart off)).take count.toNat).length,
        (data.drop (diskStart off)).take count.toNat,
        BitVec.ofNat 32 (diskStart off + ((data.drop (diskStart off)).take count.toNat).length)⟩ := by
  have hstart : (if off.slt 0#32 then 0#32 else off) = BitVec.ofNat 32 (diskStart off) := by
    unfold diskStart
    split
    · rfl
    · rw [BitVec.ofNat_toNat, BitVec.setWidth_eq]
  have hnonneg : (BitVec.ofNat 32 (diskStart off)).slt 0#32 = false := by
    rw [← hstart]
    split
    · rfl
    · next h => simpa using h
  have hsame : dev.read .ramdisk f count off =
      dev.read .ramdisk f count (BitVec.ofNat 32 (diskStart off)) := by
    simp only [Devices.read, ramdiskRead, hstart, hnonneg, Bool.false_eq_true, if_false]
  have hlt := h.lt
  rw [hsame]
  by_cases hin : diskStart off ≤ data.length
  · rw [h.read hin, List.length_take, List.length_drop]
  · -- behind the end there is nothing
    have hnil : data.drop (diskStart off) = [] := List.drop_eq_nil_of_le (by omega)
    have hlt31 : diskStart off < 2 ^ 31 := by
      unfold diskStart
      split
      · decide
      · next hneg =>
        have := off.isLt
        simp only [BitVec.slt, BitVec.toInt] at hneg
        simp at hneg
        omega
    have hend := sle_ofNat (m := data.length) (n := diskStart off) (by omega) hlt31
    have hend : (BitVec.ofNat 32 data.length).sle (BitVec.ofNat 32 (diskStart off)) = true := by
      rw [hend]
      exact decide_eq_true (by omega)
    simp only [Devices.read, ramdiskRead, hnonneg, Bool.false_eq_true, if_false, h.size, hend,
      if_true, hnil, List.take_nil, List.length_nil]
    rfl

/-- Reading the segment that follows the position. -/
theorem fileRead_segment (h : DiskFile dev data f) {pre seg post : List Byte}
    (hdata : data = pre ++ seg ++ post) (hpos : f.fPos = BitVec.ofNat 32 pre.length)
    (hseg : seg ≠ []) {count : BitVec 32} (hcount : count = BitVec.ofNat 32 seg.length) :
    fileRead dev.read f true count = ((seg.length : Int), seg, f.at (pre.length + seg.length)) := by
  have hlt := h.lt
  have hlen : data.length = pre.length + seg.length + post.length := by
    rw [hdata, List.length_append, List.length_append]
  have hseg : 0 < seg.length := List.length_pos_iff.mpr hseg
  have hcnt : count.toNat = seg.length := by
    rw [hcount, BitVec.toNat_ofNat, Nat.mod_eq_of_lt (by omega)]
  have hne : count ≠ 0#32 := by bv_omega
  have hbytes : (data.drop pre.length).take count.toNat = seg := by
    rw [hcnt, hdata, List.append_assoc, List.drop_left, List.take_left]
  have hmin : min count.toNat (data.length - pre.length) = seg.length := by omega
  rw [fileRead_of_op h.op hne, hpos, h.read (show pre.length ≤ data.length by omega), hbytes, hmin]
  rfl

theorem fileLseek_cur (h : DiskFile dev data f) {pos n : Nat} (hpos : f.fPos = BitVec.ofNat 32 pos)
    {off : BitVec 32} (hoff : off = BitVec.ofNat 32 n) :
    fileLseek f off .seekCur = (0, f.at (pos + n)) := by
  simp only [fileLseek, h.op, hpos, hoff, ← BitVec.ofNat_add, File.at]

end Reads

-- ---------------------------------------------------------------------------
-- Reading a record
-- ---------------------------------------------------------------------------

theorem overwrite_zero (buf bs : List Byte) : overwrite buf 0 bs = bs ++ buf.drop bs.length := by
  simp [overwrite]

theorem overwrite_append {bs xs cs : List Byte} {i : Nat} (hi : i = bs.length)
    (hlen : cs.length = xs.length) : overwrite (bs ++ xs) i cs = bs ++ cs := by
  subst hi
  simp [overwrite, hlen]

/-- The raw header of a record at offset `off`. -/
def Record.rawHeader (r : Record) (off : Nat) : CpioHeader :=
  { CpioHeader.reset (BitVec.ofNat 32 off) with
    fmt := .newc, bytes := r.header, hsize := BitVec.ofNat 32 NEWC_HSIZE }

/-- The header with its sizes. -/
def Record.sizedHeader (r : Record) (off : Nat) : CpioHeader :=
  { r.rawHeader off with
    psize := BitVec.ofNat 32 (r.name.length + 1)
    fsize := BitVec.ofNat 32 r.data.length
    ppad := BitVec.ofNat 32 r.namePad.length
    fpad := BitVec.ofNat 32 r.dataPad.length }

/-- The header with its name. -/
def Record.namedHeader (r : Record) (off : Nat) : CpioHeader :=
  { r.sizedHeader off with
    pathname := r.name ++ List.replicate (PATH_MAX - r.name.length) 0#8 }

/-- The decoded header of a record at offset `off`. -/
def Record.decoded (r : Record) (off : Nat) : CpioHeader :=
  { r.namedHeader off with isEndmarker := decide (r.data = [] ∧ r.name = trailerName) }

theorem Record.namedHeader_path (r : Record) (off : Nat) : (r.namedHeader off).path = r.name := by
  have hfits := r.name_fits
  have hall : ∀ c ∈ r.name, (decide (c ≠ 0#8)) = true := by
    intro c hc
    have : c ≠ 0#8 := fun h => r.name_string (h ▸ hc)
    simpa using this
  have hpad : List.replicate (PATH_MAX - r.name.length) 0#8 =
      0#8 :: List.replicate (PATH_MAX - r.name.length - 1) 0#8 := by
    rw [← List.replicate_succ, Nat.sub_add_cancel (by omega)]
  simp only [CpioHeader.path, Record.namedHeader, List.takeWhile_append_of_pos hall, hpad]
  simp

section AtRecord

variable {dev : Devices} {data : List Byte} {f : File DevOps} {pre post : List Byte} {r : Record}

/-- Reading a header with the right magic number. -/
theorem cpioReadHeaderRaw_newc (h : DiskFile dev data f) {header : List Byte}
    (hlen : header.length = 110) (hmagic : header.take 6 = newcMagic)
    (hdata : data = pre ++ header ++ post) (hpos : f.fPos = BitVec.ofNat 32 pre.length) :
    cpioReadHeaderRaw dev f = (110, f.at (pre.length + 110),
      { CpioHeader.reset (BitVec.ofNat 32 pre.length) with
        fmt := .newc, bytes := header, hsize := BitVec.ofNat 32 NEWC_HSIZE }) := by
  have hsplit : header.take 6 ++ header.drop 6 = header := List.take_append_drop 6 header
  have htake : (header.take 6).length = 6 := by simp [hlen]
  have hdrop : (header.drop 6).length = 104 := by simp [hlen]
  -- the magic number
  have hread₁ : fileRead dev.read f true 6#32 = (6, header.take 6, f.at (pre.length + 6)) := by
    have hseg : data = pre ++ header.take 6 ++ (header.drop 6 ++ post) := by
      rw [hdata]
      conv_lhs => rw [← hsplit]
      simp only [List.append_assoc]
    have hne : header.take 6 ≠ [] := by
      intro h
      rw [h] at htake
      cases htake
    rw [fileRead_segment h hseg hpos hne (by rw [htake]), htake]
    rfl
  -- the rest of the header
  have hread₂ : fileRead dev.read (f.at (pre.length + 6)) true 104#32 =
      (104, header.drop 6, f.at (pre.length + 110)) := by
    have hseg : data = (pre ++ header.take 6) ++ header.drop 6 ++ post := by
      rw [hdata]
      conv_lhs => rw [← hsplit]
      simp only [List.append_assoc]
    have hne : header.drop 6 ≠ [] := by
      intro h
      rw [h] at hdrop
      cases hdrop
    have hpos' : (f.at (pre.length + 6)).fPos =
        BitVec.ofNat 32 (pre ++ header.take 6).length := by
      rw [List.length_append, htake]
      rfl
    rw [fileRead_segment (h.at _) hseg hpos' hne (by rw [hdrop]), hdrop, List.length_append, htake]
    rfl
  have hzero : overwrite (List.replicate NEWC_HSIZE 0#8) 0 (header.take 6) =
      header.take 6 ++ List.replicate 104 0#8 := by
    rw [overwrite_zero, htake, NEWC_HSIZE, List.drop_replicate]
  have hmagic : (header.take 6 ++ List.replicate 104 0#8).take 6 = newcMagic := by
    rw [List.take_append_of_le_length (by omega), List.take_take]
    exact hmagic
  have hbytes : overwrite (header.take 6 ++ List.replicate 104 0#8) 6 (header.drop 6) = header := by
    rw [overwrite_append htake.symm (by simp [hdrop]), hsplit]
  have hcount : BitVec.ofNat 32 NEWC_HSIZE - BitVec.ofInt 32 6 = 104#32 := by decide
  simp only [cpioReadHeaderRaw, hread₁, CpioHeader.reset, hzero, hmagic, hcount, hread₂, Int.reduceToNat,
    hbytes]
  simp [hpos]

theorem cpioReadHeaderRaw_record (h : DiskFile dev data f) (hdata : data = pre ++ r.encode ++ post)
    (hpos : f.fPos = BitVec.ofNat 32 pre.length) :
    cpioReadHeaderRaw dev f = (110, f.at (pre.length + 110), r.rawHeader pre.length) := by
  have hseg : data = pre ++ r.header ++
      ((r.name ++ [0#8]) ++ r.namePad ++ r.data ++ r.dataPad ++ post) := by
    rw [hdata, Record.encode, Record.front]
    simp only [List.append_assoc]
  exact cpioReadHeaderRaw_newc h r.header_length r.magic hseg hpos

theorem cpiohDecodeSizes_record {off : Nat} (hlt : r.data.length < 2 ^ 31) :
    cpiohDecodeSizes (r.rawHeader off) = (0, r.sizedHeader off) := by
  have hfits := r.name_fits
  have hpsize : BitVec.ofInt 32 (newcAtoi (cNamesize (r.rawHeader off))) =
      BitVec.ofNat 32 (r.name.length + 1) := ofInt_newcAtoi r.namesize
  have hfsize : BitVec.ofInt 32 (newcAtoi (cFilesize (r.rawHeader off))) =
      BitVec.ofNat 32 r.data.length := ofInt_newcAtoi r.filesize
  have hppad : alignUp (BitVec.ofNat 32 NEWC_HSIZE + BitVec.ofNat 32 (r.name.length + 1)) 4#32 -
      (BitVec.ofNat 32 NEWC_HSIZE + BitVec.ofNat 32 (r.name.length + 1)) =
        BitVec.ofNat 32 r.namePad.length := by
    rw [← BitVec.ofNat_add, r.namePad_length]
    exact alignUp4_sub rfl (by unfold PATH_MAX at hfits; omega)
  have hfpad : alignUp (BitVec.ofNat 32 r.data.length) 4#32 - BitVec.ofNat 32 r.data.length =
      BitVec.ofNat 32 r.dataPad.length := by
    rw [r.dataPad_length]
    exact alignUp4_sub rfl hlt
  have hhsize : (r.rawHeader off).hsize = BitVec.ofNat 32 NEWC_HSIZE := rfl
  have hfmt : (r.rawHeader off).fmt = .newc := rfl
  simp only [cpiohDecodeSizes, hfmt, hpsize, hfsize, hhsize, hppad, hfpad]
  rfl

theorem cpioReadPathname_record {fuel off : Nat} (hfuel : 2 ≤ fuel) (h : DiskFile dev data f)
    (hdata : data = pre ++ (r.name ++ [0#8]) ++ post)
    (hpos : f.fPos = BitVec.ofNat 32 pre.length) :
    cpioReadPathname dev fuel f (r.sizedHeader off) =
      some (((r.name.length + 1 + r.namePad.length : Nat) : Int),
        f.at (pre.length + (r.name.length + 1) + r.namePad.length),
        r.namedHeader off) := by
  have hfits := r.name_fits
  have hfits' : r.name.length + 1 ≤ 128 := hfits
  have hpsize : (r.sizedHeader off).psize.toNat = r.name.length + 1 := by
    have : (BitVec.ofNat 32 (r.name.length + 1)).toNat = r.name.length + 1 := by
      rw [BitVec.toNat_ofNat, Nat.mod_eq_of_lt (by omega)]
    exact this
  have hlen : (r.name ++ [0#8]).length = r.name.length + 1 := by simp
  obtain ⟨fuel, rfl⟩ := Nat.exists_eq_add_of_le' hfuel
  -- a single read gets the whole name
  have hloop : readPathnameLoop dev (r.name.length + 1) (fuel + 2) f
      (List.replicate PATH_MAX 0#8) 0 =
        some (((r.name.length + 1 : Nat) : Int), f.at (pre.length + (r.name.length + 1)),
          r.name ++ List.replicate (PATH_MAX - r.name.length) 0#8) := by
    have hread := fileRead_segment h hdata hpos (by simp)
      (show BitVec.ofNat 32 (r.name.length + 1 - 0) = _ by rw [hlen, Nat.sub_zero])
    rw [hlen] at hread
    have hname : overwrite (List.replicate PATH_MAX 0#8) 0 (r.name ++ [0#8]) =
        r.name ++ List.replicate (PATH_MAX - r.name.length) 0#8 := by
      rw [overwrite_zero, hlen, List.drop_replicate, List.append_assoc, List.singleton_append,
        ← List.replicate_succ]
      congr 2
      omega
    rw [readPathnameLoop, if_pos (by omega), hread]
    simp only [hname]
    rw [if_neg (by omega), readPathnameLoop, if_neg (by omega)]
    simp
  have hpath : (r.sizedHeader off).pathname = List.replicate PATH_MAX 0#8 := rfl
  have hppad : (r.sizedHeader off).ppad = BitVec.ofNat 32 r.namePad.length := rfl
  have hsmall : r.namePad.length < 4 := by
    rw [r.namePad_length, pad4]
    omega
  rw [cpioReadPathname, hpsize, Nat.min_eq_left hfits, hpath, hloop]
  simp only [hpsize, hppad]
  rw [if_neg (by omega), if_neg (by omega)]
  split
  next hz =>
    have hnil : r.namePad.length = 0 := by bv_omega
    simp [hnil, Record.namedHeader, Record.sizedHeader]
  next hnz =>
    have hnat : (BitVec.ofNat 32 r.namePad.length).toNat = r.namePad.length := by
      rw [BitVec.toNat_ofNat, Nat.mod_eq_of_lt (by omega)]
    rw [fileLseek_cur (h.at _) rfl rfl, hnat]
    simp [File.at, Record.namedHeader, Record.sizedHeader]

/-- **Reading a record's header** decodes it and leaves the position at the
record's data. -/
theorem cpioReadHeader_record (fuel : Nat) (hfuel : 2 ≤ fuel) (h : DiskFile dev data f)
    (hdata : data = pre ++ r.encode ++ post) (hpos : f.fPos = BitVec.ofNat 32 pre.length) :
    cpioReadHeader dev fuel f =
      some ((r.front.length : Int), f.at (pre.length + r.front.length), r.decoded pre.length) := by
  have hlt := h.lt
  have hsize : r.data.length < 2 ^ 31 := by
    have : data.length = pre.length + (r.front.length + r.data.length + r.dataPad.length) +
        post.length := by
      rw [hdata, Record.encode]
      simp only [List.length_append]
    omega
  have hname : data = (pre ++ r.header) ++ (r.name ++ [0#8]) ++
      (r.namePad ++ r.data ++ r.dataPad ++ post) := by
    rw [hdata, Record.encode, Record.front]
    simp only [List.append_assoc]
  have hpos' : (f.at (pre.length + 110)).fPos = BitVec.ofNat 32 (pre ++ r.header).length := by
    rw [List.length_append, r.header_length]
    rfl
  have hend : (decide (r.data = [] ∧ r.name = trailerName)) =
      ((r.namedHeader pre.length).fsize == 0#32 &&
        strncmp (r.namedHeader pre.length).path trailerName PATH_MAX == 0) := by
    have hfsize : (r.namedHeader pre.length).fsize = BitVec.ofNat 32 r.data.length := rfl
    have hcmp := strcmp_eq_zero r.name_string (show IsString trailerName by decide)
    rw [hfsize, r.namedHeader_path, strncmp_eq_strcmp (by have := r.name_fits; omega)]
    have hz : BitVec.ofNat 32 r.data.length = 0#32 ↔ r.data = [] := by
      rw [← List.length_eq_zero_iff]
      bv_omega
    by_cases h₁ : r.data = [] <;> by_cases h₂ : r.name = trailerName <;> simp_all
  rw [cpioReadHeader, cpioReadHeaderRaw_record h hdata hpos]
  simp only [cpiohDecodeSizes_record hsize, cpioReadPathname_record hfuel (h.at _) hname hpos']
  rw [if_neg (by decide), if_neg (by decide), if_neg (by omega)]
  have hct : (110 : Int) + ((r.name.length + 1 + r.namePad.length : Nat) : Int) =
      (r.front.length : Int) := by
    rw [r.length_front]
    omega
  have hat : (pre ++ r.header).length + (r.name.length + 1) + r.namePad.length =
      pre.length + r.front.length := by
    rw [List.length_append, r.header_length, r.length_front]
    omega
  rw [hct, hat]
  rw [Record.decoded, hend]
  rfl

end AtRecord

end Munix
