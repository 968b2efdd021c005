import Munix.Drivers.CpioWalk

/-!
# Munix — which headers are accepted

`cpio_read_header` on any bytes, against what a header has to be: 110 characters
with the magic number and hexadecimal sizes, the name and the padding behind it. The
sizes are decoded exactly, up to the largest. But a size that is not hexadecimal is
the error number `-EINVAL` as a size, and neither the header nor the padding are
checked to be there as a whole.

## Results

* `cpioReadHeader_exact_iff` — when exactly the valid headers are accepted.
-/

namespace Munix

-- ---------------------------------------------------------------------------
-- Fields
-- ---------------------------------------------------------------------------

theorem hexValueFrom_lt {text : List Byte} {v value n : Nat} (h : hexValueFrom v text = some value)
    (hv : v < 16 ^ n) : value < 16 ^ (n + text.length) := by
  induction text generalizing v n with
  | nil =>
    obtain rfl : v = value := by simpa [hexValueFrom] using h
    exact hv
  | cons c text ih =>
    rw [hexValueFrom] at h
    cases hc : hexDigit c with
    | none => simp [hc] at h
    | some digit =>
      simp only [hc] at h
      have hlt := hexDigit_lt hc
      have hstep : n + (c :: text).length = n + 1 + text.length := by
        rw [List.length_cons, Nat.add_assoc, Nat.add_comm 1]
      rw [hstep]
      exact ih h (by rw [pow_succ]; omega)

/-- A field of 8 characters is a word. -/
theorem hexValue_lt {text : List Byte} {value : Nat} (h : hexValue text = some value)
    (hlen : text.length ≤ 8) : value < 2 ^ 32 := by
  have hlt : value < 16 ^ (0 + text.length) := hexValueFrom_lt h (by decide)
  refine lt_of_lt_of_le hlt ?_
  rw [Nat.zero_add]
  exact Nat.pow_le_pow_right (by decide) hlen

theorem cpioAtoiLoop_none {text : List Byte} {v : Nat} (h : hexValueFrom v text = none)
    (ret : BitVec 32) : cpioAtoiLoop 16 ret text = -EINVAL := by
  induction text generalizing v ret with
  | nil => simp [hexValueFrom] at h
  | cons c text ih =>
    rw [hexValueFrom] at h
    rw [cpioAtoiLoop, cpioDigit_eq]
    cases hc : hexDigit c with
    | none => rfl
    | some digit =>
      simp only [hc] at h
      simp only [if_neg (not_le.mpr (hexDigit_lt hc))]
      exact ih h _

/-- A field that is no number decodes to an error, taken as a size. -/
theorem ofInt_newcAtoi_none {text : List Byte} (h : hexValue text = none) :
    BitVec.ofInt 32 (newcAtoi text) = BitVec.ofInt 32 (-EINVAL) := by
  rw [newcAtoi, cpioAtoi, cpioAtoiLoop_none h]

/-- A NUL character is no digit. -/
theorem hexValueFrom_nul {text : List Byte} (h : 0#8 ∈ text) (v : Nat) :
    hexValueFrom v text = none := by
  induction text generalizing v with
  | nil => simp at h
  | cons c text ih =>
    rw [hexValueFrom]
    rcases List.mem_cons.mp h with rfl | h
    · rfl
    · cases hexDigit c with
      | none => rfl
      | some digit => exact ih h _

-- ---------------------------------------------------------------------------
-- The raw header
-- ---------------------------------------------------------------------------

section Header

variable {dev : Devices} {data : List Byte} {f : File DevOps} {pos : Nat}

/-- A read at any position. -/
theorem DiskFile.fileRead_from (h : DiskFile dev data f) (hpos : pos < 2 ^ 31) {count : BitVec 32}
    (hcount : count ≠ 0#32) :
    fileRead dev.read (f.at pos) true count =
      (((((data.drop pos).take count.toNat).length : Nat) : Int), (data.drop pos).take count.toNat,
        f.at (pos + ((data.drop pos).take count.toNat).length)) := by
  have hstart : diskStart (f.at pos).fPos = pos := diskStart_ofNat hpos
  rw [(h.at pos).fileRead_any hcount, hstart]
  rfl

/-- What is in `h->bytes` when the archive has the bytes `rest`: zeros behind its
end. -/
def rawBytes (rest : List Byte) : List Byte :=
  rest.take NEWC_HSIZE ++ List.replicate (NEWC_HSIZE - rest.length) 0#8

theorem cpioReadHeaderRaw_magic (h : DiskFile dev data f) (hpos : pos < 2 ^ 31)
    (hmagic : (data.drop pos).take 6 = newcMagic) :
    cpioReadHeaderRaw dev (f.at pos) =
      (((min NEWC_HSIZE (data.drop pos).length : Nat) : Int),
        f.at (pos + min NEWC_HSIZE (data.drop pos).length),
        { CpioHeader.reset (BitVec.ofNat 32 pos) with
          fmt := .newc, bytes := rawBytes (data.drop pos), hsize := BitVec.ofNat 32 NEWC_HSIZE }) := by
  have hlt := h.lt
  set rest := data.drop pos with hrest
  have hmlen : (rest.take 6).length = 6 := by rw [hmagic]; rfl
  have hlen : 6 ≤ rest.length := by
    rw [List.length_take] at hmlen
    omega
  have hrestlen : rest.length = data.length - pos := by rw [hrest, List.length_drop]
  have hdrop : data.drop (pos + 6) = rest.drop 6 := by rw [hrest, List.drop_drop]
  have hfirst : overwrite (List.replicate NEWC_HSIZE 0#8) 0 (rest.take 6) =
      rest.take 6 ++ List.replicate 104 0#8 := by
    rw [overwrite_zero, hmlen]
    rfl
  have htake : (rest.take 6 ++ List.replicate 104 0#8).take 6 = newcMagic := by
    rw [List.take_append_of_le_length (by omega), List.take_take, min_self, hmagic]
  have hcount : BitVec.ofNat 32 NEWC_HSIZE - BitVec.ofInt 32 ((6 : Nat) : Int) =
      BitVec.ofNat 32 104 := by decide
  have hsecond : ((rest.drop 6).take 104).length = min 104 (rest.length - 6) := by
    rw [List.length_take, List.length_drop]
  have hbytes : overwrite (rest.take 6 ++ List.replicate 104 0#8) 6 ((rest.drop 6).take 104) =
      rawBytes rest := by
    have hsplit : rest.take NEWC_HSIZE = rest.take 6 ++ (rest.drop 6).take 104 := by
      rw [show NEWC_HSIZE = 6 + 104 from rfl, List.take_add]
    have hnil : (rest.take 6).drop (6 + min 104 (rest.length - 6)) = [] :=
      List.drop_eq_nil_of_le (by omega)
    unfold overwrite rawBytes
    rw [hsplit, List.take_left' hmlen, List.drop_append, hmlen, List.drop_replicate, hsecond, hnil,
      List.nil_append]
    congr 2
    rw [show NEWC_HSIZE = 110 from rfl]
    omega
  rw [cpioReadHeaderRaw]
  simp only [h.fileRead_from hpos (show (6#32) ≠ 0#32 by decide), show (6#32).toNat = 6 from rfl,
    ← hrest, hmlen]
  have hreset : (CpioHeader.reset (f.at pos).fPos).bytes = List.replicate NEWC_HSIZE 0#8 := rfl
  rw [if_neg (by decide), if_neg (by decide), hreset, hfirst, if_neg (not_not.mpr htake)]
  simp only [hcount, h.fileRead_from (show pos + 6 < 2 ^ 31 by omega)
    (show BitVec.ofNat 32 104 ≠ 0#32 by decide), hdrop]
  rw [show (BitVec.ofNat 32 104).toNat = 104 from rfl, hsecond, if_neg (by omega)]
  have hct : (((6 : Nat) : Int)).toNat = 6 := rfl
  simp only [hct, hbytes]
  have hend : 6 + min 104 (rest.length - 6) = min NEWC_HSIZE rest.length := by
    rw [show NEWC_HSIZE = 110 from rfl]
    omega
  rw [Nat.add_assoc, hend, ← hend]
  refine Prod.ext ?_ rfl
  push_cast
  rfl

/-- Bytes without the magic number are refused. -/
theorem cpioReadHeaderRaw_refused (h : DiskFile dev data f) (hpos : pos < 2 ^ 31)
    (hmagic : (data.drop pos).take 6 ≠ newcMagic) :
    (cpioReadHeaderRaw dev (f.at pos)).1 < 0 := by
  set rest := data.drop pos with hrest
  have htake : (overwrite (List.replicate NEWC_HSIZE 0#8) 0 (rest.take 6)).take 6 ≠ newcMagic := by
    rw [overwrite_zero]
    by_cases hlen : 6 ≤ rest.length
    · rw [List.take_append_of_le_length (by rw [List.length_take]; omega), List.take_take, min_self]
      exact hmagic
    · -- there is a zero among the characters
      have hshort : rest.take 6 = rest := List.take_of_length_le (by omega)
      have hmem : 0#8 ∈ (rest.take 6 ++ (List.replicate NEWC_HSIZE 0#8).drop (rest.take 6).length).take 6 := by
        rw [hshort, List.drop_replicate, List.take_append, List.take_replicate]
        refine List.mem_append_right _ (List.mem_replicate.mpr ⟨?_, rfl⟩)
        rw [show NEWC_HSIZE = 110 from rfl]
        omega
      intro heq
      rw [heq] at hmem
      exact absurd hmem (by decide)
  rw [cpioReadHeaderRaw]
  simp only [h.fileRead_from hpos (show (6#32) ≠ 0#32 by decide), show (6#32).toNat = 6 from rfl,
    ← hrest]
  have hreset : (CpioHeader.reset (f.at pos).fPos).bytes = List.replicate NEWC_HSIZE 0#8 := rfl
  rw [if_neg (by omega), hreset, if_pos htake]
  split
  · exact (by decide : -EINVAL < 0)
  · exact (by decide : -EINVAL < 0)

-- ---------------------------------------------------------------------------
-- Sizes
-- ---------------------------------------------------------------------------

/-- The field of 8 characters at `off`. -/
def fieldAt (rest : List Byte) (off : Nat) : List Byte := (rest.drop off).take 8

theorem fieldAt_rawBytes {rest : List Byte} {off : Nat} (hoff : off + 8 ≤ rest.length)
    (hsz : off + 8 ≤ NEWC_HSIZE) : fieldAt (rawBytes rest) off = fieldAt rest off := by
  have hlen : (rest.take NEWC_HSIZE).length = min NEWC_HSIZE rest.length := List.length_take
  unfold fieldAt rawBytes
  rw [List.drop_append_of_le_length (by omega), List.take_append_of_le_length
    (by rw [List.length_drop]; omega), List.drop_take, List.take_take, Nat.min_eq_left (by omega)]

/-- A field that the archive cuts off has a NUL character. -/
theorem hexValue_rawBytes_cut {rest : List Byte} {off : Nat} (hoff : rest.length < off + 8)
    (hsz : off + 8 ≤ NEWC_HSIZE) : hexValue (fieldAt (rawBytes rest) off) = none := by
  refine hexValueFrom_nul ?_ 0
  have hlen : (rest.take NEWC_HSIZE).length = rest.length := by
    rw [List.length_take]
    omega
  unfold fieldAt rawBytes
  rw [List.drop_append, hlen, List.take_append, List.drop_replicate, List.take_replicate,
    List.length_drop, hlen]
  refine List.mem_append_right _ (List.mem_replicate.mpr ⟨?_, rfl⟩)
  omega

/-- What is at the position: a complete header, with its name and the padding. -/
structure ValidHeader (rest : List Byte) (psize fsize : Nat) : Prop where
  complete : NEWC_HSIZE ≤ rest.length
  magic    : rest.take 6 = newcMagic
  namesize : hexValue (fieldAt rest 94) = some psize
  filesize : hexValue (fieldAt rest 54) = some fsize
  fits     : psize ≤ PATH_MAX
  name     : NEWC_HSIZE + psize + pad4 (NEWC_HSIZE + psize) ≤ rest.length

/-- The header is decoded exactly, and the file is at the first byte of its data. -/
structure DecodedExactly (pos psize fsize : Nat) (f : File DevOps) (h : CpioHeader) : Prop where
  psize_eq : h.psize.toNat = psize
  fsize_eq : h.fsize.toNat = fsize
  ppad_eq  : h.ppad.toNat = pad4 (NEWC_HSIZE + psize)
  fpad_eq  : h.fpad.toNat = pad4 fsize
  pos_eq   : f.fPos.toNat = pos + (NEWC_HSIZE + psize + pad4 (NEWC_HSIZE + psize))

/-- Exactly the valid headers are accepted, and decoded exactly. -/
def HeaderLaw (dev : Devices) (data : List Byte) (f : File DevOps) (pos : Nat) : Prop :=
  ((∃ fuel res f' h, cpioReadHeader dev fuel (f.at pos) = some (res, f', h) ∧ 0 ≤ res) ↔
    ∃ psize fsize, ValidHeader (data.drop pos) psize fsize) ∧
  ∀ fuel res f' h, cpioReadHeader dev fuel (f.at pos) = some (res, f', h) → 0 ≤ res →
    ∃ psize fsize, ValidHeader (data.drop pos) psize fsize ∧ DecodedExactly pos psize fsize f' h

/-- A header that has the magic number, a name size and the whole name also has a
file size, the rest of the header and the padding. -/
def HeaderSound (rest : List Byte) : Prop :=
  ∀ psize, rest.take 6 = newcMagic → 102 ≤ rest.length →
    hexValue (fieldAt rest 94) = some psize → psize ≤ PATH_MAX →
    min NEWC_HSIZE rest.length + psize ≤ rest.length →
    NEWC_HSIZE ≤ rest.length ∧ (hexValue (fieldAt rest 54)).isSome = true ∧
      NEWC_HSIZE + psize + pad4 (NEWC_HSIZE + psize) ≤ rest.length

/-- The sizes of the header at `pos`. -/
theorem decodedHeader_sizes (h : DiskFile dev data f) (hpos : pos < 2 ^ 31)
    (hmagic : (data.drop pos).take 6 = newcMagic) :
    0 ≤ (cpioReadHeaderRaw dev (f.at pos)).1 ∧
    namePos dev (f.at pos) = pos + min NEWC_HSIZE (data.drop pos).length ∧
    (decodedHeader dev (f.at pos)).psize =
      BitVec.ofInt 32 (newcAtoi (fieldAt (rawBytes (data.drop pos)) 94)) ∧
    (decodedHeader dev (f.at pos)).fsize =
      BitVec.ofInt 32 (newcAtoi (fieldAt (rawBytes (data.drop pos)) 54)) ∧
    (decodedHeader dev (f.at pos)).ppad.toNat =
      pad4 (BitVec.ofNat 32 NEWC_HSIZE + (decodedHeader dev (f.at pos)).psize).toNat ∧
    (decodedHeader dev (f.at pos)).fpad.toNat = pad4 (decodedHeader dev (f.at pos)).fsize.toNat := by
  have hlt := h.lt
  have hend : pos + min NEWC_HSIZE (data.drop pos).length < 2 ^ 32 := by
    rw [List.length_drop, show NEWC_HSIZE = 110 from rfl]
    omega
  have hraw := cpioReadHeaderRaw_magic h hpos hmagic
  refine ⟨by rw [hraw]; exact Int.natCast_nonneg _, ?_, ?_, ?_, ?_, ?_⟩
  · rw [namePos, hraw, File.at, BitVec.toNat_ofNat, Nat.mod_eq_of_lt hend]
  all_goals rw [decodedHeader, hraw]
  · rfl
  · rfl
  · exact alignUp4_sub_toNat _
  · exact alignUp4_sub_toNat _

/-- Where `cpio_read_header` succeeds, and what it has decoded then. -/
theorem cpioReadHeader_accepts (h : DiskFile dev data f) (hpos : pos < 2 ^ 31) {fuel : Nat} {res : Int}
    {f' : File DevOps} {hd : CpioHeader}
    (hread : cpioReadHeader dev fuel (f.at pos) = some (res, f', hd)) (hres : 0 ≤ res) :
    ∃ psize, (data.drop pos).take 6 = newcMagic ∧ 102 ≤ (data.drop pos).length ∧
      hexValue (fieldAt (data.drop pos) 94) = some psize ∧ psize ≤ PATH_MAX ∧
      min NEWC_HSIZE (data.drop pos).length + psize ≤ (data.drop pos).length ∧
      f' = (f.at pos).seek (dataPos dev (f.at pos)) ∧
      hd.psize = (decodedHeader dev (f.at pos)).psize ∧
      hd.fsize = (decodedHeader dev (f.at pos)).fsize ∧
      hd.ppad = (decodedHeader dev (f.at pos)).ppad ∧
      hd.fpad = (decodedHeader dev (f.at pos)).fpad := by
  have hmax : PATH_MAX = 128 := rfl
  have hmagic : (data.drop pos).take 6 = newcMagic := by
    by_contra hmagic
    have hneg := cpioReadHeaderRaw_refused h hpos hmagic
    rw [cpioReadHeader_bad fuel hneg] at hread
    rw [Option.some.inj hread] at hneg
    exact absurd hres (not_le.mpr hneg)
  obtain ⟨hraw, hname, hpsize, -⟩ := decodedHeader_sizes h hpos hmagic
  have hin : namePos dev (f.at pos) + min (decodedHeader dev (f.at pos)).psize.toNat PATH_MAX ≤
      data.length := by
    by_contra hcut
    rw [cpioReadHeader_cut (h.at pos) hraw (not_le.mp hcut)] at hread
    cases hread
  have hread₂ := cpioReadHeader_mono hread (Nat.le_max_left fuel 2)
  rcases cpioReadHeader_inside (h.at pos) hraw hin (Nat.le_max_right fuel 2) with
    ⟨-, f₁, hlong⟩ | ⟨hfits, res₁, -, hok⟩
  · rw [hlong] at hread₂
    obtain ⟨rfl, -, -⟩ := by simpa using hread₂
    exact absurd hres (by decide)
  · rw [hok] at hread₂
    obtain ⟨rfl, rfl, rfl⟩ := by simpa using hread₂
    -- an error would be a size above `PATH_MAX`
    obtain ⟨psize, hvalue⟩ : ∃ psize, hexValue (fieldAt (rawBytes (data.drop pos)) 94) = some psize := by
      by_contra hnone
      have hnone : hexValue (fieldAt (rawBytes (data.drop pos)) 94) = none := by
        simpa [Option.eq_none_iff_forall_ne_some] using hnone
      rw [hpsize, ofInt_newcAtoi_none hnone] at hfits
      exact absurd hfits (by decide)
    have hlen : 102 ≤ (data.drop pos).length := by
      by_contra hshort
      rw [hexValue_rawBytes_cut (by omega) (by decide)] at hvalue
      cases hvalue
    have h32 : psize < 2 ^ 32 := hexValue_lt hvalue (List.length_take_le _ _)
    have hval : (decodedHeader dev (f.at pos)).psize.toNat = psize := by
      rw [hpsize, ofInt_newcAtoi hvalue, BitVec.toNat_ofNat, Nat.mod_eq_of_lt h32]
    rw [fieldAt_rawBytes hlen (by decide)] at hvalue
    rw [hval] at hfits hin
    refine ⟨psize, hmagic, hlen, hvalue, hfits, ?_, rfl, rfl, rfl, rfl, rfl⟩
    rw [hname] at hin
    rw [List.length_drop] at hlen hin ⊢
    omega

/-- There it does succeed. -/
theorem cpioReadHeader_succeeds (h : DiskFile dev data f) (hpos : pos < 2 ^ 31) {psize : Nat}
    (hmagic : (data.drop pos).take 6 = newcMagic) (hlen : 102 ≤ (data.drop pos).length)
    (hvalue : hexValue (fieldAt (data.drop pos) 94) = some psize) (hfits : psize ≤ PATH_MAX)
    (hname : min NEWC_HSIZE (data.drop pos).length + psize ≤ (data.drop pos).length) :
    ∃ fuel res f' hd, cpioReadHeader dev fuel (f.at pos) = some (res, f', hd) ∧ 0 ≤ res := by
  have hmax : PATH_MAX = 128 := rfl
  obtain ⟨hraw, hnamePos, hpsize, -⟩ := decodedHeader_sizes h hpos hmagic
  have hval : (decodedHeader dev (f.at pos)).psize.toNat = psize := by
    rw [hpsize, fieldAt_rawBytes hlen (by decide), ofInt_newcAtoi hvalue, BitVec.toNat_ofNat,
      Nat.mod_eq_of_lt (by omega)]
  have hin : namePos dev (f.at pos) + min (decodedHeader dev (f.at pos)).psize.toNat PATH_MAX ≤
      data.length := by
    rw [hnamePos, hval]
    rw [List.length_drop] at hlen hname ⊢
    omega
  rcases cpioReadHeader_inside (h.at pos) hraw hin (le_refl 2) with ⟨hlong, -⟩ | ⟨-, res, hres, hok⟩
  · rw [hval] at hlong
    omega
  · exact ⟨2, res, _, _, hok, hres⟩

/-- A valid header is decoded exactly. -/
theorem ValidHeader.decoded {psize fsize : Nat} (hv : ValidHeader (data.drop pos) psize fsize)
    (h : DiskFile dev data f) (hpos : pos < 2 ^ 31) {hd : CpioHeader} {f' : File DevOps}
    (hf : f' = (f.at pos).seek (dataPos dev (f.at pos)))
    (hps : hd.psize = (decodedHeader dev (f.at pos)).psize)
    (hfs : hd.fsize = (decodedHeader dev (f.at pos)).fsize)
    (hpp : hd.ppad = (decodedHeader dev (f.at pos)).ppad)
    (hfp : hd.fpad = (decodedHeader dev (f.at pos)).fpad) :
    DecodedExactly pos psize fsize f' hd := by
  have hlt := h.lt
  have hmax : PATH_MAX = 128 := rfl
  have hsz : NEWC_HSIZE = 110 := rfl
  obtain ⟨-, hnamePos, hpsize, hfsize, hppad, hfpad⟩ := decodedHeader_sizes h hpos hv.magic
  have hcomplete := hv.complete
  have hfits := hv.fits
  have hname := hv.name
  have hrest : (data.drop pos).length = data.length - pos := List.length_drop
  have hp : (decodedHeader dev (f.at pos)).psize.toNat = psize := by
    rw [hpsize, fieldAt_rawBytes (by omega) (by decide), ofInt_newcAtoi hv.namesize,
      BitVec.toNat_ofNat, Nat.mod_eq_of_lt (by omega)]
  have hs : (decodedHeader dev (f.at pos)).fsize.toNat = fsize := by
    rw [hfsize, fieldAt_rawBytes (by omega) (by decide), ofInt_newcAtoi hv.filesize,
      BitVec.toNat_ofNat, Nat.mod_eq_of_lt (hexValue_lt hv.filesize (List.length_take_le _ _))]
  have hsum : (BitVec.ofNat 32 NEWC_HSIZE + (decodedHeader dev (f.at pos)).psize).toNat =
      NEWC_HSIZE + psize := by
    rw [BitVec.toNat_add, hp, BitVec.toNat_ofNat]
    omega
  rw [hsum] at hppad
  rw [hs] at hfpad
  refine ⟨by rw [hps, hp], by rw [hfs, hs], by rw [hpp, hppad], by rw [hfp, hfpad], ?_⟩
  rw [hf, File.seek, dataPos, BitVec.toNat_add, BitVec.toNat_add, hp, hppad, hnamePos,
    BitVec.toNat_ofNat]
  omega

theorem DiskFile.headerLaw_iff (h : DiskFile dev data f) (pos : Nat) (hpos : pos < 2 ^ 31) :
    HeaderLaw dev data f pos ↔ HeaderSound (data.drop pos) := by
  have hsz : NEWC_HSIZE = 110 := rfl
  constructor
  · rintro ⟨hiff, -⟩ psize hmagic hlen hvalue hfits hname
    obtain ⟨p, s, hv⟩ := hiff.mp (cpioReadHeader_succeeds h hpos hmagic hlen hvalue hfits hname)
    obtain rfl : p = psize := Option.some.inj (hv.namesize.symm.trans hvalue)
    exact ⟨hv.complete, by rw [hv.filesize]; rfl, hv.name⟩
  · intro hsound
    -- what is accepted is valid
    have hvalid : ∀ fuel res f' hd, cpioReadHeader dev fuel (f.at pos) = some (res, f', hd) → 0 ≤ res →
        ∃ psize fsize, ValidHeader (data.drop pos) psize fsize ∧
          DecodedExactly pos psize fsize f' hd := by
      intro fuel res f' hd hread hres
      obtain ⟨psize, hmagic, hlen, hvalue, hfits, hname, hf, hps, hfs, hpp, hfp⟩ :=
        cpioReadHeader_accepts h hpos hread hres
      obtain ⟨hcomplete, hfile, hpad⟩ := hsound psize hmagic hlen hvalue hfits hname
      obtain ⟨fsize, hfile⟩ := Option.isSome_iff_exists.mp hfile
      have hv : ValidHeader (data.drop pos) psize fsize :=
        ⟨hcomplete, hmagic, hvalue, hfile, hfits, hpad⟩
      exact ⟨psize, fsize, hv, hv.decoded h hpos hf hps hfs hpp hfp⟩
    refine ⟨⟨?_, ?_⟩, hvalid⟩
    · rintro ⟨fuel, res, f', hd, hread, hres⟩
      obtain ⟨psize, fsize, hv, -⟩ := hvalid fuel res f' hd hread hres
      exact ⟨psize, fsize, hv⟩
    · rintro ⟨psize, fsize, hv⟩
      have hcomplete := hv.complete
      have hname := hv.name
      exact cpioReadHeader_succeeds h hpos hv.magic (by omega) hv.namesize hv.fits (by omega)

/-- In an archive so large that its size is negative no header is accepted. -/
theorem ArchiveFile.headerLaw_large (h : ArchiveFile dev data f) (hlarge : 2 ^ 31 ≤ data.length)
    (pos : Nat) :
    HeaderLaw dev data f pos ↔ ∀ psize fsize, ¬ ValidHeader (data.drop pos) psize fsize := by
  have hnone : ∀ fuel res f' hd, cpioReadHeader dev fuel (f.at pos) = some (res, f', hd) →
      ¬ 0 ≤ res := by
    intro fuel res f' hd hread hres
    have hneg : (cpioReadHeaderRaw dev (f.at pos)).1 < 0 := h.raw_neg hlarge (BitVec.ofNat 32 pos)
    rw [cpioReadHeader_bad fuel hneg] at hread
    rw [Option.some.inj hread] at hneg
    exact absurd hres (not_le.mpr hneg)
  constructor
  · rintro ⟨hiff, -⟩ psize fsize hv
    obtain ⟨fuel, res, f', hd, hread, hres⟩ := hiff.mpr ⟨psize, fsize, hv⟩
    exact hnone fuel res f' hd hread hres
  · intro hbad
    refine ⟨⟨?_, ?_⟩, fun fuel res f' hd hread hres => absurd hres (hnone fuel res f' hd hread)⟩
    · rintro ⟨fuel, res, f', hd, hread, hres⟩
      exact absurd hres (hnone fuel res f' hd hread)
    · rintro ⟨psize, fsize, hv⟩
      exact absurd hv (hbad psize fsize)

/-- **`cpio_read_header` accepts exactly the valid headers, and decodes them exactly,
if the header is sound**: a size that is no number, a header or a padding that the
archive cuts off are not noticed. In an archive of 2 GiB there must be none. -/
theorem cpioReadHeader_exact_iff (h : ArchiveFile dev data f) (pos : Nat) (hpos : pos < 2 ^ 31) :
    HeaderLaw dev data f pos ↔
      (data.length < 2 ^ 31 → HeaderSound (data.drop pos)) ∧
      (2 ^ 31 ≤ data.length → ∀ psize fsize, ¬ ValidHeader (data.drop pos) psize fsize) := by
  by_cases hlt : data.length < 2 ^ 31
  · rw [(h.diskFile hlt).headerLaw_iff pos hpos]
    exact ⟨fun hs => ⟨fun _ => hs, fun hge => absurd hlt (not_lt.mpr hge)⟩, fun hs => hs.1 hlt⟩
  · rw [h.headerLaw_large (not_lt.mp hlt) pos]
    exact ⟨fun hs => ⟨fun hlt' => absurd hlt' hlt, fun _ => hs⟩, fun hs => hs.2 (not_lt.mp hlt)⟩

end Header

theorem cpioReadHeader_exact_iff_hello :
    ArchiveFile (diskDrivers helloArchive.bytes).dev helloArchive.bytes
        ((diskDrivers helloArchive.bytes).cfdatas 0).af ∧
      HeaderLaw (diskDrivers helloArchive.bytes).dev helloArchive.bytes
        ((diskDrivers helloArchive.bytes).cfdatas 0).af 0 := by
  have hsize : helloArchive.bytes.length < 2 ^ 31 := by decide +kernel
  have harchive := diskDrivers_archive (lt_trans hsize (by decide)) 0
  refine ⟨harchive, (cpioReadHeader_exact_iff harchive 0 (by decide)).mpr ⟨fun _ => ?_, fun h => ?_⟩⟩
  · intro psize _ _ hvalue _ _
    have hsix : hexValue (fieldAt (helloArchive.bytes.drop 0) 94) = some 6 := by decide +kernel
    obtain rfl : 6 = psize := Option.some.inj (hsix.symm.trans hvalue)
    exact ⟨by decide +kernel, by decide +kernel, by decide +kernel⟩
  · exact absurd hsize (not_lt.mpr h)

/-- A header whose file size is no number. -/
def badSize : List Byte :=
  bytes "070701" ++ List.replicate 48 (byte '0') ++ bytes "0000000g" ++ List.replicate 32 (byte '0') ++
    bytes "00000002" ++ List.replicate 8 (byte '0') ++ bytes "a" ++ [0#8]

/-- It is accepted, though it is not valid. -/
theorem cpioReadHeader_accepts_badSize :
    (∃ fuel res f' h, cpioReadHeader (diskDrivers badSize).dev fuel
        (((diskDrivers badSize).cfdatas 0).af.at 0) = some (res, f', h) ∧ 0 ≤ res) ∧
      ¬ ∃ psize fsize, ValidHeader (badSize.drop 0) psize fsize := by
  have hsize : badSize.length < 2 ^ 31 := by decide +kernel
  have hdisk := (diskDrivers_archive (lt_trans hsize (by decide)) 0).diskFile hsize
  have hvalue : hexValue (fieldAt (badSize.drop 0) 94) = some 2 := by decide +kernel
  refine ⟨cpioReadHeader_succeeds hdisk (by decide) (by decide +kernel) (by decide +kernel) hvalue
    (by decide) (by decide +kernel), ?_⟩
  rintro ⟨psize, fsize, hv⟩
  have hnone : hexValue (fieldAt (badSize.drop 0) 54) = none := by decide +kernel
  rw [hv.filesize] at hnone
  cases hnone

end Munix
