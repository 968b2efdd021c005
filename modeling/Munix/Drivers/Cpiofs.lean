import Munix.Drivers.Vfs

/-!
# Munix — the CPIO file system

The model of `drivers/fs/cpiofs.c`: header decoding, the search for a path, the
pool of open-file data, and reading.

A loop that the C code leaves only on some condition runs here for at most
`fuel` rounds; `none` means that it has not come to an end by then. A function
that contains such a loop has a result if it has one for some `fuel`.
-/

namespace Munix

-- ---------------------------------------------------------------------------
-- Headers
-- ---------------------------------------------------------------------------

def PATH_MAX : Nat := 128

/-- `sizeof(struct cpio_newc_header)`. -/
def NEWC_HSIZE : Nat := 110

inductive CpioFormat where
  | unknown
  | newc
deriving DecidableEq

/-- `struct cpio_header`. -/
structure CpioHeader where
  fmt         : CpioFormat
  bytes       : List Byte
  hoff        : BitVec 32
  hsize       : BitVec 32
  psize       : BitVec 32
  ppad        : BitVec 32
  fsize       : BitVec 32
  fpad        : BitVec 32
  pathname    : List Byte
  isEndmarker : Bool
deriving DecidableEq

/-- `(struct cpio_header){.hoff = hoff}`. -/
def CpioHeader.reset (hoff : BitVec 32) : CpioHeader :=
  ⟨.unknown, List.replicate NEWC_HSIZE 0#8, hoff, 0#32, 0#32, 0#32, 0#32, 0#32,
    List.replicate PATH_MAX 0#8, false⟩

/-- The bytes `bs` stored into a buffer at index `i`. -/
def overwrite (buf : List Byte) (i : Nat) (bs : List Byte) : List Byte :=
  buf.take i ++ bs ++ buf.drop (i + bs.length)

/-- The string in `pathname`. Where the buffer has no terminator, the field after
it, which is zero then, is one. -/
def CpioHeader.path (h : CpioHeader) : List Byte := h.pathname.takeWhile (· ≠ 0#8)

/-- The 8 characters of a field of `struct cpio_newc_header`. -/
def CpioHeader.field (h : CpioHeader) (off : Nat) : List Byte := (h.bytes.drop off).take 8

def cMode (h : CpioHeader) : List Byte := h.field 14
def cFilesize (h : CpioHeader) : List Byte := h.field 54
def cDevmajor (h : CpioHeader) : List Byte := h.field 62
def cDevminor (h : CpioHeader) : List Byte := h.field 70
def cNamesize (h : CpioHeader) : List Byte := h.field 94

-- ---------------------------------------------------------------------------
-- Value decoding
-- ---------------------------------------------------------------------------

def tolower (c : Byte) : Byte := if byte 'A' ≤ c ∧ c ≤ byte 'Z' then c + 0x20#8 else c

/-- The digit of a character, as `cpio_atoi` reads it. -/
def cpioDigit (c : Byte) : Option Nat :=
  let c := tolower c
  if byte '0' ≤ c ∧ c ≤ byte '9' then some (c.toNat - 48)
  else if byte 'a' ≤ c ∧ c ≤ byte 'f' then some (c.toNat - 97 + 10)
  else none

/-- The loop of `cpio_atoi`. -/
def cpioAtoiLoop (base : Nat) : BitVec 32 → List Byte → Int
  | ret, [] => ret.toInt
  | ret, c :: field =>
    match cpioDigit c with
    | none => -EINVAL
    | some digit =>
      if base ≤ digit then -EINVAL
      else cpioAtoiLoop base (ret * BitVec.ofNat 32 base + BitVec.ofNat 32 digit) field

def cpioAtoi (field : List Byte) (base : Nat) : Int := cpioAtoiLoop base 0#32 field

def newcAtoi (field : List Byte) : Int := cpioAtoi field 16

-- ---------------------------------------------------------------------------
-- Header reading and decoding
-- ---------------------------------------------------------------------------

/-- The magic number `070701`. -/
def newcMagic : List Byte := bytes "070701"

section Reading

variable (dev : Devices)

/-- `cpio_read_header_raw(f, h)`. -/
def cpioReadHeaderRaw (f : File DevOps) : Int × File DevOps × CpioHeader :=
  let h := CpioHeader.reset f.fPos
  let (res, bs, f) := fileRead dev.read f true 6#32
  let h := { h with bytes := overwrite h.bytes 0 bs }
  if res < 0 then (res, f, h)
  else if res = 0 then (-EINVAL, f, h)
  else if h.bytes.take 6 ≠ newcMagic then (-EINVAL, f, h)
  else
    let ct := res
    let h := { h with fmt := .newc, hsize := BitVec.ofNat 32 NEWC_HSIZE }
    let (res, bs, f) := fileRead dev.read f true (h.hsize - BitVec.ofInt 32 ct)
    let h := { h with bytes := overwrite h.bytes ct.toNat bs }
    if res < 0 then (res, f, h) else (ct + res, f, h)

/-- `cpioh_decode_sizes(h)`. -/
def cpiohDecodeSizes (h : CpioHeader) : Int × CpioHeader :=
  match h.fmt with
  | .newc =>
    let psize := BitVec.ofInt 32 (newcAtoi (cNamesize h))
    let fsize := BitVec.ofInt 32 (newcAtoi (cFilesize h))
    (0, { h with
      psize := psize
      fsize := fsize
      ppad := alignUp (h.hsize + psize) 4#32 - (h.hsize + psize)
      fpad := alignUp fsize 4#32 - fsize })
  | .unknown => (-EINVAL, h)

/-- `cpio_mode_to_dirtype(mode)`: all values of the file-type bits are covered. -/
def cpioModeToDirtype (mode : BitVec 32) : Dirtype :=
  if mode &&& 0o060000#32 = 0#32 then .reg
  else if mode &&& 0o060000#32 = 0o040000#32 then .dir
  else .chr

/-- `cpioh_fstat(h, fstat)`. -/
def cpiohFstat (h : CpioHeader) (fstat : Fstat) : Int × Fstat :=
  match h.fmt with
  | .newc =>
    (0, { fstat with
      fRdev := makedev (BitVec.ofInt 32 (newcAtoi (cDevmajor h)))
        (BitVec.ofInt 32 (newcAtoi (cDevminor h)))
      fType := cpioModeToDirtype (BitVec.ofInt 32 (newcAtoi (cMode h)))
      fSize := h.fsize })
  | .unknown => (-EINVAL, fstat)

/-- The loop of `cpio_read_pathname`. -/
def readPathnameLoop (readsz : Nat) : Nat → File DevOps → List Byte → Nat →
    Option (Int × File DevOps × List Byte)
  | 0, _, _, _ => none
  | fuel + 1, f, pathname, ct =>
    if ct < readsz then
      let (res, bs, f) := fileRead dev.read f true (BitVec.ofNat 32 (readsz - ct))
      let pathname := overwrite pathname ct bs
      if res < 0 then some (res, f, pathname)
      else readPathnameLoop readsz fuel f pathname (ct + res.toNat)
    else some (ct, f, pathname)

/-- `cpio_read_pathname(f, h)`. -/
def cpioReadPathname (fuel : Nat) (f : File DevOps) (h : CpioHeader) :
    Option (Int × File DevOps × CpioHeader) :=
  let readsz := min h.psize.toNat PATH_MAX
  match readPathnameLoop dev readsz fuel f h.pathname 0 with
  | none => none
  | some (ct, f, pathname) =>
    let h := { h with pathname := pathname }
    if ct < 0 then some (ct, f, h)
    else if PATH_MAX < h.psize.toNat then some (-EOVERFLOW, f, h)
    else if h.ppad = 0#32 then some (ct, f, h)
    else
      let (res, f) := fileLseek f h.ppad .seekCur
      if res < 0 then some (res, f, h) else some (ct + h.ppad.toNat, f, h)

/-- The name of the end-of-archive marker. -/
def trailerName : List Byte := bytes "TRAILER!!!"

/-- `cpio_read_header(f, h)`. -/
def cpioReadHeader (fuel : Nat) (f : File DevOps) : Option (Int × File DevOps × CpioHeader) :=
  let (res, f, h) := cpioReadHeaderRaw dev f
  if res < 0 then some (res, f, h)
  else
    let ct := res
    let (res, h) := cpiohDecodeSizes h
    if res < 0 then some (res, f, h)
    else
      match cpioReadPathname dev fuel f h with
      | none => none
      | some (res, f, h) =>
        if res < 0 then some (res, f, h)
        else
          let isEndmarker := h.fsize == 0#32 && strncmp h.path trailerName PATH_MAX == 0
          some (ct + res, f, { h with isEndmarker := isEndmarker })

/-- `cpio_skip_fdata(f, h)`. -/
def cpioSkipFdata (f : File DevOps) (h : CpioHeader) : Int × File DevOps :=
  fileLseek f (h.fsize + h.fpad) .seekCur

/-- The loop of `cpio_find_path`, at header `i`. -/
def cpioFindPathLoop (p : List Byte) : Nat → Nat → File DevOps → CpioHeader →
    Option (Int × File DevOps × CpioHeader)
  | 0, _, _, _ => none
  | fuel + 1, i, f, h =>
    if h.isEndmarker then some (-ENOENT, f, h)
    else
      match cpioReadHeader dev (fuel + 1) f with
      | none => none
      | some (res, f, h) =>
        if res < 0 then some (res, f, h)
        else if strcmp h.path p = 0 then some (i, f, h)
        else
          let (res, f) := cpioSkipFdata f h
          if res < 0 then some (res, f, h) else cpioFindPathLoop p fuel (i + 1) f h

/-- `cpio_find_path(f, p, h)`. -/
def cpioFindPath (fuel : Nat) (f : File DevOps) (p : List Byte) :
    Option (Int × File DevOps × CpioHeader) :=
  cpioFindPathLoop dev p fuel 0 f (CpioHeader.reset 0#32)

end Reading

-- ---------------------------------------------------------------------------
-- Driver data for files
-- ---------------------------------------------------------------------------

/-- `struct cfdata`: the archive file, the header of the target file, and the
offset of the target file inside the archive file. -/
structure Cfdata where
  af   : File DevOps
  h    : CpioHeader
  foff : BitVec 32
deriving DecidableEq

def MAX_CPIO_OPEN : Nat := 4

/-- The state of the file drivers. -/
structure Drivers where
  dev     : Devices
  cfdatas : Nat → Cfdata

/-- Assign to a slot of `cfdatas`. -/
def Drivers.setCfdata (d : Drivers) (i : Nat) (c : Cfdata) : Drivers :=
  { d with cfdatas := fun j => if j = i then c else d.cfdatas j }

def cfdataAlloc (d : Drivers) : Option Nat :=
  (List.range MAX_CPIO_OPEN).find? fun i => (d.cfdatas i).af.fOp.isNone

def cfdataFree (d : Drivers) (i : Nat) : Drivers :=
  let c := d.cfdatas i
  d.setCfdata i { c with af := { c.af with fOp := none } }

-- ---------------------------------------------------------------------------
-- Operations
-- ---------------------------------------------------------------------------

/-- `struct superblock`: its device and where it is mounted. CPIO is the only
file system that is registered, so that its operations are those below. -/
structure Superblock where
  sBdev      : BitVec 32
  sMountpath : List Byte
deriving DecidableEq

/-- `cpio_file_open_path(f, sb, path)`. The archive file has no `release`, so
that closing it does nothing. -/
def cpioFileOpenPath (fuel : Nat) (d : Drivers) (f : File FileOps) (sb : Superblock)
    (path : List Byte) : Option (Int × File FileOps × Drivers) :=
  let path := if path = [] then bytes "." else path
  match cfdataAlloc d with
  | none => some (-ENOMEM, f, d)
  | some i =>
    let (res, af) := fileOpenDev d.dev sb.sBdev
    let d := d.setCfdata i { d.cfdatas i with af := af }
    if res < 0 then some (res, f, cfdataFree d i)
    else
      match cpioFindPath d.dev fuel af path with
      | none => none
      | some (res, af, h) =>
        let d := d.setCfdata i { d.cfdatas i with af := af, h := h }
        if res < 0 then some (res, f, cfdataFree d i)
        else
          let (res, fstat) := cpiohFstat h f.fStat
          let f := { f with fStat := fstat }
          if res < 0 then some (res, f, cfdataFree d i)
          else
            let foff := h.hoff + h.hsize + h.psize + h.ppad
            some (0, { f with fDriverData := some i },
              d.setCfdata i { d.cfdatas i with foff := foff })

/-- The file that `file_open_sb_path` hands to `open_path`. -/
def cpioFileNew : File FileOps := { File.zero FileOps with fOp := some .cpioFile }

/-- `cpio_file_release(f)`. -/
def cpioFileRelease (d : Drivers) (f : File FileOps) : Drivers :=
  match f.fDriverData with
  | none => d
  | some i => cfdataFree d i

/-- `cpio_file_read(f, dst, count, off)`, where `dst` is not NULL. (A file that
has not been opened has no driver data, and must not be read.) -/
def cpioFileRead (d : Drivers) (f : File FileOps) (count off : BitVec 32) : ReadResult :=
  match f.fDriverData with
  | none => ⟨-EINVAL, [], off⟩
  | some i =>
    let c := d.cfdatas i
    let aoff := off + c.foff
    -- the file ends where the header says it does
    let count := if f.fStat.fSize.slt (off + count) then f.fStat.fSize - f.fPos else count
    let (res, bs) := filePread d.dev.read c.af true count aoff
    if res < 0 then ⟨res, bs, off⟩
    else ⟨res, bs, aoff + BitVec.ofInt 32 res - c.foff⟩

/-- The `read` of a file. -/
def Drivers.read (d : Drivers) (op : FileOps) (f : File FileOps) (count off : BitVec 32) :
    ReadResult :=
  match op with
  | .dev op =>
    d.dev.read op ⟨f.fStat, f.fPos, some op, f.fDriverData⟩ count off
  | .cpioFile => cpioFileRead d f count off

/-- `file_close(file)`. -/
def fileClose (d : Drivers) (f : File FileOps) : Drivers :=
  match f.fOp with
  | some .cpioFile => cpioFileRelease d f
  | _ => d

end Munix
