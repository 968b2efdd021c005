import Munix.Core.Strings

/-!
# Munix — open files and ramdisks

The model of `drivers/vfs_file.c` and `drivers/chrdev/ramdisk.c`: the open-file
structure, the operations that go through its `f_op`, and the ramdisk driver.

The file operations of a driver are a constructor, and the C code's indirect
calls are a match on it. A character device cannot be a file of a file system,
so the operations that `chrdev_drivers` can hold are a type of their own.
`f_driver_data` is the index of the driver's object in the driver's table.

A read does not write memory here: it returns the bytes that the C code stores
at `dst`, in order. `loff_t`, `size_t` and `ssize_t` are 32-bit words; offsets
are compared as signed numbers.
-/

namespace Munix

-- ---------------------------------------------------------------------------
-- Files
-- ---------------------------------------------------------------------------

/-- Drivers that register as character devices. -/
inductive DevOps where
  | ramdisk
deriving DecidableEq

/-- File operations. -/
inductive FileOps where
  | dev (op : DevOps)
  | cpioFile
deriving DecidableEq

/-- `enum dirtype`. -/
inductive Dirtype where
  | unknown
  | chr
  | dir
  | reg
deriving DecidableEq

/-- `struct fstat`. -/
structure Fstat where
  fIno  : BitVec 32
  fType : Dirtype
  fRdev : BitVec 32
  fSize : BitVec 32
deriving DecidableEq

/-- `struct file`, without the link to its inode, which nothing sets. -/
structure File (Ops : Type) where
  fStat       : Fstat
  fPos        : BitVec 32
  fOp         : Option Ops
  fDriverData : Option Nat
deriving DecidableEq

/-- `(struct file){}`. -/
def File.zero (Ops : Type) : File Ops := ⟨⟨0#32, .unknown, 0#32, 0#32⟩, 0#32, none, none⟩

-- ---------------------------------------------------------------------------
-- Reading and seeking
-- ---------------------------------------------------------------------------

/-- Outcome of a driver's `read`: the result, the bytes stored at `dst`, and the
offset it leaves in `*off`. -/
structure ReadResult where
  ret   : Int
  bytes : List Byte
  off   : BitVec 32
deriving DecidableEq

inductive Whence where
  | seekSet
  | seekCur
  | seekEnd
deriving DecidableEq

section Operations

variable {Ops : Type} (read : Ops → File Ops → BitVec 32 → BitVec 32 → ReadResult)

/-- `file_read(f, dst, count)`; `dst` says whether the pointer is not NULL. -/
def fileRead (f : File Ops) (dst : Bool) (count : BitVec 32) : Int × List Byte × File Ops :=
  match f.fOp with
  | none => (-EINVAL, [], f)
  | some op =>
    if !dst || count == 0#32 then (0, [], f)
    else
      let r := read op f count f.fPos
      (r.ret, r.bytes, { f with fPos := r.off })

/-- `file_pread(f, dst, count, off)`. -/
def filePread (f : File Ops) (dst : Bool) (count off : BitVec 32) : Int × List Byte :=
  match f.fOp with
  | none => (-EINVAL, [])
  | some op =>
    if !dst || count == 0#32 then (0, [])
    else
      let r := read op f count off
      (r.ret, r.bytes)

/-- `file_lseek(f, off, whence)`. No driver has an `lseek` of its own. -/
def fileLseek (f : File Ops) (off : BitVec 32) (whence : Whence) : Int × File Ops :=
  match f.fOp with
  | none => (-EINVAL, f)
  | some _ =>
    match whence with
    | .seekSet => (0, { f with fPos := off })
    | .seekCur => (0, { f with fPos := f.fPos + off })
    | .seekEnd => (0, { f with fPos := f.fStat.fSize + off })

variable {read}

theorem fileRead_of_op {f : File Ops} {op : Ops} (hop : f.fOp = some op) {count : BitVec 32}
    (hcount : count ≠ 0#32) :
    fileRead read f true count =
      ((read op f count f.fPos).ret, (read op f count f.fPos).bytes,
        { f with fPos := (read op f count f.fPos).off }) := by
  simp [fileRead, hop, hcount]

theorem filePread_of_op {f : File Ops} {op : Ops} (hop : f.fOp = some op) {count : BitVec 32}
    (hcount : count ≠ 0#32) (off : BitVec 32) :
    filePread read f true count off =
      ((read op f count off).ret, (read op f count off).bytes) := by
  simp [filePread, hop, hcount]

/-- The same open file, up to its position. -/
def SameFile (f f' : File Ops) : Prop := ∃ pos, f' = { f with fPos := pos }

theorem SameFile.refl (f : File Ops) : SameFile f f := ⟨f.fPos, rfl⟩

theorem SameFile.trans {f f' f'' : File Ops} (h : SameFile f f') (h' : SameFile f' f'') :
    SameFile f f'' := by
  obtain ⟨pos, rfl⟩ := h
  obtain ⟨pos', rfl⟩ := h'
  exact ⟨pos', rfl⟩

theorem fileRead_sameFile (read : Ops → File Ops → BitVec 32 → BitVec 32 → ReadResult)
    (f : File Ops) (dst : Bool) (count : BitVec 32) :
    SameFile f (fileRead read f dst count).2.2 := by
  rw [fileRead]
  split
  · exact .refl f
  · split
    · exact .refl f
    · exact ⟨_, rfl⟩

theorem fileLseek_sameFile (f : File Ops) (off : BitVec 32) (whence : Whence) :
    SameFile f (fileLseek f off whence).2 := by
  unfold fileLseek
  split
  · exact .refl f
  · cases whence <;> exact ⟨_, rfl⟩

end Operations

-- ---------------------------------------------------------------------------
-- Ramdisks
-- ---------------------------------------------------------------------------

def RAMDISKS_MAX : Nat := 4

/-- The registered drivers and the ramdisks with their contents. -/
structure Devices where
  chrdevDrivers : Nat → Option DevOps
  ramdisks      : Nat → Option (List Byte)

/-- The loop of `ramdisk_read`. -/
def ramdiskLoop (data : List Byte) (fSize : BitVec 32) : Nat → BitVec 32 → List Byte × BitVec 32
  | 0, off => ([], off)
  | count + 1, off =>
    if off.slt fSize then
      let r := ramdiskLoop data fSize count (off + 1#32)
      (data.getD off.toNat 0#8 :: r.1, r.2)
    else ([], off)

/-- `ramdisk_read`, from a ramdisk with the given contents. -/
def ramdiskRead (data : List Byte) (f : File DevOps) (count off : BitVec 32) : ReadResult :=
  let off := if off.slt 0#32 then 0#32 else off
  if f.fStat.fSize.sle off then ⟨0, [], off⟩
  else
    let r := ramdiskLoop data f.fStat.fSize count.toNat off
    ⟨r.1.length, r.1, r.2⟩

/-- `ramdisk_open_dev(file, min)`. -/
def ramdiskOpenDev (dev : Devices) (file : File DevOps) (min : Nat) : Int × File DevOps :=
  if RAMDISKS_MAX ≤ min then (-ENODEV, file)
  else
    match dev.ramdisks min with
    | none => (-ENODEV, file)
    | some data =>
      (0, { file with
        fDriverData := some min
        fStat := { file.fStat with fSize := BitVec.ofNat 32 data.length } })

-- ---------------------------------------------------------------------------
-- Device files
-- ---------------------------------------------------------------------------

def MAJORS_MAX : Nat := 5
def MAJ_RAMDISK : Nat := 4

/-- `MAKEDEV(maj, min)`. -/
def makedev (maj min : BitVec 32) : BitVec 32 := maj <<< 8 ||| min

/-- The `read` of a device driver. -/
def Devices.read (dev : Devices) (op : DevOps) (f : File DevOps) (count off : BitVec 32) :
    ReadResult :=
  match op with
  | .ramdisk => ramdiskRead ((f.fDriverData.bind dev.ramdisks).getD []) f count off

/-- The `open_dev` of a device driver. -/
def Devices.openDev (dev : Devices) (op : DevOps) (f : File DevOps) (min : Nat) :
    Int × File DevOps :=
  match op with
  | .ramdisk => ramdiskOpenDev dev f min

/-- `file_open_dev(file, rdev)`. -/
def fileOpenDev (dev : Devices) (rdev : BitVec 32) : Int × File DevOps :=
  let file := File.zero DevOps
  let maj := (rdev >>> 8).toNat
  let min := (rdev &&& 0xff#32).toNat
  if maj = 0 ∨ MAJORS_MAX ≤ maj then (-ENODEV, file)
  else
    match dev.chrdevDrivers maj with
    | none => (-ENODEV, file)
    | some op =>
      dev.openDev op
        { file with fStat := { file.fStat with fType := .chr, fRdev := rdev }, fOp := some op } min

end Munix
