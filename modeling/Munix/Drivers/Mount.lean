import Munix.Core.List
import Munix.Drivers.Cpiofs

/-!
# Munix — mounted file systems and paths

The model of `core/path.c` and of the lookup functions of `drivers/vfs_fs.c`:
joining a path to a directory, mounting file systems, finding the file system a
path lies in, and opening it there. `Vfs` has the mounted superblocks as a list,
in the order of `vfs_mount_list`; `MountTable` has the intrusive list itself.
-/

namespace Munix

-- ---------------------------------------------------------------------------
-- path.c
-- ---------------------------------------------------------------------------

/-- The string that `path_join(dst, dstsz, a, b)` leaves in `dst`, for a
directory `a` that fits: the joined path, cut off at the end of the buffer. -/
def pathJoin (dstsz : Nat) (a b : List Byte) : List Byte :=
  let slash := if a ≠ [] ∧ a.getLast? ≠ some (byte '/') then [byte '/'] else []
  let joined := if b.head? = some (byte '/') then b else a ++ slash ++ b
  joined.take (dstsz - 1)

/-- `path_strip_prefix(path, prefix)`. -/
def pathStripPrefix (path pre : List Byte) : Option (List Byte) :=
  if strncmp path pre pre.length ≠ 0 then none
  else
    let pos := path.drop pre.length
    some (if pos.head? = some (byte '/') then pos.tail else pos)

-- ---------------------------------------------------------------------------
-- vfs_fs.c
-- ---------------------------------------------------------------------------

/-- The file drivers and the mounted superblocks. -/
structure Vfs where
  drivers : Drivers
  mounts  : List Superblock

/-- `find_mount_for_path(abspath)`: the last superblock in the list whose mount
path is a prefix of the path. -/
def findMountForPath (mounts : List Superblock) (abspath : List Byte) : Option Superblock :=
  mounts.reverse.find? fun sb => strstr abspath sb.sMountpath = some 0

-- ---------------------------------------------------------------------------
-- Mounting
-- ---------------------------------------------------------------------------

/-- File systems that can be registered. -/
inductive FsOps where
  | cpiofs
deriving DecidableEq

def SB_MAX : Nat := 4

/-- The nodes of `vfs_mount_list`: its head, and `s_mount_list` of a superblock. -/
inductive MountNode where
  | null
  | head
  | sb (i : Nat)
deriving DecidableEq

instance : Zero MountNode := ⟨.null⟩

/-- `fs_drivers`, `superblocks` and `vfs_mount_list`. -/
structure MountTable where
  fsDrivers   : Nat → Option FsOps
  superblocks : Nat → Superblock
  sOp         : Nat → Option FsOps
  links       : LinkHeap MountNode

/-- Before the first mount. -/
def MountTable.initial (fsDrivers : Nat → Option FsOps) : MountTable where
  fsDrivers := fsDrivers
  superblocks := fun _ => ⟨0#32, []⟩
  sOp := fun _ => none
  links := initListHead (fun _ => ⟨0, 0⟩) .head

/-- Assign to a superblock. -/
def MountTable.setSb (t : MountTable) (i : Nat) (sb : Superblock) (op : Option FsOps) : MountTable :=
  { t with
    superblocks := fun j => if j = i then sb else t.superblocks j
    sOp := fun j => if j = i then op else t.sOp j }

def sbAlloc (t : MountTable) : Option Nat := (List.range SB_MAX).find? fun i => (t.sOp i).isNone

def sbFree (t : MountTable) (i : Nat) : MountTable := t.setSb i (t.superblocks i) none

/-- `cpio_sb_open(sb)`. -/
def cpioSbOpen (fuel : Nat) (dev : Devices) (sb : Superblock) : Option Int :=
  let (res, af) := fileOpenDev dev sb.sBdev
  if res < 0 then some res else (cpioFindPath dev fuel af (bytes ".")).map (·.1)

/-- `sb_open(sb, blockdev, fstypeid)`. -/
def sbOpen (fuel : Nat) (dev : Devices) (t : MountTable) (i : Nat) (blockdev : BitVec 32)
    (fstypeid : Nat) : Option (Int × MountTable) :=
  match t.fsDrivers fstypeid with
  | none => some (-ENODEV, t)
  | some .cpiofs =>
    let t := t.setSb i ⟨blockdev, []⟩ (some .cpiofs)
    let t := { t with links := initListHead t.links (.sb i) }
    match cpioSbOpen fuel dev (t.superblocks i) with
    | none => none
    | some res => if res < 0 then some (res, t) else some (0, t)

/-- The loop of `vfs_mount_list_add`: the entry before which the new one belongs. -/
def mountListPos (t : MountTable) (mpath : List Byte) : Nat → MountNode → MountNode
  | fuel + 1, .sb j =>
    if 0 < strcmp (t.superblocks j).sMountpath mpath then .sb j
    else mountListPos t mpath fuel (t.links (.sb j)).next
  | _, pos => pos

/-- `vfs_mount_list_add(sb)`. What the loop finds is not used. -/
def vfsMountListAdd (t : MountTable) (i : Nat) : MountTable :=
  let _pos := mountListPos t (t.superblocks i).sMountpath (SB_MAX + 1) (t.links .head).next
  { t with links := listAddTail t.links (.sb i) .head }

/-- `fs_mountdev(blockdev, fstypeid, mpath)`. No driver has a release method. -/
def fsMountdev (fuel : Nat) (dev : Devices) (t : MountTable) (blockdev : BitVec 32) (fstypeid : Nat)
    (mpath : List Byte) : Option (Int × MountTable) :=
  match sbAlloc t with
  | none => some (-ENOMEM, t)
  | some i =>
    match sbOpen fuel dev t i blockdev fstypeid with
    | none => none
    | some (res, t) =>
      if res < 0 then some (res, sbFree t i)
      else
        let sb := { t.superblocks i with sMountpath := mpath.take (PATH_MAX - 1) }
        some (0, vfsMountListAdd (t.setSb i sb (t.sOp i)) i)

/-- The loop of `find_mount_for_path`, on the intrusive list. -/
def findMountLoop (t : MountTable) (abspath : List Byte) : Nat → MountNode → Option Nat
  | fuel + 1, .sb i =>
    if strstr abspath (t.superblocks i).sMountpath = some 0 then some i
    else findMountLoop t abspath fuel (t.links (.sb i)).prev
  | _, _ => none

/-- `find_mount_for_path(abspath)`, on the intrusive list. -/
def MountTable.findMount (t : MountTable) (abspath : List Byte) : Option Nat :=
  findMountLoop t abspath (SB_MAX + 1) (t.links .head).prev

-- ---------------------------------------------------------------------------
-- Opening
-- ---------------------------------------------------------------------------

/-- Outcome of opening a file. -/
structure Opened where
  res  : Int
  file : File FileOps
  vfs  : Vfs

/-- `file_open_sb_path(file, sb, relpath)`. -/
def fileOpenSbPath (fuel : Nat) (v : Vfs) (sb : Superblock) (relpath : List Byte) :
    Option Opened :=
  match cpioFileOpenPath fuel v.drivers cpioFileNew sb relpath with
  | none => none
  | some (res, file, drivers) => some ⟨res, file, { v with drivers := drivers }⟩

/-- `file_open_path_abs(file, abspath)`. The mount path that was found is a
prefix, so that stripping it does not fail. -/
def fileOpenPathAbs (fuel : Nat) (v : Vfs) (file : File FileOps) (abspath : List Byte) :
    Option Opened :=
  match findMountForPath v.mounts abspath with
  | none => some ⟨-ENOENT, file, v⟩
  | some sb =>
    match pathStripPrefix abspath sb.sMountpath with
    | none => none
    | some relpath => fileOpenSbPath fuel v sb relpath

/-- `file_open_path(file, cwd, path)`. -/
def fileOpenPath (fuel : Nat) (v : Vfs) (file : File FileOps) (cwd path : List Byte) :
    Option Opened :=
  fileOpenPathAbs fuel v file (pathJoin PATH_MAX cwd path)

/-- `file_stat(fstat, cwd, path)`. -/
def fileStat (fuel : Nat) (v : Vfs) (fstat : Fstat) (cwd path : List Byte) :
    Option (Int × Fstat × Vfs) :=
  match fileOpenPath fuel v (File.zero FileOps) cwd path with
  | none => none
  | some ⟨res, f, v⟩ =>
    if res < 0 then some (res, fstat, v)
    else some (res, f.fStat, { v with drivers := fileClose v.drivers f })

-- ---------------------------------------------------------------------------
-- Directories
-- ---------------------------------------------------------------------------

/-- `struct dirent`. -/
structure Dirent where
  dIno  : BitVec 32
  dType : Dirtype
  dName : List Byte
deriving DecidableEq

/-- The loop of `cpio_file_readdir`: 0 at the end of the archive, and 1 with the
header of an entry whose path begins with the directory's. -/
def readdirLoop (dev : Devices) (dirpath : List Byte) : Nat → File DevOps →
    Option (Int × File DevOps × CpioHeader)
  | 0, _ => none
  | fuel + 1, af =>
    match cpioReadHeader dev (fuel + 1) af with
    | none => none
    | some (res, af, h) =>
      if res < 0 then some (res, af, h)
      else
        let (res, af) := cpioSkipFdata af h
        if res < 0 then some (res, af, h)
        else if h.isEndmarker then some (0, af, h)
        else if strncmp h.path dirpath dirpath.length = 0 then some (1, af, h)
        else readdirLoop dev dirpath fuel af

/-- The entry that `cpio_file_readdir` makes of a header. Nothing sets the inode
number in its `struct fstat`, which starts with the given contents. -/
def cpioDirent (fstat : Fstat) (dirpath : List Byte) (h : CpioHeader) : Dirent :=
  let fstat := (cpiohFstat h fstat).2
  ⟨fstat.fIno, fstat.fType, ((pathStripPrefix h.path dirpath).getD []).take (PATH_MAX - 1)⟩

/-- `cpio_file_readdir(f, d)`. -/
def cpioFileReaddir (fuel : Nat) (d : Drivers) (f : File FileOps) (fstat : Fstat) (dirent : Dirent) :
    Option (Int × Dirent × Drivers) :=
  match f.fDriverData with
  | none => some (-EINVAL, dirent, d)
  | some i =>
    let c := d.cfdatas i
    let dirpath := if strcmp c.h.path (bytes ".") = 0 then [] else c.h.path
    let (res, af) := if f.fPos = 0#32 then cpioSkipFdata c.af c.h else (0, c.af)
    if res < 0 then some (res, dirent, d.setCfdata i { c with af := af })
    else
      match readdirLoop d.dev dirpath fuel af with
      | none => none
      | some (res, af, h) =>
        let d := d.setCfdata i { c with af := af }
        if res ≤ 0 then some (res, dirent, d) else some (res, cpioDirent fstat dirpath h, d)

/-- `file_readdir(f, d)`. Devices have no `readdir`. -/
def fileReaddir (fuel : Nat) (d : Drivers) (f : File FileOps) (fstat : Fstat) (dirent : Dirent) :
    Option (Int × Dirent × Drivers) :=
  match f.fOp with
  | some .cpioFile =>
    if f.fStat.fType ≠ .dir then some (-ENOTDIR, dirent, d) else cpioFileReaddir fuel d f fstat dirent
  | _ => some (-EINVAL, dirent, d)

end Munix
