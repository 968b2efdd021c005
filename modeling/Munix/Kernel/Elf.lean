import Munix.Drivers.Mount
import Munix.Kernel.Pagemap

/-!
# Munix — the ELF loader

The model of `drivers/fileformat/elf.c`. The headers are read into structures
on the kernel stack, whose earlier contents are a parameter: a short read leaves
them where the file has no more bytes. The segments are written through the
active page map. `CR0.WP` is off, so that the kernel can write to every page
that is mapped; where none is mapped there is a page fault.

A store below the kernel's end can change anything, the kernel's code
included; the model does not go on from there (`clobber`).
-/

namespace Munix

open ByteMem

-- ---------------------------------------------------------------------------
-- Stores through the page map
-- ---------------------------------------------------------------------------

/-- Outcome of kernel code that writes through the page map. -/
inductive Outcome (ε α : Type) where
  | ok (a : α)
  /-- A page fault, in the given state. -/
  | fault (e : ε)
  /-- A store into kernel memory. -/
  | clobber

/-- Store a byte at virtual address `va`. -/
def storeV (cr3 : Pme) (m : Mem) (va : Addr) (b : Byte) : Outcome Mem Mem :=
  match hwWalk m cr3 va with
  | none => .fault m
  | some (pa, _) => if pa < KMAP_MAX then .clobber else .ok (store8 m pa b)

/-- Store bytes at `va` and up. -/
def storeBytesV (cr3 : Pme) (m : Mem) (va : Addr) : List Byte → Outcome Mem Mem
  | [] => .ok m
  | b :: bs =>
    match storeV cr3 m va b with
    | .ok m => storeBytesV cr3 m (va + 1#32) bs
    | .fault m => .fault m
    | .clobber => .clobber

/-- `memset(s, c, n)` through the page map. -/
def memsetV (cr3 : Pme) (m : Mem) (s : Addr) (c : Byte) : Nat → Outcome Mem Mem
  | 0 => .ok m
  | n + 1 =>
    match storeV cr3 m s c with
    | .ok m => memsetV cr3 m (s + 1#32) c n
    | .fault m => .fault m
    | .clobber => .clobber

-- ---------------------------------------------------------------------------
-- Headers
-- ---------------------------------------------------------------------------

/-- The 16-bit field at offset `off` of a structure. -/
def le16 (b : List Byte) (off : Nat) : BitVec 16 := b.getD (off + 1) 0#8 ++ b.getD off 0#8

/-- The 32-bit field at offset `off` of a structure. -/
def le32 (b : List Byte) (off : Nat) : BitVec 32 :=
  b.getD (off + 3) 0#8 ++ b.getD (off + 2) 0#8 ++ b.getD (off + 1) 0#8 ++ b.getD off 0#8

/-- `sizeof(Elf32_Ehdr)` and `sizeof(Elf32_Phdr)`. -/
def EHDRSZ : Nat := 52
def PHDRSZ : Nat := 32

/-- The bytes of an `Elf32_Ehdr`. -/
abbrev Ehdr := List Byte

/-- The bytes of an `Elf32_Phdr`. -/
abbrev Phdr := List Byte

def eType (h : Ehdr) : BitVec 16 := le16 h 16
def eEntry (h : Ehdr) : BitVec 32 := le32 h 24
def ePhoff (h : Ehdr) : BitVec 32 := le32 h 28
def ePhnum (h : Ehdr) : BitVec 16 := le16 h 44

def pType (h : Phdr) : BitVec 32 := le32 h 0
def pOffset (h : Phdr) : BitVec 32 := le32 h 4
def pVaddr (h : Phdr) : BitVec 32 := le32 h 8
def pFilesz (h : Phdr) : BitVec 32 := le32 h 16
def pMemsz (h : Phdr) : BitVec 32 := le32 h 20
def pFlags (h : Phdr) : BitVec 32 := le32 h 24

/-- `"\177ELF"`. -/
def ELFMAG : List Byte := 0x7f#8 :: bytes "ELF"
def ELFCLASS32 : Byte := 1#8
def ET_EXEC : BitVec 16 := 2#16
def PT_LOAD : BitVec 32 := 1#32
def PF_W : BitVec 32 := 2#32

section Read

variable (d : Drivers)

/-- `elf_read_ehdr32(f, ehdr)`; `junk` is what `*ehdr` holds before. -/
def elfReadEhdr32 (f : File FileOps) (junk : Ehdr) : Int × File FileOps × Ehdr :=
  let (res, bs, f) := fileRead d.read f true (BitVec.ofNat 32 EHDRSZ)
  let ehdr := overwrite junk 0 bs
  if res < 0 then (res, f, ehdr)
  else if ehdr.take 4 ≠ ELFMAG then (-EINVAL, f, ehdr)
  else if ehdr.getD 4 0#8 ≠ ELFCLASS32 then (-ENOTSUP, f, ehdr)
  else if eType ehdr ≠ ET_EXEC then (-ENOTSUP, f, ehdr)
  else (0, f, ehdr)

/-- `elf_read_phdr32(f, ehdr, i, phdr)`. -/
def elfReadPhdr32 (f : File FileOps) (ehdr : Ehdr) (i : Nat) (junk : Phdr) :
    Int × File FileOps × Phdr :=
  let (res, f) := fileLseek f (ePhoff ehdr + BitVec.ofNat 32 (i * PHDRSZ)) .seekSet
  if res < 0 then (res, f, junk)
  else
    let (res, bs, f) := fileRead d.read f true (BitVec.ofNat 32 PHDRSZ)
    if res < 0 then (res, f, overwrite junk 0 bs) else (0, f, overwrite junk 0 bs)

-- ---------------------------------------------------------------------------
-- Segments
-- ---------------------------------------------------------------------------

/-- The copy loop of `elf_load_seg32`: the result, the file, memory, and `vpos`. -/
def segCopyLoop (cr3 : Pme) (fend : Addr) : Nat → File FileOps → Mem → Addr →
    Option (Outcome Mem (Int × File FileOps × Mem × Addr))
  | 0, _, _, _ => none
  | fuel + 1, f, m, vpos =>
    if vpos < fend then
      let (res, bs, f) := fileRead d.read f (vpos != 0#32) (fend - vpos)
      match storeBytesV cr3 m vpos bs with
      | .ok m =>
        if res < 0 then some (.ok (res, f, m, vpos))
        else segCopyLoop cr3 fend fuel f m (vpos + BitVec.ofInt 32 res)
      | .fault m => some (.fault m)
      | .clobber => some .clobber
    else some (.ok (0, f, m, vpos))

/-- `elf_load_seg32(f, phdr)`. -/
def elfLoadSeg32 (fuel : Nat) (cr3 : Pme) (f : File FileOps) (m : Mem) (phdr : Phdr) :
    Option (Outcome Mem (Int × File FileOps × Mem)) :=
  let (res, f) := fileLseek f (pOffset phdr) .seekSet
  if res < 0 then some (.ok (res, f, m))
  else
    let vaddr := pVaddr phdr
    let fend := vaddr + pFilesz phdr
    let mend := vaddr + pMemsz phdr
    match segCopyLoop d cr3 fend fuel f m vaddr with
    | none => none
    | some (.fault m) => some (.fault m)
    | some .clobber => some .clobber
    | some (.ok (res, f, m, vpos)) =>
      if res < 0 then some (.ok (res, f, m))
      else
        match memsetV cr3 m vpos 0#8 (mend - vpos).toNat with
        | .ok m => some (.ok (0, f, m))
        | .fault m => some (.fault m)
        | .clobber => some .clobber

end Read

end Munix
