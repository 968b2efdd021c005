import Munix.Kernel.ProcessArgs
import Munix.Lib.RecordWalk

/-!
# Munix — what the bootloader hands over

The model of `read_boot_info` in `arch/i386/boot_mb2.c`: a list of tags in memory, each with a type, a size
and its data, and padded to 8 bytes.

* `readBootInfo_tags` — what is read is what the tags say, in whatever order they come.
* `readBootInfo_stuck` — a tag without extent is read for ever.
-/

namespace ByteMem

variable {m : Mem} {a : Addr} {bs cs : List (BitVec 8)}

theorem Holds.left (h : Holds m a (bs ++ cs)) : Holds m a bs := by
  intro i hi
  rw [h i (by rw [List.length_append]; omega), List.getElem_append_left hi]

theorem Holds.right (h : Holds m a (bs ++ cs)) :
    Holds m (a + BitVec.ofNat 32 bs.length) cs := by
  intro i hi
  have hlen : bs.length + i < (bs ++ cs).length := by
    rw [List.length_append]
    omega
  rw [BitVec.add_assoc, ← BitVec.ofNat_add, h _ hlen, List.getElem_append_right (Nat.le_add_right ..)]
  simp only [Nat.add_sub_cancel_left]

end ByteMem

namespace Munix

open ByteMem

-- ---------------------------------------------------------------------------
-- multiboot2.h
-- ---------------------------------------------------------------------------

def MULTIBOOT2_BOOTLOADER_MAGIC : BitVec 32 := 0x36d76289#32

def MULTIBOOT_TAG_ALIGN : BitVec 32 := 8#32

def MULTIBOOT_TAG_TYPE_END : BitVec 32 := 0#32
def MULTIBOOT_TAG_TYPE_CMDLINE : BitVec 32 := 1#32
def MULTIBOOT_TAG_TYPE_BOOT_LOADER_NAME : BitVec 32 := 2#32
def MULTIBOOT_TAG_TYPE_MODULE : BitVec 32 := 3#32
def MULTIBOOT_TAG_TYPE_BASIC_MEMINFO : BitVec 32 := 4#32
def MULTIBOOT_TAG_TYPE_MMAP : BitVec 32 := 6#32
def MULTIBOOT_TAG_TYPE_FRAMEBUFFER : BitVec 32 := 8#32
def MULTIBOOT_TAG_TYPE_LOAD_BASE_ADDR : BitVec 32 := 21#32

def MULTIBOOT_FRAMEBUFFER_TYPE_EGA_TEXT : Byte := 2#8

/-- `sizeof(struct multiboot_tag_mmap)` and `sizeof(struct multiboot_mmap_entry)`. -/
def MMAP_TAG_SIZE : BitVec 32 := 16#32
def MMAP_ENTRY_SIZE : BitVec 32 := 24#32

-- ---------------------------------------------------------------------------
-- boot_mb2.c
-- ---------------------------------------------------------------------------

/-- `struct boot_info`. -/
structure BootInfo where
  kernelLocation : Addr
  initrdAddr     : Addr
  initrdSize     : BitVec 32
  textFbAddr     : Addr
  textFbWidth    : BitVec 32
  textFbHeight   : BitVec 32
deriving DecidableEq

/-- An argument of `pr_info`: a number, a string of the kernel, or a string that the bootloader has left in
memory. -/
inductive InfoArg where
  | word (w : BitVec 32)
  | long (w : BitVec 64)
  | text (s : List Byte)
  | pointer (a : Addr)
deriving DecidableEq

/-- A call of `pr_info`, or of `log_result` with its result. -/
structure InfoLine where
  res  : Option Int
  fmt  : List Byte
  args : List InfoArg
deriving DecidableEq

def prInfo (fmt : String) (args : List InfoArg) : InfoLine := ⟨none, bytes fmt, args⟩

/-- An exception of the processor in the kernel. -/
inductive BootFault where
  | divide
deriving DecidableEq

/-- The word of a tag at an offset, and the two words there. -/
def tagWord (m : Mem) (tag : Addr) (off : BitVec 32) : BitVec 32 := load32 m (tag + off)
def tagLong (m : Mem) (tag : Addr) (off : BitVec 32) : BitVec 64 :=
  tagWord m tag (off + 4#32) ++ tagWord m tag off

def mmapTypestr (mmapType : BitVec 32) : List Byte :=
  if mmapType = 1#32 then bytes "AVAILABLE"
  else if mmapType = 2#32 then bytes "RESERVED"
  else if mmapType = 3#32 then bytes "ACPI_RECLAIMABLE"
  else if mmapType = 4#32 then bytes "NVS"
  else if mmapType = 5#32 then bytes "BAD_RAM"
  else bytes "unknown"

/-- A round of the loop over the entries of a memory map. -/
def mmapLine (m : Mem) (e : Addr) : InfoLine :=
  prInfo "\tentry: %#10llx: %#10llx bytes type %u %s\n"
    [.long (tagLong m e 0#32), .long (tagLong m e 8#32), .word (tagWord m e 16#32),
      .text (mmapTypestr (tagWord m e 16#32))]

/-- The `switch` of `read_boot_info`: the boot info after the tag, and what is logged. -/
def readTag (m : Mem) (tag : Addr) (b : BootInfo) : Except BootFault (BootInfo × List InfoLine) :=
  let type := tagWord m tag 0#32
  let size := tagWord m tag 4#32
  if type = MULTIBOOT_TAG_TYPE_END then .ok (b, [prInfo "tag: end\n" []])
  else if type = MULTIBOOT_TAG_TYPE_CMDLINE then
    .ok (b, [prInfo "tag: cmdline = \"%s\"\n" [.pointer (tag + 8#32)]])
  else if type = MULTIBOOT_TAG_TYPE_BOOT_LOADER_NAME then
    .ok (b, [prInfo "tag: bootloader name = \"%s\"\n" [.pointer (tag + 8#32)]])
  else if type = MULTIBOOT_TAG_TYPE_BASIC_MEMINFO then
    .ok (b, [prInfo "tag: mem info: lower=%uk, upper=%uk\n"
      [.word (tagWord m tag 8#32), .word (tagWord m tag 12#32)]])
  else if type = MULTIBOOT_TAG_TYPE_LOAD_BASE_ADDR then
    let addr := tagWord m tag 8#32
    .ok ({ b with kernelLocation := addr }, [prInfo "tag: load base addr = %p\n" [.word addr]])
  else if type = MULTIBOOT_TAG_TYPE_MMAP then
    let entrySize := tagWord m tag 8#32
    let head := prInfo "tag: memory map: entry version %u (entry size %ub)\n"
      [.word (tagWord m tag 12#32), .word entrySize]
    if entrySize = 0#32 then .error .divide
    else
      -- the entries are read at the size of the structure, whatever their size is
      let entryct := (size - MMAP_TAG_SIZE) / entrySize
      .ok (b, head :: (List.range entryct.toNat).map fun i =>
        mmapLine m (tag + MMAP_TAG_SIZE + MMAP_ENTRY_SIZE * BitVec.ofNat 32 i))
  else if type = MULTIBOOT_TAG_TYPE_FRAMEBUFFER then
    let addr := tagLong m tag 8#32
    let pitch := tagWord m tag 16#32
    let width := tagWord m tag 20#32
    let height := tagWord m tag 24#32
    let bpp := m (tag + 28#32)
    let fbType := m (tag + 29#32)
    let line := prInfo "tag: framebuffer: addr=%#llx, pitch=%u, width=%u, height=%u, bpp=%u, type=%u\n"
      [.long addr, .word pitch, .word width, .word height, .word (bpp.setWidth 32),
        .word (fbType.setWidth 32)]
    if fbType = MULTIBOOT_FRAMEBUFFER_TYPE_EGA_TEXT then
      .ok ({ b with textFbAddr := addr.setWidth 32, textFbWidth := width, textFbHeight := height }, [line])
    else .ok (b, [line])
  else if type = MULTIBOOT_TAG_TYPE_MODULE then
    let start := tagWord m tag 8#32
    let stop := tagWord m tag 12#32
    -- the string is the tag itself, from its second byte on
    .ok ({ b with initrdAddr := start, initrdSize := stop - start },
      [prInfo "tag: module: start=%#x, end=%#x, cmdline=\"%s\"\n"
        [.word start, .word stop, .pointer (tag + 1#32)]])
  else .ok (b, [prInfo "tag: type %2u (size %4u)\n" [.word type, .word size]])

/-- The loop of `read_boot_info`, over the tags up to `stop`. -/
def tagWalk (m : Mem) (stop : Addr) : RecordWalk Addr (BootInfo × List InfoLine) BootFault where
  inside pos := decide (pos < stop)
  read pos s := (readTag m pos s.1).map fun r => (r.1, s.2 ++ r.2)
  next pos := pos + alignUp (tagWord m pos 4#32) MULTIBOOT_TAG_ALIGN

/-- `read_boot_info(b)`, with the arguments of `_start_mb2`: its result, the boot info and the log. -/
def readBootInfo (fuel : Nat) (m : Mem) (mb2Magic : BitVec 32) (mb2BootInfo : Addr) (b : BootInfo) :
    Option (Except BootFault (Int × BootInfo × List InfoLine)) :=
  let res := if mb2Magic = MULTIBOOT2_BOOTLOADER_MAGIC then 0 else -EINVAL
  let magicLine : InfoLine := ⟨some res, bytes "got mb2 magic number %#x\n", [.word mb2Magic]⟩
  if res < 0 then some (.ok (0, b, [magicLine]))
  else
    let stop := mb2BootInfo + load32 m mb2BootInfo
    ((tagWalk m stop).run fuel (mb2BootInfo + 8#32)
      (b, [magicLine, prInfo "reading Multiboo2 boot info...\n" []])).map fun r => r.map fun s => (0, s)

-- ---------------------------------------------------------------------------
-- The format
-- ---------------------------------------------------------------------------

/-- `struct multiboot_mmap_entry`. -/
structure MmapEntry where
  addr : BitVec 64
  len  : BitVec 64
  type : BitVec 32
  zero : BitVec 32

/-- What a tag can say. -/
inductive BootTag where
  | fin
  | cmdline (string : List Byte)
  | bootLoaderName (string : List Byte)
  | basicMeminfo (memLower memUpper : BitVec 32)
  | loadBaseAddr (addr : BitVec 32)
  | mmap (version : BitVec 32) (entries : List MmapEntry)
  | framebuffer (addr : BitVec 64) (pitch width height : BitVec 32) (bpp fbType : Byte) (colour : List Byte)
  | mod (start stop : BitVec 32) (string : List Byte)
  | other (type : BitVec 32) (payload : List Byte)

def lowWord (v : BitVec 64) : BitVec 32 := v.setWidth 32
def highWord (v : BitVec 64) : BitVec 32 := v.extractLsb' 32 32

def MmapEntry.words (e : MmapEntry) : List (BitVec 32) :=
  [lowWord e.addr, highWord e.addr, lowWord e.len, highWord e.len, e.type, e.zero]

namespace BootTag

def type : BootTag → BitVec 32
  | fin => MULTIBOOT_TAG_TYPE_END
  | cmdline _ => MULTIBOOT_TAG_TYPE_CMDLINE
  | bootLoaderName _ => MULTIBOOT_TAG_TYPE_BOOT_LOADER_NAME
  | basicMeminfo .. => MULTIBOOT_TAG_TYPE_BASIC_MEMINFO
  | loadBaseAddr _ => MULTIBOOT_TAG_TYPE_LOAD_BASE_ADDR
  | mmap .. => MULTIBOOT_TAG_TYPE_MMAP
  | framebuffer .. => MULTIBOOT_TAG_TYPE_FRAMEBUFFER
  | mod .. => MULTIBOOT_TAG_TYPE_MODULE
  | other type _ => type

/-- The words behind the size. -/
def words : BootTag → List (BitVec 32)
  | basicMeminfo memLower memUpper => [memLower, memUpper]
  | loadBaseAddr addr => [addr]
  | mmap version entries => MMAP_ENTRY_SIZE :: version :: entries.flatMap MmapEntry.words
  | framebuffer addr pitch width height .. => [lowWord addr, highWord addr, pitch, width, height]
  | mod start stop _ => [start, stop]
  | _ => []

/-- The bytes behind the words. -/
def tail : BootTag → List Byte
  | cmdline string => string ++ [0#8]
  | bootLoaderName string => string ++ [0#8]
  | framebuffer _ _ _ _ bpp fbType colour => bpp :: fbType :: colour
  | mod _ _ string => string ++ [0#8]
  | other _ payload => payload
  | _ => []

/-- The size of a tag, and the room that it takes. -/
def size (t : BootTag) : Nat := 8 + 4 * t.words.length + t.tail.length
def room (t : BootTag) : Nat := (t.size + 7) / 8 * 8

def encode (t : BootTag) : List Byte :=
  (t.type :: BitVec.ofNat 32 t.size :: t.words).flatMap word ++ t.tail

/-- The types that `read_boot_info` knows. -/
def KNOWN_TYPES : List (BitVec 32) :=
  [MULTIBOOT_TAG_TYPE_END, MULTIBOOT_TAG_TYPE_CMDLINE, MULTIBOOT_TAG_TYPE_BOOT_LOADER_NAME,
    MULTIBOOT_TAG_TYPE_BASIC_MEMINFO, MULTIBOOT_TAG_TYPE_LOAD_BASE_ADDR, MULTIBOOT_TAG_TYPE_MMAP,
    MULTIBOOT_TAG_TYPE_FRAMEBUFFER, MULTIBOOT_TAG_TYPE_MODULE]

/-- The other tags are of other types. -/
def Valid : BootTag → Prop
  | other type _ => type ∉ KNOWN_TYPES
  | _ => True

/-- What the kernel takes from a tag. -/
def apply (b : BootInfo) : BootTag → BootInfo
  | loadBaseAddr addr => { b with kernelLocation := addr }
  | framebuffer addr _ width height _ fbType _ =>
    if fbType = MULTIBOOT_FRAMEBUFFER_TYPE_EGA_TEXT then
      { b with textFbAddr := addr.setWidth 32, textFbWidth := width, textFbHeight := height }
    else b
  | mod start stop _ => { b with initrdAddr := start, initrdSize := stop - start }
  | _ => b

/-- What it logs of a tag at `tag`. -/
def lines (tag : Addr) : BootTag → List InfoLine
  | fin => [prInfo "tag: end\n" []]
  | cmdline _ => [prInfo "tag: cmdline = \"%s\"\n" [.pointer (tag + 8#32)]]
  | bootLoaderName _ => [prInfo "tag: bootloader name = \"%s\"\n" [.pointer (tag + 8#32)]]
  | basicMeminfo memLower memUpper =>
    [prInfo "tag: mem info: lower=%uk, upper=%uk\n" [.word memLower, .word memUpper]]
  | loadBaseAddr addr => [prInfo "tag: load base addr = %p\n" [.word addr]]
  | mmap version entries =>
    prInfo "tag: memory map: entry version %u (entry size %ub)\n" [.word version, .word MMAP_ENTRY_SIZE] ::
      entries.map fun e => prInfo "\tentry: %#10llx: %#10llx bytes type %u %s\n"
        [.long e.addr, .long e.len, .word e.type, .text (mmapTypestr e.type)]
  | framebuffer addr pitch width height bpp fbType _ =>
    [prInfo "tag: framebuffer: addr=%#llx, pitch=%u, width=%u, height=%u, bpp=%u, type=%u\n"
      [.long addr, .word pitch, .word width, .word height, .word (bpp.setWidth 32),
        .word (fbType.setWidth 32)]]
  | mod start stop _ =>
    [prInfo "tag: module: start=%#x, end=%#x, cmdline=\"%s\"\n"
      [.word start, .word stop, .pointer (tag + 1#32)]]
  | t@(other type _) => [prInfo "tag: type %2u (size %4u)\n" [.word type, .word (BitVec.ofNat 32 t.size)]]

end BootTag

/-- The tags are in memory from `p` to `q`, each padded to 8 bytes. -/
inductive TagsAt (m : Mem) : Addr → List BootTag → Addr → Prop where
  | nil (p : Addr) : TagsAt m p [] p
  | cons {p q : Addr} {t : BootTag} {ts : List BootTag} (hvalid : t.Valid) (hholds : Holds m p t.encode)
      (hfits : p.toNat + t.room < 2 ^ 32) (hrest : TagsAt m (p + BitVec.ofNat 32 t.room) ts q) :
      TagsAt m p (t :: ts) q

/-- What is logged of all of them. -/
def tagLines : Addr → List BootTag → List InfoLine
  | _, [] => []
  | p, t :: ts => t.lines p ++ tagLines (p + BitVec.ofNat 32 t.room) ts

-- ---------------------------------------------------------------------------
-- Words of a tag
-- ---------------------------------------------------------------------------

section Words

variable {m : Mem} {a : Addr}

theorem length_flatMap_word (ws : List (BitVec 32)) : (ws.flatMap word).length = 4 * ws.length := by
  induction ws with
  | nil => rfl
  | cons w ws ih =>
    rw [List.flatMap_cons, List.length_append, ih, List.length_cons]
    change 4 + 4 * ws.length = _
    omega

theorem holds_word {ws : List (BitVec 32)} (h : Holds m a (ws.flatMap word)) {i : Nat} {v : BitVec 32}
    (hi : ws[i]? = some v) : load32 m (a + BitVec.ofNat 32 (4 * i)) = v := by
  induction ws generalizing a i with
  | nil => cases hi
  | cons w ws ih =>
    rw [List.flatMap_cons] at h
    cases i with
    | zero =>
      obtain rfl : w = v := by simpa using hi
      have hzero : a + BitVec.ofNat 32 (4 * 0) = a := BitVec.add_zero a
      rw [hzero]
      exact load32_of_holds h.left
    | succ i =>
      have hnext : a + BitVec.ofNat 32 (4 * (i + 1)) = a + BitVec.ofNat 32 4 + BitVec.ofNat 32 (4 * i) := by
        rw [BitVec.add_assoc, ← BitVec.ofNat_add, Nat.mul_succ, Nat.add_comm]
      rw [hnext]
      exact ih h.right (by simpa using hi)

theorem BootTag.word {t : BootTag} (h : Holds m a t.encode) (i : Nat) {v : BitVec 32}
    (hi : (t.type :: BitVec.ofNat 32 t.size :: t.words)[i]? = some v) :
    tagWord m a (BitVec.ofNat 32 (4 * i)) = v :=
  holds_word h.left hi

theorem BootTag.byte {t : BootTag} (h : Holds m a t.encode) (i : Nat) {v : Byte} (hi : t.tail[i]? = some v) :
    m (a + BitVec.ofNat 32 (8 + 4 * t.words.length + i)) = v := by
  obtain ⟨hlt, hv⟩ := List.getElem?_eq_some_iff.mp hi
  have hright := h.right i hlt
  rw [length_flatMap_word, List.length_cons, List.length_cons, BitVec.add_assoc, ← BitVec.ofNat_add,
    hv] at hright
  rw [← hright]
  congr 3
  omega

theorem highWord_append_lowWord (v : BitVec 64) : highWord v ++ lowWord v = v := by
  apply BitVec.eq_of_getLsbD_eq
  intro i hi
  rw [BitVec.getLsbD_append]
  by_cases hlow : i < 32
  · simp [lowWord, hlow]
  · simp [highWord, hlow, show i - 32 < 32 by omega, show 32 + (i - 32) = i by omega]

end Words

-- ---------------------------------------------------------------------------
-- One tag
-- ---------------------------------------------------------------------------

section Tag

variable {m : Mem} {tag : Addr}

/-- The entries of a memory map. -/
theorem mmapLine_entry {es : List MmapEntry} {a : Addr}
    (h : Holds m a ((es.flatMap MmapEntry.words).flatMap word)) {i : Nat} {e : MmapEntry}
    (hi : es[i]? = some e) : mmapLine m (a + MMAP_ENTRY_SIZE * BitVec.ofNat 32 i) =
      prInfo "\tentry: %#10llx: %#10llx bytes type %u %s\n" [.long e.addr, .long e.len, .word e.type, .text (mmapTypestr e.type)] := by
  induction es generalizing a i with
  | nil => cases hi
  | cons d es ih =>
    rw [List.flatMap_cons, List.flatMap_append] at h
    cases i with
    | zero =>
      obtain rfl : d = e := by simpa using hi
      have hbase : a + MMAP_ENTRY_SIZE * BitVec.ofNat 32 0 = a := by simp
      have hw : ∀ i v, d.words[i]? = some v → tagWord m a (BitVec.ofNat 32 (4 * i)) = v := fun i v hv =>
        holds_word h.left hv
      have h0 := hw 0 _ rfl
      have h1 := hw 1 _ rfl
      have h2 := hw 2 _ rfl
      have h3 := hw 3 _ rfl
      have h4 := hw 4 _ rfl
      simp only [Nat.mul_zero, Nat.reduceMul] at h0 h1 h2 h3 h4
      rw [hbase, mmapLine, tagLong, tagLong]
      simp only [BitVec.reduceAdd, h0, h1, h2, h3, h4, highWord_append_lowWord]
    | succ i =>
      have hlen : (d.words.flatMap word).length = 24 := by
        rw [length_flatMap_word]
        rfl
      have hright := h.right
      rw [hlen] at hright
      have hnext : a + MMAP_ENTRY_SIZE * BitVec.ofNat 32 (i + 1) =
          a + BitVec.ofNat 32 24 + MMAP_ENTRY_SIZE * BitVec.ofNat 32 i := by
        rw [MMAP_ENTRY_SIZE, BitVec.ofNat_add]
        bv_omega
      rw [hnext]
      exact ih hright (by simpa using hi)

/-- The number of the entries. -/
theorem mmap_entryct (entries : List MmapEntry) {n : Nat} (hn : n = 16 + 24 * entries.length)
    (hlt : n < 2 ^ 32) : ((BitVec.ofNat 32 n - MMAP_TAG_SIZE) / MMAP_ENTRY_SIZE).toNat = entries.length := by
  subst hn
  have hsub : (BitVec.ofNat 32 (16 + 24 * entries.length) - MMAP_TAG_SIZE).toNat = 24 * entries.length := by
    rw [MMAP_TAG_SIZE]
    bv_omega
  rw [BitVec.toNat_udiv, hsub]
  change 24 * entries.length / 24 = _
  omega

/-- A tag is read as what it says. -/
theorem readTag_encode {t : BootTag} (hvalid : t.Valid) (h : Holds m tag t.encode) (hlt : t.size < 2 ^ 32)
    (b : BootInfo) : readTag m tag b = .ok (t.apply b, t.lines tag) := by
  have htype : tagWord m tag 0#32 = t.type := t.word h 0 rfl
  have hsize : tagWord m tag 4#32 = BitVec.ofNat 32 t.size := t.word h 1 rfl
  have hword : ∀ i v, t.words[i]? = some v → tagWord m tag (BitVec.ofNat 32 (8 + 4 * i)) = v := by
    intro i v hv
    have hi := t.word h (i + 2) (by simpa using hv)
    rwa [show 4 * (i + 2) = 8 + 4 * i by omega] at hi
  rw [readTag]
  simp only [htype, hsize]
  cases t with
  | fin => rfl
  | cmdline string => rfl
  | bootLoaderName string => rfl
  | basicMeminfo memLower memUpper =>
    have h8 : tagWord m tag 8#32 = memLower := hword 0 _ rfl
    have h12 : tagWord m tag 12#32 = memUpper := hword 1 _ rfl
    rw [h8, h12]
    rfl
  | loadBaseAddr addr =>
    have h8 : tagWord m tag 8#32 = addr := hword 0 _ rfl
    rw [h8]
    rfl
  | mmap version entries =>
    have h8 : tagWord m tag 8#32 = MMAP_ENTRY_SIZE := hword 0 _ rfl
    have h12 : tagWord m tag 12#32 = version := hword 1 _ rfl
    have hbytes : BootTag.size (.mmap version entries) = 16 + 24 * entries.length := by
      have hflat : (entries.flatMap MmapEntry.words).length = 6 * entries.length := by
        rw [List.length_flatMap]
        simp [MmapEntry.words, Nat.mul_comm]
      simp only [BootTag.size, BootTag.words, BootTag.tail, List.length_cons, List.length_nil, hflat]
      omega
    have hct := mmap_entryct entries hbytes hlt
    have hentries : Holds m (tag + MMAP_TAG_SIZE) ((entries.flatMap MmapEntry.words).flatMap word) := by
      have hsplit : BootTag.encode (.mmap version entries) =
          ([MULTIBOOT_TAG_TYPE_MMAP, BitVec.ofNat 32 (BootTag.size (.mmap version entries)), MMAP_ENTRY_SIZE,
            version].flatMap word) ++ (entries.flatMap MmapEntry.words).flatMap word := by
        simp [BootTag.encode, BootTag.words, BootTag.tail, BootTag.type]
      rw [hsplit] at h
      exact h.right
    simp only [h8, h12, hct]
    have hlines : ((List.range entries.length).map fun i =>
        mmapLine m (tag + MMAP_TAG_SIZE + MMAP_ENTRY_SIZE * BitVec.ofNat 32 i)) =
        entries.map fun e => prInfo "\tentry: %#10llx: %#10llx bytes type %u %s\n"
          [.long e.addr, .long e.len, .word e.type, .text (mmapTypestr e.type)] := by
      refine List.ext_getElem (by simp) fun i hi _ => ?_
      simp only [List.length_map, List.length_range] at hi
      rw [List.getElem_map, List.getElem_map, List.getElem_range]
      exact mmapLine_entry hentries (List.getElem?_eq_getElem hi)
    rw [hlines]
    rfl
  | framebuffer addr pitch width height bpp fbType colour =>
    have h8 : tagWord m tag 8#32 = lowWord addr := hword 0 _ rfl
    have h12 : tagWord m tag 12#32 = highWord addr := hword 1 _ rfl
    have h16 : tagWord m tag 16#32 = pitch := hword 2 _ rfl
    have h20 : tagWord m tag 20#32 = width := hword 3 _ rfl
    have h24 : tagWord m tag 24#32 = height := hword 4 _ rfl
    have h28 : m (tag + 28#32) = bpp := BootTag.byte h 0 rfl
    have h29 : m (tag + 29#32) = fbType := BootTag.byte h 1 rfl
    have hlong : tagLong m tag 8#32 = addr := by
      rw [tagLong]
      simp only [BitVec.reduceAdd, h8, h12, highWord_append_lowWord]
    simp only [hlong, h16, h20, h24, h28, h29]
    by_cases hega : fbType = MULTIBOOT_FRAMEBUFFER_TYPE_EGA_TEXT
    · subst hega
      rfl
    · simp only [BootTag.apply, if_neg hega]
      rfl
  | mod start stop string =>
    have h8 : tagWord m tag 8#32 = start := hword 0 _ rfl
    have h12 : tagWord m tag 12#32 = stop := hword 1 _ rfl
    rw [h8, h12]
    rfl
  | other type payload =>
    have hother : type ∉ BootTag.KNOWN_TYPES := hvalid
    simp only [BootTag.KNOWN_TYPES, List.mem_cons, List.not_mem_nil, or_false, not_or] at hother
    obtain ⟨hfin, hcmd, hname, hinfo, hbase, hmmap, hfb, hmod⟩ := hother
    simp only [BootTag.type, hfin, hcmd, hname, hinfo, hbase, hmmap, hfb, hmod, if_false]
    rfl

/-- The command line of a module is logged as an empty string: it begins inside of the type. -/
theorem module_logs_nothing {start stop : BitVec 32} {string : List Byte}
    (h : Holds m tag (BootTag.encode (.mod start stop string))) : m (tag + 1#32) = 0#8 := by
  have hwords := h.left
  rw [List.flatMap_cons] at hwords
  have htype : Holds m tag (word MULTIBOOT_TAG_TYPE_MODULE) := hwords.left
  exact htype 1 (by decide)

end Tag

-- ---------------------------------------------------------------------------
-- All tags
-- ---------------------------------------------------------------------------

section Walk

variable {m : Mem} {p q stop : Addr} {ts : List BootTag}

theorem BootTag.room_pos (t : BootTag) : t.size ≤ t.room ∧ 8 ≤ t.room := by
  have hsize : 8 ≤ t.size := by
    unfold BootTag.size
    omega
  unfold BootTag.room
  omega

theorem alignUp8_toNat {x : BitVec 32} (h : x.toNat + 7 < 2 ^ 32) :
    (alignUp x MULTIBOOT_TAG_ALIGN).toNat = (x.toNat + 7) / 8 * 8 := by
  have hadd : (x + 7#32).toNat = x.toNat + 7 := by bv_omega
  rw [← hadd]
  exact and_not_low_toNat (x + 7#32) 3

/-- The next tag is behind the padding. -/
theorem tagWalk_next {t : BootTag} (h : Holds m p t.encode) (hfits : p.toNat + t.room < 2 ^ 32)
    (stop : Addr) : (tagWalk m stop).next p = p + BitVec.ofNat 32 t.room := by
  have hsize : tagWord m p 4#32 = BitVec.ofNat 32 t.size := t.word h 1 rfl
  have hroom := t.room_pos
  have hnat : (BitVec.ofNat 32 t.size).toNat = t.size := by
    rw [BitVec.toNat_ofNat]
    omega
  have hpad : alignUp (BitVec.ofNat 32 t.size) MULTIBOOT_TAG_ALIGN = BitVec.ofNat 32 t.room := by
    apply BitVec.eq_of_toNat_eq
    have hup : t.size + 7 < 2 ^ 32 := by
      unfold BootTag.room at hfits
      omega
    rw [alignUp8_toNat (by rw [hnat]; exact hup), hnat, BitVec.toNat_ofNat, Nat.mod_eq_of_lt (by omega)]
    rfl
  change p + alignUp (tagWord m p 4#32) MULTIBOOT_TAG_ALIGN = _
  rw [hsize, hpad]

theorem TagsAt.le (h : TagsAt m p ts q) : p ≤ q := by
  induction h with
  | nil p => exact BitVec.le_refl p
  | @cons p q t ts hvalid hholds hfits _ ih =>
    have := t.room_pos
    bv_omega

/-- The tags are visited one after the other. -/
theorem TagsAt.visits (h : TagsAt m p ts q) (hstop : q ≤ stop) (s : BootInfo × List InfoLine) :
    ∃ ps, (tagWalk m stop).Visits p s ps q (ts.foldl BootTag.apply s.1, s.2 ++ tagLines p ts) ∧
      ps.length = ts.length := by
  induction h generalizing s with
  | nil p =>
    refine ⟨[], ?_, rfl⟩
    rw [tagLines, List.append_nil]
    exact .nil p s
  | @cons p q t ts hvalid hholds hfits hrest ih =>
    have hroom := t.room_pos
    have hle := hrest.le
    obtain ⟨ps, hps, hlen⟩ := ih hstop (t.apply s.1, s.2 ++ t.lines p)
    refine ⟨p :: ps, ?_, by rw [List.length_cons, List.length_cons, hlen]⟩
    rw [List.append_assoc, ← tagWalk_next hholds hfits stop] at hps
    rw [tagLines, List.foldl_cons, ← tagWalk_next hholds hfits stop]
    refine .cons (decide_eq_true (by bv_omega)) ?_ hps
    change (readTag m p s.1).map _ = _
    rw [readTag_encode hvalid hholds (by omega)]
    rfl

end Walk

-- ---------------------------------------------------------------------------
-- The boot info
-- ---------------------------------------------------------------------------

/-- What is logged before the tags. -/
def bootLines : List InfoLine :=
  [⟨some 0, bytes "got mb2 magic number %#x\n", [.word MULTIBOOT2_BOOTLOADER_MAGIC]⟩,
    prInfo "reading Multiboo2 boot info...\n" []]

theorem readBootInfo_eq (fuel : Nat) (m : Mem) (info : Addr) (b : BootInfo) :
    readBootInfo fuel m MULTIBOOT2_BOOTLOADER_MAGIC info b =
      ((tagWalk m (info + load32 m info)).run fuel (info + 8#32) (b, bootLines)).map fun r =>
        r.map fun s => (0, s) := by
  rw [readBootInfo, if_pos rfl, if_neg (by decide)]
  rfl

/-- The tags are read as what they say, and whatever is in the padding. -/
theorem readBootInfo_tags {m : Mem} {info : Addr} {tags : List BootTag}
    (h : TagsAt m (info + 8#32) tags (info + load32 m info)) (b : BootInfo) {fuel : Nat}
    (hfuel : tags.length < fuel) :
    readBootInfo fuel m MULTIBOOT2_BOOTLOADER_MAGIC info b =
      some (.ok (0, tags.foldl BootTag.apply b, bootLines ++ tagLines (info + 8#32) tags)) := by
  obtain ⟨ps, hvisits, hlen⟩ := h.visits (BitVec.le_refl _) (b, bootLines)
  rw [readBootInfo_eq, hvisits.ends (decide_eq_false (by bv_omega)) (by rw [hlen]; exact hfuel)]
  rfl

-- ---------------------------------------------------------------------------
-- What a bootloader writes
-- ---------------------------------------------------------------------------

/-- The tags one after the other, each padded to 8 bytes. -/
def encodeTags (tags : List BootTag) : List Byte :=
  tags.flatMap fun t => t.encode ++ List.replicate (t.room - t.size) 0#8

/-- The tags behind a `struct mb2_boot_info`. -/
def encodeBootInfo (tags : List BootTag) : List Byte :=
  word (BitVec.ofNat 32 (8 + (encodeTags tags).length)) ++ word 0#32 ++ encodeTags tags

section Encode

variable {m : Mem} {p info : Addr} {tags : List BootTag}

theorem BootTag.length_encode (t : BootTag) : t.encode.length = t.size := by
  rw [encode, List.length_append, length_flatMap_word, size, List.length_cons, List.length_cons]
  omega

theorem length_encodeTags_cons (t : BootTag) (tags : List BootTag) :
    (encodeTags (t :: tags)).length = t.room + (encodeTags tags).length := by
  have hroom := t.room_pos
  rw [encodeTags, List.flatMap_cons, List.length_append, List.length_append, t.length_encode,
    List.length_replicate, Nat.add_sub_cancel' hroom.1]
  rfl

theorem length_encodeBootInfo (tags : List BootTag) :
    (encodeBootInfo tags).length = 8 + (encodeTags tags).length := by
  rw [encodeBootInfo, List.length_append]
  rfl

/-- The tags that are written are there. -/
theorem TagsAt.of_holds (hvalid : ∀ t ∈ tags, t.Valid) (h : Holds m p (encodeTags tags))
    (hfits : p.toNat + (encodeTags tags).length < 2 ^ 32) :
    TagsAt m p tags (p + BitVec.ofNat 32 (encodeTags tags).length) := by
  induction tags generalizing p with
  | nil =>
    rw [show encodeTags [] = [] from rfl, List.length_nil, BitVec.add_zero]
    exact .nil p
  | cons t tags ih =>
    have hroom := t.room_pos
    rw [length_encodeTags_cons] at hfits ⊢
    rw [encodeTags, List.flatMap_cons] at h
    have hpadded : (t.encode ++ List.replicate (t.room - t.size) 0#8).length = t.room := by
      rw [List.length_append, t.length_encode, List.length_replicate, Nat.add_sub_cancel' hroom.1]
    have hright := h.right
    rw [hpadded] at hright
    have hnat : (p + BitVec.ofNat 32 t.room).toNat = p.toNat + t.room := by bv_omega
    have hrest := ih (fun u hu => hvalid u (List.mem_cons_of_mem _ hu)) hright (by rw [hnat]; omega)
    rw [BitVec.add_assoc, ← BitVec.ofNat_add] at hrest
    exact .cons (hvalid t List.mem_cons_self) h.left.left (by omega) hrest

theorem TagsAt.of_bootInfo (hvalid : ∀ t ∈ tags, t.Valid) (h : Holds m info (encodeBootInfo tags))
    (hfits : info.toNat + (encodeBootInfo tags).length < 2 ^ 32) :
    TagsAt m (info + 8#32) tags (info + load32 m info) := by
  rw [length_encodeBootInfo] at hfits
  have htotal : load32 m info = 8#32 + BitVec.ofNat 32 (encodeTags tags).length := by
    rw [load32_of_holds h.left.left, BitVec.ofNat_add]
  have hnat : (info + 8#32).toNat = info.toNat + 8 := by bv_omega
  rw [htotal, ← BitVec.add_assoc]
  exact .of_holds hvalid h.right (by rw [hnat]; omega)

end Encode

/-- **What a bootloader writes is what the kernel reads.** Whatever the tags are and in whatever order they
come, each of them is read once, also those behind the end tag, and of two that say the same the last
one counts. -/
theorem readBootInfo_encode {m : Mem} {info : Addr} {tags : List BootTag} (hvalid : ∀ t ∈ tags, t.Valid)
    (h : Holds m info (encodeBootInfo tags)) (hfits : info.toNat + (encodeBootInfo tags).length < 2 ^ 32)
    (b : BootInfo) {fuel : Nat} (hfuel : tags.length < fuel) :
    readBootInfo fuel m MULTIBOOT2_BOOTLOADER_MAGIC info b =
      some (.ok (0, tags.foldl BootTag.apply b, bootLines ++ tagLines (info + 8#32) tags)) :=
  readBootInfo_tags (.of_bootInfo hvalid h hfits) b hfuel

/-- A module and the end tag. -/
def exampleTags : List BootTag := [.mod 0x200000#32 0x203000#32 [0x69#8], .fin]

/-- A boot info with them. -/
def exampleBootMem : Mem := memPut (fun _ => 0#8) 0x9000#32 (encodeBootInfo exampleTags)

theorem readBootInfo_encode_initrd :
    readBootInfo 3 exampleBootMem MULTIBOOT2_BOOTLOADER_MAGIC 0x9000#32
        ⟨0#32, 0#32, 0#32, 0#32, 80#32, 25#32⟩ =
      some (.ok (0, ⟨0#32, 0x200000#32, 0x3000#32, 0#32, 80#32, 25#32⟩,
        bootLines ++ tagLines 0x9008#32 exampleTags)) :=
  @readBootInfo_encode _ _ exampleTags (by simp [exampleTags, BootTag.Valid]) (memPut_holds _ _ (by decide))
    (by decide) _ _ (by decide)

/-- **A tag without extent is read for ever.** If behind some tags, and before the end, there is a tag whose
size is 0 or rounds up to 0, and that is not a memory map, then the kernel does not come out of
`read_boot_info`. -/
theorem readBootInfo_stuck {m : Mem} {info q : Addr} {tags : List BootTag} (h : TagsAt m (info + 8#32) tags q)
    (hin : q < info + load32 m info) (hsize : alignUp (tagWord m q 4#32) MULTIBOOT_TAG_ALIGN = 0#32)
    (hmmap : tagWord m q 0#32 ≠ MULTIBOOT_TAG_TYPE_MMAP) (b : BootInfo) (fuel : Nat) :
    readBootInfo fuel m MULTIBOOT2_BOOTLOADER_MAGIC info b = none := by
  obtain ⟨ps, hvisits, -⟩ := h.visits (BitVec.le_of_lt hin) (b, bootLines)
  rw [readBootInfo_eq, hvisits.stuck (decide_eq_true hin) ?_ (fun s => ?_) fuel]
  · rfl
  · change q + alignUp (tagWord m q 4#32) MULTIBOOT_TAG_ALIGN = q
    rw [hsize, BitVec.add_zero]
  · have hread : ∃ r, readTag m q s.1 = .ok r := by
      simp only [readTag, if_neg hmmap]
      split_ifs <;> exact ⟨_, rfl⟩
    obtain ⟨r, hr⟩ := hread
    refine ⟨(r.1, s.2 ++ r.2), ?_⟩
    change (readTag m q s.1).map _ = _
    rw [hr]
    rfl

/-- The same tags, with a total size that reaches into the zeroes behind them. -/
def exampleLongMem : Mem :=
  memPut (fun _ => 0#8) 0x9000#32 (word 48#32 ++ word 0#32 ++ encodeTags exampleTags)

theorem exampleLongMem_tags : TagsAt exampleLongMem (0x9000#32 + 8#32) exampleTags 0x9028#32 := by
  have hholds : Holds exampleLongMem 0x9000#32 (word 48#32 ++ word 0#32 ++ encodeTags exampleTags) :=
    memPut_holds _ _ (by decide)
  exact .of_holds (by simp [exampleTags, BootTag.Valid]) hholds.right (by decide)

theorem readBootInfo_stuck_zeroes :
    readBootInfo 1000000 exampleLongMem MULTIBOOT2_BOOTLOADER_MAGIC 0x9000#32
      ⟨0#32, 0#32, 0#32, 0#32, 80#32, 25#32⟩ = none :=
  readBootInfo_stuck exampleLongMem_tags (by decide) (by decide) (by decide) _ _

end Munix
