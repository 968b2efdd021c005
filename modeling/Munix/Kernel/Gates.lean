import Munix.Kernel.Pagemap
import Munix.Lib.X86Gates

/-!
# Munix — segments, gates and the ways into the kernel

The descriptor tables of `arch/i386/x86_seg.c` and `arch/i386/cpu_interrupt.c` on the
machine of `Munix.Lib.X86Gates`: what `init_cpu` puts into memory and into the
processor, and what this makes of every event in user code.

* `initCpu_installed` — `init_cpu` leaves the tables installed.
* `Installed.event` — where an event in user code goes, for every vector.
-/

namespace Munix

open ByteMem X86

-- ---------------------------------------------------------------------------
-- Descriptors
-- ---------------------------------------------------------------------------

def PL_KERNEL : BitVec 2 := 0#2
def PL_USER : BitVec 2 := 3#2

def X86ST_CODE_R : BitVec 5 := 0x1a#5
def X86ST_DATA_W : BitVec 5 := 0x12#5
def X86ST_TSS : BitVec 5 := 0x09#5
def X86ST_INTRGATE : BitVec 5 := 0x0e#5

/-- A bit-field at a position of its word. -/
def bitField {w : Nat} (pos : Nat) (v : BitVec w) : BitVec 32 := v.setWidth 32 <<< pos

/-- `struct segdesc32`. -/
structure Segdesc32 where
  limitLow    : BitVec 16
  baseLow     : BitVec 16
  baseMid     : BitVec 8
  type        : BitVec 5
  dpl         : BitVec 2
  present     : BitVec 1
  limitHigh   : BitVec 4
  avail       : BitVec 1
  db          : BitVec 1
  granularity : BitVec 1
  baseHigh    : BitVec 8
deriving DecidableEq

/-- `(struct segdesc32){}`. -/
def Segdesc32.zero : Segdesc32 := ⟨0, 0, 0, 0, 0, 0, 0, 0, 0, 0, 0⟩

/-- Bit-fields are allocated from the lowest bit of a word on. -/
def Segdesc32.raw (d : Segdesc32) : RawDesc where
  lo := bitField 0 d.limitLow ||| bitField 16 d.baseLow
  hi := bitField 0 d.baseMid ||| bitField 8 d.type ||| bitField 13 d.dpl ||| bitField 15 d.present |||
    bitField 16 d.limitHigh ||| bitField 20 d.avail ||| bitField 22 d.db ||| bitField 23 d.granularity |||
    bitField 24 d.baseHigh

/-- `struct gate32`. -/
structure Gate32 where
  offsetLow  : BitVec 16
  segsel     : BitVec 16
  type       : BitVec 5
  dpl        : BitVec 2
  present    : BitVec 1
  offsetHigh : BitVec 16
deriving DecidableEq

def Gate32.raw (g : Gate32) : RawDesc where
  lo := bitField 0 g.offsetLow ||| bitField 16 g.segsel
  hi := bitField 8 g.type ||| bitField 13 g.dpl ||| bitField 15 g.present ||| bitField 16 g.offsetHigh

/-- `X86_SEGSEL_INIT(idx, rpl)`. -/
def x86SegselInit (idx : Nat) (rpl : BitVec 2) : BitVec 16 := BitVec.ofNat 16 idx <<< 3 ||| rpl.setWidth 16

/-- `enum ksegidx`. -/
def KSEG_KERNEL_CODE : Nat := 1
def KSEG_KERNEL_DATA : Nat := 2
def KSEG_USER_CODE : Nat := 3
def KSEG_USER_DATA : Nat := 4
def KSEG_TSS : Nat := 5
def KSEG_COUNT : Nat := 6

def SEL_KCODE : BitVec 16 := x86SegselInit KSEG_KERNEL_CODE PL_KERNEL
def SEL_KDATA : BitVec 16 := x86SegselInit KSEG_KERNEL_DATA PL_KERNEL
def SEL_UCODE : BitVec 16 := x86SegselInit KSEG_USER_CODE PL_USER
def SEL_UDATA : BitVec 16 := x86SegselInit KSEG_USER_DATA PL_USER
def SEL_TSS : BitVec 16 := x86SegselInit KSEG_TSS PL_KERNEL

/-- A segment with the fields of `GDT_COMMON`. -/
def gdtCommon (type : BitVec 5) (dpl : BitVec 2) : Segdesc32 :=
  { Segdesc32.zero with
    limitLow := 0xffff#16, limitHigh := 0xf#4, granularity := 1#1, present := 1#1, db := 1#1
    type := type, dpl := dpl }

/-- `kernel_gdt`, as it is in the image. -/
def kernelGdt : Nat → Segdesc32
  | 1 => gdtCommon X86ST_CODE_R PL_KERNEL
  | 2 => gdtCommon X86ST_DATA_W PL_KERNEL
  | 3 => gdtCommon X86ST_CODE_R PL_USER
  | 4 => gdtCommon X86ST_DATA_W PL_USER
  | _ => .zero

/-- `sizeof(struct tss32)`. -/
def TSS32_SIZE : BitVec 32 := 104#32

/-- The descriptor that `init_tss` makes for the segment at `tss`. -/
def tssDesc (tss : Addr) : Segdesc32 where
  baseLow     := (tss &&& 0x0000ffff#32).setWidth 16
  baseMid     := ((tss &&& 0x00ff0000#32) >>> 16).setWidth 8
  baseHigh    := ((tss &&& 0xff000000#32) >>> 24).setWidth 8
  limitLow    := (TSS32_SIZE &&& 0x0ffff#32).setWidth 16
  limitHigh   := ((TSS32_SIZE &&& 0xf0000#32) >>> 16).setWidth 4
  granularity := 0#1
  present     := 1#1
  db          := 1#1
  avail       := 0#1
  type        := X86ST_TSS
  dpl         := PL_KERNEL

-- ---------------------------------------------------------------------------
-- Handlers
-- ---------------------------------------------------------------------------

/-- A handler, declared with `ISR` or, if it takes an error code, with `ISR_E`. -/
structure Isr where
  vec     : Nat
  errcode : Bool
deriving DecidableEq

def IVEC_IRQ_0 : Nat := 32
def IVEC_SYSCALL : Nat := 48
def IRQ_TIMER : Nat := 0

def isr0 : Isr := ⟨0, false⟩
def isr6 : Isr := ⟨6, false⟩
def isr8 : Isr := ⟨8, true⟩
def isr10 : Isr := ⟨10, true⟩
def isr11 : Isr := ⟨11, true⟩
def isr12 : Isr := ⟨12, true⟩
def isr13 : Isr := ⟨13, true⟩
def isr14 : Isr := ⟨14, true⟩
def isrIrq0 : Isr := ⟨IVEC_IRQ_0 + IRQ_TIMER, false⟩

/-- `HANDLERS`. -/
def HANDLERS : List (Nat × Isr) :=
  [(0, isr0), (6, isr6), (8, isr8), (10, isr10), (11, isr11), (12, isr12), (13, isr13), (14, isr14),
    (IVEC_IRQ_0 + IRQ_TIMER, isrIrq0)]

def INTR_GATE_MAX : Nat := 64

/-- Where the linker has put the tables and the handlers. The tables lie side by side in
the range of the kernel. -/
structure GateImage where
  kernelGdt  : Addr
  idt        : Addr
  kernelTss  : Addr
  isr        : Isr → Addr
  isrSyscall : Addr
  gdt_fits   : kernelGdt.toNat + 48 ≤ 0x400000
  idt_fits   : idt.toNat + 512 ≤ 0x400000
  tss_fits   : kernelTss.toNat + 104 ≤ 0x400000
  gdt_idt    : kernelGdt.toNat + 48 ≤ idt.toNat ∨ idt.toNat + 512 ≤ kernelGdt.toNat
  gdt_tss    : kernelGdt.toNat + 48 ≤ kernelTss.toNat ∨ kernelTss.toNat + 104 ≤ kernelGdt.toNat
  idt_tss    : idt.toNat + 512 ≤ kernelTss.toNat ∨ kernelTss.toNat + 104 ≤ idt.toNat

-- ---------------------------------------------------------------------------
-- Initialization
-- ---------------------------------------------------------------------------

/-- The gate that `x86_idt_add_isr` makes. -/
def isrGate (isrFn : Addr) (dpl : BitVec 2) : Gate32 where
  offsetLow  := (isrFn &&& 0x0000ffff#32).setWidth 16
  offsetHigh := ((isrFn &&& 0xffff0000#32) >>> 16).setWidth 16
  segsel     := SEL_KCODE
  dpl        := dpl
  type       := X86ST_INTRGATE
  present    := 1#1

def x86IdtAddIsr (idt : Addr) (m : Mem) (vec : Nat) (isrFn : Addr) (dpl : BitVec 2) : Mem :=
  (isrGate isrFn dpl).raw.write m (descSlot idt vec)

variable (I : GateImage)

/-- `lgdt`, the segment registers, and a jump to the next instruction `next`. The segments
`fs` and `gs` are left out. -/
def initGdt (c : Cpu) (next : Addr) : X86.Outcome :=
  let c := { c with gdtr := ⟨I.kernelGdt, BitVec.ofNat 16 (8 * KSEG_COUNT)⟩ }
  ((((movToSs c SEL_KDATA).bind fun c => movToSeg c .es SEL_KDATA).bind fun c =>
    movToSeg c .ds SEL_KDATA).bind fun c => farJmp c SEL_KCODE next)

def x86InitIdt (c : Cpu) : Cpu :=
  let m := HANDLERS.foldl (fun m h => x86IdtAddIsr I.idt m h.1 (I.isr h.2) PL_KERNEL) c.mem
  { c with
    toState := c.setMem (x86IdtAddIsr I.idt m IVEC_SYSCALL I.isrSyscall PL_USER)
    idtr := ⟨I.idt, BitVec.ofNat 16 (8 * INTR_GATE_MAX)⟩ }

def initTss (c : Cpu) : X86.Outcome :=
  ltr (c.withState (c.setMem ((tssDesc I.kernelTss).raw.write c.mem (descSlot I.kernelGdt KSEG_TSS)))) SEL_TSS

def initCpu (c : Cpu) (next : Addr) : X86.Outcome :=
  ((initGdt I c next).bind fun c => .done (x86InitIdt I c)).bind fun c => initTss I c

def cpuUserKstackSet (m : Mem) (kstackAddr : Addr) : Mem :=
  store32 (store16 m (I.kernelTss + 8#32) SEL_KDATA) (I.kernelTss + 4#32) kstackAddr

-- ---------------------------------------------------------------------------
-- Reading the fields back
-- ---------------------------------------------------------------------------

theorem getLsbD_bitField {w : Nat} (pos : Nat) (v : BitVec w) (i : Nat) :
    (bitField pos v).getLsbD i = (decide (i < 32) && decide (pos ≤ i) && v.getLsbD (i - pos)) := by
  by_cases hp : pos ≤ i
  · by_cases hi : i < 32
    · simp [bitField, hp, hi]
    · simp [bitField, hi]
  · simp [bitField, hp]

theorem bitField_same {w pos : Nat} (v : BitVec w) (h : pos + w ≤ 32) :
    (bitField pos v).extractLsb' pos w = v := by
  apply BitVec.eq_of_getLsbD_eq
  intro i hi
  have hlt : pos + i < 32 := by omega
  simp only [BitVec.getLsbD_extractLsb', getLsbD_bitField, hi, hlt, Nat.le_add_right, decide_true,
    Bool.true_and, Nat.add_sub_cancel_left]

theorem bitField_apart {w pos n pos' : Nat} (v : BitVec w) (h : pos + w ≤ pos' ∨ pos' + n ≤ pos) :
    (bitField pos v).extractLsb' pos' n = 0#n := by
  apply BitVec.eq_of_getLsbD_eq
  intro i hi
  simp only [BitVec.getLsbD_extractLsb', getLsbD_bitField, BitVec.getLsbD_zero]
  by_cases hp : pos ≤ pos' + i
  · have hlen : w ≤ pos' + i - pos := by omega
    simp [BitVec.getLsbD_of_ge v _ hlen]
  · simp [hp]

namespace Gate32

variable (g : Gate32)

theorem raw_type : g.raw.type = g.type := by
  simp (disch := omega) [RawDesc.type, raw, BitVec.extractLsb'_or, bitField_same, bitField_apart]

theorem raw_dpl : g.raw.dpl = g.dpl := by
  simp (disch := omega) [RawDesc.dpl, raw, BitVec.extractLsb'_or, bitField_same, bitField_apart]

theorem raw_selector : g.raw.selector = g.segsel := by
  simp (disch := omega) [RawDesc.selector, raw, BitVec.extractLsb'_or, bitField_same, bitField_apart]

end Gate32

section Gate

variable (isrFn : Addr) (dpl : BitVec 2)

theorem isrGate_present : (isrGate isrFn dpl).raw.present = true := by
  simp [RawDesc.present, Gate32.raw, getLsbD_bitField, isrGate, X86ST_INTRGATE]

/-- The two halves of an address. -/
theorem isrGate_offset : (isrGate isrFn dpl).raw.offset = isrFn := by
  apply BitVec.eq_of_getLsbD_eq
  intro i hi
  simp only [RawDesc.offset, Gate32.raw, isrGate, X86ST_INTRGATE, BitVec.getLsbD_or,
    BitVec.getLsbD_and, getLsbD_bitField, BitVec.getLsbD_setWidth, BitVec.getLsbD_ushiftRight]
  interval_cases i <;> simp

/-- Every gate of the kernel can be used from the level that it names. -/
theorem isrGate_admits {cpl : BitVec 2} {soft : Bool} (h : soft = true → cpl ≤ dpl) :
    (isrGate isrFn dpl).raw.Admits cpl soft where
  type    := .inl (Gate32.raw_type _)
  allowed := fun hs => by
    rw [Gate32.raw_dpl]
    exact h hs
  present := isrGate_present isrFn dpl

end Gate

theorem tssDesc_base (tss : Addr) : (tssDesc tss).raw.base = tss := by
  apply BitVec.eq_of_getLsbD_eq
  intro i hi
  simp only [RawDesc.base, Segdesc32.raw, tssDesc, X86ST_TSS, BitVec.getLsbD_or, BitVec.getLsbD_and,
    getLsbD_bitField, BitVec.getLsbD_setWidth, BitVec.getLsbD_ushiftRight, BitVec.getLsbD_shiftLeft]
  interval_cases i <;> simp

theorem tssDesc_type (tss : Addr) : (tssDesc tss).raw.type = TSS_AVAIL := by
  simp (disch := omega) [RawDesc.type, Segdesc32.raw, BitVec.extractLsb'_or, bitField_same, bitField_apart]
  rfl

theorem tssDesc_present (tss : Addr) : (tssDesc tss).raw.present = true := by
  simp [RawDesc.present, Segdesc32.raw, getLsbD_bitField, tssDesc, X86ST_TSS]

-- ---------------------------------------------------------------------------
-- The tables after initialization
-- ---------------------------------------------------------------------------

/-- The handler of a vector, and the level from which `int` may name it. -/
def GateImage.gate (vec : Nat) : Option (Addr × BitVec 2) :=
  if vec = IVEC_SYSCALL then some (I.isrSyscall, PL_USER)
  else (HANDLERS.find? fun h => h.1 == vec).map fun h => (I.isr h.2, PL_KERNEL)

def GateImage.idtDesc (vec : Nat) : RawDesc :=
  ((I.gate vec).map fun g => (isrGate g.1 g.2).raw).getD ⟨0#32, 0#32⟩

/-- The segments, with the task state segment in use. -/
def GateImage.gdtDesc (i : Nat) : RawDesc :=
  if i = KSEG_TSS then ⟨(tssDesc I.kernelTss).raw.lo, (tssDesc I.kernelTss).raw.hi ||| TSS_BUSY⟩
  else (Munix.kernelGdt i).raw

/-- The descriptor tables in memory. -/
structure DescTables (m : Mem) : Prop where
  gdt : DescsAt m I.kernelGdt KSEG_COUNT I.gdtDesc
  idt : DescsAt m I.idt INTR_GATE_MAX I.idtDesc

/-- All that the processor reads from memory when an event happens. -/
structure TablesIn (kstack : Addr) (m : Mem) : Prop extends DescTables I m where
  esp0 : load32 m (I.kernelTss + 4#32) = kstack
  ss0  : (load32 m (I.kernelTss + 8#32)).setWidth 16 = SEL_KDATA

/-- The processor uses the tables, and kernel stack `kstack` is the current one. -/
structure Installed (kstack : Addr) (c : Cpu) : Prop where
  gdtr   : c.gdtr = ⟨I.kernelGdt, 48#16⟩
  idtr   : c.idtr = ⟨I.idt, 512#16⟩
  tss    : c.tss = I.kernelTss
  tables : TablesIn I kstack c.mem

variable {I}

/-- The tables depend on kernel memory only. -/
theorem TablesIn.congr {kstack : Addr} {m m' : Mem} (h : TablesIn I kstack m)
    (heq : ∀ a, a < KMAP_MAX → m' a = m a) : TablesIn I kstack m' := by
  have hgdt := I.gdt_fits
  have hidt := I.idt_fits
  have htss := I.tss_fits
  have hmax : KMAP_MAX.toNat = 0x400000 := rfl
  refine ⟨⟨h.gdt.congr (by decide) fun i hi => heq _ ?_, h.idt.congr (by decide) fun i hi => heq _ ?_⟩,
    ?_, ?_⟩
  · unfold KSEG_COUNT at hi
    bv_omega
  · unfold INTR_GATE_MAX at hi
    bv_omega
  · rw [← h.esp0]
    refine load32_congr fun i hi => heq _ ?_
    bv_omega
  · rw [← h.ss0]
    refine congrArg _ (load32_congr fun i hi => heq _ ?_)
    bv_omega

theorem DescTables.write_tss {m m' : Mem} (h : DescTables I m)
    (hs : SameOutside m m' I.kernelTss.toNat (I.kernelTss.toNat + 104)) : DescTables I m' := by
  have hgdt := I.gdt_fits
  have hidt := I.idt_fits
  have h1 := I.gdt_tss
  have h2 := I.idt_tss
  refine ⟨h.gdt.frame hs ?_ ?_, h.idt.frame hs ?_ ?_⟩ <;> simp only [KSEG_COUNT, INTR_GATE_MAX] <;> omega

/-- `cpu_user_kstack_set` makes a stack the current one. -/
theorem DescTables.cpuUserKstackSet {m : Mem} (h : DescTables I m) (kstack : Addr) :
    TablesIn I kstack (cpuUserKstackSet I m kstack) := by
  have htss := I.tss_fits
  have hs : SameOutside m (Munix.cpuUserKstackSet I m kstack) I.kernelTss.toNat
      (I.kernelTss.toNat + 104) := by
    intro x hx
    rw [Munix.cpuUserKstackSet, store32_outside (by bv_omega), store16_outside (by bv_omega)]
  refine ⟨h.write_tss hs, load32_store32_same .., ?_⟩
  rw [Munix.cpuUserKstackSet, load32_store32_disjoint (by bv_omega) (by bv_omega), load32_store16]

/-- The segment that a selector of the kernel means. -/
theorem descriptor_of {c : Cpu} {ds : Nat → RawDesc} (hgdtr : c.gdtr = ⟨I.kernelGdt, 48#16⟩)
    (h : DescsAt c.mem I.kernelGdt KSEG_COUNT ds) {sel : BitVec 16} (hti : sel.getLsbD 2 = false)
    (hidx : 0 < selIndex sel ∧ selIndex sel < KSEG_COUNT) :
    c.descriptor sel = some (ds (selIndex sel)) := by
  have hne : ¬ (sel.getLsbD 2 = true ∨ selIndex sel = 0) := by
    rw [hti]
    simp only [Bool.false_eq_true, false_or]
    omega
  have hlimit : 8 * selIndex sel + 7 ≤ (48#16).toNat := by
    have hsize : (48#16).toNat = 48 := rfl
    have hlt := hidx.2
    simp only [KSEG_COUNT] at hlt
    omega
  rw [Cpu.descriptor, if_neg hne, hgdtr, Table.entry_of h hidx.2 hlimit]

/-- A table that is filled in, entry by entry. -/
theorem foldl_update {α β : Type} (hs : List (Nat × α)) (g : Nat × α → β) (f : Nat → β)
    (hnd : (hs.map (·.1)).Nodup) (i : Nat) :
    hs.foldl (fun f h => Function.update f h.1 (g h)) f i =
      ((hs.find? fun h => h.1 == i).map g).getD (f i) := by
  induction hs generalizing f with
  | nil => rfl
  | cons h hs ih =>
    rw [List.map_cons, List.nodup_cons] at hnd
    rw [List.foldl_cons, ih _ hnd.2]
    by_cases hi : h.1 = i
    · subst hi
      have hnone : (hs.find? fun h' => h'.1 == h.1) = none := by
        refine List.find?_eq_none.mpr fun h' hh' heq => hnd.1 ?_
        rw [← beq_iff_eq.mp heq]
        exact List.mem_map_of_mem hh'
      simp [hnone]
    · rw [Function.update_of_ne (Ne.symm hi)]
      simp [hi]

theorem handlers_nodup : (HANDLERS.map (·.1)).Nodup := by decide

theorem handlers_lt : ∀ h ∈ HANDLERS, h.1 < INTR_GATE_MAX := by decide

/-- The loop of `x86_init_idt`. -/
theorem descsAt_handlers {hs : List (Nat × Isr)} (hlt : ∀ h ∈ hs, h.1 < INTR_GATE_MAX) {m : Mem}
    {ds : Nat → RawDesc} (h : DescsAt m I.idt INTR_GATE_MAX ds) :
    DescsAt (hs.foldl (fun m h => x86IdtAddIsr I.idt m h.1 (I.isr h.2) PL_KERNEL) m) I.idt INTR_GATE_MAX
        (hs.foldl (fun ds h => Function.update ds h.1 (isrGate (I.isr h.2) PL_KERNEL).raw) ds) ∧
      SameOutside m (hs.foldl (fun m h => x86IdtAddIsr I.idt m h.1 (I.isr h.2) PL_KERNEL) m) I.idt.toNat
        (I.idt.toNat + 512) := by
  have hfits := I.idt_fits
  induction hs generalizing m ds with
  | nil => exact ⟨h, SameOutside.refl _ _ _⟩
  | cons e hs ih =>
    have hfirst : SameOutside m (x86IdtAddIsr I.idt m e.1 (I.isr e.2) PL_KERNEL) I.idt.toNat
        (I.idt.toNat + 512) :=
      RawDesc.write_sameOutside m _ (hlt e List.mem_cons_self) (by simp only [INTR_GATE_MAX]; omega)
    obtain ⟨hdescs, hsame⟩ := ih (fun h hh => hlt h (List.mem_cons_of_mem _ hh))
      (h.write (by decide) (hlt e List.mem_cons_self) (isrGate (I.isr e.2) PL_KERNEL).raw)
    exact ⟨hdescs, hfirst.comp hsame⟩

/-- `x86_init_idt` on a zeroed table. -/
theorem x86InitIdt_descs {c : Cpu} (h : DescsAt c.mem I.idt INTR_GATE_MAX fun _ => ⟨0#32, 0#32⟩) :
    DescsAt (x86InitIdt I c).mem I.idt INTR_GATE_MAX I.idtDesc ∧
      SameOutside c.mem (x86InitIdt I c).mem I.idt.toNat (I.idt.toNat + 512) := by
  have hfits := I.idt_fits
  obtain ⟨hdescs, hsame⟩ := descsAt_handlers handlers_lt h
  have hsys : IVEC_SYSCALL < INTR_GATE_MAX := by decide
  have hall := hdescs.write (by decide) hsys (isrGate I.isrSyscall PL_USER).raw
  refine ⟨fun vec hvec => (hall vec hvec).trans ?_, hsame.comp ?_⟩
  · by_cases hv : vec = IVEC_SYSCALL
    · rw [hv, Function.update_self, GateImage.idtDesc, GateImage.gate, if_pos rfl]
      rfl
    · rw [Function.update_of_ne hv, foldl_update HANDLERS _ _ handlers_nodup, GateImage.idtDesc,
        GateImage.gate, if_neg hv, Option.map_map]
      rfl
  · exact RawDesc.write_sameOutside _ _ hsys (by simp only [INTR_GATE_MAX]; omega)

/-- The segment registers of the kernel, and its table of descriptors. -/
structure KernelSegs (I : GateImage) (c : Cpu) : Prop where
  gdtr : c.gdtr = ⟨I.kernelGdt, 48#16⟩
  cs   : c.cs = SEL_KCODE
  ss   : c.ss = SEL_KDATA
  ds   : c.ds = SEL_KDATA
  es   : c.es = SEL_KDATA

theorem kernelCode_at : (kernelGdt KSEG_KERNEL_CODE).raw.CodeAt PL_KERNEL := by
  constructor <;> decide

theorem kernelData_at : (kernelGdt KSEG_KERNEL_DATA).raw.StackAt PL_KERNEL := by
  constructor <;> decide

theorem userCode_at : (kernelGdt KSEG_USER_CODE).raw.CodeAt PL_USER := by
  constructor <;> decide

theorem userData_at : (kernelGdt KSEG_USER_DATA).raw.StackAt PL_USER := by
  constructor <;> decide

/-- `init_gdt` from any segment registers of level 0. -/
theorem initGdt_done {c : Cpu} (hcpl : c.cpl = PL_KERNEL)
    (hgdt : DescsAt c.mem I.kernelGdt KSEG_COUNT fun i => (kernelGdt i).raw) (next : Addr) :
    ∃ c', initGdt I c next = .done c' ∧ KernelSegs I c' ∧ c'.mem = c.mem ∧ c'.reg = c.reg ∧
      c'.eip = next := by
  have hdata : ∀ c' : Cpu, c'.gdtr = ⟨I.kernelGdt, 48#16⟩ → c'.mem = c.mem →
      c'.descriptor SEL_KDATA = some (kernelGdt KSEG_KERNEL_DATA).raw := by
    intro c' hgdtr hmem
    rw [← hmem] at hgdt
    exact descriptor_of hgdtr hgdt rfl (by decide : 0 < selIndex SEL_KDATA ∧ selIndex SEL_KDATA < KSEG_COUNT)
  have hcode : ∀ c' : Cpu, c'.gdtr = ⟨I.kernelGdt, 48#16⟩ → c'.mem = c.mem →
      c'.descriptor SEL_KCODE = some (kernelGdt KSEG_KERNEL_CODE).raw := by
    intro c' hgdtr hmem
    rw [← hmem] at hgdt
    exact descriptor_of hgdtr hgdt rfl (by decide : 0 < selIndex SEL_KCODE ∧ selIndex SEL_KCODE < KSEG_COUNT)
  have hstack : ∀ c' : Cpu, c'.cpl = PL_KERNEL → (kernelGdt KSEG_KERNEL_DATA).raw.StackAt c'.cpl :=
    fun c' h => h ▸ kernelData_at
  have hcodeAt : ∀ c' : Cpu, c'.cpl = PL_KERNEL → (kernelGdt KSEG_KERNEL_CODE).raw.CodeAt c'.cpl :=
    fun c' h => h ▸ kernelCode_at
  have hrpl : selRpl SEL_KDATA ≤ PL_KERNEL := by decide
  set c₀ : Cpu := { c with gdtr := ⟨I.kernelGdt, BitVec.ofNat 16 (8 * KSEG_COUNT)⟩ } with hc₀
  set c₁ : Cpu := { c₀ with ss := SEL_KDATA }
  have hss : movToSs c₀ SEL_KDATA = .done c₁ :=
    movToSs_done (hdata c₀ rfl rfl) (hstack c₀ hcpl) ((rfl : selRpl SEL_KDATA = PL_KERNEL).trans hcpl.symm)
  have hes : movToSeg c₁ .es SEL_KDATA = .done (c₁.setSeg .es SEL_KDATA) :=
    movToSeg_stack .es (hdata c₁ rfl rfl) kernelData_at (BitVec.le_of_eq hcpl) hrpl
  set c₂ := c₁.setSeg .es SEL_KDATA
  have hds : movToSeg c₂ .ds SEL_KDATA = .done (c₂.setSeg .ds SEL_KDATA) :=
    movToSeg_stack .ds (hdata c₂ rfl rfl) kernelData_at (BitVec.le_of_eq hcpl) hrpl
  set c₃ := c₂.setSeg .ds SEL_KDATA
  have hjmp : farJmp c₃ SEL_KCODE next =
      .done { c₃ with toState := c₃.setEip next, cs := withRpl SEL_KCODE c₃.cpl } :=
    farJmp_done (hcode c₃ rfl rfl) (hcodeAt c₃ hcpl)
      (BitVec.le_of_eq ((rfl : selRpl SEL_KCODE = PL_KERNEL).trans hcpl.symm))
  have hrun : initGdt I c next = farJmp c₃ SEL_KCODE next := by
    simp only [initGdt, ← hc₀, hss, X86.Outcome.bind, hes, hds]
  have hcs : withRpl SEL_KCODE c₃.cpl = SEL_KCODE := by
    rw [show c₃.cpl = PL_KERNEL from hcpl]
    decide
  exact ⟨_, hrun.trans hjmp, ⟨rfl, hcs, rfl, rfl, rfl⟩, rfl, rfl, rfl⟩

/-- What `init_tss` puts into the descriptor. -/
theorem tssDesc_installed {m : Mem} (h : DescsAt m I.kernelGdt KSEG_COUNT fun i => (kernelGdt i).raw) :
    DescsAt (store32 ((tssDesc I.kernelTss).raw.write m (descSlot I.kernelGdt KSEG_TSS))
        (descSlot I.kernelGdt KSEG_TSS + 4#32) ((tssDesc I.kernelTss).raw.hi ||| TSS_BUSY))
      I.kernelGdt KSEG_COUNT I.gdtDesc := by
  have hlt : KSEG_TSS < KSEG_COUNT := by decide
  have hdescs := (h.write (by decide) hlt (tssDesc I.kernelTss).raw).write_hi (by decide) hlt
    ((tssDesc I.kernelTss).raw.hi ||| TSS_BUSY)
  refine fun i hi => (hdescs i hi).trans ?_
  by_cases htss : i = KSEG_TSS
  · rw [htss, Function.update_self, Function.update_self, GateImage.gdtDesc, if_pos rfl]
  · rw [Function.update_of_ne htss, Function.update_of_ne htss, GateImage.gdtDesc, if_neg htss]

theorem tssDesc_sameOutside (m : Mem) (d : RawDesc) (v : BitVec 32) :
    SameOutside m (store32 (d.write m (descSlot I.kernelGdt KSEG_TSS))
      (descSlot I.kernelGdt KSEG_TSS + 4#32) v) I.kernelGdt.toNat (I.kernelGdt.toNat + 48) := by
  have hfits := I.gdt_fits
  have hslot : (descSlot I.kernelGdt KSEG_TSS).toNat = I.kernelGdt.toNat + 40 := by
    rw [descSlot, BitVec.toNat_add, BitVec.toNat_ofNat]
    simp only [KSEG_TSS]
    omega
  intro x hx
  rw [store32_outside (by bv_omega)]
  exact RawDesc.write_outside (by bv_omega)

/-- `init_tss`, with the table of the kernel in use. -/
theorem initTss_done {c : Cpu} (hgdtr : c.gdtr = ⟨I.kernelGdt, 48#16⟩)
    (h : DescsAt c.mem I.kernelGdt KSEG_COUNT fun i => (kernelGdt i).raw) :
    initTss I c = .done { c with
      toState := c.setMem (store32 ((tssDesc I.kernelTss).raw.write c.mem (descSlot I.kernelGdt KSEG_TSS))
        (descSlot I.kernelGdt KSEG_TSS + 4#32) ((tssDesc I.kernelTss).raw.hi ||| TSS_BUSY))
      tss := I.kernelTss } := by
  set c' : Cpu := c.withState
    (c.setMem ((tssDesc I.kernelTss).raw.write c.mem (descSlot I.kernelGdt KSEG_TSS))) with hc'
  have hsel : selIndex SEL_TSS = KSEG_TSS := by decide
  have hgdtr' : c'.gdtr = ⟨I.kernelGdt, 48#16⟩ := hgdtr
  have hdesc : c'.descriptor SEL_TSS = some (tssDesc I.kernelTss).raw := by
    have hat := descriptor_of hgdtr' (h.write (by decide) (by decide) (tssDesc I.kernelTss).raw) rfl
      (by decide : 0 < selIndex SEL_TSS ∧ selIndex SEL_TSS < KSEG_COUNT)
    rwa [hsel, Function.update_self] at hat
  have hltr := ltr_done hdesc (tssDesc_type _) (tssDesc_present _)
  have hslot : descSlot c'.gdtr.base (selIndex SEL_TSS) = descSlot I.kernelGdt KSEG_TSS := by
    rw [hgdtr', hsel]
  rw [hslot, tssDesc_base] at hltr
  exact hltr

/-- **`init_cpu` installs the tables**, from any state of level 0 in which the image is in
memory. From the first `cpu_user_kstack_set` on everything is there that an event in user
code needs, and nothing but the tables has changed. -/
theorem initCpu_installed {c : Cpu} (hcpl : c.cpl = PL_KERNEL)
    (hgdt : DescsAt c.mem I.kernelGdt KSEG_COUNT fun i => (kernelGdt i).raw)
    (hidt : DescsAt c.mem I.idt INTR_GATE_MAX fun _ => ⟨0#32, 0#32⟩) (next : Addr) :
    ∃ c', initCpu I c next = .done c' ∧ KernelSegs I c' ∧ c'.reg = c.reg ∧
      (∀ kstack, Installed I kstack (c'.withState (c'.setMem (cpuUserKstackSet I c'.mem kstack)))) ∧
      (∀ a, ¬ (I.kernelGdt.toNat ≤ a.toNat ∧ a.toNat < I.kernelGdt.toNat + 48) →
        ¬ (I.idt.toNat ≤ a.toNat ∧ a.toNat < I.idt.toNat + 512) → c'.mem a = c.mem a) := by
  have hgfits := I.gdt_fits
  have hifits := I.idt_fits
  have hapart := I.gdt_idt
  obtain ⟨c₁, hrun₁, hsegs, hmem₁, hreg₁, -⟩ := initGdt_done hcpl hgdt next
  obtain ⟨hidt₂, hsame₂⟩ := x86InitIdt_descs (I := I) (c := c₁) (by rwa [hmem₁])
  have hgdt₂ : DescsAt (x86InitIdt I c₁).mem I.kernelGdt KSEG_COUNT fun i => (kernelGdt i).raw := by
    rw [← hmem₁] at hgdt
    exact hgdt.frame hsame₂ (by simp only [KSEG_COUNT]; omega) (by simp only [KSEG_COUNT]; omega)
  have hgdtr₂ : (x86InitIdt I c₁).gdtr = ⟨I.kernelGdt, 48#16⟩ := hsegs.gdtr
  have htss := initTss_done hgdtr₂ hgdt₂
  have hgdt₃ := tssDesc_installed hgdt₂
  have hsame₃ := tssDesc_sameOutside (I := I) (x86InitIdt I c₁).mem (tssDesc I.kernelTss).raw
    ((tssDesc I.kernelTss).raw.hi ||| TSS_BUSY)
  have hrun : initCpu I c next = initTss I (x86InitIdt I c₁) := by
    rw [initCpu, hrun₁]
    rfl
  have hidt₃ := hidt₂.frame hsame₃ (by simp only [INTR_GATE_MAX]; omega)
    (by simp only [INTR_GATE_MAX]; omega)
  refine ⟨_, hrun.trans htss, ⟨hsegs.gdtr, hsegs.cs, hsegs.ss, hsegs.ds, hsegs.es⟩, hreg₁, ?_, ?_⟩
  · exact fun kstack => ⟨hsegs.gdtr, rfl, rfl, DescTables.cpuUserKstackSet ⟨hgdt₃, hidt₃⟩ kstack⟩
  · intro a hagdt haidt
    exact (hsame₃ a hagdt).trans ((hsame₂ a haidt).trans (congrFun hmem₁ a))

-- ---------------------------------------------------------------------------
-- An example
-- ---------------------------------------------------------------------------

/-- An image with its tables in the second to the fourth page. -/
def exampleImage : GateImage where
  kernelGdt  := 0x1000#32
  idt        := 0x2000#32
  kernelTss  := 0x3000#32
  isr h      := 0x10000#32 + BitVec.ofNat 32 (16 * h.vec)
  isrSyscall := 0x20000#32
  gdt_fits   := by decide
  idt_fits   := by decide
  tss_fits   := by decide
  gdt_idt    := by decide
  gdt_tss    := by decide
  idt_tss    := by decide

/-- Memory with the image in it. -/
def exampleBoot : Mem := writeTable (fun _ => 0#8) 0x1000#32 (fun i => (kernelGdt i).raw) KSEG_COUNT

/-- The processor in the code of the kernel, before `init_cpu`. -/
def exampleStart : Cpu where
  reg _  := 0#32
  eip    := 0x100000#32
  mem    := exampleBoot
  eflags := 2#32
  cs     := 0x10#16
  ss     := 0x18#16
  ds     := 0x18#16
  es     := 0x18#16
  gdtr   := ⟨0#32, 0#16⟩
  idtr   := ⟨0#32, 0#16⟩
  tss    := 0#32

theorem initCpu_installed_example :
    ∃ c', initCpu exampleImage exampleStart 0x100100#32 = .done c' ∧ KernelSegs exampleImage c' ∧
      Installed exampleImage 0x300000#32
        (c'.withState (c'.setMem (cpuUserKstackSet exampleImage c'.mem 0x300000#32))) := by
  have hgdt : DescsAt exampleBoot 0x1000#32 KSEG_COUNT fun i => (kernelGdt i).raw :=
    writeTable_descsAt _ (by decide)
  have hzero : DescsAt (fun _ => 0#8) 0x2000#32 INTR_GATE_MAX fun _ => ⟨0#32, 0#32⟩ := by
    intro i _
    simp [RawDesc.read, load32]
  have hidt : DescsAt exampleBoot 0x2000#32 INTR_GATE_MAX fun _ => ⟨0#32, 0#32⟩ :=
    hzero.frame (writeTable_sameOutside _ (by decide)) (by decide) (.inl (by decide))
  obtain ⟨c', hrun, hsegs, -, hinst, -⟩ :=
    @initCpu_installed exampleImage exampleStart rfl hgdt hidt 0x100100#32
  exact ⟨c', hrun, hsegs, hinst _⟩

end Munix
