import Munix.Lib.WordStack
import Munix.Lib.X86

/-!
# Privilege levels, gates and interrupts of a 32-bit x86 machine

The machine of `Munix.Lib.X86` with what protects an operating system from its
programs: segment selectors with a privilege level, the descriptor tables that `lgdt`,
`lidt` and `ltr` have loaded, gates, and the switch to the stack of an inner level. It
covers `int`, exceptions, interrupts and `iret`.

All segments are flat: the machine has nothing to say (`Outcome.unmodelled`) where a
descriptor with another base or limit is loaded, it does not look at `DS` and `ES` when
data is accessed, and it does not mark descriptors as accessed. Pages are two sets of
addresses, those that code outside of level 0 can read and those that it can write. What
arithmetic does to the status flags is left open.

* `deliver_inner` — an interrupt through a gate, with a change of the level.
* `iret_outer` — the return, from what is on the stack.
* `iret_interrupted` — a return undoes the interrupt that it returns from.
-/

namespace X86

open ByteMem

-- ---------------------------------------------------------------------------
-- Descriptors
-- ---------------------------------------------------------------------------

/-- An entry of a descriptor table, as two words. -/
structure RawDesc where
  lo : BitVec 32
  hi : BitVec 32
deriving DecidableEq

namespace RawDesc

def read (m : Mem) (a : Addr) : RawDesc := ⟨load32 m a, load32 m (a + 4#32)⟩

variable (d : RawDesc)

/-- The type, with the S bit as its highest one. -/
def type : BitVec 5 := d.hi.extractLsb' 8 5
def dpl : BitVec 2 := d.hi.extractLsb' 13 2
def present : Bool := d.hi.getLsbD 15

/-- The fields of a gate. -/
def offset : Addr := (d.hi &&& 0xffff0000#32) ||| (d.lo &&& 0xffff#32)
def selector : BitVec 16 := d.lo.extractLsb' 16 16

/-- The fields of a segment. -/
def base : Addr := (d.hi &&& 0xff000000#32) ||| ((d.hi &&& 0xff#32) <<< 16) ||| (d.lo >>> 16)
def limit : BitVec 32 := (d.hi &&& 0xf0000#32) ||| (d.lo &&& 0xffff#32)
def granularity : Bool := d.hi.getLsbD 23
def db : Bool := d.hi.getLsbD 22

def isCode : Bool := d.type.getLsbD 4 && d.type.getLsbD 3
def isConforming : Bool := d.type.getLsbD 2
def isReadable : Bool := d.type.getLsbD 4 && (!d.type.getLsbD 3 || d.type.getLsbD 1)
def isWritableData : Bool := d.type.getLsbD 4 && !d.type.getLsbD 3 && d.type.getLsbD 1

/-- The whole address space, with 32-bit code and stacks. -/
def isFlat : Bool := d.base == 0#32 && d.limit == 0xfffff#32 && d.granularity && d.db

end RawDesc

def RawDesc.write (m : Mem) (a : Addr) (d : RawDesc) : Mem := store32 (store32 m a d.lo) (a + 4#32) d.hi

/-- Where the descriptor with an index is. -/
def descSlot (base : Addr) (i : Nat) : Addr := base + BitVec.ofNat 32 (8 * i)

/-- The first `n` descriptors of the table at `base`. -/
def DescsAt (m : Mem) (base : Addr) (n : Nat) (ds : Nat → RawDesc) : Prop :=
  ∀ i < n, RawDesc.read m (descSlot base i) = ds i

/-- What a descriptor table register holds. -/
structure Table where
  base  : Addr
  limit : BitVec 16
deriving DecidableEq

/-- An entry that lies within the limit. -/
def Table.entry (t : Table) (m : Mem) (i : Nat) : Option RawDesc :=
  if 8 * i + 7 ≤ t.limit.toNat then some (.read m (descSlot t.base i)) else none

/-- The index of a selector, its requested privilege level, and it without the level. -/
def selIndex (sel : BitVec 16) : Nat := (sel.extractLsb' 3 13).toNat
def selRpl (sel : BitVec 16) : BitVec 2 := sel.extractLsb' 0 2
def selCode (sel : BitVec 16) : BitVec 32 := (sel &&& 0xfffc#16).setWidth 32

/-- A selector with another requested level. -/
def withRpl (sel : BitVec 16) (level : BitVec 2) : BitVec 16 :=
  (sel &&& 0xfffc#16) ||| level.setWidth 16

section Tables

variable {m m' : Mem} {base : Addr} {n : Nat} {ds : Nat → RawDesc}

theorem RawDesc.read_write (m : Mem) (a : Addr) (d : RawDesc) : RawDesc.read (d.write m a) a = d := by
  have hlo : load32 (d.write m a) a = d.lo := by
    rw [RawDesc.write, load32_store32_disjoint (by bv_omega) (by bv_omega), load32_store32_same]
  have hhi : load32 (d.write m a) (a + 4#32) = d.hi := load32_store32_same ..
  rw [RawDesc.read, hlo, hhi]

theorem RawDesc.write_outside {m : Mem} {a x : Addr} {d : RawDesc} (h : 8 ≤ (x - a).toNat) :
    d.write m a x = m x := by
  rw [RawDesc.write, store32_outside (by bv_omega), store32_outside (by bv_omega)]

theorem RawDesc.read_congr {a : Addr} (h : ∀ i : Addr, i.toNat < 8 → m' (a + i) = m (a + i)) :
    RawDesc.read m' a = RawDesc.read m a := by
  have hlo : load32 m' a = load32 m a := load32_congr fun i hi => h i (by omega)
  have hhi : load32 m' (a + 4#32) = load32 m (a + 4#32) := by
    refine load32_congr fun i hi => ?_
    rw [BitVec.add_assoc]
    exact h (4#32 + i) (by bv_omega)
  rw [RawDesc.read, RawDesc.read, hlo, hhi]

/-- A table depends on its bytes only. -/
theorem DescsAt.congr (h : DescsAt m base n ds) (hn : 8 * n ≤ 2 ^ 32)
    (heq : ∀ i : Addr, i.toNat < 8 * n → m' (base + i) = m (base + i)) : DescsAt m' base n ds := by
  intro i hi
  rw [← h i hi]
  refine RawDesc.read_congr fun j hj => ?_
  rw [descSlot, BitVec.add_assoc]
  refine heq _ ?_
  rw [BitVec.toNat_add, BitVec.toNat_ofNat]
  omega

theorem DescsAt.frame (h : DescsAt m base n ds) {lo hi : Nat} (hs : SameOutside m m' lo hi)
    (hfits : base.toNat + 8 * n ≤ 2 ^ 32) (hout : hi ≤ base.toNat ∨ base.toNat + 8 * n ≤ lo) :
    DescsAt m' base n ds := by
  refine h.congr (by omega) fun i hi => hs _ ?_
  have hat : (base + i).toNat = base.toNat + i.toNat := by
    rw [BitVec.toNat_add]
    omega
  omega

/-- A descriptor is written over. -/
theorem DescsAt.write (h : DescsAt m base n ds) (hn : 8 * n ≤ 2 ^ 32) {i : Nat} (hi : i < n) (d : RawDesc) :
    DescsAt (d.write m (descSlot base i)) base n (Function.update ds i d) := by
  intro j hj
  by_cases hij : j = i
  · subst hij
    rw [Function.update_self, RawDesc.read_write]
  · rw [Function.update_of_ne hij, ← h j hj]
    refine RawDesc.read_congr fun k hk => RawDesc.write_outside ?_
    have hsub : descSlot base j + k - descSlot base i =
        BitVec.ofNat 32 (8 * j) + k - BitVec.ofNat 32 (8 * i) := by
      rw [descSlot, descSlot]
      bv_omega
    have hj8 : (BitVec.ofNat 32 (8 * j)).toNat = 8 * j := by
      rw [BitVec.toNat_ofNat]
      omega
    have hi8 : (BitVec.ofNat 32 (8 * i)).toNat = 8 * i := by
      rw [BitVec.toNat_ofNat]
      omega
    rw [hsub]
    bv_omega

/-- The upper word of a descriptor is written over. -/
theorem DescsAt.write_hi (h : DescsAt m base n ds) (hn : 8 * n ≤ 2 ^ 32) {i : Nat} (hi : i < n)
    (v : BitVec 32) :
    DescsAt (store32 m (descSlot base i + 4#32) v) base n (Function.update ds i ⟨(ds i).lo, v⟩) := by
  have hlo : load32 m (descSlot base i) = (ds i).lo := congrArg RawDesc.lo (h i hi)
  intro j hj
  by_cases hij : j = i
  · subst hij
    rw [Function.update_self, RawDesc.read, load32_store32_same,
      load32_store32_disjoint (by bv_omega) (by bv_omega), hlo]
  · rw [Function.update_of_ne hij, ← h j hj]
    have hj8 : (BitVec.ofNat 32 (8 * j)).toNat = 8 * j := by
      rw [BitVec.toNat_ofNat]
      omega
    have hi8 : (BitVec.ofNat 32 (8 * i)).toNat = 8 * i := by
      rw [BitVec.toNat_ofNat]
      omega
    refine RawDesc.read_congr fun k hk => store32_outside ?_
    simp only [descSlot]
    bv_omega

theorem RawDesc.write_sameOutside (m : Mem) (d : RawDesc) {i : Nat} (hi : i < n)
    (hfits : base.toNat + 8 * n ≤ 2 ^ 32) :
    SameOutside m (d.write m (descSlot base i)) base.toNat (base.toNat + 8 * n) := by
  intro x hx
  have hslot : (descSlot base i).toNat = base.toNat + 8 * i := by
    rw [descSlot, BitVec.toNat_add, BitVec.toNat_ofNat]
    omega
  exact RawDesc.write_outside (by bv_omega)

theorem Table.entry_of {limit : BitVec 16} (h : DescsAt m base n ds) {i : Nat} (hi : i < n)
    (hlimit : 8 * i + 7 ≤ limit.toNat) : (⟨base, limit⟩ : Table).entry m i = some (ds i) := by
  rw [Table.entry, if_pos hlimit]
  exact congrArg some (h i hi)

theorem Table.entry_past {limit : BitVec 16} {i : Nat} (h : limit.toNat < 8 * i + 7) :
    (⟨base, limit⟩ : Table).entry m i = none := by
  rw [Table.entry, if_neg (Nat.not_le.mpr h)]

/-- A table that is written entry by entry. -/
def writeTable (m : Mem) (base : Addr) (ds : Nat → RawDesc) : Nat → Mem
  | 0 => m
  | n + 1 => (ds n).write (writeTable m base ds n) (descSlot base n)

theorem writeTable_descsAt (m : Mem) {base : Addr} {ds : Nat → RawDesc} (hn : 8 * n ≤ 2 ^ 32) :
    DescsAt (writeTable m base ds n) base n ds := by
  have hpart : ∀ k ≤ n, DescsAt (writeTable m base ds k) base n fun i =>
      if i < k then ds i else .read m (descSlot base i) := by
    intro k
    induction k with
    | zero => exact fun _ i _ => rfl
    | succ k ih =>
      intro hk i hi
      rw [writeTable, (ih (by omega)).write hn (by omega) (ds k) i hi]
      by_cases hik : i = k
      · rw [hik, Function.update_self]
        exact (if_pos (Nat.lt_succ_self k)).symm
      · rw [Function.update_of_ne hik]
        exact if_congr (by omega) rfl rfl
  intro i hi
  exact (hpart n (Nat.le_refl n) i hi).trans (if_pos hi)

theorem writeTable_sameOutside (m : Mem) {base : Addr} {ds : Nat → RawDesc}
    (hfits : base.toNat + 8 * n ≤ 2 ^ 32) :
    SameOutside m (writeTable m base ds n) base.toNat (base.toNat + 8 * n) := by
  have hpart : ∀ k ≤ n, SameOutside m (writeTable m base ds k) base.toNat (base.toNat + 8 * n) := by
    intro k
    induction k with
    | zero => exact fun _ => SameOutside.refl _ _ _
    | succ k ih => exact fun hk => (ih (by omega)).comp (RawDesc.write_sameOutside _ _ (by omega) hfits)
  exact hpart n (Nat.le_refl n)

end Tables

-- ---------------------------------------------------------------------------
-- The processor
-- ---------------------------------------------------------------------------

/-- The processor. The current privilege level is that of `cs`. -/
structure Cpu extends State where
  eflags : BitVec 32
  cs     : BitVec 16
  ss     : BitVec 16
  ds     : BitVec 16
  es     : BitVec 16
  gdtr   : Table
  idtr   : Table
  /-- where the loaded task state segment is -/
  tss    : Addr

namespace Cpu

variable (c : Cpu)

def cpl : BitVec 2 := selRpl c.cs

/-- Access to the registers of the machine without levels. -/
def withState (s : State) : Cpu := { c with toState := s }

def push (v : BitVec 32) : Cpu :=
  c.withState ((c.setReg .esp (c.reg .esp - 4#32)).setMem (store32 c.mem (c.reg .esp - 4#32) v))

/-- The descriptor that a selector means. There is no local table. -/
def descriptor (sel : BitVec 16) : Option RawDesc :=
  if sel.getLsbD 2 ∨ selIndex sel = 0 then none else c.gdtr.entry c.mem (selIndex sel)

/-- Stack pointer and stack segment of an inner level, from the task state segment. -/
def innerEsp (level : BitVec 2) : Addr :=
  load32 c.mem (c.tss + 4#32 + BitVec.ofNat 32 (8 * level.toNat))
def innerSs (level : BitVec 2) : BitVec 16 :=
  (load32 c.mem (c.tss + 8#32 + BitVec.ofNat 32 (8 * level.toNat))).setWidth 16

end Cpu

/-- Bits of `eflags`. -/
def FLAG_TF : BitVec 32 := 0x100#32
def FLAG_IF : BitVec 32 := 0x200#32
def FLAG_IOPL : BitVec 32 := 0x3000#32
def FLAG_NT : BitVec 32 := 0x4000#32
def FLAG_RF : BitVec 32 := 0x10000#32
def FLAG_VM : BitVec 32 := 0x20000#32
/-- The virtual interrupt flags. -/
def FLAG_VI : BitVec 32 := 0x180000#32
/-- The flags that arithmetic sets. -/
def FLAGS_STATUS : BitVec 32 := 0x8d5#32

@[simp] theorem State.setReg_setReg (s : State) (r : Reg) (v w : BitVec 32) :
    (s.setReg r v).setReg r w = s.setReg r w := by
  simp only [State.setReg]
  congr 1
  funext r'
  by_cases h : r' = r <;> simp [h]

/-- What comes of an event: a state, an exception with its error code, or something that
the machine has no rule for. -/
inductive Outcome where
  | done (c : Cpu)
  | fault (vec : Nat) (code : BitVec 32)
  | unmodelled

def Outcome.bind (o : Outcome) (f : Cpu → Outcome) : Outcome :=
  match o with
  | .done c => f c
  | .fault vec code => .fault vec code
  | .unmodelled => .unmodelled

-- ---------------------------------------------------------------------------
-- Loads of segment registers
-- ---------------------------------------------------------------------------

/-- The data segment registers. -/
inductive DataSeg
  | ds | es
deriving DecidableEq

def Cpu.setSeg (c : Cpu) (seg : DataSeg) (sel : BitVec 16) : Cpu :=
  match seg with
  | .ds => { c with ds := sel }
  | .es => { c with es := sel }

/-- A move to a data segment register, which a null selector can be loaded into. -/
def movToSeg (c : Cpu) (seg : DataSeg) (sel : BitVec 16) : Outcome :=
  if sel &&& 0xfffc#16 = 0#16 then .done (c.setSeg seg sel)
  else
    match c.descriptor sel with
    | none => .fault 13 (selCode sel)
    | some d =>
      if !d.isReadable ∨ (¬ (d.isCode ∧ d.isConforming) ∧ (d.dpl < c.cpl ∨ d.dpl < selRpl sel)) then
        .fault 13 (selCode sel)
      else if !d.present then .fault 11 (selCode sel)
      else if !d.isFlat then .unmodelled
      else .done (c.setSeg seg sel)

/-- A move to the stack segment register. -/
def movToSs (c : Cpu) (sel : BitVec 16) : Outcome :=
  match c.descriptor sel with
  | none => .fault 13 (selCode sel)
  | some d =>
    if selRpl sel ≠ c.cpl ∨ d.dpl ≠ c.cpl ∨ !d.isWritableData then .fault 13 (selCode sel)
    else if !d.present then .fault 12 (selCode sel)
    else if !d.isFlat then .unmodelled
    else .done { c with ss := sel }

/-- A far jump to code that is not conforming. -/
def farJmp (c : Cpu) (sel : BitVec 16) (target : Addr) : Outcome :=
  match c.descriptor sel with
  | none => .fault 13 (selCode sel)
  | some d =>
    if !d.isCode then .fault 13 (selCode sel)
    else if d.isConforming then .unmodelled
    else if c.cpl < selRpl sel ∨ d.dpl ≠ c.cpl then .fault 13 (selCode sel)
    else if !d.present then .fault 11 (selCode sel)
    else if !d.isFlat then .unmodelled
    else .done { c with toState := c.setEip target, cs := withRpl sel c.cpl }

/-- The type of a task state segment that is free, and the bit that marks it as in use. -/
def TSS_AVAIL : BitVec 5 := 0x09#5
def TSS_BUSY : BitVec 32 := 0x200#32

/-- `ltr`, which marks the descriptor as busy. -/
def ltr (c : Cpu) (sel : BitVec 16) : Outcome :=
  match c.descriptor sel with
  | none => .fault 13 (selCode sel)
  | some d =>
    if d.type ≠ TSS_AVAIL then .fault 13 (selCode sel)
    else if !d.present then .fault 11 (selCode sel)
    else
      let slot := descSlot c.gdtr.base (selIndex sel)
      .done { c with
        toState := c.setMem (store32 c.mem (slot + 4#32) (d.hi ||| TSS_BUSY))
        tss := d.base }

-- ---------------------------------------------------------------------------
-- Interrupts and their return
-- ---------------------------------------------------------------------------

/-- The exceptions that push an error code. -/
def hasErrorCode (vec : Nat) : Bool :=
  vec == 8 || (decide (10 ≤ vec) && decide (vec ≤ 14)) || vec == 17 || vec == 21

def TASK_GATE : BitVec 5 := 0x05#5
def INTR_GATE : BitVec 5 := 0x0e#5
def TRAP_GATE : BitVec 5 := 0x0f#5
/-- The gates to 16-bit code. -/
def GATES_16 : List (BitVec 5) := [0x06#5, 0x07#5]

/-- The flags in a handler: a trap gate leaves interrupts enabled. -/
def handlerFlags (gtype : BitVec 5) (eflags : BitVec 32) : BitVec 32 :=
  eflags &&& ~~~(FLAG_TF ||| FLAG_NT ||| FLAG_RF ||| FLAG_VM) &&&
    (if gtype = INTR_GATE then ~~~FLAG_IF else BitVec.allOnes 32)

/-- Control goes through gate `g`, with the frame `frame` on the stack. -/
def Cpu.enter (c : Cpu) (g : RawDesc) (level : BitVec 2) (frame : List (BitVec 32)) : Cpu :=
  { c with
    toState :=
      ((c.setReg .esp (pushAll c.mem (c.reg .esp) frame).2).setMem
        (pushAll c.mem (c.reg .esp) frame).1).setEip g.offset
    cs := withRpl g.selector level
    eflags := handlerFlags g.type c.eflags }

/-- The words that an interrupt pushes, the first one first. -/
def Cpu.frame (c : Cpu) : List (BitVec 32) := [c.eflags, c.cs.setWidth 32, c.eip]
def Cpu.outerFrame (c : Cpu) : List (BitVec 32) := c.ss.setWidth 32 :: c.reg .esp :: c.frame

/-- Event `vec`: `int vec`, or an exception or interrupt, with the error code if it has one. -/
def deliver (c : Cpu) (vec : Nat) (soft : Bool) (err : Option (BitVec 32)) : Outcome :=
  let ext := if soft then 0#32 else 1#32
  let code := BitVec.ofNat 32 (8 * vec + 2) ||| ext
  match c.idtr.entry c.mem vec with
  | none => .fault 13 code
  | some g =>
    if g.type = TASK_GATE ∨ g.type ∈ GATES_16 then .unmodelled
    else if g.type ≠ INTR_GATE ∧ g.type ≠ TRAP_GATE then .fault 13 code
    else if soft ∧ g.dpl < c.cpl then .fault 13 code
    else if !g.present then .fault 11 code
    else
      match c.descriptor g.selector with
      | none => .fault 13 (selCode g.selector ||| ext)
      | some d =>
        if !d.isCode ∨ c.cpl < d.dpl then .fault 13 (selCode g.selector ||| ext)
        else if !d.present then .fault 11 (selCode g.selector ||| ext)
        else if !d.isFlat then .unmodelled
        else if d.isConforming ∨ d.dpl = c.cpl then .done (c.enter g c.cpl (c.frame ++ err.toList))
        else
          let ss := c.innerSs d.dpl
          match c.descriptor ss with
          | none => .fault 10 (selCode ss ||| ext)
          | some s =>
            if selRpl ss ≠ d.dpl ∨ s.dpl ≠ d.dpl ∨ !s.isWritableData then .fault 10 (selCode ss ||| ext)
            else if !s.present then .fault 12 (selCode ss ||| ext)
            else if !s.isFlat then .unmodelled
            else
              let c' := { c.withState (c.setReg .esp (c.innerEsp d.dpl)) with ss := ss }
              .done (c'.enter g d.dpl (c.outerFrame ++ err.toList))

/-- The flags that `iret` does not set: the I/O privilege level and what only level 0 may
change, and whether interrupts are enabled unless the I/O level allows it. -/
def iretKept (cpl : BitVec 2) (eflags : BitVec 32) : BitVec 32 :=
  if cpl = 0#2 then 0#32
  else
    FLAG_IOPL ||| FLAG_VM ||| FLAG_VI |||
      (if cpl ≤ eflags.extractLsb' 12 2 then 0#32 else FLAG_IF)

def iretFlags (cpl : BitVec 2) (eflags popped : BitVec 32) : BitVec 32 :=
  (popped &&& ~~~iretKept cpl eflags) ||| (eflags &&& iretKept cpl eflags)

/-- The flags that `popf` leaves. -/
def popfFlags (cpl : BitVec 2) (eflags popped : BitVec 32) : BitVec 32 :=
  let kept := iretKept cpl eflags ||| FLAG_VM ||| FLAG_VI
  (popped &&& ~~~(kept ||| FLAG_RF)) ||| (eflags &&& kept)

/-- A data segment register after a return to `level`: segments of inner levels are lost. -/
def Cpu.dataSegAfter (c : Cpu) (level : BitVec 2) (sel : BitVec 16) : BitVec 16 :=
  match c.descriptor sel with
  | none => sel
  | some d => if d.dpl < level ∧ ¬ (d.isCode ∧ d.isConforming) then 0#16 else sel

/-- `iret`. -/
def iret (c : Cpu) : Outcome :=
  let sp := c.reg .esp
  let eip := load32 c.mem sp
  let cs := (load32 c.mem (sp + 4#32)).setWidth 16
  let popped := load32 c.mem (sp + 8#32)
  if c.eflags &&& FLAG_NT ≠ 0#32 ∨ (c.cpl = 0#2 ∧ popped &&& FLAG_VM ≠ 0#32) then .unmodelled
  else
    match c.descriptor cs with
    | none => .fault 13 (selCode cs)
    | some d =>
      if !d.isCode ∨ selRpl cs < c.cpl ∨ selRpl cs < d.dpl ∨ (!d.isConforming ∧ d.dpl ≠ selRpl cs) then
        .fault 13 (selCode cs)
      else if !d.present then .fault 11 (selCode cs)
      else if !d.isFlat then .unmodelled
      else if selRpl cs = c.cpl then
        .done { c with
          toState := (c.setReg .esp (sp + 12#32)).setEip eip
          cs := cs
          eflags := iretFlags c.cpl c.eflags popped }
      else
        let ss := (load32 c.mem (sp + 16#32)).setWidth 16
        match c.descriptor ss with
        | none => .fault 13 (selCode ss)
        | some s =>
          if selRpl ss ≠ selRpl cs ∨ s.dpl ≠ selRpl cs ∨ !s.isWritableData then .fault 13 (selCode ss)
          else if !s.present then .fault 12 (selCode ss)
          else if !s.isFlat then .unmodelled
          else
            .done { c with
              toState := (c.setReg .esp (load32 c.mem (sp + 12#32))).setEip eip
              cs := cs
              ss := ss
              ds := c.dataSegAfter (selRpl cs) c.ds
              es := c.dataSegAfter (selRpl cs) c.es
              eflags := iretFlags c.cpl c.eflags popped }

-- ---------------------------------------------------------------------------
-- An interrupt and its return
-- ---------------------------------------------------------------------------

/-- A segment for code of a level. -/
structure RawDesc.CodeAt (d : RawDesc) (level : BitVec 2) : Prop where
  code       : d.isCode = true
  conforming : d.isConforming = false
  dpl        : d.dpl = level
  present    : d.present = true
  flat       : d.isFlat = true

/-- A segment for stacks of a level. -/
structure RawDesc.StackAt (d : RawDesc) (level : BitVec 2) : Prop where
  data    : d.isWritableData = true
  dpl     : d.dpl = level
  present : d.present = true
  flat    : d.isFlat = true

/-- A gate for 32-bit handlers that an event may use. -/
structure RawDesc.Admits (g : RawDesc) (cpl : BitVec 2) (soft : Bool) : Prop where
  type    : g.type = INTR_GATE ∨ g.type = TRAP_GATE
  allowed : soft = true → cpl ≤ g.dpl
  present : g.present = true

theorem RawDesc.Admits.not_special {g : RawDesc} {cpl : BitVec 2} {soft : Bool} (h : g.Admits cpl soft) :
    ¬ (g.type = TASK_GATE ∨ g.type ∈ GATES_16) ∧ ¬ (g.type ≠ INTR_GATE ∧ g.type ≠ TRAP_GATE) := by
  rcases h.type with htype | htype <;> rw [htype] <;> decide

theorem RawDesc.Admits.not_refused {g : RawDesc} {cpl : BitVec 2} {soft : Bool} (h : g.Admits cpl soft) :
    ¬ (soft = true ∧ g.dpl < cpl) :=
  fun hlt => BitVec.not_lt.mpr (h.allowed hlt.1) hlt.2

variable {c : Cpu} {vec : Nat} {soft : Bool} {err : Option (BitVec 32)} {g d s : RawDesc}

theorem movToSs_done {sel : BitVec 16} (hs : c.descriptor sel = some s) (hstack : s.StackAt c.cpl)
    (hrpl : selRpl sel = c.cpl) : movToSs c sel = .done { c with ss := sel } := by
  simp [movToSs, hs, hrpl, hstack.dpl, hstack.data, hstack.present, hstack.flat]

/-- Stacks are data segments. -/
theorem movToSeg_stack {sel : BitVec 16} (seg : DataSeg) (hs : c.descriptor sel = some s) {level : BitVec 2}
    (hstack : s.StackAt level) (hcpl : c.cpl ≤ level) (hrpl : selRpl sel ≤ level) :
    movToSeg c seg sel = .done (c.setSeg seg sel) := by
  have hdata := hstack.data
  simp only [RawDesc.isWritableData, Bool.and_eq_true, Bool.not_eq_true'] at hdata
  have hread : s.isReadable = true := by
    rw [RawDesc.isReadable, hdata.1.1, hdata.1.2]
    rfl
  have hcode : s.isCode = false := by rw [RawDesc.isCode, hdata.1.2, Bool.and_false]
  have hlow : ¬ (level < c.cpl ∨ level < selRpl sel) :=
    not_or.mpr ⟨BitVec.not_lt.mpr hcpl, BitVec.not_lt.mpr hrpl⟩
  simp [movToSeg, hs, hread, hcode, hstack.dpl, hlow, hstack.present, hstack.flat]

theorem farJmp_done {sel : BitVec 16} {target : Addr} (hd : c.descriptor sel = some d)
    (hcode : d.CodeAt c.cpl) (hrpl : selRpl sel ≤ c.cpl) :
    farJmp c sel target = .done { c with toState := c.setEip target, cs := withRpl sel c.cpl } := by
  have hle : ¬ c.cpl < selRpl sel := BitVec.not_lt.mpr hrpl
  simp [farJmp, hd, hcode.code, hcode.conforming, hcode.dpl, hcode.present, hcode.flat, hle]

theorem ltr_done {sel : BitVec 16} (hd : c.descriptor sel = some d) (htype : d.type = TSS_AVAIL)
    (hpresent : d.present = true) :
    ltr c sel = .done { c with
      toState := c.setMem (store32 c.mem (descSlot c.gdtr.base (selIndex sel) + 4#32) (d.hi ||| TSS_BUSY))
      tss := d.base } := by
  simp [ltr, hd, htype, hpresent]

/-- **An interrupt of an outer level** switches to the stack of the handler's level. -/
theorem deliver_inner (hg : c.idtr.entry c.mem vec = some g) (hadmits : g.Admits c.cpl soft)
    (hd : c.descriptor g.selector = some d) {level : BitVec 2} (hcode : d.CodeAt level)
    (hlevel : level < c.cpl) (hs : c.descriptor (c.innerSs level) = some s) (hstack : s.StackAt level)
    (hrpl : selRpl (c.innerSs level) = level) :
    deliver c vec soft err =
      .done (({ c.withState (c.setReg .esp (c.innerEsp level)) with ss := c.innerSs level }).enter g level
        (c.outerFrame ++ err.toList)) := by
  obtain ⟨hspecial, htype⟩ := hadmits.not_special
  have hle : ¬ c.cpl < level := BitVec.not_lt.mpr (BitVec.le_of_lt hlevel)
  have hne : ¬ level = c.cpl := BitVec.ne_of_lt hlevel
  simp [deliver, hg, hspecial, htype, hadmits.not_refused, hadmits.present, hd, hcode.code, hcode.dpl, hle,
    hcode.present, hcode.flat, hcode.conforming, hne, hs, hrpl, hstack.dpl, hstack.data,
    hstack.present, hstack.flat]

@[simp] theorem setWidth_selector (sel : BitVec 16) : (sel.setWidth 32).setWidth 16 = sel := by
  rw [BitVec.setWidth_setWidth_of_le _ (by decide), BitVec.setWidth_eq]

/-- **A return to an outer level**, with the frame on top of the stack. -/
theorem iret_outer {eip fl sp : BitVec 32} {cs ss : BitVec 16} {level : BitVec 2}
    (hframe : OnStack c.mem (c.reg .esp) [eip, cs.setWidth 32, fl, sp, ss.setWidth 32])
    (hnt : c.eflags &&& FLAG_NT = 0#32) (hvm : fl &&& FLAG_VM = 0#32)
    (hd : c.descriptor cs = some d) (hcode : d.CodeAt level) (hrpl : selRpl cs = level)
    (hlevel : c.cpl < level) (hs : c.descriptor ss = some s) (hstack : s.StackAt level)
    (hsrpl : selRpl ss = level) :
    iret c = .done { c with
      toState := (c.setReg .esp sp).setEip eip
      cs := cs
      ss := ss
      ds := c.dataSegAfter level c.ds
      es := c.dataSegAfter level c.es
      eflags := iretFlags c.cpl c.eflags fl } := by
  obtain ⟨heip, hcs, hfl, hsp, hss, -⟩ := hframe
  have h8 : c.reg .esp + 4#32 + 4#32 = c.reg .esp + 8#32 := BitVec.add_assoc ..
  have h12 : c.reg .esp + 8#32 + 4#32 = c.reg .esp + 12#32 := BitVec.add_assoc ..
  have h16 : c.reg .esp + 12#32 + 4#32 = c.reg .esp + 16#32 := BitVec.add_assoc ..
  rw [h8] at hfl hsp hss
  rw [h12] at hsp hss
  rw [h16] at hss
  have hne : ¬ level = c.cpl := (BitVec.ne_of_lt hlevel).symm
  have hle : ¬ level < c.cpl := BitVec.not_lt.mpr (BitVec.le_of_lt hlevel)
  simp [iret, heip, hcs, hfl, hsp, hss, hnt, hvm, hd, hcode.code, hcode.conforming, hcode.dpl,
    hcode.present, hcode.flat, hrpl, hne, hle, hs, hsrpl, hstack.dpl, hstack.data, hstack.present,
    hstack.flat]

theorem iretFlags_zero (eflags popped : BitVec 32) : iretFlags 0#2 eflags popped = popped := by
  rw [iretFlags, iretKept, if_pos rfl, BitVec.not_zero, BitVec.and_allOnes, BitVec.and_zero,
    BitVec.or_zero]

/-- Code of level 0 comes back from an interrupt of an outer level to where it was, in a
state in which it has put the general registers and data segments in order again. -/
structure Cpu.Interrupted (c u : Cpu) (level : BitVec 2) : Prop where
  esp    : OnStack u.mem (u.reg .esp) (c.outerFrame.reverse)
  kernel : u.cpl = 0#2
  nt     : u.eflags &&& FLAG_NT = 0#32
  regs   : ∀ r, r ≠ .esp → u.reg r = c.reg r
  ds     : u.ds = c.ds
  es     : u.es = c.es
  tables : u.gdtr = c.gdtr ∧ u.idtr = c.idtr ∧ u.tss = c.tss
  desc   : ∀ sel, u.descriptor sel = c.descriptor sel
  outer  : c.cpl = level

/-- The selectors of code that runs at an outer level. -/
structure Cpu.AtLevel (c : Cpu) (level : BitVec 2) : Prop where
  cpl  : c.cpl = level
  rpl  : selRpl c.ss = level
  code : ∃ d, c.descriptor c.cs = some d ∧ d.CodeAt level
  data : ∃ s, c.descriptor c.ss = some s ∧ s.StackAt level
  ds   : c.dataSegAfter level c.ds = c.ds
  es   : c.dataSegAfter level c.es = c.es
  vm   : c.eflags &&& FLAG_VM = 0#32

/-- **The return undoes the interrupt**: the code that was interrupted goes on as if
nothing had happened, but for the memory that the handler has changed. -/
theorem iret_interrupted {u : Cpu} {level : BitVec 2} (hc : c.AtLevel level) (h0 : 0#2 < level)
    (hu : c.Interrupted u level) : iret u = .done { c with mem := u.mem } := by
  obtain ⟨d, hd, hcode⟩ := hc.code
  obtain ⟨s, hs, hstack⟩ := hc.data
  have hlevel : u.cpl < level := by rwa [hu.kernel]
  have hsel : ∀ sel, u.dataSegAfter level sel = c.dataSegAfter level sel := by
    intro sel
    rw [Cpu.dataSegAfter, Cpu.dataSegAfter, hu.desc]
  rw [iret_outer hu.esp hu.nt hc.vm ((hu.desc _).trans hd) hcode (hc.cpl : selRpl c.cs = level) hlevel
    ((hu.desc _).trans hs) hstack hc.rpl, hu.kernel, iretFlags_zero, hu.ds, hu.es, hsel, hsel, hc.ds,
    hc.es]
  obtain ⟨hgdtr, hidtr, htss⟩ := hu.tables
  have hreg : ((u.setReg .esp (c.reg .esp)).setEip c.eip).reg = c.reg := by
    funext r
    by_cases hr : r = .esp
    · rw [hr, State.reg_setEip, State.reg_setReg_same]
    · rw [State.reg_setEip, State.reg_setReg_ne _ _ hr, hu.regs r hr]
  have hstate : (u.setReg .esp (c.reg .esp)).setEip c.eip = c.setMem u.mem :=
    congrArg (fun reg => (⟨reg, c.eip, u.mem⟩ : State)) hreg
  rw [hstate, hgdtr, hidtr, htss]
  rfl

end X86
