import Munix.Core.Macros
import Munix.Lib.Pic8259

/-!
# Munix — the driver of the interrupt controller

`drivers/chip/intctl_8259.c` on the chips of `Munix.Lib.Pic8259`, for the commands that
these have.

* `picInit_done` — initialization from any state.
* `pic_masks` — the functions for the masks.
* `pic_eoi_restores` — an acknowledged interrupt and its end, spurious or not.
-/

namespace Munix

open Pic8259

-- ---------------------------------------------------------------------------
-- Ports
-- ---------------------------------------------------------------------------

def PORT_PIC_MASTER_CMD : BitVec 16 := 0x20#16
def PORT_PIC_MASTER_DATA : BitVec 16 := 0x21#16
def PORT_PIC_SLAVE_CMD : BitVec 16 := 0xa0#16
def PORT_PIC_SLAVE_DATA : BitVec 16 := 0xa1#16

def outb (p : Pair) (v : BitVec 8) (port : BitVec 16) : Option Pair :=
  if port = PORT_PIC_MASTER_CMD then (p.master.writeCmd v).map fun c => { p with master := c }
  else if port = PORT_PIC_MASTER_DATA then (p.master.writeData v).map fun c => { p with master := c }
  else if port = PORT_PIC_SLAVE_CMD then (p.slave.writeCmd v).map fun c => { p with slave := c }
  else if port = PORT_PIC_SLAVE_DATA then (p.slave.writeData v).map fun c => { p with slave := c }
  else none

def inb (p : Pair) (port : BitVec 16) : Option (BitVec 8) :=
  if port = PORT_PIC_MASTER_CMD then some p.master.readCmd
  else if port = PORT_PIC_MASTER_DATA then some p.master.readData
  else if port = PORT_PIC_SLAVE_CMD then some p.slave.readCmd
  else if port = PORT_PIC_SLAVE_DATA then some p.slave.readData
  else none

-- ---------------------------------------------------------------------------
-- The driver
-- ---------------------------------------------------------------------------

def ICW1_INIT : BitVec 8 := 0x10#8
def ICW1_NEED_ICW4 : BitVec 8 := 0x01#8
def ICW4_MPM_8086 : BitVec 8 := 0x01#8
def OCW2_EOI_SPECIFIC : BitVec 8 := 0x60#8
def OCW3_READ_ISR : BitVec 8 := 0x0b#8

def IRQ_CASCADE : BitVec 8 := 2#8
def IRQ_MAX : BitVec 8 := 16#8
def IRQ_MASTER_LOWEST_PRIORITY : BitVec 8 := 7#8
def IRQ_SLAVE_START : BitVec 8 := 8#8
def IRQ_SLAVE_LOWEST_PRIORITY : BitVec 8 := 15#8

/-- The result of the shift is an `int`; it is defined for the IRQs up to 39. -/
def picIrqBitSingle (irq : BitVec 8) : BitVec 8 :=
  if irq < IRQ_SLAVE_START then 1#8 <<< irq else 1#8 <<< (irq - IRQ_SLAVE_START)

def picIrqDataPort (irq : BitVec 8) : BitVec 16 :=
  if irq < IRQ_SLAVE_START then PORT_PIC_MASTER_DATA else PORT_PIC_SLAVE_DATA

def picInitSingle (p : Pair) (cmdPort : BitVec 16) (irqStart icw3 : BitVec 8) : Option Pair := do
  let dataPort := cmdPort + 1#16
  let p ← outb p (ICW1_INIT ||| ICW1_NEED_ICW4) cmdPort
  let p ← outb p irqStart dataPort
  let p ← outb p icw3 dataPort
  outb p ICW4_MPM_8086 dataPort

def picInit (p : Pair) (irqStart : BitVec 8) : Option Pair := do
  let icw3Master := 1#8 <<< IRQ_CASCADE
  let icw3Slave := IRQ_CASCADE
  let p ← picInitSingle p PORT_PIC_MASTER_CMD irqStart icw3Master
  picInitSingle p PORT_PIC_SLAVE_CMD (irqStart + IRQ_SLAVE_START) icw3Slave

def picMaskIrq (p : Pair) (irq : BitVec 8) : Option Pair := do
  let mask ← inb p (picIrqDataPort irq)
  outb p (mask ||| picIrqBitSingle irq) (picIrqDataPort irq)

def picUnmaskIrq (p : Pair) (irq : BitVec 8) : Option Pair := do
  let mask ← inb p (picIrqDataPort irq)
  outb p (mask &&& ~~~picIrqBitSingle irq) (picIrqDataPort irq)

def picGetMask (p : Pair) : Option (BitVec 16) := do
  let m ← inb p PORT_PIC_MASTER_DATA
  let s ← inb p PORT_PIC_SLAVE_DATA
  some ((s.setWidth 16 <<< 8) ||| m.setWidth 16)

def picSetMask (p : Pair) (mask : BitVec 16) : Option Pair := do
  let p ← outb p (mask.setWidth 8) PORT_PIC_MASTER_DATA
  outb p ((mask >>> 8).setWidth 8) PORT_PIC_SLAVE_DATA

def picSendEoi (p : Pair) (irq : BitVec 8) : Option (Int × Pair) :=
  if IRQ_MAX ≤ irq then some (-EINVAL, p)
  else if irq < IRQ_SLAVE_START then do
    let p ← outb p (OCW2_EOI_SPECIFIC ||| irq) PORT_PIC_MASTER_CMD
    some (0, p)
  else do
    let slaveIrq := irq - IRQ_SLAVE_START
    let p ← outb p (OCW2_EOI_SPECIFIC ||| slaveIrq) PORT_PIC_SLAVE_CMD
    let p ← outb p (OCW2_EOI_SPECIFIC ||| IRQ_CASCADE) PORT_PIC_MASTER_CMD
    some (0, p)

def picReadReg (p : Pair) (port : BitVec 16) (ocw3 : BitVec 8) : Option (BitVec 8 × Pair) := do
  let p ← outb p ocw3 port
  let v ← inb p port
  some (v, p)

def picCheckSpurious (p : Pair) (irq : BitVec 8) : Option (Bool × Pair) :=
  let isrLowest := 1#8 <<< IRQ_MASTER_LOWEST_PRIORITY
  if irq = IRQ_MASTER_LOWEST_PRIORITY then do
    let (isr, p) ← picReadReg p PORT_PIC_MASTER_CMD OCW3_READ_ISR
    some (isr &&& isrLowest == 0#8, p)
  else if irq = IRQ_SLAVE_LOWEST_PRIORITY then do
    let (isr, p) ← picReadReg p PORT_PIC_SLAVE_CMD OCW3_READ_ISR
    if isr &&& isrLowest == 0#8 then do
      let (_, p) ← picSendEoi p IRQ_CASCADE
      some (true, p)
    else some (false, p)
  else some (false, p)

-- ---------------------------------------------------------------------------
-- Initialization
-- ---------------------------------------------------------------------------

/-- Both chips have been initialized. -/
structure Ready (p : Pair) : Prop where
  master : p.master.expects = .mask
  slave  : p.slave.expects = .mask

/-- **Initialization** from any state: nothing is requested, in service or masked, the vectors
begin where they are told to, and the chips know of each other. -/
theorem picInit_done (p : Pair) (irqStart : BitVec 8) :
    picInit p irqStart = some ⟨⟨0#8, 0#8, 0#8, irqStart &&& 0xf8#8, 4#8, .mask, false⟩,
      ⟨0#8, 0#8, 0#8, (irqStart + 8#8) &&& 0xf8#8, 2#8, .mask, false⟩⟩ := by
  have hcmd : ∀ c : Chip, c.writeCmd (ICW1_INIT ||| ICW1_NEED_ICW4) =
      some { c with irr := 0#8, isr := 0#8, imr := 0#8, expects := .icw2, readIsr := false } := fun c => rfl
  simp [picInit, picInitSingle, outb, hcmd, Chip.writeData, PORT_PIC_MASTER_CMD, PORT_PIC_MASTER_DATA,
    PORT_PIC_SLAVE_CMD, PORT_PIC_SLAVE_DATA, IRQ_CASCADE, IRQ_SLAVE_START, ICW4_MPM_8086]

-- ---------------------------------------------------------------------------
-- Masks
-- ---------------------------------------------------------------------------

/-- The masks of the 16 IRQs as one word. -/
def irqMask (p : Pair) : BitVec 16 := p.slave.imr ++ p.master.imr

def withMask (p : Pair) (m : BitVec 16) : Pair :=
  ⟨{ p.master with imr := m.setWidth 8 }, { p.slave with imr := (m >>> 8).setWidth 8 }⟩

section Masks

variable {p : Pair} (m : BitVec 16) {irq : BitVec 8}

theorem irqMask_low (p : Pair) : (irqMask p).setWidth 8 = p.master.imr := by
  apply BitVec.eq_of_getLsbD_eq
  intro i hi
  rw [irqMask, BitVec.getLsbD_setWidth, BitVec.getLsbD_append, if_pos hi, decide_eq_true hi, Bool.true_and]

theorem irqMask_high (p : Pair) : (irqMask p >>> 8).setWidth 8 = p.slave.imr := by
  apply BitVec.eq_of_getLsbD_eq
  intro i hi
  rw [irqMask, BitVec.getLsbD_setWidth, BitVec.getLsbD_ushiftRight, BitVec.getLsbD_append,
    if_neg (by omega), Nat.add_sub_cancel_left, decide_eq_true hi, Bool.true_and]

theorem irqMask_withMask (p : Pair) : irqMask (withMask p m) = m := by
  apply BitVec.eq_of_getLsbD_eq
  intro i hi
  rw [irqMask, BitVec.getLsbD_append]
  split
  next h => rw [withMask, BitVec.getLsbD_setWidth, decide_eq_true h, Bool.true_and]
  next h =>
    rw [withMask, BitVec.getLsbD_setWidth, BitVec.getLsbD_ushiftRight, Nat.add_sub_cancel' (Nat.not_lt.mp h),
      decide_eq_true (by omega), Bool.true_and]

/-- The two registers read as one. -/
theorem irqMask_eq (p : Pair) : irqMask p = p.slave.imr.setWidth 16 <<< 8 ||| p.master.imr.setWidth 16 := by
  apply BitVec.eq_of_getLsbD_eq
  intro i hi
  rw [irqMask, BitVec.getLsbD_append, BitVec.getLsbD_or, BitVec.getLsbD_shiftLeft, BitVec.getLsbD_setWidth,
    BitVec.getLsbD_setWidth, decide_eq_true hi, Bool.true_and, Bool.true_and]
  split
  next h => rw [decide_eq_true h, Bool.not_true, Bool.false_and, Bool.false_or]
  next h =>
    rw [decide_eq_false h, Bool.not_false, Bool.true_and, BitVec.getLsbD_of_ge _ i (Nat.not_lt.mp h),
      Bool.or_false, decide_eq_true (by omega), Bool.true_and]

theorem irqBit_low : ∀ irq : BitVec 8, irq < IRQ_MAX →
    (1#16 <<< irq).setWidth 8 = if irq < IRQ_SLAVE_START then picIrqBitSingle irq else 0#8 := by
  decide +kernel

theorem irqBit_high : ∀ irq : BitVec 8, irq < IRQ_MAX →
    ((1#16 <<< irq) >>> 8).setWidth 8 = if irq < IRQ_SLAVE_START then 0#8 else picIrqBitSingle irq := by
  decide +kernel

theorem setWidth_not_high (x : BitVec 16) : (~~~x >>> 8).setWidth 8 = ~~~((x >>> 8).setWidth 8) := by
  apply BitVec.eq_of_getLsbD_eq
  intro i hi
  simp [hi, (by omega : 8 + i < 16)]

/-- A new mask for one IRQ, made from the old one. -/
theorem outb_mask (hp : Ready p) (f : BitVec 8 → BitVec 8)
    (hlow : m.setWidth 8 = if irq < IRQ_SLAVE_START then f p.master.imr else p.master.imr)
    (hhigh : (m >>> 8).setWidth 8 = if irq < IRQ_SLAVE_START then p.slave.imr else f p.slave.imr) :
    ((inb p (picIrqDataPort irq)).bind fun mask => outb p (f mask) (picIrqDataPort irq)) =
      some (withMask p m) := by
  rw [withMask, hlow, hhigh]
  by_cases h : irq < IRQ_SLAVE_START
  · simp [picIrqDataPort, h, inb, outb, Chip.readData, Chip.writeData, hp.master, PORT_PIC_MASTER_CMD,
      PORT_PIC_MASTER_DATA]
  · simp [picIrqDataPort, h, inb, outb, Chip.readData, Chip.writeData, hp.slave, PORT_PIC_MASTER_CMD,
      PORT_PIC_MASTER_DATA, PORT_PIC_SLAVE_CMD, PORT_PIC_SLAVE_DATA]

theorem picSetMask_ready (hp : Ready p) : picSetMask p m = some (withMask p m) := by
  simp [picSetMask, outb, Chip.writeData, hp.master, hp.slave, withMask, PORT_PIC_MASTER_CMD,
    PORT_PIC_MASTER_DATA, PORT_PIC_SLAVE_CMD, PORT_PIC_SLAVE_DATA]

/-- **The masks.** The masks of the two chips are one register of 16 bits: it is read and written as a
whole, and masking or unmasking an IRQ changes its bit and no other. -/
theorem pic_masks (hp : Ready p) (hirq : irq < IRQ_MAX) :
    picGetMask p = some (irqMask p) ∧
      picSetMask p m = some (withMask p m) ∧ irqMask (withMask p m) = m ∧
      picMaskIrq p irq = some (withMask p (irqMask p ||| 1#16 <<< irq)) ∧
      picUnmaskIrq p irq = some (withMask p (irqMask p &&& ~~~(1#16 <<< irq))) := by
  refine ⟨?_, picSetMask_ready m hp, irqMask_withMask m p, outb_mask _ hp (· ||| picIrqBitSingle irq) ?_ ?_,
    outb_mask _ hp (· &&& ~~~picIrqBitSingle irq) ?_ ?_⟩
  · rw [irqMask_eq]
    rfl
  · rw [BitVec.setWidth_or, irqMask_low, irqBit_low irq hirq]
    split
    · rfl
    · exact BitVec.or_zero
  · rw [BitVec.ushiftRight_or_distrib, BitVec.setWidth_or, irqMask_high, irqBit_high irq hirq]
    split
    · exact BitVec.or_zero
    · rfl
  · rw [BitVec.setWidth_and, irqMask_low, BitVec.setWidth_not (by decide), irqBit_low irq hirq]
    split
    · rfl
    · exact BitVec.and_allOnes
  · rw [BitVec.ushiftRight_and_distrib, BitVec.setWidth_and, irqMask_high, setWidth_not_high,
      irqBit_high irq hirq]
    split
    · exact BitVec.and_allOnes
    · rfl

end Masks

/-- Chips with all lines but the cascade and line 3 of the slave masked, and a request on the latter. -/
def examplePics : Pair :=
  ⟨⟨0#8, 0#8, 0xfb#8, 32#8, 4#8, .mask, false⟩, ⟨0x08#8, 0#8, 0xf7#8, 40#8, 2#8, .mask, false⟩⟩

theorem pic_masks_example : picMaskIrq examplePics 11#8 = some (withMask examplePics 0xfffb#16) := by
  obtain ⟨-, -, -, hmask, -⟩ := @pic_masks examplePics 0#16 11#8 ⟨rfl, rfl⟩ (by decide)
  have hall : irqMask examplePics ||| 1#16 <<< 11#8 = 0xfffb#16 := by decide
  rwa [hall] at hmask

-- ---------------------------------------------------------------------------
-- The end of an interrupt
-- ---------------------------------------------------------------------------

/-- The end of an interrupt as the comment at `pic_check_spurious` has it: whether it has been
spurious, and the chips. -/
def picFinish (p : Pair) (irq : BitVec 8) : Option (Bool × Pair) := do
  let (spurious, p) ← picCheckSpurious p irq
  if spurious then some (true, p)
  else do
    let (_, p) ← picSendEoi p irq
    some (false, p)

/-- No request is left when the interrupt is acknowledged. -/
def Spurious (p : Pair) (gone : BitVec 8) : Prop :=
  p.request = none ∨ p.request = some CASCADE ∧ (p.slaveLess gone).pending = none

/-- A chip apart from requests and from what a read of the command port gets. -/
def control (c : Chip) : Chip := { c with irr := 0#8, readIsr := false }

section Eoi

variable (p : Pair) (c : Chip)

theorem writeCmd_eoi : ∀ i : Fin 8,
    c.writeCmd (OCW2_EOI_SPECIFIC ||| BitVec.ofNat 8 i.val) = some (c.endLine i) := by
  intro i
  fin_cases i <;> rfl

/-- `pic_send_eoi` on a line of the master. -/
theorem picSendEoi_master (i : Fin 8) :
    picSendEoi p (BitVec.ofNat 8 i.val) = some (0, { p with master := p.master.endLine i }) := by
  have hirq : ∀ i : Fin 8, ¬ IRQ_MAX ≤ BitVec.ofNat 8 i.val ∧ BitVec.ofNat 8 i.val < IRQ_SLAVE_START := by
    decide
  rw [picSendEoi, if_neg (hirq i).1, if_pos (hirq i).2, outb, if_pos rfl, writeCmd_eoi]
  rfl

/-- `pic_send_eoi` on a line of the slave. -/
theorem picSendEoi_slave (j : Fin 8) :
    picSendEoi p (8#8 + BitVec.ofNat 8 j.val) = some (0, ⟨p.master.endLine CASCADE, p.slave.endLine j⟩) := by
  have hirq : ∀ j : Fin 8, ¬ IRQ_MAX ≤ 8#8 + BitVec.ofNat 8 j.val ∧
      ¬ 8#8 + BitVec.ofNat 8 j.val < IRQ_SLAVE_START ∧
      8#8 + BitVec.ofNat 8 j.val - IRQ_SLAVE_START = BitVec.ofNat 8 j.val := by
    decide
  obtain ⟨hmax, hslave, hline⟩ := hirq j
  have hout : ∀ v, outb p v PORT_PIC_SLAVE_CMD = (p.slave.writeCmd v).map fun c => { p with slave := c } :=
    fun v => rfl
  have hmaster : ∀ (p : Pair) v, outb p v PORT_PIC_MASTER_CMD =
      (p.master.writeCmd v).map fun c => { p with master := c } := fun p v => rfl
  have hcascade : ∀ c : Chip, c.writeCmd (OCW2_EOI_SPECIFIC ||| IRQ_CASCADE) = some (c.endLine CASCADE) :=
    fun c => writeCmd_eoi c CASCADE
  rw [picSendEoi, if_neg hmax, if_neg hslave]
  simp only [hline, hout, writeCmd_eoi, Option.map_some, hmaster, hcascade, Option.bind_eq_bind,
    Option.bind_some]

/-- The bit that `pic_check_spurious` looks at. -/
theorem lowest_iff (isr : BitVec 8) :
    (isr &&& 1#8 <<< IRQ_MASTER_LOWEST_PRIORITY == 0#8) = !isr.getLsbD LOWEST := by
  have hall : ∀ isr : BitVec 8,
      (isr &&& 1#8 <<< IRQ_MASTER_LOWEST_PRIORITY == 0#8) = !isr.getLsbD LOWEST := by decide +kernel
  exact hall isr

/-- The chips after `pic_read_reg` on the in-service register of one of them. -/
def readMaster : Pair := { p with master := { p.master with readIsr := true } }
def readSlave : Pair := { p with slave := { p.slave with readIsr := true } }

theorem picCheckSpurious_master : picCheckSpurious p (BitVec.ofNat 8 LOWEST.val) =
    some (!p.master.isr.getLsbD LOWEST, readMaster p) := by
  rw [← lowest_iff]
  rfl

theorem picCheckSpurious_slave (h : p.slave.isr.getLsbD LOWEST = true) :
    picCheckSpurious p (8#8 + BitVec.ofNat 8 LOWEST.val) = some (false, readSlave p) := by
  have hbit : (p.slave.isr &&& 1#8 <<< IRQ_MASTER_LOWEST_PRIORITY == 0#8) = false := by
    rw [lowest_iff, h]
    rfl
  have hread : picReadReg p PORT_PIC_SLAVE_CMD OCW3_READ_ISR = some (p.slave.isr, readSlave p) := rfl
  have hmaster : 8#8 + BitVec.ofNat 8 LOWEST.val ≠ IRQ_MASTER_LOWEST_PRIORITY := by decide
  have hslave : 8#8 + BitVec.ofNat 8 LOWEST.val = IRQ_SLAVE_LOWEST_PRIORITY := by decide
  simp only [picCheckSpurious, if_neg hmaster, if_pos hslave, hread, hbit, Option.bind_eq_bind,
    Option.bind_some, Bool.false_eq_true, if_false]

/-- A spurious interrupt of the slave has to be ended for the master. -/
theorem picCheckSpurious_slave_spurious (h : p.slave.isr.getLsbD LOWEST = false) :
    picCheckSpurious p (8#8 + BitVec.ofNat 8 LOWEST.val) =
      some (true, { readSlave p with master := p.master.endLine CASCADE }) := by
  have hbit : (p.slave.isr &&& 1#8 <<< IRQ_MASTER_LOWEST_PRIORITY == 0#8) = true := by
    rw [lowest_iff, h]
    rfl
  have hread : picReadReg p PORT_PIC_SLAVE_CMD OCW3_READ_ISR = some (p.slave.isr, readSlave p) := rfl
  have hmaster : 8#8 + BitVec.ofNat 8 LOWEST.val ≠ IRQ_MASTER_LOWEST_PRIORITY := by decide
  have hslave : 8#8 + BitVec.ofNat 8 LOWEST.val = IRQ_SLAVE_LOWEST_PRIORITY := by decide
  have heoi : picSendEoi (readSlave p) IRQ_CASCADE =
      some (0, { readSlave p with master := p.master.endLine CASCADE }) :=
    picSendEoi_master (readSlave p) CASCADE
  simp only [picCheckSpurious, if_neg hmaster, if_pos hslave, hread, hbit, Option.bind_eq_bind,
    Option.bind_some, if_true, heoi]

/-- An interrupt that is not of the lowest priority is not looked at. -/
theorem picCheckSpurious_other {irq : BitVec 8} (hmaster : irq ≠ IRQ_MASTER_LOWEST_PRIORITY)
    (hslave : irq ≠ IRQ_SLAVE_LOWEST_PRIORITY) : picCheckSpurious p irq = some (false, p) := by
  simp only [picCheckSpurious, if_neg hmaster, if_neg hslave]

variable {p c}

theorem picFinish_of_check {irq : BitVec 8} {q r : Pair} (hcheck : picCheckSpurious p irq = some (false, q))
    (heoi : picSendEoi q irq = some (0, r)) : picFinish p irq = some (false, r) := by
  simp only [picFinish, hcheck, heoi, Option.bind_eq_bind, Option.bind_some, Bool.false_eq_true, if_false]

theorem picFinish_of_spurious {irq : BitVec 8} {q : Pair} (hcheck : picCheckSpurious p irq = some (true, q)) :
    picFinish p irq = some (true, q) := by
  simp only [picFinish, hcheck, Option.bind_eq_bind, Option.bind_some, if_true]

/-- An interrupt of a line that is in service is ended. -/
theorem picFinish_master {i : Fin 8} (h : p.master.isr.getLsbD i = true) :
    ∃ p', picFinish p (BitVec.ofNat 8 i.val) = some (false, p') ∧
      control p'.master = control (p.master.endLine i) ∧ control p'.slave = control p.slave := by
  by_cases hlow : i = LOWEST
  · subst hlow
    have hcheck := picCheckSpurious_master p
    rw [h] at hcheck
    exact ⟨_, picFinish_of_check hcheck (picSendEoi_master (readMaster p) LOWEST), rfl, rfl⟩
  · have hirq : ∀ i : Fin 8, i ≠ LOWEST → BitVec.ofNat 8 i.val ≠ IRQ_MASTER_LOWEST_PRIORITY ∧
        BitVec.ofNat 8 i.val ≠ IRQ_SLAVE_LOWEST_PRIORITY := by decide
    obtain ⟨hmaster, hslave⟩ := hirq i hlow
    exact ⟨_, picFinish_of_check (picCheckSpurious_other p hmaster hslave) (picSendEoi_master p i), rfl, rfl⟩

/-- An interrupt of a line of the slave, in service there and on the master. -/
theorem picFinish_slave {j : Fin 8} (h : p.slave.isr.getLsbD j = true) :
    ∃ p', picFinish p (8#8 + BitVec.ofNat 8 j.val) = some (false, p') ∧
      control p'.master = control (p.master.endLine CASCADE) ∧
      control p'.slave = control (p.slave.endLine j) := by
  by_cases hlow : j = LOWEST
  · subst hlow
    exact ⟨_, picFinish_of_check (picCheckSpurious_slave p h) (picSendEoi_slave (readSlave p) LOWEST), rfl, rfl⟩
  · have hirq : ∀ j : Fin 8, j ≠ LOWEST → 8#8 + BitVec.ofNat 8 j.val ≠ IRQ_MASTER_LOWEST_PRIORITY ∧
        8#8 + BitVec.ofNat 8 j.val ≠ IRQ_SLAVE_LOWEST_PRIORITY := by decide
    obtain ⟨hmaster, hslave⟩ := hirq j hlow
    exact ⟨_, picFinish_of_check (picCheckSpurious_other p hmaster hslave) (picSendEoi_slave p j), rfl, rfl⟩

/-- A line that has been served and has ended. -/
theorem control_served {irr : BitVec 8} {i : Fin 8} (h : c.isr.getLsbD i = false) :
    control (({ c with irr := irr }.serve i).endLine i) = control c := by
  have hisr : (({ c with irr := irr }.serve i).endLine i).isr = c.isr := serve_endLine_isr h
  rw [control, hisr]
  rfl

theorem isr_serve (c : Chip) (i : Fin 8) : (c.serve i).isr.getLsbD i = true := by
  rw [Chip.serve, BitVec.getLsbD_or, getLsbD_line, decide_eq_true rfl, Bool.or_true]

end Eoi

/-- Where `pic_init(32)` lets the vectors begin. -/
structure Based (p : Pair) : Prop extends Ready p where
  masterBase : p.master.base = 32#8
  slaveBase  : p.slave.base = 40#8
  cascade    : p.IsCascade

theorem Based.irq {p : Pair} (h : Based p) (i : Fin 8) :
    p.master.vector i - 32#8 = BitVec.ofNat 8 i.val ∧
      p.slave.vector i - 32#8 = 8#8 + BitVec.ofNat 8 i.val := by
  have hall : ∀ i : Fin 8, (32#8 ||| BitVec.ofNat 8 i.val) - 32#8 = BitVec.ofNat 8 i.val ∧
      (40#8 ||| BitVec.ofNat 8 i.val) - 32#8 = 8#8 + BitVec.ofNat 8 i.val := by decide
  rw [Chip.vector, Chip.vector, h.masterBase, h.slaveBase]
  exact hall i

/-- **Every interrupt can be ended**, whatever else is in service, and for whichever device, unless the
line that spurious interrupts are taken for is in service already: what is in service, the masks and
the vectors are afterwards what they were before it was acknowledged, and the driver tells exactly
the spurious ones. -/
theorem pic_eoi_restores {p : Pair} (hp : Based p) (hmaster : p.master.isr.getLsbD LOWEST = false)
    (hslave : p.slave.isr.getLsbD LOWEST = false) (gone : BitVec 8) :
    ∃ spurious p', picFinish (p.ack gone).2 ((p.ack gone).1 - 32#8) = some (spurious, p') ∧
      (spurious = true ↔ Spurious p gone) ∧
      control p'.master = control p.master ∧ control p'.slave = control p.slave := by
  cases hreq : p.request with
  | none =>
    have hcheck := picCheckSpurious_master p
    rw [hmaster] at hcheck
    have hrun := picFinish_of_spurious hcheck
    rw [← (hp.irq LOWEST).1] at hrun
    rw [Pair.ack_none gone hreq]
    exact ⟨true, readMaster p, hrun, ⟨fun _ => .inl hreq, fun _ => rfl⟩, rfl, rfl⟩
  | some i =>
    have hfree : p.master.isr.getLsbD i = false := (Chip.pending_spec hreq).2.2 i (le_refl i)
    by_cases hi : i = CASCADE
    · subst hi
      cases hpend : (p.slaveLess gone).pending with
      | none =>
        have hcheck := picCheckSpurious_slave_spurious ⟨p.masterIn.serve CASCADE, p.slaveLess gone⟩ hslave
        rw [Pair.ack_cascade_none gone hreq hp.cascade hpend]
        have hrun := picFinish_of_spurious hcheck
        rw [← (hp.irq LOWEST).2] at hrun
        exact ⟨true, _, hrun, ⟨fun _ => .inr ⟨hreq, hpend⟩, fun _ => rfl⟩,
          control_served (c := p.master) hfree, rfl⟩
      | some j =>
        have hfree' : p.slave.isr.getLsbD j = false := (Chip.pending_spec hpend).2.2 j (le_refl j)
        obtain ⟨p', hrun, hm, hs⟩ :=
          picFinish_slave (p := ⟨p.masterIn.serve CASCADE, (p.slaveLess gone).serve j⟩) (isr_serve _ j)
        rw [Pair.ack_cascade gone hreq hp.cascade hpend]
        rw [← (hp.irq j).2] at hrun
        refine ⟨false, p', hrun, ⟨nofun, ?_⟩, hm.trans (control_served (c := p.master) hfree),
          hs.trans (control_served (c := p.slave) hfree')⟩
        rintro (h | ⟨-, h⟩)
        · exact absurd (hreq.symm.trans h) (Option.some_ne_none _)
        · exact absurd (hpend.symm.trans h) (Option.some_ne_none _)
    · obtain ⟨p', hrun, hm, hs⟩ := picFinish_master (p := ⟨p.masterIn.serve i, p.slave⟩) (isr_serve _ i)
      rw [Pair.ack_line gone hreq hi]
      rw [← (hp.irq i).1] at hrun
      refine ⟨false, p', hrun, ⟨nofun, ?_⟩, hm.trans (control_served (c := p.master) hfree), hs⟩
      rintro (h | ⟨h, -⟩)
      · exact absurd (hreq.symm.trans h) (Option.some_ne_none _)
      · exact absurd (Option.some_inj.mp (hreq.symm.trans h)) hi

/-- A request on line 3 of the slave. -/
theorem pic_eoi_restores_slave :
    (examplePics.ack 0#8).1 = 43#8 ∧ ∃ p', picFinish (examplePics.ack 0#8).2 11#8 = some (false, p') ∧
      control p'.slave = control examplePics.slave := by
  have hbased : Based examplePics := ⟨⟨rfl, rfl⟩, rfl, rfl, by decide⟩
  have hvec : (examplePics.ack 0#8).1 = 43#8 := by decide
  obtain ⟨spurious, p', hrun, hspurious, -, hs⟩ := pic_eoi_restores hbased (by decide) (by decide) 0#8
  have hno : ¬ Spurious examplePics 0#8 := by
    rintro (h | ⟨-, h⟩)
    · exact absurd h (by decide)
    · exact absurd h (by decide)
  rw [hvec, Bool.eq_false_iff.mpr fun h => hno (hspurious.mp h)] at hrun
  exact ⟨hvec, p', hrun, hs⟩

end Munix
