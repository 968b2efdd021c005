import Mathlib.Data.BitVec

/-!
# The 8259 interrupt controller

Two chips as in a PC: the slave is on line 2 of the master. The chips are edge-triggered,
in fully nested mode and without automatic end of interrupt; commands for anything else
have no rule here.

* `Chip.pending_spec` — which request is the next one.
* `serve_endLine_isr` — what the end of an interrupt undoes.
-/

namespace Pic8259

/-- The word of the initialization sequence that the data port expects. -/
inductive Expects
  | icw2
  | icw3
  | icw4
  | mask
deriving DecidableEq

/-- One chip: requests, requests in service, masked requests, the vector of line 0, where its
slaves or its master are, and which register a read of the command port gets. -/
structure Chip where
  irr     : BitVec 8
  isr     : BitVec 8
  imr     : BitVec 8
  base    : BitVec 8
  cascade : BitVec 8
  expects : Expects
  readIsr : Bool
deriving DecidableEq

def line (i : Fin 8) : BitVec 8 := BitVec.twoPow 8 i.val

namespace Chip

variable (c : Chip)

/-- The request in service with the highest priority has ended. -/
def endHighest : Chip := { c with isr := c.isr &&& (c.isr - 1#8) }

/-- The request on a line has ended. -/
def endLine (i : Fin 8) : Chip := { c with isr := c.isr &&& ~~~line i }

/-- A write to the command port. -/
def writeCmd (v : BitVec 8) : Option Chip :=
  if v.getLsbD 4 = true then
    -- a pair, edge-triggered, with all four words
    if v &&& 0x0b#8 = 0x01#8 then
      some { c with irr := 0#8, isr := 0#8, imr := 0#8, expects := .icw2, readIsr := false }
    else none
  else if v.getLsbD 3 = true then
    if v &&& 0xe6#8 = 0x02#8 then some { c with readIsr := v.getLsbD 0 } else none
  else if v &&& 0xe0#8 = 0x60#8 then some (c.endLine ⟨(v.extractLsb' 0 3).toNat, (v.extractLsb' 0 3).isLt⟩)
  else if v &&& 0xe0#8 = 0x20#8 then some c.endHighest
  else none

/-- A write to the data port. -/
def writeData (v : BitVec 8) : Option Chip :=
  match c.expects with
  | .icw2 => some { c with base := v &&& 0xf8#8, expects := .icw3 }
  | .icw3 => some { c with cascade := v, expects := .icw4 }
  -- 8086 mode, and nothing else
  | .icw4 => if v = 0x01#8 then some { c with expects := .mask } else none
  | .mask => some { c with imr := v }

def readCmd : BitVec 8 := if c.readIsr then c.isr else c.irr
def readData : BitVec 8 := c.imr

/-- A request on this line or one with a higher priority is in service. -/
def served (i : Fin 8) : Bool := (List.finRange 8).any fun j => decide (j ≤ i) && c.isr.getLsbD j

/-- The request that the chip passes on. -/
def pending : Option (Fin 8) :=
  if c.expects = .mask then
    (List.finRange 8).find? fun i => c.irr.getLsbD i && !c.imr.getLsbD i && !c.served i
  else none

/-- A request is acknowledged. -/
def serve (i : Fin 8) : Chip := { c with irr := c.irr &&& ~~~line i, isr := c.isr ||| line i }

def vector (i : Fin 8) : BitVec 8 := c.base ||| BitVec.ofNat 8 i.val

/-- A device asks for an interrupt, and no longer does. -/
def raise (i : Fin 8) : Chip := { c with irr := c.irr ||| line i }
def lower (i : Fin 8) : Chip := { c with irr := c.irr &&& ~~~line i }

end Chip

/-- The line of the slave, the line that goes first, and the one that an interrupt without a request is
taken for. -/
def CASCADE : Fin 8 := 2
def HIGHEST : Fin 8 := 0
def LOWEST : Fin 8 := 7

structure Pair where
  master : Chip
  slave  : Chip
deriving DecidableEq

namespace Pair

variable (p : Pair)

/-- The master, with what the slave makes of line 2. -/
def masterIn : Chip :=
  { p.master with
    irr := if p.slave.pending.isSome = true then p.master.irr ||| line CASCADE
      else p.master.irr &&& ~~~line CASCADE }

/-- The request that the processor sees. -/
def request : Option (Fin 8) := p.masterIn.pending

/-- The chips have been told of each other. -/
def IsCascade : Prop := p.master.cascade.getLsbD CASCADE = true ∧ p.slave.cascade = 2#8

instance : Decidable p.IsCascade := inferInstanceAs (Decidable (_ ∧ _))

/-- The slave, without requests that have gone. -/
def slaveLess (gone : BitVec 8) : Chip := { p.slave with irr := p.slave.irr &&& ~~~gone }

/-- The processor acknowledges an interrupt: the vector that it gets, and the chips. The request
may have gone, to the slave also between its two parts (`gone`). -/
def ack (gone : BitVec 8) : BitVec 8 × Pair :=
  match p.request with
  | none => (p.master.vector LOWEST, p)
  | some i =>
    if i = CASCADE ∧ p.IsCascade then
      match (p.slaveLess gone).pending with
      | none => (p.slave.vector LOWEST, ⟨p.masterIn.serve CASCADE, p.slaveLess gone⟩)
      | some j => (p.slave.vector j, ⟨p.masterIn.serve CASCADE, (p.slaveLess gone).serve j⟩)
    else (p.master.vector i, ⟨p.masterIn.serve i, p.slave⟩)

end Pair

-- ---------------------------------------------------------------------------
-- Requests
-- ---------------------------------------------------------------------------

variable {c : Chip} {i j : Fin 8}

theorem getLsbD_line (i j : Fin 8) : (line i).getLsbD j.val = decide (i = j) := by
  rw [line, BitVec.getLsbD_twoPow, decide_eq_true i.isLt, Bool.true_and]
  exact decide_eq_decide.mpr Fin.ext_iff.symm

theorem line_ext {x y : BitVec 8} (h : ∀ j : Fin 8, x.getLsbD j = y.getLsbD j) : x = y :=
  BitVec.eq_of_getLsbD_eq fun k hk => h ⟨k, hk⟩

theorem Chip.served_iff : c.served i = true ↔ ∃ j ≤ i, c.isr.getLsbD j = true := by
  simp [Chip.served]

/-- **The next request**: it is there, it is not masked, and nothing of its priority or a higher one is in
service. -/
theorem Chip.pending_spec (h : c.pending = some i) :
    c.irr.getLsbD i = true ∧ c.imr.getLsbD i = false ∧ ∀ j ≤ i, c.isr.getLsbD j = false := by
  rw [Chip.pending] at h
  split at h
  · have hkey := List.find?_some h
    simp only [Bool.and_eq_true, Bool.not_eq_true'] at hkey
    obtain ⟨⟨hirr, himr⟩, hserved⟩ := hkey
    refine ⟨hirr, himr, fun j hj => Bool.eq_false_iff.mpr fun hisr => ?_⟩
    rw [Chip.served_iff.mpr ⟨j, hj, hisr⟩] at hserved
    cases hserved
  · cases h

/-- A request that nothing masks or keeps back is passed on, unless there is another one. -/
theorem Chip.pending_isSome (hready : c.expects = .mask) (hirr : c.irr.getLsbD i = true)
    (himr : c.imr.getLsbD i = false) (hisr : ∀ j ≤ i, c.isr.getLsbD j = false) : c.pending.isSome = true := by
  have hserved : c.served i = false := by
    refine Bool.eq_false_iff.mpr fun h => ?_
    obtain ⟨j, hj, hjs⟩ := Chip.served_iff.mp h
    rw [hisr j hj] at hjs
    cases hjs
  rw [Chip.pending, if_pos hready, List.find?_isSome]
  refine ⟨i, List.mem_finRange i, ?_⟩
  rw [hirr, himr, hserved]
  rfl

/-- **A request that has been served and has ended** leaves those in service as they were. -/
theorem serve_endLine_isr (h : c.isr.getLsbD i = false) : ((c.serve i).endLine i).isr = c.isr := by
  refine line_ext fun j => ?_
  have hj : decide (j.val < 8) = true := decide_eq_true j.isLt
  rw [Chip.endLine, Chip.serve, BitVec.getLsbD_and, BitVec.getLsbD_or, BitVec.getLsbD_not, getLsbD_line, hj]
  by_cases hij : i = j
  · subst hij
    rw [decide_eq_true rfl, h]
    rfl
  · rw [decide_eq_false hij, Bool.or_false, Bool.not_false, Bool.and_self, Bool.and_true]

-- ---------------------------------------------------------------------------
-- Acknowledging
-- ---------------------------------------------------------------------------

namespace Pair

variable {p : Pair} (gone : BitVec 8)

theorem ack_none (h : p.request = none) : p.ack gone = (p.master.vector LOWEST, p) := by
  rw [ack, h]

theorem ack_line (h : p.request = some i) (hi : i ≠ CASCADE) :
    p.ack gone = (p.master.vector i, ⟨p.masterIn.serve i, p.slave⟩) := by
  rw [ack, h]
  exact if_neg fun h => hi h.1

theorem ack_cascade (h : p.request = some CASCADE) (hp : p.IsCascade) (hj : (p.slaveLess gone).pending = some j) :
    p.ack gone = (p.slave.vector j, ⟨p.masterIn.serve CASCADE, (p.slaveLess gone).serve j⟩) := by
  rw [ack, h, hj]
  exact if_pos ⟨rfl, hp⟩

theorem ack_cascade_none (h : p.request = some CASCADE) (hp : p.IsCascade)
    (hj : (p.slaveLess gone).pending = none) :
    p.ack gone = (p.slave.vector LOWEST, ⟨p.masterIn.serve CASCADE, p.slaveLess gone⟩) := by
  rw [ack, h, hj]
  exact if_pos ⟨rfl, hp⟩

end Pair

end Pic8259
