import Mathlib.Logic.Relation
import Munix.Lib.Memory

/-!
# The moves, calls and returns of a 32-bit x86 machine

A machine with the eight general registers, an instruction pointer and byte memory,
and the instructions that save, restore and hand over control: moves between
registers and memory, `call` to a fixed target, and `ret`. None of them reads or
changes a flag. The code lies apart from the memory, and how many bytes an
instruction takes is left to the assembler.

* `runs_straight` — a sequence of moves that lies at the instruction pointer runs to
  its end.
* `runs_ret` / `runs_call` — a function of moves and a `ret`, from its entry and
  from a call.
-/

namespace X86

open ByteMem

inductive Reg
  | eax | ebx | ecx | edx | esi | edi | ebp | esp
deriving DecidableEq

/-- What an instruction can read and change. -/
structure State where
  reg : Reg → BitVec 32
  eip : Addr
  mem : Mem

/-- The instructions; `load` and `store` have a base register and a displacement. -/
inductive Instr
  | load (dst base : Reg) (disp : BitVec 32)
  | store (src base : Reg) (disp : BitVec 32)
  | imm (dst : Reg) (v : BitVec 32)
  | call (target : Addr)
  | ret
deriving DecidableEq

/-- Code: which instruction begins at an address, and the length of each one. -/
structure Code where
  instr : Addr → Option Instr
  size  : Instr → BitVec 32

namespace State

def setReg (s : State) (r : Reg) (v : BitVec 32) : State :=
  { s with reg := fun r' => if r' = r then v else s.reg r' }

def setMem (s : State) (m : Mem) : State := { s with mem := m }

def setEip (s : State) (a : Addr) : State := { s with eip := a }

variable (s : State) (r : Reg) (v : BitVec 32) (m : Mem) (a : Addr)

@[simp] theorem reg_setReg_same : (s.setReg r v).reg r = v := by simp [setReg]

@[simp] theorem reg_setReg_ne {r r' : Reg} (h : r' ≠ r) : (s.setReg r v).reg r' = s.reg r' := by
  simp [setReg, h]

@[simp] theorem mem_setReg : (s.setReg r v).mem = s.mem := rfl
@[simp] theorem eip_setReg : (s.setReg r v).eip = s.eip := rfl
@[simp] theorem reg_setMem : (s.setMem m).reg = s.reg := rfl
@[simp] theorem mem_setMem : (s.setMem m).mem = m := rfl
@[simp] theorem eip_setMem : (s.setMem m).eip = s.eip := rfl
@[simp] theorem reg_setEip : (s.setEip a).reg = s.reg := rfl
@[simp] theorem mem_setEip : (s.setEip a).mem = s.mem := rfl
@[simp] theorem eip_setEip : (s.setEip a).eip = a := rfl

end State

-- ---------------------------------------------------------------------------
-- Execution
-- ---------------------------------------------------------------------------

/-- Moves leave control with the next instruction. -/
def Instr.isMove : Instr → Bool
  | load .. | store .. | imm .. => true
  | call _ | ret => false

/-- What an instruction does, once the instruction pointer is past it. -/
def Instr.exec : Instr → State → State
  | load dst base disp, s => s.setReg dst (load32 s.mem (s.reg base + disp))
  | store src base disp, s => s.setMem (store32 s.mem (s.reg base + disp) (s.reg src))
  | imm dst v, s => s.setReg dst v
  | call target, s =>
    let sp := s.reg .esp - 4#32
    ((s.setReg .esp sp).setMem (store32 s.mem sp s.eip)).setEip target
  | ret, s => (s.setReg .esp (s.reg .esp + 4#32)).setEip (load32 s.mem (s.reg .esp))

variable (code : Code)

/-- One instruction. The machine stops where there is none. -/
def step (s : State) : Option State :=
  (code.instr s.eip).map fun i => i.exec (s.setEip (s.eip + code.size i))

/-- The machine gets from one state to another. -/
def Runs : State → State → Prop := Relation.ReflTransGen fun s t => step code s = some t

/-- A sequence of instructions lies in the code from an address on. -/
def Code.Has : Addr → List Instr → Prop
  | _, [] => True
  | a, i :: is => code.instr a = some i ∧ Code.Has (a + code.size i) is

instance Code.decidableHas : (a : Addr) → (is : List Instr) → Decidable (code.Has a is)
  | _, [] => inferInstanceAs (Decidable True)
  | a, i :: is =>
    have := Code.decidableHas (a + code.size i) is
    inferInstanceAs (Decidable (_ ∧ _))

/-- The state after a sequence of moves, wherever it lies. -/
def execAll (is : List Instr) (s : State) : State := is.foldl (fun s i => i.exec s) s

/-- The length of a sequence in the code. -/
def Code.sizeAll (is : List Instr) : BitVec 32 := is.foldr (fun i n => code.size i + n) 0#32

variable {code}

theorem Instr.exec_move {i : Instr} (h : i.isMove = true) (s : State) (a : Addr) :
    i.exec (s.setEip a) = (i.exec s).setEip a := by
  cases i with
  | load | store | imm => rfl
  | call | ret => cases h

theorem execAll_setEip {is : List Instr} (hmoves : ∀ i ∈ is, i.isMove = true) (s : State)
    (a : Addr) : execAll is (s.setEip a) = (execAll is s).setEip a := by
  induction is generalizing s with
  | nil => rfl
  | cons i is ih =>
    have htail : ∀ j ∈ is, j.isMove = true := fun j hj => hmoves j (List.mem_cons_of_mem _ hj)
    change execAll is (i.exec (s.setEip a)) = (execAll is (i.exec s)).setEip a
    rw [Instr.exec_move (hmoves i List.mem_cons_self), ih htail]

theorem step_of {s : State} {i : Instr} (h : code.instr s.eip = some i) :
    step code s = some (i.exec (s.setEip (s.eip + code.size i))) := by
  rw [step, h, Option.map_some]

/-- **Straight-line code.** Moves that lie at the instruction pointer run one after
the other and leave control with what follows them. -/
theorem runs_straight {is rest : List Instr} {s : State} (hmoves : ∀ i ∈ is, i.isMove = true)
    (hcode : code.Has s.eip (is ++ rest)) :
    Runs code s ((execAll is s).setEip (s.eip + code.sizeAll is)) ∧
      code.Has (s.eip + code.sizeAll is) rest := by
  induction is generalizing s with
  | nil =>
    have hzero : s.eip + code.sizeAll [] = s.eip := BitVec.add_zero _
    rw [hzero]
    exact ⟨Relation.ReflTransGen.refl, hcode⟩
  | cons i is ih =>
    obtain ⟨hi, hcode⟩ := hcode
    have htail : ∀ j ∈ is, j.isMove = true := fun j hj => hmoves j (List.mem_cons_of_mem _ hj)
    have hstep := step_of hi
    rw [Instr.exec_move (hmoves i List.mem_cons_self)] at hstep
    obtain ⟨hruns, hrest⟩ := ih (s := (i.exec s).setEip (s.eip + code.size i)) htail hcode
    have hlen : s.eip + code.sizeAll (i :: is) = s.eip + code.size i + code.sizeAll is :=
      (BitVec.add_assoc ..).symm
    rw [execAll_setEip htail] at hruns
    rw [hlen]
    exact ⟨Relation.ReflTransGen.head hstep hruns, hrest⟩

/-- A function that is a sequence of moves and a `ret`, run to its end. -/
theorem runs_ret {is : List Instr} {s : State} (hmoves : ∀ i ∈ is, i.isMove = true)
    (hcode : code.Has s.eip (is ++ [.ret])) :
    Runs code s (Instr.ret.exec (execAll is s)) := by
  obtain ⟨hruns, hret, -⟩ := runs_straight hmoves hcode
  -- Where the `ret` itself lies does not matter any more.
  have hstep : step code ((execAll is s).setEip (s.eip + code.sizeAll is)) =
      some (Instr.ret.exec (execAll is s)) := by
    rw [step_of hret]
    rfl
  exact hruns.tail hstep

/-- A call, and then a function that is a sequence of moves and a `ret`. -/
theorem runs_call {is : List Instr} {s : State} {target : Addr}
    (hcall : code.instr s.eip = some (.call target)) (hmoves : ∀ i ∈ is, i.isMove = true)
    (hcode : code.Has target (is ++ [.ret])) :
    Runs code s (Instr.ret.exec (execAll is ((Instr.call target).exec
      (s.setEip (s.eip + code.size (.call target)))))) :=
  Relation.ReflTransGen.head (step_of hcall) (runs_ret hmoves hcode)

end X86
