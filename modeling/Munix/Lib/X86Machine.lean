import Munix.Lib.X86Gates

/-!
# Instructions of a 32-bit x86 machine with privilege levels

Programs for the processor of `Munix.Lib.X86Gates`: the instructions of code at any
level, exceptions included, and which of them code of the outermost level can use to
what end.

* `Machine.runs_execAll` — straight-line code runs to its end.
* `Machine.step_outermost` — what an instruction of the outermost level can do.
-/

namespace X86

open ByteMem

-- ---------------------------------------------------------------------------
-- The machine
-- ---------------------------------------------------------------------------

/-- The instructions. `plain` are those of the machine without levels. -/
inductive Op
  | plain (i : Instr)
  | mov (dst src : Reg)
  | lea (dst base : Reg) (disp : BitVec 32)
  | push (src : Reg)
  | pushMem (base : Reg) (disp : BitVec 32)
  | pop (dst : Reg)
  | add (dst : Reg) (v : BitVec 32)
  | sub (dst : Reg) (v : BitVec 32)
  | and (dst : Reg) (v : BitVec 32)
  | xor (dst src : Reg)
  | callReg (target : Reg)
  | jmp (target : Addr)
  | jcc (target : Addr)
  | popf
  | movToSeg (seg : DataSeg) (src : Reg)
  /-- `sti` and `cli` -/
  | setIf (enabled : Bool)
  | int (vec : Nat)
  | iret
  | hlt
deriving DecidableEq

/-- Code in memory, the pages, what arithmetic leaves in the status flags and which
conditional jumps are taken. -/
structure Machine where
  instr  : Addr → Option Op
  size   : Op → BitVec 32
  /-- addresses that code outside of level 0 can read, and those that it can write -/
  user   : Addr → Bool
  userW  : Addr → Bool
  status : Op → Cpu → BitVec 32
  taken  : Op → Cpu → Bool
  /-- the error code of a page fault -/
  pfCode : Cpu → BitVec 32

variable (M : Machine)

/-- Arithmetic: a result, and the status flags. -/
def Machine.arith (op : Op) (c : Cpu) (dst : Reg) (v : BitVec 32) : Cpu :=
  { c with
    toState := c.setReg dst v
    eflags := (c.eflags &&& ~~~FLAGS_STATUS) ||| (M.status op c &&& FLAGS_STATUS) }

/-- What an instruction does that raises no event, once the instruction pointer is past it. -/
def Machine.exec (op : Op) (c : Cpu) : Cpu :=
  match op with
  | .plain i => c.withState (i.exec c.toState)
  | .mov dst src => c.withState (c.setReg dst (c.reg src))
  | .lea dst base disp => c.withState (c.setReg dst (c.reg base + disp))
  | .push src => c.push (c.reg src)
  | .pushMem base disp => c.push (load32 c.mem (c.reg base + disp))
  | .pop dst =>
    c.withState ((c.setReg .esp (c.reg .esp + 4#32)).setReg dst (load32 c.mem (c.reg .esp)))
  | .add dst v => M.arith op c dst (c.reg dst + v)
  | .sub dst v => M.arith op c dst (c.reg dst - v)
  | .and dst v => M.arith op c dst (c.reg dst &&& v)
  | .xor dst src => M.arith op c dst (c.reg dst ^^^ c.reg src)
  | .callReg target => (c.push c.eip).withState ((c.push c.eip).setEip (c.reg target))
  | .jmp target => c.withState (c.setEip target)
  | .jcc target => if M.taken op c then c.withState (c.setEip target) else c
  | .popf =>
    { c with
      toState := c.setReg .esp (c.reg .esp + 4#32)
      eflags := popfFlags c.cpl c.eflags (load32 c.mem (c.reg .esp)) }
  | .movToSeg .. | .setIf _ | .int _ | .iret | .hlt => c

/-- Instructions that raise an event or end one, and those that are not allowed everywhere. -/
def Op.isEvent : Op → Bool
  | .movToSeg .. | .setIf _ | .int _ | .iret | .hlt => true
  | _ => false

/-- The words that an instruction reads and writes: their addresses, and whether they are
written. The pushes of an interrupt are made at the level of its handler. -/
def Op.accesses (op : Op) (c : Cpu) : List (Addr × Bool) :=
  match op with
  | .plain (.load _ base disp) => [(c.reg base + disp, false)]
  | .plain (.store _ base disp) => [(c.reg base + disp, true)]
  | .plain (.imm _ _) => []
  | .plain (.call _) => [(c.reg .esp - 4#32, true)]
  | .plain .ret => [(c.reg .esp, false)]
  | .push _ => [(c.reg .esp - 4#32, true)]
  | .pushMem base disp => [(c.reg base + disp, false), (c.reg .esp - 4#32, true)]
  | .pop _ | .popf => [(c.reg .esp, false)]
  | .callReg _ => [(c.reg .esp - 4#32, true)]
  | .iret => [0#32, 4#32, 8#32].map fun off => (c.reg .esp + off, false)
  | .mov .. | .lea .. | .add .. | .sub .. | .and .. | .xor .. | .jmp _ | .jcc _ | .movToSeg .. | .setIf _ | .int _ |
    .hlt => []

/-- All four bytes of a word. -/
def wordAll (p : Addr → Bool) (a : Addr) : Bool := [0#32, 1#32, 2#32, 3#32].all fun i => p (a + i)

/-- The pages allow an access. -/
def Machine.permits (q : Addr × Bool) : Bool :=
  if q.2 then wordAll M.userW q.1 else wordAll M.user q.1

/-- The instruction and all its accesses are allowed at the current level. -/
def Machine.allows (op : Op) (c : Cpu) : Bool :=
  c.cpl == 0#2 || (M.user c.eip && (op.accesses c).all M.permits)

/-- The state after an event; an exception that cannot be delivered has no rule. -/
def Outcome.state : Outcome → Option Cpu
  | .done c => some c
  | .fault .. | .unmodelled => none

/-- An exception at an instruction that has not changed the state `c`. -/
def Cpu.except (c : Cpu) (vec : Nat) (code : BitVec 32) : Option Cpu :=
  (deliver c vec false (some code)).state

/-- The state after an event at an instruction, or after the exception that it causes. -/
def Cpu.settle (c : Cpu) : Outcome → Option Cpu
  | .done c' => some c'
  | .fault vec code => c.except vec code
  | .unmodelled => none

def PAGE_FAULT : Nat := 14

/-- Past the instruction. -/
def Machine.next (op : Op) (c : Cpu) : Cpu := c.withState (c.setEip (c.eip + M.size op))

/-- One instruction. -/
def Machine.step (c : Cpu) : Option Cpu :=
  match M.instr c.eip with
  | none => none
  | some op =>
    if M.allows op c then
      match op with
      | .movToSeg seg src => c.settle (movToSeg (M.next op c) seg ((c.reg src).setWidth 16))
      | .setIf enabled =>
        if c.cpl ≤ c.eflags.extractLsb' 12 2 then
          some { M.next op c with
            eflags := (c.eflags &&& ~~~FLAG_IF) ||| (if enabled then FLAG_IF else 0#32) }
        else c.except 13 0#32
      | .int vec => c.settle (deliver (M.next op c) vec true none)
      | .iret => c.settle (iret c)
      | .hlt => if c.cpl = 0#2 then none else c.except 13 0#32
      | op => some (M.exec op (M.next op c))
    else c.except PAGE_FAULT (M.pfCode c)

/-- The machine gets from one state to another. -/
def Machine.Runs : Cpu → Cpu → Prop := Relation.ReflTransGen fun c d => M.step c = some d

/-- A sequence of instructions lies in the code from an address on. -/
def Machine.Has : Addr → List Op → Prop
  | _, [] => True
  | a, op :: ops => M.instr a = some op ∧ Machine.Has (a + M.size op) ops

instance Machine.decidableHas : (a : Addr) → (ops : List Op) → Decidable (M.Has a ops)
  | _, [] => inferInstanceAs (Decidable True)
  | a, op :: ops =>
    have := Machine.decidableHas (a + M.size op) ops
    inferInstanceAs (Decidable (_ ∧ _))

/-- A sequence of instructions, one after the other. -/
def Machine.execAll : List Op → Cpu → Cpu
  | [], c => c
  | op :: ops, c => Machine.execAll ops (M.exec op (M.next op c))

/-- All instructions of a sequence are allowed when their turn comes. -/
def Machine.AllowsAll : List Op → Cpu → Prop
  | [], _ => True
  | op :: ops, c => M.allows op c = true ∧ Machine.AllowsAll ops (M.exec op (M.next op c))

/-- Instructions that leave control with the next one. -/
def Op.isStraight : Op → Bool
  | .plain i => i.isMove
  | .callReg _ | .jmp _ | .jcc _ | .movToSeg .. | .setIf _ | .int _ | .iret | .hlt => false
  | _ => true

def Machine.sizeAll (ops : List Op) : BitVec 32 := ops.foldr (fun op n => M.size op + n) 0#32

variable {M} {c : Cpu}

theorem Machine.step_exec {c : Cpu} {op : Op} (h : M.instr c.eip = some op) (hallow : M.allows op c = true)
    (hno : op.isEvent = false) : M.step c = some (M.exec op (M.next op c)) := by
  rw [Machine.step, h]
  dsimp only
  rw [if_pos hallow]
  cases op with
  | movToSeg | setIf | int | iret | hlt => cases hno
  | _ => rfl

theorem Machine.step_iret {c d : Cpu} (h : M.instr c.eip = some .iret) (hallow : M.allows .iret c = true)
    (hd : iret c = .done d) : M.step c = some d := by
  rw [Machine.step, h]
  dsimp only
  rw [if_pos hallow, hd]
  rfl

theorem Machine.step_movToSeg {c d : Cpu} {seg : DataSeg} {src : Reg}
    (h : M.instr c.eip = some (.movToSeg seg src)) (hallow : M.allows (.movToSeg seg src) c = true)
    (hd : movToSeg (M.next (.movToSeg seg src) c) seg ((c.reg src).setWidth 16) = .done d) :
    M.step c = some d := by
  rw [Machine.step, h]
  dsimp only
  rw [if_pos hallow, hd]
  rfl

theorem Machine.step_int {c d : Cpu} {vec : Nat} (h : M.instr c.eip = some (.int vec))
    (hallow : M.allows (.int vec) c = true)
    (hd : deliver (M.next (.int vec) c) vec true none = .done d) : M.step c = some d := by
  rw [Machine.step, h]
  dsimp only
  rw [if_pos hallow, hd]
  rfl

theorem Machine.step_hlt {c d : Cpu} (h : M.instr c.eip = some .hlt) (hallow : M.allows .hlt c = true)
    (hcpl : c.cpl ≠ 0#2) (hd : c.except 13 0#32 = some d) : M.step c = some d := by
  rw [Machine.step, h]
  dsimp only
  rw [if_pos hallow, if_neg hcpl, hd]

variable (M) in
/-- The instructions of the machine without levels. -/
def Machine.plain : Code where
  instr a := (M.instr a).bind fun
    | .plain i => some i
    | _ => none
  size i := M.size (.plain i)

theorem Machine.plain_instr {a : Addr} {i : Instr} (h : M.plain.instr a = some i) : M.instr a = some (.plain i) := by
  obtain ⟨op, hop, hi⟩ := Option.bind_eq_some_iff.mp h
  cases op with
  | plain j =>
    cases hi
    exact hop
  | _ => cases hi

/-- **Code for the machine without levels** runs at level 0 as it does there. -/
theorem Machine.runs_plain {c : Cpu} {t : State} (hcpl : c.cpl = 0#2) (h : X86.Runs M.plain c.toState t) :
    M.Runs c (c.withState t) := by
  induction h with
  | refl => exact .refl
  | @tail s t _ hstep ih =>
    obtain ⟨i, hi, rfl⟩ := Option.map_eq_some_iff.mp hstep
    have hallow : M.allows (.plain i) (c.withState s) = true := by
      have hlevel : (c.withState s).cpl = 0#2 := hcpl
      simp [Machine.allows, hlevel]
    exact ih.tail (Machine.step_exec (c := c.withState s) (Machine.plain_instr hi) hallow rfl)

theorem Op.not_event {op : Op} (h : op.isStraight = true) : op.isEvent = false := by
  cases op <;> first | rfl | cases h

theorem Machine.exec_eip {op : Op} (h : op.isStraight = true) (c : Cpu) : (M.exec op c).eip = c.eip := by
  cases op with
  | plain i =>
    cases i with
    | load | store | imm => rfl
    | call | ret => cases h
  | callReg | jmp | jcc | movToSeg | setIf | int | iret | hlt => cases h
  | _ => rfl

/-- **Straight-line code** that is allowed runs to its end, and leaves control with what
follows it. -/
theorem Machine.runs_execAll {ops rest : List Op} {c : Cpu} (hops : ∀ op ∈ ops, op.isStraight = true)
    (hcode : M.Has c.eip (ops ++ rest)) (hallow : M.AllowsAll ops c) :
    M.Runs c (M.execAll ops c) ∧ (M.execAll ops c).eip = c.eip + M.sizeAll ops ∧
      M.Has (M.execAll ops c).eip rest := by
  induction ops generalizing c with
  | nil => exact ⟨.refl, (BitVec.add_zero _).symm, hcode⟩
  | cons op ops ih =>
    obtain ⟨hop, hcode⟩ := hcode
    have hstraight := hops op List.mem_cons_self
    have hstep := Machine.step_exec hop hallow.1 (Op.not_event hstraight)
    have heip : (M.exec op (M.next op c)).eip = c.eip + M.size op := Machine.exec_eip hstraight _
    obtain ⟨hruns, hend, hrest⟩ := ih (c := M.exec op (M.next op c))
      (fun o ho => hops o (List.mem_cons_of_mem _ ho)) (by rwa [heip]) hallow.2
    refine ⟨Relation.ReflTransGen.head hstep hruns, ?_, hrest⟩
    rw [Machine.execAll, hend, heip]
    exact BitVec.add_assoc ..

/-- No instruction but an event changes the selectors or the tables. -/
theorem Machine.exec_system {op : Op} (c : Cpu) :
    (M.exec op c).cs = c.cs ∧ (M.exec op c).ss = c.ss ∧ (M.exec op c).ds = c.ds ∧
      (M.exec op c).es = c.es ∧ (M.exec op c).gdtr = c.gdtr ∧ (M.exec op c).idtr = c.idtr ∧
      (M.exec op c).tss = c.tss := by
  cases op with
  | jcc target =>
    simp only [Machine.exec]
    split <;> exact ⟨rfl, rfl, rfl, rfl, rfl, rfl, rfl⟩
  | _ => exact ⟨rfl, rfl, rfl, rfl, rfl, rfl, rfl⟩

theorem Machine.allowsAll_kernel {c : Cpu} (h : c.cpl = 0#2) (ops : List Op) : M.AllowsAll ops c := by
  induction ops generalizing c with
  | nil => trivial
  | cons op ops ih =>
    have hcs : (M.exec op (M.next op c)).cs = c.cs := (Machine.exec_system _).1
    refine ⟨?_, ih ?_⟩
    · simp [Machine.allows, h]
    · rw [Cpu.cpl, hcs]
      exact h

-- ---------------------------------------------------------------------------
-- Pages
-- ---------------------------------------------------------------------------

variable (M) in
/-- A sequence of instructions lies in pages that every level can read. -/
def Machine.InPages : Addr → List Op → Prop
  | _, [] => True
  | a, op :: ops => M.user a = true ∧ Machine.InPages (a + M.size op) ops

instance Machine.decidableInPages : (a : Addr) → (ops : List Op) → Decidable (M.InPages a ops)
  | _, [] => inferInstanceAs (Decidable True)
  | a, op :: ops =>
    have := Machine.decidableInPages (a + M.size op) ops
    inferInstanceAs (Decidable (_ ∧ _))

variable (M) in
/-- The accesses of a sequence of instructions, when their turn comes. -/
def Machine.PermitsAll : List Op → Cpu → Prop
  | [], _ => True
  | op :: ops, c => (op.accesses c).all M.permits = true ∧ Machine.PermitsAll ops (M.exec op (M.next op c))

theorem Machine.allowsAll_of_pages {ops : List Op} {c : Cpu} (hops : ∀ op ∈ ops, op.isStraight = true)
    (hpages : M.InPages c.eip ops) (hpermits : M.PermitsAll ops c) : M.AllowsAll ops c := by
  induction ops generalizing c with
  | nil => trivial
  | cons op ops ih =>
    have hstraight := hops op List.mem_cons_self
    have heip : (M.exec op (M.next op c)).eip = c.eip + M.size op := Machine.exec_eip hstraight _
    refine ⟨?_, ih (fun o ho => hops o (List.mem_cons_of_mem _ ho)) ?_ hpermits.2⟩
    · simp [Machine.allows, hpages.1, hpermits.1]
    · rw [heip]
      exact hpages.2

theorem Machine.inPages_append {as bs : List Op} {a : Addr} (h : M.InPages a (as ++ bs)) :
    M.InPages a as ∧ M.InPages (a + M.sizeAll as) bs := by
  induction as generalizing a with
  | nil =>
    rw [Machine.sizeAll, List.foldr_nil, BitVec.add_zero]
    exact ⟨trivial, h⟩
  | cons op as ih =>
    obtain ⟨hhead, htail⟩ := ih h.2
    rw [BitVec.add_assoc] at htail
    exact ⟨⟨h.1, hhead⟩, htail⟩

theorem Machine.has_append {as bs : List Op} {a : Addr} (h : M.Has a (as ++ bs)) :
    M.Has a as ∧ M.Has (a + M.sizeAll as) bs := by
  induction as generalizing a with
  | nil =>
    rw [Machine.sizeAll, List.foldr_nil, BitVec.add_zero]
    exact ⟨trivial, h⟩
  | cons op as ih =>
    obtain ⟨hhead, htail⟩ := ih h.2
    rw [BitVec.add_assoc] at htail
    exact ⟨⟨h.1, hhead⟩, htail⟩

variable (M) in
/-- Every level can read and write the `n` bytes from `a` on. -/
def Machine.Writable (a : Addr) (n : Nat) : Prop :=
  ∀ i : Addr, i.toNat < n → M.user (a + i) = true ∧ M.userW (a + i) = true

/-- A part of the range. -/
theorem Machine.Writable.mono {a b : Addr} {n k : Nat} (h : M.Writable a n) (hk : (b - a).toNat + k ≤ n) :
    M.Writable b k := by
  intro i hi
  have hat := h (b + i - a) (by bv_omega)
  rwa [BitVec.add_comm a, BitVec.sub_add_cancel] at hat

/-- A word within the range. -/
theorem Machine.Writable.permits {a x : Addr} {n : Nat} (h : M.Writable a n) (w : Bool)
    (hx : (x - a).toNat + 4 ≤ n) (hn : n ≤ 2 ^ 32) : M.permits (x, w) = true := by
  have hbyte : ∀ i : Addr, i.toNat < 4 → M.user (x + i) = true ∧ M.userW (x + i) = true := by
    intro i hi
    have hat := h (x + i - a) (by bv_omega)
    rwa [BitVec.add_comm a, BitVec.sub_add_cancel] at hat
  have hmem : ∀ i ∈ [0#32, 1#32, 2#32, 3#32], i.toNat < 4 := by simp
  cases w with
  | true =>
    change ([0#32, 1#32, 2#32, 3#32].all fun i => M.userW (x + i)) = true
    exact List.all_eq_true.mpr fun i hi => (hbyte i (hmem i hi)).2
  | false =>
    change ([0#32, 1#32, 2#32, 3#32].all fun i => M.user (x + i)) = true
    exact List.all_eq_true.mpr fun i hi => (hbyte i (hmem i hi)).1

-- ---------------------------------------------------------------------------
-- Calls
-- ---------------------------------------------------------------------------

/-- A C function that was entered at `e` has returned: to its return address, with the stack
pointer above it and the registers that a function must keep. -/
structure Cpu.Returned (e u : Cpu) : Prop where
  eip : u.eip = load32 e.mem (e.reg .esp)
  esp : u.reg .esp = e.reg .esp + 4#32
  ebx : u.reg .ebx = e.reg .ebx
  esi : u.reg .esi = e.reg .esi
  edi : u.reg .edi = e.reg .edi
  ebp : u.reg .ebp = e.reg .ebp
  cs  : u.cs = e.cs
  ss  : u.ss = e.ss
  ds  : u.ds = e.ds
  es  : u.es = e.es

-- ---------------------------------------------------------------------------
-- Code of the outermost level
-- ---------------------------------------------------------------------------

/-- Flags that the outermost level has no say in. -/
def FLAGS_GUARDED : BitVec 32 := FLAG_IF ||| FLAG_IOPL ||| FLAG_VM

theorem and_of_apart {x y s g : BitVec 32} (h : s &&& g = 0#32) :
    ((x &&& ~~~s) ||| (y &&& s)) &&& g = x &&& g := by
  apply BitVec.eq_of_getLsbD_eq
  intro i hi
  have hbit := congrArg (·.getLsbD i) h
  simp only [BitVec.getLsbD_and, BitVec.getLsbD_or, BitVec.getLsbD_not, BitVec.getLsbD_zero, hi] at hbit ⊢
  cases hs : s.getLsbD i <;> simp_all

theorem and_of_kept {x y s kept g : BitVec 32} (hs : s &&& kept = kept) (h : kept &&& g = g) :
    ((x &&& ~~~s) ||| (y &&& kept)) &&& g = y &&& g := by
  apply BitVec.eq_of_getLsbD_eq
  intro i hi
  have hbit := congrArg (·.getLsbD i) h
  have hsub := congrArg (·.getLsbD i) hs
  simp only [BitVec.getLsbD_and, BitVec.getLsbD_or, BitVec.getLsbD_not, hi] at hbit hsub ⊢
  cases hg : g.getLsbD i <;> simp_all

/-- What code of the outermost level cannot change, but for memory. -/
structure Cpu.Guarded (c d : Cpu) : Prop where
  cpl   : d.cpl = c.cpl
  gdtr  : d.gdtr = c.gdtr
  idtr  : d.idtr = c.idtr
  tss   : d.tss = c.tss
  flags : d.eflags &&& FLAGS_GUARDED = c.eflags &&& FLAGS_GUARDED

theorem Cpu.Guarded.refl (c : Cpu) : c.Guarded c := ⟨rfl, rfl, rfl, rfl, rfl⟩

theorem Cpu.Guarded.trans {a b c : Cpu} (h : a.Guarded b) (h' : b.Guarded c) : a.Guarded c :=
  ⟨h'.cpl.trans h.cpl, h'.gdtr.trans h.gdtr, h'.idtr.trans h.idtr, h'.tss.trans h.tss,
    h'.flags.trans h.flags⟩

/-- The I/O privilege level. -/
def ioLevel (eflags : BitVec 32) : BitVec 2 := eflags.extractLsb' 12 2

theorem ioLevel_eq {e f : BitVec 32} (h : f &&& FLAGS_GUARDED = e &&& FLAGS_GUARDED) :
    ioLevel f = ioLevel e := by
  apply BitVec.eq_of_getLsbD_eq
  intro i hi
  have hbit := congrArg (·.getLsbD (12 + i)) h
  have hmask : FLAGS_GUARDED.getLsbD (12 + i) = true := by
    obtain rfl | rfl : i = 0 ∨ i = 1 := by omega
    · decide
    · decide
  simp only [BitVec.getLsbD_and, hmask, Bool.and_true] at hbit
  simp only [ioLevel, BitVec.getLsbD_extractLsb', hi, decide_true, Bool.true_and, hbit]

theorem iretKept_guarded {cpl : BitVec 2} {eflags : BitVec 32} (hcpl : cpl ≠ 0#2)
    (hio : ioLevel eflags < cpl) : iretKept cpl eflags &&& FLAGS_GUARDED = FLAGS_GUARDED := by
  have hle : ¬ cpl ≤ eflags.extractLsb' 12 2 := BitVec.not_le.mpr hio
  rw [iretKept, if_neg hcpl, if_neg hle]
  decide

theorem iretFlags_guarded {cpl : BitVec 2} {eflags : BitVec 32} (popped : BitVec 32) (hcpl : cpl ≠ 0#2)
    (hio : ioLevel eflags < cpl) :
    iretFlags cpl eflags popped &&& FLAGS_GUARDED = eflags &&& FLAGS_GUARDED :=
  and_of_kept (BitVec.and_self ..) (iretKept_guarded hcpl hio)

theorem popfFlags_guarded {cpl : BitVec 2} {eflags : BitVec 32} (popped : BitVec 32) (hcpl : cpl ≠ 0#2)
    (hio : ioLevel eflags < cpl) :
    popfFlags cpl eflags popped &&& FLAGS_GUARDED = eflags &&& FLAGS_GUARDED := by
  have hle : ¬ cpl ≤ eflags.extractLsb' 12 2 := BitVec.not_le.mpr hio
  refine and_of_kept ?_ ?_ <;> rw [iretKept, if_neg hcpl, if_neg hle] <;> decide

/-- Instructions that raise no event keep what is guarded. -/
theorem Machine.exec_guarded (op : Op) {c : Cpu} (hcpl : c.cpl ≠ 0#2) (hio : ioLevel c.eflags < c.cpl) :
    c.Guarded (M.exec op c) := by
  have hsystem := @Machine.exec_system M op c
  obtain ⟨hcs, -, -, -, hgdtr, hidtr, htss⟩ := hsystem
  have hcpl' : (M.exec op c).cpl = c.cpl := congrArg selRpl hcs
  refine ⟨hcpl', hgdtr, hidtr, htss, ?_⟩
  cases op with
  | add | sub | and | xor => exact and_of_apart (by decide)
  | popf => exact popfFlags_guarded _ hcpl hio
  | jcc target =>
    simp only [Machine.exec]
    split <;> rfl
  | _ => rfl

/-- An instruction writes where it says. -/
theorem Machine.exec_mem (op : Op) (c : Cpu) {a : Addr}
    (h : ∀ q ∈ op.accesses c, q.2 = true → 4 ≤ (a - q.1).toNat) : (M.exec op c).mem a = c.mem a := by
  cases op with
  | plain i =>
    cases i with
    | store src base disp => exact store32_outside (h (c.reg base + disp, true) List.mem_cons_self rfl)
    | call target => exact store32_outside (h (c.reg .esp - 4#32, true) List.mem_cons_self rfl)
    | _ => rfl
  | push src => exact store32_outside (h (c.reg .esp - 4#32, true) List.mem_cons_self rfl)
  | pushMem base disp =>
    exact store32_outside (h (c.reg .esp - 4#32, true) (List.mem_cons_of_mem _ List.mem_cons_self) rfl)
  | callReg target => exact store32_outside (h (c.reg .esp - 4#32, true) List.mem_cons_self rfl)
  | jcc target =>
    simp only [Machine.exec]
    split <;> rfl
  | _ => rfl

/-- A byte of a word that may be accessed. -/
theorem wordAll_at {p : Addr → Bool} {a b : Addr} (h : wordAll p b = true) (hat : (a - b).toNat < 4) :
    p a = true := by
  simp only [wordAll, List.all_eq_true] at h
  have hoff : a = b + (a - b) := by rw [BitVec.add_comm, BitVec.sub_add_cancel]
  rw [hoff]
  refine h _ ?_
  have hlt : (a - b).toNat = 0 ∨ (a - b).toNat = 1 ∨ (a - b).toNat = 2 ∨ (a - b).toNat = 3 := by omega
  rcases hlt with h0 | h1 | h2 | h3
  · rw [show a - b = 0#32 from BitVec.eq_of_toNat_eq h0]
    decide
  · rw [show a - b = 1#32 from BitVec.eq_of_toNat_eq h1]
    decide
  · rw [show a - b = 2#32 from BitVec.eq_of_toNat_eq h2]
    decide
  · rw [show a - b = 3#32 from BitVec.eq_of_toNat_eq h3]
    decide

/-- Code of an outer level leaves memory alone that it may not write. -/
theorem Machine.exec_outer_mem {op : Op} {c : Cpu} (hcpl : c.cpl ≠ 0#2) (hallow : M.allows op c = true)
    {a : Addr} (ha : M.userW a = false) : (M.exec op (M.next op c)).mem a = c.mem a := by
  refine Machine.exec_mem op (M.next op c) fun q hq hwrite => ?_
  have hcpl' : (c.cpl == 0#2) = false := by simpa using hcpl
  have hq : q ∈ op.accesses c := by
    cases op with
    | plain i => cases i <;> exact hq
    | _ => exact hq
  rw [Machine.allows, hcpl', Bool.false_or, Bool.and_eq_true, List.all_eq_true] at hallow
  have hword := hallow.2 q hq
  rw [Machine.permits, if_pos hwrite] at hword
  by_contra hlt
  have hat := wordAll_at hword (Nat.lt_of_not_le hlt)
  rw [ha] at hat
  cases hat

/-- `iret` of the outermost level stays there. -/
theorem iret_outermost {d : Cpu} (hcpl : c.cpl = 3#2) (hio : ioLevel c.eflags < c.cpl)
    (h : iret c = .done d) : c.Guarded d ∧ d.mem = c.mem := by
  have hne : c.cpl ≠ 0#2 := by
    rw [hcpl]
    decide
  have hmax : ∀ level : BitVec 2, ¬ level < c.cpl → level = c.cpl := by
    rw [hcpl]
    decide
  simp only [iret] at h
  split at h
  · cases h
  split at h
  · cases h
  split at h
  · cases h
  next hcode =>
  split at h
  · cases h
  split at h
  · cases h
  split at h
  next hrpl =>
    cases h
    exact ⟨⟨hrpl, rfl, rfl, rfl, iretFlags_guarded _ hne hio⟩, rfl⟩
  next hrpl =>
    refine absurd (hmax _ fun hlt => hcode ?_) hrpl
    exact .inr (.inl hlt)

theorem movToSeg_done {seg : DataSeg} {sel : BitVec 16} {d : Cpu} (h : movToSeg c seg sel = .done d) :
    d = c.setSeg seg sel := by
  simp only [movToSeg] at h
  split at h
  · cases h
    rfl
  split at h
  · cases h
  split at h
  · cases h
  split at h
  · cases h
  split at h
  · cases h
  · cases h
    rfl

theorem Cpu.setSeg_guarded (c : Cpu) (seg : DataSeg) (sel : BitVec 16) : c.Guarded (c.setSeg seg sel) := by
  cases seg <;> exact ⟨rfl, rfl, rfl, rfl, rfl⟩

theorem Machine.next_guarded (op : Op) (c : Cpu) : c.Guarded (M.next op c) := ⟨rfl, rfl, rfl, rfl, rfl⟩

/-- The exceptions with an error code that a segment or a page can cause. -/
def SEGMENT_FAULTS : List Nat := [10, 11, 12, 13, 14]

theorem iret_fault {v : Nat} {code : BitVec 32} (h : iret c = .fault v code) : v ∈ SEGMENT_FAULTS := by
  simp only [iret] at h
  repeat' split at h
  all_goals cases h
  all_goals decide

theorem movToSeg_fault {seg : DataSeg} {sel : BitVec 16} {v : Nat} {code : BitVec 32}
    (h : movToSeg c seg sel = .fault v code) : v ∈ SEGMENT_FAULTS := by
  simp only [movToSeg] at h
  repeat' split at h
  all_goals cases h
  all_goals decide

/-- **What an instruction of the outermost level can do**: it keeps all that is guarded and
writes only where pages allow it, or it raises an exception, or it is an `int`. -/
theorem Machine.step_outermost {c d : Cpu} (hcpl : c.cpl = 3#2) (hio : ioLevel c.eflags < c.cpl)
    (h : M.step c = some d) :
    (c.Guarded d ∧ ∀ a, M.userW a = false → d.mem a = c.mem a) ∨
    (∃ v code, v ∈ SEGMENT_FAULTS ∧ c.except v code = some d) ∨
    (∃ v, M.instr c.eip = some (.int v) ∧
      c.settle (deliver (M.next (.int v) c) v true none) = some d) := by
  have hne : c.cpl ≠ 0#2 := by
    rw [hcpl]
    decide
  have hstep := h
  rw [Machine.step] at h
  split at h
  · cases h
  next op hop =>
  split at h
  next hallow =>
    by_cases hevent : op.isEvent = true
    · cases op with
      | movToSeg seg src =>
        simp only [Cpu.settle] at h
        split at h
        next d' hdone =>
          cases h
          rw [movToSeg_done hdone]
          refine .inl ⟨(Machine.next_guarded _ c).trans (Cpu.setSeg_guarded _ _ _), fun a _ => ?_⟩
          cases seg <;> rfl
        next v code hfault => exact .inr (.inl ⟨v, code, movToSeg_fault hfault, h⟩)
        next => cases h
      | setIf enabled =>
        have hle : ¬ c.cpl ≤ c.eflags.extractLsb' 12 2 := BitVec.not_le.mpr hio
        simp only [if_neg hle] at h
        exact .inr (.inl ⟨13, 0#32, by decide, h⟩)
      | int v => exact .inr (.inr ⟨v, hop, h⟩)
      | iret =>
        simp only [Cpu.settle] at h
        split at h
        next d' hdone =>
          cases h
          obtain ⟨hguard, hmem⟩ := iret_outermost hcpl hio hdone
          exact .inl ⟨hguard, fun a _ => congrFun hmem a⟩
        next v code hfault => exact .inr (.inl ⟨v, code, iret_fault hfault, h⟩)
        next => cases h
      | hlt => exact .inr (.inl ⟨13, 0#32, by decide, h⟩)
      | _ => cases hevent
    · have hexec : M.step c = some (M.exec op (M.next op c)) :=
        Machine.step_exec hop hallow (Bool.eq_false_iff.mpr hevent)
      have hd : M.exec op (M.next op c) = d := Option.some.inj (hexec.symm.trans hstep)
      have hguard : (M.next op c).Guarded (M.exec op (M.next op c)) := Machine.exec_guarded op hne hio
      rw [← hd]
      exact .inl ⟨(Machine.next_guarded op c).trans hguard,
        fun a ha => Machine.exec_outer_mem hne hallow ha⟩
  next => exact .inr (.inl ⟨PAGE_FAULT, _, by decide, h⟩)

end X86
