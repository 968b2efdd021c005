import Munix.Kernel.UserEntry

/-!
# Munix — a system call on its way into the kernel and back

`isr_syscall` of `arch/i386/syscall_entry.S`, between the `int` of a program and
`isr_syscall_stage2`. What the kernel does from there on is anything that a C function
can do which returns.

* `EntryCode.enters` — the registers of the program become the arguments of stage 2.
* `EntryCode.returns` — and its result comes back in `EAX`.
-/

namespace Munix

open ByteMem X86

def isrSyscallPushes : List Reg := [.edi, .esi, .edx, .ecx, .ebx, .eax]

/-- `isr_syscall`. -/
def isrSyscallOps (isrSyscallStage2 : Addr) : List Op :=
  isrSyscallPushes.map .push ++ [.plain (.call isrSyscallStage2), .add .esp 24#32, .iret]

/-- The entry of the system calls lies in the code. -/
structure EntryCode (I : GateImage) (M : Machine) where
  isrSyscallStage2 : Addr
  isrSyscall_at    : M.Has I.isrSyscall (isrSyscallOps isrSyscallStage2)

variable {I : GateImage} {M : Machine} {kstack kstack' : Addr} {c e u : Cpu}

/-- Where stage 2 returns to. -/
def EntryCode.retAddr (K : EntryCode I M) : Addr :=
  I.isrSyscall + M.sizeAll (isrSyscallPushes.map .push) + M.size (.plain (.call K.isrSyscallStage2))

/-- The number of a system call and its arguments. -/
def syscallArgs (c : Cpu) : List (BitVec 32) :=
  [c.reg .eax, c.reg .ebx, c.reg .ecx, c.reg .edx, c.reg .esi, c.reg .edi]

/-- The kernel stack at the entry of stage 2, for a program that is past its `int`. -/
def EntryCode.words (K : EntryCode I M) (c : Cpu) : List (BitVec 32) :=
  K.retAddr :: (syscallArgs c ++ entryWords c none)

/-- The processor at the entry of `isr_syscall_stage2`. -/
def EntryCode.stage2 (K : EntryCode I M) (kstack : Addr) (c : Cpu) : Cpu :=
  kernelState c kstack (K.words c) K.isrSyscallStage2

/-- A program after its system call: past the `int`, with the registers and the memory that
the kernel has left, and its own stack pointer. -/
def afterSyscall (c u : Cpu) : Cpu :=
  { c with reg := fun r => if r = .esp then c.reg .esp else u.reg r, mem := u.mem }

-- ---------------------------------------------------------------------------
-- Pushes in the kernel
-- ---------------------------------------------------------------------------

theorem kernelState_cons (c : Cpu) (kstack eip eip' : Addr) (ws : List (BitVec 32)) (v : BitVec 32) :
    kernelState c kstack (v :: ws) eip' =
      ((kernelState c kstack ws eip).push v).withState
        (((kernelState c kstack ws eip).push v).setEip eip') := by
  have hpush : pushAll c.mem kstack (v :: ws).reverse =
      (store32 (pushAll c.mem kstack ws.reverse).1 ((pushAll c.mem kstack ws.reverse).2 - 4#32) v,
        (pushAll c.mem kstack ws.reverse).2 - 4#32) := by
    rw [List.reverse_cons, pushAll_append]
    rfl
  have hreg : (c.setReg .esp ((pushAll c.mem kstack ws.reverse).2 - 4#32)).reg =
      ((c.setReg .esp (pushAll c.mem kstack ws.reverse).2).setReg .esp
        ((pushAll c.mem kstack ws.reverse).2 - 4#32)).reg := by
    rw [State.setReg_setReg]
  have hesp : (kernelState c kstack ws eip).reg .esp = (pushAll c.mem kstack ws.reverse).2 := by
    simp [kernelState]
  rw [kernelState, hpush, Cpu.push, hesp]
  exact congrArg (fun reg => (⟨⟨reg, eip', _⟩, _, _, _, _, _, _, _, _⟩ : Cpu)) hreg

/-- One push in the kernel. -/
theorem kernelState_push {r : Reg} (hr : r ≠ .esp) (c : Cpu) (kstack eip : Addr) (ws : List (BitVec 32)) :
    M.exec (.push r) (M.next (.push r) (kernelState c kstack ws eip)) =
      kernelState c kstack (c.reg r :: ws) (eip + M.size (.push r)) := by
  rw [kernelState_cons c kstack eip, ← kernelState_reg c kstack eip ws hr]
  rfl

/-- Pushes in the kernel, and a call. -/
theorem kernelState_runs {rs : List Reg} (hrs : Reg.esp ∉ rs) {target : Addr} {rest : List Op} {eip : Addr}
    {ws : List (BitVec 32)} (hcode : M.Has eip (rs.map .push ++ .plain (.call target) :: rest)) :
    M.Runs (kernelState c kstack ws eip)
      (kernelState c kstack ((eip + M.sizeAll (rs.map .push) + M.size (.plain (.call target))) ::
        ((rs.map c.reg).reverse ++ ws)) target) := by
  have hallow : ∀ op ws eip, M.allows op (kernelState c kstack ws eip) = true := by
    intro op ws eip
    simp [Machine.allows, (kernelState_kernel c kstack eip ws).1, PL_KERNEL]
  induction rs generalizing eip ws with
  | nil =>
    have hstep := Machine.step_exec hcode.1 (hallow _ ws eip) rfl
    refine Relation.ReflTransGen.single (hstep.trans (congrArg some ?_))
    have hsize : eip + M.sizeAll (([] : List Reg).map .push) + M.size (.plain (.call target)) =
        eip + M.size (.plain (.call target)) := by
      rw [List.map_nil, Machine.sizeAll, List.foldr_nil, BitVec.add_zero]
    rw [hsize]
    exact (kernelState_cons c kstack eip target ws _).symm
  | cons r rs ih =>
    have hr : r ≠ .esp := fun h => hrs (h ▸ List.mem_cons_self)
    have hstep := Machine.step_exec hcode.1 (hallow _ ws eip) rfl
    rw [kernelState_push hr] at hstep
    have htail := @ih (fun h => hrs (List.mem_cons_of_mem _ h)) _ (c.reg r :: ws) hcode.2
    have hsize : eip + M.sizeAll ((r :: rs).map .push) =
        eip + M.size (.push r) + M.sizeAll (rs.map .push) := (BitVec.add_assoc ..).symm
    rw [hsize, List.map_cons, List.reverse_cons, List.append_assoc]
    exact Relation.ReflTransGen.head hstep htail

-- ---------------------------------------------------------------------------
-- In and out
-- ---------------------------------------------------------------------------

/-- **Into the kernel.** From any `int` of the system call vector in user code the machine
comes to stage 2, on the current kernel stack, with the program's registers as arguments. -/
theorem EntryCode.enters (K : EntryCode I M) (h : Installed I kstack c) (hcpl : c.cpl = PL_USER)
    (hint : M.instr c.eip = some (.int IVEC_SYSCALL)) (hpage : M.user c.eip = true) :
    M.Runs c (K.stage2 kstack (M.next (.int IVEC_SYSCALL) c)) := by
  have hstep := h.step_syscall hcpl hint hpage
  have hno : Reg.esp ∉ isrSyscallPushes := by decide
  have hruns : M.Runs (kernelEntry (M.next (.int IVEC_SYSCALL) c) kstack I.isrSyscall none)
      (K.stage2 kstack (M.next (.int IVEC_SYSCALL) c)) := kernelState_runs hno K.isrSyscall_at
  exact Relation.ReflTransGen.head hstep hruns

/-- **Back to the program.** Whenever stage 2 returns, in whatever state of the kernel that
has left the frame alone, the program goes on past its `int` with the result in `EAX`. -/
theorem EntryCode.returns (K : EntryCode I M) (h : Installed I kstack c) (hsegs : UserSegs c)
    (hret : (K.stage2 kstack c).Returned u) (hu : Installed I kstack' u)
    (hnt : u.eflags &&& FLAG_NT = 0#32)
    (hframe : ∀ i < 20, u.mem (kstack - 20#32 + BitVec.ofNat 32 i) =
      (K.stage2 kstack c).mem (kstack - 20#32 + BitVec.ofNat 32 i)) :
    M.Runs u (afterSyscall c u) := by
  have hstack : OnStack (K.stage2 kstack c).mem ((K.stage2 kstack c).reg .esp) (K.words c) :=
    kernelState_onStack c kstack _ (by simp [EntryCode.words, syscallArgs, entryWords])
  have hesp : (K.stage2 kstack c).reg .esp = kstack - 48#32 := kernelState_esp ..
  have hcpl : u.cpl = PL_KERNEL := by
    rw [Cpu.cpl, hret.cs]
    exact (kernelState_kernel c kstack _ _).1
  have heip : u.eip = K.retAddr := hret.eip.trans hstack.1
  have hcode : M.Has K.retAddr [.add .esp 24#32, .iret] := (Machine.has_append K.isrSyscall_at).2.2
  -- `add $24, %esp`
  set v := M.exec (.add .esp 24#32) (M.next (.add .esp 24#32) u) with hv
  have hallow : ∀ op (d : Cpu), d.cpl = PL_KERNEL → M.allows op d = true := by
    intro op d hd
    simp [Machine.allows, hd, PL_KERNEL]
  have hadd : M.step u = some v := Machine.step_exec (by rw [heip]; exact hcode.1) (hallow _ _ hcpl) rfl
  have hvesp : v.reg .esp = kstack - 20#32 := by
    have hval : v.reg .esp = u.reg .esp + 24#32 := by
      simp [hv, Machine.exec, Machine.arith, Machine.next, Cpu.withState]
    rw [hval, hret.esp, hesp]
    bv_omega
  have hvreg : ∀ r, r ≠ .esp → v.reg r = u.reg r := by
    intro r hr
    simp [hv, Machine.exec, Machine.arith, Machine.next, Cpu.withState, hr]
  have hvnt : v.eflags &&& FLAG_NT = 0#32 := by
    rw [← hnt]
    exact and_of_apart (by decide)
  -- `iret`, to the program with the registers that the kernel has left
  set c' : Cpu := { c with reg := fun r => if r = .esp then c.reg .esp else u.reg r } with hc'
  have hinstalled : Installed I kstack c' := ⟨h.gdtr, h.idtr, h.tss, h.tables⟩
  have hsegs' : UserSegs c' := ⟨hsegs.cs, hsegs.ss, hsegs.ds, hsegs.es, hsegs.vm⟩
  have hvinst : Installed I kstack' v := ⟨hu.gdtr, hu.idtr, hu.tss, hu.tables⟩
  have hinterrupted : c'.Interrupted v PL_USER := by
    have hwords := hstack.drop 7
    have hsp : (K.stage2 kstack c).reg .esp + BitVec.ofNat 32 (4 * 7) = kstack - 20#32 := by
      rw [hesp]
      bv_omega
    rw [hsp] at hwords
    refine ⟨?_, hcpl, hvnt, fun r hr => ?_, hret.ds, hret.es, ⟨?_, ?_, ?_⟩, hinstalled.descriptor_eq hvinst,
      hsegs'.cpl⟩
    · rw [hvesp]
      exact OnStack.congr hwords hframe
    · rw [hvreg r hr]
      exact (if_neg hr).symm
    · rw [hvinst.gdtr, hinstalled.gdtr]
    · rw [hvinst.idtr, hinstalled.idtr]
    · rw [hvinst.tss, hinstalled.tss]
  have hiret : M.step v = some (afterSyscall c u) := by
    have hinstr : M.instr v.eip = some .iret := by
      change M.instr (u.eip + M.size (.add .esp 24#32)) = _
      rw [heip]
      exact hcode.2.1
    exact Machine.step_iret hinstr (hallow .iret v hcpl)
      (iret_interrupted (hinstalled.atLevel hsegs') (by decide) hinterrupted)
  exact Relation.ReflTransGen.head hadd (Relation.ReflTransGen.single hiret)

end Munix
