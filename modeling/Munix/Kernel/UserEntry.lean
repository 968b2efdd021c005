import Munix.Kernel.Gates
import Munix.Lib.X86Machine

/-!
# Munix — what user code can do to the kernel

User code on the machine of `Munix.Lib.X86Machine` with the tables of
`Munix.Kernel.Gates` installed. The program is arbitrary, and so are the moments at which
interrupts and other exceptions come in; the pages keep its stores out of the range of
the kernel.

* `Installed.deliver_gate` / `Installed.deliver_refused` — every event in user code.
* `userRuns_confined` — what holds in every state that a program gets to, and how it can
  leave user mode.
* `interrupt_transparent` — a handler that returns leaves no trace in the program.
-/

namespace Munix

open ByteMem X86

variable {I : GateImage} {M : Machine} {kstack : Addr} {c d e : Cpu} {vec : Nat} {soft : Bool}
  {err : Option (BitVec 32)}

-- ---------------------------------------------------------------------------
-- Entering a handler
-- ---------------------------------------------------------------------------

/-- What is on the kernel stack in a handler: the error code if there is one, and
`struct x86_intr_frame`. -/
def entryWords (c : Cpu) (err : Option (BitVec 32)) : List (BitVec 32) :=
  err.toList ++ [c.eip, c.cs.setWidth 32, c.eflags, c.reg .esp, c.ss.setWidth 32]

/-- The processor in the kernel, on a stack from the top of which the words `ws` have been
pushed, the last one first. All other registers are those of `c`. -/
def kernelState (c : Cpu) (kstack : Addr) (ws : List (BitVec 32)) (eip : Addr) : Cpu :=
  { c with
    toState := ((c.setReg .esp (pushAll c.mem kstack ws.reverse).2).setMem
      (pushAll c.mem kstack ws.reverse).1).setEip eip
    cs := SEL_KCODE
    ss := SEL_KDATA
    eflags := handlerFlags INTR_GATE c.eflags }

/-- The state at the start of a handler, after an event in user code. -/
def kernelEntry (c : Cpu) (kstack handler : Addr) (err : Option (BitVec 32)) : Cpu :=
  kernelState c kstack (entryWords c err) handler

section KernelState

variable (c : Cpu) (kstack eip : Addr) (ws : List (BitVec 32))

theorem kernelState_esp :
    (kernelState c kstack ws eip).reg .esp = kstack - BitVec.ofNat 32 (4 * ws.length) := by
  simp [kernelState, pushAll_sp]

theorem kernelState_reg {r : Reg} (hr : r ≠ .esp) : (kernelState c kstack ws eip).reg r = c.reg r := by
  simp [kernelState, hr]

theorem kernelState_onStack {ws : List (BitVec 32)} (hlen : 4 * ws.length ≤ 2 ^ 32) :
    OnStack (kernelState c kstack ws eip).mem ((kernelState c kstack ws eip).reg .esp) ws := by
  have hnil : OnStack c.mem kstack [] := trivial
  have h := hnil.pushAll ws.reverse (by rw [List.length_nil, List.length_reverse]; omega)
  rwa [List.reverse_reverse, List.append_nil] at h

theorem kernelState_sameOutside {kstack : Addr} {ws : List (BitVec 32)} (hroom : 4 * ws.length ≤ kstack.toNat) :
    SameOutside c.mem (kernelState c kstack ws eip).mem (kstack.toNat - 4 * ws.length) kstack.toNat := by
  have hlen : 4 * ws.reverse.length ≤ kstack.toNat := by rwa [List.length_reverse]
  have h := pushAll_sameOutside c.mem hlen
  rwa [List.length_reverse] at h

/-- The level of the kernel, with interrupts off. -/
theorem kernelState_kernel :
    (kernelState c kstack ws eip).cpl = PL_KERNEL ∧
      (kernelState c kstack ws eip).eflags &&& (FLAG_IF ||| FLAG_NT) = 0#32 := by
  refine ⟨(by decide : selRpl SEL_KCODE = PL_KERNEL), ?_⟩
  change handlerFlags INTR_GATE c.eflags &&& (FLAG_IF ||| FLAG_NT) = 0#32
  rw [handlerFlags, if_pos rfl]
  apply BitVec.eq_of_getLsbD_eq
  intro i hi
  simp only [BitVec.getLsbD_and, BitVec.getLsbD_or, BitVec.getLsbD_not, BitVec.getLsbD_zero, hi]
  cases FLAG_IF.getLsbD i <;> cases FLAG_NT.getLsbD i <;> simp

theorem kernelState_intr : (kernelState c kstack ws eip).eflags &&& FLAG_IF = 0#32 := by
  have hsub : FLAG_IF = (FLAG_IF ||| FLAG_NT) &&& FLAG_IF := by decide
  rw [hsub, ← BitVec.and_assoc, (kernelState_kernel c kstack eip ws).2, BitVec.zero_and]

end KernelState

theorem Installed.descriptor (h : Installed I kstack c) {sel : BitVec 16} (hti : sel.getLsbD 2 = false)
    (hidx : 0 < selIndex sel ∧ selIndex sel < KSEG_COUNT) :
    c.descriptor sel = some (I.gdtDesc (selIndex sel)) :=
  descriptor_of h.gdtr h.tables.gdt hti hidx

theorem Installed.kernelCode (h : Installed I kstack c) :
    c.descriptor SEL_KCODE = some (kernelGdt KSEG_KERNEL_CODE).raw :=
  h.descriptor rfl (by decide : 0 < selIndex SEL_KCODE ∧ selIndex SEL_KCODE < KSEG_COUNT)

theorem Installed.kernelData (h : Installed I kstack c) :
    c.descriptor SEL_KDATA = some (kernelGdt KSEG_KERNEL_DATA).raw :=
  h.descriptor rfl (by decide : 0 < selIndex SEL_KDATA ∧ selIndex SEL_KDATA < KSEG_COUNT)

theorem Installed.userCode (h : Installed I kstack c) :
    c.descriptor SEL_UCODE = some (kernelGdt KSEG_USER_CODE).raw :=
  h.descriptor rfl (by decide : 0 < selIndex SEL_UCODE ∧ selIndex SEL_UCODE < KSEG_COUNT)

theorem Installed.userData (h : Installed I kstack c) :
    c.descriptor SEL_UDATA = some (kernelGdt KSEG_USER_DATA).raw :=
  h.descriptor rfl (by decide : 0 < selIndex SEL_UDATA ∧ selIndex SEL_UDATA < KSEG_COUNT)

theorem Installed.innerStack (h : Installed I kstack c) :
    c.innerEsp PL_KERNEL = kstack ∧ c.innerSs PL_KERNEL = SEL_KDATA := by
  have h0 : BitVec.ofNat 32 (8 * PL_KERNEL.toNat) = 0#32 := rfl
  refine ⟨?_, ?_⟩
  · rw [Cpu.innerEsp, h0, BitVec.add_zero, h.tss, h.tables.esp0]
  · rw [Cpu.innerSs, h0, BitVec.add_zero, h.tss, h.tables.ss0]

theorem gate_lt {g : Addr × BitVec 2} (h : I.gate vec = some g) : vec < INTR_GATE_MAX := by
  rw [GateImage.gate] at h
  split at h
  next hsys =>
    rw [hsys]
    decide
  next =>
    obtain ⟨e, he, -⟩ := Option.map_eq_some_iff.mp h
    have hlt := handlers_lt e (List.mem_of_find?_eq_some he)
    have hkey := List.find?_some he
    rw [← beq_iff_eq.mp hkey]
    exact hlt

theorem Installed.entry (h : Installed I kstack c) (hvec : vec < INTR_GATE_MAX) :
    c.idtr.entry c.mem vec = some (I.idtDesc vec) := by
  have hlimit : 8 * vec + 7 ≤ (512#16).toNat := by
    have hsize : (512#16).toNat = 512 := rfl
    simp only [INTR_GATE_MAX] at hvec
    omega
  rw [h.idtr, Table.entry_of h.tables.idt hvec hlimit]

/-- **An event with a gate** that it may use starts the handler on the kernel stack. -/
theorem Installed.deliver_gate (h : Installed I kstack c) (hcpl : c.cpl = PL_USER) {fn : Addr}
    {dpl : BitVec 2} (hgate : I.gate vec = some (fn, dpl)) (hsoft : soft = true → dpl = PL_USER) :
    deliver c vec soft err = .done (kernelEntry c kstack fn err) := by
  have hdesc : I.idtDesc vec = (isrGate fn dpl).raw := by
    rw [GateImage.idtDesc, hgate]
    rfl
  have hentry := h.entry (gate_lt hgate)
  rw [hdesc] at hentry
  have hsel : (isrGate fn dpl).raw.selector = SEL_KCODE := Gate32.raw_selector _
  have hcode : c.descriptor (isrGate fn dpl).raw.selector = some (kernelGdt KSEG_KERNEL_CODE).raw := by
    rw [hsel]
    exact h.kernelCode
  obtain ⟨hesp, hss⟩ := h.innerStack
  have hstack : c.descriptor (c.innerSs PL_KERNEL) = some (kernelGdt KSEG_KERNEL_DATA).raw := by
    rw [hss]
    exact h.kernelData
  have hadmits : (isrGate fn dpl).raw.Admits c.cpl soft := isrGate_admits fn dpl fun hs => by
    rw [hcpl, hsoft hs]
    exact BitVec.le_refl _
  have hlevel : PL_KERNEL < c.cpl := by
    rw [hcpl]
    decide
  rw [deliver_inner hentry hadmits hcode kernelCode_at hlevel hstack kernelData_at (by rw [hss]; rfl), hesp,
    hss]
  have hcs : withRpl SEL_KCODE PL_KERNEL = SEL_KCODE := by decide
  have htype : (isrGate fn dpl).raw.type = INTR_GATE := Gate32.raw_type _
  have hwords : (entryWords c err).reverse = c.outerFrame ++ err.toList := by
    cases err <;> rfl
  simp only [Cpu.enter, Cpu.withState, hsel, hcs, htype, isrGate_offset, kernelEntry, kernelState, hwords,
    State.mem_setReg, State.reg_setReg_same, State.setReg_setReg]

/-- A system call in user code. -/
theorem Installed.step_syscall (h : Installed I kstack c) (hcpl : c.cpl = PL_USER)
    (hint : M.instr c.eip = some (.int IVEC_SYSCALL)) (hpage : M.user c.eip = true) :
    M.step c = some (kernelEntry (M.next (.int IVEC_SYSCALL) c) kstack I.isrSyscall none) := by
  have hnext : Installed I kstack (M.next (.int IVEC_SYSCALL) c) := ⟨h.gdtr, h.idtr, h.tss, h.tables⟩
  have hgate : I.gate IVEC_SYSCALL = some (I.isrSyscall, PL_USER) := rfl
  refine Machine.step_int hint ?_ (hnext.deliver_gate hcpl hgate fun _ => rfl)
  simp [Machine.allows, hpage, Op.accesses]

/-- **An event without a gate** that it may use is a protection fault. -/
theorem Installed.deliver_refused (h : Installed I kstack c) (hcpl : c.cpl = PL_USER)
    (hgate : ∀ g, I.gate vec = some g → soft = true ∧ g.2 = PL_KERNEL) :
    deliver c vec soft err =
      .fault 13 (BitVec.ofNat 32 (8 * vec + 2) ||| if soft = true then 0#32 else 1#32) := by
  by_cases hvec : vec < INTR_GATE_MAX
  · have hentry := h.entry hvec
    cases hg : I.gate vec with
    | none =>
      have hdesc : I.idtDesc vec = ⟨0#32, 0#32⟩ := by
        rw [GateImage.idtDesc, hg]
        rfl
      rw [hdesc] at hentry
      have h1 : ¬ ((⟨0#32, 0#32⟩ : RawDesc).type = TASK_GATE ∨ (⟨0#32, 0#32⟩ : RawDesc).type ∈ GATES_16) := by
        decide
      have h2 : (⟨0#32, 0#32⟩ : RawDesc).type ≠ INTR_GATE ∧ (⟨0#32, 0#32⟩ : RawDesc).type ≠ TRAP_GATE := by
        decide
      simp only [deliver, hentry, if_neg h1, if_pos h2]
    | some g =>
      obtain ⟨hs, hdpl⟩ := hgate g hg
      have hdesc : I.idtDesc vec = (isrGate g.1 g.2).raw := by
        rw [GateImage.idtDesc, hg]
        rfl
      rw [hdesc] at hentry
      have hadmits : (isrGate g.1 g.2).raw.Admits PL_KERNEL soft := isrGate_admits g.1 g.2 fun _ => by
        rw [hdpl]
        exact BitVec.le_refl _
      obtain ⟨h1, h2⟩ := hadmits.not_special
      have h3 : soft = true ∧ (isrGate g.1 g.2).raw.dpl < c.cpl := by
        rw [Gate32.raw_dpl, hcpl]
        refine ⟨hs, ?_⟩
        change g.2 < PL_USER
        rw [hdpl]
        decide
      simp only [deliver, hentry, if_neg h1, if_neg h2, if_pos h3]
  · have hpast : c.idtr.entry c.mem vec = none := by
      have hlimit : (512#16).toNat < 8 * vec + 7 := by
        have hsize : (512#16).toNat = 512 := rfl
        simp only [INTR_GATE_MAX] at hvec
        omega
      rw [h.idtr, Table.entry_past hlimit]
    simp only [deliver, hpast]

-- ---------------------------------------------------------------------------
-- Events in user code
-- ---------------------------------------------------------------------------

/-- The functions that the kernel can be entered at, and whether they take an error code. -/
inductive EntryPoint (I : GateImage) : Addr → Bool → Prop where
  | syscall : EntryPoint I I.isrSyscall false
  | isr {h : Nat × Isr} : h ∈ HANDLERS → EntryPoint I (I.isr h.2) h.2.errcode

/-- The kernel has been entered from user code that has got to `c`; the instruction pointer
that it finds may be past the instruction. -/
def EntersKernel (I : GateImage) (kstack : Addr) (c d : Cpu) : Prop :=
  ∃ eip fn err, EntryPoint I fn err.isSome ∧ d = kernelEntry (c.withState (c.setEip eip)) kstack fn err

/-- What can happen in user code: an instruction, an interrupt of a device, or an exception
at an instruction that the machine does not have. -/
inductive UserEvent (M : Machine) (c d : Cpu) : Prop where
  | instr : M.step c = some d → UserEvent M c d
  | irq {vec : Nat} : IVEC_IRQ_0 ≤ vec → vec < IVEC_IRQ_0 + 16 →
      c.settle (deliver c vec false none) = some d → UserEvent M c d
  | exception {vec : Nat} {code : BitVec 32} : vec < IVEC_IRQ_0 →
      c.settle (deliver c vec false (if hasErrorCode vec = true then some code else none)) = some d →
      UserEvent M c d

/-- Handlers are installed for the vectors that they are declared for, and take an error
code if the processor pushes one. -/
theorem handlers_declared :
    ∀ h ∈ HANDLERS, h.2.vec = h.1 ∧ (h.1 < IVEC_IRQ_0 → h.2.errcode = hasErrorCode h.1) ∧
      (IVEC_IRQ_0 ≤ h.1 → h.2.errcode = false) ∧ h.1 ≠ IVEC_SYSCALL := by
  decide

theorem gate_handler {fn : Addr} {dpl : BitVec 2} (h : I.gate vec = some (fn, dpl))
    (hvec : vec ≠ IVEC_SYSCALL) : ∃ e ∈ HANDLERS, e.1 = vec ∧ fn = I.isr e.2 := by
  rw [GateImage.gate, if_neg hvec] at h
  obtain ⟨e, he, hfn⟩ := Option.map_eq_some_iff.mp h
  refine ⟨e, List.mem_of_find?_eq_some he, ?_, (congrArg (·.1) hfn).symm⟩
  exact beq_iff_eq.mp (List.find?_some (p := fun h : Nat × Isr => h.1 == vec) he)

theorem EntersKernel.here {fn : Addr} (h : EntryPoint I fn err.isSome) (c : Cpu) :
    EntersKernel I kstack c (kernelEntry c kstack fn err) :=
  ⟨c.eip, fn, err, h, rfl⟩

/-- The exceptions that segments and pages cause have handlers. -/
theorem Installed.except_enters (h : Installed I kstack c) (hcpl : c.cpl = PL_USER)
    (hvec : vec ∈ SEGMENT_FAULTS) {code : BitVec 32} (hd : c.except vec code = some d) :
    EntersKernel I kstack c d := by
  have hmem : (vec, (⟨vec, true⟩ : Isr)) ∈ HANDLERS := by
    have hall : ∀ v ∈ SEGMENT_FAULTS, (v, (⟨v, true⟩ : Isr)) ∈ HANDLERS := by decide
    exact hall vec hvec
  have hgate : I.gate vec = some (I.isr ⟨vec, true⟩, PL_KERNEL) := by
    have hall : ∀ v ∈ SEGMENT_FAULTS, v ≠ IVEC_SYSCALL ∧
        HANDLERS.find? (fun h => h.1 == v) = some (v, ⟨v, true⟩) := by decide
    obtain ⟨hne, hfind⟩ := hall vec hvec
    rw [GateImage.gate, if_neg hne, hfind]
    rfl
  rw [Cpu.except, h.deliver_gate hcpl hgate Bool.false_ne_true.elim] at hd
  cases hd
  exact .here (.isr hmem) c

/-- What becomes of an event that has a handler or is a protection fault. -/
theorem Installed.settle_enters (h : Installed I kstack c) (hcpl : c.cpl = PL_USER) (eip : Addr)
    (hentry : ∀ fn dpl, I.gate vec = some (fn, dpl) → (soft = true → dpl = PL_USER) →
      EntryPoint I fn err.isSome)
    (hd : c.settle (deliver (c.withState (c.setEip eip)) vec soft err) = some d) :
    EntersKernel I kstack c d := by
  set c' := c.withState (c.setEip eip) with hc'
  have h' : Installed I kstack c' := ⟨h.gdtr, h.idtr, h.tss, h.tables⟩
  by_cases hgate : ∃ fn dpl, I.gate vec = some (fn, dpl) ∧ (soft = true → dpl = PL_USER)
  · obtain ⟨fn, dpl, hgate, hsoft⟩ := hgate
    rw [h'.deliver_gate hcpl hgate hsoft] at hd
    cases hd
    exact ⟨eip, fn, err, hentry fn dpl hgate hsoft, rfl⟩
  · rw [h'.deliver_refused hcpl] at hd
    · exact h.except_enters hcpl (by decide) hd
    · intro g hg
      have hno : ¬ (soft = true → g.2 = PL_USER) := fun hs => hgate ⟨g.1, g.2, hg, hs⟩
      refine ⟨by_contra fun hs => hno fun hs' => absurd hs' hs, ?_⟩
      by_cases hsys : vec = IVEC_SYSCALL
      · rw [hsys, GateImage.gate, if_pos rfl] at hg
        cases hg
        exact absurd (fun _ => rfl) hno
      · rw [GateImage.gate, if_neg hsys] at hg
        obtain ⟨e, -, he⟩ := Option.map_eq_some_iff.mp hg
        rw [← he]

/-- **One event in user code.** -/
theorem Installed.userEvent (h : Installed I kstack c) (hcpl : c.cpl = PL_USER)
    (hio : ioLevel c.eflags = PL_KERNEL) (hd : UserEvent M c d) :
    (c.Guarded d ∧ ∀ a, M.userW a = false → d.mem a = c.mem a) ∨ EntersKernel I kstack c d := by
  have hself : c.withState (c.setEip c.eip) = c := rfl
  cases hd with
  | instr hstep =>
    have hlow : ioLevel c.eflags < c.cpl := by
      rw [hio, hcpl]
      decide
    rcases Machine.step_outermost hcpl hlow hstep with hkept | ⟨v, code, hv, hd⟩ | ⟨v, -, hd⟩
    · exact .inl hkept
    · exact .inr (h.except_enters hcpl hv hd)
    · refine .inr (h.settle_enters hcpl _ (fun fn dpl hgate hsoft => ?_) hd)
      -- Only the gate of the system calls may be named by `int`.
      by_cases hsys : v = IVEC_SYSCALL
      · rw [hsys, GateImage.gate, if_pos rfl] at hgate
        cases hgate
        exact .syscall
      · rw [GateImage.gate, if_neg hsys] at hgate
        obtain ⟨e, -, he⟩ := Option.map_eq_some_iff.mp hgate
        have hdpl : PL_KERNEL = dpl := congrArg (·.2) he
        exact absurd (hdpl.trans (hsoft rfl)) (by decide)
  | @irq v hlo hhi hd =>
    refine .inr (h.settle_enters hcpl c.eip (fun fn dpl hgate _ => ?_) hd)
    have hne : v ≠ IVEC_SYSCALL := by
      simp only [IVEC_IRQ_0, IVEC_SYSCALL] at hhi ⊢
      omega
    obtain ⟨e, he, hev, rfl⟩ := gate_handler hgate hne
    have hcode : e.2.errcode = false := (handlers_declared e he).2.2.1 (by rwa [hev])
    have hentry := EntryPoint.isr (I := I) he
    rwa [hcode] at hentry
  | @exception v code hlt hd =>
    refine .inr (h.settle_enters hcpl c.eip (fun fn dpl hgate _ => ?_) hd)
    have hne : v ≠ IVEC_SYSCALL := by
      simp only [IVEC_IRQ_0, IVEC_SYSCALL] at hlt ⊢
      omega
    obtain ⟨e, he, hev, rfl⟩ := gate_handler hgate hne
    have hcode : e.2.errcode = hasErrorCode e.1 := (handlers_declared e he).2.1 (by rwa [hev])
    have hentry := EntryPoint.isr (I := I) he
    rw [hcode, hev] at hentry
    cases hv : hasErrorCode v with
    | true => rwa [hv] at hentry
    | false => rwa [hv] at hentry

-- ---------------------------------------------------------------------------
-- An example
-- ---------------------------------------------------------------------------

/-- Memory with the tables of the example image, after `cpu_user_kstack_set`. -/
def exampleMem : Mem :=
  cpuUserKstackSet exampleImage
    (writeTable (writeTable (fun _ => 0#8) 0x1000#32 exampleImage.gdtDesc KSEG_COUNT) 0x2000#32
      exampleImage.idtDesc INTR_GATE_MAX) 0x300000#32

theorem exampleMem_tables : TablesIn exampleImage 0x300000#32 exampleMem := by
  refine DescTables.cpuUserKstackSet ⟨?_, writeTable_descsAt _ (by decide)⟩ _
  have hgdt : DescsAt (writeTable (fun _ => 0#8) 0x1000#32 exampleImage.gdtDesc KSEG_COUNT) 0x1000#32
      KSEG_COUNT exampleImage.gdtDesc := writeTable_descsAt _ (by decide)
  exact hgdt.frame (writeTable_sameOutside _ (by decide)) (by decide) (.inr (by decide))

/-- A program in user mode. -/
def exampleUser (mem : Mem) (eip esp : Addr) : Cpu where
  reg r  := if r = .esp then esp else 0#32
  eip    := eip
  mem    := mem
  eflags := 0x202#32
  cs     := SEL_UCODE
  ss     := SEL_UDATA
  ds     := SEL_UDATA
  es     := SEL_UDATA
  gdtr   := ⟨0x1000#32, 48#16⟩
  idtr   := ⟨0x2000#32, 512#16⟩
  tss    := 0x3000#32

theorem exampleUser_installed {mem : Mem} (h : ∀ a, a < KMAP_MAX → mem a = exampleMem a) (eip esp : Addr) :
    Installed exampleImage 0x300000#32 (exampleUser mem eip esp) :=
  ⟨rfl, rfl, rfl, exampleMem_tables.congr h⟩

/-- A machine with instructions of one byte, and with all pages above the range of the kernel
in the hands of programs. -/
def exampleMachine (code : List (Addr × List Op)) : Machine where
  instr a    := code.findSome? fun e => e.2[(a - e.1).toNat]?
  size _     := 1#32
  user a     := decide (KMAP_MAX ≤ a)
  userW a    := decide (KMAP_MAX ≤ a)
  status _ _ := 0#32
  taken _ _  := false
  pfCode _   := 4#32

theorem exampleMachine_writable (code : List (Addr × List Op)) {a : Addr} {n : Nat}
    (h : 0x400000 ≤ a.toNat ∧ a.toNat + n ≤ 2 ^ 32) : (exampleMachine code).Writable a n := by
  intro i hi
  have hle : KMAP_MAX ≤ a + i := by
    have hkmap : KMAP_MAX.toNat = 0x400000 := rfl
    rw [BitVec.le_def, BitVec.toNat_add, hkmap]
    omega
  exact ⟨decide_eq_true hle, decide_eq_true hle⟩

-- ---------------------------------------------------------------------------
-- Runs of user code
-- ---------------------------------------------------------------------------

/-- User code that has not left user mode. -/
def UserRuns (M : Machine) : Cpu → Cpu → Prop :=
  Relation.ReflTransGen fun c d => UserEvent M c d ∧ d.cpl = PL_USER

/-- The pages keep the stores of user code out of the range of the kernel. -/
def KernelHidden (M : Machine) : Prop := ∀ a, M.userW a = true → KMAP_MAX ≤ a

theorem exampleMachine_hidden (code : List (Addr × List Op)) : KernelHidden (exampleMachine code) :=
  fun _ h => of_decide_eq_true h

theorem EntersKernel.cpl (h : EntersKernel I kstack c d) : d.cpl = PL_KERNEL := by
  obtain ⟨eip, fn, err, -, rfl⟩ := h
  exact (kernelState_kernel _ _ _ _).1

theorem KernelHidden.kept (h : KernelHidden M) (hmem : ∀ a, M.userW a = false → d.mem a = c.mem a) :
    ∀ a, a < KMAP_MAX → d.mem a = c.mem a := by
  intro a ha
  refine hmem a (Bool.eq_false_iff.mpr fun hw => ?_)
  exact absurd ha (BitVec.not_lt.mpr (h a hw))

/-- What holds in every state that a program gets to before it leaves user mode. -/
theorem Installed.userRuns (h : Installed I kstack c) (hpages : KernelHidden M) (hcpl : c.cpl = PL_USER)
    (hio : ioLevel c.eflags = PL_KERNEL) (hruns : UserRuns M c d) :
    Installed I kstack d ∧ c.Guarded d ∧ ∀ a, a < KMAP_MAX → d.mem a = c.mem a := by
  induction hruns with
  | refl => exact ⟨h, .refl c, fun _ _ => rfl⟩
  | @tail b d _ hstep ih =>
    obtain ⟨hb, hguard, hmem⟩ := ih
    rcases hb.userEvent (hguard.cpl.trans hcpl) ((ioLevel_eq hguard.flags).trans hio) hstep.1 with
      ⟨hg, hm⟩ | henters
    · have hlow := hpages.kept hm
      refine ⟨⟨hg.gdtr.trans hb.gdtr, hg.idtr.trans hb.idtr, hg.tss.trans hb.tss,
        hb.tables.congr hlow⟩, hguard.trans hg, fun a ha => (hlow a ha).trans (hmem a ha)⟩
    · exact absurd (henters.cpl.symm.trans hstep.2) (by decide)

/-- The ways out of user mode. -/
theorem Installed.leavesUser (h : Installed I kstack c) (hcpl : c.cpl = PL_USER)
    (hio : ioLevel c.eflags = PL_KERNEL) (hd : UserEvent M c d) (hne : d.cpl ≠ PL_USER) :
    EntersKernel I kstack c d := by
  rcases h.userEvent hcpl hio hd with ⟨hg, -⟩ | henters
  · exact absurd (hg.cpl.trans hcpl) hne
  · exact henters

/-- **User code is confined.** Whatever the program does, and whatever interrupts and
exceptions come in: in every state that it gets to before it leaves user mode the kernel's
memory, the tables and the guarded flags are as at the start, and the only ways out of user
mode are the entry points of the kernel, each with the frame on the kernel stack that it
expects. -/
theorem userRuns_confined (hpages : KernelHidden M) (h : Installed I kstack c) (hcpl : c.cpl = PL_USER)
    (hio : ioLevel c.eflags = PL_KERNEL) (hruns : UserRuns M c d) :
    Installed I kstack d ∧ c.Guarded d ∧ (∀ a, a < KMAP_MAX → d.mem a = c.mem a) ∧
      ∀ e, UserEvent M d e → e.cpl ≠ PL_USER → EntersKernel I kstack d e := by
  obtain ⟨hd, hguard, hmem⟩ := h.userRuns hpages hcpl hio hruns
  exact ⟨hd, hguard, hmem, fun e he hne =>
    hd.leavesUser (hguard.cpl.trans hcpl) ((ioLevel_eq hguard.flags).trans hio) he hne⟩

/-- A program that pushes a register and makes a system call. -/
def examplePush : Machine := exampleMachine [(0x400000#32, [.push .eax, .int IVEC_SYSCALL])]

theorem userRuns_confined_push :
    ∃ c d e, UserRuns examplePush c d ∧ d.reg .esp = c.reg .esp - 4#32 ∧
      Installed exampleImage 0x300000#32 d ∧ UserEvent examplePush d e ∧
      EntersKernel exampleImage 0x300000#32 d e := by
  have hinst : Installed exampleImage 0x300000#32 (exampleUser exampleMem 0x400000#32 0x500000#32) :=
    exampleUser_installed (fun _ _ => rfl) _ _
  -- the push
  have hpush := @Machine.step_exec examplePush (exampleUser exampleMem 0x400000#32 0x500000#32) (.push .eax)
    (by decide) (by decide) rfl
  have hruns : UserRuns examplePush (exampleUser exampleMem 0x400000#32 0x500000#32) _ :=
    Relation.ReflTransGen.single ⟨.instr hpush, rfl⟩
  obtain ⟨hdinst, -, -, hleave⟩ := userRuns_confined (exampleMachine_hidden _) hinst rfl (by decide) hruns
  -- the system call
  have hint := hdinst.step_syscall (M := examplePush) rfl (by decide) (by decide)
  refine ⟨_, _, _, hruns, ?_, hdinst, .instr hint, hleave _ (.instr hint) ?_⟩
  · exact rfl
  · rw [kernelEntry, (kernelState_kernel _ _ _ _).1]
    decide

-- ---------------------------------------------------------------------------
-- Handlers that return
-- ---------------------------------------------------------------------------

/-- The selectors of user code. -/
structure UserSegs (c : Cpu) : Prop where
  cs : c.cs = SEL_UCODE
  ss : c.ss = SEL_UDATA
  ds : c.ds = SEL_UDATA
  es : c.es = SEL_UDATA
  vm : c.eflags &&& FLAG_VM = 0#32

theorem UserSegs.cpl (h : UserSegs c) : c.cpl = PL_USER := by
  rw [Cpu.cpl, h.cs]
  decide

theorem exampleUser_segs (mem : Mem) (eip esp : Addr) : UserSegs (exampleUser mem eip esp) :=
  ⟨rfl, rfl, rfl, rfl, (by decide : 0x202#32 &&& FLAG_VM = 0#32)⟩

theorem Installed.atLevel (h : Installed I kstack c) (hsegs : UserSegs c) : c.AtLevel PL_USER where
  cpl  := hsegs.cpl
  rpl  := by
    rw [hsegs.ss]
    decide
  code := ⟨_, hsegs.cs ▸ h.userCode, userCode_at⟩
  data := ⟨_, hsegs.ss ▸ h.userData, userData_at⟩
  ds   := by
    rw [Cpu.dataSegAfter, hsegs.ds, h.userData]
    rfl
  es   := by
    rw [Cpu.dataSegAfter, hsegs.es, h.userData]
    rfl
  vm   := hsegs.vm

/-- Every selector means the same as long as the tables are installed. -/
theorem Installed.descriptor_eq {kstack' : Addr} (h : Installed I kstack c) (h' : Installed I kstack' d)
    (sel : BitVec 16) : d.descriptor sel = c.descriptor sel := by
  rw [Cpu.descriptor, Cpu.descriptor, h.gdtr, h'.gdtr]
  by_cases hidx : selIndex sel < KSEG_COUNT
  · have hlimit : 8 * selIndex sel + 7 ≤ (48#16).toNat := by
      have hsize : (48#16).toNat = 48 := rfl
      simp only [KSEG_COUNT] at hidx
      omega
    rw [Table.entry_of h.tables.gdt hidx hlimit, Table.entry_of h'.tables.gdt hidx hlimit]
  · have hlimit : (48#16).toNat < 8 * selIndex sel + 7 := by
      have hsize : (48#16).toNat = 48 := rfl
      simp only [KSEG_COUNT] at hidx
      omega
    rw [Table.entry_past hlimit, Table.entry_past hlimit]

/-- A handler that was entered at `e` is about to return: it has taken the error code off
the stack, the registers are as they were, and the frame has not been touched. -/
structure HandlerDone (e : Cpu) (err : Option (BitVec 32)) (u : Cpu) : Prop where
  regs  : ∀ r, r ≠ .esp → u.reg r = e.reg r
  esp   : u.reg .esp = e.reg .esp + BitVec.ofNat 32 (4 * err.toList.length)
  frame : ∀ i < 20, u.mem (u.reg .esp + BitVec.ofNat 32 i) = e.mem (u.reg .esp + BitVec.ofNat 32 i)
  cs    : u.cs = e.cs
  ds    : u.ds = e.ds
  es    : u.es = e.es
  nt    : u.eflags &&& FLAG_NT = 0#32

/-- The return of a handler, in whatever state of the kernel. -/
theorem Installed.handler_returns (h : Installed I kstack c) (hsegs : UserSegs c) (fn : Addr)
    {kstack' : Addr} {u : Cpu} (hdone : HandlerDone (kernelEntry c kstack fn err) err u)
    (hu : Installed I kstack' u) : iret u = .done { c with mem := u.mem } := by
  obtain ⟨hkernel, -⟩ := kernelState_kernel c kstack fn (entryWords c err)
  refine iret_interrupted (h.atLevel hsegs) (by decide) ?_
  have hlen : 4 * (entryWords c err).length ≤ 2 ^ 32 := by
    cases err <;> simp [entryWords]
  have hstack := (kernelState_onStack c kstack fn hlen).drop err.toList.length
  have hesp := hdone.esp
  rw [kernelEntry] at hesp
  rw [← hesp, entryWords, List.drop_left] at hstack
  refine ⟨hstack.congr hdone.frame, ?_, hdone.nt, fun r hr => ?_, hdone.ds, hdone.es, ⟨?_, ?_, ?_⟩,
    h.descriptor_eq hu, hsegs.cpl⟩
  · rw [Cpu.cpl, hdone.cs]
    exact hkernel
  · rw [hdone.regs r hr, kernelEntry, kernelState_reg _ _ _ _ hr]
  · rw [hu.gdtr, h.gdtr]
  · rw [hu.idtr, h.idtr]
  · rw [hu.tss, h.tss]

/-- **An interrupt leaves no trace.** When an interrupt or exception has come in anywhere in
user code and its handler returns, in whatever state of the kernel, the program goes on
where it was, with all its registers, selectors and flags. -/
theorem interrupt_transparent (h : Installed I kstack c) (hsegs : UserSegs c) {fn : Addr} {dpl : BitVec 2}
    (hgate : I.gate vec = some (fn, dpl)) (hsoft : soft = true → dpl = PL_USER) :
    ∃ e, deliver c vec soft err = .done e ∧ e.eip = fn ∧ e.cpl = PL_KERNEL ∧
      e.eflags &&& FLAG_IF = 0#32 ∧
      ∀ (kstack' : Addr) (u : Cpu), HandlerDone e err u → Installed I kstack' u →
        iret u = .done { c with mem := u.mem } := by
  obtain ⟨hkernel, -⟩ := kernelState_kernel c kstack fn (entryWords c err)
  exact ⟨_, h.deliver_gate hsegs.cpl hgate hsoft, rfl, hkernel, kernelState_intr .., fun _ _ hdone hu =>
    h.handler_returns hsegs fn hdone hu⟩

/-- The state at the end of a handler that was entered at `e` from `c`, if it has not written to
the tables. -/
def exampleDone (c e : Cpu) : Cpu :=
  { e with
    mem := fun a => if a < 0x4000#32 then c.mem a else e.mem a
    eflags := 2#32, gdtr := c.gdtr, idtr := c.idtr, tss := c.tss }

/-- The tables of the example lie in the first four pages. -/
theorem exampleTables_congr {m m' : Mem} (h : TablesIn exampleImage kstack m)
    (hmem : ∀ a : Addr, a.toNat < 0x4000 → m' a = m a) : TablesIn exampleImage kstack m' := by
  refine ⟨⟨h.gdt.congr (by decide) fun i hi => hmem _ ?_, h.idt.congr (by decide) fun i hi => hmem _ ?_⟩, ?_, ?_⟩
  · have hbase : exampleImage.kernelGdt = 0x1000#32 := rfl
    unfold KSEG_COUNT at hi
    bv_omega
  · have hbase : exampleImage.idt = 0x2000#32 := rfl
    unfold INTR_GATE_MAX at hi
    bv_omega
  · rw [← h.esp0]
    refine load32_congr fun i hi => hmem _ ?_
    have hbase : exampleImage.kernelTss = 0x3000#32 := rfl
    bv_omega
  · rw [← h.ss0]
    refine congrArg _ (load32_congr fun i hi => hmem _ ?_)
    have hbase : exampleImage.kernelTss = 0x3000#32 := rfl
    bv_omega

theorem exampleDone_installed (h : Installed exampleImage kstack c) (e : Cpu) :
    Installed exampleImage kstack (exampleDone c e) :=
  ⟨h.gdtr, h.idtr, h.tss, exampleTables_congr h.tables fun _ ha => if_pos (BitVec.lt_def.mpr ha)⟩

/-- The timer. -/
theorem interrupt_transparent_timer :
    ∃ c e u, deliver c 32 false none = .done e ∧ e.eip = exampleImage.isr isrIrq0 ∧ HandlerDone e none u ∧
      iret u = .done { c with mem := u.mem } := by
  have hinst : Installed exampleImage 0x300000#32 (exampleUser exampleMem 0x400000#32 0x500000#32) :=
    exampleUser_installed (fun _ _ => rfl) _ _
  have hsegs := exampleUser_segs exampleMem 0x400000#32 0x500000#32
  have hgate : exampleImage.gate 32 = some (exampleImage.isr isrIrq0, PL_KERNEL) := rfl
  obtain ⟨e, hdone, heip, -, -, hback⟩ := @interrupt_transparent exampleImage 0x300000#32
    (exampleUser exampleMem 0x400000#32 0x500000#32) 32 false none hinst hsegs _ _ hgate Bool.false_ne_true.elim
  -- where the frame is
  have hesp : e.reg .esp = 0x2fffec#32 := by
    have hentry : deliver _ 32 false none = .done _ := hinst.deliver_gate hsegs.cpl hgate Bool.false_ne_true.elim
    rw [hdone] at hentry
    cases hentry
    exact kernelState_esp ..
  have hfinished : HandlerDone e none (exampleDone (exampleUser exampleMem 0x400000#32 0x500000#32) e) := by
    refine ⟨fun _ _ => rfl, (BitVec.add_zero _).symm, fun i hi => ?_, rfl, rfl, rfl,
      (by decide : 2#32 &&& FLAG_NT = 0#32)⟩
    have hreg : (exampleDone (exampleUser exampleMem 0x400000#32 0x500000#32) e).reg .esp = 0x2fffec#32 := hesp
    rw [hreg]
    exact if_neg (by bv_omega)
  exact ⟨_, e, _, hdone, heip, hfinished, hback _ _ hfinished (exampleDone_installed hinst e)⟩

-- ---------------------------------------------------------------------------
-- Data segments in handlers
-- ---------------------------------------------------------------------------

/-- What `isr_common_x86` and `isr_syscall_stage2` load into the data segment registers: the
index of the segment, where a selector belongs. -/
def isrDataSel : BitVec 16 := BitVec.ofNat 16 KSEG_KERNEL_DATA

/-- The first part of the two functions. -/
def isrEnter (c : Cpu) : X86.Outcome := (movToSeg c .es isrDataSel).bind fun c => movToSeg c .ds isrDataSel

/-- The two functions around what they call, for the previous segments `ds` and `es`. -/
def isrCommonX86 (dispatch : Cpu → Cpu) (c : Cpu) : X86.Outcome :=
  ((isrEnter c).bind fun c' => movToSeg (dispatch c') .es c.es).bind fun c' => movToSeg c' .ds c.ds

/-- What can be in a data segment register when a handler is entered: what it was for the
program, at boot, or in another handler. -/
def DATA_SELECTORS : List (BitVec 16) := [SEL_UDATA, SEL_KDATA, isrDataSel]

theorem Installed.movToSeg_data (h : Installed I kstack c) (hcpl : c.cpl = PL_KERNEL) (seg : DataSeg)
    {sel : BitVec 16} (hsel : sel ∈ DATA_SELECTORS) : movToSeg c seg sel = .done (c.setSeg seg sel) := by
  have hlow : ∀ level : BitVec 2, c.cpl ≤ level := by
    rw [hcpl]
    decide
  simp only [DATA_SELECTORS, List.mem_cons, List.not_mem_nil, or_false] at hsel
  rcases hsel with rfl | rfl | rfl
  · exact movToSeg_stack seg h.userData userData_at (hlow _) (by decide)
  · exact movToSeg_stack seg h.kernelData kernelData_at (hlow _) (by decide)
  · exact if_pos (by decide)

/-- **Handlers run with null data segments.** In whatever handler, nested or not: while the
kernel handles the event both data segment registers hold a null selector, with which no
segment can be accessed, and not the selector of the kernel's data segment. No load of a
segment register fails, and the handler returns with the segments that it was entered with,
whatever the kernel has done in between. -/
theorem isrCommonX86_segments (h : Installed I kstack c) (hcpl : c.cpl = PL_KERNEL)
    (hds : c.ds ∈ DATA_SELECTORS) (hes : c.es ∈ DATA_SELECTORS) :
    ∃ e, isrEnter c = .done e ∧ e.ds ≠ SEL_KDATA ∧ e.descriptor e.ds = none ∧ e.descriptor e.es = none ∧
      e.ds ∈ DATA_SELECTORS ∧ e.es ∈ DATA_SELECTORS ∧
      ∀ (kstack' : Addr) (dispatch : Cpu → Cpu), Installed I kstack' (dispatch e) →
        (dispatch e).cpl = PL_KERNEL →
        isrCommonX86 dispatch c = .done { dispatch e with ds := c.ds, es := c.es } := by
  have hnull : isrDataSel ∈ DATA_SELECTORS := by decide
  have hnone : ∀ e : Cpu, e.descriptor isrDataSel = none := fun e => if_pos (.inr (by decide))
  have hes' := h.movToSeg_data hcpl .es hnull
  have hinst : Installed I kstack (c.setSeg .es isrDataSel) := ⟨h.gdtr, h.idtr, h.tss, h.tables⟩
  have hds' := hinst.movToSeg_data hcpl .ds hnull
  set e := (c.setSeg .es isrDataSel).setSeg .ds isrDataSel with he
  have henter : isrEnter c = .done e := by
    rw [isrEnter, hes']
    exact hds'
  refine ⟨e, henter, (by decide : isrDataSel ≠ SEL_KDATA), hnone e, hnone e, hnull, hnull,
    fun kstack' dispatch hinst' hcpl' => ?_⟩
  have hback := hinst'.movToSeg_data hcpl' .es hes
  have hinst'' : Installed I kstack' ((dispatch e).setSeg .es c.es) :=
    ⟨hinst'.gdtr, hinst'.idtr, hinst'.tss, hinst'.tables⟩
  have hback' := hinst''.movToSeg_data hcpl' .ds hds
  rw [isrCommonX86, henter]
  simp only [X86.Outcome.bind, hback]
  exact hback'

/-- A handler that was entered from user code, for a dispatcher that does nothing. -/
theorem isrCommonX86_segments_user :
    ∃ c e, c.ds = SEL_UDATA ∧ isrEnter c = .done e ∧ e.descriptor e.ds = none ∧
      isrCommonX86 id c = .done { e with ds := c.ds, es := c.es } := by
  set c : Cpu := { exampleUser exampleMem 0x10000#32 0x2fffec#32 with cs := SEL_KCODE, ss := SEL_KDATA } with hc
  have hinst : Installed exampleImage 0x300000#32 c := ⟨rfl, rfl, rfl, exampleMem_tables⟩
  have hkernel : selRpl SEL_KCODE = PL_KERNEL := by decide
  have hdata : SEL_UDATA ∈ DATA_SELECTORS := by decide
  obtain ⟨e, henter, -, hnone, -, -, -, hback⟩ := isrCommonX86_segments hinst hkernel hdata hdata
  obtain ⟨e', henter', hinst', hkernel'⟩ : ∃ e', isrEnter c = .done e' ∧ Installed exampleImage 0x300000#32 e' ∧
      e'.cpl = PL_KERNEL :=
    ⟨(c.setSeg .es isrDataSel).setSeg .ds isrDataSel, rfl, ⟨rfl, rfl, rfl, exampleMem_tables⟩, hkernel⟩
  have heq : e' = e := X86.Outcome.done.inj (henter'.symm.trans henter)
  subst heq
  exact ⟨c, e', rfl, henter, hnone, hback 0x300000#32 id hinst' hkernel'⟩

end Munix
