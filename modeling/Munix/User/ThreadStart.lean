import Munix.Kernel.ProcessArgs
import Munix.Kernel.SyscallDispatch
import Munix.User.Syscall

/-!
# Munix — the start of programs and threads

Where user code begins, on the machine of `Munix.Lib.X86Machine`: the inline assembly of
`cpu_user_start`, the creation of a thread by `syscall_thrd_create_munix` and its
first and last instructions in `_thread_start_munix`, and `_start` of `crt0.S`.

* `cpuUserStart_runs` — the return from the fake interrupt.
* `thread_lives` — from the call of the wrapper to the function of the new thread, and
  from its return to `thread_exit`.
* `program_lives` — from `cpu_user_start` to `main`, `_exit` and the end.
-/

namespace Munix

open ByteMem X86

variable {I : GateImage} {M : Machine} {kstack kstack' : Addr} {c d e k s u : Cpu}

-- ---------------------------------------------------------------------------
-- cpu_user_start
-- ---------------------------------------------------------------------------

/-- The assembly of `cpu_user_start`, in the registers that the compiler has chosen. -/
def cpuUserStartOps (udata frame : Reg) : List Op :=
  [.movToSeg .ds udata, .movToSeg .es udata, .mov .esp frame, .iret]

/-- `struct x86_intr_frame` of `cpu_user_start`: interrupts are enabled in user code. -/
def userFrame (startAddr ustackAddr : Addr) : List (BitVec 32) :=
  [startAddr, SEL_UCODE.setWidth 32, FLAG_IF, ustackAddr, SEL_UDATA.setWidth 32]

/-- `cpu_user_start(start_addr, ustack_addr)` is at its assembly. -/
structure UserStart (M : Machine) (startAddr ustackAddr : Addr) (k : Cpu) : Prop where
  code   : ∃ udata frame, M.Has k.eip (cpuUserStartOps udata frame) ∧
    (k.reg udata).setWidth 16 = SEL_UDATA ∧ OnStack k.mem (k.reg frame) (userFrame startAddr ustackAddr)
  kernel : k.cpl = PL_KERNEL
  nt     : k.eflags &&& FLAG_NT = 0#32

theorem Machine.allows_kernel (op : Op) (h : c.cpl = PL_KERNEL) : M.allows op c = true := by
  simp [Machine.allows, h, PL_KERNEL]

/-- **Into user code.** The return from the fake interrupt starts the program or thread at its
start address, on its own stack, with interrupts enabled. -/
theorem cpuUserStart_runs {startAddr ustackAddr : Addr} (h : Installed I kstack k)
    (hk : UserStart M startAddr ustackAddr k) :
    ∃ s, M.Runs k s ∧ s.eip = startAddr ∧ s.reg .esp = ustackAddr ∧ UserSegs s ∧ s.eflags = FLAG_IF ∧
      s.mem = k.mem ∧ Installed I kstack s ∧ ∀ r, r ≠ .esp → s.reg r = k.reg r := by
  obtain ⟨udata, frame, ⟨hds, hes, hmov, hiret, -⟩, hudata, hframe⟩ := hk.code
  have hkernel := hk.kernel
  have hrpl : selRpl SEL_UDATA ≤ PL_USER := by decide
  have hlevel : PL_KERNEL ≤ PL_USER := by decide
  -- the data segments
  set k₁ := (M.next (.movToSeg .ds udata) k).setSeg .ds SEL_UDATA with hk₁
  have hinst₁ : Installed I kstack (M.next (.movToSeg .ds udata) k) := ⟨h.gdtr, h.idtr, h.tss, h.tables⟩
  have hle₁ : (M.next (.movToSeg .ds udata) k).cpl ≤ PL_USER := hkernel ▸ hlevel
  have hstep₁ : M.step k = some k₁ := by
    refine Machine.step_movToSeg hds (Machine.allows_kernel _ hkernel) ?_
    rw [hudata]
    exact movToSeg_stack .ds hinst₁.userData userData_at hle₁ hrpl
  set k₂ := (M.next (.movToSeg .es udata) k₁).setSeg .es SEL_UDATA with hk₂
  have hinst₂ : Installed I kstack (M.next (.movToSeg .es udata) k₁) := ⟨h.gdtr, h.idtr, h.tss, h.tables⟩
  have hle₂ : (M.next (.movToSeg .es udata) k₁).cpl ≤ PL_USER := hle₁
  have hstep₂ : M.step k₁ = some k₂ := by
    have hsel : (k₁.reg udata).setWidth 16 = SEL_UDATA := hudata
    refine Machine.step_movToSeg hes (Machine.allows_kernel _ hkernel) ?_
    rw [hsel]
    exact movToSeg_stack .es hinst₂.userData userData_at hle₂ hrpl
  -- the stack pointer
  set k₃ := M.exec (.mov .esp frame) (M.next (.mov .esp frame) k₂) with hk₃
  have hstep₃ : M.step k₂ = some k₃ := Machine.step_exec hmov (Machine.allows_kernel _ hkernel) rfl
  have hesp₃ : k₃.reg .esp = k.reg frame := by
    simp [hk₃, Machine.exec, Machine.next, Cpu.withState]
    rfl
  have hreg₃ : ∀ r, r ≠ .esp → k₃.reg r = k.reg r := by
    intro r hr
    simp [hk₃, Machine.exec, Machine.next, Cpu.withState, hr]
    rfl
  -- the return
  have hinst₃ : Installed I kstack k₃ := ⟨h.gdtr, h.idtr, h.tss, h.tables⟩
  have hframe₃ : OnStack k₃.mem (k₃.reg .esp) (userFrame startAddr ustackAddr) := by
    rw [hesp₃]
    exact hframe
  have hcpl₃ : k₃.cpl < PL_USER := by
    rw [show k₃.cpl = PL_KERNEL from hkernel]
    decide
  have hiret₃ := iret_outer hframe₃ hk.nt (by decide) hinst₃.userCode userCode_at rfl hcpl₃ hinst₃.userData
    userData_at rfl
  have hseg : ∀ sel, sel = SEL_UDATA → k₃.dataSegAfter PL_USER sel = SEL_UDATA := by
    rintro sel rfl
    rw [Cpu.dataSegAfter, hinst₃.userData]
    rfl
  have hkernel₃ : k₃.cpl = PL_KERNEL := hkernel
  have hcode₃ : M.instr k₃.eip = some .iret := hiret
  have hstep₄ := Machine.step_iret hcode₃ (Machine.allows_kernel _ hkernel₃) hiret₃
  have hflags : iretFlags k₃.cpl k₃.eflags FLAG_IF = FLAG_IF := by
    rw [show k₃.cpl = 0#2 from hkernel, iretFlags_zero]
  have hruns : M.Runs k k₃ := .head hstep₁ (.head hstep₂ (.head hstep₃ .refl))
  refine ⟨_, hruns.tail hstep₄, rfl, ?_, ?_, hflags, rfl, ⟨h.gdtr, h.idtr, h.tss, h.tables⟩, fun r hr => ?_⟩
  · simp
  · refine ⟨rfl, rfl, hseg _ rfl, hseg _ rfl, ?_⟩
    change iretFlags k₃.cpl k₃.eflags FLAG_IF &&& FLAG_VM = 0#32
    rw [hflags]
    decide
  · simp [hr, hreg₃ r hr]

/-- The kernel at the assembly of `cpu_user_start`, with its local variables in `EAX` and `ECX`. -/
def exampleKernel (mem : Mem) (startAddr ustackAddr : Addr) : Cpu where
  reg r  := if r = .eax then SEL_UDATA.setWidth 32 else if r = .ecx then 0x2ffeec#32 else 0#32
  eip    := 0x100000#32
  mem    := (pushAll mem 0x2fff00#32 (userFrame startAddr ustackAddr).reverse).1
  eflags := 2#32
  cs     := SEL_KCODE
  ss     := SEL_KDATA
  ds     := SEL_KDATA
  es     := SEL_KDATA
  gdtr   := ⟨0x1000#32, 48#16⟩
  idtr   := ⟨0x2000#32, 512#16⟩
  tss    := 0x3000#32

theorem exampleKernel_sameOutside (mem : Mem) (startAddr ustackAddr : Addr) :
    SameOutside mem (exampleKernel mem startAddr ustackAddr).mem 0x2ffeec 0x2fff00 :=
  pushAll_sameOutside mem (by decide : 4 * 5 ≤ (0x2fff00#32).toNat)

theorem exampleKernel_start {code : List (Addr × List Op)}
    (h : (exampleMachine code).Has 0x100000#32 (cpuUserStartOps .eax .ecx)) (mem : Mem)
    (startAddr ustackAddr : Addr) :
    UserStart (exampleMachine code) startAddr ustackAddr (exampleKernel mem startAddr ustackAddr) where
  code   := by
    have hnil : OnStack mem 0x2fff00#32 [] := trivial
    have hframe := hnil.pushAll (userFrame startAddr ustackAddr).reverse (by decide : 4 * (0 + 5) ≤ 2 ^ 32)
    rw [List.reverse_reverse, List.append_nil] at hframe
    exact ⟨.eax, .ecx, h, (by decide : (SEL_UDATA.setWidth 32).setWidth 16 = SEL_UDATA), hframe⟩
  kernel := (by decide : selRpl SEL_KCODE = PL_KERNEL)
  nt     := (by decide : 2#32 &&& FLAG_NT = 0#32)

theorem exampleKernel_installed {mem : Mem} (h : TablesIn exampleImage 0x300000#32 mem)
    (startAddr ustackAddr : Addr) : Installed exampleImage 0x300000#32 (exampleKernel mem startAddr ustackAddr) := by
  have hs := exampleKernel_sameOutside mem startAddr ustackAddr
  refine ⟨rfl, rfl, rfl, ⟨h.gdt.frame hs (by decide) (.inr (by decide)),
    h.idt.frame hs (by decide) (.inr (by decide))⟩, ?_, ?_⟩
  · rw [← h.esp0]
    refine load32_congr fun i hi => hs _ ?_
    have hbase : exampleImage.kernelTss = 0x3000#32 := rfl
    bv_omega
  · rw [← h.ss0]
    refine congrArg _ (load32_congr fun i hi => hs _ ?_)
    have hbase : exampleImage.kernelTss = 0x3000#32 := rfl
    bv_omega

-- ---------------------------------------------------------------------------
-- syscall_thrd_create_munix
-- ---------------------------------------------------------------------------

/-- `PUSH_TO %ecx, off(%ebp)`. -/
def pushToOps (off : BitVec 32) : List Op :=
  [.sub .ecx 4#32, .plain (.load .eax .ebp off), .plain (.store .eax .ecx 0#32)]

/-- `syscall_thrd_create_munix` before its `int`. -/
def thrdCreateHead (threadStart : Addr) : List Op :=
  [.push .ebp, .mov .ebp .esp, .push .ebx, .push .esi, .push .edi,
    .plain (.load .ecx .ebp 12#32), .and .ecx (~~~3#32)] ++
  pushToOps 16#32 ++ pushToOps 8#32 ++
  [.plain (.imm .eax SYS_thrd_create), .plain (.imm .ebx threadStart)]

def thrdCreateOps (threadStart : Addr) : List Op :=
  thrdCreateHead threadStart ++ .int IVEC_SYSCALL :: (restoreOps ++ [.plain .ret])

/-- `_thread_start_munix` before and after its call of the thread function. -/
def threadStartHead : List Op := [.plain (.imm .ebp 0#32), .pop .eax]
def threadStartTail : List Op :=
  [.add .esp 4#32, .mov .ebx .eax, .plain (.imm .eax SYS_thrd_exit)]

def threadStartOps : List Op :=
  threadStartHead ++ .callReg .eax :: (threadStartTail ++ [.int IVEC_SYSCALL, .hlt])

/-- The two functions lie in the pages of a program. -/
structure ThreadCode (M : Machine) where
  thrdCreate   : Addr
  threadStart  : Addr
  create_at    : M.Has thrdCreate (thrdCreateOps threadStart)
  create_pages : M.InPages thrdCreate (thrdCreateOps threadStart)
  start_at     : M.Has threadStart threadStartOps
  start_pages  : M.InPages threadStart threadStartOps

/-- The stack pointer that a new thread starts with, for the end of its stack. -/
def childSp (stack : Addr) : Addr := (stack &&& ~~~3#32) - 4#32 - 4#32

theorem thrdCreateHead_straight (a : Addr) : ∀ op ∈ thrdCreateHead a, op.isStraight = true := by
  have hall : (thrdCreateHead a).all (·.isStraight) = true := rfl
  exact List.all_eq_true.mp hall

/-- The two words of a new thread are not among the words of the stack from `b` on. -/
structure ChildApart (sp b : Addr) : Prop where
  after  : 36 ≤ (sp - b).toNat
  before : (sp - b).toNat + 8 ≤ 2 ^ 32

theorem ChildApart.outside {sp b : Addr} (h : ChildApart sp b) (m : Mem) (v w : BitVec 32) {i : Nat}
    (hi : i < 36) : store32 (store32 m (sp + 4#32) v) sp w (b + BitVec.ofNat 32 i) = m (b + BitVec.ofNat 32 i) := by
  obtain ⟨hafter, hbefore⟩ := h
  have hi' : (BitVec.ofNat 32 i).toNat = i := by
    rw [BitVec.toNat_ofNat]
    omega
  have hsp : b + BitVec.ofNat 32 i - sp = BitVec.ofNat 32 i - (sp - b) := by bv_omega
  have hsp' : b + BitVec.ofNat 32 i - (sp + 4#32) = BitVec.ofNat 32 i - (sp - b) - 4#32 := by bv_omega
  have h1 : 4 ≤ (b + BitVec.ofNat 32 i - sp).toNat := by
    rw [hsp]
    generalize sp - b = dist at hafter hbefore
    generalize BitVec.ofNat 32 i = off at hi'
    bv_omega
  have h2 : 4 ≤ (b + BitVec.ofNat 32 i - (sp + 4#32)).toNat := by
    rw [hsp']
    generalize sp - b = dist at hafter hbefore
    generalize BitVec.ofNat 32 i = off at hi'
    bv_omega
  rw [store32_outside h1, store32_outside h2]

/-- The state at the `int`: function and argument are on the stack of the new thread. -/
theorem execAll_thrdCreateHead (a : Addr) {fn stack arg ret : BitVec 32}
    (hargs : OnStack c.mem (c.reg .esp) [ret, fn, stack, arg])
    (hapart : ChildApart (childSp stack) (c.reg .esp - 16#32)) :
    ∃ p, M.execAll (thrdCreateHead a) c = p ∧ p.reg .esp = c.reg .esp - 16#32 ∧
      p.mem = store32 (store32 (savedMem c) (childSp stack + 4#32) arg) (childSp stack) fn ∧
      syscallArgs p = [SYS_thrd_create, a, childSp stack, c.reg .edx, c.reg .esi, c.reg .edi] ∧
      (∀ g, FLAGS_STATUS &&& g = 0#32 → p.eflags &&& g = c.eflags &&& g) ∧
      p.cs = c.cs ∧ p.ss = c.ss ∧ p.ds = c.ds ∧ p.es = c.es ∧ p.gdtr = c.gdtr ∧ p.idtr = c.idtr ∧
      p.tss = c.tss := by
  obtain ⟨-, hfn, hstack, harg, -⟩ := hargs
  have h12 : load32 (savedMem c) (c.reg .esp - 4#32 + 12#32) = stack :=
    (load32_savedMem c (by bv_omega) (by bv_omega)).trans hstack
  have h16 : load32 (savedMem c) (c.reg .esp - 4#32 + 16#32) = arg :=
    (load32_savedMem c (by bv_omega) (by bv_omega)).trans harg
  have hsp : (stack &&& ~~~3#32) - 4#32 = childSp stack + 4#32 := (BitVec.sub_add_cancel ..).symm
  have h8 : load32 (store32 (savedMem c) ((stack &&& ~~~3#32) - 4#32) arg) (c.reg .esp - 4#32 + 8#32) = fn := by
    have hat : c.reg .esp - 4#32 + 8#32 = c.reg .esp + 4#32 := by bv_omega
    obtain ⟨hafter, hbefore⟩ := hapart
    have hdist : c.reg .esp + 4#32 - (childSp stack + 4#32) =
        16#32 - (childSp stack - (c.reg .esp - 16#32)) := by bv_omega
    generalize childSp stack - (c.reg .esp - 16#32) = dist at hafter hbefore hdist
    rw [hat, hsp, load32_store32_disjoint (by rw [hdist]; bv_omega) (by rw [hdist]; bv_omega), ← hfn]
    exact load32_savedMem c rfl (by bv_omega)
  refine ⟨_, rfl, ?_, ?_, ?_, ?_, ?_⟩
  · simp only [thrdCreateHead, pushToOps, List.cons_append, List.nil_append, Machine.execAll, Machine.exec,
      Machine.arith, Machine.next, Cpu.push, Cpu.withState, Instr.exec]
    simp
    bv_omega
  · simp only [thrdCreateHead, pushToOps, List.cons_append, List.nil_append, Machine.execAll, Machine.exec,
      Machine.arith, Machine.next, Cpu.push, Cpu.withState, Instr.exec]
    simp [-BitVec.reduceNot, ← savedMem_eq, h12, h16, h8]
    rw [hsp, BitVec.add_sub_cancel]
  · simp only [thrdCreateHead, pushToOps, syscallArgs, List.cons_append, List.nil_append, Machine.execAll,
      Machine.exec, Machine.arith, Machine.next, Cpu.push, Cpu.withState, Instr.exec]
    simp [-BitVec.reduceNot, ← savedMem_eq, h12, childSp]
  · intro g hg
    simp only [thrdCreateHead, pushToOps, List.cons_append, List.nil_append, Machine.execAll, Machine.exec,
      Machine.arith, Machine.next, Cpu.push, Cpu.withState, Instr.exec]
    rw [and_of_apart hg, and_of_apart hg, and_of_apart hg]
  · simp [thrdCreateHead, pushToOps, Machine.execAll, Machine.exec, Machine.arith, Machine.next, Cpu.push,
      Cpu.withState]

theorem thrdCreateHead_permits (a : Addr) {fn stack arg ret : BitVec 32}
    (hargs : OnStack c.mem (c.reg .esp) [ret, fn, stack, arg]) (hw : M.Writable (c.reg .esp - 16#32) 32)
    (hchild : M.Writable (childSp stack) 8) : M.PermitsAll (thrdCreateHead a) c := by
  have h12 : load32 (savedMem c) (c.reg .esp - 4#32 + 12#32) = stack :=
    (load32_savedMem c (by bv_omega) (by bv_omega)).trans hargs.2.2.1
  have hsp : (stack &&& ~~~3#32) - 4#32 = childSp stack + 4#32 := (BitVec.sub_add_cancel ..).symm
  simp only [thrdCreateHead, pushToOps, List.cons_append, List.nil_append, Machine.PermitsAll, Op.accesses,
    Machine.exec, Machine.arith, Machine.next, Cpu.push, Cpu.withState, Instr.exec]
  simp [-BitVec.reduceNot, ← savedMem_eq, h12]
  rw [hsp, BitVec.add_sub_cancel]
  refine ⟨?_, ?_, ?_, ?_, ?_, ?_, ?_, ?_, ?_⟩
  case refine_7 => exact hchild.permits _ (by bv_omega) (by decide)
  case refine_9 => exact hchild.permits _ (by bv_omega) (by decide)
  all_goals exact hw.permits _ (by bv_omega) (by decide)

/-- A call of `syscall_thrd_create_munix(fn, stack, arg)` in user code, with pages for its own
frame and for two words below the end of the new stack, which lies elsewhere. -/
structure ThrdCreateCall (T : ThreadCode M) (fn stack arg ret : BitVec 32) (c : Cpu) : Prop where
  eip   : c.eip = T.thrdCreate
  args  : OnStack c.mem (c.reg .esp) [ret, fn, stack, arg]
  frame : M.Writable (c.reg .esp - 16#32) 32
  child : M.Writable (childSp stack) 8
  apart : ChildApart (childSp stack) (c.reg .esp - 16#32)

/-- The call up to its system call, and from there to its return. -/
theorem thrdCreate_returns (K : EntryCode I M) (T : ThreadCode M) (hhidden : KernelHidden M)
    (hk : KstackFits kstack) (h : Installed I kstack c) (hsegs : UserSegs c) {fn stack arg ret : BitVec 32}
    (hc : ThrdCreateCall T fn stack arg ret c) :
    ∃ e, M.Runs c e ∧ e.eip = K.isrSyscallStage2 ∧ e.cpl = PL_KERNEL ∧
      OnStack e.mem (e.reg .esp) [K.retAddr, SYS_thrd_create, T.threadStart, childSp stack] ∧
      OnStack e.mem (childSp stack) [fn, arg] ∧
      ∀ u, Stage2Returned I kstack (c.reg .esp - 16#32) 20 e u →
        ∃ d, M.Runs u d ∧ c.Returned d ∧ d.reg .eax = u.reg .eax ∧ d.mem = u.mem := by
  have hw := hc.frame
  obtain ⟨p, hp, hpesp, hpmem, hargs, hpflags, hcs, hss, hds, hes, hgdtr, hidtr, htss⟩ :=
    execAll_thrdCreateHead (M := M) T.threadStart hc.args hc.apart
  -- up to the `int`
  have hcode := T.create_at
  have hin := T.create_pages
  rw [← hc.eip] at hcode hin
  obtain ⟨hinHead, hinInt, hinTail⟩ := Machine.inPages_append hin
  obtain ⟨hruns, hpeip, hint, htail⟩ := Machine.runs_execAll (thrdCreateHead_straight _) hcode
    (Machine.allowsAll_of_pages (thrdCreateHead_straight _) hinHead
      (thrdCreateHead_permits _ hc.args hw hc.child))
  rw [hp] at hruns hpeip hint htail
  have hpsegs : UserSegs p := by
    refine ⟨hcs.trans hsegs.cs, hss.trans hsegs.ss, hds.trans hsegs.ds, hes.trans hsegs.es, ?_⟩
    rw [hpflags _ (by decide)]
    exact hsegs.vm
  have hbot : KMAP_MAX ≤ c.reg .esp - 16#32 := hhidden.above hw (by bv_omega)
  have htop : KMAP_MAX ≤ c.reg .esp := hhidden.above hw (by bv_omega)
  have hchild : ∀ x : Addr, (x - childSp stack).toNat < 8 → KMAP_MAX ≤ x := fun x hx =>
    hhidden.above hc.child hx
  have hkmap : KMAP_MAX.toNat = 0x400000 := rfl
  have hlow : ∀ a, a < KMAP_MAX → p.mem a = c.mem a := by
    intro a ha
    have hfar : 8 ≤ (a - childSp stack).toNat := by
      by_contra hlt
      exact absurd ha (BitVec.not_lt.mpr (hchild a (Nat.lt_of_not_le hlt)))
    rw [hpmem, store32_outside (by bv_omega), store32_outside (by bv_omega)]
    refine pushAll_sameOutside c.mem ?_ a ?_ <;> simp only [List.length_cons, List.length_nil] <;> bv_omega
  have hpinst : Installed I kstack p :=
    ⟨hgdtr.trans h.gdtr, hidtr.trans h.idtr, htss.trans h.tss, h.tables.congr hlow⟩
  rw [← hpeip] at hinInt hinTail
  -- the kernel
  set q := M.next (.int IVEC_SYSCALL) p with hq
  have hqinst : Installed I kstack q := ⟨hpinst.gdtr, hpinst.idtr, hpinst.tss, hpinst.tables⟩
  have hqsegs : UserSegs q := ⟨hpsegs.cs, hpsegs.ss, hpsegs.ds, hpsegs.es, hpsegs.vm⟩
  have henters : M.Runs p (K.stage2 kstack q) := K.enters hpinst hpsegs.cpl hint hinInt
  have hstack : OnStack (K.stage2 kstack q).mem ((K.stage2 kstack q).reg .esp) (K.words q) :=
    kernelState_onStack q kstack _ (by simp [EntryCode.words, syscallArgs, entryWords])
  have hframe : OnStack q.mem (c.reg .esp - 16#32) [c.reg .edi, c.reg .esi, c.reg .ebx, c.reg .ebp, ret] := by
    have hret : OnStack c.mem (c.reg .esp) [ret] := ⟨hc.args.1, trivial⟩
    have hall := hret.pushAll [c.reg .ebp, c.reg .ebx, c.reg .esi, c.reg .edi] (by simp)
    rw [pushAll_sp] at hall
    refine OnStack.congr (m := savedMem c) hall fun i hi => ?_
    have hmem : q.mem = p.mem := rfl
    rw [hmem, hpmem]
    exact hc.apart.outside _ _ _ (by simp only [List.length_cons, List.length_nil] at hi; omega)
  have hchildWords : OnStack q.mem (childSp stack) [fn, arg] := by
    have hmem : q.mem = p.mem := rfl
    rw [hmem, hpmem]
    refine ⟨load32_store32_same .., ?_, trivial⟩
    rw [load32_store32_disjoint (by bv_omega) (by bv_omega), load32_store32_same]
  refine ⟨_, hruns.trans henters, rfl, (kernelState_kernel ..).1, ?_, ?_, fun u hu => ?_⟩
  · have hargs' : syscallArgs q = _ := hargs
    rw [EntryCode.words, hargs'] at hstack
    exact @OnStack.left _ _ _ [K.retAddr, SYS_thrd_create, T.threadStart, childSp stack] hstack
  · refine hchildWords.congr fun i hi => K.stage2_mem hk q (hchild _ ?_)
    simp only [List.length_cons, List.length_nil] at hi
    have hoff : childSp stack + BitVec.ofNat 32 i - childSp stack = BitVec.ofNat 32 i := by
      rw [BitVec.add_comm, BitVec.add_sub_cancel]
    rw [hoff, BitVec.toNat_ofNat]
    omega
  -- from the `int` on
  have hback := K.returnsTo hqinst hqsegs hu
  set r := afterSyscall q u with hr
  have hresp : r.reg .esp = c.reg .esp - 16#32 := hpesp
  have hrstack : OnStack r.mem (r.reg .esp) [c.reg .edi, c.reg .esi, c.reg .ebx, c.reg .ebp, ret] := by
    rw [hresp]
    exact hu.onStack hk hhidden (hw.mono (by bv_omega)) hframe (by simp)
  obtain ⟨d, hd, hdeip, hdesp, hdeax, hdebx, hdesi, hdedi, hdebp, hdmem, -, hdcs, hdss, hdds, hdes⟩ :=
    runs_restore htail hinTail (hw.mono (by rw [hresp]; bv_omega)) hrstack
  refine ⟨d, hback.trans hd, ⟨hdeip.trans hc.args.1.symm, ?_, hdebx, hdesi, hdedi, hdebp, hdcs.trans hcs,
    hdss.trans hss, hdds.trans hds, hdes.trans hes⟩, hdeax, hdmem⟩
  rw [hdesp, hresp]
  bv_omega

-- ---------------------------------------------------------------------------
-- _thread_start_munix
-- ---------------------------------------------------------------------------

theorem threadStartHead_straight : ∀ op ∈ threadStartHead, op.isStraight = true := by decide

theorem threadStartTail_straight : ∀ op ∈ threadStartTail, op.isStraight = true := by decide

/-- The thread function is called with the argument. -/
theorem threadStart_calls (T : ThreadCode M) {fn arg : BitVec 32} (hsegs : UserSegs s)
    (heip : s.eip = T.threadStart) (hw : M.Writable (s.reg .esp) 8)
    (hargs : OnStack s.mem (s.reg .esp) [fn, arg]) :
    ∃ f ret, M.Runs s f ∧ f.eip = fn ∧ f.reg .esp = s.reg .esp ∧ OnStack f.mem (f.reg .esp) [ret, arg] ∧
      f.reg .ebp = 0#32 ∧ f.eflags = s.eflags ∧ UserSegs f ∧
      M.Has ret (threadStartTail ++ [.int IVEC_SYSCALL, .hlt]) ∧
      M.InPages ret (threadStartTail ++ [.int IVEC_SYSCALL, .hlt]) := by
  obtain ⟨hfn, harg, -⟩ := hargs
  have hcode := T.start_at
  have hin := T.start_pages
  rw [← heip] at hcode hin
  obtain ⟨hinHead, hinCall, hinTail⟩ := Machine.inPages_append hin
  have hpermits : M.PermitsAll threadStartHead s := by
    simp only [threadStartHead, Machine.PermitsAll, Op.accesses, Machine.exec, Machine.next, Cpu.withState,
      Instr.exec]
    simp
    exact hw.permits _ (by bv_omega) (by decide)
  obtain ⟨hruns, hpeip, hcall, htail⟩ := Machine.runs_execAll threadStartHead_straight hcode
    (Machine.allowsAll_of_pages threadStartHead_straight hinHead hpermits)
  set p := M.execAll threadStartHead s with hp
  have hpesp : p.reg .esp = s.reg .esp + 4#32 := by
    simp [hp, threadStartHead, Machine.execAll, Machine.exec, Machine.next, Cpu.withState, Instr.exec]
  have hpeax : p.reg .eax = fn := by
    simp [hp, threadStartHead, Machine.execAll, Machine.exec, Machine.next, Cpu.withState, Instr.exec, hfn]
  have hpebp : p.reg .ebp = 0#32 := by
    simp [hp, threadStartHead, Machine.execAll, Machine.exec, Machine.next, Cpu.withState, Instr.exec]
  rw [← hpeip] at hinCall hinTail
  have hsp : p.reg .esp - 4#32 = s.reg .esp := by rw [hpesp, BitVec.add_sub_cancel]
  have hallow : M.allows (.callReg .eax) p = true := by
    have hword : M.permits (p.reg .esp - 4#32, true) = true :=
      hw.permits _ (by rw [hsp]; bv_omega) (by decide)
    simp [Machine.allows, hinCall, Op.accesses, hword]
  have hstep := Machine.step_exec hcall hallow rfl
  set f := M.exec (.callReg .eax) (M.next (.callReg .eax) p) with hf
  have hfmem : f.mem = store32 s.mem (s.reg .esp) (p.eip + M.size (.callReg .eax)) := by
    rw [← hsp]
    rfl
  have hfesp : f.reg .esp = s.reg .esp := by
    rw [← hsp]
    simp [hf, Machine.exec, Machine.next, Cpu.push, Cpu.withState]
  refine ⟨f, p.eip + M.size (.callReg .eax), hruns.tail hstep, ?_, hfesp, ?_, ?_, rfl,
    ⟨hsegs.cs, hsegs.ss, hsegs.ds, hsegs.es, hsegs.vm⟩, htail, hinTail⟩
  · rw [← hpeax]
    simp [hf, Machine.exec, Machine.next, Cpu.push, Cpu.withState]
  · rw [hfesp, hfmem]
    refine ⟨load32_store32_same .., ?_, trivial⟩
    rw [load32_store32_disjoint (by bv_omega) (by bv_omega), harg]
  · rw [← hpebp]
    simp [hf, Machine.exec, Machine.next, Cpu.push, Cpu.withState]

/-- The result of the thread function is the status that the thread exits with. -/
theorem threadStart_exits (K : EntryCode I M) (hu : Installed I kstack u) (hsegs : UserSegs u)
    (hcode : M.Has u.eip (threadStartTail ++ [.int IVEC_SYSCALL, .hlt]))
    (hin : M.InPages u.eip (threadStartTail ++ [.int IVEC_SYSCALL, .hlt])) :
    ∃ e, M.Runs u e ∧ e.eip = K.isrSyscallStage2 ∧ e.cpl = PL_KERNEL ∧
      OnStack e.mem (e.reg .esp) [K.retAddr, SYS_thrd_exit, u.reg .eax] := by
  obtain ⟨hinTail, hinInt, -⟩ := Machine.inPages_append hin
  have hpermits : M.PermitsAll threadStartTail u := by
    simp [threadStartTail, Machine.PermitsAll, Op.accesses]
  obtain ⟨hruns, heip, hint, -⟩ := Machine.runs_execAll threadStartTail_straight hcode
    (Machine.allowsAll_of_pages threadStartTail_straight hinTail hpermits)
  set p := M.execAll threadStartTail u with hp
  rw [← heip] at hinInt
  have hpinst : Installed I kstack p := ⟨hu.gdtr, hu.idtr, hu.tss, hu.tables⟩
  have hpcpl : p.cpl = PL_USER := hsegs.cpl
  set q := M.next (.int IVEC_SYSCALL) p with hq
  have hargs : syscallArgs q = SYS_thrd_exit :: u.reg .eax :: (syscallArgs q).drop 2 := by
    simp [syscallArgs, hq, hp, threadStartTail, Machine.execAll, Machine.exec, Machine.arith, Machine.next,
      Cpu.withState, Instr.exec]
  have hstack : OnStack (K.stage2 kstack q).mem ((K.stage2 kstack q).reg .esp) (K.words q) :=
    kernelState_onStack q kstack _ (by simp [EntryCode.words, syscallArgs, entryWords])
  refine ⟨_, hruns.trans (K.enters hpinst hpcpl hint hinInt), rfl, (kernelState_kernel ..).1, ?_⟩
  rw [EntryCode.words, hargs] at hstack
  exact @OnStack.left _ _ _ [K.retAddr, SYS_thrd_exit, u.reg .eax] hstack

/-- **The life of a thread.** A call of `syscall_thrd_create_munix(fn, stack, arg)` is a system
call `thrd_create` with the address of `_thread_start_munix` and a stack pointer below the end
of `stack`, and returns to its caller with the result of the kernel. When the kernel starts a
thread with this address and this stack pointer, and the two words there have not changed,
`fn(arg)` is called in user mode with interrupts enabled; and when it returns, its result is the
argument of the system call `thrd_exit`. -/
theorem thread_lives (K : EntryCode I M) (T : ThreadCode M) (hhidden : KernelHidden M)
    (hk : KstackFits kstack) (h : Installed I kstack c) (hsegs : UserSegs c) {fn stack arg ret : BitVec 32}
    (hc : ThrdCreateCall T fn stack arg ret c) :
    ∃ e, M.Runs c e ∧ e.eip = K.isrSyscallStage2 ∧ e.cpl = PL_KERNEL ∧
      OnStack e.mem (e.reg .esp) [K.retAddr, SYS_thrd_create, T.threadStart, childSp stack] ∧
      (∀ u, Stage2Returned I kstack (c.reg .esp - 16#32) 20 e u →
        ∃ d, M.Runs u d ∧ c.Returned d ∧ d.reg .eax = u.reg .eax ∧ d.mem = u.mem) ∧
      ∀ (kstack' : Addr) (k : Cpu), UserStart M T.threadStart (childSp stack) k → Installed I kstack' k →
        (∀ i < 8, k.mem (childSp stack + BitVec.ofNat 32 i) = e.mem (childSp stack + BitVec.ofNat 32 i)) →
        ∃ f ret', M.Runs k f ∧ f.eip = fn ∧ OnStack f.mem (f.reg .esp) [ret', arg] ∧ f.reg .ebp = 0#32 ∧
          f.eflags = FLAG_IF ∧ UserSegs f ∧
          ∀ (kstack'' : Addr) (u : Cpu), f.Returned u → Installed I kstack'' u →
            u.eflags &&& FLAG_VM = 0#32 →
            ∃ e', M.Runs u e' ∧ e'.eip = K.isrSyscallStage2 ∧ e'.cpl = PL_KERNEL ∧
              OnStack e'.mem (e'.reg .esp) [K.retAddr, SYS_thrd_exit, u.reg .eax] := by
  obtain ⟨e, hruns, heip, hcpl, hstack, hchild, hback⟩ := thrdCreate_returns K T hhidden hk h hsegs hc
  refine ⟨e, hruns, heip, hcpl, hstack, hback, fun kstack' k hstart hkinst hsame => ?_⟩
  obtain ⟨s, hs, hseip, hsesp, hssegs, hsflags, hsmem, -, -⟩ := cpuUserStart_runs hkinst hstart
  have hargs : OnStack s.mem (s.reg .esp) [fn, arg] := by
    rw [hsesp, hsmem]
    exact hchild.congr fun i hi => hsame i (by simpa using hi)
  obtain ⟨f, ret', hf, hfeip, -, hfargs, hfebp, hfflags, hfsegs, hcode, hin⟩ :=
    threadStart_calls T hssegs hseip (by rw [hsesp]; exact hc.child) hargs
  refine ⟨f, ret', hs.trans hf, hfeip, hfargs, hfebp, hfflags.trans hsflags, hfsegs, ?_⟩
  intro kstack'' u hu hinst hvm
  have hueip : u.eip = ret' := hu.eip.trans hfargs.1
  rw [← hueip] at hcode hin
  exact threadStart_exits K hinst ⟨hu.cs.trans hfsegs.cs, hu.ss.trans hfsegs.ss, hu.ds.trans hfsegs.ds,
    hu.es.trans hfsegs.es, hvm⟩ hcode hin

/-- The code of threads at the start of the pages of programs. -/
def exampleThreads : Machine :=
  exampleMachine [(0x20000#32, isrSyscallOps 0x120000#32), (0x100000#32, cpuUserStartOps .eax .ecx),
    (0x400000#32, thrdCreateOps 0x400100#32), (0x400100#32, threadStartOps)]

/-- A call `thrd_create(0x400200, 0x480000, 5)`. -/
def exampleThreadCall : Cpu :=
  exampleUser (pushAll exampleMem 0x500010#32 [5#32, 0x480000#32, 0x400200#32, 0x400300#32]).1 0x400000#32
    0x500000#32

theorem thread_lives_example :
    ∃ e k f u e', exampleThreads.Runs exampleThreadCall e ∧ e.eip = 0x120000#32 ∧ exampleThreads.Runs k f ∧
      f.eip = 0x400200#32 ∧ f.Returned u ∧ exampleThreads.Runs u e' ∧ e'.eip = 0x120000#32 := by
  have hinst : Installed exampleImage 0x300000#32 exampleThreadCall := by
    refine exampleUser_installed (fun a ha => ?_) _ _
    have hs := pushAll_sameOutside exampleMem (by decide :
      4 * [5#32, 0x480000#32, 0x400200#32, 0x400300#32].length ≤ (0x500010#32).toNat)
    have hkmap : KMAP_MAX.toNat = 0x400000 := rfl
    have hlow : (0x500010#32).toNat - 4 * [5#32, 0x480000#32, 0x400200#32, 0x400300#32].length = 0x500000 := rfl
    exact hs a (by rw [hlow]; bv_omega)
  have hcall : ThrdCreateCall (⟨0x400000#32, 0x400100#32, by decide, by decide, by decide, by decide⟩ :
      ThreadCode exampleThreads) 0x400200#32 0x480000#32 5#32 0x400300#32 exampleThreadCall := by
    have hnil : OnStack exampleMem 0x500010#32 [] := trivial
    exact ⟨rfl, hnil.pushAll [5#32, 0x480000#32, 0x400200#32, 0x400300#32] (by decide),
      exampleMachine_writable _ (by decide), exampleMachine_writable _ (by decide), ⟨by decide, by decide⟩⟩
  obtain ⟨e, hruns, heip, -, -, -, hlives⟩ :=
    thread_lives (⟨0x120000#32, by decide⟩ : EntryCode exampleImage exampleThreads) _
      (exampleMachine_hidden _) ⟨by decide, by decide⟩ hinst (exampleUser_segs _ _ _) hcall
  -- the kernel starts the thread
  have hdone := exampleDone_installed hinst e
  have hsame := exampleKernel_sameOutside (exampleDone exampleThreadCall e).mem 0x400100#32 0x47fff8#32
  obtain ⟨f, ret, hf, hfeip, -, -, -, -, hexits⟩ := hlives 0x300000#32
    (exampleKernel (exampleDone exampleThreadCall e).mem 0x400100#32 0x47fff8#32)
    (exampleKernel_start (by decide) _ _ _) (exampleKernel_installed hdone.tables _ _) (fun i hi => by
      have hsp : childSp 0x480000#32 = 0x47fff8#32 := by decide
      rw [hsp]
      rw [hsame _ (by bv_omega)]
      exact if_neg (by bv_omega))
  -- and it returns
  have hfinst := exampleDone_installed hinst f
  have hret : f.Returned (exampleReturn exampleThreadCall f 7#32) :=
    ⟨rfl, rfl, rfl, rfl, rfl, rfl, rfl, rfl, rfl, rfl⟩
  obtain ⟨e', he', heip', -, -⟩ := hexits 0x300000#32 _ hret
    ⟨hfinst.gdtr, hfinst.idtr, hfinst.tss, hfinst.tables⟩ (by decide : 2#32 &&& FLAG_VM = 0#32)
  exact ⟨e, _, f, _, e', hruns, heip, hf, hfeip, hret, he', heip'⟩

-- ---------------------------------------------------------------------------
-- crt0.S
-- ---------------------------------------------------------------------------

/-- `_start` up to its call of `main`, between this and the call of `_exit`, and after it. -/
def startHead : List Op :=
  [.xor .ebp .ebp, .push .ebp, .mov .ebp .esp, .lea .eax .ebp 8#32, .push .eax, .pushMem .ebp 4#32]
def startMid : List Op := [.add .esp 8#32, .push .eax]
def startTail : List Op := [.add .esp 4#32]

def startOps (main exit : Addr) : List Op :=
  startHead ++ .plain (.call main) :: (startMid ++ .plain (.call exit) :: (startTail ++ [.hlt]))

/-- `_start` lies in the pages of a program. -/
structure StartCode (M : Machine) where
  start    : Addr
  main     : Addr
  exit     : Addr
  start_at : M.Has start (startOps main exit)
  in_pages : M.InPages start (startOps main exit)

theorem startHead_straight : ∀ op ∈ startHead, op.isStraight = true := by decide

theorem startMid_straight : ∀ op ∈ startMid, op.isStraight = true := by decide

theorem startTail_straight : ∀ op ∈ startTail, op.isStraight = true := by decide

/-- A call in user code. -/
theorem Machine.runs_call {target : Addr} (hcode : M.instr c.eip = some (.plain (.call target)))
    (hpage : M.user c.eip = true) (hword : M.permits (c.reg .esp - 4#32, true) = true) :
    ∃ f, M.step c = some f ∧ f.eip = target ∧ f.reg .esp = c.reg .esp - 4#32 ∧
      f.mem = store32 c.mem (c.reg .esp - 4#32) (c.eip + M.size (.plain (.call target))) ∧
      (∀ r, r ≠ .esp → f.reg r = c.reg r) ∧ f.eflags = c.eflags ∧ (UserSegs c → UserSegs f) := by
  have hallow : M.allows (.plain (.call target)) c = true := by
    simp [Machine.allows, hpage, Op.accesses, hword]
  refine ⟨_, Machine.step_exec hcode hallow rfl, rfl, ?_, rfl, fun r hr => ?_, rfl,
    fun h => ⟨h.cs, h.ss, h.ds, h.es, h.vm⟩⟩
  · simp [Machine.exec, Machine.next, Cpu.withState, Instr.exec]
  · simp [Machine.exec, Machine.next, Cpu.withState, Instr.exec, hr]

/-- `_start` calls `main` with what it finds on its stack. -/
theorem start_callsMain (C : StartCode M) (hsegs : UserSegs s) (heip : s.eip = C.start)
    (hw : M.Writable (s.reg .esp - 16#32) 20) :
    ∃ f ret, M.Runs s f ∧ f.eip = C.main ∧ f.reg .esp = s.reg .esp - 16#32 ∧
      f.mem = store32 (crt0Start s.mem (s.reg .esp)).1 (s.reg .esp - 16#32) ret ∧
      f.eflags &&& (FLAG_IF ||| FLAG_VM) = s.eflags &&& (FLAG_IF ||| FLAG_VM) ∧ f.reg .ebp = s.reg .esp - 4#32 ∧
      UserSegs f ∧
      M.Has ret (startMid ++ .plain (.call C.exit) :: (startTail ++ [.hlt])) ∧
      M.InPages ret (startMid ++ .plain (.call C.exit) :: (startTail ++ [.hlt])) := by
  have hcode := C.start_at
  have hin := C.in_pages
  rw [← heip] at hcode hin
  obtain ⟨hinHead, hinCall, hinTail⟩ := Machine.inPages_append hin
  have hpermits : M.PermitsAll startHead s := by
    simp only [startHead, Machine.PermitsAll, Op.accesses, Machine.exec, Machine.arith, Machine.next, Cpu.push,
      Cpu.withState]
    simp
    refine ⟨?_, ?_, ?_, ?_⟩ <;> exact hw.permits _ (by bv_omega) (by decide)
  obtain ⟨hruns, hpeip, hcall, htail⟩ := Machine.runs_execAll startHead_straight hcode
    (Machine.allowsAll_of_pages startHead_straight hinHead hpermits)
  set p := M.execAll startHead s with hp
  have hpesp : p.reg .esp = s.reg .esp - 12#32 := by
    simp only [hp, startHead, Machine.execAll, Machine.exec, Machine.arith, Machine.next, Cpu.push, Cpu.withState]
    simp
    bv_omega
  have hpebp : p.reg .ebp = s.reg .esp - 4#32 := by
    simp [hp, startHead, Machine.execAll, Machine.exec, Machine.arith, Machine.next, Cpu.push, Cpu.withState]
  have hpmem : p.mem = (crt0Start s.mem (s.reg .esp)).1 := by
    have h8 : s.reg .esp - 4#32 - 8#32 = s.reg .esp - 4#32 - 4#32 - 4#32 := by bv_omega
    simp only [hp, startHead, Machine.execAll, Machine.exec, Machine.arith, Machine.next, Cpu.push, Cpu.withState,
      crt0Start, h8]
    simp
  have hpflags : p.eflags &&& (FLAG_IF ||| FLAG_VM) = s.eflags &&& (FLAG_IF ||| FLAG_VM) := by
    simp only [hp, startHead, Machine.execAll, Machine.exec, Machine.arith, Machine.next, Cpu.push, Cpu.withState]
    exact and_of_apart (by decide)
  have hpsegs : UserSegs p := by
    refine ⟨hsegs.cs, hsegs.ss, hsegs.ds, hsegs.es, ?_⟩
    have hsub : FLAG_VM = (FLAG_IF ||| FLAG_VM) &&& FLAG_VM := by decide
    rw [hsub, ← BitVec.and_assoc, hpflags, BitVec.and_assoc, ← hsub, hsegs.vm]
  rw [← hpeip] at hinCall hinTail
  have hsp : p.reg .esp - 4#32 = s.reg .esp - 16#32 := by
    rw [hpesp]
    bv_omega
  obtain ⟨f, hstep, hfeip, hfesp, hfmem, hfreg, hfflags, hfsegs⟩ := Machine.runs_call hcall hinCall
    (hw.permits _ (by rw [hsp]; bv_omega) (by decide))
  rw [hsp] at hfesp hfmem
  rw [hpmem] at hfmem
  refine ⟨f, _, hruns.tail hstep, hfeip, hfesp, hfmem, ?_, ?_, hfsegs hpsegs, htail, hinTail⟩
  · rw [hfflags, hpflags]
  · rw [hfreg _ (by decide), hpebp]

/-- The result of `main` is the argument of `_exit`. -/
theorem start_callsExit (C : StartCode M) (hsegs : UserSegs u)
    (hcode : M.Has u.eip (startMid ++ .plain (.call C.exit) :: (startTail ++ [.hlt])))
    (hin : M.InPages u.eip (startMid ++ .plain (.call C.exit) :: (startTail ++ [.hlt])))
    (hw : M.Writable (u.reg .esp - 4#32) 12) :
    ∃ g ret, M.Runs u g ∧ g.eip = C.exit ∧ OnStack g.mem (g.reg .esp) [ret, u.reg .eax] ∧ UserSegs g ∧
      M.Has ret (startTail ++ [.hlt]) ∧ M.InPages ret (startTail ++ [.hlt]) := by
  obtain ⟨hinMid, hinCall, hinTail⟩ := Machine.inPages_append hin
  have hpermits : M.PermitsAll startMid u := by
    simp only [startMid, Machine.PermitsAll, Op.accesses, Machine.exec, Machine.arith, Machine.next, Cpu.withState]
    simp
    exact hw.permits _ (by bv_omega) (by decide)
  obtain ⟨hruns, hpeip, hcall, htail⟩ := Machine.runs_execAll startMid_straight hcode
    (Machine.allowsAll_of_pages startMid_straight hinMid hpermits)
  set p := M.execAll startMid u with hp
  have hpesp : p.reg .esp = u.reg .esp + 8#32 - 4#32 := by
    simp [hp, startMid, Machine.execAll, Machine.exec, Machine.arith, Machine.next, Cpu.push, Cpu.withState]
  have hpmem : p.mem = store32 u.mem (u.reg .esp + 8#32 - 4#32) (u.reg .eax) := by
    simp [hp, startMid, Machine.execAll, Machine.exec, Machine.arith, Machine.next, Cpu.push, Cpu.withState]
  have hpsegs : UserSegs p := by
    refine ⟨hsegs.cs, hsegs.ss, hsegs.ds, hsegs.es, ?_⟩
    rw [← hsegs.vm]
    simp only [hp, startMid, Machine.execAll, Machine.exec, Machine.arith, Machine.next, Cpu.push, Cpu.withState]
    exact and_of_apart (by decide)
  rw [← hpeip] at hinCall hinTail
  obtain ⟨g, hstep, hgeip, hgesp, hgmem, -, -, hgsegs⟩ := Machine.runs_call hcall hinCall
    (hw.permits _ (by rw [hpesp]; bv_omega) (by decide))
  refine ⟨g, _, hruns.tail hstep, hgeip, ?_, hgsegs hpsegs, htail, hinTail⟩
  rw [hgesp, hgmem]
  refine ⟨load32_store32_same .., ?_, trivial⟩
  rw [BitVec.sub_add_cancel, load32_store32_disjoint (by bv_omega) (by bv_omega), hpmem, hpesp,
    load32_store32_same]

/-- After a return from `_exit` the program ends in the handler of protection faults. -/
theorem start_halts (hu : Installed I kstack u) (hsegs : UserSegs u)
    (hcode : M.Has u.eip (startTail ++ [.hlt])) (hin : M.InPages u.eip (startTail ++ [.hlt])) :
    ∃ p, M.Runs u (kernelEntry p kstack (I.isr isr13) (some 0#32)) ∧ M.instr p.eip = some .hlt := by
  obtain ⟨hinTail, hinHlt⟩ := Machine.inPages_append hin
  have hpermits : M.PermitsAll startTail u := by
    simp [startTail, Machine.PermitsAll, Op.accesses]
  obtain ⟨hruns, heip, hhlt, -⟩ := Machine.runs_execAll startTail_straight hcode
    (Machine.allowsAll_of_pages startTail_straight hinTail hpermits)
  set p := M.execAll startTail u with hp
  rw [← heip] at hinHlt
  have hpinst : Installed I kstack p := ⟨hu.gdtr, hu.idtr, hu.tss, hu.tables⟩
  have hpcpl : p.cpl = PL_USER := hsegs.cpl
  have hgate : I.gate 13 = some (I.isr isr13, PL_KERNEL) := rfl
  have hfault : p.except 13 0#32 = some (kernelEntry p kstack (I.isr isr13) (some 0#32)) := by
    rw [Cpu.except, hpinst.deliver_gate hpcpl hgate Bool.false_ne_true.elim]
    rfl
  refine ⟨p, hruns.tail (Machine.step_hlt hhlt ?_ ?_ hfault), hhlt⟩
  · simp [Machine.allows, hinHlt.1, Op.accesses]
  · rw [hpcpl]
    decide

/-- **The life of a program.** On a stack that `push_args` has built, `cpu_user_start` gets to
`main` with `argc` and the address of the pointers, in user mode with interrupts enabled, and in
memory that is unchanged from the stack pointer on. When `main` returns, its result is the
argument of `_exit`; and should `_exit` return, the program ends in the handler of protection
faults. -/
theorem program_lives (C : StartCode M) {m : Mem} {sp sp' : Addr} {argv : List (List Byte)}
    (h : Installed I kstack k) (hstart : UserStart M C.start sp' k) (hargs : ArgLayout m k.mem sp sp' argv)
    (hw : M.Writable (sp' - 16#32) 20) (hroom : 16 ≤ sp'.toNat) :
    ∃ f ret, M.Runs k f ∧ f.eip = C.main ∧
      OnStack f.mem (f.reg .esp) [ret, BitVec.ofNat 32 argv.length, sp' + 4#32] ∧
      (∀ a, sp' ≤ a → f.mem a = k.mem a) ∧ UserSegs f ∧ f.eflags &&& FLAG_IF = FLAG_IF ∧
      ∀ (kstack' : Addr) (u : Cpu), f.Returned u → Installed I kstack' u → u.eflags &&& FLAG_VM = 0#32 →
        ∃ g ret', M.Runs u g ∧ g.eip = C.exit ∧ OnStack g.mem (g.reg .esp) [ret', u.reg .eax] ∧
          UserSegs g ∧
          ∀ (kstack'' : Addr) (v : Cpu), g.Returned v → Installed I kstack'' v →
            v.eflags &&& FLAG_VM = 0#32 →
            ∃ p, M.Runs v (kernelEntry p kstack'' (I.isr isr13) (some 0#32)) ∧
              M.instr p.eip = some .hlt := by
  obtain ⟨s, hs, hseip, hsesp, hssegs, hsflags, hsmem, -, -⟩ := cpuUserStart_runs h hstart
  obtain ⟨f, ret, hf, hfeip, hfesp, hfmem, hfflags, -, hfsegs, hcode, hin⟩ :=
    start_callsMain C hssegs hseip (by rw [hsesp]; exact hw)
  rw [hsesp] at hfesp hfmem
  rw [hsmem] at hfmem
  -- the words that `main` finds
  obtain ⟨hargc, hargvp, hkept⟩ := crt0Start_args hargs (by omega)
  have hsp : (crt0Start k.mem sp').2 = sp' - 16#32 + 4#32 := by
    change sp' - 4#32 - 8#32 = _
    bv_omega
  have hstack : OnStack f.mem (f.reg .esp) [ret, BitVec.ofNat 32 argv.length, sp' + 4#32] := by
    rw [hsp] at hargc hargvp
    rw [hfesp, hfmem]
    refine ⟨load32_store32_same .., ?_, ?_, trivial⟩
    · rw [load32_store32_disjoint (by bv_omega) (by bv_omega), hargc]
    · rw [load32_store32_disjoint (by bv_omega) (by bv_omega), hargvp]
  refine ⟨f, ret, hs.trans hf, hfeip, hstack, fun a ha => ?_, hfsegs, ?_, fun kstack' u hu hinst hvm => ?_⟩
  · rw [hfmem, store32_outside (by bv_omega), hkept a ha]
  · have hsub : FLAG_IF = (FLAG_IF ||| FLAG_VM) &&& FLAG_IF := by decide
    rw [hsub, ← BitVec.and_assoc, hfflags, hsflags]
    decide
  -- `main` has returned
  have hueip : u.eip = ret := hu.eip.trans hstack.1
  have husegs : UserSegs u := ⟨hu.cs.trans hfsegs.cs, hu.ss.trans hfsegs.ss, hu.ds.trans hfsegs.ds,
    hu.es.trans hfsegs.es, hvm⟩
  have huesp : u.reg .esp = sp' - 12#32 := by
    rw [hu.esp, hfesp]
    bv_omega
  rw [← hueip] at hcode hin
  obtain ⟨g, ret', hg, hgeip, hgstack, hgsegs, hgcode, hgin⟩ :=
    start_callsExit C husegs hcode hin (hw.mono (by rw [huesp]; bv_omega))
  refine ⟨g, ret', hg, hgeip, hgstack, hgsegs, fun kstack'' v hv hvinst hvvm => ?_⟩
  -- `_exit` has returned
  have hveip : v.eip = ret' := hv.eip.trans hgstack.1
  have hvsegs : UserSegs v := ⟨hv.cs.trans hgsegs.cs, hv.ss.trans hgsegs.ss, hv.ds.trans hgsegs.ds,
    hv.es.trans hgsegs.es, hvvm⟩
  rw [← hveip] at hgcode hgin
  exact start_halts hvinst hvsegs hgcode hgin

/-- `_start` at the start of the pages of programs. -/
def exampleCrt0 : Machine :=
  exampleMachine [(0x100000#32, cpuUserStartOps .eax .ecx), (0x400000#32, startOps 0x400100#32 0x400200#32)]

/-- The kernel, with the arguments of the program `a` on its stack. -/
def exampleProgram : Cpu :=
  exampleKernel (pushAll exampleMem 0x500000#32 [0x61#32, 0#32, 0x4ffffc#32, 1#32]).1 0x400000#32 0x4ffff0#32

theorem exampleProgram_args :
    ArgLayout exampleProgram.mem exampleProgram.mem 0x500000#32 0x4ffff0#32 [[0x61#8]] where
  aligned := by decide
  argc    := by decide +kernel
  null    := by decide +kernel
  copies  := by
    intro i hi
    obtain rfl : i = 0 := by simpa using hi
    have hholds : ∀ j (h : j < ([0x61#8] ++ [0#8]).length),
        exampleProgram.mem (argvWord exampleProgram.mem 0x4ffff0#32 0 + BitVec.ofNat 32 j) =
          ([0x61#8] ++ [0#8])[j] := by
      decide +kernel
    exact hholds
  above   := by decide +kernel
  apart   := by
    intro i j hj hij
    rw [List.length_singleton] at hj
    omega
  size    := by decide
  outside := SameOutside.refl _ _ _

theorem program_lives_example :
    ∃ f u g v p, exampleCrt0.Runs exampleProgram f ∧ f.eip = 0x400100#32 ∧ f.Returned u ∧
      exampleCrt0.Runs u g ∧ g.eip = 0x400200#32 ∧ g.Returned v ∧
      exampleCrt0.Runs v (kernelEntry p 0x300000#32 (exampleImage.isr isr13) (some 0#32)) := by
  have htables : TablesIn exampleImage 0x300000#32
      (pushAll exampleMem 0x500000#32 [0x61#32, 0#32, 0x4ffffc#32, 1#32]).1 := by
    refine exampleMem_tables.congr fun a ha => ?_
    have hs := pushAll_sameOutside exampleMem (by decide :
      4 * [0x61#32, 0#32, 0x4ffffc#32, 1#32].length ≤ (0x500000#32).toNat)
    have hkmap : KMAP_MAX.toNat = 0x400000 := rfl
    have hlow : (0x500000#32).toNat - 4 * [0x61#32, 0#32, 0x4ffffc#32, 1#32].length = 0x4ffff0 := rfl
    exact hs a (by rw [hlow]; bv_omega)
  have hinst : Installed exampleImage 0x300000#32 exampleProgram := exampleKernel_installed htables _ _
  obtain ⟨f, ret, hf, hfeip, -, -, -, -, hmain⟩ := program_lives
    (⟨0x400000#32, 0x400100#32, 0x400200#32, by decide, by decide⟩ : StartCode exampleCrt0) hinst
    (exampleKernel_start (by decide) _ _ _) exampleProgram_args (exampleMachine_writable _ (by decide)) (by decide)
  -- `main` returns
  have huinst := exampleDone_installed hinst f
  have hu : f.Returned (exampleReturn exampleProgram f 7#32) := ⟨rfl, rfl, rfl, rfl, rfl, rfl, rfl, rfl, rfl, rfl⟩
  obtain ⟨g, ret', hg, hgeip, -, -, hexit⟩ := hmain 0x300000#32 _ hu
    ⟨huinst.gdtr, huinst.idtr, huinst.tss, huinst.tables⟩ (by decide : 2#32 &&& FLAG_VM = 0#32)
  -- and so does `_exit`
  have hvinst := exampleDone_installed hinst g
  have hv : g.Returned (exampleReturn exampleProgram g 0#32) := ⟨rfl, rfl, rfl, rfl, rfl, rfl, rfl, rfl, rfl, rfl⟩
  obtain ⟨p, hp, -⟩ := hexit 0x300000#32 _ hv
    ⟨hvinst.gdtr, hvinst.idtr, hvinst.tss, hvinst.tables⟩ (by decide : 2#32 &&& FLAG_VM = 0#32)
  exact ⟨f, _, g, _, p, hf, hfeip, hu, hg, hgeip, hv, hp⟩

end Munix
