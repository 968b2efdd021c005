import Munix.Kernel.SyscallEntry

/-!
# Munix — the system call wrapper of user programs

`syscall` of `sys/i386-munix/syscall.S` on the machine of `Munix.Lib.X86Machine`, through
the kernel's entry and back.

* `syscall_returns` — a call of `syscall` is a call of `isr_syscall_stage2` with the
  same arguments, and to its caller a C function like any other.
-/

namespace Munix

open ByteMem X86

-- ---------------------------------------------------------------------------
-- The code
-- ---------------------------------------------------------------------------

/-- `syscall` before its `int`. -/
def syscallHead : List Op :=
  [.push .ebp, .mov .ebp .esp, .push .ebx, .push .esi, .push .edi,
    .plain (.load .eax .ebp 8#32), .plain (.load .ebx .ebp 12#32), .plain (.load .ecx .ebp 16#32),
    .plain (.load .edx .ebp 20#32), .plain (.load .esi .ebp 24#32), .plain (.load .edi .ebp 28#32),
    .push .ebp, .plain (.load .ebp .ebp 32#32)]

/-- The registers that a wrapper takes from its stack. -/
def restoreOps : List Op := [.pop .edi, .pop .esi, .pop .ebx, .pop .ebp]

def syscallOps : List Op :=
  syscallHead ++ .int IVEC_SYSCALL :: (.pop .ebp :: restoreOps ++ [.plain .ret])

/-- `syscall` lies in the pages of a program. -/
structure SyscallCode (M : Machine) where
  syscall    : Addr
  syscall_at : M.Has syscall syscallOps
  in_pages   : M.InPages syscall syscallOps

variable {I : GateImage} {M : Machine} {kstack kstack' : Addr} {c d e u : Cpu}

-- ---------------------------------------------------------------------------
-- Straight-line code of user programs
-- ---------------------------------------------------------------------------

theorem restoreOps_straight : ∀ op ∈ restoreOps, op.isStraight = true := by decide

/-- The end of a wrapper: the saved registers and the return. -/
theorem runs_restore {rest : List Op} {edi esi ebx ebp ret : BitVec 32}
    (hcode : M.Has c.eip (restoreOps ++ .plain .ret :: rest))
    (hpages : M.InPages c.eip (restoreOps ++ .plain .ret :: rest)) (hwrite : M.Writable (c.reg .esp) 20)
    (hstack : OnStack c.mem (c.reg .esp) [edi, esi, ebx, ebp, ret]) :
    ∃ d, M.Runs c d ∧ d.eip = ret ∧ d.reg .esp = c.reg .esp + 20#32 ∧ d.reg .eax = c.reg .eax ∧
      d.reg .ebx = ebx ∧ d.reg .esi = esi ∧ d.reg .edi = edi ∧ d.reg .ebp = ebp ∧
      d.mem = c.mem ∧ d.eflags = c.eflags ∧ d.cs = c.cs ∧ d.ss = c.ss ∧ d.ds = c.ds ∧ d.es = c.es := by
  obtain ⟨hedi, hesi, hebx, hebp, hret, -⟩ := hstack
  obtain ⟨hin, hinRet⟩ := Machine.inPages_append hpages
  have hpermits : M.PermitsAll restoreOps c := by
    simp only [restoreOps, Machine.PermitsAll, Op.accesses, Machine.exec, Machine.next, Cpu.withState,
      List.all_cons, List.all_nil, Bool.and_true, State.reg_setReg_same, State.reg_setEip,
      State.reg_setReg_ne, ne_eq, reduceCtorEq, not_false_eq_true, and_true]
    refine ⟨?_, ?_, ?_, ?_⟩ <;> exact hwrite.permits _ (by bv_omega) (by decide)
  obtain ⟨hruns, heip, hrest⟩ := Machine.runs_execAll restoreOps_straight hcode
    (Machine.allowsAll_of_pages restoreOps_straight hin hpermits)
  set p := M.execAll restoreOps c with hp
  have hesp : p.reg .esp = c.reg .esp + 4#32 + 4#32 + 4#32 + 4#32 := by
    simp [hp, restoreOps, Machine.execAll, Machine.exec, Machine.next, Cpu.withState]
  have hallow : M.allows (.plain .ret) p = true := by
    have hpage : M.user p.eip = true := by
      rw [heip]
      exact hinRet.1
    have hword : M.permits (p.reg .esp, false) = true := hwrite.permits _ (by rw [hesp]; bv_omega) (by decide)
    simp [Machine.allows, hpage, Op.accesses, hword]
  have hstep := Machine.step_exec hrest.1 hallow rfl
  refine ⟨_, hruns.tail hstep, ?_, ?_, ?_, ?_, ?_, ?_, ?_, ?_, ?_, ?_, ?_, ?_, ?_⟩
  · rw [← hret]
    change load32 p.mem (p.reg .esp) = _
    rw [hesp]
    rfl
  · have hval : (M.exec (.plain .ret) (M.next (.plain .ret) p)).reg .esp = p.reg .esp + 4#32 := by
      simp [Machine.exec, Machine.next, Cpu.withState, Instr.exec]
    rw [hval, hesp]
    bv_omega
  all_goals
    simp [hp, restoreOps, Machine.execAll, Machine.exec, Machine.next, Cpu.withState, Instr.exec, hedi, hesi,
      hebx, hebp]

-- ---------------------------------------------------------------------------
-- What the kernel may do during a system call
-- ---------------------------------------------------------------------------

/-- `isr_syscall_stage2`, entered at `e`, has returned in `u`: as a C function, with the
tables installed, and it has left the frame of the interrupt alone and the `n` bytes from
`sp` on of the program's stack. -/
structure Stage2Returned (I : GateImage) (kstack sp : Addr) (n : Nat) (e u : Cpu) : Prop where
  returned  : e.Returned u
  installed : ∃ kstack', Installed I kstack' u
  nt        : u.eflags &&& FLAG_NT = 0#32
  frame     : ∀ i < 20, u.mem (kstack - 20#32 + BitVec.ofNat 32 i) = e.mem (kstack - 20#32 + BitVec.ofNat 32 i)
  stack     : ∀ i < n, u.mem (sp + BitVec.ofNat 32 i) = e.mem (sp + BitVec.ofNat 32 i)

/-- A kernel stack in the range of the kernel, with room for the entry of a system call. -/
def KstackFits (kstack : Addr) : Prop := 48 ≤ kstack.toNat ∧ kstack ≤ KMAP_MAX

/-- The entry of a system call leaves the memory of programs alone. -/
theorem EntryCode.stage2_mem (K : EntryCode I M) (hk : KstackFits kstack) (c : Cpu) {a : Addr}
    (ha : KMAP_MAX ≤ a) : (K.stage2 kstack c).mem a = c.mem a := by
  have hlen : (K.words c).length = 12 := rfl
  have hroom : 4 * (K.words c).length ≤ kstack.toNat := by
    rw [hlen]
    exact hk.1
  have hsame := kernelState_sameOutside c K.isrSyscallStage2 hroom
  refine hsame a ?_
  have := hk.2
  bv_omega

/-- A range that programs may write is above the range of the kernel. -/
theorem KernelHidden.above (h : KernelHidden M) {a x : Addr} {n : Nat} (hw : M.Writable a n)
    (hx : (x - a).toNat < n) : KMAP_MAX ≤ x := by
  have hat := (hw (x - a) hx).2
  rw [BitVec.add_comm, BitVec.sub_add_cancel] at hat
  exact h x hat

/-- A stack of a program during a system call. -/
theorem Stage2Returned.onStack {sp : Addr} {n : Nat} {K : EntryCode I M} {ws : List (BitVec 32)}
    (hu : Stage2Returned I kstack sp n (K.stage2 kstack c) u) (hk : KstackFits kstack)
    (hhidden : KernelHidden M) (hw : M.Writable sp n) (hstack : OnStack c.mem sp ws)
    (hn : 4 * ws.length ≤ n) : OnStack u.mem sp ws := by
  refine hstack.congr fun i hi => ?_
  rw [hu.stack i (by omega)]
  refine K.stage2_mem hk c (hhidden.above hw ?_)
  have hoff : sp + BitVec.ofNat 32 i - sp = BitVec.ofNat 32 i := by rw [BitVec.add_comm, BitVec.add_sub_cancel]
  rw [hoff, BitVec.toNat_ofNat]
  omega

/-- After the `int` of a wrapper. -/
theorem EntryCode.returnsTo (K : EntryCode I M) (h : Installed I kstack c) (hsegs : UserSegs c) {sp : Addr}
    {n : Nat} (hu : Stage2Returned I kstack sp n (K.stage2 kstack c) u) : M.Runs u (afterSyscall c u) := by
  obtain ⟨kstack', hinst⟩ := hu.installed
  exact K.returns h hsegs hu.returned hinst hu.nt hu.frame

-- ---------------------------------------------------------------------------
-- syscall
-- ---------------------------------------------------------------------------

theorem syscallHead_straight : ∀ op ∈ syscallHead, op.isStraight = true := by decide

/-- Memory with the registers that a wrapper saves. -/
def savedMem (c : Cpu) : Mem :=
  (pushAll c.mem (c.reg .esp) [c.reg .ebp, c.reg .ebx, c.reg .esi, c.reg .edi]).1

theorem savedMem_eq (c : Cpu) :
    savedMem c = store32 (store32 (store32 (store32 c.mem (c.reg .esp - 4#32) (c.reg .ebp))
      (c.reg .esp - 4#32 - 4#32) (c.reg .ebx)) (c.reg .esp - 4#32 - 4#32 - 4#32) (c.reg .esi))
      (c.reg .esp - 4#32 - 4#32 - 4#32 - 4#32) (c.reg .edi) := rfl

/-- The arguments of a wrapper lie above them. -/
theorem load32_savedMem (c : Cpu) {a b : Addr} (hab : a = b) (hb : (b - c.reg .esp).toNat < 64) :
    load32 (savedMem c) a = load32 c.mem b := by
  subst hab
  have hat : a = c.reg .esp + (a - c.reg .esp) := by rw [BitVec.add_comm, BitVec.sub_add_cancel]
  have habove : load32 (savedMem c) (c.reg .esp + (a - c.reg .esp)) =
      load32 c.mem (c.reg .esp + (a - c.reg .esp)) :=
    load32_pushAll _ (by simp only [List.length_cons, List.length_nil]; omega)
  rwa [← hat] at habove

/-- The state of `syscall` at its `int`: its own frame, and the arguments in registers. -/
theorem execAll_syscallHead (c : Cpu) :
    ∃ p, M.execAll syscallHead c = p ∧ p.reg .esp = c.reg .esp - 20#32 ∧
      p.mem = (pushAll c.mem (c.reg .esp)
        [c.reg .ebp, c.reg .ebx, c.reg .esi, c.reg .edi, c.reg .esp - 4#32]).1 ∧
      syscallArgs p = stackWords c.mem (c.reg .esp + 4#32) 6 ∧ p.eflags = c.eflags ∧
      p.cs = c.cs ∧ p.ss = c.ss ∧ p.ds = c.ds ∧ p.es = c.es ∧ p.gdtr = c.gdtr ∧ p.idtr = c.idtr ∧
      p.tss = c.tss := by
  refine ⟨_, rfl, ?_, ?_, ?_, ?_⟩
  · simp only [syscallHead, Machine.execAll, Machine.exec, Machine.next, Cpu.push, Cpu.withState, Instr.exec]
    simp
    bv_omega
  · simp [syscallHead, Machine.execAll, Machine.exec, Machine.next, Cpu.push, Cpu.withState, Instr.exec, pushAll]
  · simp only [syscallHead, syscallArgs, Machine.execAll, Machine.exec, Machine.next, Cpu.push, Cpu.withState,
      Instr.exec]
    simp [stackWords, ← savedMem_eq]
    refine ⟨?_, ?_, ?_, ?_, ?_, ?_⟩ <;> exact load32_savedMem c (by bv_omega) (by bv_omega)
  · simp [syscallHead, Machine.execAll, Machine.exec, Machine.next, Cpu.push, Cpu.withState]

/-- The pages of the stack of `syscall`: its frame, and its arguments. -/
theorem syscallHead_permits (hw : M.Writable (c.reg .esp - 20#32) 52) : M.PermitsAll syscallHead c := by
  simp only [syscallHead, Machine.PermitsAll, Op.accesses, Machine.exec, Machine.next, Cpu.push,
    Cpu.withState, Instr.exec]
  simp
  refine ⟨?_, ?_, ?_, ?_, ?_, ?_, ?_, ?_, ?_, ?_, ?_, ?_⟩ <;>
    exact hw.permits _ (by bv_omega) (by decide)

/-- A call of `syscall`, with what it leaves of memory on its way to stage 2. -/
theorem SyscallCode.runs (K : EntryCode I M) (S : SyscallCode M) (hhidden : KernelHidden M)
    (hk : KstackFits kstack) (h : Installed I kstack c) (hsegs : UserSegs c) (heip : c.eip = S.syscall)
    (hw : M.Writable (c.reg .esp - 20#32) 52) :
    ∃ e, M.Runs c e ∧ e.eip = K.isrSyscallStage2 ∧ e.cpl = PL_KERNEL ∧ e.eflags &&& FLAG_IF = 0#32 ∧
      e.reg .esp = kstack - 48#32 ∧
      OnStack e.mem (e.reg .esp) (K.retAddr :: stackWords c.mem (c.reg .esp + 4#32) 6) ∧
      (∀ a, ¬ (a - (c.reg .esp - 20#32)).toNat < 20 → ¬ (a - (kstack - 48#32)).toNat < 48 →
        e.mem a = c.mem a) ∧
      ∀ u, Stage2Returned I kstack (c.reg .esp - 20#32) 24 e u →
        ∃ d, M.Runs u d ∧ c.Returned d ∧ d.reg .eax = u.reg .eax ∧ d.eflags = c.eflags ∧ d.mem = u.mem := by
  obtain ⟨p, hp, hpesp, hpmem, hargs, hpflags, hcs, hss, hds, hes, hgdtr, hidtr, htss⟩ :=
    execAll_syscallHead (M := M) c
  -- `syscall` up to its `int`
  have hcode := S.syscall_at
  have hin := S.in_pages
  rw [← heip] at hcode hin
  obtain ⟨hinHead, hinInt, hinTail⟩ := Machine.inPages_append hin
  obtain ⟨hruns, hpeip, hint, htail⟩ := Machine.runs_execAll syscallHead_straight hcode
    (Machine.allowsAll_of_pages syscallHead_straight hinHead (syscallHead_permits hw))
  rw [hp] at hruns hpeip hint htail
  have hpsegs : UserSegs p := by
    refine ⟨hcs.trans hsegs.cs, hss.trans hsegs.ss, hds.trans hsegs.ds, hes.trans hsegs.es, ?_⟩
    rw [hpflags]
    exact hsegs.vm
  have hbot : KMAP_MAX ≤ c.reg .esp - 20#32 := hhidden.above hw (by bv_omega)
  have htop : KMAP_MAX ≤ c.reg .esp := hhidden.above hw (by bv_omega)
  have hkmap : KMAP_MAX.toNat = 0x400000 := rfl
  have hlow : ∀ a, a < KMAP_MAX → p.mem a = c.mem a := by
    intro a ha
    rw [hpmem]
    refine pushAll_sameOutside c.mem ?_ a ?_
    · simp only [List.length_cons, List.length_nil]
      bv_omega
    · simp only [List.length_cons, List.length_nil]
      bv_omega
  have hpinst : Installed I kstack p :=
    ⟨hgdtr.trans h.gdtr, hidtr.trans h.idtr, htss.trans h.tss, h.tables.congr hlow⟩
  rw [← hpeip] at hinInt hinTail
  -- the kernel
  set q := M.next (.int IVEC_SYSCALL) p with hq
  have hqinst : Installed I kstack q := ⟨hpinst.gdtr, hpinst.idtr, hpinst.tss, hpinst.tables⟩
  have hqsegs : UserSegs q := ⟨hpsegs.cs, hpsegs.ss, hpsegs.ds, hpsegs.es, hpsegs.vm⟩
  have henters : M.Runs p (K.stage2 kstack q) := K.enters hpinst hpsegs.cpl hint hinInt
  have hstack : OnStack (K.stage2 kstack q).mem ((K.stage2 kstack q).reg .esp) (K.words q) :=
    kernelState_onStack q kstack _ (by simp [EntryCode.words, syscallArgs, entryWords])
  have hframe : OnStack q.mem (c.reg .esp - 20#32) [c.reg .esp - 4#32, c.reg .edi, c.reg .esi, c.reg .ebx,
      c.reg .ebp, load32 c.mem (c.reg .esp)] := by
    have hret : OnStack c.mem (c.reg .esp) [load32 c.mem (c.reg .esp)] := ⟨rfl, trivial⟩
    have hall := hret.pushAll [c.reg .ebp, c.reg .ebx, c.reg .esi, c.reg .edi, c.reg .esp - 4#32] (by simp)
    rw [← hpmem, pushAll_sp] at hall
    exact hall
  refine ⟨_, hruns.trans henters, rfl, (kernelState_kernel ..).1, kernelState_intr .., kernelState_esp .., ?_,
    fun a huser hkern => ?_, fun u hu => ?_⟩
  · have hargs' : syscallArgs q = stackWords c.mem (c.reg .esp + 4#32) 6 := hargs
    rw [EntryCode.words, ← List.cons_append, hargs'] at hstack
    exact hstack.left
  · have hlen : (K.words q).length = 12 := rfl
    have hroom : 4 * (K.words q).length ≤ kstack.toNat := by
      rw [hlen]
      exact hk.1
    have hkpush : (K.stage2 kstack q).mem a = q.mem a := by
      refine kernelState_sameOutside q K.isrSyscallStage2 hroom a ?_
      rw [hlen]
      have := hk.1
      bv_omega
    have hupush : q.mem a = c.mem a := by
      change p.mem a = c.mem a
      rw [hpmem]
      refine pushAll_sameOutside c.mem ?_ a ?_
      · simp only [List.length_cons, List.length_nil]
        bv_omega
      · simp only [List.length_cons, List.length_nil]
        bv_omega
    exact hkpush.trans hupush
  -- `syscall` from its `int` on
  have hback := K.returnsTo hqinst hqsegs hu
  set r := afterSyscall q u with hr
  have hrstack : OnStack r.mem (c.reg .esp - 20#32) [c.reg .esp - 4#32, c.reg .edi, c.reg .esi, c.reg .ebx,
      c.reg .ebp, load32 c.mem (c.reg .esp)] :=
    hu.onStack hk hhidden (hw.mono (by bv_omega)) hframe (by simp)
  have hresp : r.reg .esp = c.reg .esp - 20#32 := hpesp
  have hrcpl : r.cpl = PL_USER := hqsegs.cpl
  have hpop : M.step r = some (M.exec (.pop .ebp) (M.next (.pop .ebp) r)) := by
    refine Machine.step_exec htail.1 ?_ rfl
    have hword : M.permits (r.reg .esp, false) = true :=
      hw.permits _ (by rw [hresp]; bv_omega) (by decide)
    have hpage : M.user r.eip = true := hinTail.1
    simp [Machine.allows, hpage, Op.accesses, hword]
  set t := M.exec (.pop .ebp) (M.next (.pop .ebp) r) with ht
  have htesp : t.reg .esp = c.reg .esp - 16#32 := by
    have hval : t.reg .esp = r.reg .esp + 4#32 := by
      simp [ht, Machine.exec, Machine.next, Cpu.withState]
    rw [hval, hresp]
    bv_omega
  have htstack : OnStack t.mem (t.reg .esp) [c.reg .edi, c.reg .esi, c.reg .ebx, c.reg .ebp,
      load32 c.mem (c.reg .esp)] := by
    have hat : c.reg .esp - 20#32 + 4#32 = c.reg .esp - 16#32 := by bv_omega
    rw [htesp, ← hat]
    exact hrstack.2
  obtain ⟨d, hd, hdeip, hdesp, hdeax, hdebx, hdesi, hdedi, hdebp, hdmem, hdflags, hdcs, hdss, hdds, hdes⟩ :=
    runs_restore htail.2 hinTail.2 (hw.mono (by rw [htesp]; bv_omega)) htstack
  refine ⟨d, (hback.tail hpop).trans hd, ⟨hdeip, ?_, hdebx, hdesi, hdedi, hdebp, hdcs.trans hcs, hdss.trans hss,
    hdds.trans hds, hdes.trans hes⟩, hdeax, hdflags.trans hpflags, hdmem⟩
  rw [hdesp, htesp]
  bv_omega

/-- **A system call, from the call of `syscall` to its return.** With number and arguments on
the stack of the program, the machine comes to `isr_syscall_stage2` with the same number and
arguments on the current kernel stack, at the level of the kernel and with interrupts off.
Whenever stage 2 returns, `syscall` returns to its caller like a C function, with the same
result, in the memory that the kernel has left and with the flags of the call. -/
theorem syscall_returns (K : EntryCode I M) (S : SyscallCode M) (hhidden : KernelHidden M)
    (hk : KstackFits kstack) (h : Installed I kstack c) (hsegs : UserSegs c) (heip : c.eip = S.syscall)
    (hw : M.Writable (c.reg .esp - 20#32) 52) :
    ∃ e, M.Runs c e ∧ e.eip = K.isrSyscallStage2 ∧ e.cpl = PL_KERNEL ∧ e.eflags &&& FLAG_IF = 0#32 ∧
      e.reg .esp = kstack - 48#32 ∧
      OnStack e.mem (e.reg .esp) (K.retAddr :: stackWords c.mem (c.reg .esp + 4#32) 6) ∧
      ∀ u, Stage2Returned I kstack (c.reg .esp - 20#32) 24 e u →
        ∃ d, M.Runs u d ∧ c.Returned d ∧ d.reg .eax = u.reg .eax ∧ d.eflags = c.eflags ∧ d.mem = u.mem := by
  obtain ⟨e, hruns, he, hcpl, hintr, hesp, hstack, -, hback⟩ := S.runs K hhidden hk h hsegs heip hw
  exact ⟨e, hruns, he, hcpl, hintr, hesp, hstack, hback⟩

/-- A return from stage 2 to its caller with the result `v`. -/
def exampleReturn (c e : Cpu) (v : BitVec 32) : Cpu :=
  { exampleDone c e with
    reg := fun r => if r = .eax then v else if r = .esp then e.reg .esp + 4#32 else e.reg r
    eip := load32 e.mem (e.reg .esp) }

theorem exampleReturn_returned (h : Installed exampleImage 0x300000#32 c) (e : Cpu) (v : BitVec 32) {sp : Addr}
    {n : Nat} (hsp : 0x4000 ≤ sp.toNat ∧ sp.toNat + n ≤ 2 ^ 32) :
    Stage2Returned exampleImage 0x300000#32 sp n e (exampleReturn c e v) where
  returned  := ⟨rfl, rfl, rfl, rfl, rfl, rfl, rfl, rfl, rfl, rfl⟩
  installed :=
    have hdone := exampleDone_installed h e
    ⟨0x300000#32, hdone.gdtr, hdone.idtr, hdone.tss, hdone.tables⟩
  nt        := (by decide : 2#32 &&& FLAG_NT = 0#32)
  frame     := fun i hi => if_neg (by bv_omega)
  stack     := fun i hi => by
    have hlow : (0x4000#32).toNat = 0x4000 := rfl
    have hoff : (BitVec.ofNat 32 i).toNat = i := by
      rw [BitVec.toNat_ofNat]
      omega
    refine if_neg (BitVec.not_lt.mpr (BitVec.le_def.mpr ?_))
    rw [BitVec.toNat_add, hoff, hlow]
    omega

/-- `syscall` at the start of the pages of programs. -/
def exampleSyscall : Machine :=
  exampleMachine [(0x20000#32, isrSyscallOps 0x120000#32), (0x400000#32, syscallOps)]

theorem syscall_returns_example :
    ∃ c e u d, exampleSyscall.Runs c e ∧ e.eip = 0x120000#32 ∧ exampleSyscall.Runs u d ∧ c.Returned d ∧
      d.reg .eax = 42#32 := by
  have hinst : Installed exampleImage 0x300000#32 (exampleUser exampleMem 0x400000#32 0x500000#32) :=
    exampleUser_installed (fun _ _ => rfl) _ _
  obtain ⟨e, hruns, heip, -, -, -, -, hback⟩ := syscall_returns
    (⟨0x120000#32, by decide⟩ : EntryCode exampleImage exampleSyscall)
    ⟨0x400000#32, by decide, by decide⟩ (exampleMachine_hidden _) ⟨by decide, by decide⟩ hinst
    (exampleUser_segs _ _ _) rfl (exampleMachine_writable _ (by decide))
  obtain ⟨d, hd, hret, heax, -, -⟩ := hback _ (exampleReturn_returned hinst e 42#32 (by decide))
  exact ⟨_, e, _, d, hruns, heip, hd, hret, heax⟩

end Munix
