import Munix.Kernel.TaskSave
import Munix.Kernel.UserEntry

/-!
# Munix — a thread that is switched away and back

The save and the restore of `Munix.Kernel.TaskSave` in the kernel of
`Munix.Kernel.UserEntry`. A handler that was entered from a program ends in a call of
`cpu_task_save`, other threads run, and one of them restores the task.

* `SwitchCode.resumes` — the call of `cpu_task_save` returns again.
* `preempted_resumes` — and then the program goes on where it was interrupted.
-/

namespace Munix

open ByteMem X86

variable {I : GateImage} {M : Machine} {kstack : Addr} {c e k t : Cpu} {err : Option (BitVec 32)}

/-- `cpu_task_save` and `cpu_task_restore` lie in the code. -/
structure SwitchCode (M : Machine) where
  cpuTaskSave    : Addr
  cpuTaskRestore : Addr
  save_at        : M.plain.Has cpuTaskSave (cpuTaskSaveMoves ++ [.ret])
  restore_at     : M.plain.Has cpuTaskRestore (cpuTaskRestoreMoves ++ [.ret])

def SwitchCode.toTaskCode (S : SwitchCode M) : TaskCode where
  toCode         := M.plain
  cpuTaskSave    := S.cpuTaskSave
  cpuTaskRestore := S.cpuTaskRestore
  save_at        := S.save_at
  restore_at     := S.restore_at

-- ---------------------------------------------------------------------------
-- Tables
-- ---------------------------------------------------------------------------

/-- A word that lies apart from the tables. -/
structure OffTables (I : GateImage) (a : Addr) : Prop where
  fits : a.toNat + 4 ≤ 2 ^ 32
  gdt  : a.toNat + 4 ≤ I.kernelGdt.toNat ∨ I.kernelGdt.toNat + 48 ≤ a.toNat
  idt  : a.toNat + 4 ≤ I.idt.toNat ∨ I.idt.toNat + 512 ≤ a.toNat
  tss  : a.toNat + 4 ≤ I.kernelTss.toNat ∨ I.kernelTss.toNat + 104 ≤ a.toNat

theorem TablesIn.store {m : Mem} (h : TablesIn I kstack m) {a : Addr} (ha : OffTables I a) (v : BitVec 32) :
    TablesIn I kstack (store32 m a v) := by
  have hgdt := I.gdt_fits
  have hidt := I.idt_fits
  have htss := I.tss_fits
  have hs := store32_sameOutside m v ha.fits
  refine ⟨⟨h.gdt.frame hs ?_ ?_, h.idt.frame hs ?_ ?_⟩, ?_, ?_⟩
  · simp only [KSEG_COUNT]
    omega
  · have := ha.gdt
    simp only [KSEG_COUNT]
    omega
  · simp only [INTR_GATE_MAX]
    omega
  · have := ha.idt
    simp only [INTR_GATE_MAX]
    omega
  · rw [← h.esp0]
    refine load32_congr fun i hi => hs _ ?_
    have := ha.tss
    bv_omega
  · rw [← h.ss0]
    refine congrArg _ (load32_congr fun i hi => hs _ ?_)
    have := ha.tss
    bv_omega

-- ---------------------------------------------------------------------------
-- The switch
-- ---------------------------------------------------------------------------

/-- `v` is the return of a call at `k`, with the result `r`: the registers and the part of the stack
that belong to the caller are as at the call. -/
structure CallReturned (k v : Cpu) (eip kstack : Addr) (r : BitVec 32) : Prop where
  eip   : v.eip = eip
  eax   : v.reg .eax = r
  esp   : v.reg .esp = k.reg .esp
  ebp   : v.reg .ebp = k.reg .ebp
  ebx   : v.reg .ebx = k.reg .ebx
  esi   : v.reg .esi = k.reg .esi
  edi   : v.reg .edi = k.reg .edi
  stack : ∀ a, k.reg .esp ≤ a → a < kstack → v.mem a = k.mem a

/-- The kernel code that is about to save its task in `s` at the call at `k`, on the stack that ends at
`kstack`. -/
structure Saves (S : SwitchCode M) (k : Cpu) (s : Addr) : Prop where
  kernel : k.cpl = PL_KERNEL
  call   : M.instr k.eip = some (.plain (.call S.cpuTaskSave))
  arg    : load32 k.mem (k.reg .esp) = s
  room   : 4#32 ≤ k.reg .esp
  top    : k.reg .esp ≤ KMAP_MAX

/-- A call of `cpu_task_restore(s, r)`, somewhere in the kernel, with the task that was saved at `k`
intact: its words, and the caller's part of its stack. -/
structure Restores (S : SwitchCode M) (k t : Cpu) (s kstack : Addr) (r : BitVec 32) : Prop where
  kernel : t.cpl = PL_KERNEL
  eip    : t.eip = S.cpuTaskRestore
  arg1   : load32 t.mem (t.reg .esp + 4#32) = s
  arg2   : load32 t.mem (t.reg .esp + 8#32) = r
  words  : CpuTaskSave.read t.mem s = CpuTaskSave.read (saveReturn S.toTaskCode k.toState).mem s
  stack  : ∀ a, k.reg .esp ≤ a → a < kstack → t.mem a = k.mem a

/-- **The call returns again.** After a restore the machine comes to the return of the call of the save,
with nothing changed in memory but the slot of the return address. -/
theorem SwitchCode.resumes (S : SwitchCode M) {s : Addr} {r : BitVec 32} (hsave : Saves S k s)
    (hrestore : Restores S k t s kstack r) :
    ∃ v, M.Runs t v ∧ CallReturned k v (k.eip + M.size (.plain (.call S.cpuTaskSave))) kstack r ∧
      (∃ st : State, v = t.withState st) ∧
      v.mem = store32 t.mem (k.reg .esp - 4#32) (k.eip + M.size (.plain (.call S.cpuTaskSave))) := by
  have hsaved : CpuTaskSave.read t.mem s = ⟨k.reg .esp - 4#32, k.reg .ebp, k.reg .ebx, k.reg .esi,
      k.reg .edi, k.eip + M.size (.plain (.call S.cpuTaskSave))⟩ := by
    rw [hrestore.words, saveReturn_mem S.toTaskCode hsave.arg, CpuTaskSave.read_write, savedAt_saveEntry]
    rfl
  obtain ⟨u, hu, heip, heax, hesp, hebp, hebx, hesi, hedi, hmem⟩ :=
    execAll_cpuTaskRestore (t := t.toState) hrestore.arg1 hsaved
  have hplain : X86.Runs M.plain t.toState u := by
    rw [← hu]
    refine runs_ret cpuTaskRestoreMoves_moves ?_
    rw [hrestore.eip]
    exact S.restore_at
  refine ⟨t.withState u, Machine.runs_plain hrestore.kernel hplain,
    ⟨heip, heax.trans hrestore.arg2, ?_, hebp, hebx, hesi, hedi, fun a ha htop => ?_⟩, ⟨u, rfl⟩, hmem⟩
  · exact hesp.trans (BitVec.sub_add_cancel ..)
  · have hstore : u.mem a = t.mem a := by
      have hroom := hsave.room
      rw [hmem]
      exact store32_outside (by bv_omega)
    exact hstore.trans (hrestore.stack a ha htop)

/-- The handler that was entered at `e` has called `cpu_task_save` at `k`, and does what compiled code
does when this call returns with the result `r`: with its stack intact it takes it off, restores the
registers of the program and returns from the interrupt. -/
structure Suspends (I : GateImage) (S : SwitchCode M) (kstack : Addr) (e k : Cpu) (s : Addr)
    (err : Option (BitVec 32)) (r : BitVec 32) : Prop extends Saves S k s where
  runs   : M.Runs e k
  resume : ∀ v, CallReturned k v (k.eip + M.size (.plain (.call S.cpuTaskSave))) kstack r →
    v.cs = k.cs → v.ss = k.ss → v.ds = k.ds → v.es = k.es → v.eflags &&& FLAG_NT = 0#32 →
    (∃ kstack', Installed I kstack' v) →
    ∃ u, M.Runs v u ∧ M.instr u.eip = some .iret ∧ HandlerDone e err u ∧ (∃ kstack', Installed I kstack' u) ∧
      ∀ a, KMAP_MAX ≤ a → u.mem a = v.mem a

/-- **A preempted thread goes on where it was.** The program is interrupted, by whatever event, its handler
saves the task, and other threads run. Whenever one of them restores the task, with the tables
installed for whichever kernel stack and the task's own stack and words intact, the program goes on
with the registers, the selectors and the flags it had, at the instruction it had come to, and with
the memory that the other threads have left to it. -/
theorem preempted_resumes (S : SwitchCode M) (h : Installed I kstack c) (hsegs : UserSegs c) {vec : Nat}
    {soft : Bool} {fn : Addr} {dpl : BitVec 2} (hgate : I.gate vec = some (fn, dpl))
    (hsoft : soft = true → dpl = PL_USER) :
    ∃ e, deliver c vec soft err = .done e ∧ ∀ (k : Cpu) (s : Addr) (r : BitVec 32),
      Suspends I S kstack e k s err r → OffTables I (k.reg .esp - 4#32) →
      M.Runs e (k.withState (saveReturn S.toTaskCode k.toState)) ∧
      ∀ (t : Cpu) (kstack' : Addr), Restores S k t s kstack r → Installed I kstack' t →
        t.cs = k.cs → t.ss = k.ss → t.ds = k.ds → t.es = k.es → t.eflags &&& FLAG_NT = 0#32 →
        ∃ m, M.Runs t { c with mem := m } ∧ ∀ a, KMAP_MAX ≤ a → m a = t.mem a := by
  refine ⟨_, h.deliver_gate hsegs.cpl hgate hsoft, fun k s r hk hoff => ⟨?_, ?_⟩⟩
  · have hcall : M.plain.instr k.eip = some (.call S.cpuTaskSave) := by
      change (M.instr k.eip).bind _ = _
      rw [hk.call]
      rfl
    exact hk.runs.trans (Machine.runs_plain hk.kernel (@runs_saveReturn S.toTaskCode k.toState hcall))
  · intro t kstack' ht hinst hcs hss hds hes hnt
    obtain ⟨v, hv, hret, ⟨st, hst⟩, hmem⟩ := S.resumes hk.toSaves ht
    have hvinst : Installed I kstack' v := by
      subst hst
      refine ⟨hinst.gdtr, hinst.idtr, hinst.tss, ?_⟩
      rw [hmem]
      exact hinst.tables.store hoff _
    subst hst
    obtain ⟨u, hu, hiret, hdone, ⟨kstack'', huinst⟩, humem⟩ :=
      hk.resume _ hret hcs hss hds hes hnt ⟨kstack', hvinst⟩
    have hucpl : u.cpl = 0#2 := by
      rw [Cpu.cpl, hdone.cs]
      exact (kernelState_kernel c kstack fn (entryWords c err)).1
    have hallow : M.allows .iret u = true := by simp [Machine.allows, hucpl]
    have hback := Machine.step_iret hiret hallow (h.handler_returns hsegs fn hdone huinst)
    refine ⟨u.mem, (hv.trans hu).tail hback, fun a ha => (humem a ha).trans ?_⟩
    have hroom := hk.room
    have htop := hk.top
    rw [hmem]
    exact store32_outside (by bv_omega)

-- ---------------------------------------------------------------------------
-- An example
-- ---------------------------------------------------------------------------

/-- A handler that saves its task at `0x200000`, at the address of `isr_irq0`, and the two functions. -/
def exampleSwitchHead : List Op :=
  [.push .eax, .push .ecx, .push .edx, .plain (.imm .eax 0x200000#32), .push .eax]
def exampleSwitchTail : List Op := [.add .esp 4#32, .pop .edx, .pop .ecx, .pop .eax]

def exampleSwitch : Machine :=
  exampleMachine [(0x10200#32, exampleSwitchHead ++ .plain (.call 0x30000#32) :: (exampleSwitchTail ++ [.iret])),
    (0x30000#32, (cpuTaskSaveMoves ++ [Instr.ret]).map Op.plain),
    (0x30100#32, (cpuTaskRestoreMoves ++ [Instr.ret]).map Op.plain)]

def exampleSwitchCode : SwitchCode exampleSwitch :=
  ⟨0x30000#32, 0x30100#32, by decide +kernel, by decide +kernel⟩

/-- The handler at its call of `cpu_task_save`. -/
def exampleSaving (e : Cpu) : Cpu := exampleSwitch.execAll exampleSwitchHead e

theorem exampleSaving_spec (e : Cpu) :
    (exampleSaving e).mem = (pushAll e.mem (e.reg .esp) [e.reg .eax, e.reg .ecx, e.reg .edx, 0x200000#32]).1 ∧
      (exampleSaving e).reg .esp = e.reg .esp - 16#32 ∧
      (exampleSaving e).reg .ebx = e.reg .ebx ∧ (exampleSaving e).reg .esi = e.reg .esi ∧
      (exampleSaving e).reg .edi = e.reg .edi ∧ (exampleSaving e).reg .ebp = e.reg .ebp ∧
      (exampleSaving e).cs = e.cs ∧ (exampleSaving e).ss = e.ss ∧ (exampleSaving e).ds = e.ds ∧
      (exampleSaving e).es = e.es := by
  have hesp : ∀ a : BitVec 32, a - 4#32 - 4#32 - 4#32 - 4#32 = a - 16#32 := fun a => by bv_omega
  simp [exampleSaving, exampleSwitchHead, Machine.execAll, Machine.exec, Machine.next, Cpu.push, Cpu.withState,
    Instr.exec, pushAll, hesp]

/-- The rest of the handler, from the return of its call. -/
theorem exampleSwitchTail_spec (v : Cpu) :
    (exampleSwitch.execAll exampleSwitchTail v).mem = v.mem ∧
      (exampleSwitch.execAll exampleSwitchTail v).reg .esp = v.reg .esp + 16#32 ∧
      (exampleSwitch.execAll exampleSwitchTail v).reg .edx = load32 v.mem (v.reg .esp + 4#32) ∧
      (exampleSwitch.execAll exampleSwitchTail v).reg .ecx = load32 v.mem (v.reg .esp + 4#32 + 4#32) ∧
      (exampleSwitch.execAll exampleSwitchTail v).reg .eax = load32 v.mem (v.reg .esp + 4#32 + 4#32 + 4#32) ∧
      (exampleSwitch.execAll exampleSwitchTail v).reg .ebx = v.reg .ebx ∧
      (exampleSwitch.execAll exampleSwitchTail v).reg .esi = v.reg .esi ∧
      (exampleSwitch.execAll exampleSwitchTail v).reg .edi = v.reg .edi ∧
      (exampleSwitch.execAll exampleSwitchTail v).reg .ebp = v.reg .ebp ∧
      (exampleSwitch.execAll exampleSwitchTail v).eflags &&& FLAG_NT = v.eflags &&& FLAG_NT := by
  have hnt : ∀ s : BitVec 32, ((v.eflags &&& ~~~FLAGS_STATUS) ||| (s &&& FLAGS_STATUS)) &&& FLAG_NT =
      v.eflags &&& FLAG_NT := fun s => and_of_apart (by decide)
  have hesp : ∀ a : BitVec 32, a + 4#32 + 4#32 + 4#32 + 4#32 = a + 16#32 := fun a => by bv_omega
  simp [exampleSwitchTail, Machine.execAll, Machine.exec, Machine.next, Machine.arith, Cpu.withState, hesp, hnt]

theorem exampleSwitch_suspends (hcpl : e.cpl = PL_KERNEL) (heip : e.eip = 0x10200#32)
    (hesp : e.reg .esp = 0x2fffec#32) :
    Suspends exampleImage exampleSwitchCode 0x300000#32 e (exampleSaving e) 0x200000#32 none 1#32 := by
  obtain ⟨hmem, hkesp, hebx, hesi, hedi, hebp, hcs, hss, hds, hes⟩ := exampleSaving_spec e
  have hkesp' : (exampleSaving e).reg .esp = 0x2fffdc#32 := by
    rw [hkesp, hesp]
    decide
  have hhead : ∀ op ∈ exampleSwitchHead, op.isStraight = true := by decide
  have htail : ∀ op ∈ exampleSwitchTail, op.isStraight = true := by decide
  have hcode : exampleSwitch.Has e.eip
      (exampleSwitchHead ++ .plain (.call 0x30000#32) :: (exampleSwitchTail ++ [.iret])) := by
    rw [heip]
    decide
  obtain ⟨hruns, hkeip, hcall, hrest⟩ := Machine.runs_execAll hhead hcode (Machine.allowsAll_kernel hcpl _)
  have hstack : OnStack (exampleSaving e).mem ((exampleSaving e).reg .esp)
      [0x200000#32, e.reg .edx, e.reg .ecx, e.reg .eax] := by
    have hnil : OnStack e.mem (e.reg .esp) [] := trivial
    have hall := hnil.pushAll [e.reg .eax, e.reg .ecx, e.reg .edx, 0x200000#32] (by simp)
    rw [pushAll_sp] at hall
    rw [hmem, hkesp]
    exact hall
  have hkcpl : (exampleSaving e).cpl = PL_KERNEL := (congrArg selRpl hcs).trans hcpl
  refine ⟨⟨hkcpl, hcall, hstack.1, ?_, ?_⟩, hruns, fun v hv hvcs hvss hvds hves hnt hinst => ?_⟩
  · rw [hkesp']
    decide
  · rw [hkesp']
    decide
  have hveip : v.eip = (exampleSaving e).eip + 1#32 := hv.eip
  have hvcpl : v.cpl = PL_KERNEL := (congrArg selRpl hvcs).trans hkcpl
  have hvcode : exampleSwitch.Has v.eip (exampleSwitchTail ++ [.iret]) := by
    rw [hveip]
    exact hrest
  obtain ⟨hvruns, -, hiret, -⟩ := Machine.runs_execAll htail hvcode (Machine.allowsAll_kernel hvcpl _)
  obtain ⟨humem, huesp, huedx, huecx, hueax, huebx, huesi, huedi, huebp, hunt⟩ := exampleSwitchTail_spec v
  set u := exampleSwitch.execAll exampleSwitchTail v with hu
  have hvstack : OnStack v.mem (v.reg .esp) [0x200000#32, e.reg .edx, e.reg .ecx, e.reg .eax] := by
    rw [hv.esp]
    refine hstack.congr fun i hi => hv.stack _ ?_ ?_
    · simp only [List.length_cons, List.length_nil] at hi
      rw [hkesp']
      bv_omega
    · simp only [List.length_cons, List.length_nil] at hi
      rw [hkesp']
      bv_omega
  obtain ⟨-, hedx, hecx, heax, -⟩ := hvstack
  have huesp' : u.reg .esp = e.reg .esp := by
    rw [huesp, hv.esp, hkesp, BitVec.sub_add_cancel]
  refine ⟨u, hvruns, hiret, ⟨?_, ?_, ?_, hvcs.trans hcs, hvds.trans hds, hves.trans hes, hunt.trans hnt⟩, ?_,
    fun a _ => congrFun humem a⟩
  · intro r hr
    cases r with
    | eax => exact hueax.trans heax
    | ebx => exact huebx.trans (hv.ebx.trans hebx)
    | ecx => exact huecx.trans hecx
    | edx => exact huedx.trans hedx
    | esi => exact huesi.trans (hv.esi.trans hesi)
    | edi => exact huedi.trans (hv.edi.trans hedi)
    | ebp => exact huebp.trans (hv.ebp.trans hebp)
    | esp => exact absurd rfl hr
  · rw [huesp']
    exact (BitVec.add_zero _).symm
  · intro i hi
    have hframe : (exampleSaving e).mem (e.reg .esp + BitVec.ofNat 32 i) = e.mem (e.reg .esp + BitVec.ofNat 32 i) := by
      rw [hmem]
      refine pushAll_sameOutside e.mem ?_ _ ?_
      · rw [hesp]
        simp only [List.length_cons, List.length_nil]
        decide
      · rw [hesp]
        simp only [List.length_cons, List.length_nil]
        bv_omega
    rw [huesp', humem, ← hframe, hesp]
    refine hv.stack _ ?_ ?_
    · rw [hkesp']
      bv_omega
    · bv_omega
  · obtain ⟨kstack', hinst⟩ := hinst
    refine ⟨kstack', hinst.gdtr, hinst.idtr, hinst.tss, ?_⟩
    rw [humem]
    exact hinst.tables

/-- Another thread at its call of `cpu_task_restore(0x200000, 1)`, with its stack at `0x280000`. -/
def exampleRestoring (k : Cpu) (m : Mem) : Cpu :=
  { k with
    reg := fun r => if r = .esp then 0x280000#32 else 0xff#32
    eip := 0x30100#32
    eflags := 2#32
    mem := store32 (store32 m 0x280004#32 0x200000#32) 0x280008#32 1#32 }

theorem exampleRestoring_state (k : Cpu) (m : Mem) :
    (exampleRestoring k m).cs = k.cs ∧ (exampleRestoring k m).ss = k.ss ∧ (exampleRestoring k m).ds = k.ds ∧
      (exampleRestoring k m).es = k.es ∧ (exampleRestoring k m).eflags &&& FLAG_NT = 0#32 ∧
      (exampleRestoring k m).reg .ebx = 0xff#32 :=
  ⟨rfl, rfl, rfl, rfl, (by decide : 2#32 &&& FLAG_NT = 0#32), rfl⟩

/-- What the save and the call of the restore leave of memory. -/
theorem exampleRestoring_mem {k : Cpu} (hkesp : k.reg .esp = 0x2fffdc#32) (hs : load32 k.mem (k.reg .esp) = 0x200000#32)
    {a : Addr} (ha : a.toNat < 0x200000 ∨ 0x2fffdc ≤ a.toNat) :
    (exampleRestoring k (saveReturn exampleSwitchCode.toTaskCode k.toState).mem).mem a = k.mem a := by
  have hsave : (saveReturn exampleSwitchCode.toTaskCode k.toState).mem a = k.mem a := by
    rw [saveReturn_mem exampleSwitchCode.toTaskCode hs, CpuTaskSave.write_outside (by bv_omega)]
    simp only [saveEntry, Instr.exec, State.mem_setEip, State.mem_setMem, State.reg_setEip]
    rw [hkesp]
    exact store32_outside (by bv_omega)
  rw [exampleRestoring]
  dsimp only
  rw [store32_outside (by bv_omega), store32_outside (by bv_omega), hsave]

theorem exampleRestoring_restores {k : Cpu} (hcpl : k.cpl = PL_KERNEL) (hkesp : k.reg .esp = 0x2fffdc#32)
    (hs : load32 k.mem (k.reg .esp) = 0x200000#32) :
    Restores exampleSwitchCode k (exampleRestoring k (saveReturn exampleSwitchCode.toTaskCode k.toState).mem)
      0x200000#32 0x300000#32 1#32 := by
  have hword : ∀ (m : Mem) (a : Addr), a ∈ [0x200000#32, 0x200004#32, 0x200008#32, 0x20000c#32, 0x200010#32,
      0x200014#32] → load32 (store32 (store32 m 0x280004#32 0x200000#32) 0x280008#32 1#32) a = load32 m a := by
    intro m a ha
    simp only [List.mem_cons, List.not_mem_nil, or_false] at ha
    rw [load32_store32_disjoint (by bv_omega) (by bv_omega), load32_store32_disjoint (by bv_omega) (by bv_omega)]
  refine ⟨hcpl, rfl, ?_, load32_store32_same .., ?_, fun a ha _ => ?_⟩
  · have harg : (0x280000#32 : Addr) + 4#32 = 0x280004#32 := rfl
    simp only [exampleRestoring, if_true]
    rw [harg, load32_store32_disjoint (by decide) (by decide), load32_store32_same]
  · simp only [CpuTaskSave.read, exampleRestoring]
    rw [hword _ _ (by decide), hword _ _ (by decide), hword _ _ (by decide), hword _ _ (by decide),
      hword _ _ (by decide), hword _ _ (by decide)]
  · refine exampleRestoring_mem hkesp hs (.inr ?_)
    rw [hkesp] at ha
    bv_omega

/-- The entry of the handler. -/
theorem exampleEntry_spec (h : Installed exampleImage 0x300000#32 c) (hcpl : c.cpl = PL_USER)
    (he : deliver c 32 false none = .done e) :
    e.eip = 0x10200#32 ∧ e.cpl = PL_KERNEL ∧ e.reg .esp = 0x2fffec#32 ∧ e.gdtr = c.gdtr ∧ e.idtr = c.idtr ∧
      e.tss = c.tss ∧ ∀ a : Addr, a.toNat < 0x4000 → e.mem a = c.mem a := by
  have hgate : exampleImage.gate 32 = some (exampleImage.isr isrIrq0, PL_KERNEL) := rfl
  have hentry := @Installed.deliver_gate exampleImage 0x300000#32 c 32 false none h hcpl _ _ hgate
    Bool.false_ne_true.elim
  have hlen : (entryWords c none).length = 5 := rfl
  rw [he, X86.Outcome.done.injEq] at hentry
  subst hentry
  refine ⟨rfl, (kernelState_kernel ..).1, ?_, rfl, rfl, rfl, fun a ha => ?_⟩
  · rw [kernelEntry, kernelState_esp, hlen]
    decide
  · refine kernelState_sameOutside c _ ?_ a ?_
    · rw [hlen]
      decide
    · rw [hlen]
      bv_omega

/-- The tables at the restore. -/
theorem exampleRestoring_installed (h : Installed exampleImage 0x300000#32 c) (hcpl : c.cpl = PL_USER)
    (he : deliver c 32 false none = .done e) (hsusp : Saves exampleSwitchCode (exampleSaving e) 0x200000#32) :
    Installed exampleImage 0x300000#32 (exampleRestoring (exampleSaving e)
      (saveReturn exampleSwitchCode.toTaskCode (exampleSaving e).toState).mem) := by
  obtain ⟨-, -, hesp, hgdtr, hidtr, htss, hlow⟩ := exampleEntry_spec h hcpl he
  obtain ⟨hkmem, hkesp, -⟩ := exampleSaving_spec e
  rw [hesp] at hkesp
  refine ⟨hgdtr.trans h.gdtr, hidtr.trans h.idtr, htss.trans h.tss, exampleTables_congr h.tables fun a ha => ?_⟩
  have hpush : (exampleSaving e).mem a = e.mem a := by
    rw [hkmem]
    refine pushAll_sameOutside e.mem ?_ a ?_
    · rw [hesp]
      simp only [List.length_cons, List.length_nil]
      decide
    · rw [hesp]
      simp only [List.length_cons, List.length_nil]
      bv_omega
  exact (exampleRestoring_mem hkesp hsusp.arg (.inl (by omega))).trans (hpush.trans (hlow a ha))

/-- The timer, and a switch back. -/
theorem preempted_resumes_timer :
    ∃ c t : Cpu, c.eip = 0x400000#32 ∧ c.cpl = PL_USER ∧ t.cpl = PL_KERNEL ∧ t.reg .ebx = 0xff#32 ∧
      ∃ m, exampleSwitch.Runs t { c with mem := m } := by
  have hinst : Installed exampleImage 0x300000#32 (exampleUser exampleMem 0x400000#32 0x500000#32) :=
    exampleUser_installed (fun _ _ => rfl) _ _
  have hsegs := exampleUser_segs exampleMem 0x400000#32 0x500000#32
  have hgate : exampleImage.gate 32 = some (exampleImage.isr isrIrq0, PL_KERNEL) := rfl
  obtain ⟨e, hdone, hback⟩ := @preempted_resumes exampleImage exampleSwitch 0x300000#32
    (exampleUser exampleMem 0x400000#32 0x500000#32) none exampleSwitchCode hinst hsegs 32 false _ _ hgate
    Bool.false_ne_true.elim
  obtain ⟨heip, hcpl, hesp, -⟩ := exampleEntry_spec hinst hsegs.cpl hdone
  have hsusp := exampleSwitch_suspends hcpl heip hesp
  have hkesp : (exampleSaving e).reg .esp = 0x2fffdc#32 := by
    rw [(exampleSaving_spec e).2.1, hesp]
    decide
  have hoff : OffTables exampleImage ((exampleSaving e).reg .esp - 4#32) := by
    rw [hkesp]
    constructor <;> decide
  obtain ⟨-, hresume⟩ := hback (exampleSaving e) 0x200000#32 1#32 hsusp hoff
  obtain ⟨hcs, hss, hds, hes, hnt, hebx⟩ :=
    exampleRestoring_state (exampleSaving e) (saveReturn exampleSwitchCode.toTaskCode (exampleSaving e).toState).mem
  have hrestores := exampleRestoring_restores hsusp.kernel hkesp hsusp.arg
  obtain ⟨m, hruns, -⟩ := hresume _ _ hrestores
    (exampleRestoring_installed hinst hsegs.cpl hdone hsusp.toSaves) hcs hss hds hes hnt
  exact ⟨_, _, rfl, hsegs.cpl, hrestores.kernel, hebx, m, hruns⟩

end Munix
