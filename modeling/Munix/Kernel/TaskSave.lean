import Munix.Lib.X86

/-!
# Munix — saving and restoring a task

`cpu_task_save` and `cpu_task_restore` of `arch/i386/cpu_task_save.S`, as
instructions of the machine of `Munix.Lib.X86`, and the `struct cpu_task_save` of
`arch/i386/cpu.h` that they share.

* `cpuTaskRestore_resumes` — a restore comes back where the save was called, with the
  stack and the registers of that time.
* `cpuTaskSave_returns` — the save itself returns 0.
-/

namespace Munix

open ByteMem X86

/-- `struct cpu_task_save`. -/
structure CpuTaskSave where
  stackPointerESP : BitVec 32
  stackFrameEBP   : BitVec 32
  calleeEBX       : BitVec 32
  calleeESI       : BitVec 32
  calleeEDI       : BitVec 32
  returnAddr      : BitVec 32
deriving DecidableEq

/-- The structure at an address: its fields are words, one after the other. -/
def CpuTaskSave.read (m : Mem) (s : Addr) : CpuTaskSave where
  stackPointerESP := load32 m s
  stackFrameEBP   := load32 m (s + 4#32)
  calleeEBX       := load32 m (s + 8#32)
  calleeESI       := load32 m (s + 12#32)
  calleeEDI       := load32 m (s + 16#32)
  returnAddr      := load32 m (s + 20#32)

/-- `cpu_task_save`, up to its `ret`. -/
def cpuTaskSaveMoves : List Instr :=
  [.load .ecx .esp 4#32,
   .load .edx .esp 0#32,
   .store .esp .ecx 0#32,
   .store .ebp .ecx 4#32,
   .store .ebx .ecx 8#32,
   .store .esi .ecx 12#32,
   .store .edi .ecx 16#32,
   .store .edx .ecx 20#32,
   .imm .eax 0#32]

/-- `cpu_task_restore`, up to its `ret`. -/
def cpuTaskRestoreMoves : List Instr :=
  [.load .ecx .esp 4#32,
   .load .eax .esp 8#32,
   .load .esp .ecx 0#32,
   .load .ebp .ecx 4#32,
   .load .ebx .ecx 8#32,
   .load .esi .ecx 12#32,
   .load .edi .ecx 16#32,
   .load .edx .ecx 20#32,
   .store .edx .esp 0#32]

/-- The kernel's code, with the two functions in it. -/
structure TaskCode extends Code where
  cpuTaskSave    : Addr
  cpuTaskRestore : Addr
  save_at        : toCode.Has cpuTaskSave (cpuTaskSaveMoves ++ [.ret])
  restore_at     : toCode.Has cpuTaskRestore (cpuTaskRestoreMoves ++ [.ret])

theorem cpuTaskSaveMoves_moves : ∀ i ∈ cpuTaskSaveMoves, i.isMove = true := by decide

theorem cpuTaskRestoreMoves_moves : ∀ i ∈ cpuTaskRestoreMoves, i.isMove = true := by decide

-- ---------------------------------------------------------------------------
-- The effect of each function
-- ---------------------------------------------------------------------------

/-- Memory with a saved state in the structure at `s`. -/
def CpuTaskSave.write (m : Mem) (s : Addr) (save : CpuTaskSave) : Mem :=
  store32 (store32 (store32 (store32 (store32 (store32 m
    s save.stackPointerESP)
    (s + 4#32) save.stackFrameEBP)
    (s + 8#32) save.calleeEBX)
    (s + 12#32) save.calleeESI)
    (s + 16#32) save.calleeEDI)
    (s + 20#32) save.returnAddr

/-- The six words do not get into each other's way. -/
theorem CpuTaskSave.read_write (m : Mem) (s : Addr) (save : CpuTaskSave) :
    CpuTaskSave.read (CpuTaskSave.write m s save) s = save := by
  -- A later field is stored at least one word away from an earlier one.
  have hkeep : ∀ (m : Mem) (v i j : BitVec 32), 4 ≤ (i - j).toNat → (i - j).toNat + 4 ≤ 2 ^ 32 →
      load32 (store32 m (s + j) v) (s + i) = load32 m (s + i) := by
    intro m v i j hlo hhi
    have hoff : s + i - (s + j) = i - j := by bv_omega
    exact load32_store32_disjoint (by rwa [hoff]) (by rwa [hoff])
  have hkeep₀ : ∀ (m : Mem) (v j : BitVec 32), 4 ≤ (0#32 - j).toNat → (0#32 - j).toNat + 4 ≤ 2 ^ 32 →
      load32 (store32 m (s + j) v) s = load32 m s := by
    intro m v j hlo hhi
    simpa using hkeep m v 0#32 j hlo hhi
  have hesp : load32 (CpuTaskSave.write m s save) s = save.stackPointerESP := by
    simp (disch := decide) only [CpuTaskSave.write, hkeep₀, load32_store32_same]
  have hebp : load32 (CpuTaskSave.write m s save) (s + 4#32) = save.stackFrameEBP := by
    simp (disch := decide) only [CpuTaskSave.write, hkeep, load32_store32_same]
  have hebx : load32 (CpuTaskSave.write m s save) (s + 8#32) = save.calleeEBX := by
    simp (disch := decide) only [CpuTaskSave.write, hkeep, load32_store32_same]
  have hesi : load32 (CpuTaskSave.write m s save) (s + 12#32) = save.calleeESI := by
    simp (disch := decide) only [CpuTaskSave.write, hkeep, load32_store32_same]
  have hedi : load32 (CpuTaskSave.write m s save) (s + 16#32) = save.calleeEDI := by
    simp (disch := decide) only [CpuTaskSave.write, hkeep, load32_store32_same]
  have hret : load32 (CpuTaskSave.write m s save) (s + 20#32) = save.returnAddr := by
    simp only [CpuTaskSave.write, load32_store32_same]
  rw [CpuTaskSave.read, hesp, hebp, hebx, hesi, hedi, hret]

/-- The memory outside the structure is unchanged. -/
theorem CpuTaskSave.write_outside {m : Mem} {s a : Addr} {save : CpuTaskSave}
    (h : 24 ≤ (a - s).toNat) : CpuTaskSave.write m s save a = m a := by
  simp only [CpuTaskSave.write]
  iterate 6 rw [store32_outside (by bv_omega)]

/-- What `cpu_task_save` leaves in memory, from its entry. -/
def savedAt (e : State) : CpuTaskSave where
  stackPointerESP := e.reg .esp
  stackFrameEBP   := e.reg .ebp
  calleeEBX       := e.reg .ebx
  calleeESI       := e.reg .esi
  calleeEDI       := e.reg .edi
  returnAddr      := load32 e.mem (e.reg .esp)

theorem execAll_cpuTaskSave_mem (e : State) :
    (execAll cpuTaskSaveMoves e).mem =
      CpuTaskSave.write e.mem (load32 e.mem (e.reg .esp + 4#32)) (savedAt e) := by
  simp [execAll, cpuTaskSaveMoves, Instr.exec, CpuTaskSave.write, savedAt]

theorem execAll_cpuTaskSave_esp (e : State) :
    (execAll cpuTaskSaveMoves e).reg .esp = e.reg .esp := by
  simp [execAll, cpuTaskSaveMoves, Instr.exec]

/-- `cpu_task_restore` with a structure `save` at its first argument. -/
theorem execAll_cpuTaskRestore {t : State} {s : Addr} {save : CpuTaskSave}
    (hs : load32 t.mem (t.reg .esp + 4#32) = s) (hsave : CpuTaskSave.read t.mem s = save) :
    ∃ u, Instr.ret.exec (execAll cpuTaskRestoreMoves t) = u ∧
      u.eip = save.returnAddr ∧ u.reg .eax = load32 t.mem (t.reg .esp + 8#32) ∧
      u.reg .esp = save.stackPointerESP + 4#32 ∧ u.reg .ebp = save.stackFrameEBP ∧
      u.reg .ebx = save.calleeEBX ∧ u.reg .esi = save.calleeESI ∧ u.reg .edi = save.calleeEDI ∧
      u.mem = store32 t.mem save.stackPointerESP save.returnAddr := by
  subst hsave
  refine ⟨_, rfl, ?_⟩
  simp [execAll, cpuTaskRestoreMoves, Instr.exec, CpuTaskSave.read, hs]

-- ---------------------------------------------------------------------------
-- From the call of the save to the return of the restore
-- ---------------------------------------------------------------------------

/-- The state at the entry of `cpu_task_save`, called from `c`. -/
def saveEntry (code : TaskCode) (c : State) : State :=
  (Instr.call code.cpuTaskSave).exec (c.setEip (c.eip + code.size (.call code.cpuTaskSave)))

/-- The state in which the call of `cpu_task_save` from `c` returns. -/
def saveReturn (code : TaskCode) (c : State) : State :=
  Instr.ret.exec (execAll cpuTaskSaveMoves (saveEntry code c))

variable {code : TaskCode} {c : State}

theorem runs_saveReturn (hcall : code.instr c.eip = some (.call code.cpuTaskSave)) :
    Runs code.toCode c (saveReturn code c) :=
  runs_call hcall cpuTaskSaveMoves_moves code.save_at

theorem saveReturn_esp (code : TaskCode) (c : State) : (saveReturn code c).reg .esp = c.reg .esp := by
  simp only [saveReturn, Instr.exec, saveEntry, State.reg_setEip, State.mem_setEip, State.eip_setEip,
    execAll_cpuTaskSave_esp, State.reg_setMem, State.reg_setReg_same, BitVec.sub_add_cancel]

/-- The argument on the stack is not touched by the push of the return address. -/
theorem saveEntry_arg (code : TaskCode) (c : State) :
    load32 (saveEntry code c).mem ((saveEntry code c).reg .esp + 4#32) = load32 c.mem (c.reg .esp) := by
  simp only [saveEntry, Instr.exec, State.mem_setEip, State.mem_setMem, State.reg_setEip,
    State.reg_setMem, State.reg_setReg_same]
  rw [BitVec.sub_add_cancel]
  refine load32_store32_disjoint ?_ ?_ <;> bv_omega

theorem savedAt_saveEntry (code : TaskCode) (c : State) :
    savedAt (saveEntry code c) =
      ⟨c.reg .esp - 4#32, c.reg .ebp, c.reg .ebx, c.reg .esi, c.reg .edi,
        c.eip + code.size (.call code.cpuTaskSave)⟩ := by
  simp [savedAt, saveEntry, Instr.exec]

/-- The structure, and nothing else but the stack slot, has changed when the save
returns. -/
theorem saveReturn_mem (code : TaskCode) {c : State} {s : Addr} (hs : load32 c.mem (c.reg .esp) = s) :
    (saveReturn code c).mem = CpuTaskSave.write (saveEntry code c).mem s (savedAt (saveEntry code c)) := by
  have hmem : (saveReturn code c).mem = (execAll cpuTaskSaveMoves (saveEntry code c)).mem := rfl
  rw [hmem, execAll_cpuTaskSave_mem, saveEntry_arg, hs]

/-- The save itself returns 0 after its call, unless the structure lies over the return
address on the stack. -/
theorem cpuTaskSave_returns {s : Addr} (hs : load32 c.mem (c.reg .esp) = s)
    (hlo : 24 ≤ (c.reg .esp - 4#32 - s).toNat)
    (hhi : (c.reg .esp - 4#32 - s).toNat + 4 ≤ 2 ^ 32) :
    (saveReturn code c).eip = c.eip + code.size (.call code.cpuTaskSave) ∧
      (saveReturn code c).reg .eax = 0#32 ∧
      CpuTaskSave.read (saveReturn code c).mem s = savedAt (saveEntry code c) := by
  have hsp : (saveEntry code c).reg .esp = c.reg .esp - 4#32 := by simp [saveEntry, Instr.exec]
  refine ⟨?_, ?_, ?_⟩
  · have heip : (saveReturn code c).eip =
        load32 (execAll cpuTaskSaveMoves (saveEntry code c)).mem (c.reg .esp - 4#32) := by
      rw [← hsp, ← execAll_cpuTaskSave_esp]
      rfl
    have hslot : load32 (saveReturn code c).mem (c.reg .esp - 4#32) =
        load32 (saveEntry code c).mem (c.reg .esp - 4#32) := by
      rw [saveReturn_mem code hs]
      refine load32_congr fun i hi => CpuTaskSave.write_outside ?_
      bv_omega
    rw [heip]
    refine hslot.trans ?_
    simp [saveEntry, Instr.exec]
  · simp [saveReturn, Instr.exec, execAll, cpuTaskSaveMoves]
  · rw [saveReturn_mem code hs, CpuTaskSave.read_write]

/-- **A restore resumes the save.** From any call of `cpu_task_save(s)` the machine
comes to the return of this call, and from every later entry of `cpu_task_restore(s, r)`
with the six words of `s` and the memory from the caller's stack pointer on intact, it
comes to the instruction after the call of the save. The stack pointer is the one with
which the call returned, the registers that a function must keep are those of the call,
the result is `r`, and the memory has changed in the stack slot of the return address
only. -/
theorem cpuTaskRestore_resumes (code : TaskCode) (c : State) (s : Addr)
    (hcall : code.instr c.eip = some (.call code.cpuTaskSave))
    (hs : load32 c.mem (c.reg .esp) = s) :
    Runs code.toCode c (saveReturn code c) ∧
    ∀ (t : State) (r : BitVec 32), t.eip = code.cpuTaskRestore →
      load32 t.mem (t.reg .esp + 4#32) = s → load32 t.mem (t.reg .esp + 8#32) = r →
      CpuTaskSave.read t.mem s = CpuTaskSave.read (saveReturn code c).mem s →
      (∀ a, c.reg .esp ≤ a → t.mem a = (saveReturn code c).mem a) →
      ∃ u, Runs code.toCode t u ∧
        u.eip = c.eip + code.size (.call code.cpuTaskSave) ∧ u.reg .eax = r ∧
        u.reg .esp = (saveReturn code c).reg .esp ∧ u.reg .esp = c.reg .esp ∧
        u.reg .ebp = c.reg .ebp ∧ u.reg .ebx = c.reg .ebx ∧ u.reg .esi = c.reg .esi ∧
        u.reg .edi = c.reg .edi ∧
        (∀ a, 4 ≤ (a - (c.reg .esp - 4#32)).toNat → u.mem a = t.mem a) ∧
        (4#32 ≤ c.reg .esp → ∀ a, c.reg .esp ≤ a → u.mem a = (saveReturn code c).mem a) := by
  refine ⟨runs_saveReturn hcall, ?_⟩
  intro t r hentry hargS hargR hwords habove
  have hsaved : CpuTaskSave.read t.mem s = ⟨c.reg .esp - 4#32, c.reg .ebp, c.reg .ebx, c.reg .esi,
      c.reg .edi, c.eip + code.size (.call code.cpuTaskSave)⟩ := by
    rw [hwords, saveReturn_mem code hs, CpuTaskSave.read_write, savedAt_saveEntry]
  obtain ⟨u, hu, heip, heax, hesp, hebp, hebx, hesi, hedi, hmem⟩ :=
    execAll_cpuTaskRestore hargS hsaved
  have hruns : Runs code.toCode t u := by
    rw [← hu]
    exact runs_ret cpuTaskRestoreMoves_moves (by rw [hentry]; exact code.restore_at)
  have hesp : u.reg .esp = c.reg .esp := by rw [hesp, BitVec.sub_add_cancel]
  have hframe : ∀ a, 4 ≤ (a - (c.reg .esp - 4#32)).toNat → u.mem a = t.mem a := by
    intro a ha
    rw [hmem, store32_outside ha]
  refine ⟨u, hruns, heip, heax.trans hargR, hesp.trans (saveReturn_esp code c).symm, hesp, hebp, hebx,
    hesi, hedi, hframe, ?_⟩
  intro hroom a ha
  rw [hframe a (by bv_omega), habove a ha]

/-- The two functions and a call of the first, with one byte for each instruction. -/
def smallCode : TaskCode where
  instr a := (cpuTaskSaveMoves ++ [.ret] ++ cpuTaskRestoreMoves ++ [.ret, .call 0#32])[a.toNat]?
  size _ := 1#32
  cpuTaskSave := 0#32
  cpuTaskRestore := 10#32
  save_at := by decide +kernel
  restore_at := by decide +kernel

/-- A thread whose stack pointer is `0x1000` calls `cpu_task_save(0x2000)`. -/
def smallCall : State where
  reg r := if r = .esp then 0x1000#32 else if r = .ebx then 0xb#32 else 0#32
  eip := 20#32
  mem := store32 (fun _ => 0#8) 0x1000#32 0x2000#32

/-- Later another thread calls `cpu_task_restore(0x2000, 1)`, and the stack slot of the
return address has been overwritten. -/
def smallRestore : State where
  reg r := if r = .esp then 0x800#32 else 0xff#32
  eip := 10#32
  mem := store32 (store32 (store32 (saveReturn smallCode smallCall).mem 0x804#32 0x2000#32)
    0x808#32 1#32) 0xffc#32 0xdeadbeef#32

theorem cpuTaskRestore_resumes_switch :
    ∃ u, Runs smallCode.toCode smallRestore u ∧ u.eip = 21#32 ∧ u.reg .eax = 1#32 ∧
      u.reg .esp = 0x1000#32 ∧ u.reg .ebx = 0xb#32 := by
  have habove : ∀ a, smallCall.reg .esp ≤ a →
      smallRestore.mem a = (saveReturn smallCode smallCall).mem a := by
    intro a ha
    have ha : 0x1000#32 ≤ a := ha
    simp only [smallRestore]
    rw [store32_outside (by bv_omega), store32_outside (by bv_omega), store32_outside (by bv_omega)]
  obtain ⟨u, hruns, heip, heax, -, hesp, -, hebx, -⟩ :=
    (cpuTaskRestore_resumes smallCode smallCall 0x2000#32 (by decide +kernel) (by decide +kernel)).2
      smallRestore 1#32 rfl (by decide +kernel) (by decide +kernel) (by decide +kernel) habove
  exact ⟨u, hruns, heip, heax, hesp, hebx⟩

end Munix
