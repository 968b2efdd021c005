import Munix.Kernel.Process

/-!
# Munix — running programs from the shell

The model of `process_start`, `process_close`, `process_kill` and `process_exit`
on the whole kernel state, and of `kshell_read_exec` for a command line that
names an executable. The built-in commands of the shell are not modelled.

The arguments of the program are pushed through the active page map, whichever
that is. A page fault there is an exception in the kernel: the current process is
killed, and a new shell begins (`kernel_noreturn`).
-/

namespace Munix

open ByteMem

-- ---------------------------------------------------------------------------
-- process.c
-- ---------------------------------------------------------------------------

structure Kernel where
  res   : Resources
  sched : Sched

/-- What `process_close(p)` does to the scheduler's data: the current process, and
the list head of the process. -/
def closeSched (s : Sched) (p : Fin PROCESS_MAX) : Sched :=
  { s with
    currentProcess := if s.currentProcess = some p then none else s.currentProcess
    links := Function.update s.links (.threads p) ⟨0, 0⟩ }

/-- `process_close(p)`. -/
def processClose (k : Kernel) (p : Fin PROCESS_MAX) : Option Kernel :=
  (closeResources k.res p).map fun r => ⟨r, closeSched k.sched p⟩

/-- `process_kill(p)`. The process is not the current one any more when this is
checked, so that the function returns. -/
def processKill (k : Kernel) : Option (Fin PROCESS_MAX) → Option Kernel
  | none => some k
  | some p => processClose k p

/-- `handle_exception`, up to its call of `kernel_noreturn`. -/
def handleException (k : Kernel) : Option Kernel := processKill k k.sched.currentProcess

-- ---------------------------------------------------------------------------
-- Arguments
-- ---------------------------------------------------------------------------

/-- A 32-bit word as it is stored. -/
def word (v : BitVec 32) : List Byte :=
  [v.extractLsb' 0 8, v.extractLsb' 8 8, v.extractLsb' 16 8, v.extractLsb' 24 8]

section Push

variable (cr3 : Pme)

/-- `push_str(stack, str)`: memory and the stack pointer, which is where the string
is. -/
def pushStr (m : Mem) (sp : BitVec 32) (str : List Byte) : Outcome Mem (Mem × BitVec 32) :=
  let slots := alignUp (BitVec.ofNat 32 (str.length + 1)) 4#32 / 4#32
  let sp := sp - 4#32 * slots
  match storeBytesV cr3 m sp (str ++ [0#8]) with
  | .ok m => .ok (m, sp)
  | .fault m => .fault m
  | .clobber => .clobber

/-- The first loop of `push_args`: also the new pointers. -/
def pushStrs : Mem → BitVec 32 → List (List Byte) → Outcome Mem (Mem × BitVec 32 × List (BitVec 32))
  | m, sp, [] => .ok (m, sp, [])
  | m, sp, str :: strs =>
    match pushStr cr3 m sp str with
    | .clobber => .clobber
    | .fault m => .fault m
    | .ok (m, sp) =>
      match pushStrs m sp strs with
      | .clobber => .clobber
      | .fault m => .fault m
      | .ok (m, sp', ptrs) => .ok (m, sp', sp :: ptrs)

/-- `PUSH(*sp, val)` for each of the values. -/
def pushWords : Mem → BitVec 32 → List (BitVec 32) → Outcome Mem (Mem × BitVec 32)
  | m, sp, [] => .ok (m, sp)
  | m, sp, val :: vals =>
    match storeBytesV cr3 m (sp - 4#32) (word val) with
    | .clobber => .clobber
    | .fault m => .fault m
    | .ok m => pushWords m (sp - 4#32) vals

/-- `push_args(sp, argc, argv)`: the strings, a separating zero, the pointers from
the last to the first, and `argc`. -/
def pushArgs (m : Mem) (sp : BitVec 32) (argv : List (List Byte)) : Outcome Mem (Mem × BitVec 32) :=
  match pushStrs cr3 m sp argv with
  | .clobber => .clobber
  | .fault m => .fault m
  | .ok (m, sp, ptrs) =>
    pushWords cr3 m sp (0#32 :: ptrs.reverse ++ [BitVec.ofNat 32 argv.length])

end Push

-- ---------------------------------------------------------------------------
-- Starting a process
-- ---------------------------------------------------------------------------

/-- How a command ends. -/
inductive ExecEnd where
  /-- In a shell that waits for the next command. -/
  | ended (k : Kernel)
  /-- In the scheduler, which `process_start` has called. -/
  | scheduled (k : Kernel)
  /-- In a CPU without kernel: the active page map does not have it. -/
  | dead
  /-- In a store into kernel memory. -/
  | clobber
  /-- In a built-in command. -/
  | builtin

/-- `process_start(p, argc, argv)`, up to its call of `schedule`. -/
def processStart (L : Layout) (k : Kernel) (p : Fin PROCESS_MAX) (argv : List (List Byte)) :
    Option ExecEnd :=
  let k := { k with sched := { k.sched with currentProcess := some p } }
  match pushArgs k.res.cr3 k.res.pm.mem (k.res.pcb p).ustack argv with
  | .clobber => some .clobber
  | .fault m => (handleException { k with res := k.res.setMem m }).map .ended
  | .ok (m, sp) =>
    let r := (k.res.setMem m).setProcess p fun pr => { pr with ustack := sp }
    some (.scheduled ⟨r, (threadCreate L k.sched p (r.pcb p).startAddr sp).2⟩)

-- ---------------------------------------------------------------------------
-- kshell.c
-- ---------------------------------------------------------------------------

def SH_LINEBUFSZ : Nat := 256
def SH_ARGVSZ : Nat := 16

def isgraph (c : Byte) : Bool := 0x21#8 ≤ c && c ≤ 0x7e#8

def isspace (c : Byte) : Bool :=
  c == byte ' ' || c == byte '\t' || c == byte '\n' || c == byte '\r' || c == 0x0c#8 || c == 0x0b#8

/-- The loop of `sh_break_cmdline`; `none` is `-E2BIG`. An argument goes up to the
next space, which becomes its terminator. -/
def breakLoop (argn : Nat) : List Byte → Bool → Nat → Option (List (List Byte))
  | [], _, _ => some []
  | ch :: rest, inword, argc =>
    let inword := if isspace ch then false else inword
    if isgraph ch then
      if inword then breakLoop argn rest true argc
      else if argc < argn - 1 then
        (breakLoop argn rest true (argc + 1)).map (((ch :: rest).takeWhile fun c => !isspace c) :: ·)
      else none
    else breakLoop argn rest inword argc

def shBreakCmdline (cmdline : List Byte) (argn : Nat) : Option (List (List Byte)) :=
  breakLoop argn cmdline false 0

/-- The names in `KSH_CMDS`. -/
def kshCmds : List (List Byte) :=
  [bytes "help", bytes "inputtest", bytes "mount", bytes "pwd", bytes "ls", bytes "stat",
    bytes "xhead", bytes "reset"]

/-- Whether `kshell_search_builtins` finds a command. -/
def kshellSearchBuiltins (arg0 : List Byte) : Bool := kshCmds.any fun name => strcmp arg0 name = 0

/-- `kshell_search_bin`, over the directories that are left. -/
def kshellSearchBin (fuel : Nat) (execname : List Byte) :
    List (List Byte) → Vfs → Option (Option (List Byte) × Vfs)
  | [], v => some (none, v)
  | binpath :: rest, v =>
    match fileStat fuel v ⟨0#32, .unknown, 0#32, 0#32⟩ binpath execname with
    | none => none
    | some (res, fstat, v) =>
      if res = -ENOENT then kshellSearchBin fuel execname rest v
      else if res < 0 then some (none, v)
      else if fstat.fType = .reg then some (some binpath, v)
      else kshellSearchBin fuel execname rest v

/-- `BIN_PATHS`. -/
def binPaths : List (List Byte) := [bytes "/sbin", bytes "/bin"]

/-- The executable part of `kshell_read_exec`. The result of the load is reported
and otherwise ignored. A full process table gives a NULL pointer, through which
the process structure is written to page 0. -/
def kshellExec (L : Layout) (fuel : Nat) (junk : StackJunk) (k : Kernel) (bindir : List Byte)
    (argv : List (List Byte)) : Option ExecEnd :=
  match processAlloc k.res with
  | none => some .clobber
  | some p =>
    -- resetting the structure resets its list head too
    let sched := { k.sched with links := Function.update k.sched.links (.threads p) ⟨0, 0⟩ }
    match processLoadPath L fuel junk k.res p bindir (argv.headD []) with
    | none => none
    | some .clobber => some .clobber
    | some (.fault r) => (handleException ⟨r, sched⟩).map .ended
    | some (.ok (_, r)) =>
      if r.kernelMapped then processStart L ⟨r, sched⟩ p argv else some .dead

/-- `kshell_read_exec`, with the line that was read. -/
def kshellReadExec (L : Layout) (fuel : Nat) (junk : StackJunk) (k : Kernel) (line : List Byte) :
    Option ExecEnd :=
  match shBreakCmdline line SH_ARGVSZ with
  | none => some (.ended k)
  | some [] => some (.ended k)
  | some (arg0 :: args) =>
    if kshellSearchBuiltins arg0 then some .builtin
    else
      match kshellSearchBin fuel arg0 binPaths k.res.vfs with
      | none => none
      | some (none, v) => some (.ended { k with res := { k.res with vfs := v } })
      | some (some bindir, v) =>
        kshellExec L fuel junk { k with res := { k.res with vfs := v } } bindir (arg0 :: args)

end Munix
