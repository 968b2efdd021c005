import Munix.Kernel.Scheduler
import Munix.Lib.SlotScan

/-!
# Munix — user threads

The model of the thread functions of `mulibc/threads.c` and of the thread entry in
`sys/i386-munix/syscall.S`, as the steps of a user thread between two points where
another thread can run: tests and writes of the shared `uthrds` array, and system
calls. `UserPc` is where a thread is in these functions. The kernel below is
`Munix.Kernel.Scheduler`.
-/

namespace Munix

-- ---------------------------------------------------------------------------
-- State
-- ---------------------------------------------------------------------------

def THRD_MAX : Nat := 8
def THRD_STACKSZ : BitVec 32 := 4096#32

/-- `struct _thrd`. -/
structure Uthrd where
  ktid       : BitVec 32
  inuse      : Bool
  ustackBase : BitVec 32
deriving DecidableEq

/-- Addresses in the program: `ustacks` and `_thread_start_munix`. -/
structure UserImage where
  ustacks     : BitVec 32
  threadStart : BitVec 32

/-- `(uintptr_t) ustacks[i]`. -/
def UserImage.ustack (im : UserImage) (i : Fin THRD_MAX) : BitVec 32 :=
  im.ustacks + THRD_STACKSZ * BitVec.ofNat 32 i.val

/-- The stack that `syscall_thrd_create_munix` hands to the kernel: aligned, with the
argument and the function pushed. -/
def UserImage.childStack (im : UserImage) (i : Fin THRD_MAX) : BitVec 32 :=
  ((im.ustack i + THRD_STACKSZ) &&& ~~~3#32) - 4#32 - 4#32

/-- Where a thread is. -/
inductive UserPc where
  /-- In its own code. -/
  | code
  /-- In the loop of `thrd_alloc`, before the test of slot `i`. -/
  | alloc (i : Nat)
  /-- In `thrd_create` with slot `i`, before the system call. -/
  | create (i : Fin THRD_MAX)
  /-- In `thrd_create`, after the system call. -/
  | created (i : Fin THRD_MAX) (res : Int)
  /-- In `thrd_join`, with `ktid` read. -/
  | join (i : Fin THRD_MAX) (ktid : BitVec 32)
  /-- In the system call of `thrd_join`. -/
  | joining (i : Fin THRD_MAX) (ktid : BitVec 32)
  /-- In `thrd_join`, after the system call. -/
  | joined (i : Fin THRD_MAX) (res : Int)
deriving DecidableEq

/-- The user side of the threads of a process. -/
structure UserState where
  uthrds  : Fin THRD_MAX → Uthrd
  /-- Where the thread in a TCB slot is. -/
  pc      : Fin THREAD_MAX → UserPc
  /-- Which `thrd_t` values are known to the program and have not been joined. -/
  handles : Fin THRD_MAX → Bool
  /-- What the calls of `thrd_create` returned. -/
  creates : List Int
  /-- What the calls of `thrd_join` returned, and whether the slot is in use then. -/
  joins   : List (Int × Bool)

def UserState.initial : UserState where
  uthrds _ := ⟨0#32, false, 0#32⟩
  pc _ := .code
  handles _ := false
  creates := []
  joins := []

def UserState.setPc (u : UserState) (c : Fin THREAD_MAX) (pc : UserPc) : UserState :=
  { u with pc := Function.update u.pc c pc }

@[simp]
theorem UserState.setPc_self (u : UserState) (c : Fin THREAD_MAX) (pc : UserPc) :
    (u.setPc c pc).pc c = pc := by
  simp [UserState.setPc]

def UserState.setUthrd (u : UserState) (i : Fin THRD_MAX) (f : Uthrd → Uthrd) : UserState :=
  { u with uthrds := Function.update u.uthrds i (f (u.uthrds i)) }

/-- Which slots are in use. -/
def UserState.inuse (u : UserState) (i : Fin THRD_MAX) : Bool := (u.uthrds i).inuse

/-- The slot that a thread looks at in `thrd_alloc`. -/
def UserPc.scan : UserPc → Option Nat
  | .alloc i => some i
  | _ => none

/-- The threads of `thrd_create` that exist at the same time: those with a slot, and
those that are being created. -/
def UserState.simultaneous (u : UserState) : Nat :=
  SlotScan.usedFrom u.inuse 0 + SlotScan.scansFrom (fun w => (u.pc w).scan) 0

-- ---------------------------------------------------------------------------
-- threads.c
-- ---------------------------------------------------------------------------

/-- `thrd_free(thrd)`, for a valid pointer. -/
def thrdFree (u : UserState) (i : Fin THRD_MAX) : UserState :=
  u.setUthrd i fun ut => { ut with inuse := false }

/-- `thrd_create` returns. -/
def UserState.createReturns (u : UserState) (c : Fin THREAD_MAX) (res : Int) : UserState :=
  { u.setPc c .code with creates := u.creates ++ [res] }

/-- One round of the loop of `thrd_alloc`, and what follows it in `thrd_create`. -/
def thrdAlloc (im : UserImage) (u : UserState) (c : Fin THREAD_MAX) (i : Nat) : UserState :=
  if h : i < THRD_MAX then
    if u.inuse ⟨i, h⟩ then u.setPc c (.alloc (i + 1))
    else
      (u.setUthrd ⟨i, h⟩ fun ut => { ut with inuse := true, ustackBase := im.ustack ⟨i, h⟩ }).setPc c
        (.create ⟨i, h⟩)
  else u.createReturns c (-ENOMEM)

/-- The rest of `thrd_create` after the system call. -/
def thrdCreated (u : UserState) (c : Fin THREAD_MAX) (i : Fin THRD_MAX) (res : Int) : UserState :=
  if res < 0 then (thrdFree u i).createReturns c res
  else if 0 < res then
    { u.setUthrd i fun ut => { ut with ktid := BitVec.ofInt 32 res } with
      handles := Function.update u.handles i true }.createReturns c 0
  else (thrdFree u i).createReturns c res

/-- `thrd_join` of a handle that is not joined yet, up to the system call. -/
def thrdJoin (u : UserState) (c : Fin THREAD_MAX) (i : Fin THRD_MAX) : UserState :=
  { u with handles := Function.update u.handles i false }.setPc c (.join i (u.uthrds i).ktid)

/-- The rest of `thrd_join` after the system call. -/
def thrdJoined (u : UserState) (c : Fin THREAD_MAX) (i : Fin THRD_MAX) (res : Int) : UserState :=
  let (res, u) := if res < 0 then (res, u) else (0, thrdFree u i)
  { u.setPc c .code with joins := u.joins ++ [(res, u.inuse i)] }

-- ---------------------------------------------------------------------------
-- System calls
-- ---------------------------------------------------------------------------

/-- The result of a system call that comes back at once. -/
def Ctl.result : Ctl → Int
  | .user res => res
  | _ => 0

/-- Where a thread is after a round of the loop of `thread_join`. -/
def joinLoopPc (s : Sched) (temp : Fin THREAD_MAX) (i : Fin THRD_MAX) (ktid : BitVec 32) : UserPc :=
  if (s.tcb temp).runstate = .exited then .joined i (threadJoinLoop s temp).1.result
  else .joining i ktid

/-- Where it is after the system call has been made. -/
def joinPc (s : Sched) (i : Fin THRD_MAX) (ktid : BitVec 32) : UserPc :=
  match (List.finRange THREAD_MAX).find? fun t => (s.tcb t).tid = ktid with
  | none => .joined i (threadJoin s ktid).1.result
  | some temp => joinLoopPc s temp i ktid

end Munix
