import Munix.Core.Macros
import Munix.Core.List

/-!
# Munix — threads and the scheduler

The model of `kernel/scheduler.c` and of the thread functions of
`kernel/process.c`. The state holds the TCB array, the links of every list
node embedded in the thread and process structs, the two `current_` pointers,
and the kernel stack pointer in the TSS.

`cpu_task_save` and `cpu_task_restore` are modelled by where the kernel goes
on: a saved task state is the place its thread continues at once it is
switched back to (`Ctl`), and every function that ends in `schedule` returns
the place the CPU ends up at. The kernel runs with interrupts off (system
calls and the timer enter through interrupt gates), so a call runs to its end
before the next one starts.
-/

namespace Munix

open LinkHeap

-- ---------------------------------------------------------------------------
-- State
-- ---------------------------------------------------------------------------

def PROCESS_MAX : Nat := 8
def THREAD_MAX : Nat := 16
def KSTACKSZ : BitVec 32 := 4096#32

inductive Runstate where
  | new
  | ready
  | exited
deriving DecidableEq, Repr

/-- The list nodes: the global `ready_queue`, the two nodes in every thread
and the list head in every process. -/
inductive Node where
  | null
  | readyQueue
  | queue (t : Fin THREAD_MAX)
  | processThreads (t : Fin THREAD_MAX)
  | threads (p : Fin PROCESS_MAX)
deriving DecidableEq

instance : Zero Node := ⟨.null⟩

/-- Where the CPU goes on. -/
inductive Ctl where
  /-- In the current thread's user code, with this system call result. -/
  | user (res : Int)
  /-- At the loop condition of `thread_join`, waiting for this TCB slot. -/
  | join (temp : Fin THREAD_MAX)
  /-- In the given shell, after its call of `process_start` for `p`. -/
  | start (shell : Nat) (p : Fin PROCESS_MAX)
  /-- At a call of `kernel_noreturn`. -/
  | noreturn
  /-- In `choose_next_thread`, for ever. -/
  | spin
  /-- Nowhere: something that is not a thread was switched to. -/
  | wild
deriving DecidableEq

structure Thread where
  tid          : BitVec 32
  process      : Option (Fin PROCESS_MAX)
  threadStack  : BitVec 32
  processStack : BitVec 32
  startAddr    : BitVec 32
  runstate     : Runstate
  savedState   : Option Ctl
  exitStatus   : BitVec 32
  yieldCt      : BitVec 32
  preemptCt    : BitVec 32
deriving DecidableEq

/-- `(struct thread){}`, list nodes apart. -/
def Thread.zero : Thread := ⟨0#32, none, 0#32, 0#32, 0#32, .new, none, 0#32, 0#32, 0#32⟩

structure Sched where
  tcb            : Fin THREAD_MAX → Thread
  nextTid        : BitVec 32
  links          : LinkHeap Node
  currentThread  : Option (Fin THREAD_MAX)
  currentProcess : Option (Fin PROCESS_MAX)
  esp0           : BitVec 32
  /-- What is read as the run state of a "thread" whose queue node would be
  `ready_queue` itself. -/
  strayRunstate  : BitVec 32

/-- Where the linker put the kernel stacks: inside the range of the kernel. -/
structure Layout where
  kstacks : BitVec 32
  fits    : kstacks.toNat + 16 * 4096 ≤ 0x400000

theorem kstacks_fit : (0x20000#32).toNat + 16 * 4096 ≤ 0x400000 := by decide

/-- `(uintptr_t) kstacks[i] + KSTACKSZ`. -/
def Layout.kstackTop (L : Layout) (i : Fin THREAD_MAX) : BitVec 32 :=
  L.kstacks + KSTACKSZ * BitVec.ofNat 32 i.val + KSTACKSZ

/-- All tables zeroed. -/
def Sched.boot (strayRunstate : BitVec 32) : Sched where
  tcb _ := .zero
  nextTid := 1#32
  links _ := ⟨0, 0⟩
  currentThread := none
  currentProcess := none
  esp0 := 0#32
  strayRunstate := strayRunstate

def Sched.setThread (s : Sched) (t : Fin THREAD_MAX) (f : Thread → Thread) : Sched :=
  { s with tcb := Function.update s.tcb t (f (s.tcb t)) }

/-- A write through `current_thread`. Through a NULL pointer it goes to low
memory, which holds none of this state. -/
def Sched.setCurrent (s : Sched) (f : Thread → Thread) : Sched :=
  match s.currentThread with
  | none => s
  | some t => s.setThread t f

-- ---------------------------------------------------------------------------
-- scheduler.c
-- ---------------------------------------------------------------------------

def schedAdd (s : Sched) (t : Fin THREAD_MAX) : Sched :=
  { s with links := listAddTail s.links (.queue t) .readyQueue }

/-- `list_del(node)` if both of its pointers are set. -/
def delIfLinked (h : LinkHeap Node) (node : Node) : LinkHeap Node :=
  if (h node).next ≠ 0 ∧ (h node).prev ≠ 0 then listDel h node else h

def schedRemove (s : Sched) (t : Fin THREAD_MAX) : Sched :=
  { s with links := delIfLinked s.links (.queue t) }

/-- A `struct thread *` computed from a pointer to its queue node. -/
inductive ThreadPtr where
  | null
  | tcb (t : Fin THREAD_MAX)
  | stray
deriving DecidableEq

/-- `container_of(ptr, struct thread, queue)`. -/
def threadOfQueue : Node → ThreadPtr
  | .null => .null
  | .queue t => .tcb t
  | _ => .stray

/-- The loop of `choose_next_thread`, for at most `n` rounds. -/
def chooseNextThread : Nat → Sched → Option (ThreadPtr × Sched)
  | 0, _ => none
  | n + 1, s =>
    let skip := chooseNextThread n { s with links := listRotateLeft s.links .readyQueue }
    match threadOfQueue (s.links .readyQueue).next with
    | .null => some (.null, s)
    | .tcb t =>
      match (s.tcb t).runstate with
      | .new => some (.tcb t, s)
      | .ready => some (.tcb t, s)
      | .exited => skip
    | .stray =>
      if s.strayRunstate = 0#32 ∨ s.strayRunstate = 1#32 then some (.stray, s) else skip

/-- `cpu_task_save(&outgoing->saved_state)`, if there is an outgoing thread. -/
def saveOutgoing (s : Sched) (outgoing : Option (Fin THREAD_MAX)) (here : Ctl) : Sched :=
  match outgoing with
  | none => s
  | some t => s.setThread t fun th => { th with savedState := some here }

/-- `thread_switch(outgoing, incoming)`; `here` is where the caller of
`schedule` goes on once it is resumed. -/
def threadSwitch (s : Sched) (outgoing : Option (Fin THREAD_MAX)) (incoming : Fin THREAD_MAX)
    (here : Ctl) : Ctl × Sched :=
  let s := saveOutgoing s outgoing here
  let s := { s with
    currentThread := some incoming
    currentProcess := (s.tcb incoming).process
    esp0 := (s.tcb incoming).threadStack }
  match (s.tcb incoming).runstate with
  | .new => (.user 0, s.setThread incoming fun th => { th with runstate := .ready })
  | .ready => ((s.tcb incoming).savedState.getD .wild, s)
  | .exited => (.noreturn, s)

/-- A running current thread goes back to the end of the queue. -/
def requeueCurrent (s : Sched) : Sched :=
  match s.currentThread with
  | none => s
  | some t => if (s.tcb t).runstate = .ready then schedAdd s t else s

/-- A queue of `THREAD_MAX` threads has been looked at completely after
`THREAD_MAX + 1` rounds; from there on the loop repeats itself. -/
def schedule (s : Sched) (here : Ctl) : Ctl × Sched :=
  let s := requeueCurrent s
  match chooseNextThread (THREAD_MAX + 1) s with
  | none => (.spin, s)
  | some (.null, s) => (.noreturn, s)
  | some (.stray, s) => (.wild, s)
  | some (.tcb next, s) => threadSwitch (schedRemove s next) s.currentThread next here

-- ---------------------------------------------------------------------------
-- process.c: threads
-- ---------------------------------------------------------------------------

/-- First slot whose `tid` is 0. -/
def threadAlloc (s : Sched) : Option (Fin THREAD_MAX) :=
  (List.finRange THREAD_MAX).find? fun i => (s.tcb i).tid = 0#32

def threadClose (s : Sched) (t : Fin THREAD_MAX) : Sched :=
  let links := delIfLinked s.links (.processThreads t)
  let links := delIfLinked links (.queue t)
  let links := Function.update links (.processThreads t) ⟨0, 0⟩
  let links := Function.update links (.queue t) ⟨0, 0⟩
  { s with tcb := Function.update s.tcb t .zero, links := links }

def threadCreate (L : Layout) (s : Sched) (p : Fin PROCESS_MAX) (startAddr ustack : BitVec 32) :
    Int × Sched :=
  match threadAlloc s with
  | none => (-ENOSYS, s)
  | some t =>
    let s := s.setThread t fun th => { th with
      process := some p
      threadStack := L.kstackTop t
      processStack := ustack
      startAddr := startAddr
      runstate := .new
      tid := s.nextTid }
    let s := { s with
      nextTid := s.nextTid + 1#32
      links := listAdd s.links (.processThreads t) (.threads p) }
    let s := schedAdd s t
    ((s.tcb t).tid.toInt, s)

def threadYield (s : Sched) (here : Ctl) : Ctl × Sched :=
  schedule (s.setCurrent fun th => { th with runstate := .ready, yieldCt := th.yieldCt + 1#32 }) here

def threadPreempt (s : Sched) (here : Ctl) : Ctl × Sched :=
  schedule (s.setCurrent fun th => { th with runstate := .ready, preemptCt := th.preemptCt + 1#32 })
    here

def threadExit (s : Sched) (status : BitVec 32) : Ctl × Sched :=
  schedule (s.setCurrent fun th => { th with exitStatus := status, runstate := .exited }) .noreturn

/-- The loop of `thread_join` and what follows it. -/
def threadJoinLoop (s : Sched) (temp : Fin THREAD_MAX) : Ctl × Sched :=
  if (s.tcb temp).runstate ≠ .exited then threadYield s (.join temp)
  else (.user (s.tcb temp).exitStatus.toInt, threadClose s temp)

def threadJoin (s : Sched) (tid : BitVec 32) : Ctl × Sched :=
  match (List.finRange THREAD_MAX).find? fun i => (s.tcb i).tid = tid with
  | none => (.user (-ESRCH), s)
  | some temp => threadJoinLoop s temp

/-- The thread side of `process_start`: the first thread is created and the
scheduler entered. The arguments are on the user stack already. -/
def startThread (L : Layout) (s : Sched) (p : Fin PROCESS_MAX) (startAddr ustack : BitVec 32)
    (here : Ctl) : Ctl × Sched :=
  let s := { s with currentProcess := some p }
  schedule (threadCreate L s p startAddr ustack).2 here

-- ---------------------------------------------------------------------------
-- Calls by threads
-- ---------------------------------------------------------------------------

/-- What the current thread can do: its system calls, and being interrupted
by the timer. -/
inductive ThreadCall where
  | create (startAddr ustack : BitVec 32)
  | yield
  | preempt
  | exit (status : BitVec 32)
  | join (tid : BitVec 32)

/-- `syscall_dispatch` for the thread calls, and `handle_irq` for the timer.
`thread_create` is called with `current_process`. -/
def ThreadCall.run (L : Layout) (s : Sched) : ThreadCall → Ctl × Sched
  | .create startAddr ustack =>
    match s.currentProcess with
    | none => (.wild, s)
    | some p =>
      let (res, s) := threadCreate L s p startAddr ustack
      (.user res, s)
  | .yield => threadYield s (.user 0)
  | .preempt => threadPreempt s (.user 0)
  | .exit status => threadExit s status
  | .join tid => threadJoin s tid

end Munix
