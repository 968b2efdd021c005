import Munix.Kernel.Kshell
import Munix.Kernel.SchedulerInv

/-!
# Munix — the kernel from boot on

All threads, processes and shells together: `System` is where the CPU is, with
the scheduler's state, and `System.step` is what happens to it, from the shell
that `kernel_main` starts on. Of what a process owns only whether its slot in
the process table is in use matters here.

Interrupts are enabled in the first shell (`kernel_main` does that) and in user
code. Everything else runs with interrupts off: system calls, exceptions and
interrupts enter through interrupt gates, and neither `kernel_noreturn` nor a
switch between kernel stacks turns them on. The steps of the first shell are
where the timer can come in: at the prompt, while a program is loaded, while its
arguments are pushed, and between the creation of its thread and the call of
`schedule`.
-/

namespace Munix

open LinkHeap

-- ---------------------------------------------------------------------------
-- State
-- ---------------------------------------------------------------------------

/-- Where the CPU is between two steps. `intr` is whether interrupts are
enabled in the shell. -/
inductive Place where
  /-- In a shell that waits for a command. -/
  | shell (intr : Bool)
  /-- In a shell that loads the program of process `p`. -/
  | loading (intr : Bool) (p : Fin PROCESS_MAX)
  /-- In `process_start(p)`, before `thread_create`. -/
  | starting (intr : Bool) (p : Fin PROCESS_MAX)
  /-- In `process_start(p)`, before `schedule`. -/
  | created (intr : Bool) (p : Fin PROCESS_MAX)
  /-- In the user code of the current thread. -/
  | thread
  /-- At the loop condition of `thread_join`. -/
  | joining (temp : Fin THREAD_MAX)
  /-- Nowhere: in `choose_next_thread` for ever, or switched to something that
  is not a thread or to a stack that has been overwritten, or after a write
  through a NULL process. -/
  | stopped
deriving DecidableEq

structure System where
  place   : Place
  sched   : Sched
  /-- Which slots of the process table are in use: their `pid` is not 0. -/
  used    : Fin PROCESS_MAX → Bool
  /-- The number of the last shell. All but the first run on the same stack. -/
  shell   : Nat
  /-- `irq_cts[IRQ_TIMER]`. -/
  irqCt   : BitVec 64

/-- When `kernel_main` starts its shell. -/
def System.boot (stray : BitVec 32) : System where
  place := .shell true
  sched := .boot stray
  used _ := false
  shell := 0
  irqCt := 0#64

/-- Whether interrupts are enabled. -/
def Place.intr : Place → Bool
  | .shell intr => intr
  | .loading intr _ => intr
  | .starting intr _ => intr
  | .created intr _ => intr
  | .thread => true
  | .joining _ => false
  | .stopped => false

-- ---------------------------------------------------------------------------
-- Steps
-- ---------------------------------------------------------------------------

/-- `process_close(p)`. -/
def System.close (s : System) (p : Fin PROCESS_MAX) : System :=
  { s with sched := closeSched s.sched p, used := Function.update s.used p false }

/-- `kernel_noreturn`: a new shell on a fresh stack. -/
def System.kernelNoreturn (s : System) (intr : Bool) : System :=
  { s with place := .shell intr, shell := s.shell + 1 }

/-- Where the CPU goes on after a call that ends in the scheduler. A shell that
is resumed comes back from `process_start` and closes its process, unless a newer
shell has used its stack. -/
def System.land (s : System) (intr : Bool) : Ctl × Sched → System
  | (.user _, sched) => { s with place := .thread, sched := sched }
  | (.join temp, sched) => { s with place := .joining temp, sched := sched }
  | (.start shell p, sched) =>
    if shell = s.shell then { s with place := .shell intr, sched := sched }.close p
    else { s with place := .stopped, sched := sched }
  | (.noreturn, sched) => { s with sched := sched }.kernelNoreturn intr
  | (.spin, sched) => { s with place := .stopped, sched := sched }
  | (.wild, sched) => { s with place := .stopped, sched := sched }

/-- What can happen. -/
inductive Event where
  /-- A command that names an executable. -/
  | command
  /-- The call of `process_start`, after the load. -/
  | start
  /-- `thread_create` in `process_start`. -/
  | create (startAddr ustack : BitVec 32)
  /-- `schedule` in `process_start`. -/
  | schedule
  /-- A system call of the current thread. -/
  | call (c : ThreadCall)
  /-- The loop of `thread_join` goes on. -/
  | joinLoop
  /-- `process_exit`, a system call too. -/
  | exit
  /-- An exception. -/
  | fault
  /-- The timer. -/
  | timer

/-- `handle_irq` for the timer. Where the current thread was is saved; in the
first shell there is none. -/
def System.handleIrq (s : System) : System :=
  { s with irqCt := s.irqCt + 1#64 }.land false
    (threadPreempt s.sched (if s.place = Place.thread then .user 0 else .noreturn))

/-- `process_kill(p)`. The process is not the current one any more when this is
checked, so that the function returns. -/
def System.processKill (s : System) : Option (Fin PROCESS_MAX) → System
  | none => s
  | some p => s.close p

/-- `handle_exception`, through an interrupt gate. -/
def System.handleException (s : System) : System :=
  (s.processKill s.sched.currentProcess).kernelNoreturn false

/-- `process_exit`, for the current process `p`. -/
def System.processExit (s : System) (p : Fin PROCESS_MAX) : System :=
  let s := s.close p
  let s := { s with sched := s.sched.setCurrent fun th => { th with runstate := .exited } }
  s.kernelNoreturn false

/-- First slot of the process table that is not in use. -/
def System.processAlloc (s : System) : Option (Fin PROCESS_MAX) :=
  (List.finRange PROCESS_MAX).find? fun i => !s.used i

/-- One step; `none` if the event cannot happen here. `next_tid` is an `int`, so
that its overflow is undefined. -/
def System.step (L : Layout) (s : System) (e : Event) : Option System :=
  match e, s.place with
  | .command, .shell intr =>
    match s.processAlloc with
    | none => some { s with place := .stopped }
    | some p =>
      some { s with
        place := .loading intr p
        sched := { s.sched with links := Function.update s.sched.links (.threads p) ⟨0, 0⟩ }
        used := Function.update s.used p true }
  | .start, .loading intr p =>
    some { s with place := .starting intr p, sched := { s.sched with currentProcess := some p } }
  | .create startAddr ustack, .starting intr p =>
    if s.sched.nextTid.toNat + 1 < 2 ^ 31 then
      some { s with
        place := .created intr p
        sched := (threadCreate L s.sched p startAddr ustack).2 }
    else none
  | .schedule, .created intr p =>
    some (s.land intr (Munix.schedule s.sched (.start s.shell p)))
  | .call (.create startAddr ustack), .thread =>
    if s.sched.nextTid.toNat + 1 < 2 ^ 31 then
      some (s.land false ((ThreadCall.create startAddr ustack).run L s.sched))
    else none
  | .call .yield, .thread => some (s.land false (ThreadCall.yield.run L s.sched))
  | .call (.exit status), .thread => some (s.land false ((ThreadCall.exit status).run L s.sched))
  | .call (.join tid), .thread => some (s.land false ((ThreadCall.join tid).run L s.sched))
  | .joinLoop, .joining temp => some (s.land false (threadJoinLoop s.sched temp))
  | .exit, .thread => s.sched.currentProcess.map s.processExit
  | .fault, .shell _ => some s.handleException
  | .fault, .loading _ _ => some s.handleException
  | .fault, .starting _ _ => some s.handleException
  | .fault, .thread => some s.handleException
  | .timer, place => if place.intr then some s.handleIrq else none
  | _, _ => none

/-- A thread calls `_exit`. -/
theorem System.step_exit (L : Layout) {s : System} (h : s.place = .thread) :
    s.step L .exit = s.sched.currentProcess.map s.processExit := by
  simp only [System.step, h]

/-- Steps in a given order. -/
def System.run (L : Layout) (s : System) : List Event → Option System
  | [] => some s
  | e :: events => (s.step L e).bind fun s => s.run L events

/-- The states of the kernel. -/
def System.Reachable (L : Layout) (stray : BitVec 32) (s : System) : Prop :=
  ∃ events, (System.boot stray).run L events = some s

end Munix
