import Munix.Core.Macros
import Munix.Lib.Lock

/-!
# Munix — mutexes

The model of the mutex functions of `mulibc/threads.c`. A mutex is one atomic
flag, and the functions are cut where another thread can run: a test-and-set, a
clear, and a yield are one step each.

The threads that use a mutex are arbitrary. Between its calls a thread does what
it likes with the rest of memory; the only thing it does not do is to unlock a
mutex that it does not hold.

## Results

* `MtxState.Inv.step`     — what one step of one thread keeps.
* `MtxState.Run.excludes` — at most one thread holds the mutex, in every run.
-/

namespace Munix

open Lock

-- ---------------------------------------------------------------------------
-- threads.c
-- ---------------------------------------------------------------------------

def thrdSuccess : Int := 0
def thrdBusy : Int := -EBUSY

/-- `atomic_flag_test_and_set`: the old value, and the new one. -/
def atomicFlagTestAndSet (flag : Bool) : Bool × Bool := (flag, true)

/-- `atomic_flag_clear`. -/
def atomicFlagClear (_flag : Bool) : Bool := false

def mtxInit (flag : Bool) : Bool := atomicFlagClear flag

/-- Where a thread is in a mutex function. -/
inductive MtxPc where
  /-- In `mtx_trylock`, before the test-and-set. -/
  | trylock
  /-- In the loop of `mtx_lock`, before the test-and-set. -/
  | lock
  /-- In the loop of `mtx_lock`, before the yield. -/
  | lockYield
  /-- In `mtx_unlock`, before the clear. -/
  | unlock
deriving DecidableEq

/-- How a step ends: the function goes on, or it returns. -/
inductive MtxNext where
  | goto (pc : MtxPc)
  | ret (res : Int)
deriving DecidableEq

/-- One step of a mutex function. -/
def mtxStep (flag : Bool) : MtxPc → MtxNext × Bool
  | .trylock =>
    let (old, flag) := atomicFlagTestAndSet flag
    (.ret (if !old then thrdSuccess else thrdBusy), flag)
  | .lock =>
    let (old, flag) := atomicFlagTestAndSet flag
    (if old then .goto .lockYield else .ret thrdSuccess, flag)
  | .lockYield => (.goto .lock, flag)
  | .unlock => (.ret thrdSuccess, atomicFlagClear flag)

-- ---------------------------------------------------------------------------
-- Threads that share a mutex
-- ---------------------------------------------------------------------------

/-- A thread: the mutex function it is in, and whether it is between a lock that
succeeded and the clear of the matching unlock. -/
structure MtxThread where
  call  : Option MtxPc
  holds : Bool
deriving DecidableEq

/-- A thread that takes a step of a mutex function, whose end is `next`. -/
def MtxThread.after (t : MtxThread) (pc : MtxPc) : MtxNext → MtxThread
  | .goto pc => { t with call := some pc }
  | .ret res => ⟨none, if pc = .unlock then false else t.holds || res == thrdSuccess⟩

structure MtxState (ι : Type) where
  flag   : Bool
  thread : ι → MtxThread

namespace MtxState

variable {ι : Type}

/-- After `mtx_init`. -/
def initial (flag : Bool) : MtxState ι := ⟨mtxInit flag, fun _ => ⟨none, false⟩⟩

/-- The flag agrees with the threads, and only a holder is in `mtx_unlock`. -/
structure Inv (s : MtxState ι) : Prop where
  owned  : Owned s.flag (fun i => (s.thread i).holds = true)
  unlock : ∀ i, (s.thread i).call = some .unlock → (s.thread i).holds = true

theorem Inv.initial (flag : Bool) : Inv (initial flag : MtxState ι) where
  owned := Owned.free fun i => by simp [MtxState.initial]
  unlock i h := by cases h

variable [DecidableEq ι]

/-- Thread `i`, in a mutex function, takes its next step. -/
def exec (s : MtxState ι) (i : ι) (pc : MtxPc) : MtxState ι where
  flag := (mtxStep s.flag pc).2
  thread := Function.update s.thread i ((s.thread i).after pc (mtxStep s.flag pc).1)

/-- One step of one thread. -/
inductive Step : MtxState ι → MtxState ι → Prop where
  /-- A call of a mutex function; only the holder unlocks. -/
  | call {s : MtxState ι} {i : ι} {pc : MtxPc} (h : (s.thread i).call = none)
      (hpc : pc ≠ .lockYield) (holder : pc = .unlock → (s.thread i).holds = true) :
      Step s { s with thread := Function.update s.thread i { s.thread i with call := some pc } }
  /-- A step of a mutex function. -/
  | exec {s : MtxState ι} {i : ι} {pc : MtxPc} (h : (s.thread i).call = some pc) :
      Step s (s.exec i pc)
  /-- A load, a store or a computation elsewhere. -/
  | other {s : MtxState ι} {i : ι} (h : (s.thread i).call = none) : Step s s

/-- The states that can be reached. -/
def Run (s s' : MtxState ι) : Prop := Relation.ReflTransGen Step s s'

section Step

variable {s : MtxState ι} {i : ι}

/-- A step of thread `i` after which it holds the mutex if it did before. -/
theorem Inv.keeps {t : MtxThread} (h : s.Inv) (hholds : t.holds = (s.thread i).holds)
    (hunlock : t.call = some .unlock → t.holds = true) :
    Inv ⟨s.flag, Function.update s.thread i t⟩ where
  owned := by
    apply h.owned.congr
    intro j
    dsimp only
    by_cases hj : j = i
    · subst hj
      rw [Function.update_self, hholds]
    · rw [Function.update_of_ne hj]
  unlock j hj := by
    dsimp only at hj ⊢
    by_cases hji : j = i
    · subst hji
      rw [Function.update_self] at hj ⊢
      exact hunlock hj
    · rw [Function.update_of_ne hji] at hj ⊢
      exact h.unlock j hj

/-- Thread `i` finds the flag not set, and returns as the holder. -/
theorem Inv.acquires (h : s.Inv) (hfree : s.flag = false) :
    Inv ⟨true, Function.update s.thread i ⟨none, true⟩⟩ where
  owned := by
    have howned := h.owned
    rw [hfree] at howned
    refine howned.acquire (i := i) (by simp) fun j hj => ?_
    dsimp only
    rw [Function.update_of_ne hj]
  unlock j hj := by
    dsimp only at hj ⊢
    by_cases hji : j = i
    · subst hji
      simp
    · rw [Function.update_of_ne hji] at hj ⊢
      exact h.unlock j hj

/-- The holder clears the flag. -/
theorem Inv.releases (h : s.Inv) (hi : (s.thread i).holds = true) :
    Inv ⟨false, Function.update s.thread i ⟨none, false⟩⟩ where
  owned := by
    refine h.owned.release hi (by simp) fun j hj => ?_
    dsimp only
    rw [Function.update_of_ne hj]
  unlock j hj := by
    dsimp only at hj ⊢
    by_cases hji : j = i
    · subst hji
      simp at hj
    · rw [Function.update_of_ne hji] at hj ⊢
      exact h.unlock j hj

/-- A step of a mutex function. -/
theorem Inv.exec (h : s.Inv) {pc : MtxPc} (hcall : (s.thread i).call = some pc) :
    (s.exec i pc).Inv := by
  cases hflag : s.flag with
  | false =>
    cases pc with
    | trylock => simpa [MtxState.exec, mtxStep, atomicFlagTestAndSet, hflag, MtxThread.after]
        using h.acquires (i := i) hflag
    | lock => simpa [MtxState.exec, mtxStep, atomicFlagTestAndSet, hflag, MtxThread.after]
        using h.acquires (i := i) hflag
    | lockYield =>
      exact h.keeps (t := { s.thread i with call := some .lock }) rfl (by simp)
    | unlock =>
      -- the holder is in `mtx_unlock`, so the flag is set
      have hset := h.owned.flag_of_held (i := i) (h.unlock i hcall)
      rw [hflag] at hset
      cases hset
  | true =>
    cases pc with
    | trylock =>
      have hbusy : (thrdBusy == thrdSuccess) = false := by decide
      have := h.keeps (i := i) (t := ⟨none, (s.thread i).holds⟩) rfl (by simp)
      simpa [MtxState.exec, mtxStep, atomicFlagTestAndSet, hflag, MtxThread.after, hbusy] using this
    | lock =>
      have := h.keeps (i := i) (t := { s.thread i with call := some .lockYield }) rfl (by simp)
      simpa [MtxState.exec, mtxStep, atomicFlagTestAndSet, hflag, MtxThread.after] using this
    | lockYield =>
      exact h.keeps (t := { s.thread i with call := some .lock }) rfl (by simp)
    | unlock => exact h.releases (h.unlock i hcall)

end Step

/-- **Every step keeps the invariant.** -/
theorem Inv.step {s s' : MtxState ι} (h : s.Inv) (hstep : Step s s') : s'.Inv := by
  cases hstep with
  | @call i pc hnone hpc holder =>
    refine h.keeps rfl fun hunlock => ?_
    exact holder (Option.some.inj hunlock)
  | exec hcall => exact h.exec hcall
  | other => exact h

theorem Run.inv {s s' : MtxState ι} (hrun : Run s s') (h : s.Inv) : s'.Inv := by
  induction hrun with
  | refl => exact h
  | tail _ hstep ih => exact ih.step hstep

/-- **The mutex excludes**: after `mtx_init`, whatever the threads do, at most one
of them is between a successful lock and its unlock. -/
theorem Run.excludes {flag : Bool} {s : MtxState ι} (hrun : Run (initial flag) s) {i j : ι}
    (hi : (s.thread i).holds = true) (hj : (s.thread j).holds = true) : i = j :=
  (hrun.inv (Inv.initial flag)).owned.unique i j hi hj

end MtxState

end Munix
