import Munix.User.Mutex

/-!
# Munix — the data race demonstration

The model of `process/datarace.c`: threads that count up shared variables, with
and without a mutex. A step of a thread is one load, one store, one atomic
update, one step of a mutex function or a computation on its own variables, and
the threads take their steps in any order. `main` initialises the mutex and
launches the threads; then it only waits and reads.

## Results

* `threadMain_locks`  — what one step of a thread does to the mutex.
* `State.Inv.step`    — what every step of every thread keeps.
* `mutex_protects`    — the mutex excludes, and no protected update is lost.
-/

namespace Munix

open Lock

namespace Datarace

-- ---------------------------------------------------------------------------
-- datarace.c
-- ---------------------------------------------------------------------------

/-- `step`. -/
def step : BitVec 32 := 1#32

/-- The shared variables. -/
structure Shared where
  split      : BitVec 32
  oneline    : BitVec 32
  atomic     : BitVec 32
  mutex      : Bool
  splitMtx   : BitVec 32
  onelineMtx : BitVec 32
deriving DecidableEq

/-- Where a thread is in `thread_main`. -/
inductive Pc where
  /-- Before `i < count`. -/
  | test
  | loadSplit
  | storeSplit
  | loadOneline
  | storeOneline
  | addAtomic
  /-- In `mtx_lock`, before the test-and-set and before the yield. -/
  | lock
  | lockYield
  | loadSplitMtx
  | storeSplitMtx
  | loadOnelineMtx
  | storeOnelineMtx
  /-- In `mtx_unlock`. -/
  | unlock
  /-- Before `i++`. -/
  | next
  | done
deriving DecidableEq

/-- The variables of `thread_main`, and the register of an update with `+=`. -/
structure Thread where
  pc  : Pc
  i   : BitVec 32
  tmp : BitVec 32
  reg : BitVec 32
deriving DecidableEq

def Thread.start : Thread := ⟨.test, 0#32, 0#32, 0#32⟩

/-- One step of `thread_main`. -/
def threadMain (count : BitVec 32) (sh : Shared) (t : Thread) : Shared × Thread :=
  match t.pc with
  | .test => (sh, { t with pc := if t.i < count then .loadSplit else .done })
  | .loadSplit => (sh, { t with pc := .storeSplit, tmp := sh.split })
  | .storeSplit => ({ sh with split := t.tmp + step }, { t with pc := .loadOneline })
  | .loadOneline => (sh, { t with pc := .storeOneline, reg := sh.oneline })
  | .storeOneline => ({ sh with oneline := t.reg + step }, { t with pc := .addAtomic })
  | .addAtomic => ({ sh with atomic := sh.atomic + step }, { t with pc := .lock })
  | .lock =>
    match mtxStep sh.mutex .lock with
    | (.goto _, mutex) => ({ sh with mutex := mutex }, { t with pc := .lockYield })
    | (.ret _, mutex) => ({ sh with mutex := mutex }, { t with pc := .loadSplitMtx })
  | .lockYield => (sh, { t with pc := .lock })
  | .loadSplitMtx => (sh, { t with pc := .storeSplitMtx, tmp := sh.splitMtx })
  | .storeSplitMtx => ({ sh with splitMtx := t.tmp + step }, { t with pc := .loadOnelineMtx })
  | .loadOnelineMtx => (sh, { t with pc := .storeOnelineMtx, reg := sh.onelineMtx })
  | .storeOnelineMtx => ({ sh with onelineMtx := t.reg + step }, { t with pc := .unlock })
  | .unlock => ({ sh with mutex := (mtxStep sh.mutex .unlock).2 }, { t with pc := .next })
  | .next => (sh, { t with pc := .test, i := t.i + 1#32 })
  | .done => (sh, t)

/-- `main`, up to where it waits for the threads. -/
inductive MainPc where
  /-- Before `mtx_init`. -/
  | init
  /-- In the loop that launches the threads. -/
  | launch (i : Nat)
deriving DecidableEq

/-- The whole program, with `n` threads; a thread that has not been launched is
`none`. -/
structure State (n : Nat) where
  main   : MainPc
  shared : Shared
  thread : Fin n → Option Thread

def State.initial (n : Nat) : State n where
  main := .init
  shared := ⟨0#32, 0#32, 0#32, false, 0#32, 0#32⟩
  thread _ := none

/-- Who takes a step. `ok` is whether a call of `thrd_create` succeeds. -/
inductive Act (n : Nat) where
  | main (ok : Bool)
  | thread (k : Fin n)

def State.step {n : Nat} (count : BitVec 32) (s : State n) : Act n → Option (State n)
  | .main ok =>
    match s.main with
    | .init =>
      some { s with main := .launch 0, shared := { s.shared with mutex := mtxInit s.shared.mutex } }
    | .launch i =>
      if h : i < n then
        some { s with
          main := .launch (i + 1)
          thread := if ok then Function.update s.thread ⟨i, h⟩ (some .start) else s.thread }
      else none
  | .thread k =>
    match s.thread k with
    | none => none
    | some t =>
      let (shared, t) := threadMain count s.shared t
      some { s with shared := shared, thread := Function.update s.thread k (some t) }

/-- Steps in a given order. -/
def State.run {n : Nat} (count : BitVec 32) (s : State n) : List (Act n) → Option (State n)
  | [] => some s
  | a :: acts => (s.step count a).bind fun s => s.run count acts

/-- All threads have finished. -/
def State.Finished {n : Nat} (s : State n) : Prop := ∀ k, (s.thread k).map (·.pc) = some .done

instance {n : Nat} (s : State n) : Decidable s.Finished := inferInstanceAs (Decidable (∀ _, _))

-- ---------------------------------------------------------------------------
-- One step of one thread
-- ---------------------------------------------------------------------------

/-- Between the lock and the unlock. -/
def Pc.holds : Pc → Bool
  | .loadSplitMtx | .storeSplitMtx | .loadOnelineMtx | .storeOnelineMtx | .unlock => true
  | _ => false

/-- In this round, `shared_split_mtx` has been updated. -/
def Pc.splitDone : Pc → Bool
  | .loadOnelineMtx | .storeOnelineMtx | .unlock | .next => true
  | _ => false

/-- In this round, `shared_oneline_mtx` has been updated. -/
def Pc.onelineDone : Pc → Bool
  | .unlock | .next => true
  | _ => false

/-- How often a thread has updated `shared_split_mtx`. -/
def Thread.splits (t : Thread) : Nat := t.i.toNat + t.pc.splitDone.toNat

/-- How often a thread has updated `shared_oneline_mtx`. -/
def Thread.onelines (t : Thread) : Nat := t.i.toNat + t.pc.onelineDone.toNat

/-- The rounds of a thread are bounded by `count`, and what it has loaded under
the mutex is what is there. -/
structure Thread.Ok (count : BitVec 32) (sh : Shared) (t : Thread) : Prop where
  le   : t.i.toNat ≤ count.toNat
  lt   : t.pc ≠ .test → t.pc ≠ .done → t.i.toNat < count.toNat
  done : t.pc = .done → t.i = count
  tmp  : t.pc = .storeSplitMtx → t.tmp = sh.splitMtx
  reg  : t.pc = .storeOnelineMtx → t.reg = sh.onelineMtx

/-- What a step of a thread does to the mutex. -/
inductive Thread.Locks (sh sh' : Shared) (t t' : Thread) : Prop where
  | acquire (free : sh.mutex = false) (set : sh'.mutex = true) (holds : t'.pc.holds = true)
  | release (held : t.pc.holds = true) (clear : sh'.mutex = false) (gone : t'.pc.holds = false)
  | keep (same : sh'.mutex = sh.mutex) (same_holds : t'.pc.holds = t.pc.holds)

variable {count : BitVec 32} {sh : Shared} {t : Thread}

theorem threadMain_locks : Thread.Locks sh (threadMain count sh t).1 t (threadMain count sh t).2 := by
  unfold threadMain
  cases hpc : t.pc with
  | test => exact .keep rfl (by dsimp only; rw [hpc]; split <;> rfl)
  | lock =>
    cases hflag : sh.mutex with
    | false => exact .acquire hflag rfl rfl
    | true => exact .keep hflag.symm (by rw [hpc]; rfl)
  | unlock => exact .release (by rw [hpc, Pc.holds]) rfl rfl
  | done => exact .keep rfl rfl
  | _ => exact .keep rfl (by rw [hpc]; rfl)

/-- Only two steps write the protected variables. -/
theorem threadMain_splitMtx : (threadMain count sh t).1.splitMtx =
    if t.pc = .storeSplitMtx then t.tmp + step else sh.splitMtx := by
  unfold threadMain
  cases t.pc with
  | lock => cases hflag : sh.mutex <;> rfl
  | _ => rfl

theorem threadMain_onelineMtx : (threadMain count sh t).1.onelineMtx =
    if t.pc = .storeOnelineMtx then t.reg + step else sh.onelineMtx := by
  unfold threadMain
  cases t.pc with
  | lock => cases hflag : sh.mutex <;> rfl
  | _ => rfl

/-- The counter of a thread does not wrap around before it gets to `count`. -/
theorem Thread.Ok.next_toNat (h : t.Ok count sh) (hpc : t.pc = .next) :
    (t.i + 1#32).toNat = t.i.toNat + 1 := by
  have hlt := h.lt (by simp [hpc]) (by simp [hpc])
  have := count.isLt
  bv_omega

theorem threadMain_splits (h : t.Ok count sh) : (threadMain count sh t).2.splits =
    t.splits + if t.pc = .storeSplitMtx then 1 else 0 := by
  unfold threadMain Thread.splits
  cases hpc : t.pc with
  | test => dsimp only; split <;> rfl
  | lock => cases hflag : sh.mutex <;> rfl
  | next => rw [h.next_toNat hpc]; rfl
  | done => rw [hpc]; rfl
  | _ => rfl

theorem threadMain_onelines (h : t.Ok count sh) : (threadMain count sh t).2.onelines =
    t.onelines + if t.pc = .storeOnelineMtx then 1 else 0 := by
  unfold threadMain Thread.onelines
  cases hpc : t.pc with
  | test => dsimp only; split <;> rfl
  | lock => cases hflag : sh.mutex <;> rfl
  | next => rw [h.next_toNat hpc]; rfl
  | done => rw [hpc]; rfl
  | _ => rfl

/-- The thread that takes the step. -/
theorem threadMain_ok (h : t.Ok count sh) :
    (threadMain count sh t).2.Ok count (threadMain count sh t).1 := by
  have hle := h.le
  have hbody : t.pc ≠ .test → t.pc ≠ .done → t.i.toNat < count.toNat := h.lt
  unfold threadMain
  cases hpc : t.pc with
  | test =>
    dsimp only
    split
    next hlt => exact ⟨hle, fun _ _ => hlt, nofun, nofun, nofun⟩
    next hge =>
      refine ⟨hle, fun _ hne => absurd rfl hne, fun _ => ?_, nofun, nofun⟩
      bv_omega
  | lock =>
    have hlt := hbody (by simp [hpc]) (by simp [hpc])
    cases hflag : sh.mutex with
    | false => exact ⟨hle, fun _ _ => hlt, nofun, nofun, nofun⟩
    | true => exact ⟨hle, fun _ _ => hlt, nofun, nofun, nofun⟩
  | loadSplitMtx =>
    have hlt := hbody (by simp [hpc]) (by simp [hpc])
    exact ⟨hle, fun _ _ => hlt, nofun, fun _ => rfl, nofun⟩
  | loadOnelineMtx =>
    have hlt := hbody (by simp [hpc]) (by simp [hpc])
    exact ⟨hle, fun _ _ => hlt, nofun, nofun, fun _ => rfl⟩
  | next =>
    have hlt := hbody (by simp [hpc]) (by simp [hpc])
    refine ⟨?_, fun hne => absurd rfl hne, nofun, nofun, nofun⟩
    dsimp only
    rw [h.next_toNat hpc]
    exact hlt
  | done => exact h
  | _ =>
    have hlt := hbody (by simp [hpc]) (by simp [hpc])
    exact ⟨hle, fun _ _ => hlt, nofun, nofun, nofun⟩

/-- Another thread, which does not hold the mutex together with this one. -/
theorem Thread.Ok.frame {t' : Thread} (h : t'.Ok count sh)
    (hexcl : t.pc.holds = true → t'.pc.holds = false) :
    t'.Ok count (threadMain count sh t).1 where
  le := h.le
  lt := h.lt
  done := h.done
  tmp hpc := by
    have hne : t.pc ≠ .storeSplitMtx := by
      intro hpc'
      have := hexcl (by rw [hpc', Pc.holds])
      rw [hpc, Pc.holds] at this
      cases this
    rw [threadMain_splitMtx, if_neg hne, h.tmp hpc]
  reg hpc := by
    have hne : t.pc ≠ .storeOnelineMtx := by
      intro hpc'
      have := hexcl (by rw [hpc', Pc.holds])
      rw [hpc, Pc.holds] at this
      cases this
    rw [threadMain_onelineMtx, if_neg hne, h.reg hpc]

-- ---------------------------------------------------------------------------
-- All threads
-- ---------------------------------------------------------------------------

/-- Between the lock and the unlock; a thread that has not been launched is not. -/
def holding (t : Option Thread) : Bool := t.any (·.pc.holds)

/-- The threads that `main` has not come to have not been launched. -/
def MainPc.Pending : MainPc → Nat → Prop
  | .init, _ => True
  | .launch i, k => i ≤ k

variable {n : Nat}

/-- The updates of all threads; `f` counts those of one. -/
def State.total (f : Thread → Nat) (s : State n) : Nat := ∑ k, (s.thread k).elim 0 f

/-- The mutex is owned by the thread that is in the critical section, and the
protected variables have the updates of all threads. -/
structure State.Inv (count : BitVec 32) (s : State n) : Prop where
  owned   : Owned s.shared.mutex (fun k => holding (s.thread k) = true)
  pending : ∀ k : Fin n, s.main.Pending k.val → s.thread k = none
  ok      : ∀ k t, s.thread k = some t → t.Ok count s.shared
  split   : s.shared.splitMtx = BitVec.ofNat 32 (s.total Thread.splits) * Datarace.step
  oneline : s.shared.onelineMtx = BitVec.ofNat 32 (s.total Thread.onelines) * Datarace.step

/-- A sum in which one term changes. -/
theorem State.total_update {f : Thread → Nat} {s : State n} {k : Fin n} {t' : Thread} {d : Nat}
    (hd : f t' = (s.thread k).elim 0 f + d) (main : MainPc) (shared : Shared) :
    State.total f ⟨main, shared, Function.update s.thread k (some t')⟩ = s.total f + d := by
  unfold State.total
  rw [← Finset.add_sum_erase _ _ (Finset.mem_univ k),
    ← Finset.add_sum_erase _ (fun k => (s.thread k).elim 0 f) (Finset.mem_univ k)]
  have hrest : ∑ j ∈ Finset.univ.erase k, (Function.update s.thread k (some t') j).elim 0 f =
      ∑ j ∈ Finset.univ.erase k, (s.thread j).elim 0 f := by
    apply Finset.sum_congr rfl
    intro j hj
    rw [Function.update_of_ne (Finset.ne_of_mem_erase hj)]
  dsimp only
  rw [hrest, Function.update_self, Option.elim_some, hd]
  omega

theorem State.Inv.initial : (State.initial n).Inv count where
  owned := Owned.free fun k => by simp [State.initial, holding]
  pending _ _ := rfl
  ok _ _ h := by cases h
  split := by simp [State.initial, State.total]
  oneline := by simp [State.initial, State.total]

-- ---------------------------------------------------------------------------
-- Runs
-- ---------------------------------------------------------------------------

section Steps

variable {s s' : State n}

/-- A thread is launched. -/
theorem State.Inv.launch (h : s.Inv count) {i : Nat} (hi : i < n) (hmain : s.main = .launch i) :
    State.Inv count
      ⟨.launch (i + 1), s.shared, Function.update s.thread ⟨i, hi⟩ (some .start)⟩ := by
  have hnone : s.thread ⟨i, hi⟩ = none := h.pending _ (by rw [hmain]; exact Nat.le_refl i)
  refine ⟨?_, fun k hk => ?_, fun k t hk => ?_, ?_, ?_⟩
  · apply h.owned.congr
    intro k
    dsimp only
    by_cases hki : k = ⟨i, hi⟩
    · subst hki
      rw [Function.update_self, hnone]
      simp [holding, Thread.start, Pc.holds]
    · rw [Function.update_of_ne hki]
  · have hlt : i < k.val := hk
    dsimp only
    rw [Function.update_of_ne (fun hki => by rw [hki] at hlt; exact Nat.lt_irrefl i hlt)]
    exact h.pending k (by rw [hmain]; exact Nat.le_of_lt hlt)
  · dsimp only at hk
    by_cases hki : k = ⟨i, hi⟩
    · subst hki
      rw [Function.update_self] at hk
      obtain rfl := Option.some.inj hk
      exact ⟨Nat.zero_le _, fun hne => absurd rfl hne, nofun, nofun, nofun⟩
    · rw [Function.update_of_ne hki] at hk
      exact h.ok k t hk
  · rw [State.total_update (d := 0) (by rw [hnone]; rfl), Nat.add_zero]
    exact h.split
  · rw [State.total_update (d := 0) (by rw [hnone]; rfl), Nat.add_zero]
    exact h.oneline

/-- A thread that could not be launched. -/
theorem State.Inv.skip (h : s.Inv count) {i : Nat} (hmain : s.main = .launch i) :
    State.Inv count { s with main := .launch (i + 1) } := by
  refine ⟨h.owned, fun k hk => ?_, h.ok, h.split, h.oneline⟩
  have hlt : i < k.val := hk
  exact h.pending k (by rw [hmain]; exact Nat.le_of_lt hlt)

/-- `mtx_init`, before there are threads. -/
theorem State.Inv.init (h : s.Inv count) (hmain : s.main = .init) :
    State.Inv count
      { s with main := .launch 0, shared := { s.shared with mutex := mtxInit s.shared.mutex } } := by
  have hnone : ∀ k, s.thread k = none := fun k => h.pending k (by rw [hmain]; trivial)
  refine ⟨Owned.free fun k => ?_, fun k _ => hnone k, fun k t hk => ?_, h.split, h.oneline⟩
  · dsimp only
    rw [hnone k]
    simp [holding]
  · dsimp only at hk
    rw [hnone k] at hk
    cases hk

/-- A step of a thread keeps the mutex owned by who is in the critical section. -/
theorem State.Inv.thread_owned (h : s.Inv count) {k : Fin n} {t : Thread}
    (hk : s.thread k = some t) :
    Owned (threadMain count s.shared t).1.mutex
      (fun j => holding (Function.update s.thread k (some (threadMain count s.shared t).2) j) =
        true) := by
  have hother : ∀ j, j ≠ k →
      (holding (Function.update s.thread k (some (threadMain count s.shared t).2) j) = true ↔
        holding (s.thread j) = true) := by
    intro j hj
    rw [Function.update_of_ne hj]
  have hheld : holding (s.thread k) = t.pc.holds := by rw [hk]; rfl
  have howned := h.owned
  have hlocks : Thread.Locks s.shared (threadMain count s.shared t).1 t
      (threadMain count s.shared t).2 := threadMain_locks
  cases hlocks with
  | acquire hfree hset hholds =>
    rw [hfree] at howned
    rw [hset]
    exact howned.acquire (i := k) (by rw [Function.update_self]; exact hholds) hother
  | release hholds hclear hgone =>
    rw [hclear]
    refine howned.release (i := k) (by rw [hheld, hholds]) ?_ hother
    rw [Function.update_self, show holding (some (threadMain count s.shared t).2) =
      (threadMain count s.shared t).2.pc.holds from rfl, hgone]
    simp
  | keep hsame hholds =>
    rw [hsame]
    apply howned.congr
    intro j
    by_cases hj : j = k
    · subst hj
      rw [Function.update_self, hheld, ← hholds]
      rfl
    · exact hother j hj

/-- A step of a thread. -/
theorem State.Inv.thread (h : s.Inv count) {k : Fin n} {t : Thread} (hk : s.thread k = some t) :
    State.Inv count ⟨s.main, (threadMain count s.shared t).1,
      Function.update s.thread k (some (threadMain count s.shared t).2)⟩ := by
  have hok : t.Ok count s.shared := h.ok k t hk
  refine ⟨h.thread_owned hk, fun j hj => ?_, fun j t' hj => ?_, ?_, ?_⟩
  · have hne : j ≠ k := by
      rintro rfl
      rw [h.pending j hj] at hk
      cases hk
    dsimp only
    rw [Function.update_of_ne hne]
    exact h.pending j hj
  · dsimp only at hj ⊢
    by_cases hjk : j = k
    · subst hjk
      rw [Function.update_self] at hj
      obtain rfl := Option.some.inj hj
      exact threadMain_ok hok
    · rw [Function.update_of_ne hjk] at hj
      refine (h.ok j t' hj).frame fun hholds => ?_
      -- two threads are not in the critical section together
      by_contra hboth
      exact hjk (h.owned.unique j k (by rw [hj]; simpa [holding] using hboth)
        (by rw [hk]; exact hholds))
  · dsimp only
    rw [State.total_update (by rw [hk]; exact threadMain_splits hok), threadMain_splitMtx]
    split
    next hpc =>
      rw [hok.tmp hpc, h.split, Datarace.step]
      bv_omega
    next => rw [Nat.add_zero, h.split]
  · dsimp only
    rw [State.total_update (by rw [hk]; exact threadMain_onelines hok), threadMain_onelineMtx]
    split
    next hpc =>
      rw [hok.reg hpc, h.oneline, Datarace.step]
      bv_omega
    next => rw [Nat.add_zero, h.oneline]

/-- **Every step keeps the invariant.** -/
theorem State.Inv.step (h : s.Inv count) {a : Act n} (hstep : s.step count a = some s') :
    s'.Inv count := by
  cases a with
  | main ok =>
    rw [State.step] at hstep
    cases hmain : s.main with
    | init =>
      rw [hmain] at hstep
      obtain rfl := Option.some.inj hstep
      exact h.init hmain
    | launch i =>
      rw [hmain] at hstep
      dsimp only at hstep
      split at hstep
      next hi =>
        obtain rfl := Option.some.inj hstep
        cases ok with
        | true => exact h.launch hi hmain
        | false => exact h.skip hmain
      next => cases hstep
  | thread k =>
    rw [State.step] at hstep
    cases hk : s.thread k with
    | none =>
      rw [hk] at hstep
      cases hstep
    | some t =>
      rw [hk] at hstep
      obtain rfl := Option.some.inj hstep
      exact h.thread hk

theorem State.Inv.run {acts : List (Act n)} (h : s.Inv count) (hrun : s.run count acts = some s') :
    s'.Inv count := by
  induction acts generalizing s with
  | nil =>
    obtain rfl := Option.some.inj hrun
    exact h
  | cons a acts ih =>
    obtain ⟨s₁, hstep, hrest⟩ := Option.bind_eq_some_iff.mp hrun
    exact ih (h.step hstep) hrest

end Steps

/-- When all threads have finished, each of them has made all its updates. -/
theorem State.Inv.total_finished {s : State n} (h : s.Inv count) (hfin : s.Finished)
    {f : Thread → Nat} (hf : ∀ t : Thread, t.pc = .done → f t = t.i.toNat) :
    s.total f = n * count.toNat := by
  have hterm : ∀ k, (s.thread k).elim 0 f = count.toNat := by
    intro k
    obtain ⟨t, hk, hpc⟩ := Option.map_eq_some_iff.mp (hfin k)
    rw [hk, Option.elim_some, hf t hpc, (h.ok k t hk).done hpc]
  rw [State.total, Finset.sum_congr rfl fun k _ => hterm k]
  simp

end Datarace

open Datarace in
/-- **The mutex excludes, and no protected update is lost.** Whatever the threads
that share a mutex do, at most one of them is between a successful lock and its
unlock; and when all threads of the demonstration have finished, in whatever
order they took their steps, both protected variables have all the updates. -/
theorem mutex_protects :
    (∀ (ι : Type) [DecidableEq ι] (flag : Bool) (s : MtxState ι), MtxState.Run (.initial flag) s →
      ∀ i j, (s.thread i).holds = true → (s.thread j).holds = true → i = j) ∧
    (∀ (nthreads : Nat) (count : BitVec 32) (acts : List (Act nthreads)) (s : State nthreads),
      (State.initial nthreads).run count acts = some s → s.Finished →
      s.shared.splitMtx = BitVec.ofNat 32 nthreads * count * step ∧
        s.shared.onelineMtx = BitVec.ofNat 32 nthreads * count * step) := by
  refine ⟨fun ι _ flag s hrun i j hi hj => hrun.excludes hi hj, fun n count acts s hrun hfin => ?_⟩
  have hinv : s.Inv count := State.Inv.initial.run hrun
  have hall : BitVec.ofNat 32 (n * count.toNat) = BitVec.ofNat 32 n * count := by
    rw [BitVec.ofNat_mul, BitVec.ofNat_toNat, BitVec.setWidth_eq]
  constructor
  · rw [hinv.split, hinv.total_finished hfin, hall]
    intro t hpc
    rw [Thread.splits, hpc]
    rfl
  · rw [hinv.oneline, hinv.total_finished hfin, hall]
    intro t hpc
    rw [Thread.onelines, hpc]
    rfl

/-- Two threads that count to one: the second one waits while the first one is
in the critical section. -/
def Datarace.waitingActs : List (Datarace.Act 2) :=
  List.replicate 3 (.main true) ++ List.replicate 9 (.thread 0) ++ List.replicate 9 (.thread 1) ++
    List.replicate 5 (.thread 0) ++ List.replicate 9 (.thread 1)

/-- Both threads call `mtx_lock`, and the first one gets the mutex. -/
theorem Datarace.exists_waiting :
    ∃ s : MtxState (Fin 2), MtxState.Run (.initial true) s ∧ (s.thread 0).holds = true ∧
      (s.thread 1).call = some .lockYield := by
  have h₀ : MtxState.Run (.initial true : MtxState (Fin 2)) _ := .refl
  have h₁ := h₀.tail (@MtxState.Step.call _ _ _ 0 .lock rfl (by decide) nofun)
  have h₂ := h₁.tail (@MtxState.Step.call _ _ _ 1 .lock rfl (by decide) nofun)
  have h₃ := h₂.tail (@MtxState.Step.exec _ _ _ 0 .lock rfl)
  have h₄ := h₃.tail (@MtxState.Step.exec _ _ _ 1 .lock rfl)
  exact ⟨_, h₄, rfl, rfl⟩

theorem mutex_protects_waiting :
    (∃ s : MtxState (Fin 2), MtxState.Run (.initial true) s ∧ (s.thread 0).holds = true ∧
      (s.thread 1).call = some .lockYield ∧ ∀ j, (s.thread j).holds = true → j = 0) ∧
    ∃ s, (Datarace.State.initial 2).run 1#32 Datarace.waitingActs = some s ∧ s.Finished ∧
      s.shared.splitMtx = 2#32 ∧ s.shared.onelineMtx = 2#32 := by
  obtain ⟨s₀, hrun₀, hholds, hwaits⟩ := Datarace.exists_waiting
  refine ⟨⟨s₀, hrun₀, hholds, hwaits, fun j hj => mutex_protects.1 (Fin 2) true s₀ hrun₀ j 0 hj hholds⟩, ?_⟩
  have hrun : ((Datarace.State.initial 2).run 1#32 Datarace.waitingActs).isSome = true := by
    decide +kernel
  obtain ⟨s, hs⟩ := Option.isSome_iff_exists.mp hrun
  have hfin : ((Datarace.State.initial 2).run 1#32 Datarace.waitingActs).all
      (fun s => decide s.Finished) = true := by decide +kernel
  rw [hs] at hfin
  have hfin : s.Finished := by simpa using hfin
  exact ⟨s, hs, hfin, mutex_protects.2 2 1#32 Datarace.waitingActs s hs hfin⟩

end Munix
