import Munix.User.Mutex

/-!
# Munix — the dining philosophers

The model of `process/philosophers.c`, without the option to exit when the first
philosopher has finished. The body of the loop in `phl_main`, with the calls of
`phl_print` in it, is the list of its steps: one for every lock, unlock,
assignment, delay and `fprintf`. A round of the loop of `mtx_lock` that finds the
flag set is one step without an effect. The philosophers take their steps in any
order.

With one left-handed philosopher, every philosopher takes the fork with the
lower number first, and the mutex for printing after the forks: the programs are
ordered in the sense of `Munix.Lib.Lock`.

## Results

* `Dining.Inv.step`        — what every step of every philosopher keeps.
* `dining_left_handed`     — no deadlock, and neighbours do not eat together.
-/

namespace Munix

open Lock

namespace Philosophers

-- ---------------------------------------------------------------------------
-- philosophers.c
-- ---------------------------------------------------------------------------

inductive PhlState where
  | thinking
  | hungry
  | eating
  | full
deriving DecidableEq

/-- `forks[k]` and `print_mtx`. -/
inductive Mtx (n : Nat) where
  | fork (k : Fin n)
  | print
deriving DecidableEq

structure Philosopher (n : Nat) where
  philId     : Nat
  leftHanded : Bool
  forkRight  : Mtx n
  forkLeft   : Mtx n
  haveRight  : Bool
  haveLeft   : Bool
  state      : PhlState
  mealCt     : BitVec 32
deriving DecidableEq

def PHL_ART_W : Nat := 5
def FORK_W : Nat := 4

/-- What goes to `stdout`: the cursor is moved by lines or to a column, and a
count, a picture or a text is printed. -/
inductive Output where
  | cursorUp (lines : Nat)
  | cursorDown (lines : Nat)
  | cursorHoriz (c : Nat)
  | meals (ct : BitVec 32)
  | art (haveRight : Bool) (state : PhlState) (haveLeft : Bool)
  | txt (state : PhlState)
deriving DecidableEq

/-- The calls of `fprintf` in `phl_print`. -/
inductive Fprintf where
  | cursorUp (lines : Nat)
  | cursorDown (lines : Nat)
  /-- To the philosopher's column. -/
  | cursorHpos
  | cursorHome
  | meals
  | art
  | txt
deriving DecidableEq

def Fprintf.output {n : Nat} (phl : Philosopher n) : Fprintf → Output
  | .cursorUp lines => .cursorUp lines
  | .cursorDown lines => .cursorDown lines
  | .cursorHpos => .cursorHoriz (phl.philId * (PHL_ART_W + FORK_W) + 1)
  | .cursorHome => .cursorHoriz 0
  | .meals => .meals phl.mealCt
  | .art => .art phl.haveRight phl.state phl.haveLeft
  | .txt => .txt phl.state

/-- A step of a philosopher. -/
inductive PhlOp (n : Nat) where
  | lock (m : Mtx n)
  | unlock (m : Mtx n)
  | setState (state : PhlState)
  | setLeft (v : Bool)
  | setRight (v : Bool)
  /-- `phl->meal_ct++`. -/
  | eat
  /-- `delay_loop(slowdown + k)`. -/
  | delay (k : Nat)
  | fprintf (f : Fprintf)
deriving DecidableEq

variable {n : Nat}

def phlPrint : List (PhlOp n) :=
  [.lock .print,
    .fprintf (.cursorUp 4), .fprintf .cursorHpos, .fprintf .meals,
    .fprintf (.cursorDown 1), .fprintf .cursorHpos, .fprintf .art,
    .fprintf (.cursorDown 1), .fprintf .cursorHpos, .fprintf .txt,
    .fprintf (.cursorDown 2), .fprintf .cursorHome,
    .unlock .print]

/-- The fork that is picked up first, and the other one. -/
def Philosopher.forka (phl : Philosopher n) : Mtx n :=
  if phl.leftHanded then phl.forkLeft else phl.forkRight

def Philosopher.forkb (phl : Philosopher n) : Mtx n :=
  if phl.leftHanded then phl.forkRight else phl.forkLeft

/-- `*has_a = v` and `*has_b = v`. -/
def Philosopher.hasA (phl : Philosopher n) (v : Bool) : PhlOp n :=
  if phl.leftHanded then .setLeft v else .setRight v

def Philosopher.hasB (phl : Philosopher n) (v : Bool) : PhlOp n :=
  if phl.leftHanded then .setRight v else .setLeft v

/-- Before the second fork is picked up, in a round of `phl_main`. -/
def beforeB (phl : Philosopher n) : List (PhlOp n) :=
  [.setState .thinking] ++ phlPrint ++ [.delay 2]
    ++ [.setState .hungry] ++ phlPrint ++ [.delay 0]
    ++ [.lock phl.forka, phl.hasA true] ++ phlPrint ++ [.delay 0]

/-- With both forks. -/
def withBoth (phl : Philosopher n) : List (PhlOp n) :=
  [phl.hasB true] ++ phlPrint
    ++ [.setState .eating, .eat] ++ phlPrint ++ [.delay 1]
    ++ [.setState .full] ++ phlPrint

/-- After the second fork has been put down. -/
def afterB (phl : Philosopher n) : List (PhlOp n) :=
  [phl.hasB false] ++ phlPrint
    ++ [.unlock phl.forka, phl.hasA false] ++ phlPrint ++ [.delay 0]

/-- A round of the loop in `phl_main`. -/
def phlRound (phl : Philosopher n) : List (PhlOp n) :=
  beforeB phl ++ .lock phl.forkb :: (withBoth phl ++ .unlock phl.forkb :: afterB phl)

/-- A thread in `phl_main`: the loop counter, and what is left of the round. The
counter is advanced with the test; nothing reads it in the round. -/
structure Thread (n : Nat) where
  i   : BitVec 32
  ops : List (PhlOp n)
deriving DecidableEq

/-- The whole program; a thread that has not been launched is `none`. -/
structure Dining (n : Nat) where
  /-- The loop variable of `main` where it launches the threads. -/
  launched : Nat
  flag     : Mtx n → Bool
  phl      : Fin n → Philosopher n
  thread   : Fin n → Option (Thread n)
  stdout   : List Output

/-- `philosophers[i]`, as `main` sets it up. -/
def philosopher (left_handed : Bool) (i : Fin n) : Philosopher n where
  philId := i
  leftHanded := left_handed && i.val == n - 1
  forkRight := .fork i
  forkLeft := .fork ⟨(i + 1) % n, Nat.mod_lt _ (Nat.zero_lt_of_lt i.isLt)⟩
  haveRight := false
  haveLeft := false
  state := .thinking
  mealCt := 0#32

/-- After the setup in `main`. -/
def Dining.initial (n : Nat) (left_handed : Bool) : Dining n where
  launched := 0
  flag _ := mtxInit false
  phl := philosopher left_handed
  thread _ := none
  stdout := []

/-- Philosopher `k` takes a step that leaves `ops` of the round. -/
def Dining.exec (s : Dining n) (k : Fin n) (t : Thread n) (ops : List (PhlOp n)) :
    PhlOp n → Dining n
  | .lock m =>
    match mtxStep (s.flag m) .lock with
    | (.goto _, flag) => { s with flag := Function.update s.flag m flag }
    | (.ret _, flag) =>
      { s with
        flag := Function.update s.flag m flag
        thread := Function.update s.thread k (some { t with ops := ops }) }
  | .unlock m =>
    { s with
      flag := Function.update s.flag m (mtxStep (s.flag m) .unlock).2
      thread := Function.update s.thread k (some { t with ops := ops }) }
  | .setState state => update { s.phl k with state := state }
  | .setLeft v => update { s.phl k with haveLeft := v }
  | .setRight v => update { s.phl k with haveRight := v }
  | .eat => update { s.phl k with mealCt := (s.phl k).mealCt + 1#32 }
  | .delay _ => update (s.phl k)
  | .fprintf f =>
    { s with
      stdout := s.stdout ++ [f.output (s.phl k)]
      thread := Function.update s.thread k (some { t with ops := ops }) }
where
  update (phl : Philosopher n) : Dining n :=
    { s with
      phl := Function.update s.phl k phl
      thread := Function.update s.thread k (some { t with ops := ops }) }

/-- Who takes a step. `ok` is whether a call of `thrd_create` succeeds. -/
inductive Act (n : Nat) where
  | main (ok : Bool)
  | thread (k : Fin n)

def Dining.step (phl_loops : BitVec 32) (s : Dining n) : Act n → Option (Dining n)
  | .main ok =>
    if h : s.launched < n then
      some { s with
        launched := s.launched + 1
        thread := if ok then Function.update s.thread ⟨s.launched, h⟩ (some ⟨0#32, []⟩)
          else s.thread }
    else none
  | .thread k =>
    match s.thread k with
    | none => none
    | some ⟨i, []⟩ =>
      if i < phl_loops then
        some { s with thread := Function.update s.thread k (some ⟨i + 1#32, phlRound (s.phl k)⟩) }
      else none
    | some ⟨i, op :: ops⟩ => some (s.exec k ⟨i, op :: ops⟩ ops op)

/-- Steps in a given order. -/
def Dining.run (phl_loops : BitVec 32) (s : Dining n) : List (Act n) → Option (Dining n)
  | [] => some s
  | a :: acts => (s.step phl_loops a).bind fun s => s.run phl_loops acts

-- ---------------------------------------------------------------------------
-- The order of the forks
-- ---------------------------------------------------------------------------

/-- The forks by their number, and the mutex for printing above them. -/
def Mtx.rank : Mtx n → Nat
  | .fork k => k
  | .print => n

theorem Mtx.rank_le (m : Mtx n) : m.rank ≤ n := by
  cases m with
  | fork k => exact Nat.le_of_lt k.isLt
  | print => exact Nat.le_refl n

/-- What a step does to the mutexes. -/
def PhlOp.lockOp : PhlOp n → Op (Mtx n)
  | .lock m => .lock m
  | .unlock m => .unlock m
  | _ => .other

/-- The mutexes of a list of steps. -/
def lockOps (ops : List (PhlOp n)) : List (Op (Mtx n)) := ops.map PhlOp.lockOp

@[simp]
theorem lockOp_hasA (phl : Philosopher n) (v : Bool) : (phl.hasA v).lockOp = .other := by
  unfold Philosopher.hasA
  split <;> rfl

@[simp]
theorem lockOp_hasB (phl : Philosopher n) (v : Bool) : (phl.hasB v).lockOp = .other := by
  unfold Philosopher.hasB
  split <;> rfl

/-- Printing, and then the rest. -/
def printing (rest : List (Op (Mtx n))) : List (Op (Mtx n)) := lockOps phlPrint ++ rest

theorem holds_print (rest : List (Op (Mtx n))) (m : Mtx n) :
    holds (printing rest) m = if Mtx.print = m then false else holds rest m := by
  by_cases hm : Mtx.print = m <;> simp [printing, lockOps, phlPrint, PhlOp.lockOp, holds, hm]

/-- Printing is in order where the mutex for it is free. -/
theorem ordered_print {rest : List (Op (Mtx n))} (hfree : holds rest .print = false)
    (h : Ordered Mtx.rank rest) : Ordered Mtx.rank (printing rest) := by
  refine ⟨rfl, fun m hm hheld => ?_, hfree, h⟩
  cases m with
  | fork k => exact k.isLt
  | print => exact absurd rfl hm

/-- The mutexes of a round. -/
theorem lockOps_round (phl : Philosopher n) :
    lockOps (phlRound phl) =
      .other :: printing (.other :: .other :: printing (.other ::
        .lock phl.forka :: .other :: printing (.other ::
        .lock phl.forkb :: .other :: printing (.other :: .other ::
          printing (.other :: .other :: printing (
        .unlock phl.forkb :: .other :: printing (
        .unlock phl.forka :: .other :: printing [.other]))))))) := by
  simp only [lockOps, phlRound, beforeB, withBoth, afterB, List.map_append, List.map_cons,
    List.map_nil, lockOp_hasA, lockOp_hasB, List.append_assoc, List.cons_append, List.nil_append]
  rfl

/-- A round starts without a mutex. -/
theorem round_closed (phl : Philosopher n) {a b : Fin n} (ha : phl.forka = .fork a)
    (hb : phl.forkb = .fork b) : Lock.Closed (lockOps (phlRound phl)) := by
  intro m
  rw [lockOps_round, ha, hb]
  simp only [holds, holds_print]
  split_ifs <;> simp_all

/-- A philosopher whose first fork has the lower number takes the mutexes in
order. -/
theorem round_ordered (phl : Philosopher n) {a b : Fin n} (ha : phl.forka = .fork a)
    (hb : phl.forkb = .fork b) (hab : a.val < b.val) :
    Ordered Mtx.rank (lockOps (phlRound phl)) := by
  have hne : a ≠ b := Fin.ne_of_lt hab
  rw [lockOps_round, ha, hb]
  refine ordered_print (by simp [holds, holds_print]) (ordered_print (by simp [holds, holds_print]) ?_)
  refine ⟨by simp [holds, holds_print, hne.symm], ?_, ?_⟩
  · intro m hm hheld
    have hm' : ¬ Mtx.fork a = m := fun h => hm h.symm
    simp only [holds, holds_print, hm', if_false] at hheld
    split_ifs at hheld
  refine ordered_print (by simp [holds, holds_print]) ?_
  refine ⟨by simp [holds, holds_print], ?_, ?_⟩
  · intro m hm hheld
    have hm' : ¬ Mtx.fork b = m := fun h => hm h.symm
    simp only [holds, holds_print, hm', if_false] at hheld
    split_ifs at hheld with hp ha'
    subst ha'
    exact hab
  refine ordered_print (by simp [holds, holds_print]) (ordered_print (by simp [holds, holds_print]) (ordered_print (by simp [holds, holds_print]) ?_))
  refine ⟨by simp [holds, holds_print, hne], ?_⟩
  refine ordered_print (by simp [holds, holds_print]) ?_
  refine ⟨by simp [holds, holds_print], ?_⟩
  exact ordered_print rfl trivial

/-- The two forks of a philosopher, in the order in which they are picked up. -/
theorem forks_eq (left_handed : Bool) (k : Fin n) :
    ((philosopher left_handed k).forka = (philosopher left_handed k).forkRight ∧
        (philosopher left_handed k).forkb = (philosopher left_handed k).forkLeft) ∨
      ((philosopher left_handed k).forka = (philosopher left_handed k).forkLeft ∧
        (philosopher left_handed k).forkb = (philosopher left_handed k).forkRight) := by
  unfold Philosopher.forka Philosopher.forkb
  cases (philosopher left_handed k).leftHanded with
  | true => exact .inr ⟨rfl, rfl⟩
  | false => exact .inl ⟨rfl, rfl⟩

/-- **With one left-handed philosopher, everyone picks up the fork with the lower
number first.** -/
theorem forks_ordered (hn : 2 ≤ n) (k : Fin n) :
    ∃ a b : Fin n, (philosopher true k).forka = .fork a ∧ (philosopher true k).forkb = .fork b ∧
      a.val < b.val := by
  by_cases hlast : k.val = n - 1
  · -- the left-handed one sits between the last fork and the first
    have hleft : (philosopher true k).leftHanded = true := by simp [philosopher, hlast]
    refine ⟨⟨(k + 1) % n, Nat.mod_lt _ (by omega)⟩, k, ?_, ?_, ?_⟩
    · rw [Philosopher.forka, if_pos hleft, philosopher]
    · rw [Philosopher.forkb, if_pos hleft, philosopher]
    · have hmod : (k.val + 1) % n = 0 := by
        rw [hlast, Nat.sub_add_cancel (by omega), Nat.mod_self]
      dsimp only
      omega
  · have hright : ¬ (philosopher true k).leftHanded = true := by simp [philosopher, hlast]
    refine ⟨k, ⟨(k + 1) % n, Nat.mod_lt _ (by omega)⟩, ?_, ?_, ?_⟩
    · rw [Philosopher.forka, if_neg hright, philosopher]
    · rw [Philosopher.forkb, if_neg hright, philosopher]
    · have hmod : (k.val + 1) % n = k.val + 1 := Nat.mod_eq_of_lt (by omega)
      dsimp only
      omega

-- ---------------------------------------------------------------------------
-- All philosophers
-- ---------------------------------------------------------------------------

/-- The mutexes that are ahead of philosopher `k`: those of the round it is in,
and of the rounds after it. -/
def ahead (left_handed : Bool) (phl_loops : BitVec 32) (k : Fin n) (t : Option (Thread n)) :
    List (Op (Mtx n)) :=
  lockOps ((t.map (·.ops)).getD []) ++
    (List.replicate (phl_loops.toNat - ((t.map (·.i)).getD 0#32).toNat)
      (lockOps (phlRound (philosopher left_handed k)))).flatten

/-- What a state is for the mutexes. -/
def Dining.locks (left_handed : Bool) (phl_loops : BitVec 32) (s : Dining n) :
    Locks (Mtx n) (Fin n) :=
  ⟨s.flag, fun k => ahead left_handed phl_loops k (s.thread k)⟩

/-- The fields that `main` sets and nothing changes. -/
def Philosopher.setup (phl : Philosopher n) : Bool × Mtx n × Mtx n :=
  (phl.leftHanded, phl.forkRight, phl.forkLeft)

theorem round_of_setup {phl phl' : Philosopher n} (h : phl.setup = phl'.setup) :
    phlRound phl = phlRound phl' ∧ phl.forkb = phl'.forkb := by
  obtain ⟨id, left, fr, fl, hr, hl, st, ct⟩ := phl
  obtain ⟨id', left', fr', fl', hr', hl', st', ct'⟩ := phl'
  simp only [Philosopher.setup, Prod.mk.injEq] at h
  obtain ⟨rfl, rfl, rfl⟩ := h
  exact ⟨rfl, rfl⟩

/-- The mutexes are taken in order and owned; the philosophers are as `main` set
them up, and each is somewhere in a round. -/
structure Dining.Inv (left_handed : Bool) (phl_loops : BitVec 32) (s : Dining n) : Prop where
  locks   : (s.locks left_handed phl_loops).Inv Mtx.rank
  pending : ∀ k : Fin n, s.launched ≤ k.val → s.thread k = none
  setup   : ∀ k, (s.phl k).setup = (philosopher left_handed k).setup
  rest    : ∀ k t, s.thread k = some t → t.ops <:+ phlRound (philosopher left_handed k)

section Steps

variable {left_handed : Bool} {phl_loops : BitVec 32} {s s' : Dining n} {k : Fin n} {i : BitVec 32}
  {op : PhlOp n} {ops : List (PhlOp n)}

theorem ahead_update (thread : Fin n → Option (Thread n)) (t : Option (Thread n)) :
    (fun j => ahead left_handed phl_loops j (Function.update thread k t j)) =
      Function.update (fun j => ahead left_handed phl_loops j (thread j)) k
        (ahead left_handed phl_loops k t) :=
  funext fun j => Function.apply_update (fun j => ahead left_handed phl_loops j) thread k t j

theorem ahead_cons :
    ahead left_handed phl_loops k (some ⟨i, op :: ops⟩) =
      op.lockOp :: ahead left_handed phl_loops k (some ⟨i, ops⟩) := rfl

/-- Starting a round does not change what is ahead. -/
theorem ahead_round (hi : i < phl_loops) :
    ahead left_handed phl_loops k
        (some ⟨i + 1#32, phlRound (philosopher left_handed k)⟩) =
      ahead left_handed phl_loops k (some ⟨i, []⟩) := by
  have hlt : i.toNat < phl_loops.toNat := hi
  have hnext : (i + 1#32).toNat = i.toNat + 1 := by bv_omega
  have hrounds : phl_loops.toNat - i.toNat = phl_loops.toNat - (i.toNat + 1) + 1 := by omega
  simp only [ahead, Option.map_some, Option.getD_some, hnext, hrounds, List.replicate_succ,
    List.flatten_cons]
  rfl

/-- A mutex that is free is taken. -/
theorem exec_lock_free {t : Thread n} {m : Mtx n} (h : s.flag m = false) :
    s.exec k t ops (.lock m) =
      { s with
        flag := Function.update s.flag m true
        thread := Function.update s.thread k (some { t with ops := ops }) } := by
  rw [Dining.exec, h]
  rfl

/-- A mutex that is not free leaves everything as it is. -/
theorem exec_lock_busy {t : Thread n} {m : Mtx n} (h : s.flag m = true) :
    s.exec k t ops (.lock m) = s := by
  have hsame : Function.update s.flag m true = s.flag := by rw [← h, Function.update_eq_self]
  rw [Dining.exec, h]
  simp only [mtxStep, atomicFlagTestAndSet, if_true, hsame]

/-- A step of a philosopher is a step of its program. -/
theorem exec_locks (hk : s.thread k = some ⟨i, op :: ops⟩) :
    (s.exec k ⟨i, op :: ops⟩ ops op).locks left_handed phl_loops = s.locks left_handed phl_loops ∨
      Locks.Step (s.locks left_handed phl_loops)
        ((s.exec k ⟨i, op :: ops⟩ ops op).locks left_handed phl_loops) := by
  have hahead : (s.locks left_handed phl_loops).rest k =
      op.lockOp :: ahead left_handed phl_loops k (some ⟨i, ops⟩) := by
    rw [← ahead_cons, ← hk]
    rfl
  cases op with
  | lock m =>
    cases hflag : s.flag m with
    | false =>
      right
      rw [exec_lock_free hflag]
      simp only [Dining.locks, ahead_update]
      exact .acquire hahead hflag
    | true =>
      left
      rw [exec_lock_busy hflag]
  | unlock m =>
    right
    simp only [Dining.exec, Dining.locks, ahead_update]
    exact .release hahead
  | fprintf f =>
    right
    simp only [Dining.exec, Dining.locks, ahead_update]
    exact .other hahead
  | _ =>
    right
    simp only [Dining.exec, Dining.exec.update, Dining.locks, ahead_update]
    exact .other hahead

/-- Nothing of the setup changes. -/
theorem exec_setup (j : Fin n) :
    ((s.exec k ⟨i, op :: ops⟩ ops op).phl j).setup = (s.phl j).setup := by
  have hupdate : ∀ phl : Philosopher n, phl.setup = (s.phl k).setup →
      (Function.update s.phl k phl j).setup = (s.phl j).setup := by
    intro phl hphl
    by_cases hj : j = k
    · subst hj
      rw [Function.update_self, hphl]
    · rw [Function.update_of_ne hj]
  cases op with
  | lock m =>
    cases hflag : s.flag m with
    | false => rw [exec_lock_free hflag]
    | true => rw [exec_lock_busy hflag]
  | unlock m => rfl
  | fprintf f => rfl
  | _ => exact hupdate _ rfl

/-- The philosopher goes on in its round, or it stays where it is. -/
theorem exec_thread :
    (s.exec k ⟨i, op :: ops⟩ ops op).thread = s.thread ∨
      (s.exec k ⟨i, op :: ops⟩ ops op).thread = Function.update s.thread k (some ⟨i, ops⟩) := by
  cases op with
  | lock m =>
    cases hflag : s.flag m with
    | false => exact .inr (by rw [exec_lock_free hflag])
    | true => exact .inl (by rw [exec_lock_busy hflag])
  | _ => exact .inr rfl

theorem exec_launched : (s.exec k ⟨i, op :: ops⟩ ops op).launched = s.launched := by
  cases op with
  | lock m =>
    cases hflag : s.flag m with
    | false => rw [exec_lock_free hflag]
    | true => rw [exec_lock_busy hflag]
  | _ => rfl

/-- The threads that `main` has not come to, after a step of another one. -/
theorem Dining.Inv.pending_update (h : s.Inv left_handed phl_loops) {t t' : Thread n}
    (hk : s.thread k = some t) {j : Fin n} (hj : s.launched ≤ j.val) :
    Function.update s.thread k (some t') j = none := by
  have hne : j ≠ k := by
    rintro rfl
    rw [h.pending j hj] at hk
    cases hk
  rw [Function.update_of_ne hne, h.pending j hj]

/-- Everyone is somewhere in a round, after a step of philosopher `k`. -/
theorem Dining.Inv.rest_update (h : s.Inv left_handed phl_loops) {t : Thread n}
    (ht : t.ops <:+ phlRound (philosopher left_handed k)) {j : Fin n} {t' : Thread n}
    (hj : Function.update s.thread k (some t) j = some t') :
    t'.ops <:+ phlRound (philosopher left_handed j) := by
  by_cases hjk : j = k
  · subst hjk
    rw [Function.update_self] at hj
    obtain rfl := Option.some.inj hj
    exact ht
  · rw [Function.update_of_ne hjk] at hj
    exact h.rest j t' hj

/-- A step in a round. -/
theorem Dining.Inv.exec (h : s.Inv left_handed phl_loops) (hk : s.thread k = some ⟨i, op :: ops⟩) :
    (s.exec k ⟨i, op :: ops⟩ ops op).Inv left_handed phl_loops := by
  have hops : ops <:+ phlRound (philosopher left_handed k) :=
    (List.suffix_cons op ops).trans (h.rest k _ hk)
  have hthread : (s.exec k ⟨i, op :: ops⟩ ops op).thread = s.thread ∨
      (s.exec k ⟨i, op :: ops⟩ ops op).thread = Function.update s.thread k (some ⟨i, ops⟩) :=
    exec_thread
  refine ⟨?_, fun j hj => ?_, fun j => (exec_setup j).trans (h.setup j), fun j t hj => ?_⟩
  · obtain hsame | hstep := exec_locks hk
    · rw [hsame]
      exact h.locks
    · exact h.locks.step hstep
  · rw [exec_launched] at hj
    obtain hsame | hnext := hthread
    · rw [hsame]
      exact h.pending j hj
    · rw [hnext]
      exact h.pending_update hk hj
  · obtain hsame | hnext := hthread
    · rw [hsame] at hj
      exact h.rest j t hj
    · rw [hnext] at hj
      exact h.rest_update (t := ⟨i, ops⟩) hops hj

/-- **Every step keeps the invariant.** -/
theorem Dining.Inv.step (h : s.Inv left_handed phl_loops) {a : Act n}
    (hstep : s.step phl_loops a = some s') : s'.Inv left_handed phl_loops := by
  cases a with
  | main ok =>
    rw [Dining.step] at hstep
    split at hstep
    next hlt =>
      obtain rfl := Option.some.inj hstep
      cases ok with
      | false => exact ⟨h.locks, fun j hj => h.pending j (Nat.le_of_succ_le hj), h.setup, h.rest⟩
      | true =>
        have hnone : s.thread ⟨s.launched, hlt⟩ = none := h.pending _ (Nat.le_refl _)
        refine ⟨?_, fun j hj => ?_, h.setup, fun j t hj => ?_⟩
        · -- a philosopher that has just been launched has all its rounds ahead
          have hsame : ahead left_handed phl_loops ⟨s.launched, hlt⟩ (some ⟨0#32, []⟩) =
              ahead left_handed phl_loops ⟨s.launched, hlt⟩ (s.thread ⟨s.launched, hlt⟩) := by
            rw [hnone]
            rfl
          have hlocks := h.locks
          simp only [Dining.locks, if_true, ahead_update, hsame] at hlocks ⊢
          rwa [Function.update_eq_self]
        · have hj : s.launched + 1 ≤ j.val := hj
          have hne : j ≠ ⟨s.launched, hlt⟩ := by
            rintro rfl
            exact Nat.not_succ_le_self _ hj
          dsimp only
          rw [if_pos rfl, Function.update_of_ne hne]
          exact h.pending j (Nat.le_of_succ_le hj)
        · dsimp only at hj
          rw [if_pos rfl] at hj
          exact h.rest_update (t := ⟨0#32, []⟩) (List.nil_suffix) hj
    next => cases hstep
  | thread k =>
    rw [Dining.step] at hstep
    split at hstep
    next => cases hstep
    next i hk =>
      split at hstep
      next hi =>
        obtain rfl := Option.some.inj hstep
        have hround := (round_of_setup (h.setup k)).1
        refine ⟨?_, fun j hj => h.pending_update hk hj, h.setup, fun j t hj => ?_⟩
        · have hlocks := h.locks
          simp only [Dining.locks, ahead_update, hround, ahead_round hi] at hlocks ⊢
          rwa [← hk, Function.update_eq_self]
        · dsimp only at hj
          rw [hround] at hj
          exact h.rest_update (t := ⟨i + 1#32, _⟩) (List.suffix_refl _) hj
      next => cases hstep
    next i op ops hk =>
      obtain rfl := Option.some.inj hstep
      exact h.exec hk

theorem Dining.Inv.run {acts : List (Act n)} (h : s.Inv left_handed phl_loops)
    (hrun : s.run phl_loops acts = some s') : s'.Inv left_handed phl_loops := by
  induction acts generalizing s with
  | nil =>
    obtain rfl := Option.some.inj hrun
    exact h
  | cons a acts ih =>
    obtain ⟨s₁, hstep, hrest⟩ := Option.bind_eq_some_iff.mp hrun
    exact ih (h.step hstep) hrest

end Steps

theorem Dining.Inv.initial (hn : 2 ≤ n) (phl_loops : BitVec 32) :
    (Dining.initial n true).Inv true phl_loops where
  locks := by
    have hround : ∀ k : Fin n, Lock.Closed (lockOps (phlRound (philosopher true k))) ∧
        Ordered Mtx.rank (lockOps (phlRound (philosopher true k))) := by
      intro k
      obtain ⟨a, b, ha, hb, hab⟩ := forks_ordered hn k
      exact ⟨round_closed _ ha hb, round_ordered _ ha hb hab⟩
    exact Locks.Inv.start (fun k => ordered_repeat (hround k).2 (hround k).1 _)
      fun k => closed_repeat (hround k).1 _
  pending _ _ := rfl
  setup _ := rfl
  rest _ _ h := by cases h

-- ---------------------------------------------------------------------------
-- Both forks
-- ---------------------------------------------------------------------------

/-- Philosopher `k` is between the lock of its second fork and the unlock. -/
def Dining.HasBoth (s : Dining n) (k : Fin n) : Prop :=
  ∃ t, s.thread k = some t ∧ .unlock (s.phl k).forkb ∈ t.ops ∧ .lock (s.phl k).forkb ∉ t.ops

/-- A suffix that starts before a point, or after it. -/
theorem suffix_split {α : Type} {l pre post : List α} {x : α} (h : l <:+ pre ++ x :: post) :
    (∃ w, w <:+ pre ∧ l = w ++ x :: post) ∨ l <:+ post := by
  obtain ⟨front, hfront⟩ := h
  obtain ⟨w, hpre, hl⟩ | ⟨w, -, hpost⟩ := List.append_eq_append_iff.mp hfront
  · exact .inl ⟨w, ⟨front, hpre.symm⟩, hl⟩
  · cases w with
    | nil => exact .inl ⟨[], List.nil_suffix, hpost.symm⟩
    | cons y w =>
      obtain ⟨-, rfl⟩ := List.cons.inj hpost
      exact .inr ⟨w, rfl⟩

/-- Steps that do not touch a mutex. -/
theorem holds_skip {w : List (PhlOp n)} {m : Mtx n}
    (hw : ∀ op ∈ w, op.lockOp ≠ .lock m ∧ op.lockOp ≠ .unlock m) (rest : List (Op (Mtx n))) :
    holds (lockOps w ++ rest) m = holds rest m := by
  induction w with
  | nil => rfl
  | cons op w ih =>
    obtain ⟨⟨hlock, hunlock⟩, hw⟩ := List.forall_mem_cons.mp hw
    rw [← ih hw]
    show holds (op.lockOp :: (lockOps w ++ rest)) m = _
    cases hop : op.lockOp with
    | lock x =>
      rw [hop] at hlock
      exact if_neg fun hx => hlock (by rw [hx])
    | unlock x =>
      rw [hop] at hunlock
      exact if_neg fun hx => hunlock (by rw [hx])
    | other => rfl

/-- With both forks, only the mutex for printing is taken and given back. -/
theorem withBoth_forks (phl : Philosopher n) (k : Fin n) (op : PhlOp n) (hop : op ∈ withBoth phl) :
    op.lockOp ≠ .lock (.fork k) ∧ op.lockOp ≠ .unlock (.fork k) := by
  have hall : ∀ op ∈ withBoth phl, op.lockOp = .other ∨ op.lockOp = .lock .print ∨
      op.lockOp = .unlock .print := by
    cases hleft : phl.leftHanded <;>
      simp [withBoth, phlPrint, PhlOp.lockOp, Philosopher.hasB, hleft]
  obtain h | h | h := hall op hop <;> simp [h]

/-- After the second fork has been put down, only the first one is. -/
theorem afterB_unlock {phl : Philosopher n} {k : Fin n} (h : .unlock (.fork k) ∈ afterB phl) :
    phl.forka = .fork k := by
  have hne : phl.hasA false ≠ .unlock (.fork k) ∧ phl.hasB false ≠ .unlock (.fork k) := by
    cases hleft : phl.leftHanded <;> simp [Philosopher.hasA, Philosopher.hasB, hleft]
  simpa [afterB, phlPrint, hne.1.symm, hne.2.symm, eq_comm] using h

/-- What is held between the lock of the second fork and the unlock. -/
theorem holds_both {phl : Philosopher n} {a b : Fin n} (ha : phl.forka = .fork a)
    (hb : phl.forkb = .fork b) (hab : a ≠ b) {ops : List (PhlOp n)} (hops : ops <:+ phlRound phl)
    (hin : .unlock phl.forkb ∈ ops) (hout : .lock phl.forkb ∉ ops) :
    holds (lockOps ops) phl.forka = true ∧ holds (lockOps ops) phl.forkb = true := by
  obtain ⟨w, -, rfl⟩ | hops := suffix_split hops
  · exact absurd (List.mem_append_right w (List.mem_cons_self)) hout
  obtain ⟨w, hw, rfl⟩ | hafter := suffix_split hops
  · have hskip : ∀ k : Fin n, holds (lockOps (w ++ .unlock phl.forkb :: afterB phl)) (.fork k) =
        holds (.unlock phl.forkb :: lockOps (afterB phl)) (.fork k) := by
      intro k
      rw [lockOps, List.map_append]
      exact holds_skip (fun op hop => withBoth_forks phl k op (hw.subset hop)) _
    have hheld := hskip a
    rw [← ha] at hheld
    have hheld' := hskip b
    rw [← hb] at hheld'
    rw [hheld, hheld']
    refine ⟨?_, if_pos rfl⟩
    have hba : ¬ phl.forkb = phl.forka := by
      rw [ha, hb]
      exact fun h => hab (Mtx.fork.inj h).symm
    have hafter : lockOps (afterB phl) =
        .other :: printing (.unlock phl.forka :: .other :: printing [.other]) := by
      simp only [lockOps, afterB, List.map_append, List.map_cons, List.map_nil, lockOp_hasA,
        lockOp_hasB, List.append_assoc, List.cons_append, List.nil_append]
      rfl
    rw [holds, if_neg hba, hafter, ha]
    simp [holds, holds_print]
  · -- the unlock is not after itself
    have hmem := hafter.subset hin
    rw [hb] at hmem
    have hsame := afterB_unlock hmem
    rw [ha] at hsame
    exact absurd (Mtx.fork.inj hsame) hab

/-- Neighbours at the table. -/
def Neighbours (j k : Fin n) : Prop := (j.val + 1) % n = k.val ∨ (k.val + 1) % n = j.val

section Results

variable {phl_loops : BitVec 32} {s : Dining n}

/-- Between the lock of the second fork and the unlock, a philosopher holds the
forks on both sides. -/
theorem Dining.Inv.holds_forks (h : s.Inv true phl_loops) (hn : 2 ≤ n) {k : Fin n}
    (hk : s.HasBoth k) :
    holds ((s.locks true phl_loops).rest k) (philosopher true k).forkRight = true ∧
      holds ((s.locks true phl_loops).rest k) (philosopher true k).forkLeft = true := by
  obtain ⟨t, ht, hin, hout⟩ := hk
  obtain ⟨a, b, ha, hb, hab⟩ := forks_ordered hn k
  obtain ⟨-, hforkb⟩ := round_of_setup (h.setup k)
  rw [hforkb] at hin hout
  obtain ⟨hA, hB⟩ := holds_both ha hb (Fin.ne_of_lt hab) (h.rest k t ht) hin hout
  have hrest : ∀ m, holds ((s.locks true phl_loops).rest k) m = holds (lockOps t.ops) m := by
    intro m
    show holds (ahead true phl_loops k (s.thread k)) m = _
    rw [ht]
    exact holds_append (closed_repeat (round_closed _ ha hb) _) m
  rw [hrest, hrest]
  obtain ⟨hfa, hfb⟩ | ⟨hfa, hfb⟩ := forks_eq true k
  · rw [← hfa, ← hfb]
    exact ⟨hA, hB⟩
  · rw [← hfa, ← hfb]
    exact ⟨hB, hA⟩

/-- Two philosophers that sit at the same fork do not both have both forks. -/
theorem Dining.Inv.not_both (h : s.Inv true phl_loops) (hn : 2 ≤ n) {j k : Fin n}
    (hjk : (j.val + 1) % n = k.val) (hj : s.HasBoth j) (hk : s.HasBoth k) : False := by
  have hleft := (h.holds_forks hn hj).2
  have hright := (h.holds_forks hn hk).1
  have hfork : (philosopher true j).forkLeft = (philosopher true k).forkRight := by
    simp [philosopher, hjk]
  rw [hfork] at hleft
  have hsame : j = k := (h.locks.owned _).unique j k hleft hright
  -- a philosopher is not its own neighbour
  subst hsame
  have hlt := j.isLt
  by_cases hlast : j.val + 1 = n
  · rw [hlast, Nat.mod_self] at hjk
    omega
  · rw [Nat.mod_eq_of_lt (by omega)] at hjk
    omega

/-- Philosopher `k` has been launched and has rounds to go. -/
def Dining.Unfinished (phl_loops : BitVec 32) (s : Dining n) (k : Fin n) : Prop :=
  ∃ t, s.thread k = some t ∧ (t.ops ≠ [] ∨ t.i < phl_loops)

/-- The next step of philosopher `k` is to take a mutex that is taken. -/
def Dining.Blocked (s : Dining n) (k : Fin n) : Prop :=
  ∃ t m ops, s.thread k = some t ∧ t.ops = .lock m :: ops ∧ s.flag m = true

/-- There are philosophers with rounds to go, and all of them are blocked. -/
def Dining.Deadlock (phl_loops : BitVec 32) (s : Dining n) : Prop :=
  (∃ k, s.Unfinished phl_loops k) ∧ ∀ k, s.Unfinished phl_loops k → s.Blocked k

theorem Dining.Inv.not_deadlock (h : s.Inv true phl_loops) (hn : 2 ≤ n) :
    ¬ s.Deadlock phl_loops := by
  rintro ⟨⟨k, hk⟩, hall⟩
  -- who holds a mutex has been launched
  have hlaunched : ∀ j m, holds ((s.locks true phl_loops).rest j) m = true →
      (s.thread j).isSome = true := by
    intro j m hheld
    by_contra hnone
    obtain ⟨a, b, ha, hb, -⟩ := forks_ordered hn j
    have hclosed := closed_repeat (round_closed _ ha hb) phl_loops.toNat m
    have hrest : (s.locks true phl_loops).rest j =
        (List.replicate phl_loops.toNat (lockOps (phlRound (philosopher true j)))).flatten := by
      show ahead true phl_loops j (s.thread j) = _
      rw [Option.not_isSome_iff_eq_none.mp hnone]
      rfl
    rw [hrest, hclosed] at hheld
    cases hheld
  obtain ⟨t, m, ops, ht, hops, -⟩ := hall k hk
  have hrest : (s.locks true phl_loops).rest k ≠ [] := by
    show ahead true phl_loops k (s.thread k) ≠ []
    rw [ht, ahead, Option.map_some, Option.getD_some, hops]
    simp [lockOps]
  obtain ⟨j, hj, hne, hwaits⟩ := h.locks.progress Mtx.rank_le (fun j => (s.thread j).isSome = true)
    hlaunched (by rw [ht]; rfl) hrest
  -- the one that does not wait is not blocked, but it has rounds to go
  obtain ⟨t', ht'⟩ := Option.isSome_iff_exists.mp hj
  have hunfinished : s.Unfinished phl_loops j := by
    refine ⟨t', ht', ?_⟩
    by_contra hdone
    push Not at hdone
    obtain ⟨hops', hi⟩ := hdone
    apply hne
    show ahead true phl_loops j (s.thread j) = []
    have hzero : phl_loops.toNat - t'.i.toNat = 0 := by bv_omega
    simp [ht', ahead, hops', hzero, lockOps]
  obtain ⟨t'', m', ops', ht'', hops', hflag⟩ := hall j hunfinished
  apply hwaits
  refine ⟨m', ahead true phl_loops j (some ⟨t''.i, ops'⟩), ?_, hflag⟩
  show ahead true phl_loops j (s.thread j) = _
  rw [ht'', show t'' = ⟨t''.i, .lock m' :: ops'⟩ by rw [← hops']]
  rfl

end Results

end Philosophers

open Philosophers in
/-- **One left-handed philosopher prevents deadlock.** For every number of
philosophers from two on, every number of rounds and every order of steps, there
is no deadlock, and neighbours do not have both their forks at the same time. -/
theorem dining_left_handed (n : Nat) (hn : 2 ≤ n) (phl_loops : BitVec 32) (acts : List (Act n))
    (s : Dining n) (hrun : (Dining.initial n true).run phl_loops acts = some s) :
    ¬ s.Deadlock phl_loops ∧ ∀ j k, Neighbours j k → ¬ (s.HasBoth j ∧ s.HasBoth k) := by
  have hinv : s.Inv true phl_loops := (Dining.Inv.initial hn phl_loops).run hrun
  refine ⟨hinv.not_deadlock hn, fun j k hjk hboth => ?_⟩
  obtain hjk | hkj := hjk
  · exact hinv.not_both hn hjk hboth.1 hboth.2
  · exact hinv.not_both hn hkj hboth.2 hboth.1

/-- Philosopher 0 of three has its first fork, and the left-handed one tries to
take the same one. -/
def Philosophers.waitingActs : List (Philosophers.Act 3) :=
  List.replicate 3 (.main true) ++ List.replicate 32 (.thread 0) ++ List.replicate 32 (.thread 2)

theorem dining_left_handed_three :
    ∃ s, (Philosophers.Dining.initial 3 true).run 1#32 Philosophers.waitingActs = some s ∧
      s.Blocked 2 ∧ ¬ s.Deadlock 1#32 ∧
      ∀ j k, Philosophers.Neighbours j k → ¬ (s.HasBoth j ∧ s.HasBoth k) := by
  have hrun : ((Philosophers.Dining.initial 3 true).run 1#32 Philosophers.waitingActs).map
      (fun s => (s.flag (.fork 0), (s.thread 2).bind (·.ops.head?))) =
        some (true, some (.lock (.fork 0))) := by decide +kernel
  obtain ⟨s, hs, hstate⟩ := Option.map_eq_some_iff.mp hrun
  obtain ⟨hflag, hhead⟩ := Prod.mk.inj hstate
  obtain ⟨t, ht, hops⟩ := Option.bind_eq_some_iff.mp hhead
  obtain ⟨ops, hops⟩ := List.head?_eq_some_iff.mp hops
  exact ⟨s, hs, ⟨t, .fork 0, ops, ht, hops, hflag⟩,
    dining_left_handed 3 (by decide) 1#32 Philosophers.waitingActs s hs⟩

end Munix
