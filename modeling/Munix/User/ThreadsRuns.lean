import Munix.Kernel.JoinRuns
import Munix.User.Threads

/-!
# Munix — rounds of thrd_create and thrd_join

`UserRun` are the runs of a process whose threads use the thread functions of the C
library, with any interleaving. `thrd_join` takes a negative exit status of the
thread it waited for as an error and does not release the thread's slot. If no thread
made by `thrd_create` exits with a negative status and the counter of tids does not
overflow (`UserSafe`), every `thrd_create` of at most `THRD_MAX` threads at a time and every
`thrd_join` succeeds, and the slot is free again (`userRun_succeeds`).

Library slots and kernel threads belong to each other (`UserState.Belongs`): a slot
in use has at most one thread in the library that holds it (`SlotsInv`), and every
kernel thread but the first belongs to one slot (`TableInv`).
-/

namespace Munix

-- ---------------------------------------------------------------------------
-- Runs
-- ---------------------------------------------------------------------------

/-- Runs of a process that uses the thread library, whose system calls all satisfy
`safe`. Every handle is joined once, and there are at most `THRD_MAX` threads at a
time. -/
inductive UserRun (L : Layout) (p : Fin PROCESS_MAX) (im : UserImage)
    (safe : Sched → ThreadCall → Prop) : Ctl → Sched → UserState → Prop where
  | start (stray startAddr ustack : BitVec 32) (shell : Nat) :
      UserRun L p im safe (startThread L (.boot stray) p startAddr ustack (.start shell p)).1
        (startThread L (.boot stray) p startAddr ustack (.start shell p)).2 .initial
  | preempt {res s u} : UserRun L p im safe (.user res) s u →
      UserRun L p im safe (ThreadCall.preempt.run L s).1 (ThreadCall.preempt.run L s).2 u
  | yield {res s u c} : UserRun L p im safe (.user res) s u → s.currentThread = some c →
      u.pc c = .code → UserRun L p im safe (ThreadCall.yield.run L s).1 (ThreadCall.yield.run L s).2 u
  | exit {res s u c} (status : BitVec 32) : UserRun L p im safe (.user res) s u →
      s.currentThread = some c → u.pc c = .code → safe s (.exit status) →
      UserRun L p im safe ((ThreadCall.exit status).run L s).1 ((ThreadCall.exit status).run L s).2 u
  | thrdCreate {res s u c} : UserRun L p im safe (.user res) s u → s.currentThread = some c →
      u.pc c = .code → u.simultaneous < THRD_MAX →
      UserRun L p im safe (.user res) s (u.setPc c (.alloc 0))
  | alloc {res s u c i} : UserRun L p im safe (.user res) s u → s.currentThread = some c →
      u.pc c = .alloc i → UserRun L p im safe (.user res) s (thrdAlloc im u c i)
  | create {res s u c i} : UserRun L p im safe (.user res) s u → s.currentThread = some c →
      u.pc c = .create i → safe s (.create im.threadStart (im.childStack i)) →
      UserRun L p im safe ((ThreadCall.create im.threadStart (im.childStack i)).run L s).1
        ((ThreadCall.create im.threadStart (im.childStack i)).run L s).2
        (u.setPc c (.created i
          ((ThreadCall.create im.threadStart (im.childStack i)).run L s).1.result))
  | created {res s u c i r} : UserRun L p im safe (.user res) s u → s.currentThread = some c →
      u.pc c = .created i r → UserRun L p im safe (.user res) s (thrdCreated u c i r)
  | thrdJoin {res s u c i} : UserRun L p im safe (.user res) s u → s.currentThread = some c →
      u.pc c = .code → u.handles i = true → UserRun L p im safe (.user res) s (thrdJoin u c i)
  | join {res s u c i k} : UserRun L p im safe (.user res) s u → s.currentThread = some c →
      u.pc c = .join i k → UserRun L p im safe ((ThreadCall.join k).run L s).1
        ((ThreadCall.join k).run L s).2 (u.setPc c (joinPc s i k))
  | joinLoop {temp s u c i k} : UserRun L p im safe (.join temp) s u → s.currentThread = some c →
      u.pc c = .joining i k → UserRun L p im safe (threadJoinLoop s temp).1 (threadJoinLoop s temp).2
        (u.setPc c (joinLoopPc s temp i k))
  | joined {res s u c i r} : UserRun L p im safe (.user res) s u → s.currentThread = some c →
      u.pc c = .joined i r → UserRun L p im safe (.user res) s (thrdJoined u c i r)

/-- No thread that `thrd_create` has made exits with a negative status, and the counter
of tids does not overflow. The first thread, with tid 1, is never joined. -/
def UserSafe (s : Sched) : ThreadCall → Prop
  | .exit status => ∀ c, s.currentThread = some c → (s.tcb c).tid ≠ 1#32 → 0 ≤ status.toInt
  | .create _ _ => s.nextTid.toNat + 1 < 2 ^ 31
  | _ => True

-- ---------------------------------------------------------------------------
-- Slots
-- ---------------------------------------------------------------------------

/-- The slot that a thread in the library holds. -/
def UserPc.slot : UserPc → Option (Fin THRD_MAX)
  | .create i => some i
  | .created i _ => some i
  | .join i _ => some i
  | .joining i _ => some i
  | .joined i _ => some i
  | _ => none

/-- The kernel thread that belongs to that slot. -/
def UserPc.thread : UserPc → Option (BitVec 32)
  | .created _ res => some (BitVec.ofInt 32 res)
  | .join _ k => some k
  | .joining _ k => some k
  | _ => none

/-- The slots in use are those that the program has a handle of and those that a
thread in the library holds. -/
structure SlotsInv (u : UserState) : Prop where
  scan   : SlotScan.Fits u.inuse fun w => (u.pc w).scan
  inuse  : ∀ i, u.inuse i = true ↔ u.handles i = true ∨ ∃ w, (u.pc w).slot = some i
  owner  : ∀ w w' i, (u.pc w).slot = some i → (u.pc w').slot = some i → w = w'
  handle : ∀ w i, (u.pc w).slot = some i → u.handles i = false

/-- The kernel thread with tid `k` belongs to slot `i`. -/
def UserState.Belongs (u : UserState) (i : Fin THRD_MAX) (k : BitVec 32) : Prop :=
  (u.handles i = true ∧ (u.uthrds i).ktid = k) ∨
    ∃ w, (u.pc w).slot = some i ∧ (u.pc w).thread = some k

/-- Kernel threads, all but the first, and the slots they belong to. -/
structure TableInv (s : Sched) (u : UserState) : Prop where
  live  : ∀ i k, u.Belongs i k → ∃ t, s.Live t ∧ (s.tcb t).tid = k
  inj   : ∀ i j k, u.Belongs i k → u.Belongs j k → i = j
  cover : ∀ t, s.Live t → (s.tcb t).tid = 1#32 ∨ ∃ i, u.Belongs i (s.tcb t).tid
  later : ∀ i k, u.Belongs i k → k ≠ 1#32

/-- Where the threads in the library are in the kernel. -/
structure PlaceInv (ctl : Ctl) (s : Sched) (u : UserState) : Prop where
  active  : ∀ w, u.pc w ≠ .code → s.Live w ∧ (s.tcb w).runstate = .ready
  waits   : ∀ w temp, s.InJoin ctl w temp → ∃ i, u.pc w = .joining i (s.tcb temp).tid ∧ s.Live temp
  joining : ∀ w i k, u.pc w = .joining i k → ∃ temp, s.InJoin ctl w temp
  created : ∀ w i r, u.pc w = .created i r → 0 < r
  joined  : ∀ w i r, u.pc w = .joined i r → 0 ≤ r

/-- What the calls of the library returned so far. -/
structure UserState.Succeeded (u : UserState) : Prop where
  creates : ∀ r ∈ u.creates, r = 0
  joins   : ∀ r ∈ u.joins, r = (0, false)

variable {L : Layout} {p : Fin PROCESS_MAX} {im : UserImage} {n : Nat} {T : Finset (BitVec 32)}
  {ctl : Ctl} {s : Sched} {q ts : List (Fin THREAD_MAX)} {c : Fin THREAD_MAX} {g : JoinLog}
  {u : UserState}

/-- The invariant of a run. -/
structure UserInv (L : Layout) (p : Fin PROCESS_MAX) (n : Nat) (T : Finset (BitVec 32)) (ctl : Ctl)
    (s : Sched) (q ts : List (Fin THREAD_MAX)) (c : Fin THREAD_MAX) (g : JoinLog) (u : UserState) :
    Prop where
  kernel    : JoinInv L p n T ctl s q ts c g
  bound     : 1 ≤ n ∧ n < 2 ^ 31
  nonneg    : ∀ e ∈ g.exits, e.1 ≠ 1#32 → 0 ≤ e.2.toInt
  slots     : SlotsInv u
  table     : TableInv s u
  place     : PlaceInv ctl s u
  succeeded : u.Succeeded

-- ---------------------------------------------------------------------------
-- What the steps of the library do to the slots
-- ---------------------------------------------------------------------------

/-- The positions of the scans after a thread has moved. -/
theorem scan_update (pc : Fin THREAD_MAX → UserPc) (c : Fin THREAD_MAX) (v : UserPc) :
    (fun w => (Function.update pc c v w).scan) = Function.update (fun w => (pc w).scan) c v.scan := by
  funext w
  by_cases hw : w = c
  · subst hw
    simp
  · simp [hw]

/-- A thread has moved to `v`, and what has changed is about slot `i`, which no other
thread holds. -/
structure Moved (u u' : UserState) (c : Fin THREAD_MAX) (v : UserPc) (i : Fin THRD_MAX) : Prop where
  pc     : u'.pc = Function.update u.pc c v
  others : ∀ j, j ≠ i → u'.inuse j = u.inuse j ∧ u'.handles j = u.handles j ∧
             (u'.uthrds j).ktid = (u.uthrds j).ktid
  before : ∀ j, (u.pc c).slot = some j → j = i
  after  : ∀ j, v.slot = some j → j = i
  alone  : ∀ w, w ≠ c → (u.pc w).slot ≠ some i

namespace Moved

variable {u' : UserState} {v : UserPc} {i : Fin THRD_MAX}

/-- Who holds a slot after the step. -/
theorem slot_iff (h : Moved u u' c v i) {w : Fin THREAD_MAX} {j : Fin THRD_MAX} :
    (u'.pc w).slot = some j ↔
      (w = c ∧ j = i ∧ v.slot = some i) ∨ (w ≠ c ∧ j ≠ i ∧ (u.pc w).slot = some j) := by
  rw [h.pc]
  by_cases hw : w = c
  · subst hw
    simp only [Function.update_self, true_and, ne_eq, not_true_eq_false, false_and, or_false]
    constructor
    · intro hj
      obtain rfl := h.after j hj
      exact ⟨rfl, hj⟩
    · rintro ⟨rfl, hj⟩
      exact hj
  · simp only [Function.update_of_ne hw, hw, false_and, ne_eq, not_false_eq_true, true_and, false_or]
    constructor
    · intro hj
      exact ⟨fun heq => h.alone w hw (heq ▸ hj), hj⟩
    · exact And.right

theorem slots (h : Moved u u' c v i) (hslots : SlotsInv u)
    (hinuse : u'.inuse i = true ↔ u'.handles i = true ∨ v.slot = some i)
    (hhandle : v.slot = some i → u'.handles i = false)
    (hscan : SlotScan.Fits u'.inuse (Function.update (fun w => (u.pc w).scan) c v.scan)) :
    SlotsInv u' := by
  refine ⟨?_, fun j => ?_, fun w w' j hw hw' => ?_, fun w j hw => ?_⟩
  · rw [h.pc, scan_update]
    exact hscan
  · by_cases hj : j = i
    · subst hj
      simp only [h.slot_iff, hinuse, ne_eq, not_true_eq_false, false_and, and_false, or_false, true_and,
        exists_eq_left]
    · obtain ⟨hu, hh, -⟩ := h.others j hj
      rw [hu, hh, hslots.inuse j]
      refine or_congr_right (exists_congr fun w => ?_)
      rw [h.slot_iff]
      constructor
      · intro hw
        have hwc : w ≠ c := by
          rintro rfl
          exact hj (h.before j hw)
        exact .inr ⟨hwc, hj, hw⟩
      · rintro (⟨-, hji, -⟩ | ⟨-, -, hw⟩)
        · exact absurd hji hj
        · exact hw
  · rcases h.slot_iff.mp hw with ⟨rfl, rfl, -⟩ | ⟨-, hj, hw⟩
    · rcases h.slot_iff.mp hw' with ⟨rfl, -, -⟩ | ⟨-, hj, -⟩
      · rfl
      · exact absurd rfl hj
    · rcases h.slot_iff.mp hw' with ⟨-, hji, -⟩ | ⟨-, -, hw'⟩
      · exact absurd hji hj
      · exact hslots.owner w w' j hw hw'
  · rcases h.slot_iff.mp hw with ⟨-, rfl, hv⟩ | ⟨-, hj, hw⟩
    · exact hhandle hv
    · rw [(h.others j hj).2.1]
      exact hslots.handle w j hw

/-- Which thread belongs to a slot after the step. -/
theorem belongs_iff (h : Moved u u' c v i) {j : Fin THRD_MAX} {k : BitVec 32} :
    u'.Belongs j k ↔ (j ≠ i ∧ u.Belongs j k) ∨
      (j = i ∧ ((u'.handles i = true ∧ (u'.uthrds i).ktid = k) ∨
        (v.slot = some i ∧ v.thread = some k))) := by
  have hc : u'.pc c = v := by rw [h.pc, Function.update_self]
  by_cases hj : j = i
  · subst hj
    simp only [UserState.Belongs, ne_eq, not_true_eq_false, false_and, true_and, false_or]
    refine or_congr_right ⟨?_, fun hv => ⟨c, by rw [hc]; exact hv⟩⟩
    rintro ⟨w, hw, hk⟩
    rcases h.slot_iff.mp hw with ⟨rfl, -, hv⟩ | ⟨-, hne, -⟩
    · rw [hc] at hk
      exact ⟨hv, hk⟩
    · exact absurd rfl hne
  · obtain ⟨-, hh, hktid⟩ := h.others j hj
    simp only [UserState.Belongs, hj, ne_eq, not_false_eq_true, true_and, false_and, or_false, hh, hktid]
    refine or_congr_right (exists_congr fun w => ?_)
    by_cases hw : w = c
    · subst hw
      refine iff_of_false (fun hw => ?_) fun hw => hj (h.before j hw.1)
      exact hj (h.after j (hc ▸ hw.1))
    · rw [h.pc, Function.update_of_ne hw]

/-- Which thread belonged to the slot before the step. -/
theorem belongs_before (h : Moved u u' c v i) {k : BitVec 32} :
    u.Belongs i k ↔ (u.handles i = true ∧ (u.uthrds i).ktid = k) ∨
      ((u.pc c).slot = some i ∧ (u.pc c).thread = some k) := by
  refine or_congr_right ⟨?_, fun hc => ⟨c, hc⟩⟩
  rintro ⟨w, hw, hk⟩
  have hwc : w = c := by
    by_contra hne
    exact h.alone w hne hw
  exact ⟨hwc ▸ hw, hwc ▸ hk⟩

/-- The step leaves alone which threads belong to which slots. -/
theorem table (h : Moved u u' c v i) (htable : TableInv s u)
    (hsame : ∀ k, ((u'.handles i = true ∧ (u'.uthrds i).ktid = k) ∨
      (v.slot = some i ∧ v.thread = some k)) ↔ (u.handles i = true ∧ (u.uthrds i).ktid = k) ∨
      ((u.pc c).slot = some i ∧ (u.pc c).thread = some k)) : TableInv s u' := by
  have hbelongs : ∀ j k, u'.Belongs j k ↔ u.Belongs j k := by
    intro j k
    rw [h.belongs_iff]
    by_cases hj : j = i
    · subst hj
      rw [hsame k, ← h.belongs_before]
      simp
    · simp [hj]
  exact ⟨by simpa only [hbelongs] using htable.live, by simpa only [hbelongs] using htable.inj,
    by simpa only [hbelongs] using htable.cover, by simpa only [hbelongs] using htable.later⟩

end Moved

-- ---------------------------------------------------------------------------
-- Where the threads are
-- ---------------------------------------------------------------------------

namespace PlaceInv

variable {v : UserPc} {res : Int}

/-- A thread in its user code is not in the loop of `thread_join`. -/
theorem not_joining (h : PlaceInv (.user res) s u) (hc : s.currentThread = some c) {i : Fin THRD_MAX}
    {k : BitVec 32} : u.pc c ≠ .joining i k := by
  intro hpc
  obtain ⟨temp, hw | ⟨-, hctl⟩⟩ := h.joining c i k hpc
  · exact hw.2.1 hc
  · cases hctl

/-- The current thread moves on in the library. -/
theorem move {u' : UserState} (h : PlaceInv (.user res) s u) (hrun : Running p s c)
    (hpc : u'.pc = Function.update u.pc c v) (hjoining : ∀ i k, v ≠ .joining i k)
    (hcreated : ∀ i r, v = .created i r → 0 < r) (hjoined : ∀ i r, v = .joined i r → 0 ≤ r) :
    PlaceInv (.user res) s u' := by
  have hother : ∀ w, w ≠ c → u'.pc w = u.pc w := fun w hw => by rw [hpc, Function.update_of_ne hw]
  have hself : u'.pc c = v := by rw [hpc, Function.update_self]
  refine ⟨fun w hw => ?_, fun w temp hw => ?_, fun w i k hw => ?_, fun w i r hw => ?_,
    fun w i r hw => ?_⟩
  · by_cases hwc : w = c
    · subst hwc
      exact ⟨hrun.live, hrun.state⟩
    · rw [hother w hwc] at hw
      exact h.active w hw
  · have hwc : w ≠ c := by
      rintro rfl
      rcases hw with hw | ⟨-, hctl⟩
      · exact hw.2.1 hrun.current
      · cases hctl
    rw [hother w hwc]
    exact h.waits w temp hw
  · by_cases hwc : w = c
    · subst hwc
      exact absurd (hself.symm.trans hw) (hjoining i k)
    · rw [hother w hwc] at hw
      exact h.joining w i k hw
  · by_cases hwc : w = c
    · subst hwc
      exact hcreated i r (hself.symm.trans hw)
    · rw [hother w hwc] at hw
      exact h.created w i r hw
  · by_cases hwc : w = c
    · subst hwc
      exact hjoined i r (hself.symm.trans hw)
    · rw [hother w hwc] at hw
      exact h.joined w i r hw

/-- The current thread calls `schedule` at `here` and is at `v` in the library. -/
theorem switch {u' : UserState} {q' : List (Fin THREAD_MAX)} {x : Fin THREAD_MAX} {f : Thread → Thread}
    (h : PlaceInv ctl s u) (hrun : RunInv L p n T ctl s q ts c) (here : Ctl)
    (hf : ∀ th, (f th).tid = th.tid ∧ (f th).process = th.process ∧
      (f th).threadStack = th.threadStack)
    (hq : q ++ (s.setCurrent f).requeued = x :: q')
    (htid : ∀ t, ((schedule (s.setCurrent f) here).2.tcb t).tid = (s.tcb t).tid)
    (hpc : u'.pc = Function.update u.pc c v) (hactive : v ≠ .code → ∀ th, (f th).runstate = .ready)
    (hhere : ∀ temp, here = .join temp → ∃ i, v = .joining i (s.tcb temp).tid ∧ s.Live temp)
    (hjoining : ∀ i k, v = .joining i k → ∃ temp, here = .join temp)
    (hcreated : ∀ i r, v = .created i r → 0 < r) (hjoined : ∀ i r, v = .joined i r → 0 ≤ r) :
    PlaceInv (schedule (s.setCurrent f) here).1 (schedule (s.setCurrent f) here).2 u' := by
  obtain ⟨-, -, htcb, hself⟩ := hrun.switch_tcb here hf hq
  have hother : ∀ w, w ≠ c → u'.pc w = u.pc w := fun w hw => by rw [hpc, Function.update_of_ne hw]
  have hat : u'.pc c = v := by rw [hpc, Function.update_self]
  have hlive : ∀ t, (schedule (s.setCurrent f) here).2.Live t ↔ s.Live t := by
    intro t
    rw [Sched.Live, htid, Sched.Live]
  refine ⟨fun w hw => ?_, fun w temp hw => ?_, fun w i k hw => ?_, fun w i r hw => ?_,
    fun w i r hw => ?_⟩
  · rw [hlive]
    by_cases hwc : w = c
    · subst hwc
      rw [hat] at hw
      refine ⟨hrun.running.live, ?_⟩
      rw [hself]
      simp [hactive hw]
    · rw [hother w hwc] at hw
      obtain ⟨hl, hr⟩ := h.active w hw
      refine ⟨hl, ?_⟩
      rw [htcb w hwc]
      simp [hr]
  · rw [hlive, htid]
    rcases hrun.inJoin_switch here hf hq hw with ⟨rfl, hjoin⟩ | hwait
    · rw [hat]
      exact hhere temp hjoin
    · have hwc : w ≠ c := by
        rintro rfl
        exact hwait.2.1 hrun.running.current
      rw [hother w hwc]
      exact h.waits w temp (.inl hwait)
  · by_cases hwc : w = c
    · subst hwc
      rw [hat] at hw
      obtain ⟨temp, hjoin⟩ := hjoining i k hw
      have hready := hactive (by rw [hw]; simp)
      exact ⟨temp, hrun.inJoin_kept here hf hq (.inl ⟨rfl, hjoin, hready⟩)⟩
    · rw [hother w hwc] at hw
      obtain ⟨temp, hwait | ⟨hcur, -⟩⟩ := h.joining w i k hw
      · exact ⟨temp, hrun.inJoin_kept here hf hq (.inr hwait)⟩
      · exact absurd (Option.some.inj (hcur.symm.trans hrun.running.current)) hwc
  · by_cases hwc : w = c
    · subst hwc
      exact hcreated i r (hat.symm.trans hw)
    · rw [hother w hwc] at hw
      exact h.created w i r hw
  · by_cases hwc : w = c
    · subst hwc
      exact hjoined i r (hat.symm.trans hw)
    · rw [hother w hwc] at hw
      exact h.joined w i r hw

/-- A system call changes the slot `t` of a thread that is not in the library and that
nobody waits for, and comes back to the current thread. -/
theorem slot_changed {u' : UserState} {s' : Sched} {t : Fin THREAD_MAX} (h : PlaceInv ctl s u)
    (hrun : Running p s c) (hcur : s'.currentThread = s.currentThread)
    (htcb : ∀ w, w ≠ t → s'.tcb w = s.tcb w) (hnew : (s'.tcb t).runstate = .new) (htc : t ≠ c)
    (hcode : u.pc t = .code) (hwait : ∀ w temp, s.Waiting w temp → temp ≠ t)
    (hpc : u'.pc = Function.update u.pc c v) (hjoining : ∀ i k, v ≠ .joining i k)
    (hcreated : ∀ i r, v = .created i r → 0 < r) (hjoined : ∀ i r, v = .joined i r → 0 ≤ r) :
    PlaceInv (.user res) s' u' := by
  have hother : ∀ w, w ≠ c → u'.pc w = u.pc w := fun w hw => by rw [hpc, Function.update_of_ne hw]
  have hat : u'.pc c = v := by rw [hpc, Function.update_self]
  -- who waits after the call waited before it
  have hwaiting : ∀ w temp, s'.Waiting w temp ↔ s.Waiting w temp := by
    intro w temp
    by_cases hwt : w = t
    · subst hwt
      refine iff_of_false (fun hw => ?_) fun hw => ?_
      · exact absurd (hnew.symm.trans hw.2.2.1) (by simp)
      · obtain ⟨i, hj, -⟩ := h.waits w temp (.inl hw)
        exact absurd (hcode.symm.trans hj) (by simp)
    · rw [Sched.Waiting, Sched.Waiting, Sched.Live, Sched.Live, htcb w hwt, hcur]
  refine ⟨fun w hw => ?_, fun w temp hw => ?_, fun w i k hw => ?_, fun w i r hw => ?_,
    fun w i r hw => ?_⟩
  · by_cases hwc : w = c
    · subst hwc
      rw [Sched.Live, htcb w (Ne.symm htc)]
      exact ⟨hrun.live, hrun.state⟩
    · rw [hother w hwc] at hw
      have hwt : w ≠ t := by
        rintro rfl
        exact hw hcode
      rw [Sched.Live, htcb w hwt]
      exact h.active w hw
  · rcases hw with hw | ⟨-, hctl⟩
    · have hw := (hwaiting w temp).mp hw
      have hwc : w ≠ c := by
        rintro rfl
        exact hw.2.1 hrun.current
      rw [hother w hwc, Sched.Live, htcb temp (hwait w temp hw)]
      exact h.waits w temp (.inl hw)
    · cases hctl
  · by_cases hwc : w = c
    · subst hwc
      exact absurd (hat.symm.trans hw) (hjoining i k)
    · rw [hother w hwc] at hw
      obtain ⟨temp, hw | ⟨hin, -⟩⟩ := h.joining w i k hw
      · exact ⟨temp, .inl ((hwaiting w temp).mpr hw)⟩
      · exact absurd (Option.some.inj (hin.symm.trans hrun.current)) hwc
  · by_cases hwc : w = c
    · subst hwc
      exact hcreated i r (hat.symm.trans hw)
    · rw [hother w hwc] at hw
      exact h.created w i r hw
  · by_cases hwc : w = c
    · subst hwc
      exact hjoined i r (hat.symm.trans hw)
    · rw [hother w hwc] at hw
      exact h.joined w i r hw

end PlaceInv

-- ---------------------------------------------------------------------------
-- Slots and kernel threads
-- ---------------------------------------------------------------------------

/-- At most one thread belongs to a slot. -/
theorem SlotsInv.belongs_unique (h : SlotsInv u) {i : Fin THRD_MAX} {k k' : BitVec 32}
    (hk : u.Belongs i k) (hk' : u.Belongs i k') : k = k' := by
  rcases hk with ⟨hh, hk⟩ | ⟨w, hw, hk⟩
  · rcases hk' with ⟨-, hk'⟩ | ⟨w', hw', -⟩
    · exact hk.symm.trans hk'
    · exact absurd hh (by simp [h.handle w' i hw'])
  · rcases hk' with ⟨hh, -⟩ | ⟨w', hw', hk'⟩
    · exact absurd hh (by simp [h.handle w i hw])
    · obtain rfl := h.owner w w' i hw hw'
      exact Option.some.inj (hk.symm.trans hk')

/-- The thread that holds a slot moves on, and nothing else changes. -/
theorem SlotsInv.moved (h : SlotsInv u) {i : Fin THRD_MAX} {v : UserPc} (hc : (u.pc c).slot = some i)
    (hv : ∀ j, v.slot = some j → j = i) : Moved u (u.setPc c v) c v i where
  pc := rfl
  others _ _ := ⟨rfl, rfl, rfl⟩
  before _ hj := Option.some.inj (hj.symm.trans hc)
  after := hv
  alone w hw hslot := hw (h.owner w c i hslot hc)

/-- The scans are the same when a thread is as far in its own as before. -/
theorem update_scan_self {v : UserPc} (hscan : v.scan = (u.pc c).scan) :
    Function.update (fun w => (u.pc w).scan) c v.scan = fun w => (u.pc w).scan := by
  rw [hscan]
  exact Function.update_eq_self c _

/-- The thread that holds a slot moves on and keeps it. -/
theorem SlotsInv.keep (h : SlotsInv u) {i : Fin THRD_MAX} {v : UserPc} (hc : (u.pc c).slot = some i)
    (hv : v.slot = some i) (hscan : v.scan = (u.pc c).scan) : SlotsInv (u.setPc c v) := by
  refine (h.moved hc fun j hj => Option.some.inj (hj.symm.trans hv)).slots h ?_ ?_ ?_
  · refine iff_of_true ((h.inuse i).mpr (.inr ⟨c, hc⟩)) (.inr hv)
  · exact fun _ => h.handle c i hc
  · rw [update_scan_self hscan]
    exact h.scan

namespace TableInv

/-- The kernel threads are the same. -/
theorem congr {s' : Sched} (h : TableInv s u) (htid : ∀ t, (s'.tcb t).tid = (s.tcb t).tid) :
    TableInv s' u := by
  refine ⟨fun i k hk => ?_, h.inj, fun t ht => ?_, h.later⟩
  · obtain ⟨t, ht, hk⟩ := h.live i k hk
    exact ⟨t, by rwa [Sched.Live, htid], by rw [htid, hk]⟩
  · rw [Sched.Live, htid] at ht
    rw [htid]
    exact h.cover t ht

/-- **The kernel does not run out of slots**: it has more than the library and the
first thread need. -/
theorem threadAlloc_isSome (h : TableInv s u) (hslots : SlotsInv u)
    (hinj : ∀ t t', s.Live t → (s.tcb t).tid = (s.tcb t').tid → t = t') :
    ∃ t, threadAlloc s = some t := by
  rw [← Option.isSome_iff_exists, ← Option.ne_none_iff_isSome]
  intro hnone
  have hlive : ∀ t, s.Live t := by
    intro t
    have := List.find?_eq_none.mp hnone t (List.mem_finRange t)
    simpa [Sched.Live] using this
  -- every thread has a place of its own: the first one, or a slot
  have hplace : ∀ t, ∃ o : Option (Fin THRD_MAX),
      o.elim ((s.tcb t).tid = 1#32) fun i => u.Belongs i (s.tcb t).tid := by
    intro t
    rcases h.cover t (hlive t) with h1 | ⟨i, hi⟩
    · exact ⟨none, h1⟩
    · exact ⟨some i, hi⟩
  choose place hplace using hplace
  have hplace_inj : Function.Injective place := by
    intro t t' heq
    have ht := hplace t
    have ht' := hplace t'
    rw [← heq] at ht'
    refine hinj t t' (hlive t) ?_
    cases hp : place t with
    | none =>
      rw [hp] at ht ht'
      exact ht.trans ht'.symm
    | some i =>
      rw [hp] at ht ht'
      exact hslots.belongs_unique ht ht'
  have hcard := Fintype.card_le_of_injective place hplace_inj
  rw [Fintype.card_option, Fintype.card_fin, Fintype.card_fin] at hcard
  exact absurd hcard (by decide)

end TableInv

namespace Moved

variable {u' : UserState} {v : UserPc} {i : Fin THRD_MAX} {s' : Sched} {t : Fin THREAD_MAX}

/-- A kernel thread has been created in slot `t` of the kernel for slot `i`. -/
theorem table_create (h : Moved u u' c v i) (htable : TableInv s u) (hfree : ¬ s.Live t)
    (hlive : s'.Live t) (htcb : ∀ w, w ≠ t → s'.tcb w = s.tcb w)
    (hfresh : ∀ w, (s.tcb w).tid ≠ (s'.tcb t).tid) (hlater : (s'.tcb t).tid ≠ 1#32) (hnone : ∀ k, ¬ u.Belongs i k)
    (hnew : ∀ k, ((u'.handles i = true ∧ (u'.uthrds i).ktid = k) ∨
      (v.slot = some i ∧ v.thread = some k)) ↔ k = (s'.tcb t).tid) : TableInv s' u' := by
  have hbelongs : ∀ j k, u'.Belongs j k ↔ u.Belongs j k ∨ (j = i ∧ k = (s'.tcb t).tid) := by
    intro j k
    rw [h.belongs_iff, hnew]
    by_cases hj : j = i
    · subst hj
      simp [hnone]
    · simp [hj]
  have hold : ∀ j k, u.Belongs j k → k ≠ (s'.tcb t).tid := by
    rintro j k hk rfl
    obtain ⟨w, -, hw⟩ := htable.live j _ hk
    exact hfresh w hw
  refine ⟨fun j k hk => ?_, fun j j' k hk hk' => ?_, fun w hw => ?_, fun j k hk => ?_⟩
  · rcases (hbelongs j k).mp hk with hk | ⟨-, rfl⟩
    · obtain ⟨w, hw, hwk⟩ := htable.live j k hk
      have hwt : w ≠ t := by
        rintro rfl
        exact hfree hw
      exact ⟨w, by rwa [Sched.Live, htcb w hwt], by rw [htcb w hwt, hwk]⟩
    · exact ⟨t, hlive, rfl⟩
  · rcases (hbelongs j k).mp hk with hk | ⟨rfl, rfl⟩
    · rcases (hbelongs j' k).mp hk' with hk' | ⟨-, rfl⟩
      · exact htable.inj j j' k hk hk'
      · exact absurd rfl (hold j _ hk)
    · rcases (hbelongs j' _).mp hk' with hk' | ⟨rfl, -⟩
      · exact absurd rfl (hold j' _ hk')
      · rfl
  · by_cases hwt : w = t
    · subst hwt
      exact .inr ⟨i, (hbelongs i _).mpr (.inr ⟨rfl, rfl⟩)⟩
    · rw [Sched.Live, htcb w hwt] at hw
      rw [htcb w hwt]
      rcases htable.cover w hw with h1 | ⟨j, hj⟩
      · exact .inl h1
      · exact .inr ⟨j, (hbelongs j _).mpr (.inl hj)⟩
  · rcases (hbelongs j k).mp hk with hk | ⟨-, rfl⟩
    · exact htable.later j k hk
    · exact hlater

/-- The kernel thread in slot `t` of the kernel, which belonged to slot `i`, has been
closed. -/
theorem table_close (h : Moved u u' c v i) (htable : TableInv s u) (hslots : SlotsInv u)
    (hinj : ∀ w w', s.Live w → (s.tcb w).tid = (s.tcb w').tid → w = w')
    (hbelongs : u.Belongs i (s.tcb t).tid) (hdead : ¬ s'.Live t)
    (htcb : ∀ w, w ≠ t → s'.tcb w = s.tcb w)
    (hnone : ∀ k, ¬ ((u'.handles i = true ∧ (u'.uthrds i).ktid = k) ∨
      (v.slot = some i ∧ v.thread = some k))) : TableInv s' u' := by
  have hrest : ∀ j k, u'.Belongs j k ↔ j ≠ i ∧ u.Belongs j k := by
    intro j k
    rw [h.belongs_iff]
    simp [hnone]
  refine ⟨fun j k hk => ?_, fun j j' k hk hk' => ?_, fun w hw => ?_,
    fun j k hk => htable.later j k ((hrest j k).mp hk).2⟩
  · obtain ⟨hj, hk⟩ := (hrest j k).mp hk
    obtain ⟨w, hw, hwk⟩ := htable.live j k hk
    have hwt : w ≠ t := by
      rintro rfl
      rw [hwk] at hbelongs
      exact hj (htable.inj j i k hk hbelongs)
    exact ⟨w, by rwa [Sched.Live, htcb w hwt], by rw [htcb w hwt, hwk]⟩
  · exact htable.inj j j' k ((hrest j k).mp hk).2 ((hrest j' k).mp hk').2
  · have hwt : w ≠ t := by
      rintro rfl
      exact hdead hw
    rw [Sched.Live, htcb w hwt] at hw
    rw [htcb w hwt]
    rcases htable.cover w hw with h1 | ⟨j, hj⟩
    · exact .inl h1
    · refine .inr ⟨j, (hrest j _).mpr ⟨?_, hj⟩⟩
      rintro rfl
      exact hwt (hinj w t hw (hslots.belongs_unique hj hbelongs))

end Moved

-- ---------------------------------------------------------------------------
-- Steps of a run
-- ---------------------------------------------------------------------------

namespace UserInv

variable {res : Int} {i : Fin THRD_MAX} {k : BitVec 32}

/-- A step in the library, without a system call. -/
theorem library {u' : UserState} (h : UserInv L p n T (.user res) s q ts c g u) (hslots : SlotsInv u')
    (htable : TableInv s u') (hplace : PlaceInv (.user res) s u') (hsucc : u'.Succeeded) :
    UserInv L p n T (.user res) s q ts c g u' :=
  ⟨h.kernel, h.bound, h.nonneg, hslots, htable, hplace, hsucc⟩

/-- The current thread is interrupted or yields. -/
theorem requeue (h : UserInv L p n T (.user res) s q ts c g u) {f : Thread → Thread}
    (hf : ∀ th, (f th).tid = th.tid ∧ (f th).process = th.process ∧
      (f th).threadStack = th.threadStack)
    (hready : ∀ th, (f th).runstate = .ready) :
    ∃ q' c', UserInv L p n T (schedule (s.setCurrent f) (.user 0)).1
      (schedule (s.setCurrent f) (.user 0)).2 q' ts c' g u := by
  obtain ⟨q', c', hkernel⟩ := h.kernel.requeue (.user 0) hf hready trivial nofun
  obtain ⟨_, _, hq, htid, -⟩ := h.kernel.run.switch (.user 0) hf (by simp [hready])
    (fun _ _ => trivial) (.inr hready)
  have hplace := h.place.switch h.kernel.run (.user 0) hf hq htid
    (Function.update_eq_self c u.pc).symm (fun _ => hready) nofun
    (fun i k hv => absurd hv (h.place.not_joining h.kernel.run.running.current)) (h.place.created c)
    (h.place.joined c)
  exact ⟨q', c', hkernel, h.bound, h.nonneg, h.slots, h.table.congr htid, hplace, h.succeeded⟩

/-- The current thread exits and another one runs. -/
theorem exit (h : UserInv L p n T (.user res) s q ts c g u) {status : BitVec 32}
    (hpc : u.pc c = .code) (hstatus : (s.tcb c).tid ≠ 1#32 → 0 ≤ status.toInt) (hne : q ≠ []) :
    ∃ q' c' g', UserInv L p n T ((ThreadCall.exit status).run L s).1
      ((ThreadCall.exit status).run L s).2 q' ts c' g' u := by
  obtain ⟨q', c', hkernel⟩ := h.kernel.exit status hne
  obtain ⟨_, _, hq, htid, -⟩ := h.kernel.run.switch .noreturn
    (f := fun th => { th with exitStatus := status, runstate := .exited })
    (fun _ => ⟨rfl, rfl, rfl⟩) (by simp) (by simp) (.inl hne)
  have hplace := h.place.switch h.kernel.run .noreturn
    (f := fun th => { th with exitStatus := status, runstate := .exited })
    (fun _ => ⟨rfl, rfl, rfl⟩) hq htid
    (Function.update_eq_self c u.pc).symm (fun hv => absurd hpc hv) nofun
    (fun i k hv => absurd (hpc.symm.trans hv) (by simp)) (h.place.created c) (h.place.joined c)
  refine ⟨q', c', _, hkernel, h.bound, fun e he => ?_, h.slots, h.table.congr htid, hplace,
    h.succeeded⟩
  rcases List.mem_append.mp he with he | he
  · exact h.nonneg e he
  · obtain rfl := List.mem_singleton.mp he
    exact hstatus

/-- A thread that holds no slot moves on and takes none. -/
theorem slotless {v : UserPc} (h : UserInv L p n T (.user res) s q ts c g u)
    (hc : (u.pc c).slot = none) (hv : v.slot = none)
    (hscan : SlotScan.Fits u.inuse (Function.update (fun w => (u.pc w).scan) c v.scan)) :
    UserInv L p n T (.user res) s q ts c g (u.setPc c v) := by
  have hslot : ∀ w, ((u.setPc c v).pc w).slot = (u.pc w).slot := by
    intro w
    by_cases hw : w = c
    · subst hw
      simp [UserState.setPc, hc, hv]
    · simp [UserState.setPc, hw]
  have hbelongs : ∀ i k, (u.setPc c v).Belongs i k ↔ u.Belongs i k := by
    intro i k
    refine or_congr_right (exists_congr fun w => ?_)
    rw [hslot]
    refine and_congr_right fun hw => ?_
    have hwc : w ≠ c := by
      rintro rfl
      simp [hc] at hw
    simp [UserState.setPc, hwc]
  refine h.library ⟨?_, ?_, ?_, ?_⟩ ⟨?_, ?_, ?_, ?_⟩ ?_ ⟨h.succeeded.creates, h.succeeded.joins⟩
  · rw [show (fun w => ((u.setPc c v).pc w).scan) = _ from scan_update u.pc c v]
    exact hscan
  · simp only [hslot]
    exact h.slots.inuse
  · simpa only [hslot] using h.slots.owner
  · simp only [hslot]
    exact h.slots.handle
  · simpa only [hbelongs] using h.table.live
  · simpa only [hbelongs] using h.table.inj
  · simpa only [hbelongs] using h.table.cover
  · simpa only [hbelongs] using h.table.later
  · refine h.place.move h.kernel.run.running rfl ?_ ?_ ?_
    · rintro i k rfl
      cases hv
    · rintro i r rfl
      cases hv
    · rintro i r rfl
      cases hv

theorem thrdCreate (h : UserInv L p n T (.user res) s q ts c g u) (hpc : u.pc c = .code)
    (hroom : u.simultaneous < THRD_MAX) :
    UserInv L p n T (.user res) s q ts c g (u.setPc c (.alloc 0)) :=
  h.slotless (by simp [hpc, UserPc.slot]) rfl
    (h.slots.scan.start (by simp [hpc, UserPc.scan]) hroom)

/-- `thrd_alloc` finds a slot before it is at the end. -/
theorem thrdAlloc (h : UserInv L p n T (.user res) s q ts c g u) {j : Nat} (hpc : u.pc c = .alloc j) :
    UserInv L p n T (.user res) s q ts c g (Munix.thrdAlloc im u c j) := by
  have hscan : (u.pc c).scan = some j := by simp [hpc, UserPc.scan]
  have hlt : j < THRD_MAX := h.slots.scan.lt (w := c) hscan
  rw [Munix.thrdAlloc, dif_pos hlt]
  split
  next hused =>
    exact h.slotless (by simp [hpc, UserPc.slot]) rfl
      (h.slots.scan.pass (i := ⟨j, hlt⟩) (w := c) hscan hused)
  next hused =>
    have hused : u.inuse ⟨j, hlt⟩ = false := by simpa using hused
    set i : Fin THRD_MAX := ⟨j, hlt⟩ with hi
    set u' := (u.setUthrd i fun ut => { ut with inuse := true, ustackBase := im.ustack i }).setPc c
      (.create i) with hu'
    have hnone : ¬ (u.handles i = true ∨ ∃ w, (u.pc w).slot = some i) := by
      rw [← h.slots.inuse i, hused]
      simp
    rw [not_or, not_exists] at hnone
    have hinuse : u'.inuse = Function.update u.inuse i true := by
      funext a
      by_cases ha : a = i
      · subst ha
        simp [hu', UserState.inuse, UserState.setPc, UserState.setUthrd]
      · simp [hu', UserState.inuse, UserState.setPc, UserState.setUthrd, ha]
    have hmoved : Moved u u' c (.create i) i := by
      refine ⟨rfl, fun a ha => ?_, fun a hslot => ?_, fun a hslot => ?_, fun w _ => hnone.2 w⟩
      · rw [hinuse]
        simp [hu', UserState.setPc, UserState.setUthrd, ha]
      · simp [hpc, UserPc.slot] at hslot
      · exact (Option.some.inj hslot).symm
    have hhandles : u'.handles = u.handles := rfl
    refine h.library (hmoved.slots h.slots ?_ ?_ ?_) (hmoved.table h.table ?_) ?_
      ⟨h.succeeded.creates, h.succeeded.joins⟩
    · simp [hinuse, UserPc.slot]
    · intro _
      rw [hhandles]
      simpa using hnone.1
    · rw [hinuse]
      exact h.slots.scan.take hscan hused
    · intro k
      simp [hhandles, hnone.1, hpc, UserPc.slot, UserPc.thread]
    · exact h.place.move h.kernel.run.running rfl (by simp) (by simp) (by simp)

/-- The system call of `thrd_create`. -/
theorem create (h : UserInv L p n T (.user res) s q ts c g u) (hpc : u.pc c = .create i)
    (hsafe : s.nextTid.toNat + 1 < 2 ^ 31) (startAddr ustack : BitVec 32) :
    ∃ n' T' q' ts', UserInv L p n' T' ((ThreadCall.create startAddr ustack).run L s).1
      ((ThreadCall.create startAddr ustack).run L s).2 q' ts' c g
      (u.setPc c (.created i ((ThreadCall.create startAddr ustack).run L s).1.result)) := by
  have hslot : (u.pc c).slot = some i := by rw [hpc]; rfl
  have hrunning := h.kernel.run.running
  have hnext := h.kernel.run.nextTid
  have hfirst := h.bound.1
  obtain ⟨t, ht⟩ := h.table.threadAlloc_isSome h.slots h.kernel.run.sched.tid_inj
  have hfree := not_live_of_alloc ht
  have hwait : ∀ w temp, s.Waiting w temp → temp ≠ t := by
    rintro w _ hw rfl
    obtain ⟨_, -, hlive⟩ := h.place.waits w _ (.inl hw)
    exact hfree hlive
  have hkernel := h.kernel.create (by omega) ht (fun w hw => hwait w t hw rfl) startAddr ustack
  have heq : (ThreadCall.create startAddr ustack).run L s =
      (.user (threadCreate L s p startAddr ustack).1, (threadCreate L s p startAddr ustack).2) := by
    simp only [ThreadCall.run, hrunning.process]
  obtain ⟨hcur, -, -, -, hself, htcb⟩ := threadCreate_state L p startAddr ustack ht
  have hnew : ((threadCreate L s p startAddr ustack).2.tcb t).runstate = .new := by
    simp [threadCreate, ht, schedAdd, Sched.setThread]
  have hres : (threadCreate L s p startAddr ustack).1 = s.nextTid.toInt := by
    simp [threadCreate, ht, schedAdd, Sched.setThread]
  have hpos : 0 < s.nextTid.toInt := by
    rw [BitVec.toInt_eq_toNat_of_lt (by omega)]
    omega
  have htc : t ≠ c := by
    rintro rfl
    exact hfree hrunning.live
  have hcode : u.pc t = .code := by
    by_contra hne
    exact hfree (h.place.active t hne).1
  rw [heq] at hkernel ⊢
  set v : UserPc := .created i s.nextTid.toInt with hv
  have hvr : UserPc.created i (Ctl.user (threadCreate L s p startAddr ustack).1).result = v := by
    rw [hres]
    rfl
  rw [hvr]
  have hmoved : Moved u (u.setPc c v) c v i :=
    h.slots.moved hslot fun j hj => (Option.some.inj hj).symm
  have hhandle : u.handles i = false := h.slots.handle c i hslot
  refine ⟨_, _, _, _, hkernel, by omega, h.nonneg,
    h.slots.keep hslot rfl (by rw [hpc]; rfl), ?_, ?_, ⟨h.succeeded.creates, h.succeeded.joins⟩⟩
  · refine hmoved.table_create h.table hfree ?_ htcb (fun w hw => ?_) ?_ (fun k hk => ?_) fun k => ?_
    · rw [Sched.Live, hself]
      intro h0
      simp [h0] at hnext
    · have hlt := h.kernel.run.sched.tid_lt w
      rw [hw, hself] at hlt
      omega
    · rw [hself]
      bv_omega
    · rcases hmoved.belongs_before.mp hk with ⟨hh, -⟩ | ⟨-, hthread⟩
      · exact absurd hh (by simp [hhandle])
      · rw [hpc] at hthread
        cases hthread
    · have hset : (u.setPc c v).handles i = false := hhandle
      have hvslot : v.slot = some i := rfl
      have hvthread : v.thread = some s.nextTid := by simp [hv, UserPc.thread]
      rw [hself, hset, hvslot, hvthread]
      simp [eq_comm]
  · refine h.place.slot_changed hrunning hcur htcb hnew htc hcode hwait rfl (by simp [hv]) ?_ (by simp [hv])
    intro j r hr
    rw [hv, UserPc.created.injEq] at hr
    rw [← hr.2]
    exact hpos

/-- `thrd_create` gives the handle to its caller. -/
theorem thrdCreated (h : UserInv L p n T (.user res) s q ts c g u) {r : Int}
    (hpc : u.pc c = .created i r) : UserInv L p n T (.user res) s q ts c g (Munix.thrdCreated u c i r) := by
  have hslot : (u.pc c).slot = some i := by rw [hpc]; rfl
  have hpos := h.place.created c i r hpc
  have hhandle : u.handles i = false := h.slots.handle c i hslot
  rw [Munix.thrdCreated, if_neg (by omega), if_pos hpos]
  set u' := UserState.createReturns { u.setUthrd i fun ut => { ut with ktid := BitVec.ofInt 32 r } with
    handles := Function.update u.handles i true } c 0 with hu'
  have hinuse : u'.inuse = u.inuse := by
    funext a
    by_cases ha : a = i
    · subst ha
      simp [hu', UserState.inuse, UserState.createReturns, UserState.setPc, UserState.setUthrd]
    · simp [hu', UserState.inuse, UserState.createReturns, UserState.setPc, UserState.setUthrd, ha]
  have hhandle' : u'.handles i = true := by
    simp [hu', UserState.createReturns, UserState.setPc]
  have hktid : (u'.uthrds i).ktid = BitVec.ofInt 32 r := by
    simp [hu', UserState.createReturns, UserState.setPc, UserState.setUthrd]
  have hmoved : Moved u u' c .code i := by
    refine ⟨rfl, fun a ha => ?_, fun a ha => Option.some.inj (ha.symm.trans hslot), by simp [UserPc.slot],
      fun w hw hw' => hw (h.slots.owner w c i hw' hslot)⟩
    rw [hinuse]
    simp [hu', UserState.createReturns, UserState.setPc, UserState.setUthrd, ha]
  refine h.library (hmoved.slots h.slots ?_ (by simp [UserPc.slot]) ?_) (hmoved.table h.table fun k => ?_)
    (h.place.move h.kernel.run.running rfl (by simp) (by simp) (by simp)) ⟨fun x hx => ?_, h.succeeded.joins⟩
  · rw [hinuse]
    exact iff_of_true ((h.slots.inuse i).mpr (.inr ⟨c, hslot⟩)) (.inl hhandle')
  · have hscan : UserPc.code.scan = (u.pc c).scan := by rw [hpc]; rfl
    rw [hinuse, update_scan_self hscan]
    exact h.slots.scan
  · simp [hhandle, hhandle', hktid, hpc, UserPc.slot, UserPc.thread]
  · rcases List.mem_append.mp hx with hx | hx
    · exact h.succeeded.creates x hx
    · exact List.mem_singleton.mp hx

/-- `thrd_join` takes the handle. -/
theorem thrdJoin (h : UserInv L p n T (.user res) s q ts c g u) (hpc : u.pc c = .code)
    (hhandle : u.handles i = true) :
    UserInv L p n T (.user res) s q ts c g (Munix.thrdJoin u c i) := by
  set u' := Munix.thrdJoin u c i with hu'
  have halone : ∀ w, (u.pc w).slot ≠ some i := fun w hw => by simp [h.slots.handle w i hw] at hhandle
  have hhandle' : u'.handles i = false := by simp [hu', Munix.thrdJoin, UserState.setPc]
  have hmoved : Moved u u' c (.join i (u.uthrds i).ktid) i := by
    refine ⟨rfl, fun a ha => ?_, fun a ha => ?_, fun a ha => (Option.some.inj ha).symm,
      fun w _ => halone w⟩
    · exact ⟨rfl, by simp [hu', Munix.thrdJoin, UserState.setPc, ha], rfl⟩
    · rw [hpc] at ha
      cases ha
  refine h.library (hmoved.slots h.slots ?_ (fun _ => hhandle') ?_) (hmoved.table h.table fun k => ?_)
    (h.place.move h.kernel.run.running rfl (by simp) (by simp) (by simp))
    ⟨h.succeeded.creates, h.succeeded.joins⟩
  · exact iff_of_true ((h.slots.inuse i).mpr (.inl hhandle)) (.inr rfl)
  · have hscan : (UserPc.join i (u.uthrds i).ktid).scan = (u.pc c).scan := by rw [hpc]; rfl
    rw [update_scan_self hscan]
    exact h.slots.scan
  · simp [hhandle, hhandle', hpc, UserPc.slot, UserPc.thread]

/-- `thrd_join` releases the slot. -/
theorem thrdJoined (h : UserInv L p n T (.user res) s q ts c g u) {r : Int}
    (hpc : u.pc c = .joined i r) : UserInv L p n T (.user res) s q ts c g (Munix.thrdJoined u c i r) := by
  have hslot : (u.pc c).slot = some i := by rw [hpc]; rfl
  have hnonneg := h.place.joined c i r hpc
  have hhandle : u.handles i = false := h.slots.handle c i hslot
  have heq : Munix.thrdJoined u c i r = { (thrdFree u i).setPc c .code with
      joins := u.joins ++ [(0, (thrdFree u i).inuse i)] } := by
    rw [Munix.thrdJoined, if_neg (by omega)]
    rfl
  rw [heq]
  have hinuse : (thrdFree u i).inuse = Function.update u.inuse i false := by
    funext a
    by_cases ha : a = i
    · subst ha
      simp [thrdFree, UserState.inuse, UserState.setUthrd]
    · simp [thrdFree, UserState.inuse, UserState.setUthrd, ha]
  set u' : UserState := { (thrdFree u i).setPc c .code with
    joins := u.joins ++ [(0, (thrdFree u i).inuse i)] } with hu'
  have hinuse' : u'.inuse = Function.update u.inuse i false := hinuse
  have hmoved : Moved u u' c .code i := by
    refine ⟨rfl, fun a ha => ?_, fun a ha => Option.some.inj (ha.symm.trans hslot), by simp [UserPc.slot],
      fun w hw hw' => hw (h.slots.owner w c i hw' hslot)⟩
    rw [hinuse', Function.update_of_ne ha]
    simp [hu', thrdFree, UserState.setPc, UserState.setUthrd, ha]
  have hhandle' : u'.handles i = false := hhandle
  refine h.library (hmoved.slots h.slots ?_ (by simp [UserPc.slot]) ?_) (hmoved.table h.table fun k => ?_)
    (h.place.move h.kernel.run.running rfl (by simp) (by simp) (by simp)) ⟨h.succeeded.creates, fun x hx => ?_⟩
  · simp [hinuse', hhandle', UserPc.slot]
  · have hscan : UserPc.code.scan = (u.pc c).scan := by rw [hpc]; rfl
    rw [hinuse', update_scan_self hscan]
    exact h.slots.scan.release i
  · simp [hhandle, hhandle', hpc, UserPc.slot, UserPc.thread]
  · rcases List.mem_append.mp hx with hx | hx
    · exact h.succeeded.joins x hx
    · rw [List.mem_singleton.mp hx, hinuse, Function.update_self]

/-- The thread that `thrd_join` waits for has exited: it is closed. -/
theorem joinDone (h : UserInv L p n T ctl s q ts c g u) {temp : Fin THREAD_MAX}
    (hslot : (u.pc c).slot = some i) (hthread : (u.pc c).thread = some k)
    (hscan : (u.pc c).scan = none) (htemp : (s.tcb temp).tid = k)
    (hr : (s.tcb temp).runstate = .exited) :
    SlotsInv (u.setPc c (joinLoopPc s temp i k)) ∧
      TableInv (threadJoinLoop s temp).2 (u.setPc c (joinLoopPc s temp i k)) ∧
      PlaceInv (threadJoinLoop s temp).1 (threadJoinLoop s temp).2
        (u.setPc c (joinLoopPc s temp i k)) := by
  have hbelongs : u.Belongs i k := .inr ⟨c, hslot, hthread⟩
  have hrunning := h.kernel.run.running
  have hlive : s.Live temp := by
    by_contra hfree
    simp [h.kernel.run.sched.free temp hfree] at hr
  have hloop : threadJoinLoop s temp = (.user (s.tcb temp).exitStatus.toInt, threadClose s temp) := by
    rw [threadJoinLoop, if_neg (by simpa using hr)]
  have hnonneg : 0 ≤ (s.tcb temp).exitStatus.toInt :=
    h.nonneg _ (h.kernel.exited temp hlive hr) (htemp ▸ h.table.later i k hbelongs)
  have hv : joinLoopPc s temp i k = .joined i (s.tcb temp).exitStatus.toInt := by
    rw [joinLoopPc, if_pos hr, hloop]
    rfl
  have htcb : ∀ w, w ≠ temp → (threadClose s temp).tcb w = s.tcb w := by
    intro w hw
    simp [threadClose, hw]
  have hzero : (threadClose s temp).tcb temp = .zero := by simp [threadClose]
  have htc : temp ≠ c := by
    rintro rfl
    simp [hrunning.state] at hr
  have hcode : u.pc temp = .code := by
    by_contra hne
    exact absurd ((h.place.active temp hne).2.symm.trans hr) (by simp)
  -- nobody else waits for this thread
  have hwait : ∀ w temp', s.Waiting w temp' → temp' ≠ temp := by
    rintro w temp' hw rfl
    obtain ⟨j, hj, -⟩ := h.place.waits w temp' (.inl hw)
    have hwslot : (u.pc w).slot = some j := by rw [hj]; rfl
    have hwbelongs : u.Belongs j k := .inr ⟨w, hwslot, by rw [hj, ← htemp]; rfl⟩
    obtain rfl := h.table.inj j i k hwbelongs hbelongs
    obtain rfl := h.slots.owner w c j hwslot hslot
    exact hw.2.1 hrunning.current
  rw [hloop, hv]
  have hmoved : Moved u (u.setPc c (.joined i (s.tcb temp).exitStatus.toInt)) c
      (.joined i (s.tcb temp).exitStatus.toInt) i :=
    h.slots.moved hslot fun j hj => (Option.some.inj hj).symm
  refine ⟨h.slots.keep hslot rfl (by rw [hscan]; rfl), ?_, ?_⟩
  · refine hmoved.table_close h.table h.slots h.kernel.run.sched.tid_inj (htemp ▸ hbelongs) ?_ htcb
      fun k => ?_
    · rw [Sched.Live, hzero]
      simp [Thread.zero]
    · have hhandle : (u.setPc c (.joined i (s.tcb temp).exitStatus.toInt)).handles i = false :=
        h.slots.handle c i hslot
      simp [hhandle, UserPc.thread]
  · refine h.place.slot_changed hrunning rfl htcb (by rw [hzero]; rfl) htc hcode hwait rfl (by simp)
      (by simp) ?_
    intro j r hjr
    rw [UserPc.joined.injEq] at hjr
    rw [← hjr.2]
    exact hnonneg

/-- It has not exited: `thrd_join` goes on waiting. -/
theorem joinWaits (h : UserInv L p n T ctl s q ts c g u) {temp : Fin THREAD_MAX}
    (hslot : (u.pc c).slot = some i) (hthread : (u.pc c).thread = some k)
    (hscan : (u.pc c).scan = none) (hlive : s.Live temp) (htemp : (s.tcb temp).tid = k)
    (hr : (s.tcb temp).runstate ≠ .exited) :
    SlotsInv (u.setPc c (joinLoopPc s temp i k)) ∧
      TableInv (threadJoinLoop s temp).2 (u.setPc c (joinLoopPc s temp i k)) ∧
      PlaceInv (threadJoinLoop s temp).1 (threadJoinLoop s temp).2
        (u.setPc c (joinLoopPc s temp i k)) := by
  have hv : joinLoopPc s temp i k = .joining i k := by rw [joinLoopPc, if_neg hr]
  obtain ⟨_, _, hq, htid, -⟩ := h.kernel.run.switch (.join temp)
    (f := fun th => { th with runstate := .ready, yieldCt := th.yieldCt + 1#32 })
    (fun _ => ⟨rfl, rfl, rfl⟩) (by simp) (fun _ _ => trivial) (.inr fun _ => rfl)
  have hmoved : Moved u (u.setPc c (.joining i k)) c (.joining i k) i :=
    h.slots.moved hslot fun j hj => (Option.some.inj hj).symm
  rw [hv, threadJoinLoop, if_pos hr]
  refine ⟨h.slots.keep hslot rfl (by rw [hscan]; rfl), ?_, ?_⟩
  · refine (hmoved.table h.table fun k' => ?_).congr htid
    have hhandle : (u.setPc c (.joining i k)).handles i = u.handles i := rfl
    have hktid : ((u.setPc c (.joining i k)).uthrds i).ktid = (u.uthrds i).ktid := rfl
    rw [hhandle, hktid, hslot, hthread]
    rfl
  · refine h.place.switch h.kernel.run (.join temp) (fun _ => ⟨rfl, rfl, rfl⟩) hq htid rfl
      (fun _ _ => rfl) ?_ (fun _ _ _ => ⟨temp, rfl⟩) (by simp) (by simp)
    intro temp' heq
    obtain rfl := Ctl.join.inj heq
    exact ⟨i, by rw [htemp], hlive⟩

/-- One round of the loop of `thread_join`, by a thread that came there from
`thrd_join` for the thread that belongs to its slot. -/
theorem joinRound (h : UserInv L p n T ctl s q ts c g u) {temp : Fin THREAD_MAX} {g' : JoinLog}
    (hpc : u.pc c = .join i k ∨ u.pc c = .joining i k) (hlive : s.Live temp)
    (htemp : (s.tcb temp).tid = k)
    (hkernel : ∃ T' q' ts' c', JoinInv L p n T' (threadJoinLoop s temp).1 (threadJoinLoop s temp).2
      q' ts' c' g') (hexits : g'.exits = g.exits) :
    ∃ T' q' ts' c', UserInv L p n T' (threadJoinLoop s temp).1 (threadJoinLoop s temp).2 q' ts' c' g'
      (u.setPc c (joinLoopPc s temp i k)) := by
  obtain ⟨T', q', ts', c', hkernel⟩ := hkernel
  obtain ⟨hslot, hthread, hscan⟩ :
      (u.pc c).slot = some i ∧ (u.pc c).thread = some k ∧ (u.pc c).scan = none := by
    rcases hpc with hpc | hpc
    · rw [hpc]
      exact ⟨rfl, rfl, rfl⟩
    · rw [hpc]
      exact ⟨rfl, rfl, rfl⟩
  obtain ⟨hslots, htable, hplace⟩ :
      SlotsInv (u.setPc c (joinLoopPc s temp i k)) ∧
        TableInv (threadJoinLoop s temp).2 (u.setPc c (joinLoopPc s temp i k)) ∧
        PlaceInv (threadJoinLoop s temp).1 (threadJoinLoop s temp).2
          (u.setPc c (joinLoopPc s temp i k)) := by
    by_cases hr : (s.tcb temp).runstate = .exited
    · exact h.joinDone hslot hthread hscan htemp hr
    · exact h.joinWaits hslot hthread hscan hlive htemp hr
  exact ⟨T', q', ts', c', hkernel, h.bound, by rw [hexits]; exact h.nonneg, hslots, htable, hplace,
    ⟨h.succeeded.creates, h.succeeded.joins⟩⟩

/-- The system call of `thrd_join`. -/
theorem join (h : UserInv L p n T (.user res) s q ts c g u) (hpc : u.pc c = .join i k) :
    ∃ T' q' ts' c' g', UserInv L p n T' ((ThreadCall.join k).run L s).1
      ((ThreadCall.join k).run L s).2 q' ts' c' g' (u.setPc c (joinPc s i k)) := by
  have hbelongs : u.Belongs i k := .inr ⟨c, by rw [hpc]; exact ⟨rfl, rfl⟩⟩
  obtain ⟨t, ht, htk⟩ := h.table.live i k hbelongs
  have hkernel := h.kernel.join k
  cases hfind : (List.finRange THREAD_MAX).find? fun t => decide ((s.tcb t).tid = k) with
  | none =>
    have := List.find?_eq_none.mp hfind t (List.mem_finRange t)
    simp [htk] at this
  | some temp =>
    have htemp : (s.tcb temp).tid = k := by simpa using List.find?_some hfind
    have hlive : s.Live temp := by
      rw [Sched.Live, htemp, ← htk]
      exact ht
    have hjoin : (ThreadCall.join k).run L s = threadJoinLoop s temp := by
      simp only [ThreadCall.run, threadJoin, hfind]
    have hjoin' : threadJoin s k = threadJoinLoop s temp := by simp only [threadJoin, hfind]
    have hat : joinPc s i k = joinLoopPc s temp i k := by simp only [joinPc, hfind]
    rw [hjoin'] at hkernel
    rw [hjoin, hat]
    have hexits : (g.call s c (.join k)).exits = g.exits := by
      simp only [JoinLog.call, hfind, JoinLog.joinLoop]
      split <;> rfl
    obtain ⟨T', q', ts', c', h'⟩ := h.joinRound (.inl hpc) hlive htemp hkernel hexits
    exact ⟨T', q', ts', c', _, h'⟩

/-- The loop of `thread_join` goes on. -/
theorem joinLoop {temp : Fin THREAD_MAX} (h : UserInv L p n T (.join temp) s q ts c g u)
    (hpc : u.pc c = .joining i k) :
    ∃ T' q' ts' c' g', UserInv L p n T' (threadJoinLoop s temp).1 (threadJoinLoop s temp).2 q' ts' c' g'
      (u.setPc c (joinLoopPc s temp i k)) := by
  have hin : s.InJoin (.join temp) c temp := .inr ⟨h.kernel.run.running.current, rfl⟩
  obtain ⟨j, hj, hlive⟩ := h.place.waits c temp hin
  have htemp : (s.tcb temp).tid = k := (UserPc.joining.inj (hj.symm.trans hpc)).2
  have hkernel := h.kernel.joinLoop (h.kernel.waits c temp hin)
  have hexits : (g.joinLoop s c temp).exits = g.exits := by
    unfold JoinLog.joinLoop
    split <;> rfl
  obtain ⟨T', q', ts', c', h'⟩ := h.joinRound (.inr hpc) hlive htemp hkernel hexits
  exact ⟨T', q', ts', c', _, h'⟩

end UserInv

-- ---------------------------------------------------------------------------
-- Runs
-- ---------------------------------------------------------------------------

theorem UserInv.start (L : Layout) (p : Fin PROCESS_MAX) (stray startAddr ustack : BitVec 32)
    (here : Ctl) :
    ∃ q ts c, UserInv L p 1 {1#32} (startThread L (.boot stray) p startAddr ustack here).1
      (startThread L (.boot stray) p startAddr ustack here).2 q ts c .empty .initial := by
  obtain ⟨q, ts, c, hkernel⟩ := JoinInv.start L p stray startAddr ustack here
  have hone : ∀ t, (startThread L (.boot stray) p startAddr ustack here).2.Live t →
      ((startThread L (.boot stray) p startAddr ustack here).2.tcb t).tid = 1#32 :=
    fun t ht => Finset.mem_singleton.mp ((hkernel.run.tids _).mpr ⟨t, ht, rfl⟩)
  have hnone : ∀ i k, ¬ UserState.initial.Belongs i k := by
    rintro i k (⟨hh, -⟩ | ⟨w, hw, -⟩)
    · cases hh
    · cases hw
  refine ⟨q, ts, c, hkernel, by norm_num, nofun, ⟨?_, fun i => ?_, nofun, nofun⟩,
    ⟨fun i k hk => absurd hk (hnone i k), fun i _ k hk => absurd hk (hnone i k),
      fun t ht => .inl (hone t ht), fun i k hk => absurd hk (hnone i k)⟩, ⟨fun w hw => absurd rfl hw, fun w temp hw => ?_, nofun, nofun, nofun⟩,
    ⟨nofun, nofun⟩⟩
  · exact SlotScan.fits_init (fun _ => rfl) fun _ => rfl
  · simp [UserState.initial, UserState.inuse, UserPc.slot]
  · -- the only thread is running its user code
    rcases hw with ⟨hwl, hwc, -⟩ | ⟨-, hctl⟩
    · have heq := hkernel.run.sched.tid_inj w c hwl
        ((hone w hwl).trans (hone c hkernel.run.running.live).symm)
      exact absurd (heq ▸ hkernel.run.running.current) hwc
    · exact absurd ((startThread_user L p stray startAddr ustack here).symm.trans hctl) (by simp)

/-- The invariant holds in every state a run reaches, unless the last thread that
could run has exited, with nobody in the library. -/
theorem UserRun.inv (h : UserRun L p im UserSafe ctl s u) :
    (∃ n T q ts c g, UserInv L p n T ctl s q ts c g u) ∨
      (¬ ctl.Returns ∧ SlotsInv u ∧ u.Succeeded ∧ ∀ w, u.pc w = .code) := by
  induction h with
  | start stray startAddr ustack shell =>
    obtain ⟨q, ts, c, h⟩ := UserInv.start L p stray startAddr ustack (.start shell p)
    exact .inl ⟨1, _, q, ts, c, _, h⟩
  | preempt _ ih =>
    obtain ⟨n, T, q, ts, c, g, h⟩ := ih.resolve_right fun hstuck => hstuck.1 trivial
    obtain ⟨q', c', h'⟩ := h.requeue
      (f := fun th => { th with runstate := .ready, preemptCt := th.preemptCt + 1#32 })
      (fun _ => ⟨rfl, rfl, rfl⟩) fun _ => rfl
    exact .inl ⟨n, T, q', ts, c', g, h'⟩
  | yield _ _ _ ih =>
    obtain ⟨n, T, q, ts, c, g, h⟩ := ih.resolve_right fun hstuck => hstuck.1 trivial
    obtain ⟨q', c', h'⟩ := h.requeue
      (f := fun th => { th with runstate := .ready, yieldCt := th.yieldCt + 1#32 })
      (fun _ => ⟨rfl, rfl, rfl⟩) fun _ => rfl
    exact .inl ⟨n, T, q', ts, c', g, h'⟩
  | exit status _ hcur hpc hsafe ih =>
    obtain ⟨n, T, q, ts, c, g, h⟩ := ih.resolve_right fun hstuck => hstuck.1 trivial
    obtain rfl := Option.some.inj (h.kernel.run.running.current.symm.trans hcur)
    cases q with
    | cons x q =>
      obtain ⟨q', c', g', h'⟩ := h.exit hpc (hsafe _ hcur) (List.cons_ne_nil x q)
      exact .inl ⟨n, T, q', ts, c', g', h'⟩
    | nil =>
      refine .inr ⟨h.kernel.run.exit_last status, h.slots, h.succeeded, fun w => ?_⟩
      -- a thread in the library could run
      by_contra hne
      obtain ⟨hlive, hready⟩ := h.place.active w hne
      have hwc : w ≠ c := by
        rintro rfl
        exact hne hpc
      have hq := h.kernel.run.sched.queued w hlive (by simp [hready]) (by
        rw [h.kernel.run.running.current]
        simpa using Ne.symm hwc)
      cases hq
  | thrdCreate _ hcur hpc hroom ih =>
    obtain ⟨n, T, q, ts, c, g, h⟩ := ih.resolve_right fun hstuck => hstuck.1 trivial
    obtain rfl := Option.some.inj (h.kernel.run.running.current.symm.trans hcur)
    exact .inl ⟨n, T, q, ts, c, g, h.thrdCreate hpc hroom⟩
  | alloc _ hcur hpc ih =>
    obtain ⟨n, T, q, ts, c, g, h⟩ := ih.resolve_right fun hstuck => hstuck.1 trivial
    obtain rfl := Option.some.inj (h.kernel.run.running.current.symm.trans hcur)
    exact .inl ⟨n, T, q, ts, c, g, h.thrdAlloc hpc⟩
  | create _ hcur hpc hsafe ih =>
    obtain ⟨n, T, q, ts, c, g, h⟩ := ih.resolve_right fun hstuck => hstuck.1 trivial
    obtain rfl := Option.some.inj (h.kernel.run.running.current.symm.trans hcur)
    obtain ⟨n', T', q', ts', h'⟩ := h.create hpc hsafe _ _
    exact .inl ⟨n', T', q', ts', c, g, h'⟩
  | created _ hcur hpc ih =>
    obtain ⟨n, T, q, ts, c, g, h⟩ := ih.resolve_right fun hstuck => hstuck.1 trivial
    obtain rfl := Option.some.inj (h.kernel.run.running.current.symm.trans hcur)
    exact .inl ⟨n, T, q, ts, c, g, h.thrdCreated hpc⟩
  | thrdJoin _ hcur hpc hhandle ih =>
    obtain ⟨n, T, q, ts, c, g, h⟩ := ih.resolve_right fun hstuck => hstuck.1 trivial
    obtain rfl := Option.some.inj (h.kernel.run.running.current.symm.trans hcur)
    exact .inl ⟨n, T, q, ts, c, g, h.thrdJoin hpc hhandle⟩
  | join _ hcur hpc ih =>
    obtain ⟨n, T, q, ts, c, g, h⟩ := ih.resolve_right fun hstuck => hstuck.1 trivial
    obtain rfl := Option.some.inj (h.kernel.run.running.current.symm.trans hcur)
    obtain ⟨T', q', ts', c', g', h'⟩ := h.join hpc
    exact .inl ⟨n, T', q', ts', c', g', h'⟩
  | joinLoop _ hcur hpc ih =>
    obtain ⟨n, T, q, ts, c, g, h⟩ := ih.resolve_right fun hstuck => hstuck.1 trivial
    obtain rfl := Option.some.inj (h.kernel.run.running.current.symm.trans hcur)
    obtain ⟨T', q', ts', c', g', h'⟩ := h.joinLoop hpc
    exact .inl ⟨n, T', q', ts', c', g', h'⟩
  | joined _ hcur hpc ih =>
    obtain ⟨n, T, q, ts, c, g, h⟩ := ih.resolve_right fun hstuck => hstuck.1 trivial
    obtain rfl := Option.some.inj (h.kernel.run.running.current.symm.trans hcur)
    exact .inl ⟨n, T, q, ts, c, g, h.thrdJoined hpc⟩

/-- **`thrd_create` and `thrd_join` succeed.** In every run in which the threads made by
`thrd_create` exit with a status that is not negative, with at most `THRD_MAX` threads at a time and each joined
once: every call of `thrd_create` that is done returned 0; every call of `thrd_join`
that is done returned 0 with its slot free; no slot is in use but by a thread that can
still be joined or by a call that is not done; and a thread that waits in `thrd_join`
can run, waits for its own thread, and goes on as soon as that thread has exited. -/
theorem userRun_succeeds (h : UserRun L p im UserSafe ctl s u) :
    (∀ r ∈ u.creates, r = 0) ∧ (∀ r ∈ u.joins, r = (0, false)) ∧
    (∀ i, u.inuse i = true → u.handles i = true ∨ ∃ w, (u.pc w).slot = some i) ∧
    ∀ w i k, u.pc w = .joining i k → ∃ temp, s.InJoin ctl w temp ∧ (s.tcb temp).tid = k ∧
      ((s.tcb temp).runstate = .exited →
        ∃ v, 0 ≤ v ∧ threadJoinLoop s temp = (.user v, threadClose s temp)) := by
  rcases h.inv with ⟨n, T, q, ts, c, g, h⟩ | ⟨-, hslots, hsucc, hcode⟩
  · refine ⟨h.succeeded.creates, h.succeeded.joins, fun i => (h.slots.inuse i).mp, fun w i k hw => ?_⟩
    obtain ⟨temp, hin⟩ := h.place.joining w i k hw
    obtain ⟨j, hj, hlive⟩ := h.place.waits w temp hin
    have htemp : (s.tcb temp).tid = k := (UserPc.joining.inj (hj.symm.trans hw)).2
    refine ⟨temp, hin, htemp, fun hr => ?_⟩
    have hbelongs : u.Belongs i k := .inr ⟨w, by rw [hw]; exact ⟨rfl, rfl⟩⟩
    refine ⟨(s.tcb temp).exitStatus.toInt, h.nonneg _ (h.kernel.exited temp hlive hr)
      (htemp ▸ h.table.later i k hbelongs), ?_⟩
    rw [threadJoinLoop, if_neg (by simpa using hr)]
  · refine ⟨hsucc.creates, hsucc.joins, fun i => (hslots.inuse i).mp, fun w i k hw => ?_⟩
    exact absurd ((hcode w).symm.trans hw) (by simp)

-- ---------------------------------------------------------------------------
-- One round
-- ---------------------------------------------------------------------------

instance : NeZero THREAD_MAX := ⟨by decide⟩

instance : NeZero THRD_MAX := ⟨by decide⟩

/-- A program for examples. -/
def roundImage : UserImage := ⟨0x404000#32, 0x400100#32⟩

/-- The first thread creates a second one and waits for it, and the second one exits. -/
def roundCreated : Ctl × Sched :=
  (ThreadCall.create roundImage.threadStart (roundImage.childStack 0)).run lowLayout startedSched.2

def roundWaiting : Ctl × Sched := (ThreadCall.join 2#32).run lowLayout roundCreated.2

def roundExited (status : BitVec 32) : Ctl × Sched :=
  (ThreadCall.exit status).run lowLayout roundWaiting.2

def roundJoined (status : BitVec 32) : Ctl × Sched := threadJoinLoop (roundExited status).2 1

/-- The first thread is about to make the system call of `thrd_create`. -/
def roundCreate : UserState := thrdAlloc roundImage (UserState.initial.setPc 0 (.alloc 0)) 0 0

/-- It has come back from it, and is about to make the one of `thrd_join`. -/
def roundJoin : UserState := thrdJoin (thrdCreated (roundCreate.setPc 0 (.created 0 2)) 0 0 2) 0 0

/-- It is back from `thrd_join`. -/
def roundDone (status : BitVec 32) : UserState :=
  thrdJoined ((roundJoin.setPc 0 (.joining 0 2#32)).setPc 0 (.joined 0 status.toInt)) 0 0 status.toInt

/-- The end of the round in the kernel: the first thread gets the status. -/
structure RoundEnds (status : BitVec 32) : Prop where
  exited  : (roundExited status).1 = .join 1
  first   : (roundExited status).2.currentThread = some 0
  place   : joinLoopPc (roundExited status).2 1 0 2#32 = .joined 0 status.toInt
  joined  : (roundJoined status).1 = .user status.toInt
  current : (roundJoined status).2.currentThread = some 0

/-- The round as a run. -/
theorem userRun_round {safe : Sched → ThreadCall → Prop} {status : BitVec 32}
    (hends : RoundEnds status) (hexit : safe roundWaiting.2 (.exit status))
    (hcreate : safe startedSched.2 (.create roundImage.threadStart (roundImage.childStack 0))) :
    UserRun lowLayout firstProcess roundImage safe (roundJoined status).1 (roundJoined status).2
      (roundDone status) := by
  have hstarted : startedSched.1 = .user 0 := by decide +kernel
  have hmain : startedSched.2.currentThread = some 0 := by decide +kernel
  have hcreated : roundCreated.1 = .user 2 := by decide +kernel
  have hmain' : roundCreated.2.currentThread = some 0 := by decide +kernel
  have hwaiting : roundWaiting.1 = .user 0 := by decide +kernel
  have hsecond : roundWaiting.2.currentThread = some 1 := by decide +kernel
  have hplace : joinPc roundCreated.2 0 2#32 = .joining 0 2#32 := by decide +kernel
  have hroom : UserState.initial.simultaneous < THRD_MAX := by decide +kernel
  have h0 : UserRun lowLayout firstProcess roundImage safe startedSched.1 startedSched.2 .initial :=
    .start 0#32 0x400000#32 0x500000#32 0
  rw [hstarted] at h0
  have h1 : UserRun lowLayout firstProcess roundImage safe (.user 0) startedSched.2 roundCreate :=
    (h0.thrdCreate hmain rfl hroom).alloc hmain (UserState.setPc_self _ _ _)
  have h2 : UserRun lowLayout firstProcess roundImage safe roundCreated.1 roundCreated.2
      (roundCreate.setPc 0 (.created 0 roundCreated.1.result)) :=
    h1.create hmain (by decide) hcreate
  rw [hcreated] at h2
  have h3 : UserRun lowLayout firstProcess roundImage safe (.user 2) roundCreated.2 roundJoin :=
    (h2.created hmain' (UserState.setPc_self _ _ _)).thrdJoin hmain' (by decide)
      (by decide)
  have h4 : UserRun lowLayout firstProcess roundImage safe roundWaiting.1 roundWaiting.2
      (roundJoin.setPc 0 (joinPc roundCreated.2 0 2#32)) :=
    h3.join hmain' (by decide)
  rw [hwaiting, hplace] at h4
  have h5 : UserRun lowLayout firstProcess roundImage safe (roundExited status).1 (roundExited status).2
      (roundJoin.setPc 0 (.joining 0 2#32)) :=
    h4.exit status hsecond (by decide) hexit
  rw [hends.exited] at h5
  have h6 : UserRun lowLayout firstProcess roundImage safe (roundJoined status).1 (roundJoined status).2
      ((roundJoin.setPc 0 (.joining 0 2#32)).setPc 0 (joinLoopPc (roundExited status).2 1 0 2#32)) :=
    h5.joinLoop hends.first (UserState.setPc_self _ _ _)
  rw [hends.joined, hends.place] at h6
  rw [hends.joined]
  exact h6.joined hends.current (UserState.setPc_self _ _ _)

theorem userRun_succeeds_round :
    UserRun lowLayout firstProcess roundImage UserSafe (roundJoined 7#32).1 (roundJoined 7#32).2
      (roundDone 7#32) ∧ (roundDone 7#32).joins.length = 1 ∧
      ∀ r ∈ (roundDone 7#32).joins, r = (0, false) := by
  have hends : RoundEnds 7#32 := ⟨by decide +kernel, by decide +kernel, by decide +kernel,
    by decide +kernel, by decide +kernel⟩
  have htid : startedSched.2.nextTid.toNat + 1 < 2 ^ 31 := by decide +kernel
  have hrun : UserRun lowLayout firstProcess roundImage UserSafe (roundJoined 7#32).1
      (roundJoined 7#32).2 (roundDone 7#32) :=
    userRun_round hends (fun _ _ _ => show 0 ≤ (7#32).toInt by decide) htid
  exact ⟨hrun, by decide, (userRun_succeeds hrun).2.1⟩

/-- A thread whose function returns -1: `thrd_join` returns -1 and the slot stays in
use, with no handle and no call that would release it. -/
theorem thrdJoin_leaks_slot :
    UserRun lowLayout firstProcess roundImage (fun _ _ => True) (roundJoined 0xffffffff#32).1
      (roundJoined 0xffffffff#32).2 (roundDone 0xffffffff#32) ∧
    (roundDone 0xffffffff#32).joins = [(-1, true)] ∧
    (roundDone 0xffffffff#32).inuse 0 = true ∧ (roundDone 0xffffffff#32).handles 0 = false ∧
    ∀ w, (roundDone 0xffffffff#32).pc w = .code := by
  have hends : RoundEnds 0xffffffff#32 := ⟨by decide +kernel, by decide +kernel, by decide +kernel,
    by decide +kernel, by decide +kernel⟩
  exact ⟨userRun_round hends trivial trivial, by decide, by decide, by decide, by decide⟩

end Munix
