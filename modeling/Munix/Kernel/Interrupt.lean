import Munix.Drivers.Intctl
import Munix.Kernel.SystemRuns
import Munix.Kernel.UserEntry

/-!
# Munix — the kernel with its interrupt controller

`kernel/interrupt.c` between the chips of `Munix.Drivers.Intctl` and the kernel of
`Munix.Kernel.System`. Devices are free: any of them may ask for an interrupt at any time,
and stop asking.

* `irqRuns_timer` — what the controller lets through, in any run.
* `irqRuns_refines` — as long as no request is lost, these runs are runs of the kernel.
* `ack_enters` — where an interrupt goes in user code.
-/

namespace Munix

open ByteMem Pic8259 X86

-- ---------------------------------------------------------------------------
-- Handling
-- ---------------------------------------------------------------------------

/-- `irq_cts`, the interrupt controller, and the rest of the kernel. -/
structure IrqSystem where
  sys    : System
  pic    : Pair
  irqCts : Fin 16 → BitVec 64

/-- The lines that `init_int_controller` enables. -/
def IRQS_TO_ENABLE : BitVec 16 := 0#16 ||| 1#16 <<< IRQ_TIMER

/-- Interrupts are edge-triggered unless `OM_IRQ_SET_LEVEL_MODE` is set, which nothing does. -/
def initIntController (p : Pair) : Option Pair := do
  let p ← picInit p 32#8
  picSetMask p (~~~IRQS_TO_ENABLE)

/-- When `kernel_main` starts its shell, with the controller left in state `p` by the firmware. -/
def IrqSystem.boot (stray : BitVec 32) (p : Pair) : Option IrqSystem :=
  (initIntController p).map fun p => ⟨.boot stray, p, fun _ => 0#64⟩

/-- The count of a line is one higher; past the end of `irq_cts` the behavior is undefined. -/
def IrqSystem.count (t : IrqSystem) (irq : BitVec 8) : Option IrqSystem :=
  if h : irq.toNat < 16 then
    some { t with irqCts := Function.update t.irqCts ⟨irq.toNat, h⟩ (t.irqCts ⟨irq.toNat, h⟩ + 1#64) }
  else none

def IrqSystem.handleIrq (t : IrqSystem) (ivec : BitVec 8) : Option IrqSystem := do
  let irq := ivec - 32#8
  let t ← t.count irq
  let (_, pic) ← picSendEoi t.pic irq
  if irq = BitVec.ofNat 8 IRQ_TIMER then some { t with pic := pic, sys := t.sys.handleIrq }
  else some { t with pic := pic }

def IrqSystem.interruptDispatch (t : IrqSystem) (ivec : BitVec 8) : Option IrqSystem :=
  if ivec < 32#8 then some { t with sys := t.sys.handleException }
  else if 32#8 ≤ ivec ∧ ivec.toNat < IVEC_IRQ_0 + 16 then t.handleIrq ivec
  else some t

/-- The vector that the handler passes on: without a gate it is that of a protection fault. -/
def handledAs (ivec : BitVec 8) : BitVec 8 :=
  if HANDLERS.any fun h => h.1 == ivec.toNat then ivec else 13#8

/-- What can happen: steps of the kernel, devices, and interrupts, with or without a request. -/
inductive IrqEvent where
  | kernel (e : Event)
  | raise (slave : Bool) (line : Fin 8)
  | lower (slave : Bool) (line : Fin 8)
  | intr (gone : BitVec 8)
  | spurious (gone : BitVec 8)

/-- A line of one of the chips. -/
def onChip (p : Pair) (slave : Bool) (f : Chip → Chip) : Pair :=
  if slave then { p with slave := f p.slave } else { p with master := f p.master }

/-- The interrupt is acknowledged and handled. -/
def IrqSystem.take (t : IrqSystem) (gone : BitVec 8) : Option IrqSystem :=
  { t with pic := (t.pic.ack gone).2 }.interruptDispatch (handledAs (t.pic.ack gone).1)

def IrqSystem.step (L : Layout) (t : IrqSystem) : IrqEvent → Option IrqSystem
  -- the timer comes through the controller only
  | .kernel .timer => none
  | .kernel e => (t.sys.step L e).map fun s => { t with sys := s }
  | .raise slave line => some { t with pic := onChip t.pic slave (·.raise line) }
  | .lower slave line => some { t with pic := onChip t.pic slave (·.lower line) }
  | .intr gone => if t.sys.place.intr = true ∧ t.pic.request.isSome = true then t.take gone else none
  | .spurious gone => if t.sys.place.intr = true ∧ t.pic.request = none then t.take gone else none

def IrqSystem.run (L : Layout) (t : IrqSystem) : List IrqEvent → Option IrqSystem
  | [] => some t
  | e :: events => (t.step L e).bind fun t => t.run L events

-- ---------------------------------------------------------------------------
-- Only the timer
-- ---------------------------------------------------------------------------

/-- The controller after `init_int_controller`. -/
def enabledPics : Pair :=
  ⟨⟨0#8, 0#8, 0xfe#8, 32#8, 4#8, .mask, false⟩, ⟨0#8, 0#8, 0xff#8, 40#8, 2#8, .mask, false⟩⟩

theorem initIntController_done (p : Pair) : initIntController p = some enabledPics := by
  have hset := picSetMask_ready (p := ⟨⟨0#8, 0#8, 0#8, 32#8 &&& 0xf8#8, 4#8, .mask, false⟩,
    ⟨0#8, 0#8, 0#8, (32#8 + 8#8) &&& 0xf8#8, 2#8, .mask, false⟩⟩) (~~~IRQS_TO_ENABLE) ⟨rfl, rfl⟩
  rw [initIntController, picInit_done]
  exact hset

/-- Nothing is in service, and all lines but that of the timer are masked. -/
structure TimerOnly (p : Pair) : Prop where
  master : control p.master = control enabledPics.master
  slave  : control p.slave = control enabledPics.slave

variable {t t' : IrqSystem} {p : Pair} {L : Layout} {gone : BitVec 8}

namespace TimerOnly

theorem masterImr (h : TimerOnly p) : p.master.imr = 0xfe#8 := congrArg Chip.imr h.master

theorem masterIsr (h : TimerOnly p) : p.master.isr = 0#8 := congrArg Chip.isr h.master

theorem ready (h : TimerOnly p) : p.master.expects = .mask := congrArg Chip.expects h.master

theorem vector (h : TimerOnly p) (i : Fin 8) : p.master.vector i = 32#8 ||| BitVec.ofNat 8 i.val := by
  have hbase : p.master.base = 32#8 := congrArg Chip.base h.master
  rw [Chip.vector, hbase]

/-- No other request is passed on. -/
theorem request_eq (h : TimerOnly p) {i : Fin 8} (hreq : p.request = some i) : i = 0 := by
  have himr : p.master.imr.getLsbD i = false := (Chip.pending_spec hreq).2.1
  have hall : ∀ i : Fin 8, (0xfe#8).getLsbD i = false → i = 0 := by decide
  rw [h.masterImr] at himr
  exact hall i himr

/-- The line of the timer does not depend on the slave. -/
theorem masterIn_irr (p : Pair) : p.masterIn.irr.getLsbD (0 : Fin 8) = p.master.irr.getLsbD (0 : Fin 8) := by
  have hline : (line CASCADE).getLsbD (0 : Fin 8) = false := by decide
  rw [Pair.masterIn]
  split
  · rw [BitVec.getLsbD_or, hline, Bool.or_false]
  · rw [BitVec.getLsbD_and, BitVec.getLsbD_not, hline]
    simp

/-- A request of the timer is always the next one. -/
theorem request_iff (h : TimerOnly p) : p.request = some 0 ↔ p.master.irr.getLsbD (0 : Fin 8) = true := by
  constructor
  · intro hreq
    rw [← masterIn_irr]
    exact (Chip.pending_spec hreq).1
  · intro hirr
    have hsome : p.masterIn.pending.isSome = true := by
      refine Chip.pending_isSome (i := 0) h.ready ((masterIn_irr p).trans hirr) ?_ fun j _ => ?_
      · change p.master.imr.getLsbD (0 : Fin 8) = false
        rw [h.masterImr]
        rfl
      · change p.master.isr.getLsbD j = false
        rw [h.masterIsr, BitVec.getLsbD_zero]
    obtain ⟨i, hi⟩ := Option.isSome_iff_exists.mp hsome
    rw [Pair.request, hi, h.request_eq hi]

theorem onChip (h : TimerOnly p) (slave : Bool) {f : Chip → Chip} (hf : ∀ c, control (f c) = control c) :
    TimerOnly (onChip p slave f) := by
  cases slave
  · exact ⟨(hf _).trans h.master, h.slave⟩
  · exact ⟨h.master, (hf _).trans h.slave⟩

/-- The timer's interrupt is acknowledged and ended. -/
theorem served (h : TimerOnly p) : TimerOnly ⟨(p.masterIn.serve 0).endLine 0, p.slave⟩ := by
  have hfree : p.master.isr.getLsbD (0 : Fin 8) = false := by
    rw [h.masterIsr]
    rfl
  exact ⟨(control_served (c := p.master) hfree).trans h.master, h.slave⟩

end TimerOnly

-- ---------------------------------------------------------------------------
-- Steps
-- ---------------------------------------------------------------------------

/-- After an interrupt of the timer. -/
def IrqSystem.timed (t : IrqSystem) : IrqSystem where
  sys    := t.sys.handleIrq
  pic    := ⟨(t.pic.masterIn.serve HIGHEST).endLine HIGHEST, t.pic.slave⟩
  irqCts := Function.update t.irqCts 0 (t.irqCts 0 + 1#64)

theorem IrqSystem.timed_irqCts_self (t : IrqSystem) : t.timed.irqCts 0 = t.irqCts 0 + 1#64 := by
  simp [IrqSystem.timed]

theorem IrqSystem.timed_irqCts_ne (t : IrqSystem) {irq : Fin 16} (hirq : irq ≠ 0) :
    t.timed.irqCts irq = t.irqCts irq := by
  simp [IrqSystem.timed, hirq]

/-- With a request, it is the timer that is handled. -/
theorem take_timer (h : TimerOnly t.pic) (hreq : t.pic.request.isSome = true) (gone : BitVec 8) :
    t.take gone = some t.timed := by
  obtain ⟨i, hi⟩ := Option.isSome_iff_exists.mp hreq
  obtain rfl := h.request_eq hi
  have hack := Pair.ack_line gone hi (by decide)
  rw [h.vector] at hack
  have heoi := picSendEoi_master ⟨t.pic.masterIn.serve 0, t.pic.slave⟩ 0
  have hcount : ∀ t : IrqSystem, t.count 0#8 =
      some { t with irqCts := Function.update t.irqCts 0 (t.irqCts 0 + 1#64) } := fun _ => rfl
  have hvec : handledAs (32#8 ||| BitVec.ofNat 8 (0 : Fin 8).val) = 32#8 := by decide
  have hirq : 32#8 - 32#8 = 0#8 := by decide
  rw [IrqSystem.take, hack, IrqSystem.interruptDispatch, hvec, if_neg (by decide), if_pos (by decide),
    IrqSystem.handleIrq]
  simp only [hirq, hcount, Option.bind_eq_bind, Option.bind_some]
  exact (congrArg (Option.bind · _) heoi).trans rfl

/-- Without one, what is handled is a protection fault. -/
theorem take_spurious (h : TimerOnly t.pic) (hreq : t.pic.request = none) (gone : BitVec 8) :
    t.take gone = some { t with sys := t.sys.handleException } := by
  have hvec : handledAs (32#8 ||| BitVec.ofNat 8 LOWEST.val) = 13#8 := by decide
  rw [IrqSystem.take, Pair.ack_none gone hreq, h.vector, hvec]
  exact if_pos (by decide)

section Counts

variable {s s' : System}

theorem System.irqCt_land (s : System) (intr : Bool) (r : Ctl × Sched) : (s.land intr r).irqCt = s.irqCt := by
  obtain ⟨ctl, sched⟩ := r
  cases ctl with
  | start shell p =>
    rw [System.land]
    split <;> rfl
  | _ => rfl

theorem System.irqCt_handleException (s : System) : s.handleException.irqCt = s.irqCt := by
  rw [System.handleException, System.kernelNoreturn]
  cases s.sched.currentProcess <;> rfl

/-- Only the timer is counted. -/
theorem System.irqCt_step {e : Event} (he : e ≠ .timer) (h : s.step L e = some s') : s'.irqCt = s.irqCt := by
  unfold System.step at h
  split at h
  -- a command
  · split at h <;> cases h <;> rfl
  · cases h
    rfl
  · split at h
    · cases h
      rfl
    · cases h
  · cases h
    exact System.irqCt_land ..
  -- system calls
  · split at h
    · cases h
      exact System.irqCt_land ..
    · cases h
  · cases h
    exact System.irqCt_land ..
  · cases h
    exact System.irqCt_land ..
  · cases h
    exact System.irqCt_land ..
  · cases h
    exact System.irqCt_land ..
  · obtain ⟨p, -, rfl⟩ := Option.map_eq_some_iff.mp h
    rfl
  -- exceptions
  · cases h
    exact System.irqCt_handleException s
  · cases h
    exact System.irqCt_handleException s
  · cases h
    exact System.irqCt_handleException s
  · cases h
    exact System.irqCt_handleException s
  · exact absurd rfl he
  · cases h

end Counts

/-- The interrupts with a request. -/
def IrqEvent.isIntr : IrqEvent → Bool
  | .intr _ => true
  | _ => false

def IrqEvent.isSpurious : IrqEvent → Bool
  | .spurious _ => true
  | _ => false

/-- What the kernel makes of an event. -/
def IrqEvent.toKernel : IrqEvent → Option Event
  | .kernel e => some e
  | .intr _ => some .timer
  | _ => none

/-- After `n` interrupts with a request. -/
structure IrqSystem.Inv (t : IrqSystem) (n : Nat) : Prop where
  pic    : TimerOnly t.pic
  others : ∀ irq, irq ≠ 0 → t.irqCts irq = 0#64
  timer  : t.irqCts 0 = BitVec.ofNat 64 n
  kernel : t.sys.irqCt = t.irqCts 0

/-- A step of the kernel is not one of the timer. -/
theorem step_kernel {e : Event} (h : t.step L (.kernel e) = some t') :
    e ≠ .timer ∧ ∃ s, t.sys.step L e = some s ∧ t' = { t with sys := s } := by
  have hne : e ≠ .timer := by
    rintro rfl
    cases h
  have hstep : t.step L (.kernel e) = (t.sys.step L e).map fun s => { t with sys := s } := by
    cases e <;> first | exact absurd rfl hne | rfl
  rw [hstep] at h
  obtain ⟨s, hs, rfl⟩ := Option.map_eq_some_iff.mp h
  exact ⟨hne, s, hs, rfl⟩

theorem step_intr (h : TimerOnly t.pic) (hstep : t.step L (.intr gone) = some t') :
    t.sys.place.intr = true ∧ t' = t.timed := by
  simp only [IrqSystem.step] at hstep
  split at hstep
  next hon =>
    rw [take_timer h hon.2] at hstep
    exact ⟨hon.1, (Option.some_inj.mp hstep).symm⟩
  next => cases hstep

theorem step_spurious (h : TimerOnly t.pic) (hstep : t.step L (.spurious gone) = some t') :
    t' = { t with sys := t.sys.handleException } := by
  simp only [IrqSystem.step] at hstep
  split at hstep
  next hon =>
    rw [take_spurious h hon.2] at hstep
    exact (Option.some_inj.mp hstep).symm
  next => cases hstep

namespace IrqSystem.Inv

variable {n : Nat}

theorem step (h : t.Inv n) {e : IrqEvent} (hstep : t.step L e = some t') :
    t'.Inv (n + if e.isIntr then 1 else 0) := by
  cases e with
  | kernel e =>
    obtain ⟨hne, s, hs, rfl⟩ := step_kernel hstep
    exact ⟨h.pic, h.others, h.timer, (System.irqCt_step hne hs).trans h.kernel⟩
  | raise slave line =>
    cases hstep
    exact ⟨h.pic.onChip (f := (·.raise line)) slave fun _ => rfl, h.others, h.timer, h.kernel⟩
  | lower slave line =>
    cases hstep
    exact ⟨h.pic.onChip (f := (·.lower line)) slave fun _ => rfl, h.others, h.timer, h.kernel⟩
  | intr gone =>
    obtain ⟨-, rfl⟩ := step_intr h.pic hstep
    have hct : t.timed.sys.irqCt = t.sys.irqCt + 1#64 := System.irqCt_land ..
    refine ⟨h.pic.served, fun irq hirq => ?_, ?_, ?_⟩
    · rw [IrqSystem.timed_irqCts_ne t hirq]
      exact h.others irq hirq
    · rw [IrqSystem.timed_irqCts_self, h.timer, IrqEvent.isIntr, if_pos rfl, BitVec.ofNat_add]
    · rw [IrqSystem.timed_irqCts_self, hct, h.kernel]
  | spurious gone =>
    obtain rfl := step_spurious h.pic hstep
    exact ⟨h.pic, h.others, h.timer, (System.irqCt_handleException t.sys).trans h.kernel⟩

theorem run (h : t.Inv n) {events : List IrqEvent} (hrun : t.run L events = some t') :
    t'.Inv (n + events.countP (·.isIntr)) := by
  induction events generalizing t n with
  | nil =>
    cases hrun
    exact h
  | cons e events ih =>
    obtain ⟨t₁, hstep, hrun⟩ := Option.bind_eq_some_iff.mp hrun
    rw [List.countP_cons, Nat.add_comm (events.countP _), ← Nat.add_assoc]
    exact ih (h.step hstep) hrun

end IrqSystem.Inv

theorem IrqSystem.boot_eq (stray : BitVec 32) (p : Pair) :
    IrqSystem.boot stray p = some ⟨.boot stray, enabledPics, fun _ => 0#64⟩ := by
  rw [IrqSystem.boot, initIntController_done]
  rfl

theorem IrqSystem.boot_inv (stray : BitVec 32) :
    (⟨.boot stray, enabledPics, fun _ => 0#64⟩ : IrqSystem).Inv 0 :=
  ⟨⟨rfl, rfl⟩, fun _ _ => rfl, rfl, rfl⟩

-- ---------------------------------------------------------------------------
-- Runs
-- ---------------------------------------------------------------------------

/-- **Nothing but the timer**, in whatever state the firmware has left the controller, whatever devices
ask for an interrupt, and whatever the kernel does: nothing stays in service, no other interrupt is
ever counted, the timer is counted once for each interrupt, and its request, once it is there, is
the next one. If a request has gone when it is acknowledged, what is handled is an exception. -/
theorem irqRuns_timer {stray : BitVec 32} {t₀ : IrqSystem} {events : List IrqEvent}
    (hboot : IrqSystem.boot stray p = some t₀) (hrun : t₀.run L events = some t) :
    t.Inv (events.countP (·.isIntr)) ∧
      (t.pic.request = some 0 ↔ t.pic.master.irr.getLsbD (0 : Fin 8) = true) ∧
      (∀ e t', t.step L e = some t' → e.isIntr = true → t'.sys = t.sys.handleIrq) ∧
      ∀ e t', t.step L e = some t' → e.isSpurious = true → t' = { t with sys := t.sys.handleException } := by
  rw [IrqSystem.boot_eq] at hboot
  cases hboot
  have hinv := (IrqSystem.boot_inv stray).run hrun
  rw [Nat.zero_add] at hinv
  refine ⟨hinv, hinv.pic.request_iff, fun e t' hstep he => ?_, fun e t' hstep he => ?_⟩
  · cases e with
    | intr gone =>
      obtain ⟨-, rfl⟩ := step_intr hinv.pic hstep
      rfl
    | _ => cases he
  · cases e with
    | spurious gone => exact step_spurious hinv.pic hstep
    | _ => cases he

/-- The first interrupt of the timer. -/
theorem irqRuns_timer_first :
    ∃ t, (⟨.boot 0#32, enabledPics, fun _ => 0#64⟩ : IrqSystem).run lowLayout
      [.raise false 0, .intr 0#8] = some t ∧ t.irqCts 0 = 1#64 ∧ t.irqCts 7 = 0#64 := by
  obtain ⟨t, hrun⟩ := Option.isSome_iff_exists.mp (by decide +kernel :
    ((⟨.boot 0#32, enabledPics, fun _ => 0#64⟩ : IrqSystem).run lowLayout
      [.raise false 0, .intr 0#8]).isSome = true)
  obtain ⟨hinv, -⟩ := irqRuns_timer (IrqSystem.boot_eq 0#32 examplePics) hrun
  exact ⟨t, hrun, hinv.timer, hinv.others 7 (by decide)⟩

/-- What a run does to the kernel, if no request is lost. -/
theorem IrqSystem.Inv.run_kernel {n : Nat} (h : t.Inv n) {events : List IrqEvent}
    (hlost : ∀ e ∈ events, e.isSpurious = false) (hrun : t.run L events = some t') :
    t.sys.run L (events.filterMap (·.toKernel)) = some t'.sys := by
  induction events generalizing t n with
  | nil =>
    cases hrun
    rfl
  | cons e events ih =>
    obtain ⟨t₁, hstep, hrun⟩ := Option.bind_eq_some_iff.mp hrun
    have htail := ih (h.step hstep) (fun e he => hlost e (List.mem_cons_of_mem _ he)) hrun
    cases e with
    | kernel e =>
      obtain ⟨-, s, hs, rfl⟩ := step_kernel hstep
      exact Option.bind_eq_some_iff.mpr ⟨s, hs, htail⟩
    | raise slave line =>
      cases hstep
      exact htail
    | lower slave line =>
      cases hstep
      exact htail
    | intr gone =>
      obtain ⟨hintr, rfl⟩ := step_intr h.pic hstep
      have htimer : t.sys.step L .timer = some t.sys.handleIrq := if_pos hintr
      exact Option.bind_eq_some_iff.mpr ⟨_, htimer, htail⟩
    | spurious gone => cases hlost _ List.mem_cons_self

theorem IrqSystem.run_append (t : IrqSystem) (as bs : List IrqEvent) :
    t.run L (as ++ bs) = (t.run L as).bind fun t => t.run L bs := by
  induction as generalizing t with
  | nil => rfl
  | cons e as ih =>
    simp only [List.cons_append, IrqSystem.run, Option.bind_assoc]
    exact congrArg _ (funext fun t => ih t)

/-- A step of the kernel, from the outside. -/
theorem IrqSystem.Inv.realize {n : Nat} (h : t.Inv n) {e : Event} {s : System} (hs : t.sys.step L e = some s) :
    ∃ events t', (∀ e ∈ events, IrqEvent.isSpurious e = false) ∧ t.run L events = some t' ∧
      events.filterMap (·.toKernel) = [e] ∧ t'.sys = s := by
  by_cases he : e = .timer
  · subst he
    have hintr : t.sys.place.intr = true := by
      by_contra hoff
      rw [show t.sys.step L .timer = none from if_neg hoff] at hs
      cases hs
    have hsys : s = t.sys.handleIrq := by
      rw [show t.sys.step L .timer = some t.sys.handleIrq from if_pos hintr] at hs
      exact (Option.some_inj.mp hs).symm
    -- the timer asks for it
    set t₁ : IrqSystem := { t with pic := Munix.onChip t.pic false (·.raise 0) } with ht₁
    have hpic : TimerOnly t₁.pic := h.pic.onChip (f := (·.raise 0)) false fun _ => rfl
    have hreq : t₁.pic.request.isSome = true := by
      refine Option.isSome_iff_exists.mpr ⟨0, hpic.request_iff.mpr ?_⟩
      change (t.pic.master.irr ||| line 0).getLsbD (0 : Fin 8) = true
      rw [BitVec.getLsbD_or, getLsbD_line, decide_eq_true rfl, Bool.or_true]
    have hstep : t₁.step L (.intr 0#8) = t₁.take 0#8 := if_pos ⟨hintr, hreq⟩
    rw [take_timer hpic hreq] at hstep
    refine ⟨[.raise false 0, .intr 0#8], t₁.timed, fun e he => ?_, ?_, rfl, hsys.symm⟩
    · simp only [List.mem_cons, List.not_mem_nil, or_false] at he
      rcases he with rfl | rfl <;> rfl
    · exact Option.bind_eq_some_iff.mpr ⟨t₁, rfl, Option.bind_eq_some_iff.mpr ⟨_, hstep, rfl⟩⟩
  · refine ⟨[.kernel e], { t with sys := s }, fun _ h => ?_, ?_, rfl, rfl⟩
    · rw [List.mem_singleton.mp h]
      rfl
    · have hstep : t.step L (.kernel e) = (t.sys.step L e).map fun s => { t with sys := s } := by
        cases e <;> first | exact absurd rfl he | rfl
      rw [hs] at hstep
      exact Option.bind_eq_some_iff.mpr ⟨_, hstep, rfl⟩

theorem IrqSystem.Inv.realize_run {n : Nat} (h : t.Inv n) {es : List Event} {s : System}
    (hs : t.sys.run L es = some s) :
    ∃ events t', (∀ e ∈ events, IrqEvent.isSpurious e = false) ∧ t.run L events = some t' ∧
      events.filterMap (·.toKernel) = es ∧ t'.sys = s := by
  induction es generalizing t n with
  | nil =>
    cases hs
    exact ⟨[], t, nofun, rfl, rfl, rfl⟩
  | cons e es ih =>
    obtain ⟨s₁, hstep, hs⟩ := Option.bind_eq_some_iff.mp hs
    obtain ⟨as, t₁, hlost, hrun, has, rfl⟩ := h.realize hstep
    obtain ⟨bs, t₂, hlost', hrun', hbs, rfl⟩ := ih (h.run hrun) hs
    refine ⟨as ++ bs, t₂, fun e he => ?_, ?_, ?_, rfl⟩
    · exact (List.mem_append.mp he).elim (hlost e) (hlost' e)
    · rw [IrqSystem.run_append, hrun]
      exact hrun'
    · rw [List.filterMap_append, has, hbs]
      rfl

/-- **The kernel does not see the controller**: as long as no request is lost, its runs behind the
controller are exactly the runs in which the timer comes at any time that interrupts are enabled. -/
theorem irqRuns_refines (stray : BitVec 32) (p : Pair) (L : Layout) :
    ∃ t₀, IrqSystem.boot stray p = some t₀ ∧ ∀ (es : List Event) (s : System),
      (System.boot stray).run L es = some s ↔
        ∃ events t, (∀ e ∈ events, IrqEvent.isSpurious e = false) ∧ t₀.run L events = some t ∧
          events.filterMap (·.toKernel) = es ∧ t.sys = s := by
  refine ⟨_, IrqSystem.boot_eq stray p, fun es s => ⟨(IrqSystem.boot_inv stray).realize_run, ?_⟩⟩
  rintro ⟨events, t, hlost, hrun, rfl, rfl⟩
  exact (IrqSystem.boot_inv stray).run_kernel hlost hrun

-- ---------------------------------------------------------------------------
-- User code
-- ---------------------------------------------------------------------------

/-- **Where an interrupt goes.** When user code is interrupted, in any run, the handler of the timer is
started, or, if the request has gone, that of protection faults, which kills the process. -/
theorem ack_enters {stray : BitVec 32} {t₀ : IrqSystem} {events : List IrqEvent}
    (hboot : IrqSystem.boot stray p = some t₀) (hrun : t₀.run L events = some t) {I : GateImage}
    {kstack : Addr} {c : Cpu} (h : Installed I kstack c) (hcpl : c.cpl = PL_USER) (gone : BitVec 8) :
    c.settle (deliver c (t.pic.ack gone).1.toNat false none) =
      if t.pic.request.isSome = true then some (kernelEntry c kstack (I.isr isrIrq0) none)
      else some (kernelEntry c kstack (I.isr isr13) (some 0x13b#32)) := by
  rw [IrqSystem.boot_eq] at hboot
  cases hboot
  have hpic := ((IrqSystem.boot_inv stray).run hrun).pic
  cases hreq : t.pic.request with
  | none =>
    rw [Pair.ack_none gone hreq, hpic.vector, if_neg (by decide)]
    have hvec : (32#8 ||| BitVec.ofNat 8 LOWEST.val).toNat = 39 := by decide
    have hgate : I.gate 39 = none := rfl
    have hfault := @Installed.deliver_refused I kstack c 39 false none h hcpl fun g hg => by
      rw [hgate] at hg
      cases hg
    have hgate13 : I.gate 13 = some (I.isr isr13, PL_KERNEL) := rfl
    have hcode : BitVec.ofNat 32 (8 * 39 + 2) ||| (if false = true then 0#32 else 1#32) = 0x13b#32 := by decide
    rw [hvec, hfault, hcode]
    have henter := @Installed.deliver_gate I kstack c 13 false (some 0x13b#32) h hcpl _ _ hgate13
      Bool.false_ne_true.elim
    rw [Cpu.settle, Cpu.except, henter]
    rfl
  | some i =>
    obtain rfl := hpic.request_eq hreq
    rw [Pair.ack_line gone hreq (by decide), hpic.vector, if_pos Option.isSome_some]
    have hvec : (32#8 ||| BitVec.ofNat 8 (0 : Fin 8).val).toNat = 32 := by decide
    have hgate : I.gate 32 = some (I.isr isrIrq0, PL_KERNEL) := rfl
    rw [hvec, h.deliver_gate hcpl hgate Bool.false_ne_true.elim]
    rfl

/-- A request of the timer that is lost. -/
theorem ack_enters_lost :
    ∃ (t : IrqSystem) (c e : Cpu), c.cpl = PL_USER ∧
      c.settle (deliver c (t.pic.ack 0#8).1.toNat false none) = some e ∧ e.eip = exampleImage.isr isr13 := by
  have hboot := IrqSystem.boot_eq 0#32 examplePics
  obtain ⟨t, hrun⟩ := Option.isSome_iff_exists.mp (by decide +kernel :
    ((⟨.boot 0#32, enabledPics, fun _ => 0#64⟩ : IrqSystem).run lowLayout
      [.raise false 0, .lower false 0]).isSome = true)
  have hreq : t.pic.request = none := by
    cases hrun
    decide
  have hinst : Installed exampleImage 0x300000#32 (exampleUser exampleMem 0x400000#32 0x500000#32) :=
    exampleUser_installed (fun _ _ => rfl) _ _
  have henter := ack_enters hboot hrun hinst rfl 0#8
  rw [hreq] at henter
  exact ⟨t, _, _, rfl, henter, rfl⟩

end Munix
