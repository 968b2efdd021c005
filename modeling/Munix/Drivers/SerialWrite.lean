import Mathlib.Data.List.TakeWhile
import Munix.Drivers.TtyLine
import Munix.Drivers.Vprintf

/-!
# Munix — what goes out on a serial port

`serial_write` with the polls of its transmitter, and the writes that end in it.

* `serialWriteTimed_eq` — however long the transmitter takes, if it becomes ready again
  and again the write ends, as it does in the model without the wait.
* `serialWrite_eq_sends` — the bytes that go out end with the first one from `0x80` on.
* `serialWrite_sends_iff` — a write is complete exactly when there is no such byte.
-/

namespace Munix

open ByteMem

-- ---------------------------------------------------------------------------
-- Waiting for the transmitter
-- ---------------------------------------------------------------------------

section Wait

-- which polls of the line status find `LS_THRE` set
variable (thre : Nat → Bool)

/-- `while (!check_linestat(s, LS_THRE));` from poll number `t` on, for at most `fuel`
polls: the number of the next poll. -/
def waitThre : Nat → Nat → Option Nat
  | 0, _ => none
  | fuel + 1, t => if thre t then some (t + 1) else waitThre fuel (t + 1)

/-- `serial_writech(s, ch)` with its wait. -/
def serialWritechTimed (fuel t : Nat) (s : Serial) (ch : Byte) : Option (Nat × Int × Serial) :=
  (waitThre thre fuel t).map fun t => (t, serialWritech s ch)

/-- The inner loop of `serial_write`. -/
def serialWriteCharsTimed (fuel : Nat) : Nat → List Byte → Serial → Option (Nat × Int × Serial)
  | t, [], s => some (t, 0, s)
  | t, ch :: out, s =>
    (serialWritechTimed thre fuel t s ch).bind fun (t, res, s) =>
      if res < 0 then some (t, res, s) else serialWriteCharsTimed fuel t out s

/-- The outer loop of `serial_write`. -/
def serialWriteLoopTimed (fuel : Nat) : Nat → List Byte → Serial → Option (Nat × Int × Serial)
  | t, [], s => some (t, 0, s)
  | t, ch :: src, s =>
    (serialWriteCharsTimed thre fuel t (ofilter s.flags ch) s).bind fun (t, res, s) =>
      if res < 0 then some (t, res, s) else serialWriteLoopTimed fuel t src s

/-- `serial_write(f, src, count, off)`, from poll number `t` on, where each wait takes at
most `fuel` polls. -/
def serialWriteTimed (fuel t : Nat) (s : Serial) (src : List Byte) : Option (Nat × Int × Serial) :=
  (serialWriteLoopTimed thre fuel t src s).map fun (t, res, s) =>
    (t, if res < 0 then (res, s) else ((BitVec.ofNat 32 src.length).toInt, s))

variable {thre}

/-- The transmitter becomes ready again and again. -/
def EventuallyReady (thre : Nat → Bool) : Prop := ∀ t, ∃ k, thre (t + k) = true

theorem waitThre_of_ready {k : Nat} {t : Nat} (h : thre (t + k) = true) :
    ∃ t', ∀ fuel, k < fuel → waitThre thre fuel t = some t' := by
  have hnow : ∀ {t k fuel : Nat}, thre t = true → k < fuel → waitThre thre fuel t = some (t + 1) := by
    intro t k fuel ht hfuel
    cases fuel with
    | zero => omega
    | succ fuel => rw [waitThre, if_pos ht]
  induction k generalizing t with
  | zero => exact ⟨t + 1, fun fuel hfuel => hnow h hfuel⟩
  | succ k ih =>
    by_cases ht : thre t = true
    · exact ⟨t + 1, fun fuel hfuel => hnow ht hfuel⟩
    · obtain ⟨t', hwait⟩ := ih (t := t + 1) (by rwa [Nat.add_right_comm, Nat.add_assoc])
      refine ⟨t', fun fuel hfuel => ?_⟩
      cases fuel with
      | zero => omega
      | succ fuel =>
        rw [waitThre, if_neg ht]
        exact hwait fuel (by omega)

/-- A timed computation ends, with every large bound on the waits, in a result. -/
def EndsIn {α : Type} (f : Nat → Option (Nat × α)) (a : α) : Prop :=
  ∃ t' N, ∀ fuel, N < fuel → f fuel = some (t', a)

theorem EndsIn.bind {α β : Type} {f : Nat → Option (Nat × α)} {a : α} (h : EndsIn f a)
    {g : Nat → Nat × α → Option (Nat × β)} {b : β} (hg : ∀ t, EndsIn (fun fuel => g fuel (t, a)) b) :
    EndsIn (fun fuel => (f fuel).bind (g fuel)) b := by
  obtain ⟨t', N, hf⟩ := h
  obtain ⟨t'', N', hg⟩ := hg t'
  refine ⟨t'', max N N', fun fuel hfuel => ?_⟩
  dsimp only
  rw [hf fuel (lt_of_le_of_lt (Nat.le_max_left _ _) hfuel), Option.bind_some]
  exact hg fuel (lt_of_le_of_lt (Nat.le_max_right _ _) hfuel)

theorem EndsIn.map {α β : Type} {f : Nat → Option (Nat × α)} {a : α} (h : EndsIn f a) (g : α → β) :
    EndsIn (fun fuel => (f fuel).map fun r => (r.1, g r.2)) (g a) := by
  obtain ⟨t', N, hf⟩ := h
  refine ⟨t', N, fun fuel hfuel => ?_⟩
  dsimp only
  rw [hf fuel hfuel, Option.map_some]

theorem EndsIn.unique {α : Type} {f : Nat → Option (Nat × α)} {a b : α} (h : EndsIn f a)
    (h' : EndsIn f b) : a = b := by
  obtain ⟨t, N, hf⟩ := h
  obtain ⟨t', N', hf'⟩ := h'
  have hsome := hf (max N N' + 1) (Nat.lt_succ_of_le (Nat.le_max_left _ _))
  rw [hf' (max N N' + 1) (Nat.lt_succ_of_le (Nat.le_max_right _ _))] at hsome
  exact (congrArg Prod.snd (Option.some.inj hsome)).symm

theorem EndsIn.pure {α : Type} (t : Nat) (a : α) : EndsIn (fun _ => some (t, a)) a :=
  ⟨t, 0, fun _ _ => rfl⟩

theorem serialWritechTimed_eq (hready : EventuallyReady thre) (t : Nat) (s : Serial) (ch : Byte) :
    EndsIn (fun fuel => serialWritechTimed thre fuel t s ch) (serialWritech s ch) := by
  obtain ⟨k, hk⟩ := hready t
  obtain ⟨t', hwait⟩ := waitThre_of_ready hk
  refine ⟨t', k, fun fuel hfuel => ?_⟩
  dsimp only [serialWritechTimed]
  rw [hwait fuel hfuel, Option.map_some]

theorem serialWriteCharsTimed_eq (hready : EventuallyReady thre) (out : List Byte) (t : Nat) (s : Serial) :
    EndsIn (fun fuel => serialWriteCharsTimed thre fuel t out s) (serialWriteChars out s) := by
  induction out generalizing t s with
  | nil => exact EndsIn.pure t _
  | cons ch out ih =>
    refine (serialWritechTimed_eq hready t s ch).bind fun t' => ?_
    rw [serialWriteChars]
    dsimp only
    split
    next hneg => simpa only [hneg, if_true] using EndsIn.pure t' _
    next hneg => simpa only [hneg, if_false] using ih t' _

theorem serialWriteLoopTimed_eq (hready : EventuallyReady thre) (src : List Byte) (t : Nat) (s : Serial) :
    EndsIn (fun fuel => serialWriteLoopTimed thre fuel t src s) (serialWriteLoop src s) := by
  induction src generalizing t s with
  | nil => exact EndsIn.pure t _
  | cons ch src ih =>
    refine (serialWriteCharsTimed_eq hready (ofilter s.flags ch) t s).bind fun t' => ?_
    rw [serialWriteLoop]
    dsimp only
    split
    next hneg => simpa only [hneg, if_true] using EndsIn.pure t' _
    next hneg => simpa only [hneg, if_false] using ih t' _

/-- **The wait changes nothing but the time.** -/
theorem serialWriteTimed_eq (hready : EventuallyReady thre) (t : Nat) (s : Serial) (src : List Byte) :
    EndsIn (fun fuel => serialWriteTimed thre fuel t s src) (serialWrite s src) :=
  (serialWriteLoopTimed_eq hready src t s).map fun r =>
    if r.1 < 0 then (r.1, r.2) else ((BitVec.ofNat 32 src.length).toInt, r.2)

end Wait

-- ---------------------------------------------------------------------------
-- What goes out
-- ---------------------------------------------------------------------------

/-- A string with CR LF for each newline, if this is turned on. -/
def expandNewlines (on : Bool) (src : List Byte) : List Byte :=
  src.flatMap fun ch => if on && ch = byte '\n' then [byte '\r', byte '\n'] else [ch]

/-- `SRL_OCRNL` is set. -/
def Serial.ocrnl (s : Serial) : Bool := s.flags &&& SRL_OCRNL != 0#32

/-- The port after some output. -/
def Serial.send (s : Serial) (out : List Byte) : Serial := { s with output := s.output ++ out }

/-- A byte that is not negative as a `char`. -/
def isAscii (ch : Byte) : Bool := ch < 0x80#8

theorem expandNewlines_cons (on : Bool) (ch : Byte) (src : List Byte) :
    expandNewlines on (ch :: src) = expandNewlines on [ch] ++ expandNewlines on src := by
  simp [expandNewlines]

theorem ofilter_eq (s : Serial) (ch : Byte) : ofilter s.flags ch = expandNewlines s.ocrnl [ch] := by
  unfold ofilter expandNewlines Serial.ocrnl
  by_cases hflag : s.flags &&& SRL_OCRNL = 0#32
  · simp [hflag]
  · by_cases hch : ch = byte '\n'
    · simp [hflag, hch]
    · simp [hflag, hch]

theorem toInt_neg_iff (ch : Byte) : ch.toInt < 0 ↔ isAscii ch = false := by
  have hall : ∀ ch : Byte, ch.toInt < 0 ↔ isAscii ch = false := by decide +kernel
  exact hall ch

theorem serialWritech_eq (s : Serial) (ch : Byte) : serialWritech s ch = (ch.toInt, s.send [ch]) := rfl

/-- The characters for one byte of the string: only the byte itself can be negative. -/
theorem serialWriteChars_ofilter (s : Serial) (ch : Byte) :
    serialWriteChars (ofilter s.flags ch) s =
      (if isAscii ch then 0 else ch.toInt, s.send (expandNewlines s.ocrnl [ch])) := by
  rw [ofilter_eq]
  have hone : ∀ s : Serial, serialWriteChars [ch] s =
      (if isAscii ch then 0 else ch.toInt, s.send [ch]) := by
    intro s
    rw [serialWriteChars, serialWritech_eq]
    dsimp only
    cases hch : isAscii ch with
    | true =>
      have hpos : ¬ ch.toInt < 0 := by rw [toInt_neg_iff, hch]; decide
      rw [if_neg hpos]
      rfl
    | false => rw [if_pos ((toInt_neg_iff ch).mpr hch), if_neg Bool.false_ne_true]
  unfold expandNewlines
  rw [List.flatMap_singleton]
  split
  next hnl =>
    rw [Bool.and_eq_true, decide_eq_true_iff] at hnl
    obtain rfl : ch = byte '\n' := hnl.2
    have hcr : ¬ (byte '\r').toInt < 0 := by decide
    rw [serialWriteChars, serialWritech_eq]
    dsimp only
    rw [if_neg hcr, hone]
    simp [Serial.send]
  next => exact hone s

/-- The bytes that go out: up to the first one from `0x80` on, whose negative value is
then the result. -/
theorem serialWriteLoop_sends (src : List Byte) (s : Serial) :
    serialWriteLoop src s =
      match src.dropWhile isAscii with
      | [] => (0, s.send (expandNewlines s.ocrnl src))
      | ch :: _ => (ch.toInt, s.send (expandNewlines s.ocrnl (src.takeWhile isAscii ++ [ch]))) := by
  induction src generalizing s with
  | nil => simp [serialWriteLoop, expandNewlines, Serial.send]
  | cons ch src ih =>
    rw [serialWriteLoop, serialWriteChars_ofilter]
    dsimp only
    rw [List.dropWhile_cons, List.takeWhile_cons]
    cases hch : isAscii ch with
    | false =>
      simp only [Bool.false_eq_true, if_false, List.nil_append]
      rw [if_pos ((toInt_neg_iff ch).mpr hch)]
    | true =>
      simp only [if_true, Int.lt_irrefl, if_false, ih]
      have hsend : ∀ out, (s.send (expandNewlines s.ocrnl [ch])).send
          (expandNewlines s.ocrnl out) = s.send (expandNewlines s.ocrnl (ch :: out)) := by
        intro out
        rw [expandNewlines_cons s.ocrnl ch out]
        simp [Serial.send]
      have hflag : (s.send (expandNewlines s.ocrnl [ch])).ocrnl = s.ocrnl := rfl
      rw [hflag]
      cases src.dropWhile isAscii with
      | nil => rw [hsend]
      | cons c rest =>
        dsimp only
        rw [hsend]
        rfl

-- ---------------------------------------------------------------------------
-- Complete writes
-- ---------------------------------------------------------------------------

/-- A write has sent all of the string, and returns its length. -/
def SentWhole (s : Serial) (src : List Byte) (r : Int × Serial) : Prop :=
  r.1 = src.length ∧ r.2 = s.send (expandNewlines s.ocrnl src)

/-- The string has no byte that is negative as a `char`, and its length is an `ssize_t`. -/
def Sendable (src : List Byte) : Prop := (∀ ch ∈ src, isAscii ch = true) ∧ src.length < 2 ^ 31

theorem toInt_length {src : List Byte} (h : src.length < 2 ^ 31) :
    (BitVec.ofNat 32 src.length).toInt = src.length := by
  rw [BitVec.toInt_ofNat', Int.bmod_def]
  omega

theorem serialWrite_sentWhole_iff (s : Serial) {src : List Byte} (hlen : src.length < 2 ^ 32) :
    SentWhole s src (serialWrite s src) ↔ Sendable src := by
  rw [serialWrite, serialWriteLoop_sends]
  cases hrest : src.dropWhile isAscii with
  | nil =>
    have hall : ∀ ch ∈ src, isAscii ch = true := by
      intro ch hch
      have := List.dropWhile_eq_nil_iff.mp hrest ch hch
      exact this
    dsimp only
    rw [if_neg (Int.lt_irrefl 0)]
    refine ⟨fun h => ⟨hall, ?_⟩, fun h => ⟨toInt_length h.2, rfl⟩⟩
    have hret : (BitVec.ofNat 32 src.length).toInt = src.length := h.1
    have htop := BitVec.toInt_lt (x := BitVec.ofNat 32 src.length)
    rw [hret] at htop
    omega
  | cons ch rest =>
    have hch : isAscii ch = false := by
      have := List.head_dropWhile_not isAscii (l := src) (by simp [hrest])
      simpa [hrest] using this
    have hmem : ch ∈ src := by
      have hsuffix := List.dropWhile_suffix isAscii (l := src)
      rw [hrest] at hsuffix
      exact hsuffix.subset List.mem_cons_self
    have hneg : ch.toInt < 0 := (toInt_neg_iff ch).mpr hch
    dsimp only
    rw [if_pos hneg]
    refine iff_of_false ?_ ?_
    · rintro ⟨hret, -⟩
      have hret : ch.toInt = src.length := hret
      omega
    · rintro ⟨hall, -⟩
      rw [hall ch hmem] at hch
      cases hch

/-- `tty_write(f, src, count, off)`, on a serial port. -/
def ttyWrite (tty : Tty) (src : List Byte) : Int × Tty :=
  if src = [] then (0, tty)
  else
    let (res, portdev) := serialWrite tty.portdev src
    (res, { tty with portdev := portdev })

theorem ttyWrite_eq (tty : Tty) (src : List Byte) :
    (ttyWrite tty src).1 = (serialWrite tty.portdev src).1 ∧
      (ttyWrite tty src).2 = tty.write src := by
  unfold ttyWrite
  split
  next h =>
    subst h
    exact ⟨rfl, rfl⟩
  next => exact ⟨rfl, rfl⟩

/-- What a print leaves of a terminal that it writes to. -/
def Printed.onTty (p : Printed) (tty : Tty) : Tty :=
  p.writes.foldl (fun tty src => (ttyWrite tty src).2) tty

/-- **When output on a serial port is complete.** With a transmitter that becomes ready
again and again, `serial_write` ends and has sent the whole string, with CR LF for its
newlines if this is turned on, and returns its length, exactly when no byte of the string is
`0x80` or above (and the length is an `ssize_t`); and so `tty_write` and `file_printf` on a
terminal. -/
theorem serialWrite_sends_iff {thre : Nat → Bool} (hready : EventuallyReady thre) (t : Nat) (s : Serial)
    (src : List Byte) (hlen : src.length < 2 ^ 32) :
    ((∃ r, EndsIn (fun fuel => serialWriteTimed thre fuel t s src) r ∧ SentWhole s src r) ↔
      Sendable src) ∧
    (∀ tty : Tty, SentWhole tty.portdev src ((ttyWrite tty src).1, (ttyWrite tty src).2.portdev) ↔
      Sendable src) ∧
    ∀ (tty : Tty) (st : ArrayStack) (m : Mem) (fmt : List Byte) (va : List VaArg),
      formatText fmt va = .ok src → 1 ≤ src.length → src.length ≤ 2 ^ 31 - 2 → ∀ k, 2 ≤ k →
        ∃ p, fileVprintf (some ⟨some fun src => (ttyWrite tty src).1⟩) st.array k m fmt va = some p ∧
          (SentWhole tty.portdev src (p.res, (p.onTty tty).portdev) ↔ Sendable src) := by
  have hends := serialWriteTimed_eq hready t s src
  have htty : ∀ tty : Tty, SentWhole tty.portdev src ((ttyWrite tty src).1, (ttyWrite tty src).2.portdev) ↔
      Sendable src := by
    intro tty
    obtain ⟨hres, hdev⟩ := ttyWrite_eq tty src
    rw [hres, hdev]
    exact serialWrite_sentWhole_iff tty.portdev hlen
  refine ⟨?_, htty, ?_⟩
  · rw [← serialWrite_sentWhole_iff s hlen]
    exact ⟨fun ⟨r, hr, hsent⟩ => hends.unique hr ▸ hsent, fun hsent => ⟨_, hends, hsent⟩⟩
  · intro tty st m fmt va hfmt hne hmax k hk
    refine ⟨_, fileVprintf_text st rfl hfmt hne hmax hk m, ?_⟩
    have hwrites : (⟨twoPassCalls src, (ttyWrite tty src).1⟩ : Printed).onTty tty = (ttyWrite tty src).2 := by
      unfold Printed.onTty Printed.writes twoPassCalls
      split <;> rfl
    rw [hwrites]
    exact htty tty

/-- A newline with and without its carriage return, on a port that is always ready. -/
theorem serialWrite_sends_iff_newline :
    ∃ r, EndsIn (fun fuel => serialWriteTimed (fun _ => true) fuel 0 ⟨SRL_OCRNL, [], []⟩ (bytes "ok\n")) r ∧
      SentWhole ⟨SRL_OCRNL, [], []⟩ (bytes "ok\n") r :=
  (serialWrite_sends_iff (fun _ => ⟨0, rfl⟩) 0 ⟨SRL_OCRNL, [], []⟩ (bytes "ok\n") (by decide)).1.mpr
    ⟨by decide, by decide⟩

/-- The first byte of an UTF-8 character ends the write. -/
theorem serialWrite_drops :
    ¬ ∀ (thre : Nat → Bool), EventuallyReady thre → ∀ (t : Nat) (s : Serial) (src : List Byte),
      ∃ r, EndsIn (fun fuel => serialWriteTimed thre fuel t s src) r ∧ SentWhole s src r := by
  intro h
  have hready : EventuallyReady fun _ => true := fun _ => ⟨0, rfl⟩
  obtain ⟨r, hends, hsent, -⟩ := h _ hready 0 ⟨0#32, [], []⟩ [0xc3#8, 0xb8#8]
  rw [hends.unique (serialWriteTimed_eq hready 0 _ _)] at hsent
  exact absurd hsent (by decide)

end Munix
