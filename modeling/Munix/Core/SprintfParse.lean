import Munix.Core.Sprintf

/-!
# Munix — what the parser of conversions touches

`process_conversion` copies what it reads of the format into `spec.fmtbuf`, and
looks one character ahead. Here are these accesses, for the characters of a format
after its `%`; what the characters mean is in `Munix.Core.Sprintf`, and
`specChar_cases` says that both agree on where a specification ends.

## Results

* `parsesInBuffers_iff` — the accesses stay in bounds exactly for specifications
  that are short enough and complete.
-/

namespace Munix

-- ---------------------------------------------------------------------------
-- Accesses
-- ---------------------------------------------------------------------------

/-- The cases of the switch that go on parsing. -/
def optionChar (ch : Char) : Bool :=
  ['-', '+', ' ', '#', '0', '1', '2', '3', '4', '5', '6', '7', '8', '9', '*', '.', 'h', 'l', 'j',
    'z', 't', 'L'].contains ch

/-- The second character of a length modifier is skipped. -/
def skipsNext (ch nextchar : Char) : Bool := (ch == 'h' || ch == 'l') && nextchar == ch

/-- What the two say of a character. -/
def SpecStep.Agrees (ch nextchar : Char) : SpecStep → Prop
  | .option _ skip _ => optionChar ch = true ∧ skip = skipsNext ch nextchar
  | .conversion => optionChar ch = false
  | .undef => ch = '*'

/-- The model of the switch agrees. -/
theorem specChar_cases (ch nextchar : Char) (ps : ParseState) (args : List VaArg) :
    (specChar ch nextchar ps args).Agrees ch nextchar := by
  unfold specChar
  split
  case h_5 => split <;> exact ⟨rfl, rfl⟩
  case h_15 =>
    split
    · rfl
    · exact ⟨rfl, rfl⟩
  case h_17 =>
    split
    next h => exact ⟨rfl, by rw [h]; rfl⟩
    next h => exact ⟨rfl, by simp [skipsNext, h]⟩
  case h_18 =>
    split
    next h => exact ⟨rfl, by rw [h]; rfl⟩
    next h => exact ⟨rfl, by simp [skipsNext, h]⟩
  case h_23 => simp_all [SpecStep.Agrees, optionChar]
  all_goals exact ⟨rfl, rfl⟩

/-- A memory access of the parser: `spec.fmtbuf[i]`, or the `i`th character of the
format, counted from the `%`. -/
inductive Access where
  | store (i : Nat)
  | read (i : Nat)
deriving DecidableEq

/-- One round of the loop: consume a character, copy it, peek at the next one. -/
def roundAccesses (pos f : Nat) : List Access := [.read pos, .store f, .read (pos + 1)]

/-- The loop, with the index `pos` of the next character and the index `f` in
`fmtbuf`; `skip` says that the next character has been skipped. -/
def loopAccesses (pos f : Nat) : Bool → List Byte → List Access
  | _, [] => roundAccesses pos f
  | true, _ :: fmt => loopAccesses (pos + 1) f false fmt
  | false, b :: fmt =>
    roundAccesses pos f ++
      if optionChar (toChar b) then
        loopAccesses (pos + 1) (f + 1) (skipsNext (toChar b) (toChar (fmt.headD 0#8))) fmt
      else []

/-- The accesses of `process_conversion`, with `fmt` after the `%`. -/
def parseAccesses (fmt : List Byte) : List Access :=
  [.read 0, .store 0] ++ loopAccesses 1 1 false fmt

/-- In `fmtbuf`, or in the format with its terminator. -/
def Access.InBounds (fmt : List Byte) : Access → Prop
  | .store i => i < FMTCPYSZ
  | .read i => i ≤ fmt.length + 1

def ParsesInBuffers (fmt : List Byte) : Prop := ∀ a ∈ parseAccesses fmt, a.InBounds fmt

-- ---------------------------------------------------------------------------
-- Specifications
-- ---------------------------------------------------------------------------

/-- How many of the options of a specification are copied: all but the second
characters of length modifiers. -/
def copied : Bool → List Byte → Nat
  | _, [] => 0
  | true, _ :: opts => copied false opts
  | false, b :: opts => copied (skipsNext (toChar b) (toChar (opts.headD 0#8))) opts + 1

/-- A specification that is complete, and not longer than `fmtbuf`: the `%`, the
options and a character that ends it. -/
def FitsFmtbuf (fmt : List Byte) : Prop :=
  ∃ opts c rest, fmt = opts ++ c :: rest ∧ (∀ b ∈ opts, optionChar (toChar b) = true) ∧
    optionChar (toChar c) = false ∧ copied false opts + 2 ≤ FMTCPYSZ

/-- What is left of a specification, with `f` characters copied. -/
def LoopFits (f : Nat) (skip : Bool) (fmt : List Byte) : Prop :=
  ∃ opts c rest, fmt = opts ++ c :: rest ∧ (∀ b ∈ opts, optionChar (toChar b) = true) ∧
    optionChar (toChar c) = false ∧ f + copied skip opts < FMTCPYSZ

theorem not_loopFits_nil (f : Nat) (skip : Bool) : ¬ LoopFits f skip [] := by
  rintro ⟨opts, c, rest, hfmt, -⟩
  simp at hfmt

/-- The character that ends the specification. -/
theorem loopFits_conversion {f : Nat} {b : Byte} {fmt : List Byte}
    (hb : optionChar (toChar b) = false) : LoopFits f false (b :: fmt) ↔ f < FMTCPYSZ := by
  constructor
  · rintro ⟨opts, c, rest, hfmt, hopts, hc, hlen⟩
    omega
  · intro hf
    exact ⟨[], b, fmt, rfl, by simp, hb, hf⟩

/-- An option, copied or skipped. -/
theorem loopFits_option {f : Nat} {skip : Bool} {b : Byte} {fmt : List Byte}
    (hb : optionChar (toChar b) = true) :
    LoopFits f skip (b :: fmt) ↔
      if skip then LoopFits f false fmt
      else LoopFits (f + 1) (skipsNext (toChar b) (toChar (fmt.headD 0#8))) fmt := by
  have hcopied : ∀ opts c rest, fmt = opts ++ c :: rest →
      copied (skipsNext (toChar b) (toChar (fmt.headD 0#8))) opts =
        copied (skipsNext (toChar b) (toChar (opts.headD 0#8))) opts := by
    rintro opts c rest rfl
    cases opts with
    | nil => rfl
    | cons x opts => rfl
  constructor
  · rintro ⟨opts, c, rest, hfmt, hopts, hc, hlen⟩
    cases opts with
    | nil =>
      obtain ⟨rfl, -⟩ := List.cons.inj hfmt
      rw [hb] at hc
      cases hc
    | cons x opts =>
      obtain ⟨rfl, htail⟩ := List.cons.inj hfmt
      have hopts' : ∀ y ∈ opts, optionChar (toChar y) = true :=
        fun y hy => hopts y (List.mem_cons_of_mem _ hy)
      cases skip with
      | true => exact ⟨opts, c, rest, htail, hopts', hc, hlen⟩
      | false =>
        refine ⟨opts, c, rest, htail, hopts', hc, ?_⟩
        rw [hcopied opts c rest htail]
        rw [copied] at hlen
        omega
  · have hcons : ∀ opts : List Byte, (∀ y ∈ opts, optionChar (toChar y) = true) →
        ∀ y ∈ b :: opts, optionChar (toChar y) = true := by
      intro opts hopts y hy
      rcases List.mem_cons.mp hy with rfl | hy
      · exact hb
      · exact hopts y hy
    cases skip with
    | true =>
      rintro ⟨opts, c, rest, rfl, hopts, hc, hlen⟩
      exact ⟨b :: opts, c, rest, rfl, hcons opts hopts, hc, hlen⟩
    | false =>
      rintro ⟨opts, c, rest, hfmt, hopts, hc, hlen⟩
      rw [hcopied opts c rest hfmt] at hlen
      refine ⟨b :: opts, c, rest, by rw [hfmt]; rfl, hcons opts hopts, hc, ?_⟩
      rw [copied]
      omega

/-- A skipped character is an option too. -/
theorem skipsNext_option {ch : Char} {fmt : List Byte}
    (h : skipsNext ch (toChar (fmt.headD 0#8)) = true) :
    ∃ b fmt', fmt = b :: fmt' ∧ optionChar (toChar b) = true := by
  unfold skipsNext at h
  rw [Bool.and_eq_true, Bool.or_eq_true, beq_iff_eq, beq_iff_eq, beq_iff_eq] at h
  cases fmt with
  | nil =>
    obtain ⟨hch, hnext⟩ := h
    rcases hch with rfl | rfl <;> exact absurd hnext (by decide)
  | cons b fmt =>
    refine ⟨b, fmt, rfl, ?_⟩
    rw [show toChar b = ch from h.2]
    rcases h.1 with rfl | rfl <;> rfl

/-- The accesses of the loop, when the terminator of the format is at index
`pos + fmt.length`. -/
theorem loopAccesses_iff (fmt : List Byte) (pos f : Nat) (skip : Bool)
    (hskip : skip = true → ∃ b fmt', fmt = b :: fmt' ∧ optionChar (toChar b) = true) :
    (∀ i, (.store i ∈ loopAccesses pos f skip fmt → i < FMTCPYSZ) ∧
      (.read i ∈ loopAccesses pos f skip fmt → i ≤ pos + fmt.length)) ↔ LoopFits f skip fmt := by
  induction fmt generalizing pos f skip with
  | nil =>
    refine ⟨fun h => ?_, fun h => absurd h (not_loopFits_nil f skip)⟩
    -- the loop has consumed the terminator, and peeks beyond it
    have := (h (pos + 1)).2 (by cases skip <;> simp [loopAccesses, roundAccesses])
    simp at this
  | cons b fmt ih =>
    cases skip with
    | true =>
      obtain ⟨b', fmt', hcons, hb⟩ := hskip rfl
      obtain ⟨rfl, rfl⟩ := List.cons.inj hcons
      rw [loopFits_option hb, if_pos rfl, ← ih (pos + 1) f false (by simp), List.length_cons,
        Nat.add_right_comm pos 1]
      rfl
    | false =>
      cases hb : optionChar (toChar b) with
      | false =>
        rw [loopFits_conversion hb, loopAccesses, hb]
        constructor
        · intro h
          exact (h f).1 (by simp [roundAccesses])
        · intro hf i
          simp only [roundAccesses, Bool.false_eq_true, if_false, List.append_nil, List.mem_cons,
            Access.store.injEq, Access.read.injEq, reduceCtorEq, List.not_mem_nil, or_false,
            false_or, List.length_cons]
          omega
      | true =>
        have hnext := ih (pos + 1) (f + 1) (skipsNext (toChar b) (toChar (fmt.headD 0#8)))
          skipsNext_option
        rw [loopFits_option hb, if_neg Bool.false_ne_true, ← hnext, loopAccesses, hb, if_pos rfl]
        have hstore : LoopFits (f + 1) (skipsNext (toChar b) (toChar (fmt.headD 0#8))) fmt →
            f < FMTCPYSZ := by
          rintro ⟨opts, c, rest, -, -, -, hlen⟩
          omega
        constructor
        · intro h i
          obtain ⟨hs, hr⟩ := h i
          refine ⟨fun hi => hs (List.mem_append_right _ hi), fun hi => ?_⟩
          have := hr (List.mem_append_right _ hi)
          rw [List.length_cons] at this
          omega
        · intro h i
          have hf := hstore (hnext.mp h)
          obtain ⟨hs, hr⟩ := h i
          simp only [roundAccesses, List.cons_append, List.nil_append, List.mem_cons,
            Access.store.injEq, Access.read.injEq, reduceCtorEq, false_or, List.length_cons]
          refine ⟨?_, ?_⟩
          · rintro (rfl | hi)
            · exact hf
            · exact hs hi
          · rintro (rfl | rfl | hi)
            · omega
            · omega
            · have := hr hi
              omega

/-- **The parser stays in its buffer and in the format exactly for specifications
that are complete and not too long.** At the end of the format it looks beyond the
terminator, and the copy of a long specification overruns `fmtbuf`. -/
theorem parsesInBuffers_iff (fmt : List Byte) : ParsesInBuffers fmt ↔ FitsFmtbuf fmt := by
  have hloop := loopAccesses_iff fmt 1 1 false (by simp)
  have hfits : FitsFmtbuf fmt ↔ LoopFits 1 false fmt := by
    refine exists_congr fun opts => exists_congr fun c => exists_congr fun rest => ?_
    rw [Nat.add_comm _ 2, Nat.succ_add]
    rfl
  rw [hfits, ← hloop]
  constructor
  · intro h i
    refine ⟨fun hi => h (.store i) (List.mem_append_right _ hi), fun hi => ?_⟩
    have := h (.read i) (List.mem_append_right _ hi)
    rw [Access.InBounds] at this
    omega
  · intro h a ha
    rcases List.mem_append.mp ha with ha | ha
    · have hsz : FMTCPYSZ = 32 := rfl
      have ha : a = .read 0 ∨ a = .store 0 := by simpa using ha
      rcases ha with rfl | rfl
      · exact Nat.zero_le _
      · exact Nat.lt_of_lt_of_eq (by decide : 0 < 32) hsz.symm
    · cases a with
      | store i => exact (h i).1 ha
      | read i =>
        have := (h i).2 ha
        rw [Access.InBounds]
        omega

/-- A format that ends in `%`, and 31 flags before a conversion. -/
theorem parsesInBuffers_fails :
    ¬ ParsesInBuffers [] ∧ ¬ ParsesInBuffers (List.replicate 31 (byte '-') ++ bytes "d") := by
  refine ⟨fun h => ?_, fun h => ?_⟩
  · have := h (.read 2) (by decide)
    simp [Access.InBounds] at this
  · have := h (.store 32) (by decide +kernel)
    exact absurd this (by decide : ¬ 32 < FMTCPYSZ)

end Munix
