import Munix.Core.SprintfLaw
import Munix.Core.SprintfParse

/-!
# Munix — the language of format strings

A format is a sequence of items: characters other than `%`, and specifications, which are
a `%`, options and a conversion character. Each item has its own arguments. This module
says so without the parser, and proves that `process_conversion` and the main loop of
`snprintf_impl` read a format in that way.

* `exists_items`, `rejected_iff` — every format is a sequence of items, or such a
  sequence and then a specification that is none.
* `specLoop_options` — the parser takes one argument for each `*`, and the size of the
  last length modifier.
* `format_item`, `format_bad` — the main loop, one item at a time.
* `snprintf_parser_iff` — when `snprintf` accepts exactly the language.
-/

namespace Munix

open ByteMem

-- ---------------------------------------------------------------------------
-- Items
-- ---------------------------------------------------------------------------

/-- The conversion characters. -/
def convChar (ch : Char) : Bool :=
  ['%', 's', 'c', 'd', 'i', 'u', 'o', 'x', 'X', 'b', 'B', 'p'].contains ch

/-- A piece of a format. -/
inductive Item where
  | char (c : Byte)
  | spec (opts : List Byte) (conv : Byte)

def Item.text : Item → List Byte
  | .char c => [c]
  | .spec opts conv => byte '%' :: (opts ++ [conv])

@[simp] theorem Item.text_char_append (c : Byte) (rest : List Byte) :
    (Item.char c).text ++ rest = c :: rest := rfl

@[simp] theorem Item.text_spec_append (opts : List Byte) (conv : Byte) (rest : List Byte) :
    (Item.spec opts conv).text ++ rest = byte '%' :: (opts ++ conv :: rest) := by
  simp [Item.text]

/-- The language: `% [-+ #0-9*.hljztL]* [%scdiuoxXbBp]`, and all characters but `%`. -/
def Item.Valid : Item → Prop
  | .char c => c ≠ byte '%'
  | .spec opts conv => (∀ b ∈ opts, optionChar (toChar b) = true) ∧ convChar (toChar conv) = true

instance Item.decidableValid : (i : Item) → Decidable i.Valid
  | .char c => inferInstanceAs (Decidable (c ≠ byte '%'))
  | .spec opts conv => inferInstanceAs
      (Decidable ((∀ b ∈ opts, optionChar (toChar b) = true) ∧ convChar (toChar conv) = true))

/-- What comes after a `%` that does not start a specification: options up to the end of
the format, or up to a character that is no conversion. -/
def BadSpec (spec : List Byte) : Prop :=
  ∀ opts conv rest, spec = opts ++ conv :: rest → (∀ b ∈ opts, optionChar (toChar b) = true) →
    convChar (toChar conv) = false

/-- Some `%` of the format starts a specification that is not of the language. -/
def Rejected (fmt : List Byte) : Prop :=
  ∃ (items : List Item) (spec : List Byte), (∀ i ∈ items, i.Valid) ∧ BadSpec spec ∧
    fmt = items.flatMap Item.text ++ byte '%' :: spec

theorem not_option_of_conv {ch : Char} (h : convChar ch = true) : optionChar ch = false := by
  simp only [convChar, List.contains_iff_mem, List.mem_cons, List.not_mem_nil, or_false] at h
  rcases h with rfl | rfl | rfl | rfl | rfl | rfl | rfl | rfl | rfl | rfl | rfl | rfl <;> rfl

/-- Options end at the first character that is none. -/
theorem options_unique {opts opts' : List Byte} {conv conv' : Byte} {rest rest' : List Byte}
    (h : opts ++ conv :: rest = opts' ++ conv' :: rest')
    (hopts : ∀ b ∈ opts, optionChar (toChar b) = true) (hconv : optionChar (toChar conv) = false)
    (hopts' : ∀ b ∈ opts', optionChar (toChar b) = true) (hconv' : optionChar (toChar conv') = false) :
    opts = opts' ∧ conv = conv' ∧ rest = rest' := by
  induction opts generalizing opts' with
  | nil =>
    cases opts' with
    | nil =>
      obtain ⟨rfl, rfl⟩ := List.cons.inj h
      exact ⟨rfl, rfl, rfl⟩
    | cons b opts' =>
      obtain ⟨rfl, -⟩ := List.cons.inj h
      rw [hopts' conv List.mem_cons_self] at hconv
      cases hconv
  | cons b opts ih =>
    cases opts' with
    | nil =>
      obtain ⟨rfl, -⟩ := List.cons.inj h
      rw [hopts b List.mem_cons_self] at hconv'
      cases hconv'
    | cons b' opts' =>
      obtain ⟨rfl, htail⟩ := List.cons.inj h
      obtain ⟨rfl, hrest⟩ := ih htail (fun x hx => hopts x (List.mem_cons_of_mem _ hx))
        fun x hx => hopts' x (List.mem_cons_of_mem _ hx)
      exact ⟨rfl, hrest⟩

/-- What comes after a `%`: options and a conversion, or not. -/
theorem spec_cases (spec : List Byte) :
    BadSpec spec ∨ ∃ opts conv rest, spec = opts ++ conv :: rest ∧ (Item.spec opts conv).Valid := by
  by_cases h : ∃ opts conv rest, spec = opts ++ conv :: rest ∧ (Item.spec opts conv).Valid
  · exact .inr h
  · refine .inl fun opts conv rest hspec hopts => ?_
    by_contra hconv
    exact h ⟨opts, conv, rest, hspec, hopts, by simpa using hconv⟩

/-- **Every format is a sequence of items**, or starts with one and then has a `%` that
starts no specification. -/
theorem exists_items (fmt : List Byte) :
    ∃ items : List Item, (∀ i ∈ items, i.Valid) ∧ (fmt = items.flatMap Item.text ∨
      ∃ spec, BadSpec spec ∧ fmt = items.flatMap Item.text ++ byte '%' :: spec) := by
  induction hn : fmt.length using Nat.strong_induction_on generalizing fmt with
  | _ n ih =>
    subst hn
    have hcons : ∀ (i : Item) (rest : List Byte), i.Valid → fmt = i.text ++ rest →
        rest.length < fmt.length →
        ∃ items : List Item, (∀ i ∈ items, i.Valid) ∧ (fmt = items.flatMap Item.text ∨
          ∃ spec, BadSpec spec ∧ fmt = items.flatMap Item.text ++ byte '%' :: spec) := by
      rintro i rest hi hfmt hlt
      obtain ⟨items, hitems, hrest⟩ := ih _ hlt rest rfl
      refine ⟨i :: items, List.forall_mem_cons.mpr ⟨hi, hitems⟩, ?_⟩
      rw [List.flatMap_cons, hfmt]
      rcases hrest with rfl | ⟨spec, hbad, rfl⟩
      · exact .inl rfl
      · exact .inr ⟨spec, hbad, by rw [List.append_assoc]⟩
    cases fmt with
    | nil => exact ⟨[], nofun, .inl rfl⟩
    | cons c fmt =>
      by_cases hc : c = byte '%'
      · subst hc
        rcases spec_cases fmt with hbad | ⟨opts, conv, rest, rfl, hvalid⟩
        · exact ⟨[], nofun, .inr ⟨fmt, hbad, rfl⟩⟩
        · refine hcons (.spec opts conv) rest hvalid (by rw [Item.text_spec_append]) ?_
          simp only [List.length_cons, List.length_append]
          omega
      · exact hcons (.char c) fmt hc rfl (by simp)

/-- A format of the language is not rejected: its items cannot be read in another way. -/
theorem not_rejected {items : List Item} (hitems : ∀ i ∈ items, i.Valid) :
    ¬ Rejected (items.flatMap Item.text) := by
  rintro ⟨items', spec, hitems', hbad, heq⟩
  induction items generalizing items' with
  | nil => simp at heq
  | cons i items ih =>
    obtain ⟨hi, htail⟩ := List.forall_mem_cons.mp hitems
    rw [List.flatMap_cons] at heq
    cases items' with
    | nil =>
      cases i with
      | char c => exact hi (List.cons.inj heq).1
      | spec opts conv =>
        rw [Item.text_spec_append] at heq
        have hconv := hbad opts conv _ (List.cons.inj heq).2.symm hi.1
        rw [hi.2] at hconv
        cases hconv
    | cons i' items' =>
      obtain ⟨hi', htail'⟩ := List.forall_mem_cons.mp hitems'
      rw [List.flatMap_cons, List.append_assoc] at heq
      cases i with
      | char c =>
        cases i' with
        | char c' => exact ih htail items' htail' (List.cons.inj heq).2
        | spec opts' conv' => exact hi (List.cons.inj heq).1
      | spec opts conv =>
        cases i' with
        | char c' => exact hi' (List.cons.inj heq).1.symm
        | spec opts' conv' =>
          rw [Item.text_spec_append, Item.text_spec_append] at heq
          obtain ⟨-, -, hrest⟩ := options_unique (List.cons.inj heq).2 hi.1
            (not_option_of_conv hi.2) hi'.1 (not_option_of_conv hi'.2)
          exact ih htail items' htail' hrest

-- ---------------------------------------------------------------------------
-- Options
-- ---------------------------------------------------------------------------

/-- The stars among the options. -/
def stars (opts : List Byte) : Nat := opts.countP fun b => toChar b == '*'

/-- The size that a length modifier of one character selects. -/
def lenMod (ch : Char) : Option Nat :=
  if ch = 'h' then some 2
  else if ch = 'l' ∨ ch = 'z' ∨ ch = 't' then some 4
  else if ch = 'j' then some 8
  else if ch = 'L' then some 12
  else none

/-- The sizes of the length modifiers of a specification, in order. -/
def lenMods : List Char → List Nat
  | [] => []
  | [c] => (lenMod c).toList
  | c :: c' :: opts =>
    if c = 'h' ∧ c' = 'h' then 1 :: lenMods opts
    else if c = 'l' ∧ c' = 'l' then 8 :: lenMods opts
    else (lenMod c).toList ++ lenMods (c' :: opts)

/-- The size that the last length modifier selects. -/
def lenSize (opts : List Byte) : Nat := (lenMods (opts.map toChar)).getLast?.getD 0

/-- The modifier that begins with `ch`. -/
def stepMod (ch next : Char) : Option Nat :=
  if skipsNext ch next then (if ch = 'h' then some 1 else some 8) else lenMod ch

theorem lenMods_cons (c : Char) (opts : List Char) :
    lenMods (c :: opts) = (stepMod c (opts.headD (toChar 0#8))).toList ++
      lenMods (if skipsNext c (opts.headD (toChar 0#8)) then opts.tail else opts) := by
  cases opts with
  | nil =>
    have hskip : skipsNext c (toChar 0#8) = false := by
      by_cases hc : c = 'h' ∨ c = 'l'
      · rcases hc with rfl | rfl <;> rfl
      · obtain ⟨hh, hl⟩ := not_or.mp hc
        simp [skipsNext, hh, hl]
    simp [lenMods, stepMod, hskip]
  | cons c' opts =>
    rw [lenMods, List.headD_cons]
    by_cases hh : c = 'h' ∧ c' = 'h'
    · obtain ⟨rfl, rfl⟩ := hh
      rfl
    · by_cases hl : c = 'l' ∧ c' = 'l'
      · obtain ⟨rfl, rfl⟩ := hl
        rfl
      · have hskip : skipsNext c c' = false := by
          rw [Bool.eq_false_iff]
          intro h
          simp only [skipsNext, Bool.and_eq_true, Bool.or_eq_true, beq_iff_eq] at h
          obtain ⟨hc, rfl⟩ := h
          exact hc.elim (fun h => hh ⟨h, h⟩) fun h => hl ⟨h, h⟩
        rw [if_neg hh, if_neg hl, stepMod, hskip]
        rfl

@[simp] theorem ParseState.setWp_lenmodsz (ps : ParseState) (v : BitVec 32) :
    (ps.setWp v).spec.lenmodsz = ps.spec.lenmodsz := by
  rw [ParseState.setWp]
  split <;> rfl

@[simp] theorem ParseState.digit_lenmodsz (ps : ParseState) (ch : Char) :
    (ps.digit ch).spec.lenmodsz = ps.spec.lenmodsz :=
  ps.setWp_lenmodsz _

@[simp] theorem ParseState.star_lenmodsz (ps : ParseState) (arg : BitVec 32) :
    (ps.star arg).spec.lenmodsz = ps.spec.lenmodsz := by
  rw [ParseState.star]
  dsimp only
  split
  · split <;> exact ps.setWp_lenmodsz arg
  · exact ps.setWp_lenmodsz arg

/-- What an option other than `*` does, whatever the arguments are. -/
theorem specChar_other {ch : Char} (hch : optionChar ch = true) (hstar : ch ≠ '*') (next : Char)
    (ps : ParseState) :
    ∃ ps', ps'.spec.lenmodsz = (stepMod ch next).getD ps.spec.lenmodsz ∧
      ∀ args, specChar ch next ps args = .option ps' (skipsNext ch next) args := by
  by_cases hzero : ch = '0'
  · subst hzero
    by_cases hz : ps.zeroIsFlag = true
    · refine ⟨{ ps with spec := { ps.spec with zero := true }, zeroIsFlag := false }, rfl, fun args => ?_⟩
      exact if_pos hz
    · refine ⟨ps.digit '0', ps.digit_lenmodsz '0', fun args => ?_⟩
      exact if_neg hz
  by_cases hh : ch = 'h'
  · subst hh
    by_cases hnext : next = 'h'
    · subst hnext
      exact ⟨ps.lenmod 1, rfl, fun args => rfl⟩
    · have hskip : skipsNext 'h' next = false := by simp [skipsNext, hnext]
      refine ⟨ps.lenmod 2, by rw [stepMod, hskip]; rfl, fun args => ?_⟩
      rw [hskip]
      exact if_neg hnext
  by_cases hl : ch = 'l'
  · subst hl
    by_cases hnext : next = 'l'
    · subst hnext
      exact ⟨ps.lenmod 8, rfl, fun args => rfl⟩
    · have hskip : skipsNext 'l' next = false := by simp [skipsNext, hnext]
      refine ⟨ps.lenmod 4, by rw [stepMod, hskip]; rfl, fun args => ?_⟩
      rw [hskip]
      exact if_neg hnext
  simp only [optionChar, List.contains_iff_mem, List.mem_cons, List.not_mem_nil, or_false, hzero, hh, hl,
    hstar, false_or] at hch
  rcases hch with rfl | rfl | rfl | rfl | rfl | rfl | rfl | rfl | rfl | rfl | rfl | rfl | rfl | rfl | rfl |
    rfl | rfl | rfl
  all_goals
    refine ⟨_, ?_, fun args => rfl⟩
    first | rfl | exact ps.digit_lenmodsz _

/-- An option, whichever it is: a `*` takes one argument. -/
theorem specChar_option {ch : Char} (hch : optionChar ch = true) (next : Char) (ps : ParseState)
    {as : List VaArg} (has : as.length = if ch = '*' then 1 else 0) :
    ∃ ps', ps'.spec.lenmodsz = (stepMod ch next).getD ps.spec.lenmodsz ∧
      ∀ args, specChar ch next ps (as ++ args) = .option ps' (skipsNext ch next) args := by
  by_cases hstar : ch = '*'
  · subst hstar
    obtain ⟨a, rfl⟩ := List.length_eq_one_iff.mp has
    cases a with
    | word w => exact ⟨ps.star w, ps.star_lenmodsz w, fun args => rfl⟩
    | ptr addr obj => exact ⟨ps.star addr, ps.star_lenmodsz addr, fun args => rfl⟩
  · rw [if_neg hstar] at has
    obtain rfl := List.eq_nil_of_length_eq_zero has
    exact specChar_other hch hstar next ps

/-- The second character of `hh` and `ll` is no star. -/
theorem stars_skip {b : Byte} {opts : List Byte} (h : skipsNext (toChar b) (toChar (opts.headD 0#8)) = true) :
    ∃ b' opts', opts = b' :: opts' ∧ stars (b' :: opts') = stars opts' := by
  obtain ⟨b', opts', rfl, -⟩ := skipsNext_option h
  refine ⟨b', opts', rfl, ?_⟩
  simp only [skipsNext, Bool.and_eq_true, Bool.or_eq_true, beq_iff_eq, List.headD_cons] at h
  rw [stars, stars, List.countP_cons_of_neg]
  rw [h.2]
  rcases h.1 with h | h <;> rw [h] <;> decide

/-- All that the next character says is whether it is skipped. -/
theorem specChar_next {ch next next' : Char} (h : skipsNext ch next = skipsNext ch next') (ps : ParseState)
    (args : List VaArg) : specChar ch next ps args = specChar ch next' ps args := by
  unfold specChar
  split
  case h_17 =>
    have hiff : next = 'h' ↔ next' = 'h' := by simpa [skipsNext] using congrArg (· = true) h
    simp only [hiff]
  case h_18 =>
    have hiff : next = 'l' ↔ next' = 'l' := by simpa [skipsNext] using congrArg (· = true) h
    simp only [hiff]
  all_goals rfl

theorem skipsNext_append {opts tail : List Byte} (htail : optionChar (toChar (tail.headD 0#8)) = false)
    (ch : Char) :
    skipsNext ch (toChar ((opts ++ tail).headD 0#8)) = skipsNext ch (toChar (opts.headD 0#8)) := by
  cases opts with
  | nil =>
    have hno : ∀ next, optionChar next = false → skipsNext ch next = false := by
      intro next hnext
      rw [Bool.eq_false_iff]
      intro h
      simp only [skipsNext, Bool.and_eq_true, Bool.or_eq_true, beq_iff_eq] at h
      obtain ⟨rfl | rfl, rfl⟩ := h <;> exact absurd hnext (by decide)
    rw [List.nil_append, hno _ htail, hno _ (by decide)]
  | cons b opts => rfl

/-- **The parser reads options**: it takes one argument for each star, and the size is that of the
last length modifier. -/
theorem specLoop_options {opts : List Byte} (hopts : ∀ b ∈ opts, optionChar (toChar b) = true)
    (ps : ParseState) {as : List VaArg} (has : as.length = stars opts) :
    ∃ ps', ps'.spec.lenmodsz = (lenMods (opts.map toChar)).getLast?.getD ps.spec.lenmodsz ∧
      ∀ k tail args, optionChar (toChar (tail.headD 0#8)) = false →
        specLoop (copied false opts + k) (opts ++ tail) ps (as ++ args) = specLoop k tail ps' args := by
  induction hn : opts.length using Nat.strong_induction_on generalizing opts ps as with
  | _ n ih =>
    subst hn
    cases opts with
    | nil =>
      obtain rfl := List.eq_nil_of_length_eq_zero has
      refine ⟨ps, rfl, fun k tail args _ => ?_⟩
      rw [copied, Nat.zero_add]
      rfl
    | cons b opts =>
      obtain ⟨hb, hrest⟩ := List.forall_mem_cons.mp hopts
      -- the argument of this option, and those of the options after it
      set n₁ := if toChar b = '*' then 1 else 0 with hn₁
      have hstars : stars (b :: opts) = n₁ + stars opts := by
        rw [stars, stars, List.countP_cons, Nat.add_comm]
        simp [hn₁]
      have has₁ : (as.take n₁).length = n₁ := by
        rw [List.length_take]
        omega
      have has₂ : (as.drop n₁).length = stars opts := by
        rw [List.length_drop]
        omega
      obtain ⟨ps₁, hlen₁, hstep⟩ := specChar_option hb (toChar (opts.headD 0#8)) ps (has₁.trans hn₁)
      -- one turn of the loop
      have hturn : ∀ k tail args, optionChar (toChar (tail.headD 0#8)) = false →
          specLoop (k + 1) (b :: opts ++ tail) ps (as ++ args) =
            specLoop k (if skipsNext (toChar b) (toChar (opts.headD 0#8)) then (opts ++ tail).tail
              else opts ++ tail) ps₁ (as.drop n₁ ++ args) := by
        intro k tail args htail
        rw [List.cons_append, specLoop, specChar_next (skipsNext_append htail (toChar b)),
          ← List.take_append_drop n₁ as, List.append_assoc, hstep, List.take_append_drop]
      have hmods : lenMods ((b :: opts).map toChar) =
          (stepMod (toChar b) (toChar (opts.headD 0#8))).toList ++
            lenMods ((if skipsNext (toChar b) (toChar (opts.headD 0#8)) then opts.tail
              else opts).map toChar) := by
        have hhead : (opts.map toChar).headD (toChar 0#8) = toChar (opts.headD 0#8) := by
          cases opts <;> rfl
        rw [List.map_cons, lenMods_cons, hhead]
        split
        · rw [List.map_tail]
        · rfl
      have hlast : ∀ l : List Nat, ((stepMod (toChar b) (toChar (opts.headD 0#8))).toList ++ l).getLast?.getD
          ps.spec.lenmodsz = l.getLast?.getD ps₁.spec.lenmodsz := by
        intro l
        rw [hlen₁, List.getLast?_append]
        cases l.getLast? <;> cases stepMod (toChar b) (toChar (opts.headD 0#8)) <;> rfl
      cases hskip : skipsNext (toChar b) (toChar (opts.headD 0#8)) with
      | true =>
        obtain ⟨b', opts', rfl, hs⟩ := stars_skip hskip
        obtain ⟨ps', hlen', hloop⟩ := ih opts'.length (by simp only [List.length_cons]; omega)
          (List.forall_mem_cons.mp hrest).2 ps₁ (has₂.trans hs) rfl
        refine ⟨ps', ?_, fun k tail args htail => ?_⟩
        · rw [hmods, hlast, hskip, hlen']
          rfl
        · have hcopied : copied false (b :: b' :: opts') + k = copied false opts' + k + 1 := by
            rw [copied, hskip, copied]
            omega
          rw [hcopied, hturn _ _ _ htail, hskip]
          exact hloop k tail args htail
      | false =>
        obtain ⟨ps', hlen', hloop⟩ := ih opts.length (by simp only [List.length_cons]; omega) hrest ps₁
          has₂ rfl
        refine ⟨ps', ?_, fun k tail args htail => ?_⟩
        · rw [hmods, hlast, hskip, hlen']
          rfl
        · have hcopied : copied false (b :: opts) + k = copied false opts + k + 1 := by
            rw [copied, hskip]
            omega
          rw [hcopied, hturn _ _ _ htail, hskip]
          exact hloop k tail args htail

theorem copied_le (skip : Bool) (opts : List Byte) : copied skip opts ≤ opts.length := by
  induction opts generalizing skip with
  | nil => simp [copied]
  | cons b opts ih =>
    cases skip with
    | true => exact (ih false).trans (Nat.le_succ _)
    | false => exact Nat.succ_le_succ (ih _)

/-- The specification that options with these arguments for their stars ask for. -/
def specOf (opts : List Byte) (as : List VaArg) : FmtSpec :=
  match specLoop (opts.length + 1) (opts ++ [byte '%']) .initial as with
  | .ok p => p.spec
  | _ => ParseState.initial.spec

/-- The parser of a specification. -/
theorem specLoop_spec {opts : List Byte} (hopts : ∀ b ∈ opts, optionChar (toChar b) = true)
    {as : List VaArg} (has : as.length = stars opts) :
    (specOf opts as).lenmodsz = lenSize opts ∧
      ∀ room conv rest args, optionChar (toChar conv) = false → copied false opts < room →
        specLoop room (opts ++ conv :: rest) .initial (as ++ args) =
          .ok ⟨toChar conv, specOf opts as, rest, args⟩ := by
  obtain ⟨ps, hlen, hloop⟩ := specLoop_options hopts .initial has
  have hconv : ∀ k conv rest args, optionChar (toChar conv) = false →
      specLoop (k + 1) (conv :: rest) ps args = .ok ⟨toChar conv, ps.spec, rest, args⟩ := by
    intro k conv rest args hno
    have hcase := specChar_cases (toChar conv) (toChar (rest.headD 0#8)) ps args
    rw [specLoop]
    cases hchar : specChar (toChar conv) (toChar (rest.headD 0#8)) ps args with
    | option ps' skip args' =>
      rw [hchar] at hcase
      rw [hcase.1] at hno
      cases hno
    | undef =>
      rw [hchar] at hcase
      rw [show toChar conv = '*' from hcase] at hno
      cases hno
    | conversion => rfl
  have hrun : ∀ room conv rest args, optionChar (toChar conv) = false → copied false opts < room →
      specLoop room (opts ++ conv :: rest) .initial (as ++ args) = .ok ⟨toChar conv, ps.spec, rest, args⟩ := by
    intro room conv rest args hno hroom
    obtain ⟨k, rfl⟩ := Nat.exists_eq_add_of_lt hroom
    rw [Nat.add_assoc, hloop (k + 1) (conv :: rest) args hno, hconv k conv rest args hno]
  have hspec : specOf opts as = ps.spec := by
    have h := hrun (opts.length + 1) (byte '%') [] [] (by decide) (Nat.lt_succ_of_le (copied_le _ _))
    rw [List.append_nil] at h
    rw [specOf, h]
  rw [hspec]
  exact ⟨hlen, hrun⟩

/-- Options up to the end of the format. -/
theorem specLoop_cut {opts : List Byte} (hopts : ∀ b ∈ opts, optionChar (toChar b) = true)
    {as : List VaArg} (has : as.length = stars opts) {room : Nat} (hroom : copied false opts < room)
    (args : List VaArg) : specLoop room opts .initial (as ++ args) = .null := by
  obtain ⟨ps, -, hloop⟩ := specLoop_options hopts .initial has
  obtain ⟨k, rfl⟩ := Nat.exists_eq_add_of_lt hroom
  have h := hloop (k + 1) [] args (by decide)
  rw [List.append_nil] at h
  rw [Nat.add_assoc, h]
  rfl

-- ---------------------------------------------------------------------------
-- Arguments
-- ---------------------------------------------------------------------------

/-- What an argument must be: any word, or a pointer to a string. -/
inductive ArgKind where
  | word
  | str

def ArgKind.Fits : ArgKind → VaArg → Prop
  | .word, _ => True
  | .str, a => ∃ addr obj, a = .ptr addr obj

/-- How many bits the integer of a length modifier has; no modifier is an `int`. -/
def argBits : Nat → Nat
  | 0 => 32
  | 1 => 8
  | 2 => 16
  | 4 => 32
  | _ => 64

/-- What a conversion takes: an integer of up to 32 bits is one word, a longer one is two. -/
def convDemand (ch : Char) (sz : Nat) : List ArgKind :=
  if ch = '%' then []
  else if ch = 's' then [.str]
  else if ch = 'c' ∨ ch = 'p' then [.word]
  else List.replicate ((argBits sz + 31) / 32) .word

/-- What an item takes: one argument for each star, and then that of the conversion. -/
def Item.demand : Item → List ArgKind
  | .char _ => []
  | .spec opts conv =>
    List.replicate (stars opts) .word ++ convDemand (toChar conv) (lenSize opts)

/-- Arguments of the given kinds. -/
def Supplied (kinds : List ArgKind) (as : List VaArg) : Prop :=
  List.Forall₂ (fun a kind => ArgKind.Fits kind a) as kinds

def VaArg.toWord : VaArg → BitVec 32
  | .word w => w
  | .ptr addr _ => addr

/-- The words of an integer, the low one first. -/
def argRaw : List VaArg → BitVec 64
  | [a] => a.toWord.setWidth 64
  | [lo, hi] => hi.toWord ++ lo.toWord
  | _ => 0#64

/-- The integer that a signed conversion prints, and that an unsigned one does. -/
def signedArg (sz : Nat) (as : List VaArg) : BitVec 64 :=
  ((argRaw as).setWidth (argBits sz)).signExtend 64
def unsignedArg (sz : Nat) (as : List VaArg) : BitVec 64 :=
  ((argRaw as).setWidth (argBits sz)).setWidth 64

/-- The sizes of length modifiers. -/
def lenSizes : List Nat := [0, 1, 2, 4, 8, 12]

theorem lenMods_mem (opts : List Char) : ∀ sz ∈ lenMods opts, sz ∈ lenSizes := by
  have hone : ∀ c, ∀ sz ∈ (lenMod c).toList, sz ∈ lenSizes := by
    intro c sz hsz
    rw [lenMod] at hsz
    split at hsz
    · obtain rfl : sz = 2 := by simpa using hsz
      decide
    · split at hsz
      · obtain rfl : sz = 4 := by simpa using hsz
        decide
      · split at hsz
        · obtain rfl : sz = 8 := by simpa using hsz
          decide
        · split at hsz
          · obtain rfl : sz = 12 := by simpa using hsz
            decide
          · simp at hsz
  induction opts using lenMods.induct with
  | case1 => simp [lenMods]
  | case2 c => exact hone c
  | case3 c c' opts h ih =>
    rw [lenMods, if_pos h]
    exact List.forall_mem_cons.mpr ⟨by decide, ih⟩
  | case4 c c' opts h h' ih =>
    rw [lenMods, if_neg h, if_pos h']
    exact List.forall_mem_cons.mpr ⟨by decide, ih⟩
  | case5 c c' opts h h' ih =>
    rw [lenMods, if_neg h, if_neg h']
    intro sz hsz
    exact (List.mem_append.mp hsz).elim (hone c sz) (ih sz)

theorem lenSize_mem (opts : List Byte) : lenSize opts ∈ lenSizes := by
  rw [lenSize]
  cases hlast : (lenMods (opts.map toChar)).getLast? with
  | none => decide
  | some sz => exact lenMods_mem _ sz (List.mem_of_getLast? hlast)

@[simp] theorem vaWord_cons (a : VaArg) (args : List VaArg) :
    vaWord (a :: args) = some (a.toWord, args) := by
  cases a <;> rfl

/-- An integer argument, by its size. -/
theorem intArg_cases {P : Nat → List VaArg → Prop} {sz : Nat} (hsz : sz ∈ lenSizes) {as : List VaArg}
    (has : as.length = (argBits sz + 31) / 32) (hone : ∀ sz ∈ [0, 1, 2, 4], ∀ a, P sz [a])
    (htwo : ∀ sz ∈ [8, 12], ∀ lo hi, P sz [lo, hi]) : P sz as := by
  simp only [lenSizes, List.mem_cons, List.not_mem_nil, or_false] at hsz
  rcases hsz with rfl | rfl | rfl | rfl | rfl | rfl
  all_goals first
    | obtain ⟨a, rfl⟩ := List.length_eq_one_iff.mp has
      exact hone _ (by decide) a
    | obtain ⟨lo, hi, rfl⟩ := List.length_eq_two.mp has
      exact htwo _ (by decide) lo hi

theorem signedArg_of_bits {sz n : Nat} (h : argBits sz = n) (as : List VaArg) :
    signedArg sz as = ((argRaw as).setWidth n).signExtend 64 := by
  subst h
  rfl

theorem vaArgSigned_eq {sz : Nat} (hsz : sz ∈ lenSizes) {as : List VaArg}
    (has : as.length = (argBits sz + 31) / 32) (args : List VaArg) :
    vaArgSigned sz (as ++ args) = some (signedArg sz as, args) := by
  apply intArg_cases hsz has
  · intro sz hsz a
    simp only [List.mem_cons, List.not_mem_nil, or_false] at hsz
    rcases hsz with rfl | rfl | rfl | rfl
    · simp [vaArgSigned, signedArg_of_bits (show argBits 0 = 32 from rfl), argRaw]
    · simp [vaArgSigned, signedArg_of_bits (show argBits 1 = 8 from rfl), argRaw]
    · simp [vaArgSigned, signedArg_of_bits (show argBits 2 = 16 from rfl), argRaw]
    · simp [vaArgSigned, signedArg_of_bits (show argBits 4 = 32 from rfl), argRaw]
  · intro sz hsz lo hi
    simp only [List.mem_cons, List.not_mem_nil, or_false] at hsz
    rcases hsz with rfl | rfl
    · simp [vaArgSigned, vaWord64, signedArg_of_bits (show argBits 8 = 64 from rfl), argRaw]
    · simp [vaArgSigned, vaWord64, signedArg_of_bits (show argBits 12 = 64 from rfl), argRaw]

theorem unsignedArg_of_bits {sz n : Nat} (h : argBits sz = n) (as : List VaArg) :
    unsignedArg sz as = ((argRaw as).setWidth n).setWidth 64 := by
  subst h
  rfl

theorem vaArgUnsigned_eq {sz : Nat} (hsz : sz ∈ lenSizes) {as : List VaArg}
    (has : as.length = (argBits sz + 31) / 32) (args : List VaArg) :
    vaArgUnsigned sz (as ++ args) = some (unsignedArg sz as, args) := by
  apply intArg_cases hsz has
  · intro sz hsz a
    simp only [List.mem_cons, List.not_mem_nil, or_false] at hsz
    rcases hsz with rfl | rfl | rfl | rfl
    · simp [vaArgUnsigned, unsignedArg_of_bits (show argBits 0 = 32 from rfl), argRaw]
    · simp [vaArgUnsigned, unsignedArg_of_bits (show argBits 1 = 8 from rfl), argRaw]
    · simp [vaArgUnsigned, unsignedArg_of_bits (show argBits 2 = 16 from rfl), argRaw]
    · simp [vaArgUnsigned, unsignedArg_of_bits (show argBits 4 = 32 from rfl), argRaw]
  · intro sz hsz lo hi
    simp only [List.mem_cons, List.not_mem_nil, or_false] at hsz
    rcases hsz with rfl | rfl
    · simp [vaArgUnsigned, vaWord64, unsignedArg_of_bits (show argBits 8 = 64 from rfl), argRaw]
    · simp [vaArgUnsigned, vaWord64, unsignedArg_of_bits (show argBits 12 = 64 from rfl), argRaw]

-- ---------------------------------------------------------------------------
-- What a conversion prints
-- ---------------------------------------------------------------------------

/-- The text of a signed value, if its digits fit. -/
def signedText (spec : FmtSpec) (base : Nat) (val : BitVec 64) : Option (List Byte) :=
  (itoa (if val.msb then -val else val) base spec.checkPrecision.p false).map
    (paddedText spec.checkPrecision (signPrefix spec val.msb))

/-- The text of an unsigned value, if its digits fit. -/
def unsignedText (spec : FmtSpec) (base : Nat) (up : Bool) (val : BitVec 64) : Option (List Byte) :=
  let pre :=
    if spec.alt && base == 2 && val != 0#64 then bytes "0b"
    else if spec.alt && base == 16 && val != 0#64 then bytes "0x"
    else []
  (itoa val base spec.checkPrecision.p (spec.alt && base == 8)).map fun digitbuf =>
    paddedText spec.checkPrecision (if up then strtoupper pre else pre)
      (if up then strtoupper digitbuf else digitbuf)

/-- What a conversion prints of its argument; `none` where the code has no defined
behaviour: digits that do not fit in `digitbuf`, a string that is not there. -/
def convText (ch : Char) (spec : FmtSpec) (sz : Nat) (as : List VaArg) : Option (List Byte) :=
  match ch with
  | '%' => some [byte '%']
  | 's' =>
    match as with
    | [.ptr _ obj] => (strValue spec obj).map (paddedText spec [])
    | _ => none
  | 'c' => (cstring [(argRaw as).setWidth 8, 0#8]).map (paddedText spec [])
  | 'd' | 'i' => signedText spec 10 (signedArg sz as)
  | 'u' => unsignedText spec 10 false (unsignedArg sz as)
  | 'o' => unsignedText spec 8 false (unsignedArg sz as)
  | 'x' => unsignedText spec 16 false (unsignedArg sz as)
  | 'X' => unsignedText spec 16 true (unsignedArg sz as)
  | 'b' => unsignedText spec 2 false (unsignedArg sz as)
  | 'B' => unsignedText spec 2 true (unsignedArg sz as)
  | 'p' =>
    unsignedText ⟨false, false, false, true, false, spec.w, spec.p, 4⟩ 16 false (unsignedArg 4 as)
  | _ => none

/-- What an item prints of its own arguments. -/
def Item.out : Item → List VaArg → Option (List Byte)
  | .char c, _ => some [c]
  | .spec opts conv, as =>
    convText (toChar conv) (specOf opts (as.take (stars opts))) (lenSize opts) (as.drop (stars opts))

theorem formatSigned_text (spec : FmtSpec) (base : Nat) (args : List VaArg) :
    formatSigned snoc [] spec base args = (vaArgSigned spec.lenmodsz args).bind fun r =>
      (signedText spec base r.1).map fun t => (t, r.2) := by
  simp only [formatSigned, signedText, Option.map_map, outpadded_snoc]
  rfl

theorem formatUnsigned_text (spec : FmtSpec) (base : Nat) (up : Bool) (args : List VaArg) :
    formatUnsigned snoc [] spec base up args = (vaArgUnsigned spec.lenmodsz args).bind fun r =>
      (unsignedText spec base up r.1).map fun t => (t, r.2) := by
  simp only [formatUnsigned, unsignedText, Option.map_map, outpadded_snoc]
  rfl

theorem supplied_words {n : Nat} {as : List VaArg} :
    Supplied (List.replicate n .word) as ↔ as.length = n := by
  constructor
  · intro h
    rw [h.length_eq, List.length_replicate]
  · rintro rfl
    induction as with
    | nil => exact .nil
    | cons a as ih => exact .cons trivial ih

/-- **A conversion takes its own argument**, and prints that. -/
theorem convert_text {ch : Char} (hch : convChar ch = true) {spec : FmtSpec}
    (hsz : spec.lenmodsz ∈ lenSizes) {as : List VaArg} (has : Supplied (convDemand ch spec.lenmodsz) as)
    (args : List VaArg) :
    convert snoc [] ch spec (as ++ args) =
      .ofOption ((convText ch spec spec.lenmodsz as).map fun t => (t, args)) := by
  have hsigned : ∀ base, Supplied (List.replicate ((argBits spec.lenmodsz + 31) / 32) .word) as →
      formatSigned snoc [] spec base (as ++ args) =
        (signedText spec base (signedArg spec.lenmodsz as)).map fun t => (t, args) := by
    intro base has
    rw [formatSigned_text, vaArgSigned_eq hsz (supplied_words.mp has)]
    rfl
  have hunsigned : ∀ base up, Supplied (List.replicate ((argBits spec.lenmodsz + 31) / 32) .word) as →
      formatUnsigned snoc [] spec base up (as ++ args) =
        (unsignedText spec base up (unsignedArg spec.lenmodsz as)).map fun t => (t, args) := by
    intro base up has
    rw [formatUnsigned_text, vaArgUnsigned_eq hsz (supplied_words.mp has)]
    rfl
  simp only [convChar, List.contains_iff_mem, List.mem_cons, List.not_mem_nil, or_false] at hch
  rcases hch with rfl | rfl | rfl | rfl | rfl | rfl | rfl | rfl | rfl | rfl | rfl | rfl
  · obtain rfl := List.forall₂_nil_right_iff.mp has
    rfl
  · obtain ⟨a, as', ⟨addr, obj, rfl⟩, hnil, rfl⟩ := List.forall₂_cons_right_iff.mp has
    obtain rfl := List.forall₂_nil_right_iff.mp hnil
    simp only [convert, convText, formatStr, List.singleton_append, outpadded_snoc, Option.map_map]
    rfl
  · obtain ⟨a, rfl⟩ := List.length_eq_one_iff.mp ((supplied_words (n := 1)).mp has)
    simp only [convert, convText, formatChar, List.singleton_append, vaWord_cons, outpadded_snoc,
      Option.bind_some, Option.map_map, argRaw]
    congr 1
  · exact congrArg Conv.ofOption (hsigned 10 has)
  · exact congrArg Conv.ofOption (hsigned 10 has)
  · exact congrArg Conv.ofOption (hunsigned 10 false has)
  · exact congrArg Conv.ofOption (hunsigned 8 false has)
  · exact congrArg Conv.ofOption (hunsigned 16 false has)
  · exact congrArg Conv.ofOption (hunsigned 16 true has)
  · exact congrArg Conv.ofOption (hunsigned 2 false has)
  · exact congrArg Conv.ofOption (hunsigned 2 true has)
  · -- a pointer is printed like an unsigned number, whatever the length modifier is
    have hlen := (supplied_words (n := 1)).mp has
    simp only [convert, convText, formatPointer]
    rw [formatUnsigned_text, vaArgUnsigned_eq (show 4 ∈ lenSizes by decide) hlen]
    rfl

-- ---------------------------------------------------------------------------
-- The main loop
-- ---------------------------------------------------------------------------

/-- The item fits in the debugging copy of a specification. -/
def Item.Fits : Item → Prop
  | .char _ => True
  | .spec opts _ => copied false opts + 2 ≤ FMTCPYSZ

instance Item.decidableFits : (i : Item) → Decidable i.Fits
  | .char _ => inferInstanceAs (Decidable True)
  | .spec opts _ => inferInstanceAs (Decidable (copied false opts + 2 ≤ FMTCPYSZ))

def Item.isSpec : Item → Bool
  | .char _ => false
  | .spec _ _ => true

/-- The arguments of the stars, and that of the conversion. -/
theorem Supplied.split {opts : List Byte} {conv : Byte} {as : List VaArg}
    (has : Supplied (Item.spec opts conv).demand as) :
    (as.take (stars opts)).length = stars opts ∧
      Supplied (convDemand (toChar conv) (lenSize opts)) (as.drop (stars opts)) := by
  have htake := List.forall₂_take_append _ _ _ has
  have hdrop := List.forall₂_drop_append _ _ _ has
  rw [List.length_replicate] at htake hdrop
  exact ⟨supplied_words.mp htake, hdrop⟩

/-- **`process_conversion`** takes the arguments of its specification and no others. -/
theorem processConversion_item {opts : List Byte} {conv : Byte} (hvalid : (Item.spec opts conv).Valid)
    (hfits : (Item.spec opts conv).Fits) {as : List VaArg}
    (has : Supplied (Item.spec opts conv).demand as) (fmt : List Byte) (args : List VaArg) :
    processConversion snoc [] (opts ++ conv :: fmt) (as ++ args) =
      .ofOption (((Item.spec opts conv).out as).map fun t => (t, fmt, args)) := by
  obtain ⟨hstars, hconv⟩ := has.split
  obtain ⟨hsize, hspec⟩ := specLoop_spec hvalid.1 hstars
  have hsz : (specOf opts (as.take (stars opts))).lenmodsz ∈ lenSizes := by
    rw [hsize]
    exact lenSize_mem opts
  rw [← hsize] at hconv
  have hroom : copied false opts < FMTCPYSZ - 1 := by
    have h32 : FMTCPYSZ = 32 := rfl
    have h : copied false opts + 2 ≤ FMTCPYSZ := hfits
    omega
  have hargs : as ++ args = as.take (stars opts) ++ (as.drop (stars opts) ++ args) := by
    rw [← List.append_assoc, List.take_append_drop]
  rw [processConversion, conversionLoop_specLoop, hargs,
    hspec _ conv fmt _ (not_option_of_conv hvalid.2) hroom]
  simp only [Conv.bind, ParsedSpec.convert, convert_text hvalid.2 hsz hconv, Item.out, hsize]
  cases convText (toChar conv) (specOf opts (as.take (stars opts))) (lenSize opts)
    (as.drop (stars opts)) <;> rfl

/-- How many arguments the stars of a specification take that is not of the language. -/
def badStars (spec : List Byte) : Nat := stars (spec.takeWhile fun b => optionChar (toChar b))

def badCopied (spec : List Byte) : Nat := copied false (spec.takeWhile fun b => optionChar (toChar b))

theorem convert_null {ch : Char} (hch : convChar ch = false) (spec : FmtSpec) (args : List VaArg) :
    convert snoc [] ch spec args = .null := by
  simp only [convChar, List.contains_eq_mem, List.mem_cons, List.not_mem_nil, or_false,
    decide_eq_false_iff_not, not_or] at hch
  unfold convert
  split <;> first | rfl | simp_all

/-- A specification that is not of the language is refused. -/
theorem processConversion_bad {spec : List Byte} (hbad : BadSpec spec)
    (hfits : badCopied spec + 2 ≤ FMTCPYSZ) {args : List VaArg} (hargs : badStars spec ≤ args.length) :
    processConversion snoc [] spec args = .null := by
  have hopts : ∀ b ∈ spec.takeWhile fun b => optionChar (toChar b), optionChar (toChar b) = true :=
    fun b hb => List.all_eq_true.mp List.all_takeWhile b hb
  have hstars : (args.take (badStars spec)).length = stars (spec.takeWhile fun b => optionChar (toChar b)) := by
    rw [List.length_take, Nat.min_eq_left hargs, badStars]
  have hroom : badCopied spec < FMTCPYSZ - 1 := by
    have h32 : FMTCPYSZ = 32 := rfl
    omega
  rw [processConversion, conversionLoop_specLoop, ← List.take_append_drop (badStars spec) args]
  have hsplit := List.takeWhile_append_dropWhile (p := fun b => optionChar (toChar b)) (l := spec)
  cases hrest : spec.dropWhile fun b => optionChar (toChar b) with
  | nil =>
    rw [hrest, List.append_nil] at hsplit
    have hcut := specLoop_cut hopts hstars hroom (args.drop (badStars spec))
    rw [hsplit] at hcut
    rw [hcut]
    rfl
  | cons c rest =>
    have hno : optionChar (toChar c) = false := by
      have hhead := List.head?_dropWhile_not (fun b => optionChar (toChar b)) spec
      rw [hrest] at hhead
      simpa using hhead
    rw [hrest] at hsplit
    have hconv := hbad _ c rest hsplit.symm hopts
    have hspec := (specLoop_spec hopts hstars).2 (FMTCPYSZ - 1) c rest (args.drop (badStars spec)) hno hroom
    rw [hsplit] at hspec
    rw [hspec]
    simp only [Conv.bind, ParsedSpec.convert, convert_null hconv]
    rfl

section Items

variable {O : Type} (emit : O → Byte → O) (isnull : O → Bool)

/-- **The main loop, one item**: the item prints, and the loop goes on behind it, unless a
conversion has come to NULL. -/
theorem format_item {i : Item} (hvalid : i.Valid) (hfits : i.Fits) {as : List VaArg}
    (has : Supplied i.demand as) (fmt : List Byte) (args : List VaArg) (o : O) :
    format emit isnull o (i.text ++ fmt) (as ++ args) =
      match i.out as with
      | none => .undef
      | some out =>
        if i.isSpec = true ∧ isnull (out.foldl emit o) = true then .notsup (out.foldl emit o)
        else format emit isnull (out.foldl emit o) fmt args := by
  cases i with
  | char c =>
    obtain rfl := List.forall₂_nil_right_iff.mp has
    have hround : Round c fmt args [c] fmt args := .inl ⟨hvalid, rfl, rfl, rfl⟩
    rw [Item.text_char_append, List.nil_append, format, List.length_cons,
      formatLoop_round emit isnull hround, if_neg fun h => hvalid h.1]
    simp [Item.out, Item.isSpec, format]
  | spec opts conv =>
    have hproc := processConversion_item hvalid hfits has fmt args
    rw [Item.text_spec_append, format, List.length_cons]
    cases hout : (Item.spec opts conv).out as with
    | none =>
      rw [hout] at hproc
      rw [formatLoop, if_neg (not_not.mpr rfl), processConversion_eq, hproc]
      rfl
    | some out =>
      rw [hout] at hproc
      have hround : Round (byte '%') (opts ++ conv :: fmt) (as ++ args) out fmt args :=
        .inr ⟨rfl, hproc⟩
      rw [formatLoop_round emit isnull hround, formatLoop_rounds isnull args (by simp; omega)]
      simp [Item.isSpec]

/-- A `%` that starts no specification. -/
theorem format_bad {spec : List Byte} (hbad : BadSpec spec) (hfits : badCopied spec + 2 ≤ FMTCPYSZ)
    {args : List VaArg} (hargs : badStars spec ≤ args.length) (o : O) :
    format emit isnull o (byte '%' :: spec) args = .notsup o := by
  rw [format, List.length_cons, formatLoop, if_neg (not_not.mpr rfl), processConversion_eq,
    processConversion_bad hbad hfits hargs]
  rfl

end Items

/-- Items with their arguments. -/
abbrev Calls := List (Item × List VaArg)

/-- The items print these texts of their arguments. -/
def Prints (ps : Calls) (outs : List (List Byte)) : Prop :=
  List.Forall₂ (fun q out => q.1.out q.2 = some out) ps outs

/-- The texts are those of the items. -/
theorem Prints.unique {ps : Calls} {outs outs' : List (List Byte)} (h : Prints ps outs)
    (h' : Prints ps outs') : outs = outs' := by
  induction h generalizing outs' with
  | nil => exact (List.forall₂_nil_left_iff.mp h').symm
  | cons hq _ ih =>
    obtain ⟨out', outs'', hq', htail, rfl⟩ := List.forall₂_cons_left_iff.mp h'
    rw [Option.some.inj (hq.symm.trans hq'), ih htail]

/-- A conversion among the items ends at NULL, when the output starts at `s`. -/
def EndsAtNull (s : Addr) : Calls → Prop
  | [] => False
  | q :: ps =>
    match q.1.out q.2 with
    | none => False
    | some out => (q.1.isSpec = true ∧ s + BitVec.ofNat 32 out.length = 0#32) ∨
        EndsAtNull (s + BitVec.ofNat 32 out.length) ps

/-- A conversion among the items is not defined, and none before it ends at NULL. -/
def ComesToUndefined (s : Addr) : Calls → Prop
  | [] => False
  | q :: ps =>
    match q.1.out q.2 with
    | none => True
    | some out => ¬ (q.1.isSpec = true ∧ s + BitVec.ofNat 32 out.length = 0#32) ∧
        ComesToUndefined (s + BitVec.ofNat 32 out.length) ps

theorem endsAtNull_cons {q : Item × List VaArg} {out : List Byte} (h : q.1.out q.2 = some out)
    (s : Addr) (ps : Calls) :
    EndsAtNull s (q :: ps) ↔ (q.1.isSpec = true ∧ s + BitVec.ofNat 32 out.length = 0#32) ∨
      EndsAtNull (s + BitVec.ofNat 32 out.length) ps := by
  simp only [EndsAtNull, h]

theorem Prints.defined {ps : Calls} {outs : List (List Byte)} (h : Prints ps outs) (s : Addr) :
    ¬ ComesToUndefined s ps := by
  induction h generalizing s with
  | nil => exact not_false
  | cons hout _ ih =>
    simp only [ComesToUndefined, hout]
    exact fun hu => ih _ hu.2

/-- Valid items with all that they need. -/
def Callable (ps : Calls) : Prop := ∀ q ∈ ps, q.1.Valid ∧ q.1.Fits ∧ Supplied q.1.demand q.2

/-- **The main loop over items**, into a buffer. -/
theorem format_items {ps : Calls} (hps : Callable ps) (t : Addr) (tail : List Byte) (rest : List VaArg)
    (o : Cursor) :
    (ComesToUndefined o.s ps → format (outchar t) (fun o => o.s == 0#32) o
      (ps.flatMap (·.1.text) ++ tail) (ps.flatMap (·.2) ++ rest) = .undef) ∧
    (¬ ComesToUndefined o.s ps → EndsAtNull o.s ps → ∃ o', format (outchar t) (fun o => o.s == 0#32) o
      (ps.flatMap (·.1.text) ++ tail) (ps.flatMap (·.2) ++ rest) = .notsup o') ∧
    (¬ ComesToUndefined o.s ps → ¬ EndsAtNull o.s ps → ∃ outs, Prints ps outs ∧
      format (outchar t) (fun o => o.s == 0#32) o (ps.flatMap (·.1.text) ++ tail)
        (ps.flatMap (·.2) ++ rest) =
      format (outchar t) (fun o => o.s == 0#32) (outs.flatten.foldl (outchar t) o) tail rest) := by
  induction ps generalizing o with
  | nil => exact ⟨False.elim, fun _ h => h.elim, fun _ _ => ⟨[], .nil, rfl⟩⟩
  | cons q ps ih =>
    obtain ⟨⟨hvalid, hfits, hsupp⟩, hps⟩ := List.forall_mem_cons.mp hps
    have hitem := format_item (outchar t) (fun o => o.s == 0#32) hvalid hfits hsupp
      (ps.flatMap (·.1.text) ++ tail) (ps.flatMap (·.2) ++ rest) o
    rw [List.flatMap_cons, List.flatMap_cons, List.append_assoc, List.append_assoc, hitem,
      ComesToUndefined, EndsAtNull]
    cases hout : q.1.out q.2 with
    | none => exact ⟨fun _ => rfl, fun h => absurd trivial h, fun h => absurd trivial h⟩
    | some out =>
      have hs : (out.foldl (outchar t) o).s = o.s + BitVec.ofNat 32 out.length := foldl_outchar_s t out o
      obtain ⟨hundef, hnull, hok⟩ := ih hps (out.foldl (outchar t) o)
      simp only [hs, beq_iff_eq] at hundef hnull hok ⊢
      by_cases hat : q.1.isSpec = true ∧ o.s + BitVec.ofNat 32 out.length = 0#32
      · rw [if_pos hat]
        exact ⟨fun h => absurd hat h.1, fun _ _ => ⟨_, rfl⟩, fun _ h => absurd (.inl hat) h⟩
      · rw [if_neg hat]
        simp only [hat, not_false_eq_true, true_and, false_or]
        refine ⟨hundef, hnull, fun hu hn => ?_⟩
        obtain ⟨outs, hprints, hrun⟩ := hok hu hn
        refine ⟨out :: outs, .cons hout hprints, ?_⟩
        rw [hrun, List.flatten_cons, List.foldl_append]

-- ---------------------------------------------------------------------------
-- The parser law
-- ---------------------------------------------------------------------------

/-- Rounds of the main loop: from a format and arguments to what is left of both, with what
has been printed. -/
inductive Rounds : List Byte → List VaArg → List Byte → List Byte → List VaArg → Prop
  | refl (fmt : List Byte) (args : List VaArg) : Rounds fmt args [] fmt args
  | step {c : Byte} {fmt : List Byte} {args : List VaArg} {out fmt₁ : List Byte} {args₁ : List VaArg}
      {text fmt₂ : List Byte} {args₂ : List VaArg} : Round c fmt args out fmt₁ args₁ →
      Rounds fmt₁ args₁ text fmt₂ args₂ → Rounds (c :: fmt) args (out ++ text) fmt₂ args₂

theorem rounds_items {ps : Calls} (hps : Callable ps) {outs : List (List Byte)} (hprints : Prints ps outs)
    (tail : List Byte) (rest : List VaArg) :
    Rounds (ps.flatMap (·.1.text) ++ tail) (ps.flatMap (·.2) ++ rest) outs.flatten tail rest := by
  induction hprints with
  | nil => exact .refl tail rest
  | @cons q out ps outs hout _ ih =>
    obtain ⟨⟨hvalid, hfits, hsupp⟩, htail⟩ := List.forall_mem_cons.mp hps
    obtain ⟨i, as⟩ := q
    rw [List.flatMap_cons, List.flatMap_cons, List.append_assoc, List.append_assoc, List.flatten_cons]
    cases i with
    | char c =>
      obtain rfl := List.forall₂_nil_right_iff.mp hsupp
      obtain rfl := Option.some.inj hout
      exact .step (.inl ⟨hvalid, rfl, rfl, rfl⟩) (ih htail)
    | spec opts conv =>
      have hproc := processConversion_item hvalid hfits hsupp (ps.flatMap (·.1.text) ++ tail)
        (ps.flatMap (·.2) ++ rest)
      rw [show (Item.spec opts conv).out as = some out from hout] at hproc
      rw [Item.text_spec_append]
      exact .step (.inr ⟨rfl, hproc⟩) (ih htail)

/-- Rounds up to the end of the format make up its text. -/
theorem Rounds.textLoop {fmt text rest : List Byte} {args args' : List VaArg}
    (h : Rounds fmt args text rest args') :
    ∀ acc, ∃ k, ∀ n, textLoop (n + k) acc fmt args = Munix.textLoop n (acc ++ text) rest args' := by
  induction h with
  | refl fmt args => exact fun acc => ⟨0, fun n => by rw [List.append_nil]; rfl⟩
  | @step c fmt args out fmt₁ args₁ text fmt₂ args₂ hround _ ih =>
    intro acc
    obtain ⟨k, hk⟩ := ih (acc ++ out)
    refine ⟨k + 1, fun n => ?_⟩
    rw [Munix.textLoop, ← Nat.add_assoc, formatLoop_round _ _ hround, if_neg (by simp), foldl_snoc]
    rw [← List.append_assoc]
    exact hk n

theorem Rounds.formatText {fmt text : List Byte} {args rest : List VaArg}
    (h : Rounds fmt args text [] rest) : formatText fmt args = .ok text := by
  obtain ⟨k, hk⟩ := h.textLoop []
  have hrun : Munix.textLoop (fmt.length + 1 + k) [] fmt args = .ok text := by
    have hk := hk (fmt.length + 1)
    rw [List.nil_append] at hk
    rw [hk]
    rfl
  rw [← hrun, Munix.textLoop, formatLoop_rounds _ _ (by omega)]
  rfl

/-- A format taken apart, with its arguments: the items, and then the end, or a `%` that
starts no specification and still takes an argument for each of its stars. -/
structure Parses (ps : Calls) (tail fmt : List Byte) (args rest : List VaArg) : Prop where
  callable : Callable ps
  fmt_eq   : fmt = ps.flatMap (·.1.text) ++ tail
  args_eq  : args = ps.flatMap (·.2) ++ rest
  tail_eq  : tail = [] ∨ ∃ spec, tail = byte '%' :: spec ∧ BadSpec spec ∧
    badCopied spec + 2 ≤ FMTCPYSZ ∧ badStars spec ≤ rest.length

theorem Callable.valid {ps : Calls} (h : Callable ps) : ∀ i ∈ ps.map (·.1), i.Valid := by
  intro i hi
  obtain ⟨q, hq, rfl⟩ := List.mem_map.mp hi
  exact (h q hq).1

/-- The end of the items says whether the format is of the language. -/
theorem Parses.rejected_iff {ps : Calls} {tail fmt : List Byte} {args rest : List VaArg}
    (h : Parses ps tail fmt args rest) : Rejected fmt ↔ tail ≠ [] := by
  have hfmt : fmt = (ps.map (·.1)).flatMap Item.text ++ tail := by
    rw [h.fmt_eq, List.flatMap_map]
  rcases h.tail_eq with rfl | ⟨spec, rfl, hbad, -⟩
  · rw [List.append_nil] at hfmt
    rw [hfmt]
    exact iff_of_false (not_rejected h.callable.valid) (not_not.mpr rfl)
  · exact iff_of_true ⟨_, spec, h.callable.valid, hbad, hfmt⟩ (List.cons_ne_nil _ _)

/-- What the parser owes to a format and its arguments, for a buffer of `n` bytes at `s`:
`-ENOTSUP` for the formats that are not of the language and for no others; for these, each
item prints of its own arguments, in order, up to the end of the format. These texts one
after the other are the formatted text: its characters are sent to the buffer, so that a
buffer that does not wrap around holds as much of it as fits. -/
structure ParserLaw (m : Mem) (s : Addr) (n : BitVec 32) (ps : Calls) (fmt : List Byte)
    (args rest : List VaArg) : Prop where
  result : ∃ r m', snprintf m s n fmt args = some (r, m') ∧ (r = -ENOTSUP ↔ Rejected fmt)
  reads  : ¬ Rejected fmt → ∃ outs m', Prints ps outs ∧ Rounds fmt args outs.flatten [] rest ∧
    formatText fmt args = .ok outs.flatten ∧
    snprintf m s n fmt args = some ((BitVec.ofNat 32 outs.flatten.length).toInt, m') ∧
    m' = terminate (bufEnd s n) n (outs.flatten.foldl (outchar (bufEnd s n)) ⟨s, m⟩) ∧
    (FitsBelow outs.flatten s n → Truncated outs.flatten s n m m')

/-- The three ways in which `snprintf` ends. -/
theorem snprintf_items {ps : Calls} {tail fmt : List Byte} {args rest : List VaArg}
    (h : Parses ps tail fmt args rest) (m : Mem) (s : Addr) (n : BitVec 32) :
    (ComesToUndefined s ps → snprintf m s n fmt args = none) ∧
    (¬ ComesToUndefined s ps → Rejected fmt ∨ EndsAtNull s ps →
      ∃ m', snprintf m s n fmt args = some (-ENOTSUP, m')) ∧
    (¬ ComesToUndefined s ps → ¬ Rejected fmt → ¬ EndsAtNull s ps →
      ∃ outs, Prints ps outs ∧ Rounds fmt args outs.flatten [] rest ∧
        snprintf m s n fmt args = some ((BitVec.ofNat 32 outs.flatten.length).toInt,
          terminate (bufEnd s n) n (outs.flatten.foldl (outchar (bufEnd s n)) ⟨s, m⟩))) := by
  obtain ⟨hundef, hnull, hok⟩ := format_items h.callable (bufEnd s n) tail rest ⟨s, m⟩
  rw [← h.fmt_eq, ← h.args_eq] at hundef hnull hok
  refine ⟨fun hu => ?_, fun hu hbad => ?_, fun hu haccept hnn => ?_⟩
  · simp only [snprintf, snprintfImpl, hundef hu]
  · have hnotsup : ∃ o', format (outchar (bufEnd s n)) (fun o => o.s == 0#32) ⟨s, m⟩ fmt args =
        .notsup o' := by
      by_cases hn : EndsAtNull s ps
      · exact hnull hu hn
      · -- no conversion before the one that is refused has ended at NULL
        have htail := h.rejected_iff.mp (hbad.resolve_right hn)
        obtain ⟨spec, rfl, hspec, hfits, hargs⟩ := h.tail_eq.resolve_left htail
        obtain ⟨outs, -, hrun⟩ := hok hu hn
        exact ⟨_, hrun.trans (format_bad _ _ hspec hfits hargs _)⟩
    obtain ⟨o', ho'⟩ := hnotsup
    exact ⟨o'.mem, by simp only [snprintf, snprintfImpl, ho']⟩
  · obtain rfl : tail = [] := not_not.mp fun htail => haccept (h.rejected_iff.mpr htail)
    obtain ⟨outs, hprints, hrun⟩ := hok hu hnn
    have hrounds := rounds_items h.callable hprints [] rest
    rw [← h.fmt_eq, ← h.args_eq] at hrounds
    have hend : format (outchar (bufEnd s n)) (fun o => o.s == 0#32) ⟨s, m⟩ fmt args =
        .ok (outs.flatten.foldl (outchar (bufEnd s n)) ⟨s, m⟩) := hrun
    refine ⟨outs, hprints, hrounds, ?_⟩
    simp only [snprintf, snprintfImpl, hend, foldl_outchar_s]
    congr 3
    bv_omega

/-- **The parser accepts exactly its language** and takes the right arguments, if and only
if no conversion is reached that is not defined, and in a format of the language no
conversion ends at NULL and the length is not that of an error. -/
theorem snprintf_parser_iff {ps : Calls} {tail fmt : List Byte} {args rest : List VaArg}
    (h : Parses ps tail fmt args rest) (m : Mem) (s : Addr) (n : BitVec 32) :
    ParserLaw m s n ps fmt args rest ↔
      ¬ ComesToUndefined s ps ∧ (¬ Rejected fmt → ¬ EndsAtNull s ps ∧
        ∀ outs, Prints ps outs → (BitVec.ofNat 32 outs.flatten.length).toInt ≠ -ENOTSUP) := by
  obtain ⟨hundef, hnotsup, hok⟩ := snprintf_items h m s n
  constructor
  · rintro ⟨⟨r, m', hres, hiff⟩, hreads⟩
    have hu : ¬ ComesToUndefined s ps := by
      intro hu
      rw [hundef hu] at hres
      cases hres
    refine ⟨hu, fun haccept => ⟨fun hnull => ?_, fun outs hprints hlen => ?_⟩⟩
    · obtain ⟨m'', hnull⟩ := hnotsup hu (.inr hnull)
      rw [hnull] at hres
      injection hres with hres
      exact haccept (hiff.mp (congrArg Prod.fst hres).symm)
    · obtain ⟨outs', m'', hprints', -, -, hlen', -⟩ := hreads haccept
      rw [hprints'.unique hprints, hlen] at hlen'
      rw [hlen'] at hres
      injection hres with hres
      exact haccept (hiff.mp (congrArg Prod.fst hres).symm)
  · rintro ⟨hu, haccepted⟩
    by_cases hrej : Rejected fmt
    · obtain ⟨m', hres⟩ := hnotsup hu (.inl hrej)
      exact ⟨⟨_, m', hres, iff_of_true rfl hrej⟩, fun h => absurd hrej h⟩
    · obtain ⟨hnull, hlen⟩ := haccepted hrej
      obtain ⟨outs, hprints, hrounds, hres⟩ := hok hu hrej hnull
      refine ⟨⟨_, _, hres, iff_of_false (hlen outs hprints) hrej⟩, fun _ => ?_⟩
      exact ⟨outs, _, hprints, hrounds, hrounds.formatText, hres, rfl, fun hfits => truncated_of_fits hfits m⟩

/-- A call whose format has a star, a 64-bit number, a literal `%` and a string. -/
def callItems : Calls :=
  [(.spec (bytes "*ll") (byte 'd'), [.word 4#32, .word 7#32, .word 0#32]),
    (.spec [] (byte '%'), []), (.char (byte ' '), []),
    (.spec [] (byte 's'), [.ptr 0x2000#32 (bytes "ok" ++ [0#8])])]

theorem callItems_parses : Parses callItems [] (bytes "%*lld%% %s")
    [.word 4#32, .word 7#32, .word 0#32, .ptr 0x2000#32 (bytes "ok" ++ [0#8])] [] where
  callable := by
    intro q hq
    simp only [callItems, List.mem_cons, List.not_mem_nil, or_false] at hq
    rcases hq with rfl | rfl | rfl | rfl
    · exact ⟨by decide, by decide, .cons trivial (.cons trivial (.cons trivial .nil))⟩
    · exact ⟨by decide, by decide, .nil⟩
    · exact ⟨by decide, by decide, .nil⟩
    · exact ⟨by decide, by decide, .cons ⟨_, _, rfl⟩ .nil⟩
  fmt_eq := by decide
  args_eq := rfl
  tail_eq := .inl rfl

theorem callItems_prints :
    Prints callItems [bytes "   7", bytes "%", bytes " ", bytes "ok"] :=
  .cons (by decide) (.cons (by decide) (.cons (by decide) (.cons (by decide) .nil)))

theorem snprintf_parser_call :
    ParserLaw (fun _ => 0#8) 0x104000#32 8#32 callItems (bytes "%*lld%% %s")
      [.word 4#32, .word 7#32, .word 0#32, .ptr 0x2000#32 (bytes "ok" ++ [0#8])] [] := by
  refine (snprintf_parser_iff callItems_parses (fun _ => 0#8) 0x104000#32 8#32).mpr
    ⟨callItems_prints.defined _, fun _ => ⟨?_, fun outs houts => ?_⟩⟩
  · obtain ⟨hnum, hpercent, hspace, hstr⟩ : _ ∧ _ ∧ _ ∧ _ := by
      simpa only [Prints, callItems, List.forall₂_cons, List.forall₂_nil_left_iff, and_true]
        using callItems_prints
    rw [callItems, endsAtNull_cons hnum, endsAtNull_cons hpercent, endsAtNull_cons hspace,
      endsAtNull_cons hstr, EndsAtNull]
    decide
  · rw [← callItems_prints.unique houts]
    decide

/-- Asking for the length of an empty string without a buffer is an error, although the
format is of the language. -/
theorem snprintf_refuses_string :
    Parses [(.spec [] (byte 's'), [.ptr 0x2000#32 [0#8]])] [] (bytes "%s") [.ptr 0x2000#32 [0#8]] [] ∧
      ¬ Rejected (bytes "%s") ∧
      ∀ m, ¬ ParserLaw m 0#32 0#32 [(.spec [] (byte 's'), [.ptr 0x2000#32 [0#8]])] (bytes "%s")
        [.ptr 0x2000#32 [0#8]] [] := by
  have hparses : Parses [(.spec [] (byte 's'), [.ptr 0x2000#32 [0#8]])] [] (bytes "%s")
      [.ptr 0x2000#32 [0#8]] [] :=
    { callable := by
        rintro q (_ | ⟨_, hq⟩)
        · exact ⟨by decide, by decide, .cons ⟨_, _, rfl⟩ .nil⟩
        · cases hq
      fmt_eq := rfl
      args_eq := rfl
      tail_eq := .inl rfl }
  have hprints : Prints [(.spec [] (byte 's'), [.ptr 0x2000#32 [0#8]])] [[]] := .cons rfl .nil
  have hnull : EndsAtNull 0#32 [(.spec [] (byte 's'), [.ptr 0x2000#32 [0#8]])] :=
    (endsAtNull_cons rfl _ _).mpr (.inl ⟨rfl, rfl⟩)
  have haccept : ¬ Rejected (bytes "%s") := fun h => hparses.rejected_iff.mp h rfl
  refine ⟨hparses, haccept, fun m hlaw => ?_⟩
  obtain ⟨r, m', hres, hiff⟩ := hlaw.result
  obtain ⟨m'', herr⟩ := (snprintf_items hparses m 0#32 0#32).2.1 (hprints.defined _) (.inr hnull)
  rw [herr] at hres
  exact haccept (hiff.mp (congrArg Prod.fst (Option.some.inj hres)).symm)

end Munix
