import Munix.Core.Sprintf

/-!
# Munix — what bounded printing writes

Every function of the formatter sends its characters to `outchar` one after
the other, so that running it from an output state is folding `outchar` over
the text it produces (`formatLoop_eq`), whatever the output is. For the bounded
cursor this fold writes the part of the text that fits, and the truncation law
of `snprintf` follows.
-/

namespace Munix

open ByteMem

-- ---------------------------------------------------------------------------
-- Text
-- ---------------------------------------------------------------------------

/-- Recording the output. -/
def snoc (text : List Byte) (c : Byte) : List Byte := text ++ [c]

theorem foldl_snoc (acc l : List Byte) : l.foldl snoc acc = acc ++ l := by
  induction l generalizing acc with
  | nil => simp
  | cons c l ih => simp [ih, snoc]

section Fold

variable {O : Type} (emit : O → Byte → O) (o : O)

theorem outpad_eq (c : Byte) (len : Nat) :
    outpad emit o c len = (List.replicate len c).foldl emit o := by
  induction len generalizing o with
  | zero => rfl
  | succ len ih => rw [outpad, ih, List.replicate_succ, List.foldl_cons]

theorem outstr_eq (str : List Byte) : outstr emit o str = str.foldl emit o := by
  induction str generalizing o with
  | nil => rfl
  | cons c str ih => rw [outstr, ih, List.foldl_cons]

/-- The text of a padded value. -/
def paddedText (spec : FmtSpec) (pre valstr : List Byte) : List Byte :=
  let pad := (padlen spec pre valstr).toNat
  (if !spec.left && !spec.zero then List.replicate pad (byte ' ') else []) ++ pre ++
    (if !spec.left && spec.zero then List.replicate pad (byte '0') else []) ++ valstr ++
    (if spec.left then List.replicate pad (byte ' ') else [])

theorem outpadded_eq (spec : FmtSpec) (pre valstr : List Byte) :
    outpadded emit o spec pre valstr = (paddedText spec pre valstr).foldl emit o := by
  unfold outpadded paddedText
  simp only [outpad_eq, outstr_eq, List.foldl_append]
  cases spec.left <;> cases spec.zero <;> rfl

theorem outpadded_snoc (spec : FmtSpec) (pre valstr : List Byte) :
    outpadded snoc [] spec pre valstr = paddedText spec pre valstr := by
  rw [outpadded_eq, foldl_snoc, List.nil_append]

/-- Replay recorded text. -/
def replay {β : Type} (r : List Byte × β) : O × β := (r.1.foldl emit o, r.2)

theorem formatStr_eq (spec : FmtSpec) (args : List VaArg) :
    formatStr emit o spec args = (formatStr snoc [] spec args).map (replay emit o) := by
  cases args with
  | nil => rfl
  | cons a args =>
    cases a with
    | word w => rfl
    | ptr addr obj =>
      simp only [formatStr, Option.map_map]
      congr 1
      funext str
      simp [replay, outpadded_eq, foldl_snoc]

theorem formatChar_eq (spec : FmtSpec) (args : List VaArg) :
    formatChar emit o spec args = (formatChar snoc [] spec args).map (replay emit o) := by
  simp only [formatChar, Option.map_bind]
  congr 1
  funext r
  simp only [Option.map_map, Function.comp_apply]
  congr 1
  funext str
  simp [replay, outpadded_eq, foldl_snoc]

theorem formatSigned_eq (spec : FmtSpec) (base : Nat) (args : List VaArg) :
    formatSigned emit o spec base args =
      (formatSigned snoc [] spec base args).map (replay emit o) := by
  simp only [formatSigned, Option.map_bind]
  congr 1
  funext r
  simp only [Option.map_map, Function.comp_apply]
  congr 1
  funext str
  simp [replay, outpadded_eq, foldl_snoc]

theorem formatUnsigned_eq (spec : FmtSpec) (base : Nat) (up : Bool) (args : List VaArg) :
    formatUnsigned emit o spec base up args =
      (formatUnsigned snoc [] spec base up args).map (replay emit o) := by
  simp only [formatUnsigned, Option.map_bind]
  congr 1
  funext r
  simp only [Option.map_map, Function.comp_apply]
  congr 1
  funext str
  simp [replay, outpadded_eq, foldl_snoc]

end Fold

-- ---------------------------------------------------------------------------
-- The formatter
-- ---------------------------------------------------------------------------

def Conv.map {α β : Type} (f : α → β) : Conv α → Conv β
  | .undef => .undef
  | .null => .null
  | .ok a => .ok (f a)

def Conv.bind {α β : Type} (x : Conv α) (f : α → Conv β) : Conv β :=
  match x with
  | .undef => .undef
  | .null => .null
  | .ok a => f a

theorem Conv.ofOption_map {α β : Type} (f : α → β) (x : Option α) :
    Conv.ofOption (x.map f) = (Conv.ofOption x).map f := by
  cases x <;> rfl

section Format

variable {O : Type} (emit : O → Byte → O) (isnull : O → Bool) (o : O)

theorem convert_eq (ch : Char) (spec : FmtSpec) (args : List VaArg) :
    convert emit o ch spec args = (convert snoc [] ch spec args).map (replay emit o) := by
  have hptr : formatPointer emit o spec args =
      (formatPointer snoc [] spec args).map (replay emit o) := formatUnsigned_eq emit o _ _ _ _
  unfold convert
  split
  · rfl
  · rw [formatStr_eq emit o, Conv.ofOption_map]
  · rw [formatChar_eq emit o, Conv.ofOption_map]
  · rw [formatSigned_eq emit o, Conv.ofOption_map]
  · rw [formatSigned_eq emit o, Conv.ofOption_map]
  · rw [formatUnsigned_eq emit o, Conv.ofOption_map]
  · rw [formatUnsigned_eq emit o, Conv.ofOption_map]
  · rw [formatUnsigned_eq emit o, Conv.ofOption_map]
  · rw [formatUnsigned_eq emit o, Conv.ofOption_map]
  · rw [formatUnsigned_eq emit o, Conv.ofOption_map]
  · rw [formatUnsigned_eq emit o, Conv.ofOption_map]
  · rw [hptr, Conv.ofOption_map]
  · rfl

theorem conversionLoop_eq (room : Nat) (fmt : List Byte) (ps : ParseState) (args : List VaArg) :
    conversionLoop emit o room fmt ps args =
      (conversionLoop snoc [] room fmt ps args).map (replay emit o) := by
  induction room generalizing fmt ps args with
  | zero => rfl
  | succ room ih =>
    cases fmt with
    | nil => rfl
    | cons b fmt =>
      rw [conversionLoop, conversionLoop]
      cases specChar (toChar b) (toChar (fmt.headD 0#8)) ps args with
      | option ps skip args => exact ih _ _ _
      | undef => rfl
      | conversion =>
        dsimp only
        rw [convert_eq emit o]
        cases convert snoc [] (toChar b) ps.spec args with
        | undef => rfl
        | null => rfl
        | ok r => rfl

theorem processConversion_eq (fmt : List Byte) (args : List VaArg) :
    processConversion emit o fmt args =
      (processConversion snoc [] fmt args).map (replay emit o) :=
  conversionLoop_eq emit o _ fmt _ args

end Format

-- ---------------------------------------------------------------------------
-- Specifications
-- ---------------------------------------------------------------------------

/-- A specification up to its conversion character, and what comes after it. -/
structure ParsedSpec where
  ch   : Char
  spec : FmtSpec
  fmt  : List Byte
  args : List VaArg

/-- The loop of `process_conversion`, which does not depend on the output before it
comes to a conversion. -/
def specLoop : Nat → List Byte → ParseState → List VaArg → Conv ParsedSpec
  | 0, _, _, _ => .undef
  | _ + 1, [], _, _ => .null
  | room + 1, b :: fmt, ps, args =>
    match specChar (toChar b) (toChar (fmt.headD 0#8)) ps args with
    | .option ps skip args => specLoop room (if skip then fmt.tail else fmt) ps args
    | .undef => .undef
    | .conversion => .ok ⟨toChar b, ps.spec, fmt, args⟩

/-- The conversion that a specification asks for. -/
def ParsedSpec.convert {O : Type} (emit : O → Byte → O) (o : O) (p : ParsedSpec) :
    Conv (O × List Byte × List VaArg) :=
  (Munix.convert emit o p.ch p.spec p.args).map fun r => (r.1, p.fmt, r.2)

/-- First the specification, then the conversion. -/
theorem conversionLoop_specLoop {O : Type} (emit : O → Byte → O) (o : O) (room : Nat)
    (fmt : List Byte) (ps : ParseState) (args : List VaArg) :
    conversionLoop emit o room fmt ps args =
      (specLoop room fmt ps args).bind (ParsedSpec.convert emit o) := by
  induction room generalizing fmt ps args with
  | zero => rfl
  | succ room ih =>
    cases fmt with
    | nil => rfl
    | cons b fmt =>
      rw [conversionLoop, specLoop]
      cases specChar (toChar b) (toChar (fmt.headD 0#8)) ps args with
      | option ps skip args => exact ih _ _ _
      | undef => rfl
      | conversion =>
        dsimp only [Conv.bind, ParsedSpec.convert]
        cases Munix.convert emit o (toChar b) ps.spec args <;> rfl

-- ---------------------------------------------------------------------------
-- Rounds
-- ---------------------------------------------------------------------------

section Rounds

variable {O : Type} {emit : O → Byte → O} {o : O}

theorem conversionLoop_length {room : Nat} {fmt : List Byte} {ps : ParseState} {args : List VaArg}
    {r : O × List Byte × List VaArg} (h : conversionLoop emit o room fmt ps args = .ok r) :
    r.2.1.length < fmt.length := by
  induction room generalizing fmt ps args with
  | zero => cases h
  | succ room ih =>
    cases fmt with
    | nil => cases h
    | cons b fmt =>
      rw [conversionLoop] at h
      split at h
      next ps skip args _ =>
        have hlt := ih h
        cases skip with
        | true =>
          simp only [if_true, List.length_tail] at hlt
          simp only [List.length_cons]
          omega
        | false => exact hlt.trans (by simp)
      next => cases h
      next =>
        split at h
        · cases h
        · cases h
        · cases h
          simp

/-- Every round consumes a character, so that there are never more rounds than
characters. -/
theorem formatLoop_rounds (isnull : O → Bool) {n : Nat} {fmt : List Byte} (args : List VaArg)
    (hn : fmt.length < n) :
    formatLoop emit isnull n o fmt args = format emit isnull o fmt args := by
  have hmono : ∀ (k n : Nat) (o : O) (fmt : List Byte) (args : List VaArg), fmt.length < n →
      formatLoop emit isnull (n + k) o fmt args = formatLoop emit isnull n o fmt args := by
    intro k n
    induction n with
    | zero => intro o fmt args h; simp at h
    | succ n ih =>
      intro o fmt args h
      rw [Nat.succ_add]
      cases fmt with
      | nil => rfl
      | cons c fmt =>
        rw [List.length_cons] at h
        rw [formatLoop, formatLoop]
        split
        · exact ih _ _ _ (by omega)
        · cases hp : processConversion emit o fmt args with
          | undef => rfl
          | null => rfl
          | ok r =>
            have hlt : r.2.1.length < fmt.length := conversionLoop_length hp
            simp only [ih r.1 r.2.1 r.2.2 (by omega)]
  obtain ⟨k, rfl⟩ := Nat.exists_eq_add_of_lt hn
  rw [format, show fmt.length + k + 1 = fmt.length + 1 + k by omega]
  exact hmono k _ o fmt args (Nat.lt_succ_self _)

end Rounds

/-- A round of the main loop that starts with the character `c` prints `out` and
leaves `fmt'` and `args'`. -/
def Round (c : Byte) (fmt : List Byte) (args : List VaArg) (out fmt' : List Byte)
    (args' : List VaArg) : Prop :=
  (c ≠ byte '%' ∧ out = [c] ∧ fmt' = fmt ∧ args' = args) ∨
    (c = byte '%' ∧ processConversion snoc [] fmt args = .ok (out, fmt', args'))

/-- The format starts with a conversion that prints nothing. -/
def EmptyConversion (fmt : List Byte) (args : List VaArg) : Prop :=
  ∃ fmt₁ fmt' args', fmt = byte '%' :: fmt₁ ∧
    processConversion snoc [] fmt₁ args = .ok ([], fmt', args')

theorem Round.unique {c : Byte} {fmt out fmt' out₁ fmt₁ : List Byte} {args args' args₁ : List VaArg}
    (h : Round c fmt args out fmt' args') (h₁ : Round c fmt args out₁ fmt₁ args₁) :
    out = out₁ ∧ fmt' = fmt₁ ∧ args' = args₁ := by
  obtain ⟨hc, rfl, rfl, rfl⟩ | ⟨hc, hp⟩ := h <;> obtain ⟨hc₁, rfl, rfl, rfl⟩ | ⟨hc₁, hp₁⟩ := h₁
  · exact ⟨rfl, rfl, rfl⟩
  · exact absurd hc₁ hc
  · exact absurd hc hc₁
  · simpa [hp] using hp₁

/-- The last thing that the format prints is a character of its own: its last round
is not a conversion. -/
inductive PlainEnd : List Byte → List VaArg → Prop where
  | last {c : Byte} {args : List VaArg} (hc : c ≠ byte '%') : PlainEnd [c] args
  | round {c : Byte} {fmt out fmt' : List Byte} {args args' : List VaArg}
      (h : Round c fmt args out fmt' args') (hrest : PlainEnd fmt' args') : PlainEnd (c :: fmt) args

/-- The main loop that records the text. -/
def textLoop (n : Nat) (acc fmt : List Byte) (args : List VaArg) : Formatted (List Byte) :=
  formatLoop snoc (fun _ => false) n acc fmt args

theorem textLoop_round {n : Nat} {c : Byte} {acc fmt text : List Byte} {args : List VaArg}
    (h : textLoop (n + 1) acc (c :: fmt) args = .ok text) :
    ∃ out fmt' args', Round c fmt args out fmt' args' ∧
      textLoop n (acc ++ out) fmt' args' = .ok text := by
  rw [textLoop, formatLoop] at h
  split at h
  next hc => exact ⟨[c], fmt, args, .inl ⟨hc, rfl, rfl, rfl⟩, h⟩
  next hc =>
    rw [processConversion_eq] at h
    cases hp : processConversion snoc [] fmt args with
    | undef => simp [hp, Conv.map] at h
    | null => simp [hp, Conv.map] at h
    | ok r =>
      refine ⟨r.1, r.2.1, r.2.2, .inr ⟨not_not.mp hc, hp⟩, ?_⟩
      simpa [hp, Conv.map, replay, foldl_snoc, textLoop] using h

/-- Such a format prints something. -/
theorem PlainEnd.length_lt {n : Nat} {acc fmt text : List Byte} {args : List VaArg}
    (hplain : PlainEnd fmt args) (h : textLoop n acc fmt args = .ok text) : acc.length < text.length := by
  induction hplain generalizing n acc with
  | last hc =>
    rcases n with _ | n
    · cases h
    · obtain ⟨out, fmt', args', hround, hrest⟩ := textLoop_round h
      obtain ⟨-, rfl, rfl, rfl⟩ | ⟨rfl, -⟩ := hround
      · rcases n with _ | n
        · cases hrest
        · obtain rfl := Formatted.ok.inj hrest
          simp
      · exact absurd rfl hc
  | round h' _ ih =>
    rcases n with _ | n
    · cases h
    · obtain ⟨out, fmt', args', hround, hrest⟩ := textLoop_round h
      obtain ⟨rfl, rfl, rfl⟩ := h'.unique hround
      have := ih hrest
      rw [List.length_append] at this
      omega

section Simulation

variable {O : Type} (emit : O → Byte → O) (isnull : O → Bool)

theorem formatLoop_round {n : Nat} {c : Byte} {fmt out fmt' : List Byte} {args args' : List VaArg}
    (h : Round c fmt args out fmt' args') (o : O) :
    formatLoop emit isnull (n + 1) o (c :: fmt) args =
      if c = byte '%' ∧ isnull (out.foldl emit o) then .notsup (out.foldl emit o)
      else formatLoop emit isnull n (out.foldl emit o) fmt' args' := by
  rw [formatLoop]
  obtain ⟨hc, rfl, rfl, rfl⟩ | ⟨rfl, hp⟩ := h
  · simp [hc]
  · rw [processConversion_eq, hp]
    simp [Conv.map, replay]

/-- **Formatting is sending the formatted text to the output**, character by
character, unless the output comes to a position that is NULL. -/
theorem formatLoop_eq {n : Nat} (acc : List Byte) {fmt text : List Byte} {args : List VaArg}
    (h : textLoop n acc fmt args = .ok text) :
    ∃ rest, text = acc ++ rest ∧ ∀ o : O,
      (formatLoop emit isnull n o fmt args = .ok (rest.foldl emit o) ∨
        ∃ o', formatLoop emit isnull n o fmt args = .notsup o') ∧
      ((∀ p, p <+: rest → p ≠ [] → isnull (p.foldl emit o) = false) →
        (isnull o = true → ¬ EmptyConversion fmt args) →
        formatLoop emit isnull n o fmt args = .ok (rest.foldl emit o)) := by
  induction n generalizing acc fmt args with
  | zero => cases h
  | succ n ih =>
    cases fmt with
    | nil =>
      obtain rfl : acc = text := by simpa [textLoop, formatLoop] using h
      exact ⟨[], by simp, fun o => ⟨.inl rfl, fun _ _ => rfl⟩⟩
    | cons c fmt =>
      obtain ⟨out, fmt', args', hround, hrest⟩ := textLoop_round h
      obtain ⟨rest, rfl, hsim⟩ := ih (acc ++ out) hrest
      refine ⟨out ++ rest, by simp, fun o => ?_⟩
      obtain ⟨hany, hclear⟩ := hsim (out.foldl emit o)
      rw [formatLoop_round emit isnull hround, List.foldl_append]
      constructor
      · split
        · exact .inr ⟨_, rfl⟩
        · exact hany
      · intro hpos hempty
        -- the position after this round is not NULL, if it is checked
        have hout : c = byte '%' → isnull (out.foldl emit o) = false := by
          rintro rfl
          by_cases hnil : out = []
          · subst hnil
            obtain ⟨hc, -⟩ | ⟨-, hp⟩ := hround
            · exact absurd rfl hc
            · by_contra hnull
              exact hempty (by simpa using hnull) ⟨_, _, _, rfl, hp⟩
          · exact hpos out (List.prefix_append _ _) hnil
        have hnot : ¬ (c = byte '%' ∧ isnull (out.foldl emit o) = true) := by
          rintro ⟨hc, hnull⟩
          rw [hout hc] at hnull
          cases hnull
        rw [if_neg hnot]
        apply hclear
        · intro p hp hne
          rw [← List.foldl_append]
          exact hpos _ ((List.prefix_append_right_inj out).mpr hp) (by simp [hne])
        · intro hnull
          -- only a literal character leaves the position unchecked, and it moves it
          obtain ⟨-, rfl, -⟩ | ⟨rfl, -⟩ := hround
          · rw [hpos [c] (List.prefix_append _ _) (by simp)] at hnull
            cases hnull
          · rw [hout rfl] at hnull
            cases hnull

/-- Where the output stops depends on where it is NULL only. It stops after a part of
the text, at a conversion, or it gets to the end; if that is NULL, then because the
last round is not a conversion. -/
theorem formatLoop_stops {n : Nat} (acc : List Byte) {fmt text : List Byte} {args : List VaArg}
    (h : textLoop n acc fmt args = .ok text) :
    ∃ rest, text = acc ++ rest ∧ (fmt = [] → rest = []) ∧ ∀ null : List Byte → Bool,
      (fmt ≠ [] ∧ ∃ p, p <+: rest ∧ null p = true ∧ (p = rest → ¬ PlainEnd fmt args) ∧
        ∀ o : O, (∀ q, isnull (q.foldl emit o) = null q) →
          formatLoop emit isnull n o fmt args = .notsup (p.foldl emit o)) ∨
      ((null rest = true → fmt = [] ∨ PlainEnd fmt args) ∧
        ∀ o : O, (∀ q, isnull (q.foldl emit o) = null q) →
          formatLoop emit isnull n o fmt args = .ok (rest.foldl emit o)) := by
  induction n generalizing acc fmt args with
  | zero => cases h
  | succ n ih =>
    cases fmt with
    | nil =>
      obtain rfl : acc = text := by simpa [textLoop, formatLoop] using h
      exact ⟨[], by simp, fun _ => rfl, fun null => .inr ⟨fun _ => .inl rfl, fun o _ => rfl⟩⟩
    | cons c fmt =>
      obtain ⟨out, fmt', args', hround, hloop⟩ := textLoop_round h
      obtain ⟨rest, rfl, hnil, hstops⟩ := ih (acc ++ out) hloop
      refine ⟨out ++ rest, by simp, by simp, fun null => ?_⟩
      by_cases hstop : c = byte '%' ∧ null out = true
      · -- this conversion ends at NULL
        refine .inl ⟨by simp, out, List.prefix_append _ _, hstop.2, fun hall hplain => ?_, fun o ho => ?_⟩
        · have hrest : rest = [] := by simpa using hall
          cases hplain with
          | last hc => exact hc hstop.1
          | round h' hplain =>
            obtain ⟨rfl, rfl, rfl⟩ := h'.unique hround
            have := hplain.length_lt hloop
            simp [hrest] at this
        · rw [formatLoop_round emit isnull hround, if_pos ⟨hstop.1, (ho out).trans hstop.2⟩]
      · have hgo : ∀ o : O, (∀ q, isnull (q.foldl emit o) = null q) →
            formatLoop emit isnull (n + 1) o (c :: fmt) args =
              formatLoop emit isnull n (out.foldl emit o) fmt' args' := fun o ho => by
          rw [formatLoop_round emit isnull hround, if_neg (by rw [ho out]; exact hstop)]
        have hnext : ∀ o : O, (∀ q, isnull (q.foldl emit o) = null q) →
            ∀ q, isnull (q.foldl emit (out.foldl emit o)) = null (out ++ q) := fun o ho q => by
          rw [← List.foldl_append, ho]
        obtain ⟨hne, p, hp, hnull, hplain, hfail⟩ | ⟨hplain, hok⟩ := hstops fun q => null (out ++ q)
        · refine .inl ⟨by simp, out ++ p, (List.prefix_append_right_inj out).mpr hp, hnull,
            fun hall hend => ?_, fun o ho => ?_⟩
          · cases hend with
            | last hc =>
              -- after this character there is no conversion
              obtain ⟨-, -, rfl, -⟩ | ⟨hc', -⟩ := hround
              · exact hne rfl
              · exact hc hc'
            | round h' hend =>
              obtain ⟨rfl, rfl, rfl⟩ := h'.unique hround
              exact hplain (by simpa using hall) hend
          · rw [hgo o ho, hfail _ (hnext o ho), List.foldl_append]
        · refine .inr ⟨fun hnull => .inr ?_, fun o ho => ?_⟩
          · rcases hplain hnull with rfl | hend
            · have hc : c ≠ byte '%' := by
                rintro rfl
                refine hstop ⟨rfl, ?_⟩
                simpa [hnil rfl] using hnull
              obtain ⟨-, -, rfl, -⟩ | ⟨hc', -⟩ := hround
              · exact .last hc
              · exact absurd hc' hc
            · exact .round hround hend
          · rw [hgo o ho, hok _ (hnext o ho), List.foldl_append]

end Simulation

theorem foldl_outchar_s (t : Addr) (text : List Byte) (o : Cursor) :
    (text.foldl (outchar t) o).s = o.s + BitVec.ofNat 32 text.length := by
  induction text generalizing o with
  | nil => simp
  | cons c text ih =>
    rw [List.foldl_cons, ih, outchar, List.length_cons]
    bv_omega

/-- What `snprintf_impl` makes of a format from one address: it stops where a
conversion ends at NULL, or gets to the end. -/
theorem snprintfImpl_stops {fmt text : List Byte} {args : List VaArg}
    (h : formatText fmt args = .ok text) (s : Addr) (n : BitVec 32) :
    (∃ p, p <+: text ∧ s + BitVec.ofNat 32 p.length = 0#32 ∧ (p = text → ¬ PlainEnd fmt args) ∧
      ∀ m, snprintfImpl m s n fmt args =
        some (-ENOTSUP, (p.foldl (outchar (bufEnd s n)) ⟨s, m⟩).mem)) ∨
    ((s + BitVec.ofNat 32 text.length = 0#32 → fmt = [] ∨ PlainEnd fmt args) ∧
      ∀ m, snprintfImpl m s n fmt args =
        some ((BitVec.ofNat 32 text.length).toInt,
          terminate (bufEnd s n) n (text.foldl (outchar (bufEnd s n)) ⟨s, m⟩))) := by
  obtain ⟨rest, rfl, -, hstops⟩ :=
    formatLoop_stops (outchar (bufEnd s n)) (fun o => o.s == 0#32) [] h
  have hpos : ∀ m : Mem, ∀ q : List Byte, ((q.foldl (outchar (bufEnd s n)) ⟨s, m⟩).s == 0#32) =
      (s + BitVec.ofNat 32 q.length == 0#32) := fun m q => by rw [foldl_outchar_s]
  obtain ⟨-, p, hp, hnull, hplain, hfail⟩ | ⟨hplain, hok⟩ :=
    hstops fun q => s + BitVec.ofNat 32 q.length == 0#32
  · refine .inl ⟨p, hp, by simpa using hnull, hplain, fun m => ?_⟩
    simp only [snprintfImpl, format, hfail ⟨s, m⟩ (hpos m)]
  · refine .inr ⟨fun hnull => hplain (by simpa using hnull), fun m => ?_⟩
    have hlen : s + BitVec.ofNat 32 text.length - s = BitVec.ofNat 32 text.length := by bv_omega
    simp only [snprintfImpl, format, hok ⟨s, m⟩ (hpos m), foldl_outchar_s, hlen]

/-- What `snprintf_impl` makes of a format with a text, from any buffer. -/
theorem snprintfImpl_cases {fmt text : List Byte} {args : List VaArg}
    (h : formatText fmt args = .ok text) (m : Mem) (s : Addr) (n : BitVec 32) :
    (∃ m', snprintfImpl m s n fmt args = some (-ENOTSUP, m')) ∨
      snprintfImpl m s n fmt args =
        some (((text.foldl (outchar (bufEnd s n)) ⟨s, m⟩).s - s).toInt,
          terminate (bufEnd s n) n (text.foldl (outchar (bufEnd s n)) ⟨s, m⟩)) := by
  obtain ⟨rest, rfl, hsim⟩ :=
    formatLoop_eq (outchar (bufEnd s n)) (fun o => o.s == 0#32) [] h
  obtain hok | ⟨o', hnull⟩ := (hsim ⟨s, m⟩).1
  · right
    simp only [snprintfImpl, format, hok]
  · left
    exact ⟨o'.mem, by simp only [snprintfImpl, format, hnull]⟩

-- ---------------------------------------------------------------------------
-- Bounded output
-- ---------------------------------------------------------------------------

/-- Nothing is written from the end of the buffer on. -/
theorem foldl_outchar_mem_end {t a : Addr} (ha : t ≤ a) (text : List Byte) (o : Cursor) :
    (text.foldl (outchar t) o).mem a = o.mem a := by
  induction text generalizing o with
  | nil => rfl
  | cons c text ih =>
    rw [List.foldl_cons, ih, outchar]
    dsimp only
    split
    · exact store8_ne (by bv_omega)
    · rfl

/-- Memory after the output of a text that does not wrap around: the part of it
that fits is there, and nothing else has changed. -/
theorem foldl_outchar_mem {t : Addr} {text : List Byte} {o : Cursor}
    (h : o.s.toNat + text.length < 2 ^ 32) (a : Addr) :
    (text.foldl (outchar t) o).mem a =
      if o.s ≤ a ∧ a < t then text.getD (a.toNat - o.s.toNat) (o.mem a) else o.mem a := by
  induction text generalizing o with
  | nil => simp
  | cons c text ih =>
    simp only [List.length_cons] at h
    have hs : (o.s + 1#32).toNat = o.s.toNat + 1 := by bv_omega
    have hrest : (o.s + 1#32).toNat + text.length < 2 ^ 32 := by omega
    rw [List.foldl_cons, ih hrest]
    simp only [outchar]
    by_cases ha : a = o.s
    · subst ha
      have hlt : ¬ o.s + 1#32 ≤ o.s := by bv_omega
      by_cases hin : o.s < t <;> simp [hlt, hin, store8]
    · have hmem : (if o.s < t then store8 o.mem o.s c else o.mem) a = o.mem a := by
        split
        · exact store8_ne ha
        · rfl
      have hle : o.s + 1#32 ≤ a ↔ o.s ≤ a := by bv_omega
      rw [hmem]
      simp only [hle]
      split
      next hin =>
        have hidx : a.toNat - o.s.toNat = a.toNat - (o.s + 1#32).toNat + 1 := by bv_omega
        rw [hidx, List.getD_cons_succ]
      next => rfl

-- ---------------------------------------------------------------------------
-- The truncation law
-- ---------------------------------------------------------------------------

/-- A buffer of `n` bytes at `s` holds as much of the text as fits, and a
terminator; no other byte has been written. -/
structure Truncated (text : List Byte) (s : Addr) (n : BitVec 32) (m m' : Mem) : Prop where
  text_eq : n ≠ 0#32 → ∀ i, i < min (n.toNat - 1) text.length →
    m' (s + BitVec.ofNat 32 i) = text.getD i 0#8
  nul : n ≠ 0#32 → m' (s + BitVec.ofNat 32 (min (n.toNat - 1) text.length)) = 0#8
  other : ∀ a : Addr, n = 0#32 ∨ min (n.toNat - 1) text.length < (a - s).toNat → m' a = m a

/-- The truncation law at a buffer address, for every size. -/
def TruncationLaw (s : Addr) (fmt : List Byte) (args : List VaArg) (text : List Byte) : Prop :=
  ∀ (m : Mem) (n : BitVec 32), ∃ m', snprintf m s n fmt args = some ((text.length : Int), m') ∧
    vsnprintf m s n fmt args = some ((text.length : Int), m') ∧ Truncated text s n m m'

section Law

variable {text : List Byte} {s : Addr}

/-- The end of the text has an address, and so has the byte after it or the end
of the buffer. -/
def FitsBelow (text : List Byte) (s : Addr) (n : BitVec 32) : Prop :=
  s.toNat + text.length < 2 ^ 32 ∧
    (s.toNat + text.length + 1 < 2 ^ 32 ∨ s.toNat + n.toNat < 2 ^ 32)

/-- The terminator is written after the text that fits. -/
theorem terminate_eq {n : BitVec 32} (hfits : FitsBelow text s n) (hn : n ≠ 0#32) (mem : Mem) :
    terminate (bufEnd s n) n ⟨s + BitVec.ofNat 32 text.length, mem⟩ =
      store8 mem (s + BitVec.ofNat 32 (min (n.toNat - 1) text.length)) 0#8 := by
  obtain ⟨hlen, hfits⟩ := hfits
  have hpos : 0 < n.toNat := by bv_omega
  rw [terminate, if_pos hn]
  dsimp only
  by_cases hlt : text.length < n.toNat
  · have hin : s + BitVec.ofNat 32 text.length < bufEnd s n := by
      unfold bufEnd UINTPTR_MAX
      split <;> bv_omega
    rw [if_pos hin, Nat.min_eq_right (by omega)]
  · have hend : bufEnd s n = s + n := if_neg (by bv_omega)
    have hout : ¬ s + BitVec.ofNat 32 text.length < s + n := by bv_omega
    have hlast : s + n - 1#32 = s + BitVec.ofNat 32 (n.toNat - 1) := by bv_omega
    rw [hend, if_neg hout, hlast, Nat.min_eq_left (by omega)]

theorem truncated_of_fits {n : BitVec 32} (hfits : FitsBelow text s n) (m : Mem) :
    Truncated text s n m
      (terminate (bufEnd s n) n (text.foldl (outchar (bufEnd s n)) ⟨s, m⟩)) := by
  set o := text.foldl (outchar (bufEnd s n)) ⟨s, m⟩ with ho
  have hs : o.s = s + BitVec.ofNat 32 text.length := foldl_outchar_s _ _ _
  have hmem : ∀ a, o.mem a = if s ≤ a ∧ a < bufEnd s n then text.getD (a.toNat - s.toNat) (m a)
      else m a := foldl_outchar_mem (o := ⟨s, m⟩) hfits.1
  have hterm : n ≠ 0#32 → terminate (bufEnd s n) n o =
      store8 o.mem (s + BitVec.ofNat 32 (min (n.toNat - 1) text.length)) 0#8 := by
    intro hn
    rw [← terminate_eq hfits hn, ← hs]
  obtain ⟨hlen, hfits⟩ := hfits
  refine ⟨fun hn i hi => ?_, fun hn => ?_, fun a ha => ?_⟩
  · obtain ⟨hi₁, hi₂⟩ := Nat.lt_min.mp hi
    have hne : s + BitVec.ofNat 32 i ≠
        s + BitVec.ofNat 32 (min (n.toNat - 1) text.length) := by bv_omega
    have hin : s ≤ s + BitVec.ofNat 32 i ∧ s + BitVec.ofNat 32 i < bufEnd s n := by
      unfold bufEnd UINTPTR_MAX
      split <;> bv_omega
    have hidx : (s + BitVec.ofNat 32 i).toNat - s.toNat = i := by bv_omega
    rw [hterm hn, store8_ne hne, hmem, if_pos hin, hidx]
    simp [List.getD_eq_getElem?_getD, List.getElem?_eq_getElem hi₂]
  · rw [hterm hn, store8_same]
  · by_cases hn : n = 0#32
    · subst hn
      have hend : bufEnd s 0#32 = s := by simp [bufEnd]
      rw [terminate, if_neg (by simp), hmem, hend, if_neg (by bv_omega)]
    · have ha := ha.resolve_left hn
      have hpos : 0 < n.toNat := by bv_omega
      have hne : a ≠ s + BitVec.ofNat 32 (min (n.toNat - 1) text.length) := by
        rintro rfl
        bv_omega
      rw [hterm hn, store8_ne hne, hmem]
      split
      next hin =>
        -- a byte of the buffer beyond the text
        have hidx : text.length ≤ a.toNat - s.toNat := by
          obtain ⟨hle, hlt⟩ := hin
          unfold bufEnd UINTPTR_MAX at hlt
          split at hlt <;> bv_omega
        simp [List.getD_eq_getElem?_getD, List.getElem?_eq_none hidx]
      next => rfl

variable {fmt : List Byte} {args : List VaArg}

theorem snprintfImpl_of_fits (h : formatText fmt args = .ok text) (hlen : text.length < 2 ^ 31)
    (hfits : s.toNat + text.length < 2 ^ 32) (hnull : s = 0#32 → ¬ EmptyConversion fmt args)
    (m : Mem) (n : BitVec 32) :
    snprintfImpl m s n fmt args = some ((text.length : Int),
      terminate (bufEnd s n) n (text.foldl (outchar (bufEnd s n)) ⟨s, m⟩)) := by
  obtain ⟨_, rfl, hsim⟩ :=
    formatLoop_eq (outchar (bufEnd s n)) (fun o => o.s == 0#32) [] h
  have hok := (hsim ⟨s, m⟩).2 ?_ ?_
  · simp only [snprintfImpl, format, hok, foldl_outchar_s]
    have hint : (s + BitVec.ofNat 32 text.length - s).toInt = text.length := by
      have hnat : (s + BitVec.ofNat 32 text.length - s).toNat = text.length := by bv_omega
      rw [BitVec.toInt_eq_toNat_of_lt (by omega), hnat]
    rw [hint]
  · -- the position moves towards the end of the address space
    intro p hp hne
    have hp₁ : 0 < p.length := List.length_pos_iff.mpr hne
    have hp₂ : p.length ≤ text.length := hp.length_le
    have hs : s + BitVec.ofNat 32 p.length ≠ 0#32 := by bv_omega
    simpa [foldl_outchar_s] using hs
  · intro hs
    exact hnull (by simpa using hs)

theorem snprintfImpl_null (h : EmptyConversion fmt args) (m : Mem) (n : BitVec 32) :
    snprintfImpl m 0#32 n fmt args = some (-ENOTSUP, m) := by
  obtain ⟨fmt₁, fmt', args', rfl, hp⟩ := h
  have hround : Round (byte '%') fmt₁ args [] fmt' args' := .inr ⟨rfl, hp⟩
  simp only [snprintfImpl, format, List.length_cons]
  rw [formatLoop_round _ _ hround]
  simp

/-- The text must not get to the end of the address space. -/
theorem fits_of_truncationLaw (h : formatText fmt args = .ok text) (hlen : text.length < 2 ^ 31)
    (hlaw : TruncationLaw s fmt args text) : s.toNat + text.length + 1 < 2 ^ 32 := by
  -- a memory without zeroes
  let m : Mem := fun _ => 1#8
  have hcall : ∀ n, Truncated text s n m
      (terminate (bufEnd s n) n (text.foldl (outchar (bufEnd s n)) ⟨s, m⟩)) := by
    intro n
    obtain ⟨m', hres, -, htrunc⟩ := hlaw m n
    obtain ⟨m'', herr⟩ | hok := snprintfImpl_cases h m s n
    · rw [snprintf, herr] at hres
      have : (-ENOTSUP : Int) = text.length := (Prod.mk.inj (Option.some.inj hres)).1
      simp only [ENOTSUP] at this
      omega
    · rw [snprintf, hok] at hres
      obtain ⟨-, rfl⟩ := Prod.mk.inj (Option.some.inj hres)
      exact htrunc
  by_contra hwrap
  have hs : ∀ t, (text.foldl (outchar t) ⟨s, m⟩).s = s + BitVec.ofNat 32 text.length :=
    fun t => foldl_outchar_s t text ⟨s, m⟩
  by_cases hlast : s.toNat + text.length + 1 = 2 ^ 32
  · -- the last byte of a buffer at the end of the address space is not used
    set n := BitVec.ofNat 32 (text.length + 1) with hn
    have hend : bufEnd s n = 0xffffffff#32 := if_pos (by bv_omega)
    have hnul := (hcall n).nul (by bv_omega)
    have hmin : min (n.toNat - 1) text.length = text.length := by bv_omega
    have hpos : s + BitVec.ofNat 32 text.length = 0xffffffff#32 := by bv_omega
    rw [hmin, hpos, hend, terminate, if_pos (by bv_omega), hs, hpos, if_neg (by simp),
      store8_ne (by decide), foldl_outchar_mem_end (by simp)] at hnul
    simp [m] at hnul
  · -- the terminator is written before the buffer
    have hlt : s + BitVec.ofNat 32 text.length < bufEnd s 1#32 := by
      unfold bufEnd UINTPTR_MAX
      split <;> bv_omega
    have hidx : min ((1#32 : BitVec 32).toNat - 1) text.length <
        (s + BitVec.ofNat 32 text.length - s).toNat := by bv_omega
    have hother := (hcall 1#32).other (s + BitVec.ofNat 32 text.length) (.inr hidx)
    rw [terminate, if_pos (by decide), hs, if_pos hlt, store8_same] at hother
    simp [m] at hother

end Law

/-- **The truncation law.** It holds at an address for every buffer size exactly
when the text and its terminator end before the last byte of the address space
and, where the address is NULL, the format does not start with a conversion
that prints nothing. -/
theorem snprintf_truncationLaw_iff (fmt : List Byte) (args : List VaArg) (text : List Byte)
    (s : Addr) (h : formatText fmt args = .ok text) (hlen : text.length < 2 ^ 31) :
    TruncationLaw s fmt args text ↔
      s.toNat + text.length + 1 < 2 ^ 32 ∧ (s = 0#32 → ¬ EmptyConversion fmt args) := by
  constructor
  · intro hlaw
    refine ⟨fits_of_truncationLaw h hlen hlaw, ?_⟩
    rintro rfl hempty
    obtain ⟨m', hres, -⟩ := hlaw (fun _ => 0#8) 0#32
    rw [snprintf, snprintfImpl_null hempty] at hres
    have : (-ENOTSUP : Int) = text.length := (Prod.mk.inj (Option.some.inj hres)).1
    simp only [ENOTSUP] at this
    omega
  · rintro ⟨hfits, hnull⟩ m n
    have hbelow : FitsBelow text s n := ⟨by omega, .inl hfits⟩
    have hres := snprintfImpl_of_fits h hlen hbelow.1 hnull m n
    exact ⟨_, hres, hres, truncated_of_fits hbelow m⟩

theorem snprintf_truncationLaw_iff_number :
    TruncationLaw 0x104000#32 (bytes "%u -> ") [.word 7#32] (bytes "7 -> ") :=
  (snprintf_truncationLaw_iff (bytes "%u -> ") [.word 7#32] (bytes "7 -> ") 0x104000#32 rfl
    (by decide)).mpr ⟨by decide, by simp⟩

/-- Asking for the length of an empty text without a buffer is an error, and a
text that reaches the end of the address space goes on at its beginning. -/
theorem snprintf_truncationLaw_fails :
    (formatText (bytes "%s") [.ptr 0x2000#32 [0#8]] = .ok [] ∧
      (∀ m, snprintf m 0#32 0#32 (bytes "%s") [.ptr 0x2000#32 [0#8]] = some (-ENOTSUP, m)) ∧
      ¬ TruncationLaw 0#32 (bytes "%s") [.ptr 0x2000#32 [0#8]] []) ∧
    formatText (bytes "0123456789abcdefgh") [] = .ok (bytes "0123456789abcdefgh") ∧
      ¬ TruncationLaw 0xfffffff0#32 (bytes "0123456789abcdefgh") []
        (bytes "0123456789abcdefgh") := by
  have hempty : EmptyConversion (bytes "%s") [.ptr 0x2000#32 [0#8]] :=
    ⟨bytes "s", [], [], rfl, rfl⟩
  refine ⟨⟨rfl, fun m => snprintfImpl_null hempty m 0#32, ?_⟩, rfl, ?_⟩
  · intro hlaw
    obtain ⟨m', hres, -⟩ := hlaw (fun _ => 0#8) 0#32
    rw [snprintf, snprintfImpl_null hempty] at hres
    have : (-ENOTSUP : Int) = 0 := (Prod.mk.inj (Option.some.inj hres)).1
    simp [ENOTSUP] at this
  · intro hlaw
    exact absurd (fits_of_truncationLaw rfl (by decide) hlaw) (by decide)

end Munix
