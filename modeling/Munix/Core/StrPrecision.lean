import Munix.Core.SprintfInt

/-!
# Munix — the precision of a string conversion

Which elements of its argument `strncpy` and a `%s` conversion look at, and when a
precision keeps them from looking further.

* `strValue_isSome` — a conversion is undefined exactly when it looks past the end of
  the array (or its temporary array has no size).
* `strPrecision_bounds_iff` — a precision bounds what is read exactly when the string
  ends before it.
-/

namespace Munix

-- ---------------------------------------------------------------------------
-- What is read
-- ---------------------------------------------------------------------------

/-- The elements of `src` that `strncpy(dest, src, n)` looks at, from number `i` on:
each one in the condition `*src && n` of its loop, and again to copy it. -/
def strncpyReads : Nat → List Byte → Nat → List Nat
  | i, [], _ => [i]
  | i, c :: src, n =>
    if c = 0#8 then [i]
    else
      match n with
      | 0 => [i]
      | n + 1 => i :: i :: strncpyReads (i + 1) src n

/-- The elements of a string that a loop up to its terminator looks at. -/
def cstringReads : Nat → List Byte → List Nat
  | i, [] => [i]
  | i, c :: obj => i :: if c = 0#8 then [] else cstringReads (i + 1) obj

/-- The elements of its argument that `format_str` looks at: for the copy, or for the
length and the output. -/
def formatStrReads (spec : FmtSpec) (obj : List Byte) : List Nat :=
  if spec.p ≠ WP_NONE then
    if (spec.p + 1#32).msb then [] else strncpyReads 0 obj spec.p.toNat
  else cstringReads 0 obj ++ cstringReads 0 obj

/-- The elements of its string argument that a conversion looks at. -/
def conversionReads (fmt : List Byte) (args : List VaArg) : List Nat :=
  match specLoop (FMTCPYSZ - 1) fmt .initial args with
  | .ok p =>
    match p.args with
    | .ptr _ obj :: _ => if p.ch = 's' then formatStrReads p.spec obj else []
    | _ => []
  | _ => []

/-- The string in the first `n` elements of an array. -/
def strTake (n : Nat) (obj : List Byte) : List Byte := (obj.take n).takeWhile (· ≠ 0#8)

theorem strTake_cons {c : Byte} (hc : c ≠ 0#8) (n : Nat) (obj : List Byte) :
    strTake (n + 1) (c :: obj) = c :: strTake n obj := by
  simp [strTake, hc]

theorem cstring_eq_some_iff {obj str : List Byte} :
    cstring obj = some str ↔ 0#8 ∈ obj ∧ str = strTake obj.length obj := by
  induction obj generalizing str with
  | nil => simp [cstring]
  | cons c obj ih =>
    rw [cstring]
    by_cases hc : c = 0#8
    · have hnone : strTake (c :: obj).length (c :: obj) = [] := by simp [strTake, hc]
      rw [if_pos hc, hnone, hc, Option.some.injEq]
      exact ⟨fun h => ⟨List.mem_cons_self, h.symm⟩, fun h => h.2.symm⟩
    · rw [if_neg hc, List.length_cons, strTake_cons hc, Option.map_eq_some_iff]
      simp only [ih, List.mem_cons, Ne.symm hc, false_or]
      constructor
      · rintro ⟨str, ⟨hmem, rfl⟩, rfl⟩
        exact ⟨hmem, rfl⟩
      · rintro ⟨hmem, rfl⟩
        exact ⟨_, ⟨hmem, rfl⟩, rfl⟩

theorem cstringReads_lt_iff (obj : List Byte) (i : Nat) :
    (∀ j ∈ cstringReads i obj, j < i + obj.length) ↔ 0#8 ∈ obj := by
  induction obj generalizing i with
  | nil => simp [cstringReads]
  | cons c obj ih =>
    have hstart : i + (c :: obj).length = i + 1 + obj.length := by simp; omega
    rw [cstringReads, hstart]
    by_cases hc : c = 0#8
    · simp [hc]
      omega
    · simp only [if_neg hc, List.mem_cons, forall_eq_or_imp, ih, Ne.symm hc, false_or]
      refine and_iff_right ?_
      omega

/-- What the copy looks at ends with the first NUL, with the element after the last
one that is copied, or with the end of the array. -/
theorem strncpyReads_lt_iff (src : List Byte) (n i k : Nat) :
    (∀ j ∈ strncpyReads i src n, j < i + k) ↔ 0#8 ∈ src.take k ∨ n < k ∨ src.length < k := by
  induction src generalizing n i k with
  | nil =>
    simp [strncpyReads]
    omega
  | cons c src ih =>
    rcases k with _ | k
    · have hmem : i ∈ strncpyReads i (c :: src) n := by
        cases n <;> simp only [strncpyReads] <;> split <;> simp
      simp only [List.take_zero, List.not_mem_nil, Nat.not_lt_zero, or_self, iff_false, not_forall]
      exact ⟨i, hmem, by omega⟩
    · have hstart : i + (k + 1) = i + 1 + k := by omega
      rw [List.take_succ_cons, List.mem_cons, List.length_cons]
      by_cases hc : c = 0#8
      · cases n <;> simp [strncpyReads, hc]
      cases n with
      | zero => simp [strncpyReads, hc]
      | succ n =>
        have hlt : i < i + 1 + k := by omega
        simp only [strncpyReads, if_neg hc, List.mem_cons, forall_eq_or_imp, hstart, ih, Ne.symm hc,
          hlt, true_and, false_or, Nat.add_lt_add_iff_right]

/-- The first `n` elements, when the copy stays inside the array. -/
theorem strncpy_eq_some_iff {src dest : List Byte} {n : Nat} :
    strncpy src n = some dest ↔
      (0#8 ∈ src ∨ n < src.length) ∧
        dest = strTake n src ++ List.replicate (n - (strTake n src).length) 0#8 := by
  induction src generalizing n dest with
  | nil => simp [strncpy]
  | cons c src ih =>
    by_cases hc : c = 0#8
    · have hnone : strTake n (c :: src) = [] := by
        cases n <;> simp [strTake, hc]
      have hcopy : strncpy (c :: src) n = some (List.replicate n 0#8) := by
        cases n <;> simp [strncpy, hc]
      rw [hcopy, hnone, hc, Option.some.injEq]
      exact ⟨fun h => ⟨.inl List.mem_cons_self, h.symm⟩, fun h => h.2.symm⟩
    · cases n with
      | zero =>
        rw [strncpy, if_neg hc, Option.some.injEq]
        exact ⟨fun h => ⟨.inr (by simp), h.symm⟩, fun h => h.2.symm⟩
      | succ n =>
        simp only [strncpy, if_neg hc, Option.map_eq_some_iff, ih, strTake_cons hc, List.mem_cons, Ne.symm hc, false_or,
          List.length_cons, Nat.add_lt_add_iff_right, Nat.add_sub_add_right, List.cons_append]
        constructor
        · rintro ⟨dest, ⟨hin, rfl⟩, rfl⟩
          exact ⟨hin, rfl⟩
        · rintro ⟨hin, rfl⟩
          exact ⟨_, ⟨hin, rfl⟩, rfl⟩

theorem length_strTake_le (n : Nat) (obj : List Byte) : (strTake n obj).length ≤ n := by
  refine ((List.takeWhile_prefix _).length_le).trans ?_
  rw [List.length_take]
  exact Nat.min_le_left _ _

/-- The string in a terminated copy. -/
theorem cstring_strTake (n k : Nat) (obj : List Byte) :
    cstring (strTake n obj ++ List.replicate k 0#8 ++ [0#8]) = some (strTake n obj) := by
  have hend : List.replicate k 0#8 ++ [0#8] = 0#8 :: List.replicate k (0#8 : Byte) := by
    rw [← List.replicate_succ', List.replicate_succ]
  rw [List.append_assoc, hend]
  have hnz : ∀ c ∈ strTake n obj, c ≠ 0#8 := by
    intro c hc
    have := List.all_takeWhile (l := obj.take n) (p := (· ≠ 0#8))
    simpa using List.all_eq_true.mp this c hc
  revert hnz
  induction strTake n obj with
  | nil => simp [cstring]
  | cons c str ih =>
    intro hnz
    have hc : c ≠ 0#8 := hnz c List.mem_cons_self
    rw [List.cons_append, cstring, if_neg hc, ih fun d hd => hnz d (List.mem_cons_of_mem _ hd)]
    rfl

/-- What `format_str` prints with a precision. -/
theorem strValue_precision {spec : FmtSpec} (hp : spec.p ≠ WP_NONE) {obj str : List Byte} :
    strValue spec obj = some str ↔
      (spec.p + 1#32).msb = false ∧ (0#8 ∈ obj ∨ spec.p.toNat < obj.length) ∧
        str = strTake spec.p.toNat obj := by
  rw [strValue, if_pos hp]
  by_cases hsize : (spec.p + 1#32).msb = true
  · simp [hsize]
  · rw [if_neg hsize, Option.bind_eq_some_iff]
    simp only [strncpy_eq_some_iff, Bool.not_eq_true _ ▸ hsize, true_and]
    constructor
    · rintro ⟨pstr, ⟨hin, rfl⟩, hstr⟩
      rw [cstring_strTake] at hstr
      exact ⟨hin, (Option.some.inj hstr).symm⟩
    · rintro ⟨hin, rfl⟩
      exact ⟨_, ⟨hin, rfl⟩, cstring_strTake _ _ _⟩

/-- **What undefined means for a string**: an element past the end of the array is
looked at, or the temporary array has a negative size. -/
theorem strValue_isSome (spec : FmtSpec) (obj : List Byte) :
    (strValue spec obj).isSome ↔
      (spec.p ≠ WP_NONE → (spec.p + 1#32).msb = false) ∧
        ∀ j ∈ formatStrReads spec obj, j < obj.length := by
  rw [Option.isSome_iff_exists]
  by_cases hp : spec.p = WP_NONE
  · have hreads := cstringReads_lt_iff obj 0
    rw [Nat.zero_add] at hreads
    simp only [strValue, formatStrReads, hp, ne_eq, not_true_eq_false, if_false, false_imp_iff, true_and,
      cstring_eq_some_iff, List.mem_append, or_self, hreads]
    exact ⟨fun ⟨_, h, _⟩ => h, fun h => ⟨_, h, rfl⟩⟩
  · have hreads := strncpyReads_lt_iff obj spec.p.toNat 0 obj.length
    rw [Nat.zero_add, List.take_length] at hreads
    simp only [strValue_precision hp, formatStrReads, ne_eq, hp, not_false_eq_true, if_true, true_imp_iff]
    by_cases hsize : (spec.p + 1#32).msb = true
    · simp [hsize]
    · rw [if_neg hsize, hreads]
      simp [hsize]

-- ---------------------------------------------------------------------------
-- Specifications
-- ---------------------------------------------------------------------------

/-- A precision that is not negative. -/
inductive StrPrecision where
  | dot
  | literal (p : Nat) (fits : p < 2 ^ 31)
  /-- `*` with its argument. -/
  | star (arg : BitVec 32) (nonneg : 0 ≤ arg.toInt)

/-- A string conversion with a precision. -/
structure StrSpec where
  minus     : Bool
  width     : Width
  precision : StrPrecision

namespace StrPrecision

def toNat : StrPrecision → Nat
  | dot => 0
  | literal p _ => p
  | star arg _ => arg.toNat

def text : StrPrecision → List Byte
  | dot => [byte '.']
  | literal p _ => byte '.' :: decimal p
  | star _ _ => [byte '.', byte '*']

def args : StrPrecision → List VaArg
  | star arg _ => [.word arg]
  | _ => []

theorem toNat_lt (p : StrPrecision) : p.toNat < 2 ^ 31 := by
  cases p with
  | dot => decide
  | literal p hfits => exact hfits
  | star arg hfits =>
    have hcond := BitVec.toInt_eq_toNat_cond arg
    dsimp only [toNat]
    have := arg.isLt
    omega

theorem length_text_le (p : StrPrecision) : p.text.length ≤ 11 := by
  cases p with
  | dot => decide
  | literal p hfits => exact Nat.succ_le_succ (length_decimal_le (by decide) (by omega))
  | star => simp [text]

theorem specLoop_text (p : StrPrecision) {ps : ParseState} {args : List VaArg} {room : Nat}
    (hroom : p.text.length ≤ room) (fmt : List Byte) :
    ∃ ps' : ParseState, specLoop room (p.text ++ fmt) ps (p.args ++ args) =
        specLoop (room - p.text.length) fmt ps' args ∧
      ps'.spec = { ps.spec with p := BitVec.ofNat 32 p.toNat } := by
  cases p with
  | dot => exact ⟨ps.dot, specLoop_dot hroom fmt, rfl⟩
  | literal p hfits => exact ⟨ps.dot.number p, specLoop_dotDecimal hfits hroom fmt, rfl⟩
  | star arg hfits =>
    refine ⟨ps.dot.star arg, specLoop_dotStar arg hroom fmt, ?_⟩
    rw [ps.dot_star_spec, if_neg (by omega), toNat, BitVec.ofNat_toNat, BitVec.setWidth_eq]

end StrPrecision

namespace StrSpec

variable (sp : StrSpec)

/-- The specification, after its `%`. -/
def text : List Byte :=
  (if sp.minus then [byte '-'] else []) ++ sp.width.text ++ sp.precision.text ++ [byte 's']

/-- The arguments: those of the stars, and the string. -/
def args (addr : BitVec 32) (obj : List Byte) : List VaArg :=
  sp.width.args ++ sp.precision.args ++ [.ptr addr obj]

/-- A negative width is a `-` flag. -/
def left : Bool := sp.minus || sp.width.negative

/-- **What is to be printed**: the string in the first elements of the array, padded to
the width. -/
def field (obj : List Byte) : List Byte :=
  let str := strTake sp.precision.toNat obj
  let pad := List.replicate (sp.width.toNat - str.length) (byte ' ')
  if sp.left then str ++ pad else pad ++ str

/-- What `process_conversion` makes of the specification. -/
def parsed : FmtSpec :=
  ⟨sp.left, false, false, false, false, sp.width.bits, BitVec.ofNat 32 sp.precision.toNat, 0⟩

theorem parses (rest : List Byte) (args : List VaArg) (addr : BitVec 32) (obj : List Byte) :
    specLoop (FMTCPYSZ - 1) (sp.text ++ rest) .initial (sp.args addr obj ++ args) =
      .ok ⟨'s', sp.parsed, rest, .ptr addr obj :: args⟩ := by
  set flags : List Flag := if sp.minus then [.minus] else [] with hflags
  have hnodup : flags.Nodup := by rw [hflags]; split <;> simp
  have hlen : flags.length ≤ 1 := by rw [hflags]; split <;> simp
  have hzero : Flag.zero ∉ flags := by rw [hflags]; split <;> simp
  have htext : sp.text ++ rest =
      flags.map Flag.char ++ (sp.width.text ++ (sp.precision.text ++ byte 's' :: rest)) := by
    rw [hflags, text]
    cases sp.minus <;> simp [Flag.char]
  have hargs : sp.args addr obj ++ args =
      sp.width.args ++ (sp.precision.args ++ .ptr addr obj :: args) := by
    simp [StrSpec.args]
  have hwidth := sp.width.length_text_le
  have hprec := sp.precision.length_text_le
  have hsz : FMTCPYSZ = 32 := rfl
  rw [htext, hargs, specLoop_flags hnodup (fun h => absurd h hzero) (by omega)]
  obtain ⟨ps₁, hloop₁, hspec₁⟩ := @specLoop_width (ParseState.initial.withFlags flags)
    (sp.precision.args ++ .ptr addr obj :: args) (FMTCPYSZ - 1 - flags.length) sp.width rfl rfl
    (by omega) (sp.precision.text ++ byte 's' :: rest)
  obtain ⟨ps₂, hloop₂, hspec₂⟩ := @StrPrecision.specLoop_text sp.precision ps₁
    (.ptr addr obj :: args) (FMTCPYSZ - 1 - flags.length - sp.width.text.length) (by omega)
    (byte 's' :: rest)
  have hspec : ps₂.spec = sp.parsed := by
    rw [hspec₂, hspec₁, hflags, parsed, left]
    cases sp.minus <;> simp [ParseState.withFlags, ParseState.initial]
  obtain ⟨n, hn⟩ : ∃ n, FMTCPYSZ - 1 - flags.length - sp.width.text.length -
      sp.precision.text.length = n + 1 := Nat.exists_eq_succ_of_ne_zero (by omega)
  have hend : specChar (toChar (byte 's')) (toChar (rest.headD 0#8)) ps₂ (.ptr addr obj :: args) =
      .conversion := rfl
  rw [hloop₁, hloop₂, hn, specLoop, hend, hspec]
  rfl

theorem parsed_p : sp.parsed.p ≠ WP_NONE ∧ sp.parsed.p.toNat = sp.precision.toNat ∧
    ((sp.parsed.p + 1#32).msb = false ↔ sp.precision.toNat < 2 ^ 31 - 1) := by
  have hlt := sp.precision.toNat_lt
  have hp : sp.parsed.p.toNat = sp.precision.toNat := Nat.mod_eq_of_lt (by omega)
  have hmsb : (sp.parsed.p + 1#32).msb = decide (2 ^ 31 ≤ sp.precision.toNat + 1) := by
    rw [BitVec.msb_eq_decide, BitVec.toNat_add, hp, BitVec.toNat_ofNat]
    congr 1
    rw [Nat.mod_eq_of_lt (by omega)]
  refine ⟨?_, hp, ?_⟩
  · intro heq
    rw [heq] at hp
    have hnone : WP_NONE.toNat = 2 ^ 32 - 1 := by decide
    omega
  · rw [hmsb, decide_eq_false_iff_not]
    omega

/-- The padded text. -/
theorem paddedText_field (obj : List Byte) :
    paddedText sp.parsed [] (strTake sp.precision.toNat obj) = sp.field obj := by
  have hlen := length_strTake_le sp.precision.toNat obj
  have hlt := sp.precision.toNat_lt
  have hpad : (padlen sp.parsed [] (strTake sp.precision.toNat obj)).toNat =
      sp.width.toNat - (strTake sp.precision.toNat obj).length := by
    rw [IntSpec.padlen_toNat sp.width.bits_or_zero sp.width.toNat_lt (by simp only [List.length_nil]; omega),
      List.length_nil, Nat.zero_add]
  unfold paddedText field
  rw [hpad]
  cases hleft : sp.left <;> simp [parsed, hleft]

/-- What `format_str` does with the parsed specification. -/
theorem formatStr_parsed (addr : BitVec 32) (obj : List Byte) (args : List VaArg) :
    formatStr snoc [] sp.parsed (.ptr addr obj :: args) =
      if sp.precision.toNat < 2 ^ 31 - 1 ∧ (0#8 ∈ obj ∨ sp.precision.toNat < obj.length) then
        some (sp.field obj, args)
      else none := by
  obtain ⟨hne, hp, hsize⟩ := sp.parsed_p
  have hvalue : ∀ str, strValue sp.parsed obj = some str ↔ (sp.precision.toNat < 2 ^ 31 - 1 ∧
      (0#8 ∈ obj ∨ sp.precision.toNat < obj.length)) ∧ str = strTake sp.precision.toNat obj := by
    intro str
    rw [strValue_precision hne, hsize, hp, and_assoc]
  split
  next h =>
    rw [formatStr, (hvalue _).mpr ⟨h, rfl⟩, Option.map_some, outpadded_snoc, paddedText_field]
  next h =>
    rw [formatStr, Option.map_eq_none_iff, Option.eq_none_iff_forall_ne_some]
    exact fun str hstr => h ((hvalue str).mp hstr).1

/-- The conversion prints its field when the copy stays inside the array. -/
theorem prints {O : Type} (emit : O → Byte → O) (o : O) (addr : BitVec 32) (obj : List Byte)
    (rest : List Byte) (args : List VaArg)
    (hfits : sp.precision.toNat < 2 ^ 31 - 1 ∧ (0#8 ∈ obj ∨ sp.precision.toNat < obj.length)) :
    processConversion emit o (sp.text ++ rest) (sp.args addr obj ++ args) =
      .ok ((sp.field obj).foldl emit o, rest, args) := by
  have hconv : convert snoc [] 's' sp.parsed (.ptr addr obj :: args) =
      .ok (sp.field obj, args) := by
    rw [convert, formatStr_parsed, if_pos hfits]
    rfl
  rw [processConversion_eq, processConversion, conversionLoop_specLoop, sp.parses]
  dsimp only [Conv.bind, ParsedSpec.convert]
  rw [hconv]
  rfl

/-- What the conversion looks at. -/
theorem reads (addr : BitVec 32) (obj : List Byte) (rest : List Byte) (args : List VaArg)
    (hsize : sp.precision.toNat < 2 ^ 31 - 1) :
    conversionReads (sp.text ++ rest) (sp.args addr obj ++ args) =
      strncpyReads 0 obj sp.precision.toNat := by
  obtain ⟨hne, hp, hmsb⟩ := sp.parsed_p
  rw [conversionReads, sp.parses]
  dsimp only
  rw [if_pos rfl, formatStrReads, if_pos hne, hmsb.mpr hsize, if_neg Bool.false_ne_true, hp]

/-- A temporary array without a size is undefined. -/
theorem size_of_prints (addr : BitVec 32) (obj : List Byte) (rest : List Byte) (args : List VaArg)
    {O : Type} {emit : O → Byte → O} {o : O} {r : O × List Byte × List VaArg}
    (h : processConversion emit o (sp.text ++ rest) (sp.args addr obj ++ args) = .ok r) :
    sp.precision.toNat < 2 ^ 31 - 1 := by
  by_contra hsize
  have hconv : convert snoc [] 's' sp.parsed (.ptr addr obj :: args) = .undef := by
    rw [convert, formatStr_parsed, if_neg fun hfits => hsize hfits.1]
    rfl
  rw [processConversion_eq, processConversion, conversionLoop_specLoop, sp.parses] at h
  dsimp only [Conv.bind, ParsedSpec.convert] at h
  rw [hconv] at h
  cases h

end StrSpec

/-- **When a precision bounds what is read.** A `%s` conversion with a precision prints
the characters up to the first NUL or up to the precision, padded to the width, and looks
at no element of the array from the precision on, exactly when there is a NUL before the
precision (and the temporary array has a size). `strncpy` looks at no element from the
count on exactly when there is a NUL before the count. -/
theorem strPrecision_bounds_iff {O : Type} (emit : O → Byte → O) (o : O) (sp : StrSpec)
    (addr : BitVec 32) (obj : List Byte) (hlen : sp.precision.toNat ≤ obj.length)
    (rest : List Byte) (args : List VaArg) (src : List Byte) (n : BitVec 32)
    (hn : n.toNat ≤ src.length) :
    ((processConversion emit o (sp.text ++ rest) (sp.args addr obj ++ args) =
        .ok ((sp.field obj).foldl emit o, rest, args) ∧
      ∀ j ∈ conversionReads (sp.text ++ rest) (sp.args addr obj ++ args), j < sp.precision.toNat) ↔
        0#8 ∈ obj.take sp.precision.toNat ∧ sp.precision.toNat < 2 ^ 31 - 1) ∧
    ((∀ j ∈ strncpyReads 0 src n.toNat, j < n.toNat) ↔ 0#8 ∈ src.take n.toNat) := by
  have hbound : ∀ (a : List Byte) (k : Nat), k ≤ a.length →
      ((∀ j ∈ strncpyReads 0 a k, j < k) ↔ 0#8 ∈ a.take k) := by
    intro a k hk
    have hreads := strncpyReads_lt_iff a k 0 k
    rw [Nat.zero_add] at hreads
    rw [hreads]
    refine ⟨fun h => ?_, .inl⟩
    rcases h with h | h | h
    · exact h
    · omega
    · omega
  refine ⟨?_, hbound src n.toNat hn⟩
  constructor
  · rintro ⟨hprints, hreads⟩
    have hsize := sp.size_of_prints addr obj rest args hprints
    rw [sp.reads addr obj rest args hsize] at hreads
    exact ⟨(hbound obj _ hlen).mp hreads, hsize⟩
  · rintro ⟨hnul, hsize⟩
    refine ⟨sp.prints emit o addr obj rest args ⟨hsize, .inl (List.mem_of_mem_take hnul)⟩, ?_⟩
    rw [sp.reads addr obj rest args hsize]
    exact (hbound obj _ hlen).mpr hnul

/-- `%.6s` -/
def magicSpec : StrSpec := ⟨false, .unspecified, .literal 6 (by decide)⟩

theorem strPrecision_bounds_iff_short :
    (processConversion snoc [] (magicSpec.text ++ []) (magicSpec.args 0x1000#32 (bytes "07\x0000000") ++ []) =
        .ok ((magicSpec.field (bytes "07\x0000000")).foldl snoc [], [], []) ∧
      ∀ j ∈ conversionReads (magicSpec.text ++ []) (magicSpec.args 0x1000#32 (bytes "07\x0000000") ++ []),
        j < 6) ∧
    ∀ j ∈ strncpyReads 0 (bytes "ab\x00") 3, j < 3 :=
  ⟨(strPrecision_bounds_iff snoc [] magicSpec 0x1000#32 (bytes "07\x0000000") (by decide) [] []
      (bytes "ab\x00") 3#32 (by decide)).1.mpr ⟨by decide, by decide⟩,
    (strPrecision_bounds_iff snoc [] magicSpec 0x1000#32 (bytes "07\x0000000") (by decide) [] []
      (bytes "ab\x00") 3#32 (by decide)).2.mpr (by decide)⟩

/-- The magic of an archive header has six characters and no NUL, and a precision of 6
does not keep the conversion away from the seventh. -/
theorem strPrecision_overreads :
    ¬ ((∀ (sp : StrSpec) (addr : BitVec 32) (obj : List Byte), sp.precision.toNat ≤ obj.length →
        processConversion snoc [] sp.text (sp.args addr obj) = .ok (sp.field obj, [], []) ∧
          ∀ j ∈ conversionReads sp.text (sp.args addr obj), j < sp.precision.toNat) ∧
      ∀ (src : List Byte) (n : BitVec 32), n.toNat ≤ src.length →
        ∀ j ∈ strncpyReads 0 src n.toNat, j < n.toNat) := by
  rintro ⟨hconv, -⟩
  have hmem : 6 ∈ conversionReads magicSpec.text (magicSpec.args 0x1000#32 (bytes "070701")) := by
    decide +kernel
  have hlt : 6 < magicSpec.precision.toNat :=
    (hconv magicSpec 0x1000#32 (bytes "070701") (by decide)).2 6 hmem
  exact absurd hlt (by decide)

end Munix
