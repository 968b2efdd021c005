import Munix.Core.Itoa
import Munix.Core.SprintfLaw

/-!
# Munix — integer conversions

What the C standard says of the conversions `d i u o x X b B`, with their flags,
widths, precisions and length modifiers, and that `process_conversion` prints it.
The sizes are those of the i386. A width is an `int`; with a longer literal the
text would be longer than `printf` functions can count.

## Results

* `IntSpec.parses`             — what the parser makes of a specification.
* `processConversion_int`      — it prints the field of the standard.
-/

namespace Munix

-- ---------------------------------------------------------------------------
-- Specifications
-- ---------------------------------------------------------------------------

inductive Flag where
  | minus
  | plus
  | space
  | alt
  | zero
deriving DecidableEq

def Flag.char : Flag → Byte
  | .minus => byte '-'
  | .plus => byte '+'
  | .space => byte ' '
  | .alt => byte '#'
  | .zero => byte '0'

inductive Width where
  | unspecified
  | literal (w : Nat) (pos : 0 < w) (fits : w < 2 ^ 31)
  /-- `*` with its argument, above `INT_MIN`. -/
  | star (arg : BitVec 32) (fits : arg ≠ 0x80000000#32)

inductive Precision where
  | unspecified
  | dot
  | literal (p : Nat) (fits : p ≤ 127)
  /-- `*` with its argument. -/
  | star (arg : BitVec 32) (fits : arg.toInt ≤ 127)

inductive LenMod where
  | int
  | hh
  | h
  | l
  | ll
  | j
  | z
  | t
deriving DecidableEq

inductive IntConv where
  | d
  | i
  | u
  | o
  | x
  | X
  | b
  | B
deriving DecidableEq

/-- An integer conversion specification, with the flags in any order. -/
structure IntSpec where
  flags     : List Flag
  nodup     : flags.Nodup
  width     : Width
  precision : Precision
  lenMod    : LenMod
  conv      : IntConv

/-- The character of a digit. -/
def digitChar (up : Bool) (d : Nat) : Byte :=
  (if up then bytes "0123456789ABCDEF" else bytes "0123456789abcdef").getD d 0#8

/-- A number as it stands in a format. -/
def decimal (n : Nat) : List Byte :=
  if n = 0 then [byte '0'] else (Nat.digits 10 n).reverse.map (digitChar false)

def Width.text : Width → List Byte
  | .unspecified => []
  | .literal w _ _ => decimal w
  | .star _ _ => [byte '*']

def Width.args : Width → List VaArg
  | .star arg _ => [.word arg]
  | _ => []

def Precision.text : Precision → List Byte
  | .unspecified => []
  | .dot => [byte '.']
  | .literal p _ => byte '.' :: decimal p
  | .star _ _ => [byte '.', byte '*']

def Precision.args : Precision → List VaArg
  | .star arg _ => [.word arg]
  | _ => []

def LenMod.text : LenMod → List Byte
  | .int => []
  | .hh => bytes "hh"
  | .h => bytes "h"
  | .l => bytes "l"
  | .ll => bytes "ll"
  | .j => bytes "j"
  | .z => bytes "z"
  | .t => bytes "t"

/-- The width of the type. -/
def LenMod.bits : LenMod → Nat
  | .hh => 8
  | .h => 16
  | .int | .l | .z | .t => 32
  | .ll | .j => 64

def IntConv.char : IntConv → Byte
  | .d => byte 'd'
  | .i => byte 'i'
  | .u => byte 'u'
  | .o => byte 'o'
  | .x => byte 'x'
  | .X => byte 'X'
  | .b => byte 'b'
  | .B => byte 'B'

def IntConv.signed : IntConv → Bool
  | .d | .i => true
  | _ => false

def IntConv.base : IntConv → Nat
  | .d | .i | .u => 10
  | .o => 8
  | .x | .X => 16
  | .b | .B => 2

def IntConv.upper : IntConv → Bool
  | .X | .B => true
  | _ => false

namespace IntSpec

variable (sp : IntSpec)

/-- The specification, after its `%`. -/
def text : List Byte :=
  sp.flags.map Flag.char ++ sp.width.text ++ sp.precision.text ++ sp.lenMod.text ++ [sp.conv.char]

/-- The arguments: those of the stars, and the value, whose low word comes first. -/
def args (lo hi : BitVec 32) : List VaArg :=
  sp.width.args ++ sp.precision.args ++
    if sp.lenMod.bits = 64 then [.word lo, .word hi] else [.word lo]

/-- The value, converted to its type. -/
def value (lo hi : BitVec 32) : Int :=
  let v := (hi ++ lo).setWidth sp.lenMod.bits
  if sp.conv.signed then v.toInt else v.toNat

-- ---------------------------------------------------------------------------
-- The standard
-- ---------------------------------------------------------------------------

def minWidth : Nat :=
  match sp.width with
  | .unspecified => 0
  | .literal w _ _ => w
  | .star arg _ => arg.toInt.natAbs

/-- A negative width is a `-` flag. -/
def left : Bool :=
  sp.flags.contains .minus || match sp.width with
    | .star arg _ => decide (arg.toInt < 0)
    | _ => false

/-- A negative precision is taken as if it were omitted. -/
def prec : Option Nat :=
  match sp.precision with
  | .unspecified => none
  | .dot => some 0
  | .literal p _ => some p
  | .star arg _ => if arg.toInt < 0 then none else some arg.toNat

/-- The digits, at least as many as the precision says. The `#` flag of `o` makes
the first one a zero. -/
def digits (v : Nat) : List Byte :=
  let ds := (Nat.digits sp.conv.base v).reverse.map (digitChar sp.conv.upper)
  let ds := List.replicate (sp.prec.getD 1 - ds.length) (byte '0') ++ ds
  if sp.conv = .o ∧ .alt ∈ sp.flags ∧ ds.head? ≠ some (byte '0') then byte '0' :: ds else ds

/-- The sign of a signed conversion, or the prefix of the base. -/
def signOrBase (v : Int) : List Byte :=
  if sp.conv.signed then
    if v < 0 then bytes "-"
    else if .plus ∈ sp.flags then bytes "+"
    else if .space ∈ sp.flags then bytes " "
    else []
  else if .alt ∈ sp.flags ∧ v ≠ 0 then
    match sp.conv with
    | .x => bytes "0x"
    | .X => bytes "0X"
    | .b => bytes "0b"
    | .B => bytes "0B"
    | _ => []
  else []

def unpadded (v : Int) : List Byte := sp.signOrBase v ++ sp.digits v.natAbs

/-- **The field of the C standard.** -/
def field (v : Int) : List Byte :=
  let pad := sp.minWidth - (sp.unpadded v).length
  if sp.left then sp.unpadded v ++ List.replicate pad (byte ' ')
  else if .zero ∈ sp.flags ∧ sp.prec = none then
    sp.signOrBase v ++ List.replicate pad (byte '0') ++ sp.digits v.natAbs
  else List.replicate pad (byte ' ') ++ sp.unpadded v

/-- It is as long as the text, or as the width if that is longer. -/
theorem length_field (v : Int) :
    (sp.field v).length = max sp.minWidth (sp.unpadded v).length := by
  unfold field
  dsimp only
  split
  · rw [List.length_append, List.length_replicate]
    omega
  · split
    · rw [List.length_append, List.length_append, List.length_replicate, unpadded,
        List.length_append]
      omega
    · rw [List.length_append, List.length_replicate]
      omega

end IntSpec

-- ---------------------------------------------------------------------------
-- Parsing
-- ---------------------------------------------------------------------------

section Parse

variable {ps : ParseState} {args : List VaArg} {room : Nat}

/-- An option of a specification. -/
theorem specLoop_option {b : Byte} {fmt : List Byte} {ps' : ParseState} {skip : Bool}
    {args' : List VaArg} (hroom : 1 ≤ room)
    (h : specChar (toChar b) (toChar (fmt.headD 0#8)) ps args = .option ps' skip args') :
    specLoop room (b :: fmt) ps args =
      specLoop (room - 1) (if skip then fmt.tail else fmt) ps' args' := by
  obtain ⟨n, rfl⟩ := Nat.exists_eq_add_of_le' hroom
  rw [specLoop, h, Nat.add_sub_cancel]

/-- A flag. -/
def ParseState.flag (ps : ParseState) : Flag → ParseState
  | .minus => { ps with spec := { ps.spec with left := true } }
  | .plus => { ps with spec := { ps.spec with plus := true } }
  | .space => { ps with spec := { ps.spec with space := true } }
  | .alt => { ps with spec := { ps.spec with alt := true } }
  | .zero => { ps with spec := { ps.spec with zero := true }, zeroIsFlag := false }

theorem specChar_flag (ps : ParseState) (args : List VaArg) (f : Flag) (next : Char)
    (hzero : f = .zero → ps.zeroIsFlag = true) :
    specChar (toChar f.char) next ps args = .option (ps.flag f) false args := by
  cases f with
  | minus => rfl
  | plus => rfl
  | space => rfl
  | alt => rfl
  | zero =>
    change (if ps.zeroIsFlag then _ else _) = _
    rw [if_pos (hzero rfl)]
    rfl

/-- What a list of flags leaves. -/
def ParseState.withFlags (ps : ParseState) (flags : List Flag) : ParseState where
  spec := { ps.spec with
    left := ps.spec.left || flags.contains .minus
    plus := ps.spec.plus || flags.contains .plus
    space := ps.spec.space || flags.contains .space
    alt := ps.spec.alt || flags.contains .alt
    zero := ps.spec.zero || flags.contains .zero }
  onPrecision := ps.onPrecision
  zeroIsFlag := ps.zeroIsFlag && !flags.contains .zero

theorem ParseState.withFlags_cons (f : Flag) (flags : List Flag) :
    (ps.flag f).withFlags flags = ps.withFlags (f :: flags) := by
  cases f <;> simp [ParseState.flag, ParseState.withFlags]

theorem specLoop_flags {flags : List Flag} (hnodup : flags.Nodup)
    (hzero : .zero ∈ flags → ps.zeroIsFlag = true) (hroom : flags.length ≤ room) (fmt : List Byte) :
    specLoop room (flags.map Flag.char ++ fmt) ps args =
      specLoop (room - flags.length) fmt (ps.withFlags flags) args := by
  induction flags generalizing ps room with
  | nil =>
    have hsame : ps.withFlags [] = ps := by simp [ParseState.withFlags]
    rw [hsame]
    rfl
  | cons f flags ih =>
    rw [List.length_cons] at hroom
    obtain ⟨hf, hnodup⟩ := List.nodup_cons.mp hnodup
    have hflag := specChar_flag ps args f
      (toChar ((flags.map Flag.char ++ fmt).headD 0#8)) (fun heq => hzero (by simp [heq]))
    rw [List.map_cons, List.cons_append, specLoop_option (by omega) hflag,
      if_neg Bool.false_ne_true, ih hnodup ?_ (by omega), ParseState.withFlags_cons,
      List.length_cons, Nat.sub_sub, Nat.add_comm 1]
    intro hmem
    have hne : f ≠ .zero := by
      rintro rfl
      exact hf hmem
    have hold := hzero (List.mem_cons_of_mem _ hmem)
    cases f with
    | zero => exact absurd rfl hne
    | _ => exact hold

-- ---------------------------------------------------------------------------
-- Numbers
-- ---------------------------------------------------------------------------

/-- `*wp` after the digits of `v`. -/
def ParseState.number (ps : ParseState) (v : Nat) : ParseState :=
  { ps.setWp (BitVec.ofNat 32 v) with zeroIsFlag := false }

theorem ParseState.wp_number (v : Nat) : (ps.number v).wp = BitVec.ofNat 32 v := by
  cases h : ps.onPrecision <;> simp [ParseState.number, ParseState.wp, ParseState.setWp, h]

theorem ParseState.number_number (v v' : Nat) : (ps.number v).number v' = ps.number v' := by
  cases h : ps.onPrecision <;> simp [ParseState.number, ParseState.setWp, h]

theorem ParseState.number_self {v : Nat} (hzero : ps.zeroIsFlag = false)
    (hwp : ps.wp = BitVec.ofNat 32 v) : ps.number v = ps := by
  rcases ps with ⟨spec, onPrecision, zeroIsFlag⟩
  obtain rfl : zeroIsFlag = false := hzero
  unfold ParseState.number
  rw [← hwp]
  cases onPrecision <;> rfl

theorem specChar_digit (ps : ParseState) (args : List VaArg) {d : Nat} (hd : d < 10) (next : Char)
    (hzero : d = 0 → ps.zeroIsFlag = false) :
    specChar (toChar (digitChar false d)) next ps args =
      .option (ps.digit (toChar (digitChar false d))) false args := by
  by_cases h0 : d = 0
  · subst h0
    change (if ps.zeroIsFlag then _ else _) = _
    rw [if_neg (by simp [hzero rfl])]
  · interval_cases d <;> first | rfl | exact absurd rfl h0

/-- One more digit. -/
theorem ParseState.digit_eq {d v : Nat} (hd : d < 10)
    (hwp : (if ps.wp = WP_NONE then 0#32 else ps.wp) = BitVec.ofNat 32 v) :
    ps.digit (toChar (digitChar false d)) = ps.number (v * 10 + d) := by
  have hchar : (toChar (digitChar false d)).toNat - 48 = d := by
    interval_cases d <;> rfl
  unfold ParseState.digit ParseState.number
  dsimp only
  rw [hwp, hchar, BitVec.ofNat_add, BitVec.ofNat_mul]

/-- A number with the given digits behind those of `v`. -/
def appendDigits (base v : Nat) (ds : List Nat) : Nat := ds.foldl (fun v d => v * base + d) v

/-- The digits of a number, most significant first. -/
theorem appendDigits_digits (base n : Nat) : appendDigits base 0 (Nat.digits base n).reverse = n := by
  have hfold : appendDigits base 0 (Nat.digits base n).reverse =
      Nat.ofDigits base (Nat.digits base n) := by
    rw [appendDigits, List.foldl_reverse, Nat.ofDigits_eq_foldr]
    congr 1
    funext d v
    rw [Nat.cast_id]
    ring
  rw [hfold, Nat.ofDigits_digits]

theorem le_appendDigits (v : Nat) (ds : List Nat) : v ≤ appendDigits 10 v ds := by
  induction ds generalizing v with
  | nil => exact le_rfl
  | cons d ds ih =>
    have := ih (v * 10 + d)
    rw [appendDigits, List.foldl_cons]
    exact le_trans (by omega) this

/-- A number in the format, after its first digits. -/
theorem specLoop_digits {ds : List Nat} {v : Nat} (hds : ∀ d ∈ ds, d < 10)
    (hzero : ps.zeroIsFlag = false) (hwp : ps.wp = BitVec.ofNat 32 v)
    (hmax : appendDigits 10 v ds < 2 ^ 31) (hroom : ds.length ≤ room) (fmt : List Byte) :
    specLoop room (ds.map (digitChar false) ++ fmt) ps args =
      specLoop (room - ds.length) fmt (ps.number (appendDigits 10 v ds)) args := by
  induction ds generalizing ps v room with
  | nil =>
    rw [show appendDigits 10 v [] = v from rfl, ParseState.number_self hzero hwp]
    rfl
  | cons d ds ih =>
    have hd : d < 10 := hds d (by simp)
    have hle : v ≤ appendDigits 10 v (d :: ds) := le_appendDigits v (d :: ds)
    have hne : ps.wp ≠ WP_NONE := by
      rw [hwp]
      intro heq
      have := congrArg BitVec.toNat heq
      rw [BitVec.toNat_ofNat, Nat.mod_eq_of_lt (by omega)] at this
      simp only [WP_NONE, BitVec.toNat_ofNat] at this
      omega
    have hstep := specChar_digit ps args hd
      (toChar ((ds.map (digitChar false) ++ fmt).headD 0#8)) fun _ => hzero
    rw [ParseState.digit_eq hd (v := v) (by rw [if_neg hne, hwp])] at hstep
    rw [List.length_cons] at hroom
    rw [List.map_cons, List.cons_append, specLoop_option (by omega) hstep,
      if_neg Bool.false_ne_true,
      ih (fun x hx => hds x (List.mem_cons_of_mem _ hx)) rfl (ParseState.wp_number _) hmax (by omega),
      ParseState.number_number, List.length_cons, Nat.sub_sub, Nat.add_comm 1]
    rfl

/-- The digits of a number in the format. -/
def decDigits (n : Nat) : List Nat := if n = 0 then [0] else (Nat.digits 10 n).reverse

theorem decimal_eq (n : Nat) : decimal n = (decDigits n).map (digitChar false) := by
  unfold decimal decDigits
  split
  · rfl
  · rfl

theorem decDigits_lt {n d : Nat} (hd : d ∈ decDigits n) : d < 10 := by
  unfold decDigits at hd
  split at hd
  · obtain rfl : d = 0 := by simpa using hd
    decide
  · exact Nat.digits_lt_base (by decide) (List.mem_reverse.mp hd)

theorem appendDigits_decDigits (n : Nat) : appendDigits 10 0 (decDigits n) = n := by
  unfold decDigits
  split
  next h0 => exact h0.symm
  next => exact appendDigits_digits 10 n

/-- A number starts with a digit that is zero only for zero. -/
theorem decDigits_cons (n : Nat) : ∃ d ds, decDigits n = d :: ds ∧ (0 < n → d ≠ 0) := by
  unfold decDigits
  split
  next h0 => exact ⟨0, [], rfl, fun hpos => absurd h0 (by omega)⟩
  next h0 =>
    have hne : Nat.digits 10 n ≠ [] := Nat.digits_ne_nil_iff_ne_zero.mpr h0
    refine ⟨(Nat.digits 10 n).getLast hne, (Nat.digits 10 n).dropLast.reverse, ?_, fun _ =>
      Nat.getLast_digit_ne_zero 10 h0⟩
    conv_lhs => rw [← List.dropLast_append_getLast hne]
    rw [List.reverse_append, List.reverse_singleton, List.singleton_append]

theorem length_decimal_le {n k : Nat} (hk : 1 ≤ k) (h : n < 10 ^ k) : (decimal n).length ≤ k := by
  rw [decimal_eq, List.length_map, decDigits]
  split
  · exact hk
  · rw [List.length_reverse]
    exact (Nat.digits_length_le_iff (by decide) n).mpr h

/-- A number in the format. -/
theorem specLoop_decimal {n : Nat} (hmax : n < 2 ^ 31)
    (hzero : ps.zeroIsFlag = false ∨ 0 < n) (hwp : ps.wp = WP_NONE ∨ ps.wp = 0#32)
    (hroom : (decimal n).length ≤ room) (fmt : List Byte) :
    specLoop room (decimal n ++ fmt) ps args =
      specLoop (room - (decimal n).length) fmt (ps.number n) args := by
  obtain ⟨d, ds, hcons, hd0⟩ := decDigits_cons n
  have hlt : ∀ x ∈ d :: ds, x < 10 := fun x hx => decDigits_lt (hcons ▸ hx)
  have hval : appendDigits 10 d ds = n := by
    rw [← appendDigits_decDigits n, hcons, appendDigits, appendDigits, List.foldl_cons, Nat.zero_mul,
      Nat.zero_add]
  have hfirst : (if ps.wp = WP_NONE then 0#32 else ps.wp) = BitVec.ofNat 32 0 := by
    rcases hwp with hwp | hwp
    · rw [if_pos hwp]
    · rw [hwp]
      rfl
  have hstep := specChar_digit ps args (hlt d (by simp))
    (toChar ((ds.map (digitChar false) ++ fmt).headD 0#8))
    (fun h0 => hzero.resolve_right fun hpos => hd0 hpos h0)
  rw [ParseState.digit_eq (hlt d (by simp)) hfirst, Nat.zero_mul, Nat.zero_add] at hstep
  rw [decimal_eq, hcons, List.length_map, List.length_cons] at hroom ⊢
  rw [List.map_cons, List.cons_append, specLoop_option (by omega) hstep,
    if_neg Bool.false_ne_true,
    specLoop_digits (fun x hx => hlt x (List.mem_cons_of_mem _ hx)) rfl
      (ParseState.wp_number d) (by rw [hval]; exact hmax) (by omega),
    ParseState.number_number, hval, Nat.sub_sub, Nat.add_comm 1]

-- ---------------------------------------------------------------------------
-- The parts of a specification
-- ---------------------------------------------------------------------------

/-- The absolute value of a machine integer. -/
theorem toNat_abs {n : Nat} (x : BitVec n) :
    (if x.msb then -x else x).toNat = x.toInt.natAbs := by
  rw [BitVec.toInt_eq_msb_cond]
  have hlt := x.isLt
  split
  next hmsb =>
    have hge : 2 ^ (n - 1) ≤ x.toNat := BitVec.toNat_ge_of_msb_true hmsb
    have hpos : 0 < 2 ^ (n - 1) := Nat.two_pow_pos _
    rw [BitVec.toNat_neg, Nat.mod_eq_of_lt (by omega)]
    omega
  next => simp

theorem abs_eq (x : BitVec 32) :
    (if x.msb then -x else x) = BitVec.ofNat 32 x.toInt.natAbs := by
  rw [← toNat_abs, BitVec.ofNat_toNat, BitVec.setWidth_eq]

theorem msb_eq (x : BitVec 32) : x.msb = decide (x.toInt < 0) := by
  rw [BitVec.msb_eq_toInt]

/-- `spec.w` after a width. -/
def Width.bits : Width → BitVec 32
  | .unspecified => WP_NONE
  | .literal w _ _ => BitVec.ofNat 32 w
  | .star arg _ => BitVec.ofNat 32 arg.toInt.natAbs

def Width.negative : Width → Bool
  | .star arg _ => decide (arg.toInt < 0)
  | _ => false

theorem Width.length_text_le (w : Width) : w.text.length ≤ 10 := by
  cases w with
  | unspecified => decide
  | literal w _ hfits => exact length_decimal_le (by decide) (by omega)
  | star => simp [Width.text]

/-- The number of characters that a width asks for. -/
def Width.toNat : Width → Nat
  | .unspecified => 0
  | .literal w _ _ => w
  | .star arg _ => arg.toInt.natAbs

theorem Width.toNat_lt (w : Width) : w.toNat < 2 ^ 31 := by
  cases w with
  | unspecified => decide
  | literal w _ hfits => exact hfits
  | star arg hfits =>
    have hlt := arg.isLt
    have hcond := BitVec.toInt_eq_toNat_cond arg
    have hne : arg.toNat ≠ 2 ^ 31 := fun h => hfits (BitVec.eq_of_toNat_eq h)
    dsimp only [Width.toNat]
    omega

/-- The width that `outpadded` uses. -/
theorem Width.bits_or_zero (w : Width) :
    (if w.bits ≠ WP_NONE then w.bits else 0#32) = BitVec.ofNat 32 w.toNat := by
  have hlt := w.toNat_lt
  have hbits : w.bits = WP_NONE ∧ w.toNat = 0 ∨ w.bits = BitVec.ofNat 32 w.toNat := by
    cases w with
    | unspecified => exact .inl ⟨rfl, rfl⟩
    | literal w _ _ => exact .inr rfl
    | star arg _ => exact .inr rfl
  rcases hbits with ⟨hnone, hzero⟩ | hw
  · rw [if_neg (not_not.mpr hnone), hzero]
  · have hne : w.bits ≠ WP_NONE := by
      rw [hw]
      intro heq
      have := congrArg BitVec.toNat heq
      rw [BitVec.toNat_ofNat, Nat.mod_eq_of_lt (by omega)] at this
      simp only [WP_NONE, BitVec.toNat_ofNat] at this
      omega
    rw [if_pos hne, hw]

theorem specLoop_width (w : Width) (hwp : ps.onPrecision = false)
    (hnone : ps.spec.w = WP_NONE) (hroom : w.text.length ≤ room) (fmt : List Byte) :
    ∃ ps' : ParseState, specLoop room (w.text ++ fmt) ps (w.args ++ args) =
        specLoop (room - w.text.length) fmt ps' args ∧
      ps'.spec = { ps.spec with left := ps.spec.left || w.negative, w := w.bits } := by
  cases w with
  | unspecified =>
    refine ⟨ps, rfl, ?_⟩
    simp [Width.negative, Width.bits, ← hnone]
  | literal w hpos hfits =>
    have hw : ps.wp = WP_NONE := by rw [ParseState.wp, hwp]; exact hnone
    refine ⟨ps.number w, specLoop_decimal hfits (.inr hpos) (.inl hw) hroom fmt, ?_⟩
    simp [ParseState.number, ParseState.setWp, hwp, Width.negative, Width.bits]
  | star arg hfits =>
    have hstar : specChar (toChar (byte '*')) (toChar (fmt.headD 0#8)) ps (.word arg :: args) =
        .option (ps.star arg) false args := rfl
    refine ⟨ps.star arg, specLoop_option hroom hstar, ?_⟩
    rw [Width.bits, Width.negative, ← abs_eq, ← msb_eq]
    cases hmsb : arg.msb <;> simp [ParseState.star, ParseState.setWp, hmsb, hwp]

/-- `spec.p` after a precision. -/
def Precision.bits : Precision → BitVec 32
  | .unspecified => WP_NONE
  | .dot => 0#32
  | .literal p _ => BitVec.ofNat 32 p
  | .star arg _ => if arg.toInt < 0 then WP_NONE else arg

/-- The state after the dot of a precision. -/
def ParseState.dot (ps : ParseState) : ParseState := ⟨{ ps.spec with p := 0#32 }, true, false⟩

theorem specLoop_dot (hroom : 1 ≤ room) (fmt : List Byte) :
    specLoop room (byte '.' :: fmt) ps args = specLoop (room - 1) fmt ps.dot args := by
  have hchar : specChar (toChar (byte '.')) (toChar (fmt.headD 0#8)) ps args =
      .option ps.dot false args := rfl
  rw [specLoop_option hroom hchar, if_neg Bool.false_ne_true]

/-- A precision that stands in the format. -/
theorem specLoop_dotDecimal {p : Nat} (hmax : p < 2 ^ 31) (hroom : (decimal p).length + 1 ≤ room)
    (fmt : List Byte) :
    specLoop room (byte '.' :: (decimal p ++ fmt)) ps args =
      specLoop (room - ((decimal p).length + 1)) fmt (ps.dot.number p) args := by
  rw [specLoop_dot (by omega), specLoop_decimal hmax (.inl rfl) (.inr rfl) (by omega), Nat.sub_sub,
    Nat.add_comm 1]

/-- A precision that is an argument. -/
theorem specLoop_dotStar (arg : BitVec 32) (hroom : 2 ≤ room) (fmt : List Byte) :
    specLoop room (byte '.' :: byte '*' :: fmt) ps (.word arg :: args) =
      specLoop (room - 2) fmt (ps.dot.star arg) args := by
  have hstar : specChar (toChar (byte '*')) (toChar (fmt.headD 0#8)) ps.dot (.word arg :: args) =
      .option (ps.dot.star arg) false args := rfl
  rw [specLoop_dot (by omega), specLoop_option (by omega) hstar, if_neg Bool.false_ne_true,
    Nat.sub_sub]

theorem ParseState.dot_star_spec (ps : ParseState) (arg : BitVec 32) :
    (ps.dot.star arg).spec = { ps.spec with p := if arg.toInt < 0 then WP_NONE else arg } := by
  have hneg : (arg.toInt < 0) ↔ arg.msb = true := by rw [msb_eq, decide_eq_true_iff]
  cases hmsb : arg.msb <;> simp [ParseState.star, ParseState.setWp, ParseState.dot, hmsb, hneg]

theorem specLoop_precision (p : Precision) (hnone : ps.spec.p = WP_NONE)
    (hroom : p.text.length ≤ room) (fmt : List Byte) :
    ∃ ps' : ParseState, specLoop room (p.text ++ fmt) ps (p.args ++ args) =
        specLoop (room - p.text.length) fmt ps' args ∧
      ps'.spec = { ps.spec with p := p.bits } := by
  cases p with
  | unspecified =>
    refine ⟨ps, rfl, ?_⟩
    simp [Precision.bits, ← hnone]
  | dot => exact ⟨ps.dot, specLoop_dot hroom fmt, rfl⟩
  | literal p hfits =>
    have hlen : (decimal p).length + 1 ≤ room := hroom
    exact ⟨ps.dot.number p, specLoop_dotDecimal (by omega) hlen fmt, rfl⟩
  | star arg hfits => exact ⟨ps.dot.star arg, specLoop_dotStar arg hroom fmt, ps.dot_star_spec arg⟩

/-- `spec.lenmodsz` after a length modifier. -/
def LenMod.size : LenMod → Nat
  | .int => 0
  | .hh => 1
  | .h => 2
  | .l | .z | .t => 4
  | .ll | .j => 8

theorem specLoop_lenMod (lm : LenMod) (hnone : ps.spec.lenmodsz = 0) (hroom : 1 ≤ room)
    (c : IntConv) (fmt : List Byte) :
    ∃ (ps' : ParseState) (room' : Nat), room - 1 ≤ room' ∧
      specLoop room (lm.text ++ c.char :: fmt) ps args =
        specLoop room' (c.char :: fmt) ps' args ∧
      ps'.spec = { ps.spec with lenmodsz := lm.size } := by
  have hstep : ∀ (ch : Char) (rest : List Byte) (sz : Nat) (skip : Bool),
      specChar (toChar (byte ch)) (toChar (rest.headD 0#8)) ps args = .option (ps.lenmod sz) skip args →
      specLoop room (byte ch :: rest) ps args =
        specLoop (room - 1) (if skip then rest.tail else rest) (ps.lenmod sz) args :=
    fun _ _ _ _ h => specLoop_option hroom h
  -- a conversion character is no second `h` or `l`
  have hh : ∀ rest, specChar (toChar (byte 'h')) (toChar ((c.char :: rest).headD 0#8)) ps args =
      .option (ps.lenmod 2) false args := by
    intro rest
    cases c <;> rfl
  have hl : ∀ rest, specChar (toChar (byte 'l')) (toChar ((c.char :: rest).headD 0#8)) ps args =
      .option (ps.lenmod 4) false args := by
    intro rest
    cases c <;> rfl
  cases lm with
  | int => exact ⟨ps, room, Nat.sub_le _ _, rfl, by simp [LenMod.size, ← hnone]⟩
  | hh => exact ⟨_, _, le_rfl, hstep 'h' (byte 'h' :: c.char :: fmt) 1 true rfl, rfl⟩
  | ll => exact ⟨_, _, le_rfl, hstep 'l' (byte 'l' :: c.char :: fmt) 8 true rfl, rfl⟩
  | h => exact ⟨_, _, le_rfl, hstep 'h' (c.char :: fmt) 2 false (hh fmt), rfl⟩
  | l => exact ⟨_, _, le_rfl, hstep 'l' (c.char :: fmt) 4 false (hl fmt), rfl⟩
  | j => exact ⟨_, _, le_rfl, hstep 'j' (c.char :: fmt) 8 false rfl, rfl⟩
  | z => exact ⟨_, _, le_rfl, hstep 'z' (c.char :: fmt) 4 false rfl, rfl⟩
  | t => exact ⟨_, _, le_rfl, hstep 't' (c.char :: fmt) 4 false rfl, rfl⟩

end Parse

-- ---------------------------------------------------------------------------
-- What is printed
-- ---------------------------------------------------------------------------

theorem hexdigit_eq {d : Nat} (hd : d < 16) : hexdigit d = digitChar false d := by
  interval_cases d <;> rfl

theorem toupper_digitChar {d : Nat} (hd : d < 16) : toupper (digitChar false d) = digitChar true d := by
  have hall : ∀ d : Fin 16, toupper (digitChar false d) = digitChar true d := by decide +kernel
  exact hall ⟨d, hd⟩

/-- Digits in capitals. -/
theorem strtoupper_digits {base v : Nat} (hbase : 2 ≤ base) (hmax : base ≤ 16) :
    strtoupper ((Nat.digits base v).reverse.map (digitChar false)) =
      (Nat.digits base v).reverse.map (digitChar true) := by
  rw [strtoupper, List.map_map]
  refine List.map_congr_left fun d hd => ?_
  exact toupper_digitChar (lt_of_lt_of_le (Nat.digits_lt_base hbase (List.mem_reverse.mp hd)) hmax)

/-- The text of `itoa`. -/
def itoaText (base v precision : Nat) (up octal : Bool) : List Byte :=
  let ds := (Nat.digits base v).reverse.map (digitChar up)
  let ds := List.replicate (precision - ds.length) (byte '0') ++ ds
  if octal && ds.head? != some (byte '0') then byte '0' :: ds else ds

theorem itoa_text {base : Nat} (hbase : 2 ≤ base) (hmax : base ≤ 16) (uval : BitVec 64)
    {precision : BitVec 32} (hprec : precision.toNat < DIGITBUFSZ) (octal : Bool) :
    itoa uval base precision octal = some (itoaText base uval.toNat precision.toNat false octal) := by
  have hdigits : itoaDigits base 64 uval.toNat =
      (Nat.digits base uval.toNat).map (digitChar false) := by
    rw [itoaDigits_eq hbase (uintmax_lt_pow hbase uval)]
    refine List.map_congr_left fun d hd => ?_
    exact hexdigit_eq (lt_of_lt_of_le (Nat.digits_lt_base hbase hd) hmax)
  rw [itoa_eq, if_pos ((length_itoaReversed_lt hbase uval precision octal).mpr hprec)]
  congr 1
  unfold itoaReversed itoaText
  dsimp only
  rw [hdigits, List.map_reverse, List.length_reverse, List.getLast?_eq_head?_reverse,
    List.reverse_append, List.reverse_replicate]
  split
  · rw [List.reverse_append, List.reverse_append, List.reverse_replicate]
    rfl
  · rw [List.reverse_append, List.reverse_replicate]

theorem strtoupper_itoaText {base : Nat} (hbase : 2 ≤ base) (hmax : base ≤ 16) (v precision : Nat) :
    strtoupper (itoaText base v precision false false) = itoaText base v precision true false := by
  have hds := strtoupper_digits (v := v) hbase hmax
  have hzero : toupper (byte '0') = byte '0' := by decide
  unfold strtoupper at hds ⊢
  simp only [itoaText, Bool.false_and, Bool.false_eq_true, if_false, List.map_append, hds,
    List.map_replicate, hzero, List.length_map]

namespace IntSpec

variable (sp : IntSpec)

/-- The precision that is used. -/
def usedPrecision : Nat := sp.prec.getD 1

theorem usedPrecision_lt : sp.usedPrecision < DIGITBUFSZ := by
  have hsz : DIGITBUFSZ = 128 := rfl
  unfold usedPrecision prec
  cases sp.precision with
  | unspecified => decide
  | dot => decide
  | literal p hfits => exact Nat.lt_succ_of_le hfits
  | star arg hfits =>
    dsimp only
    split
    · decide
    next hneg =>
      have := BitVec.toInt_eq_toNat_cond arg
      rw [Option.getD_some, hsz]
      omega

theorem digits_eq (v : Nat) :
    sp.digits v = itoaText sp.conv.base v sp.usedPrecision sp.conv.upper
      (sp.flags.contains .alt && sp.conv.base == 8) := by
  have hcond : (sp.conv = .o ∧ .alt ∈ sp.flags) ↔
      (sp.flags.contains .alt && sp.conv.base == 8) = true := by
    rw [Bool.and_eq_true, List.contains_iff_mem, and_comm, beq_iff_eq]
    refine and_congr_right fun _ => ?_
    cases sp.conv <;> simp [IntConv.base]
  unfold digits itoaText usedPrecision
  dsimp only
  by_cases h : sp.conv = .o ∧ .alt ∈ sp.flags
  · rw [hcond.mp h, Bool.true_and]
    simp only [h.1, h.2, true_and, bne_iff_ne]
  · have hfalse := mt hcond.mpr h
    rw [if_neg (fun hall => h ⟨hall.1, hall.2.1⟩), if_neg]
    rw [Bool.and_eq_true]
    exact fun hall => hfalse hall.1

-- ---------------------------------------------------------------------------
-- Arguments
-- ---------------------------------------------------------------------------

/-- The words of the value. -/
def valueArgs (lo hi : BitVec 32) : List VaArg :=
  if sp.lenMod.bits = 64 then [.word lo, .word hi] else [.word lo]

theorem setWidth_append_low {k : Nat} (hk : k ≤ 32) (lo hi : BitVec 32) :
    (hi ++ lo).setWidth k = lo.setWidth k := by
  rw [BitVec.setWidth_append, dif_pos hk]

theorem vaArgSigned_value (hsigned : sp.conv.signed = true) (lo hi : BitVec 32)
    (args : List VaArg) :
    ∃ x : BitVec 64, vaArgSigned sp.lenMod.size (sp.valueArgs lo hi ++ args) = some (x, args) ∧
      x.toInt = sp.value lo hi := by
  unfold value valueArgs
  rw [if_pos hsigned]
  cases sp.lenMod with
  | int | l | z | t =>
    refine ⟨lo.signExtend 64, rfl, ?_⟩
    rw [BitVec.toInt_signExtend_of_le (by decide)]
    exact congrArg BitVec.toInt (setWidth_append_low le_rfl lo hi).symm
  | hh =>
    refine ⟨(lo.setWidth 8).signExtend 64, rfl, ?_⟩
    rw [BitVec.toInt_signExtend_of_le (by decide)]
    exact congrArg BitVec.toInt (setWidth_append_low (by decide) lo hi).symm
  | h =>
    refine ⟨(lo.setWidth 16).signExtend 64, rfl, ?_⟩
    rw [BitVec.toInt_signExtend_of_le (by decide)]
    exact congrArg BitVec.toInt (setWidth_append_low (by decide) lo hi).symm
  | ll | j => exact ⟨hi ++ lo, rfl, rfl⟩

theorem vaArgUnsigned_value (hsigned : sp.conv.signed = false) (lo hi : BitVec 32)
    (args : List VaArg) :
    ∃ x : BitVec 64, vaArgUnsigned sp.lenMod.size (sp.valueArgs lo hi ++ args) = some (x, args) ∧
      (x.toNat : Int) = sp.value lo hi := by
  have hvalue : sp.value lo hi = (((hi ++ lo).setWidth sp.lenMod.bits).toNat : Int) :=
    if_neg (by rw [hsigned]; exact Bool.false_ne_true)
  rw [hvalue]
  unfold valueArgs
  cases sp.lenMod with
  | int | l | z | t =>
    refine ⟨lo.setWidth 64, rfl, ?_⟩
    rw [BitVec.toNat_setWidth_of_le (by decide)]
    exact congrArg (fun x : BitVec 32 => (x.toNat : Int)) (setWidth_append_low le_rfl lo hi).symm
  | hh =>
    refine ⟨(lo.setWidth 8).setWidth 64, rfl, ?_⟩
    rw [BitVec.toNat_setWidth_of_le (by decide)]
    exact congrArg (fun x : BitVec 8 => (x.toNat : Int)) (setWidth_append_low (by decide) lo hi).symm
  | h =>
    refine ⟨(lo.setWidth 16).setWidth 64, rfl, ?_⟩
    rw [BitVec.toNat_setWidth_of_le (by decide)]
    exact congrArg (fun x : BitVec 16 => (x.toNat : Int)) (setWidth_append_low (by decide) lo hi).symm
  | ll | j => exact ⟨hi ++ lo, rfl, rfl⟩

-- ---------------------------------------------------------------------------
-- Padding
-- ---------------------------------------------------------------------------

/-- What `process_conversion` makes of the specification. -/
def parsed : FmtSpec where
  left     := sp.left
  plus     := sp.flags.contains .plus
  space    := sp.flags.contains .space
  alt      := sp.flags.contains .alt
  zero     := sp.flags.contains .zero
  w        := sp.width.bits
  p        := sp.precision.bits
  lenmodsz := sp.lenMod.size

theorem minWidth_eq : sp.minWidth = sp.width.toNat := by
  unfold minWidth
  cases sp.width <;> rfl

theorem minWidth_lt : sp.minWidth < 2 ^ 31 := by
  rw [minWidth_eq]
  exact sp.width.toNat_lt

/-- The width, where there is one. -/
theorem parsed_width :
    (if sp.parsed.w ≠ WP_NONE then sp.parsed.w else 0#32) = BitVec.ofNat 32 sp.minWidth := by
  rw [minWidth_eq]
  exact sp.width.bits_or_zero

/-- The precision that is used, and whether zeros are padded. -/
theorem parsed_checkPrecision :
    sp.parsed.checkPrecision.p.toNat = sp.usedPrecision ∧
      sp.parsed.checkPrecision.zero = (sp.flags.contains .zero && sp.prec.isNone) ∧
      sp.parsed.checkPrecision.left = sp.left ∧ sp.parsed.checkPrecision.w = sp.parsed.w := by
  have hbits : (sp.parsed.p = WP_NONE ∧ sp.prec = none) ∨
      (sp.parsed.p ≠ WP_NONE ∧ sp.prec = some sp.parsed.p.toNat) := by
    unfold parsed prec
    cases sp.precision with
    | unspecified => exact .inl ⟨rfl, rfl⟩
    | dot => exact .inr ⟨(by decide : (0#32 : BitVec 32) ≠ WP_NONE), rfl⟩
    | literal p hfits =>
      have htoNat : (BitVec.ofNat 32 p).toNat = p := by
        rw [BitVec.toNat_ofNat, Nat.mod_eq_of_lt (by omega)]
      refine .inr ⟨fun heq => ?_, congrArg some htoNat.symm⟩
      have := congrArg BitVec.toNat heq
      rw [show (Precision.literal p hfits).bits = BitVec.ofNat 32 p from rfl, htoNat] at this
      simp only [WP_NONE, BitVec.toNat_ofNat] at this
      omega
    | star arg hfits =>
      dsimp only [Precision.bits]
      by_cases hneg : arg.toInt < 0
      · exact .inl ⟨if_pos hneg, if_pos hneg⟩
      · rw [if_neg hneg, if_neg hneg]
        refine .inr ⟨?_, rfl⟩
        rintro rfl
        exact hneg (by decide)
  unfold FmtSpec.checkPrecision usedPrecision
  rcases hbits with ⟨hnone, hprec⟩ | ⟨hne, hprec⟩
  · rw [if_pos hnone, hprec]
    simp [parsed]
  · rw [if_neg hne, hprec]
    simp [parsed]

theorem padlen_toNat {spec : FmtSpec} {w : Nat} {pre valstr : List Byte}
    (hw : (if spec.w ≠ WP_NONE then spec.w else 0#32) = BitVec.ofNat 32 w) (hmax : w < 2 ^ 31)
    (hlen : pre.length + valstr.length < 2 ^ 31) :
    (padlen spec pre valstr).toNat = w - (pre.length + valstr.length) := by
  have hneed : (BitVec.ofNat 32 pre.length + BitVec.ofNat 32 valstr.length).toNat =
      pre.length + valstr.length := by
    rw [← BitVec.ofNat_add, BitVec.toNat_ofNat, Nat.mod_eq_of_lt (by omega)]
  have hwidth : (BitVec.ofNat 32 w).toNat = w := by
    rw [BitVec.toNat_ofNat, Nat.mod_eq_of_lt (by omega)]
  unfold padlen
  dsimp only
  rw [hw]
  split
  next hlt =>
    rw [BitVec.lt_def, hneed, hwidth] at hlt
    rw [BitVec.toNat_sub_of_le (by rw [BitVec.le_def, hneed, hwidth]; exact hlt.le), hneed, hwidth]
  next hge =>
    rw [BitVec.lt_def, hneed, hwidth] at hge
    rw [BitVec.toNat_ofNat]
    omega

theorem length_signOrBase_le (v : Int) : (sp.signOrBase v).length ≤ 2 := by
  unfold signOrBase
  split
  · split
    · decide
    · split
      · decide
      · split <;> decide
  · split
    · cases sp.conv <;> decide
    · decide

theorem length_digits_lt {v : Nat} (hv : v < 2 ^ 64) : (sp.digits v).length ≤ 129 := by
  have hbase : 2 ≤ sp.conv.base := by cases sp.conv <;> decide
  have hlen := length_digits_le hbase (BitVec.ofNat 64 v)
  rw [BitVec.toNat_ofNat, Nat.mod_eq_of_lt hv] at hlen
  have hprec := sp.usedPrecision_lt
  have hsz : DIGITBUFSZ = 128 := rfl
  rw [digits_eq, itoaText]
  split
  · simp only [List.length_cons, List.length_append, List.length_replicate, List.length_map,
      List.length_reverse]
    omega
  · simp only [List.length_append, List.length_replicate, List.length_map, List.length_reverse]
    omega

/-- The padded text is the field. -/
theorem paddedText_eq {v : Int} (hv : v.natAbs < 2 ^ 64) :
    paddedText sp.parsed.checkPrecision (sp.signOrBase v) (sp.digits v.natAbs) = sp.field v := by
  obtain ⟨-, hzero, hleft, hw⟩ := sp.parsed_checkPrecision
  have hpre := sp.length_signOrBase_le v
  have hdigits := sp.length_digits_lt hv
  have hpad : (padlen sp.parsed.checkPrecision (sp.signOrBase v) (sp.digits v.natAbs)).toNat =
      sp.minWidth - (sp.unpadded v).length := by
    rw [unpadded, List.length_append]
    exact padlen_toNat (by rw [hw]; exact sp.parsed_width) sp.minWidth_lt (by omega)
  have hcond : (.zero ∈ sp.flags ∧ sp.prec = none) ↔
      sp.parsed.checkPrecision.zero = true := by
    rw [hzero, Bool.and_eq_true, List.contains_iff_mem, Option.isNone_iff_eq_none]
  unfold paddedText field
  dsimp only
  rw [hpad, hleft]
  simp only [hcond, unpadded]
  cases sp.left <;> cases sp.parsed.checkPrecision.zero <;> simp

-- ---------------------------------------------------------------------------
-- The conversion
-- ---------------------------------------------------------------------------

theorem formatSigned_int (hsigned : sp.conv.signed = true) (lo hi : BitVec 32)
    (args : List VaArg) :
    formatSigned snoc [] sp.parsed 10 (sp.valueArgs lo hi ++ args) =
      some (sp.field (sp.value lo hi), args) := by
  obtain ⟨x, hx, hval⟩ := sp.vaArgSigned_value hsigned lo hi args
  obtain ⟨hprec, -⟩ := sp.parsed_checkPrecision
  have habs : (if x.msb then -x else x).toNat = (sp.value lo hi).natAbs := by
    rw [toNat_abs, hval]
  have hbase : sp.conv.base = 10 ∧ sp.conv.upper = false := by
    cases hc : sp.conv <;> simp_all [IntConv.signed, IntConv.base, IntConv.upper]
  have hdigits : itoa (if x.msb then -x else x) 10 sp.parsed.checkPrecision.p false =
      some (sp.digits (sp.value lo hi).natAbs) := by
    rw [itoa_text (by decide) (by decide) _ (by rw [hprec]; exact sp.usedPrecision_lt), habs, hprec,
      digits_eq, hbase.1, hbase.2, show ((10 : Nat) == 8) = false from rfl, Bool.and_false]
  have hsign : signPrefix sp.parsed x.msb = sp.signOrBase (sp.value lo hi) := by
    rw [signOrBase, if_pos hsigned, ← hval, signPrefix, BitVec.msb_eq_toInt]
    simp only [decide_eq_true_eq, parsed, List.contains_iff_mem]
  have hbound : (sp.value lo hi).natAbs < 2 ^ 64 := by
    rw [← habs]
    exact BitVec.isLt _
  rw [formatSigned, show sp.parsed.lenmodsz = sp.lenMod.size from rfl, hx, Option.bind_some]
  dsimp only
  rw [hdigits, Option.map_some, outpadded_snoc, hsign, sp.paddedText_eq hbound]

theorem formatUnsigned_int (hsigned : sp.conv.signed = false) (lo hi : BitVec 32)
    (args : List VaArg) :
    formatUnsigned snoc [] sp.parsed sp.conv.base sp.conv.upper (sp.valueArgs lo hi ++ args) =
      some (sp.field (sp.value lo hi), args) := by
  obtain ⟨x, hx, hval⟩ := sp.vaArgUnsigned_value hsigned lo hi args
  obtain ⟨hprec, -⟩ := sp.parsed_checkPrecision
  have habs : x.toNat = (sp.value lo hi).natAbs := by
    rw [← hval, Int.natAbs_natCast]
  have hbase : 2 ≤ sp.conv.base ∧ sp.conv.base ≤ 16 := by cases sp.conv <;> decide
  have hdigits : itoa x sp.conv.base sp.parsed.checkPrecision.p
      (sp.parsed.alt && sp.conv.base == 8) =
      some (itoaText sp.conv.base (sp.value lo hi).natAbs sp.usedPrecision false
        (sp.flags.contains .alt && sp.conv.base == 8)) := by
    rw [itoa_text hbase.1 hbase.2 _ (by rw [hprec]; exact sp.usedPrecision_lt), habs, hprec]
    rfl
  have hup : (if sp.conv.upper then strtoupper (itoaText sp.conv.base (sp.value lo hi).natAbs
        sp.usedPrecision false (sp.flags.contains .alt && sp.conv.base == 8))
      else itoaText sp.conv.base (sp.value lo hi).natAbs sp.usedPrecision false
        (sp.flags.contains .alt && sp.conv.base == 8)) = sp.digits (sp.value lo hi).natAbs := by
    rw [digits_eq]
    cases hupper : sp.conv.upper with
    | false => rfl
    | true =>
      -- only hexadecimal and binary conversions have capitals
      have hoct : (sp.flags.contains .alt && sp.conv.base == 8) = false := by
        cases hc : sp.conv <;> simp_all [IntConv.upper, IntConv.base]
      rw [hoct, if_pos rfl, strtoupper_itoaText hbase.1 hbase.2]
  have hzero : (x != 0#64) = decide (sp.value lo hi ≠ 0) := by
    rw [← hval]
    by_cases h0 : x = 0#64
    · subst h0
      rfl
    · have : x.toNat ≠ 0 := fun h => h0 (BitVec.eq_of_toNat_eq h)
      simp [h0, this]
  have hpre : (if sp.conv.upper then strtoupper
        (if sp.parsed.alt && sp.conv.base == 2 && x != 0#64 then bytes "0b"
          else if sp.parsed.alt && sp.conv.base == 16 && x != 0#64 then bytes "0x" else [])
      else if sp.parsed.alt && sp.conv.base == 2 && x != 0#64 then bytes "0b"
        else if sp.parsed.alt && sp.conv.base == 16 && x != 0#64 then bytes "0x" else []) =
      sp.signOrBase (sp.value lo hi) := by
    have hcapX : strtoupper (bytes "0x") = bytes "0X" := by decide
    have hcapB : strtoupper (bytes "0b") = bytes "0B" := by decide
    have hcapNil : strtoupper [] = [] := rfl
    have halt : sp.parsed.alt = decide (.alt ∈ sp.flags) := by
      rw [show sp.parsed.alt = sp.flags.contains .alt from rfl, List.contains_eq_mem]
    rw [signOrBase, hsigned, hzero, halt]
    cases hc : sp.conv with
    | d | i =>
      rw [hc] at hsigned
      cases hsigned
    | _ =>
      by_cases hflag : .alt ∈ sp.flags ∧ sp.value lo hi ≠ 0
      · simp [IntConv.upper, IntConv.base, hflag.1, hflag.2, hcapX, hcapB]
      · rw [if_neg Bool.false_ne_true, if_neg hflag]
        rcases not_and_or.mp hflag with h | h <;> simp [h, hcapNil]
  have hbound : (sp.value lo hi).natAbs < 2 ^ 64 := by
    rw [← habs]
    exact BitVec.isLt _
  rw [formatUnsigned, show sp.parsed.lenmodsz = sp.lenMod.size from rfl, hx, Option.bind_some]
  dsimp only
  rw [hdigits, Option.map_some, outpadded_snoc, hpre, hup, sp.paddedText_eq hbound]

/-- The specification fits into `fmtbuf`. -/
theorem length_parts :
    sp.flags.length + sp.width.text.length + sp.precision.text.length ≤ 19 := by
  have hflags : sp.flags.length ≤ 5 := by
    have hall : ∀ f ∈ sp.flags, f ∈ [Flag.minus, .plus, .space, .alt, .zero] := by
      intro f _
      cases f <;> simp
    exact (sp.nodup.subperm hall).length_le
  have hwidth := sp.width.length_text_le
  have hprec : sp.precision.text.length ≤ 4 := by
    cases sp.precision with
    | unspecified => decide
    | dot => decide
    | literal p hfits => exact Nat.succ_le_succ (length_decimal_le (by decide) (by omega))
    | star => simp [Precision.text]
  omega

/-- The conversion character ends the specification. -/
theorem specLoop_conv {ps : ParseState} {room : Nat} (hroom : 1 ≤ room)
    (hspec : ps.spec = sp.parsed) (rest : List Byte) (args : List VaArg) :
    specLoop room (sp.conv.char :: rest) ps args =
      .ok ⟨toChar sp.conv.char, sp.parsed, rest, args⟩ := by
  obtain ⟨n, rfl⟩ := Nat.exists_eq_add_of_le' hroom
  have hend : ∀ next args, specChar (toChar sp.conv.char) next ps args = .conversion := by
    intro next args
    cases sp.conv <;> rfl
  rw [specLoop, hend, hspec]

/-- The conversion prints the field. -/
theorem parsed_convert (lo hi : BitVec 32) (rest : List Byte) (args : List VaArg) :
    ParsedSpec.convert snoc [] ⟨toChar sp.conv.char, sp.parsed, rest, sp.valueArgs lo hi ++ args⟩ =
      .ok (sp.field (sp.value lo hi), rest, args) := by
  have hconv : convert snoc [] (toChar sp.conv.char) sp.parsed (sp.valueArgs lo hi ++ args) =
      .ok (sp.field (sp.value lo hi), args) := by
    have hs := fun h => congrArg Conv.ofOption (sp.formatSigned_int h lo hi args)
    have hu := fun h => congrArg Conv.ofOption (sp.formatUnsigned_int h lo hi args)
    cases hc : sp.conv with
    | d | i => exact hs (by rw [hc]; rfl)
    | u | o | x | X | b | B =>
      have hu := hu (by rw [hc]; rfl)
      rw [hc] at hu
      exact hu
  rw [ParsedSpec.convert, hconv]
  rfl

/-- What `process_conversion` makes of a specification: the field. -/
theorem parses (lo hi : BitVec 32) (rest : List Byte) (args : List VaArg) :
    processConversion snoc [] (sp.text ++ rest) (sp.args lo hi ++ args) =
      .ok (sp.field (sp.value lo hi), rest, args) := by
  have hlen := sp.length_parts
  have hsz : FMTCPYSZ = 32 := rfl
  have htext : sp.text ++ rest = sp.flags.map Flag.char ++ (sp.width.text ++
      (sp.precision.text ++ (sp.lenMod.text ++ sp.conv.char :: rest))) := by
    simp [text]
  have hargs : sp.args lo hi ++ args =
      sp.width.args ++ (sp.precision.args ++ (sp.valueArgs lo hi ++ args)) := by
    simp [IntSpec.args, valueArgs]
  rw [processConversion, conversionLoop_specLoop, htext, hargs,
    specLoop_flags sp.nodup (fun _ => rfl) (by omega)]
  obtain ⟨ps₁, hloop₁, hspec₁⟩ := @specLoop_width
    (ParseState.initial.withFlags sp.flags) (sp.precision.args ++ (sp.valueArgs lo hi ++ args))
    (FMTCPYSZ - 1 - sp.flags.length) sp.width rfl rfl (by omega)
    (sp.precision.text ++ (sp.lenMod.text ++ sp.conv.char :: rest))
  obtain ⟨ps₂, hloop₂, hspec₂⟩ := @specLoop_precision ps₁
    (sp.valueArgs lo hi ++ args) (FMTCPYSZ - 1 - sp.flags.length - sp.width.text.length)
    sp.precision (by rw [hspec₁]; rfl) (by omega) (sp.lenMod.text ++ sp.conv.char :: rest)
  obtain ⟨ps₃, room₃, hroom₃, hloop₃, hspec₃⟩ := @specLoop_lenMod ps₂
    (sp.valueArgs lo hi ++ args)
    (FMTCPYSZ - 1 - sp.flags.length - sp.width.text.length - sp.precision.text.length)
    sp.lenMod (by rw [hspec₂, hspec₁]; rfl) (by omega) sp.conv rest
  have hspec : ps₃.spec = sp.parsed := by
    rw [hspec₃, hspec₂, hspec₁]
    simp [parsed, left, ParseState.withFlags, ParseState.initial, Width.negative]
  rw [hloop₁, hloop₂, hloop₃, sp.specLoop_conv (by omega) hspec]
  exact sp.parsed_convert lo hi rest args

end IntSpec

/-- **Integer conversions print the text of the C standard**: the field, in whatever
is printed before and after it, and as long as the width or the text. -/
theorem processConversion_int {O : Type} (emit : O → Byte → O) (o : O) (sp : IntSpec)
    (lo hi : BitVec 32) (rest : List Byte) (args : List VaArg) :
    processConversion emit o (sp.text ++ rest) (sp.args lo hi ++ args) =
        .ok ((sp.field (sp.value lo hi)).foldl emit o, rest, args) ∧
      (sp.field (sp.value lo hi)).length =
        max sp.minWidth (sp.unpadded (sp.value lo hi)).length := by
  refine ⟨?_, sp.length_field _⟩
  rw [processConversion_eq, sp.parses lo hi rest args]
  rfl

end Munix
