import Munix.Core.SprintfInt

/-!
# Munix — reading numbers back

`atoi` of `core/stdlib.c`, on what the integer conversions print.

* `atoi_decimal` / `atoi_hex` — what it makes of a printed number with any text after
  it.
* `atoi_undoes_iff` — it undoes `%#x`; it undoes `%d` exactly when the text after the
  number does not go on with hexadecimal digits (up to multiples of `2 ^ 32`).
-/

namespace Munix

def isdigit (c : Byte) : Bool := byte '0' ≤ c && c ≤ byte '9'

def isxdigit (c : Byte) : Bool :=
  (byte '0' ≤ c && c ≤ byte '9') || (byte 'A' ≤ c && c ≤ byte 'F') || (byte 'a' ≤ c && c ≤ byte 'f')

/-- The body of the digit loop of `atoi`. -/
def addDigit (base i : BitVec 32) (c : Byte) : BitVec 32 :=
  let i := if byte '0' ≤ c ∧ c ≤ byte '9' then i * base + (c - byte '0').setWidth 32 else i
  let i := if byte 'a' ≤ c ∧ c ≤ byte 'f' then i * base + ((c - byte 'a').setWidth 32 + 0xa#32) else i
  if byte 'A' ≤ c ∧ c ≤ byte 'F' then i * base + ((c - byte 'A').setWidth 32 + 0xa#32) else i

/-- The digit loop of `atoi`. The class of digits is the same for both bases. -/
def atoiLoop (base : BitVec 32) : List Byte → BitVec 32 → BitVec 32
  | [], i => i
  | c :: a, i => if isxdigit c then atoiLoop base a (addDigit base i c) else i

/-- After the whitespace: the `0x` that sets the base, and the digits. -/
def atoiDigits (a : List Byte) : BitVec 32 :=
  if a.head? = some (byte '0') ∧ (a.tail.head? = some (byte 'x') ∨ a.tail.head? = some (byte 'X')) then
    atoiLoop 16#32 (a.drop 2) 0#32
  else atoiLoop 10#32 a 0#32

/-- `atoi(a)`. The base is unsigned, so that the arithmetic is. -/
def atoi (a : List Byte) : BitVec 32 := atoiDigits (a.dropWhile (· = byte ' '))

-- ---------------------------------------------------------------------------
-- The digit loop
-- ---------------------------------------------------------------------------

/-- The value of a hexadecimal digit. -/
def xdigitVal (c : Byte) : Nat :=
  if c ≤ byte '9' then c.toNat - 48 else if c ≤ byte 'F' then c.toNat - 55 else c.toNat - 87

theorem addDigit_eq {c : Byte} (hc : isxdigit c = true) (base i : BitVec 32) :
    addDigit base i c = i * base + BitVec.ofNat 32 (xdigitVal c) := by
  -- Each hexadecimal digit is in exactly one of the three ranges.
  have hrange : ∀ c : Byte, isxdigit c = true →
      ((byte '0' ≤ c ∧ c ≤ byte '9') ∧ ¬ (byte 'a' ≤ c ∧ c ≤ byte 'f') ∧ ¬ (byte 'A' ≤ c ∧ c ≤ byte 'F') ∧
        (c - byte '0').setWidth 32 = BitVec.ofNat 32 (xdigitVal c)) ∨
      (¬ (byte '0' ≤ c ∧ c ≤ byte '9') ∧ (byte 'a' ≤ c ∧ c ≤ byte 'f') ∧ ¬ (byte 'A' ≤ c ∧ c ≤ byte 'F') ∧
        (c - byte 'a').setWidth 32 + 0xa#32 = BitVec.ofNat 32 (xdigitVal c)) ∨
      (¬ (byte '0' ≤ c ∧ c ≤ byte '9') ∧ ¬ (byte 'a' ≤ c ∧ c ≤ byte 'f') ∧ (byte 'A' ≤ c ∧ c ≤ byte 'F') ∧
        (c - byte 'A').setWidth 32 + 0xa#32 = BitVec.ofNat 32 (xdigitVal c)) := by
    decide +kernel
  unfold addDigit
  dsimp only
  rcases hrange c hc with ⟨h0, ha, hA, hval⟩ | ⟨h0, ha, hA, hval⟩ | ⟨h0, ha, hA, hval⟩
  · rw [if_pos h0, if_neg ha, if_neg hA, hval]
  · rw [if_neg h0, if_pos ha, if_neg hA, hval]
  · rw [if_neg h0, if_neg ha, if_pos hA, hval]

/-- The loop takes the hexadecimal digits, whatever the base is. -/
theorem atoiLoop_eq (base v : Nat) (a : List Byte) :
    atoiLoop (BitVec.ofNat 32 base) a (BitVec.ofNat 32 v) =
      BitVec.ofNat 32 (appendDigits base v ((a.takeWhile isxdigit).map xdigitVal)) := by
  induction a generalizing v with
  | nil => rfl
  | cons c a ih =>
    rw [atoiLoop, List.takeWhile_cons]
    cases hc : isxdigit c with
    | false => rfl
    | true =>
      rw [if_pos rfl, if_pos rfl, addDigit_eq hc, ← BitVec.ofNat_mul, ← BitVec.ofNat_add, ih]
      rfl

/-- The digits in front count more. -/
theorem appendDigits_eq (base v : Nat) (ds : List Nat) :
    appendDigits base v ds = v * base ^ ds.length + appendDigits base 0 ds := by
  induction ds generalizing v with
  | nil => simp [appendDigits]
  | cons d ds ih =>
    have hstep : ∀ v, appendDigits base v (d :: ds) = appendDigits base (v * base + d) ds := fun _ => rfl
    rw [hstep, hstep, ih, ih (0 * base + d), List.length_cons]
    ring

theorem appendDigits_append (base v : Nat) (ds ds' : List Nat) :
    appendDigits base v (ds ++ ds') = appendDigits base (appendDigits base v ds) ds' :=
  List.foldl_append

-- ---------------------------------------------------------------------------
-- Printed numbers
-- ---------------------------------------------------------------------------

theorem isxdigit_digitChar {d : Nat} (hd : d < 16) : isxdigit (digitChar false d) = true := by
  interval_cases d <;> rfl

theorem xdigitVal_digitChar {d : Nat} (hd : d < 16) : xdigitVal (digitChar false d) = d := by
  interval_cases d <;> rfl

/-- The digits that the loop finds in printed digits and the text after them. -/
theorem takeWhile_digits {ds : List Nat} (hds : ∀ d ∈ ds, d < 16) (rest : List Byte) :
    ((ds.map (digitChar false) ++ rest).takeWhile isxdigit).map xdigitVal =
      ds ++ (rest.takeWhile isxdigit).map xdigitVal := by
  induction ds with
  | nil => rfl
  | cons d ds ih =>
    have hd : d < 16 := hds d List.mem_cons_self
    rw [List.map_cons, List.cons_append, List.takeWhile_cons, if_pos (isxdigit_digitChar hd),
      List.map_cons, xdigitVal_digitChar hd, ih fun x hx => hds x (List.mem_cons_of_mem _ hx)]
    rfl

theorem dropWhile_spaces {a : List Byte} (ha : a.head? ≠ some (byte ' ')) (k : Nat) :
    (List.replicate k (byte ' ') ++ a).dropWhile (· = byte ' ') = a := by
  induction k with
  | zero =>
    cases a with
    | nil => rfl
    | cons c a =>
      have hc : c ≠ byte ' ' := fun h => ha (by rw [h, List.head?_cons])
      simp [hc]
  | succ k ih => simpa [List.replicate_succ] using ih

/-- The text of a conversion that makes up the whole format. -/
theorem formatText_int (sp : IntSpec) (lo hi : BitVec 32) :
    formatText (byte '%' :: sp.text) (sp.args lo hi) = .ok (sp.field (sp.value lo hi)) := by
  have hconv := sp.parses lo hi [] []
  rw [List.append_nil, List.append_nil] at hconv
  have hpos : 0 < sp.text.length := by simp [IntSpec.text]
  obtain ⟨n, hn⟩ := Nat.exists_eq_add_of_lt hpos
  change formatLoop snoc (fun _ => false) _ [] (byte '%' :: sp.text) (sp.args lo hi) = _
  rw [List.length_cons, formatLoop, if_neg (not_not.mpr rfl), hconv]
  dsimp only
  rw [if_neg Bool.false_ne_true, hn]
  rfl

/-- A field without a width is its text. -/
theorem field_unpadded {sp : IntSpec} (hwidth : sp.width = .unspecified) (v : Int) :
    sp.field v = sp.unpadded v := by
  have hmin : sp.minWidth = 0 := by rw [IntSpec.minWidth_eq, hwidth]; rfl
  unfold IntSpec.field
  dsimp only
  rw [hmin, Nat.zero_sub, List.replicate_zero]
  split_ifs
  · exact List.append_nil _
  · rw [List.replicate_zero, List.append_nil]
    rfl
  · exact List.nil_append _

/-- Digits without a precision: at least one. -/
theorem digits_unspecified {sp : IntSpec} (hprec : sp.precision = .unspecified) (hconv : sp.conv ≠ .o)
    (hcase : sp.conv.upper = false) {n : Nat} (hn : n ≠ 0) :
    sp.digits n = (Nat.digits sp.conv.base n).reverse.map (digitChar false) := by
  have hdefault : sp.prec = none := by rw [IntSpec.prec, hprec]
  have hlen : 1 ≤ (Nat.digits sp.conv.base n).length :=
    List.length_pos_iff.mpr (Nat.digits_ne_nil_iff_ne_zero.mpr hn)
  unfold IntSpec.digits
  dsimp only
  rw [if_neg fun h => hconv h.1, hdefault, hcase, Option.getD_none, List.length_map,
    List.length_reverse, Nat.sub_eq_zero_of_le hlen, List.replicate_zero, List.nil_append]

/-- `%d` -/
def decSpec : IntSpec := ⟨[], List.nodup_nil, .unspecified, .unspecified, .int, .d⟩

/-- `%#x` -/
def hexSpec : IntSpec := ⟨[.alt], by decide, .unspecified, .unspecified, .int, .x⟩

theorem formatText_dec {v : BitVec 32} (hv : v.msb = false) :
    formatText (bytes "%d") [.word v] = .ok ((decDigits v.toNat).map (digitChar false)) := by
  have hint : v.toInt = v.toNat := by rw [BitVec.toInt_eq_msb_cond, hv, if_neg Bool.false_ne_true]
  have hvalue : decSpec.value v 0#32 = v.toNat := by
    rw [← hint]
    exact congrArg BitVec.toInt (IntSpec.setWidth_append_low (by decide) v 0#32)
  have hfield : decSpec.field (v.toNat : Int) = (decDigits v.toNat).map (digitChar false) := by
    have hsign : decSpec.signOrBase (v.toNat : Int) = [] := by
      have hpos : ¬ ((v.toNat : Int) < 0) := by omega
      simp [IntSpec.signOrBase, decSpec, IntConv.signed, hpos]
    rw [field_unpadded rfl, IntSpec.unpadded, hsign, List.nil_append, Int.natAbs_natCast, decDigits]
    split
    next hzero => rw [hzero]; rfl
    next hne => exact digits_unspecified rfl (by decide) rfl hne
  rw [← hfield, ← hvalue]
  exact formatText_int decSpec v 0#32

theorem formatText_hex {v : BitVec 32} (hv : v ≠ 0#32) :
    formatText (bytes "%#x") [.word v] =
      .ok (bytes "0x" ++ (Nat.digits 16 v.toNat).reverse.map (digitChar false)) := by
  have hvalue : hexSpec.value v 0#32 = v.toNat :=
    congrArg (fun x : BitVec 32 => (x.toNat : Int)) (IntSpec.setWidth_append_low (by decide) v 0#32)
  have hne : v.toNat ≠ 0 := fun h => hv (BitVec.eq_of_toNat_eq h)
  have hfield : hexSpec.field (v.toNat : Int) =
      bytes "0x" ++ (Nat.digits 16 v.toNat).reverse.map (digitChar false) := by
    have hbase : hexSpec.signOrBase (v.toNat : Int) = bytes "0x" := by
      simp [IntSpec.signOrBase, hexSpec, IntConv.signed, hne]
    rw [field_unpadded rfl, IntSpec.unpadded, hbase, Int.natAbs_natCast,
      digits_unspecified rfl (by decide) rfl hne]
    rfl
  rw [← hfield, ← hvalue]
  exact formatText_int hexSpec v 0#32

-- ---------------------------------------------------------------------------
-- Reading a printed number
-- ---------------------------------------------------------------------------

/-- The values of the hexadecimal digits that a text begins with. -/
def xdigits (rest : List Byte) : List Nat := (rest.takeWhile isxdigit).map xdigitVal

theorem xdigits_nil {rest : List Byte} (h : ∀ c ∈ rest.head?, isxdigit c = false) :
    xdigits rest = [] := by
  cases rest with
  | nil => rfl
  | cons c rest => simp [xdigits, h c rfl]

/-- A decimal number, with any text after it that does not make its zero the start of
a `0x`: the digits that the text begins with are taken for digits of the number. -/
theorem atoi_decimal (n : Nat) {rest : List Byte}
    (hx : ¬ (n = 0 ∧ ∃ c ∈ rest.head?, c = byte 'x' ∨ c = byte 'X')) (k : Nat) :
    atoi (List.replicate k (byte ' ') ++ ((decDigits n).map (digitChar false) ++ rest)) =
      BitVec.ofNat 32 (appendDigits 10 n (xdigits rest)) := by
  obtain ⟨d, ds, hcons, hd⟩ := decDigits_cons n
  have hlt : ∀ d ∈ decDigits n, d < 16 := fun d hd => (decDigits_lt hd).trans (by decide)
  have hd10 : d < 10 := decDigits_lt (hcons ▸ List.mem_cons_self)
  have hhead : ((decDigits n).map (digitChar false) ++ rest).head? = some (digitChar false d) := by
    rw [hcons]
    rfl
  have hspace : ((decDigits n).map (digitChar false) ++ rest).head? ≠ some (byte ' ') := by
    rw [hhead]
    interval_cases d <;> decide
  have hbase : ¬ (((decDigits n).map (digitChar false) ++ rest).head? = some (byte '0') ∧
      (((decDigits n).map (digitChar false) ++ rest).tail.head? = some (byte 'x') ∨
        ((decDigits n).map (digitChar false) ++ rest).tail.head? = some (byte 'X'))) := by
    rw [hhead]
    rintro ⟨hzero, hnext⟩
    have hd0 : d = 0 := by
      interval_cases d <;> first | rfl | exact absurd hzero (by decide)
    have hn : n = 0 := by
      by_contra hne
      exact hd (Nat.pos_of_ne_zero hne) hd0
    subst hn
    exact hx ⟨rfl, hnext.elim (fun h => ⟨_, h, .inl rfl⟩) fun h => ⟨_, h, .inr rfl⟩⟩
  rw [atoi, dropWhile_spaces hspace, atoiDigits, if_neg hbase]
  have hloop := atoiLoop_eq 10 0 ((decDigits n).map (digitChar false) ++ rest)
  rw [takeWhile_digits hlt, appendDigits_append] at hloop
  have hvalue : appendDigits 10 0 (decDigits n) = n := appendDigits_decDigits n
  rw [hvalue] at hloop
  exact hloop

/-- A hexadecimal number that is not zero, with any text after it. -/
theorem atoi_hex {n : Nat} (rest : List Byte) (k : Nat) :
    atoi (List.replicate k (byte ' ') ++
        (bytes "0x" ++ (Nat.digits 16 n).reverse.map (digitChar false) ++ rest)) =
      BitVec.ofNat 32 (appendDigits 16 n (xdigits rest)) := by
  have hlt : ∀ d ∈ (Nat.digits 16 n).reverse, d < 16 := fun d hd =>
    Nat.digits_lt_base (by decide) (List.mem_reverse.mp hd)
  have hspace : (bytes "0x" ++ (Nat.digits 16 n).reverse.map (digitChar false) ++ rest).head? ≠
      some (byte ' ') := by
    change some (byte '0') ≠ _
    decide
  rw [atoi, dropWhile_spaces hspace, atoiDigits, if_pos ⟨rfl, .inl rfl⟩]
  have hloop := atoiLoop_eq 16 0 ((Nat.digits 16 n).reverse.map (digitChar false) ++ rest)
  rw [takeWhile_digits hlt, appendDigits_append, appendDigits_digits] at hloop
  exact hloop

/-- **When `atoi` undoes printing.** With any number of spaces before it and a text after
it that does not begin with a digit of its base, a number printed by `%#x` is always read
back. A number printed by `%d` is read back exactly when the hexadecimal digits that the
text begins with, taken for further decimal digits, change it by a multiple of `2 ^ 32`:
when there are none, or by coincidence. -/
theorem atoi_undoes_iff (v : BitVec 32) (hv : v.msb = false) (rest : List Byte) (k : Nat) :
    (∃ text, formatText (bytes "%d") [.word v] = .ok text ∧
      ((∀ c ∈ rest.head?, isdigit c = false) →
        ¬ (v = 0#32 ∧ ∃ c ∈ rest.head?, c = byte 'x' ∨ c = byte 'X') →
        (atoi (List.replicate k (byte ' ') ++ (text ++ rest)) = v ↔
          2 ^ 32 ∣ v.toNat * (10 ^ (xdigits rest).length - 1) + appendDigits 10 0 (xdigits rest)))) ∧
    (v ≠ 0#32 → ∃ text, formatText (bytes "%#x") [.word v] = .ok text ∧
      ((∀ c ∈ rest.head?, isxdigit c = false) →
        atoi (List.replicate k (byte ' ') ++ (text ++ rest)) = v)) := by
  constructor
  · refine ⟨_, formatText_dec hv, fun _ hx => ?_⟩
    have hx' : ¬ (v.toNat = 0 ∧ ∃ c ∈ rest.head?, c = byte 'x' ∨ c = byte 'X') :=
      fun h => hx ⟨BitVec.eq_of_toNat_eq h.1, h.2⟩
    rw [atoi_decimal v.toNat hx' k, appendDigits_eq]
    set m := (xdigits rest).length
    set D := appendDigits 10 0 (xdigits rest)
    have hpow : 1 ≤ 10 ^ m := Nat.one_le_pow _ _ (by decide)
    have hmore : v.toNat * 10 ^ m + D = v.toNat + (v.toNat * (10 ^ m - 1) + D) := by
      obtain ⟨q, hq⟩ := Nat.exists_eq_add_of_le hpow
      rw [hq, Nat.add_sub_cancel_left]
      ring
    rw [hmore, ← BitVec.toNat_inj, BitVec.toNat_ofNat, Nat.dvd_iff_mod_eq_zero]
    have := v.isLt
    omega
  · intro hne
    refine ⟨_, formatText_hex hne, fun hrest => ?_⟩
    rw [atoi_hex rest k, xdigits_nil hrest]
    exact BitVec.ofNat_toNat _ _ ▸ BitVec.setWidth_eq v

theorem atoi_undoes_iff_pair :
    formatText (bytes "%#x") [.word 12#32] = .ok (bytes "0xc") ∧
      atoi (bytes "  " ++ (bytes "0xc" ++ bytes ":34")) = 12#32 := by
  obtain ⟨text, htext, hatoi⟩ :=
    (atoi_undoes_iff 12#32 (by decide) (bytes ":34") 2).2 (by decide)
  have hc : formatText (bytes "%#x") [.word 12#32] = .ok (bytes "0xc") := rfl
  obtain rfl : text = bytes "0xc" := by
    rw [hc] at htext
    exact (Formatted.ok.inj htext).symm
  exact ⟨hc, hatoi (by decide)⟩

/-- The unit of `7f` is read as a digit. -/
theorem atoi_undoes_fails :
    ¬ ∀ (v : BitVec 32) (rest text : List Byte), v.msb = false →
      (∀ c ∈ rest.head?, isdigit c = false) →
      ¬ (v = 0#32 ∧ ∃ c ∈ rest.head?, c = byte 'x' ∨ c = byte 'X') →
      formatText (bytes "%d") [.word v] = .ok text → atoi (text ++ rest) = v := by
  intro h
  have hread := h 7#32 (bytes "f") (bytes "7") (by decide) (by decide) (by decide) rfl
  exact absurd hread (by decide)

end Munix
