import Mathlib.Data.Nat.Digits.Lemmas
import Munix.Core.Sprintf

/-!
# Munix — the digit buffers

`itoa` of `Munix.Core.Sprintf` is a text, or nothing where a buffer overruns. This
module has its loops as they are in C: they fill a local buffer from its start with
the digits in reverse order, then copy it backwards into the buffer of the caller.
A store beyond the end of a buffer has no result. The pointer `digitbuf + precision`
is compared as an index; the stacks lie low enough in memory that it does not wrap
around.

## Results

* `itoaDigits_eq`     — the digit loop finds the digits of the number.
* `itoaBuffers_eq`    — both versions agree.
* `itoaBuffers_iff`   — no buffer overruns exactly for precisions below the size of
  the buffers.
-/

namespace Munix

-- ---------------------------------------------------------------------------
-- Digits
-- ---------------------------------------------------------------------------

/-- The digit loop finds the digits. -/
theorem itoaDigits_eq {base : Nat} (hbase : 2 ≤ base) {n uval : Nat} (h : uval < base ^ n) :
    itoaDigits base n uval = (Nat.digits base uval).map hexdigit := by
  induction n generalizing uval with
  | zero =>
    obtain rfl : uval = 0 := by simpa using h
    simp [itoaDigits]
  | succ n ih =>
    by_cases h0 : uval = 0
    · simp [itoaDigits, h0]
    · have hdiv : uval / base < base ^ n := by
        refine Nat.div_lt_of_lt_mul ?_
        rwa [← pow_succ']
      rw [itoaDigits, if_neg h0, ih hdiv, Nat.digits_def' hbase (Nat.pos_of_ne_zero h0),
        List.map_cons]

/-- A `uintmax_t` has at most 64 digits. -/
theorem uintmax_lt_pow {base : Nat} (hbase : 2 ≤ base) (uval : BitVec 64) :
    uval.toNat < base ^ 64 :=
  lt_of_lt_of_le uval.isLt (Nat.pow_le_pow_left hbase 64)

theorem length_digits_le {base : Nat} (hbase : 2 ≤ base) (uval : BitVec 64) :
    (Nat.digits base uval.toNat).length ≤ 64 :=
  (Nat.digits_length_le_iff hbase _).mpr (uintmax_lt_pow hbase uval)

/-- What the loops of `itoa` put into the local buffer. -/
def itoaReversed (uval : BitVec 64) (base : Nat) (precision : BitVec 32) (octalPrefix : Bool) :
    List Byte :=
  let d := itoaDigits base 64 uval.toNat
  let d := d ++ List.replicate (precision.toNat - d.length) (byte '0')
  if octalPrefix && d.getLast? != some (byte '0') then d ++ [byte '0'] else d

theorem itoa_eq (uval : BitVec 64) (base : Nat) (precision : BitVec 32) (octalPrefix : Bool) :
    itoa uval base precision octalPrefix =
      if (itoaReversed uval base precision octalPrefix).length < DIGITBUFSZ
        then some (itoaReversed uval base precision octalPrefix).reverse else none := rfl

/-- The prefix digit is only needed if the precision has added no zero. -/
theorem length_itoaReversed {base : Nat} (hbase : 2 ≤ base) (uval : BitVec 64)
    (precision : BitVec 32) (octalPrefix : Bool) :
    precision.toNat ≤ (itoaReversed uval base precision octalPrefix).length ∧
      (itoaReversed uval base precision octalPrefix).length ≤ max 65 precision.toNat := by
  have hlen : (itoaDigits base 64 uval.toNat).length ≤ 64 := by
    rw [itoaDigits_eq hbase (uintmax_lt_pow hbase uval), List.length_map]
    exact length_digits_le hbase uval
  unfold itoaReversed
  dsimp only
  split
  next hlast =>
    -- a last zero from the precision makes the condition false
    have hpad : precision.toNat ≤ (itoaDigits base 64 uval.toNat).length := by
      by_contra hlt
      have hk : precision.toNat - (itoaDigits base 64 uval.toNat).length ≠ 0 := by omega
      simp [List.getLast?_append, List.getLast?_replicate, hk] at hlast
    simp only [List.length_append, List.length_replicate, List.length_singleton]
    omega
  next =>
    simp only [List.length_append, List.length_replicate]
    omega

theorem length_itoaReversed_lt {base : Nat} (hbase : 2 ≤ base) (uval : BitVec 64)
    (precision : BitVec 32) (octalPrefix : Bool) :
    (itoaReversed uval base precision octalPrefix).length < DIGITBUFSZ ↔
      precision.toNat < DIGITBUFSZ := by
  obtain ⟨hlo, hhi⟩ := length_itoaReversed hbase uval precision octalPrefix
  have : DIGITBUFSZ = 128 := rfl
  omega

-- ---------------------------------------------------------------------------
-- Buffers
-- ---------------------------------------------------------------------------

abbrev DigitBuf := Fin DIGITBUFSZ → Byte

/-- `buf[i]`. -/
def DigitBuf.load (b : DigitBuf) (i : Nat) : Option Byte :=
  if h : i < DIGITBUFSZ then some (b ⟨i, h⟩) else none

/-- `buf[i] = c`. -/
def DigitBuf.store (b : DigitBuf) (i : Nat) (c : Byte) : Option DigitBuf :=
  if h : i < DIGITBUFSZ then some (Function.update b ⟨i, h⟩ c) else none

/-- `*d++ = c`, for a buffer and the index of its cursor. -/
def push (st : DigitBuf × Nat) (c : Byte) : Option (DigitBuf × Nat) :=
  (st.1.store st.2 c).map fun b => (b, st.2 + 1)

/-- `for (; uval; uval /= base) *d++ = hexdigit(uval % base)`. -/
def digitLoop (base : Nat) : Nat → Nat → DigitBuf × Nat → Option (DigitBuf × Nat)
  | 0, _, st => some st
  | n + 1, uval, st =>
    if uval = 0 then some st
    else (push st (hexdigit (uval % base))).bind (digitLoop base n (uval / base))

/-- `while (d < p) *d++ = '0'`, with `p - d` rounds to go. -/
def zeroLoop : Nat → DigitBuf × Nat → Option (DigitBuf × Nat)
  | 0, st => some st
  | n + 1, st => (push st (byte '0')).bind (zeroLoop n)

/-- `while (d > digitbuf) *s++ = *--d`. -/
def copyLoop (digitbuf : DigitBuf) : Nat → DigitBuf × Nat → Option (DigitBuf × Nat)
  | 0, st => some st
  | d + 1, st => (digitbuf.load d).bind fun c => (push st c).bind (copyLoop digitbuf d)

/-- The octal prefix: one leading zero, if there is none. -/
def octalStep (octalPrefix : Bool) (st : DigitBuf × Nat) : Option (DigitBuf × Nat) :=
  if octalPrefix && (st.2 == 0 || st.1.load (st.2 - 1) != some (byte '0')) then
    push st (byte '0')
  else some st

/-- `itoa(s, uval, base, precision, flags)`: the buffer of the caller afterwards.
`digitbuf` and `s` are what the buffers hold before. The pointer `digitbuf + precision` is
an index without bound: beyond the array, or where it would wrap around, it is undefined in
C, as is the store that has no result here. -/
def itoaBuffers (digitbuf s : DigitBuf) (uval : BitVec 64) (base : Nat) (precision : BitVec 32)
    (octalPrefix : Bool) : Option DigitBuf :=
  (digitLoop base 64 uval.toNat (digitbuf, 0)).bind fun st =>
  (zeroLoop (precision.toNat - st.2) st).bind fun st =>
  (octalStep octalPrefix st).bind fun st =>
  (copyLoop st.1 st.2 (s, 0)).bind fun st =>
  st.1.store st.2 0#8

-- ---------------------------------------------------------------------------
-- What the loops do
-- ---------------------------------------------------------------------------

/-- The buffer starts with `l`. -/
def DigitBuf.Holds (b : DigitBuf) (l : List Byte) : Prop :=
  ∀ i : Fin DIGITBUFSZ, i.val < l.length → l[i.val]? = some (b i)

theorem DigitBuf.Holds.load {b : DigitBuf} {l : List Byte} (h : b.Holds l) {i : Nat}
    (hi : i < l.length) (hsz : i < DIGITBUFSZ) : b.load i = l[i]? := by
  rw [DigitBuf.load, dif_pos hsz]
  exact (h ⟨i, hsz⟩ hi).symm

/-- A store at the cursor. -/
theorem DigitBuf.Holds.store {b : DigitBuf} {l : List Byte} (h : b.Holds l) (c : Byte)
    (hsz : l.length < DIGITBUFSZ) :
    ∃ b' : DigitBuf, b.store l.length c = some b' ∧ b'.Holds (l ++ [c]) := by
  refine ⟨_, dif_pos hsz, fun i hi => ?_⟩
  by_cases heq : i.val = l.length
  · obtain rfl : i = ⟨l.length, hsz⟩ := Fin.ext heq
    simp
  · have hlt : i.val < l.length := by
      rw [List.length_append, List.length_singleton] at hi
      omega
    rw [List.getElem?_append_left hlt, h i hlt, Function.update_of_ne]
    exact fun hfin => heq (congrArg Fin.val hfin)

/-- Characters that fit are appended. -/
theorem foldlM_push {b : DigitBuf} {l₀ : List Byte} (h : b.Holds l₀) (l : List Byte)
    (hsz : l₀.length + l.length ≤ DIGITBUFSZ) :
    ∃ b' : DigitBuf, l.foldlM push (b, l₀.length) = some (b', (l₀ ++ l).length) ∧
      b'.Holds (l₀ ++ l) := by
  induction l generalizing b l₀ with
  | nil => exact ⟨b, by simp, by simpa using h⟩
  | cons c l ih =>
    rw [List.length_cons] at hsz
    obtain ⟨b₁, hstore, h₁⟩ := h.store c (by omega)
    have hlen : (l₀ ++ [c]).length = l₀.length + 1 := by simp
    obtain ⟨b', hfold, h'⟩ := ih h₁ (by omega)
    refine ⟨b', ?_, by simpa using h'⟩
    rw [List.foldlM_cons, push, hstore, ← hlen]
    simpa using hfold

/-- Characters that do not fit overrun the buffer. -/
theorem foldlM_push_none {b : DigitBuf} {d : Nat} {l : List Byte} (hl : l ≠ [])
    (hsz : DIGITBUFSZ < d + l.length) : l.foldlM push (b, d) = none := by
  induction l generalizing b d with
  | nil => exact absurd rfl hl
  | cons c l ih =>
    rw [List.length_cons] at hsz
    rw [List.foldlM_cons]
    by_cases hd : d < DIGITBUFSZ
    · rw [push, DigitBuf.store, dif_pos hd]
      refine ih ?_ (by omega)
      rintro rfl
      rw [List.length_nil] at hsz
      omega
    · rw [push, DigitBuf.store, dif_neg hd]
      rfl

theorem digitLoop_eq (base n uval : Nat) (st : DigitBuf × Nat) :
    digitLoop base n uval st = (itoaDigits base n uval).foldlM push st := by
  induction n generalizing uval st with
  | zero => rfl
  | succ n ih =>
    rw [digitLoop, itoaDigits]
    split
    · rfl
    · rw [List.foldlM_cons, funext (ih _)]
      rfl

theorem zeroLoop_eq (n : Nat) (st : DigitBuf × Nat) :
    zeroLoop n st = (List.replicate n (byte '0')).foldlM push st := by
  induction n generalizing st with
  | zero => rfl
  | succ n ih =>
    rw [zeroLoop, List.replicate_succ, List.foldlM_cons, funext ih]
    rfl

/-- The copy is the buffer in reverse. -/
theorem copyLoop_eq {b : DigitBuf} {l : List Byte} (h : b.Holds l) (hsz : l.length ≤ DIGITBUFSZ)
    {d : Nat} (hd : d ≤ l.length) (st : DigitBuf × Nat) :
    copyLoop b d st = (l.take d).reverse.foldlM push st := by
  induction d generalizing st with
  | zero => rfl
  | succ d ih =>
    have hlt : d < l.length := hd
    have hload : b.load d = some l[d] := by
      rw [h.load hlt (by omega), List.getElem?_eq_getElem hlt]
    rw [copyLoop, hload, List.take_succ_eq_append_getElem hlt, List.reverse_append,
      List.reverse_singleton, List.singleton_append, List.foldlM_cons,
      funext (ih (Nat.le_of_lt hlt))]
    rfl

/-- The condition on the buffer is the condition on its content. -/
theorem octalStep_eq {b : DigitBuf} {l : List Byte} (h : b.Holds l) (hsz : l.length ≤ DIGITBUFSZ)
    (octalPrefix : Bool) :
    octalStep octalPrefix (b, l.length) =
      (if octalPrefix && l.getLast? != some (byte '0') then [byte '0'] else []).foldlM push
        (b, l.length) := by
  have hcond : (l.length == 0 || b.load (l.length - 1) != some (byte '0')) =
      (l.getLast? != some (byte '0')) := by
    cases hl : l.length with
    | zero =>
      obtain rfl := List.length_eq_zero_iff.mp hl
      rfl
    | succ d =>
      rw [h.load (by omega) (by omega), List.getLast?_eq_getElem?, hl]
      simp
  rw [octalStep, hcond]
  split
  · simp
  · rfl

section Buffers

variable {base : Nat} (hbase : 2 ≤ base) (digitbuf s : DigitBuf) (uval : BitVec 64)
  (precision : BitVec 32) (octalPrefix : Bool)

include hbase

/-- The digits always fit. -/
theorem digitLoop_fits :
    ∃ b : DigitBuf, digitLoop base 64 uval.toNat (digitbuf, 0) =
        some (b, (itoaDigits base 64 uval.toNat).length) ∧
      b.Holds (itoaDigits base 64 uval.toNat) ∧ (itoaDigits base 64 uval.toNat).length ≤ 64 := by
  have hlen : (itoaDigits base 64 uval.toNat).length ≤ 64 := by
    rw [itoaDigits_eq hbase (uintmax_lt_pow hbase uval), List.length_map]
    exact length_digits_le hbase uval
  have hsz : DIGITBUFSZ = 128 := rfl
  have hempty : digitbuf.Holds [] := fun i hi => absurd hi (Nat.not_lt_zero _)
  obtain ⟨b, hfold, hb⟩ := foldlM_push hempty (itoaDigits base 64 uval.toNat)
    (by rw [List.length_nil]; omega)
  rw [List.nil_append] at hfold hb
  exact ⟨b, by rw [digitLoop_eq]; exact hfold, hb, hlen⟩

/-- The local buffer, if it does not overrun. -/
theorem itoaBuffers_local (hfits : (itoaReversed uval base precision octalPrefix).length ≤ DIGITBUFSZ) :
    ∃ b : DigitBuf, b.Holds (itoaReversed uval base precision octalPrefix) ∧
      itoaBuffers digitbuf s uval base precision octalPrefix =
        (copyLoop b (itoaReversed uval base precision octalPrefix).length (s, 0)).bind fun st =>
          st.1.store st.2 0#8 := by
  obtain ⟨b₁, hdigits, hb₁, -⟩ := digitLoop_fits hbase digitbuf uval
  set ds := itoaDigits base 64 uval.toNat with hds
  set zs := List.replicate (precision.toNat - ds.length) (byte '0') with hzs
  set oct : List Byte :=
    if octalPrefix && (ds ++ zs).getLast? != some (byte '0') then [byte '0'] else [] with hoct
  have hrev : itoaReversed uval base precision octalPrefix = ds ++ zs ++ oct := by
    rw [itoaReversed, hoct]
    split
    · rfl
    · rw [List.append_nil]
  rw [hrev] at hfits ⊢
  simp only [List.length_append] at hfits
  obtain ⟨b₂, hzeros, hb₂⟩ := foldlM_push hb₁ zs (by omega)
  obtain ⟨b₃, hpre, hb₃⟩ := foldlM_push hb₂ oct (by rw [List.length_append]; omega)
  refine ⟨b₃, hb₃, ?_⟩
  have hstep := octalStep_eq hb₂ (by rw [List.length_append]; omega) octalPrefix
  rw [itoaBuffers, hdigits, Option.bind_some]
  dsimp only
  rw [zeroLoop_eq, ← hzs, hzeros, Option.bind_some, hstep, ← hoct, hpre, Option.bind_some]

/-- **`itoa` over its buffers**: the text and its terminator. -/
theorem itoaBuffers_fits (hfits : (itoaReversed uval base precision octalPrefix).length < DIGITBUFSZ) :
    ∃ b : DigitBuf, itoaBuffers digitbuf s uval base precision octalPrefix = some b ∧
      b.Holds ((itoaReversed uval base precision octalPrefix).reverse ++ [0#8]) := by
  obtain ⟨b₁, hb₁, heq⟩ := itoaBuffers_local hbase digitbuf s uval precision octalPrefix hfits.le
  set rev := itoaReversed uval base precision octalPrefix
  have hempty : s.Holds [] := fun i hi => absurd hi (Nat.not_lt_zero _)
  obtain ⟨b₂, hcopy, hb₂⟩ := foldlM_push hempty rev.reverse (by simpa using hfits.le)
  rw [List.nil_append] at hcopy hb₂
  obtain ⟨b, hstore, hb⟩ := hb₂.store 0#8 (by simpa using hfits)
  refine ⟨b, ?_, hb⟩
  rw [heq, copyLoop_eq hb₁ hfits.le le_rfl, List.take_length]
  rw [show rev.reverse.foldlM push (s, 0) = some (b₂, rev.reverse.length) from hcopy]
  exact hstore

theorem itoaBuffers_overruns (hlong : DIGITBUFSZ ≤ precision.toNat) :
    itoaBuffers digitbuf s uval base precision octalPrefix = none := by
  obtain ⟨b₁, hdigits, hb₁, hlen⟩ := digitLoop_fits hbase digitbuf uval
  have hsz : DIGITBUFSZ = 128 := rfl
  by_cases hfits : (itoaReversed uval base precision octalPrefix).length ≤ DIGITBUFSZ
  · -- the local buffer is full, and there is no room for the terminator
    obtain ⟨b, hb, heq⟩ := itoaBuffers_local hbase digitbuf s uval precision octalPrefix hfits
    set rev := itoaReversed uval base precision octalPrefix
    have hfull : rev.length = DIGITBUFSZ :=
      le_antisymm hfits (hlong.trans (length_itoaReversed hbase uval precision octalPrefix).1)
    have hempty : s.Holds [] := fun i hi => absurd hi (Nat.not_lt_zero _)
    obtain ⟨b₂, hcopy, -⟩ := foldlM_push hempty rev.reverse (by simpa using hfits)
    rw [List.nil_append] at hcopy
    rw [heq, copyLoop_eq hb hfits le_rfl, List.take_length,
      show rev.reverse.foldlM push (s, 0) = some (b₂, rev.reverse.length) from hcopy,
      Option.bind_some]
    exact dif_neg (by rw [List.length_reverse, hfull]; exact lt_irrefl _)
  · -- the zeros do not fit
    have hhi := (length_itoaReversed hbase uval precision octalPrefix).2
    have hover : (List.replicate (precision.toNat - (itoaDigits base 64 uval.toNat).length)
        (byte '0')).foldlM push (b₁, (itoaDigits base 64 uval.toNat).length) = none := by
      refine foldlM_push_none ?_ ?_
      · intro hnil
        rw [List.replicate_eq_nil_iff] at hnil
        omega
      · rw [List.length_replicate]
        omega
    rw [itoaBuffers, hdigits, Option.bind_some]
    dsimp only
    rw [zeroLoop_eq, hover, Option.bind_none]

/-- **The two versions of `itoa` agree.** -/
theorem itoaBuffers_eq :
    match itoa uval base precision octalPrefix with
    | none => itoaBuffers digitbuf s uval base precision octalPrefix = none
    | some text => ∃ b : DigitBuf, itoaBuffers digitbuf s uval base precision octalPrefix = some b ∧
        b.Holds (text ++ [0#8]) := by
  rw [itoa_eq]
  by_cases hfits : (itoaReversed uval base precision octalPrefix).length < DIGITBUFSZ
  · rw [if_pos hfits]
    exact itoaBuffers_fits hbase digitbuf s uval precision octalPrefix hfits
  · rw [if_neg hfits]
    refine itoaBuffers_overruns hbase digitbuf s uval precision octalPrefix (not_lt.mp ?_)
    rwa [← length_itoaReversed_lt hbase uval precision octalPrefix]

end Buffers

/-- **No digit buffer overruns exactly for precisions below their size.** -/
theorem itoaBuffers_iff (base : Nat) (hbase : 2 ≤ base) (digitbuf s : DigitBuf) (uval : BitVec 64)
    (precision : BitVec 32) (octalPrefix : Bool) :
    (itoaBuffers digitbuf s uval base precision octalPrefix).isSome = true ↔
      precision.toNat < DIGITBUFSZ := by
  constructor
  · intro hsome
    by_contra hlong
    rw [itoaBuffers_overruns hbase digitbuf s uval precision octalPrefix (not_lt.mp hlong)] at hsome
    cases hsome
  · intro hshort
    have hlt := (length_itoaReversed_lt hbase uval precision octalPrefix).mpr hshort
    obtain ⟨b, hb, -⟩ := itoaBuffers_fits hbase digitbuf s uval precision octalPrefix hlt
    rw [hb]
    rfl

/-- A zeroed buffer. -/
def zeroBuf : DigitBuf := fun _ => 0#8

theorem itoaBuffers_iff_decimal :
    (5#32).toNat < DIGITBUFSZ ∧ (itoaBuffers zeroBuf zeroBuf 42#64 10 5#32 false).isSome = true :=
  ⟨by decide, (itoaBuffers_iff 10 (by decide) zeroBuf zeroBuf 42#64 5#32 false).mpr (by decide)⟩

/-- Whether a conversion has no result. -/
def Conv.isUndef {α : Type} : Conv α → Bool
  | .undef => true
  | .null => false
  | .ok _ => false

/-- `"%.200d"` asks for 200 digits. -/
theorem itoaBuffers_fails_precision :
    itoaBuffers zeroBuf zeroBuf 7#64 10 200#32 false = none ∧
      (processConversion (fun text c => text ++ [c]) [] (bytes ".200d") [.word 7#32]).isUndef = true :=
  ⟨itoaBuffers_overruns (by decide) zeroBuf zeroBuf 7#64 200#32 false (by decide), by decide +kernel⟩

end Munix
