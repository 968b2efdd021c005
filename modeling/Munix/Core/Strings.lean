import Munix.Core.Sprintf

/-!
# Munix — strings

The comparison and search functions of `core/string.c`. A string is the list of its
characters before the NUL; the character after the last one is the NUL.
`char` is signed on i386.
-/

namespace Munix

-- ---------------------------------------------------------------------------
-- strcmp and strncmp
-- ---------------------------------------------------------------------------

/-- What the two comparison functions do with a pair of characters that does not
continue the loop. -/
def charcmp (c d : Byte) : Int :=
  if c.slt d then -1 else if c = d then 0 else 1

/-- `strcmp(s, t)`. -/
def strcmp : List Byte → List Byte → Int
  | [], t => charcmp 0#8 (t.headD 0#8)
  | c :: _, [] => charcmp c 0#8
  | c :: s, d :: t => if c = d then strcmp s t else charcmp c d

/-- `strncmp(s, t, n)`. -/
def strncmp : List Byte → List Byte → Nat → Int
  | _, _, 0 => 0
  | [], t, _ + 1 => charcmp 0#8 (t.headD 0#8)
  | c :: _, [], _ + 1 => charcmp c 0#8
  | c :: s, d :: t, n + 1 => if c = d then strncmp s t n else charcmp c d

/-- `strstr(str, substr)`, as the index of the match. -/
def strstr : List Byte → List Byte → Option Nat
  | [], _ => none
  | c :: str, substr =>
    if strncmp (c :: str) substr substr.length = 0 then some 0
    else (strstr str substr).map (· + 1)

/-- A string has no NUL in it. -/
def IsString (s : List Byte) : Prop := 0#8 ∉ s

instance (s : List Byte) : Decidable (IsString s) := inferInstanceAs (Decidable (¬ _))

theorem IsString.of_cons {c : Byte} {s : List Byte} (h : IsString (c :: s)) :
    c ≠ 0#8 ∧ IsString s :=
  ⟨fun hc => h (by simp [hc]), fun hs => h (List.mem_cons_of_mem _ hs)⟩

theorem charcmp_eq_zero {c d : Byte} : charcmp c d = 0 ↔ c = d := by
  unfold charcmp
  split
  next h =>
    refine ⟨fun h => absurd h (by decide), ?_⟩
    rintro rfl
    simp [BitVec.slt] at h
  next h =>
    split <;> simp_all

theorem strcmp_eq_zero {s t : List Byte} (hs : IsString s) (ht : IsString t) :
    strcmp s t = 0 ↔ s = t := by
  induction s generalizing t with
  | nil =>
    cases t with
    | nil => simp [strcmp, charcmp_eq_zero]
    | cons d t => simp [strcmp, charcmp_eq_zero, ht.of_cons.1.symm]
  | cons c s ih =>
    cases t with
    | nil => simp [strcmp, charcmp_eq_zero, hs.of_cons.1]
    | cons d t =>
      rw [strcmp]
      split
      next h => simp [h, ih hs.of_cons.2 ht.of_cons.2]
      next h => simp [h, charcmp_eq_zero]

/-- A limit that no string reaches does not matter. -/
theorem strncmp_eq_strcmp {s t : List Byte} {n : Nat} (hs : s.length < n) :
    strncmp s t n = strcmp s t := by
  induction s generalizing t n with
  | nil =>
    cases n with
    | zero => simp at hs
    | succ n => rfl
  | cons c s ih =>
    cases n with
    | zero => simp at hs
    | succ n =>
      cases t with
      | nil => rfl
      | cons d t =>
        rw [strncmp, strcmp, ih (by simpa using hs)]

/-- Comparing as many characters as a string has looks for it as a prefix. -/
theorem strncmp_length_eq_zero {s t : List Byte} (ht : IsString t) :
    strncmp s t t.length = 0 ↔ t <+: s := by
  induction t generalizing s with
  | nil => simp [strncmp]
  | cons d t ih =>
    cases s with
    | nil => simp [strncmp, charcmp_eq_zero, ht.of_cons.1.symm]
    | cons c s =>
      rw [List.length_cons, strncmp, List.cons_prefix_cons]
      split
      next h => rw [ih ht.of_cons.2, h, eq_self, true_and]
      next h => simp [charcmp_eq_zero, h, Ne.symm h]

/-- A match at the start of a string that is not empty. -/
theorem strstr_eq_zero {s t : List Byte} (hs : s ≠ []) (ht : IsString t) :
    strstr s t = some 0 ↔ t <+: s := by
  cases s with
  | nil => exact absurd rfl hs
  | cons c s =>
    rw [strstr, ← strncmp_length_eq_zero ht]
    split
    next h => simp [h]
    next h => simp [h]

-- ---------------------------------------------------------------------------
-- memmove
-- ---------------------------------------------------------------------------

/-- The loop of `memmove` that copies from low to high. -/
def copyUp : Nat → Nat → Nat → (Nat → Byte) → Nat → Byte
  | 0, _, _, buf => buf
  | n + 1, d, s, buf => copyUp n (d + 1) (s + 1) (Function.update buf d (buf s))

/-- The loop of `memmove` that copies from high to low. -/
def copyDown : Nat → Nat → Nat → (Nat → Byte) → Nat → Byte
  | 0, _, _, buf => buf
  | n + 1, d, s, buf => copyDown n d s (Function.update buf (d + n) (buf (s + n)))

/-- `memmove(dest, src, n)` inside one buffer. -/
def memmove (buf : Nat → Byte) (dest src n : Nat) : Nat → Byte :=
  if n = 0 ∨ src = dest then buf
  else if dest < src then copyUp n dest src buf
  else copyDown n dest src buf

/-- Copying upwards reads no byte that it has written before. -/
theorem copyUp_apply {n d s : Nat} (hds : d < s) (buf : Nat → Byte) (i : Nat) :
    copyUp n d s buf i = if d ≤ i ∧ i < d + n then buf (i - d + s) else buf i := by
  induction n generalizing d s buf with
  | zero => simp [copyUp]
  | succ n ih =>
    rw [copyUp, ih (by omega)]
    by_cases hi : i = d
    · subst hi
      simp
    · have hread : i - (d + 1) + (s + 1) ≠ d := by omega
      have hsrc : d + 1 ≤ i → i - (d + 1) + (s + 1) = i - d + s := by omega
      grind [Function.update]

/-- Copying downwards reads no byte that it has written before. -/
theorem copyDown_apply {n d s : Nat} (hsd : s < d) (buf : Nat → Byte) (i : Nat) :
    copyDown n d s buf i = if d ≤ i ∧ i < d + n then buf (i - d + s) else buf i := by
  induction n generalizing buf with
  | zero => simp [copyDown]
  | succ n ih =>
    rw [copyDown, ih]
    by_cases hi : i = d + n
    · subst hi
      simp [Nat.add_comm]
    · have hread : i < d + n → i - d + s ≠ d + n := by omega
      grind [Function.update]

/-- What `memmove` leaves in the buffer. -/
theorem memmove_apply (buf : Nat → Byte) (dest src n i : Nat) :
    memmove buf dest src n i = if dest ≤ i ∧ i < dest + n then buf (i - dest + src) else buf i := by
  unfold memmove
  split
  next h =>
    rcases h with rfl | rfl
    · rw [if_neg (by omega)]
    · split
      next hin => rw [Nat.sub_add_cancel hin.1]
      next => rfl
  next h =>
    rw [not_or] at h
    split
    next hlt => exact copyUp_apply hlt buf i
    next hlt => exact copyDown_apply (by omega) buf i

/-- Moving bytes to the front of their buffer. -/
theorem memmove_front (buf : Nat → Byte) {k n i : Nat} (hi : i < n) :
    memmove buf 0 k n i = buf (i + k) := by
  rw [memmove_apply, if_pos ⟨Nat.zero_le i, by omega⟩, Nat.sub_zero]

end Munix
