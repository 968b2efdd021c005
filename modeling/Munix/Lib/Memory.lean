import Mathlib.Data.List.GetD
import Mathlib.Tactic

/-!
# Byte memory with 32-bit little-endian words

A memory is a total function from 32-bit addresses to bytes, with the word
operations of a 32-bit little-endian machine. Nothing here knows what the
words are used for.

* `load32_store32_same` / `load32_store32_ne` — reading back a word; aligned
  words at different addresses do not interfere.
* `load32_congr` — a word depends on its four bytes only.
* `memFill` — a contiguous run of equal bytes; a word inside a zero run reads
  as zero (`load32_memFill_zero`), one outside it is unchanged
  (`load32_memFill_outside`).
* `memPut`, `Holds` — a run of given bytes; `SameOutside` — changes confined to a
  range, which add up when one range lies below the other (`SameOutside.trans`).
* `Copied` — a range on its way from one place to another, which grows at either
  end as long as the byte read is one that has not been overwritten.
-/

namespace ByteMem

/-- A 32-bit address. -/
abbrev Addr := BitVec 32

/-- Memory contents: one byte at every address. -/
abbrev Mem := Addr → BitVec 8

-- ---------------------------------------------------------------------------
-- Single bytes and words
-- ---------------------------------------------------------------------------

def store8 (m : Mem) (a : Addr) (b : BitVec 8) : Mem :=
  fun x => if x = a then b else m x

/-- The word at `a`, least significant byte first. -/
def load32 (m : Mem) (a : Addr) : BitVec 32 :=
  m (a + 3#32) ++ m (a + 2#32) ++ m (a + 1#32) ++ m a

def store32 (m : Mem) (a : Addr) (v : BitVec 32) : Mem :=
  fun x =>
    if x = a then v.extractLsb' 0 8
    else if x = a + 1#32 then v.extractLsb' 8 8
    else if x = a + 2#32 then v.extractLsb' 16 8
    else if x = a + 3#32 then v.extractLsb' 24 8
    else m x

/-- Word alignment. -/
def Aligned (a : Addr) : Prop := a.toNat % 4 = 0

instance (a : Addr) : Decidable (Aligned a) := inferInstanceAs (Decidable (_ = _))

theorem store8_same (m : Mem) (a : Addr) (b : BitVec 8) : store8 m a b a = b := by
  simp [store8]

theorem store8_ne {m : Mem} {a x : Addr} {b : BitVec 8} (h : x ≠ a) :
    store8 m a b x = m x := by
  simp [store8, h]

/-- A word depends on its four bytes only. -/
theorem load32_congr {m m' : Mem} {a : Addr}
    (h : ∀ i : Addr, i.toNat < 4 → m (a + i) = m' (a + i)) : load32 m a = load32 m' a := by
  have h0 : m a = m' a := by simpa using h 0#32 (by decide)
  have h1 := h 1#32 (by decide)
  have h2 := h 2#32 (by decide)
  have h3 := h 3#32 (by decide)
  simp only [load32, h0, h1, h2, h3]

/-- The four bytes of a word, put back together. -/
theorem append_bytes (v : BitVec 32) :
    v.extractLsb' 24 8 ++ v.extractLsb' 16 8 ++ v.extractLsb' 8 8 ++ v.extractLsb' 0 8 = v := by
  apply BitVec.eq_of_getLsbD_eq
  intro i hi
  simp only [BitVec.getLsbD_append, BitVec.getLsbD_extractLsb']
  by_cases h0 : i < 8
  · simp [h0]
  by_cases h1 : i < 16
  · simp [h0, show i - 8 < 8 by omega, show 8 + (i - 8) = i by omega]
  by_cases h2 : i < 24
  · simp [h0, show ¬ i - 8 < 8 by omega, show i - 8 - 8 < 8 by omega,
      show 16 + (i - 8 - 8) = i by omega]
  · simp [h0, show ¬ i - 8 < 8 by omega, show ¬ i - 8 - 8 < 8 by omega,
      show i - 8 - 8 - 8 < 8 by omega, show 24 + (i - 8 - 8 - 8) = i by omega]

@[simp] theorem load32_store32_same (m : Mem) (a : Addr) (v : BitVec 32) :
    load32 (store32 m a v) a = v := by
  have h1 : a + 1#32 ≠ a := by bv_omega
  have h2 : a + 2#32 ≠ a := by bv_omega
  have h3 : a + 3#32 ≠ a := by bv_omega
  have h21 : a + 2#32 ≠ a + 1#32 := by bv_omega
  have h31 : a + 3#32 ≠ a + 1#32 := by bv_omega
  have h32 : a + 3#32 ≠ a + 2#32 := by bv_omega
  simp only [load32, store32, h1, h2, h3, h21, h31, h32, if_true, if_false]
  exact append_bytes v

/-- A store leaves the bytes outside its word alone. -/
theorem store32_outside {m : Mem} {a x : Addr} {v : BitVec 32} (h : 4 ≤ (x - a).toNat) :
    store32 m a v x = m x := by
  have h0 : x ≠ a := by rintro rfl; simp at h
  have h1 : x ≠ a + 1#32 := by rintro rfl; bv_omega
  have h2 : x ≠ a + 2#32 := by rintro rfl; bv_omega
  have h3 : x ≠ a + 3#32 := by rintro rfl; bv_omega
  rw [store32, if_neg h0, if_neg h1, if_neg h2, if_neg h3]

/-- Words without a common byte do not interfere. -/
theorem load32_store32_disjoint {m : Mem} {a b : Addr} {v : BitVec 32} (hlo : 4 ≤ (b - a).toNat)
    (hhi : (b - a).toNat + 4 ≤ 2 ^ 32) : load32 (store32 m a v) b = load32 m b := by
  apply load32_congr
  intro i hi
  apply store32_outside
  bv_omega

/-- Aligned words at different addresses do not interfere. -/
theorem load32_store32_ne {m : Mem} {a b : Addr} {v : BitVec 32}
    (ha : Aligned a) (hb : Aligned b) (hne : b ≠ a) :
    load32 (store32 m a v) b = load32 m b := by
  unfold Aligned at ha hb
  apply load32_store32_disjoint
  · bv_omega
  · bv_omega

-- ---------------------------------------------------------------------------
-- Runs of equal bytes
-- ---------------------------------------------------------------------------

/-- Memory with the `n` bytes from `a` on set to `c`. -/
def memFill (m : Mem) (a : Addr) (c : BitVec 8) (n : Nat) : Mem :=
  fun x => if (x - a).toNat < n then c else m x

theorem memFill_outside {m : Mem} {a x : Addr} {c : BitVec 8} {n : Nat}
    (h : n ≤ (x - a).toNat) : memFill m a c n x = m x :=
  if_neg (Nat.not_lt.mpr h)

theorem memFill_succ (m : Mem) (a : Addr) (c : BitVec 8) {n : Nat} (hn : n < 2 ^ 32) :
    memFill (store8 m a c) (a + 1#32) c n = memFill m a c (n + 1) := by
  funext x
  by_cases hx : x = a
  · subst hx
    simp [memFill, store8]
  · have hne : x - a ≠ 0#32 := by
      intro h
      apply hx
      bv_omega
    have hiff : (x - (a + 1#32)).toNat < n ↔ (x - a).toNat < n + 1 := by
      bv_omega
    simp only [memFill, store8, hx, if_false, hiff]

theorem load32_memFill_zero {m : Mem} {a b : Addr} {n : Nat}
    (h : (b - a).toNat + 4 ≤ n) (hn : n ≤ 2 ^ 32) : load32 (memFill m a 0#8 n) b = 0#32 := by
  have hz : ∀ i : Addr, i.toNat < 4 → memFill m a 0#8 n (b + i) = 0#8 := by
    intro i hi
    have hlt : (b + i - a).toNat < n := by bv_omega
    exact if_pos hlt
  have h0 : memFill m a 0#8 n b = 0#8 := by simpa using hz 0#32 (by decide)
  simp only [load32, h0, hz 1#32 (by decide), hz 2#32 (by decide), hz 3#32 (by decide)]
  decide

theorem load32_memFill_outside {m : Mem} {a b : Addr} {c : BitVec 8} {n : Nat}
    (h : n ≤ (b - a).toNat) (hb : (b - a).toNat + 4 ≤ 2 ^ 32) :
    load32 (memFill m a c n) b = load32 m b := by
  apply load32_congr
  intro i hi
  apply memFill_outside
  bv_omega

-- ---------------------------------------------------------------------------
-- Runs of bytes
-- ---------------------------------------------------------------------------

/-- Memory with the bytes `bs` from `a` on. -/
def memPut (m : Mem) (a : Addr) (bs : List (BitVec 8)) : Mem := fun x => bs.getD (x - a).toNat (m x)

/-- The bytes `bs` are in memory from `a` on. -/
def Holds (m : Mem) (a : Addr) (bs : List (BitVec 8)) : Prop :=
  ∀ i (h : i < bs.length), m (a + BitVec.ofNat 32 i) = bs[i]

/-- Memory is the same but from `lo` up to `hi`. -/
def SameOutside (m m' : Mem) (lo hi : Nat) : Prop :=
  ∀ a : Addr, ¬ (lo ≤ a.toNat ∧ a.toNat < hi) → m' a = m a

theorem memPut_outside {m : Mem} {a x : Addr} {bs : List (BitVec 8)} (h : bs.length ≤ (x - a).toNat) :
    memPut m a bs x = m x := by
  rw [memPut, List.getD_eq_default _ _ h]

theorem memPut_nil (m : Mem) (a : Addr) : memPut m a [] = m := rfl

theorem memPut_cons (m : Mem) (a : Addr) (b : BitVec 8) {bs : List (BitVec 8)} (h : bs.length < 2 ^ 32) :
    memPut (store8 m a b) (a + 1#32) bs = memPut m a (b :: bs) := by
  funext x
  by_cases hx : x = a
  · subst hx
    have hout : bs.length ≤ (x - (x + 1#32)).toNat := by bv_omega
    rw [memPut_outside hout, store8_same]
    simp [memPut]
  · have hidx : (x - a).toNat = (x - (a + 1#32)).toNat + 1 := by bv_omega
    simp only [memPut, hidx, List.getD_cons_succ, store8_ne hx]

/-- Two runs, one behind the other. -/
theorem memPut_append (m : Mem) (a : Addr) {bs bs' : List (BitVec 8)}
    (h : bs.length + bs'.length ≤ 2 ^ 32) :
    memPut (memPut m a bs) (a + BitVec.ofNat 32 bs.length) bs' = memPut m a (bs ++ bs') := by
  funext x
  have hnat : (BitVec.ofNat 32 bs.length).toNat = bs.length % 2 ^ 32 := BitVec.toNat_ofNat ..
  by_cases hx : (x - a).toNat < bs.length
  · have hlt : bs.length < 2 ^ 32 ∨ bs' = [] := by
      rcases Nat.lt_or_ge bs.length (2 ^ 32) with hlt | hge
      · exact .inl hlt
      · exact .inr (List.eq_nil_of_length_eq_zero (by omega))
    have hout : bs'.length ≤ (x - (a + BitVec.ofNat 32 bs.length)).toNat := by
      rcases hlt with hlt | rfl
      · bv_omega
      · exact Nat.zero_le _
    rw [memPut_outside hout, memPut, memPut, List.getD_append _ _ _ _ hx]
  · have hidx : (x - (a + BitVec.ofNat 32 bs.length)).toNat = (x - a).toNat - bs.length := by
      bv_omega
    rw [memPut, hidx, memPut_outside (Nat.le_of_not_lt hx), memPut,
      List.getD_append_right _ _ _ _ (Nat.le_of_not_lt hx)]

theorem memPut_holds (m : Mem) (a : Addr) {bs : List (BitVec 8)} (h : bs.length ≤ 2 ^ 32) :
    Holds (memPut m a bs) a bs := by
  intro i hi
  have hidx : (a + BitVec.ofNat 32 i - a).toNat = i := by
    have : (BitVec.ofNat 32 i).toNat = i := by
      rw [BitVec.toNat_ofNat]
      omega
    bv_omega
  rw [memPut, hidx, List.getD_eq_getElem _ _ hi]

theorem memPut_sameOutside (m : Mem) {a : Addr} {bs : List (BitVec 8)} (h : a.toNat + bs.length ≤ 2 ^ 32) :
    SameOutside m (memPut m a bs) a.toNat (a.toNat + bs.length) := by
  intro x hx
  refine memPut_outside ?_
  bv_omega

namespace SameOutside

variable {m m₁ m₂ : Mem} {lo mid hi : Nat}

theorem refl (m : Mem) (lo hi : Nat) : SameOutside m m lo hi := fun _ _ => rfl

theorem mono {lo' hi' : Nat} (h : SameOutside m m₁ lo hi) (hlo : lo' ≤ lo) (hhi : hi ≤ hi') :
    SameOutside m m₁ lo' hi' :=
  fun a ha => h a fun hin => ha ⟨hlo.trans hin.1, Nat.lt_of_lt_of_le hin.2 hhi⟩

/-- First above `mid`, then below it. -/
theorem trans (h₁ : SameOutside m m₁ mid hi) (h₂ : SameOutside m₁ m₂ lo mid) (hlo : lo ≤ mid)
    (hhi : mid ≤ hi) : SameOutside m m₂ lo hi := by
  intro a ha
  rw [h₂ a (by omega), h₁ a (by omega)]

end SameOutside

/-- A run of bytes depends on these bytes only. -/
theorem Holds.congr {m m' : Mem} {a : Addr} {bs : List (BitVec 8)} (h : Holds m a bs) {hi : Nat}
    (hlen : a.toNat + bs.length ≤ hi) (hhi : hi ≤ 2 ^ 32)
    (heq : ∀ x : Addr, a.toNat ≤ x.toNat → x.toNat < hi → m' x = m x) : Holds m' a bs := by
  intro i hi
  have hidx : (a + BitVec.ofNat 32 i).toNat = a.toNat + i := by
    rw [BitVec.toNat_add, BitVec.toNat_ofNat]
    omega
  rw [heq _ (by omega) (by omega), h i hi]

/-- A word outside the changed range. -/
theorem SameOutside.load32 {m m' : Mem} {lo hi : Nat} (h : SameOutside m m' lo hi) {a : Addr}
    (ha : hi ≤ a.toNat) (hlt : a.toNat + 4 ≤ 2 ^ 32) : load32 m' a = ByteMem.load32 m a := by
  apply load32_congr
  intro i hi'
  apply h
  bv_omega

-- ---------------------------------------------------------------------------
-- Copying a range onto another
-- ---------------------------------------------------------------------------

/-- The bytes from `lo` up to `hi` of the range at `dest` are those that the range
at `src` had in `m`; all other memory is as in `m`. -/
def Copied (m m' : Mem) (dest src : Addr) (lo hi : Nat) : Prop :=
  ∀ a, m' a = if lo ≤ (a - dest).toNat ∧ (a - dest).toNat < hi then m (src + (a - dest)) else m a

namespace Copied

variable {m m' : Mem} {dest src : Addr} {lo hi : Nat}

theorem empty (m : Mem) (dest src : Addr) (k : Nat) : Copied m m dest src k k :=
  fun _ => (if_neg (by omega)).symm

/-- The range to be copied, seen from where it goes. -/
theorem inside (h : Copied m m' dest src lo hi) {i : Addr} (hlo : lo ≤ i.toNat) (hhi : i.toNat < hi) :
    m' (dest + i) = m (src + i) := by
  have hoff : dest + i - dest = i := by rw [BitVec.add_comm, BitVec.add_sub_cancel]
  rw [h, hoff, if_pos ⟨hlo, hhi⟩]

theorem outside (h : Copied m m' dest src lo hi) {a : Addr}
    (ha : ¬ (lo ≤ (a - dest).toNat ∧ (a - dest).toNat < hi)) : m' a = m a := by
  rw [h, if_neg ha]

/-- One more byte, at offset `i` next to the range, when its source is still
untouched. -/
theorem store (h : Copied m m' dest src lo hi) {i : Addr} {lo' hi' : Nat}
    (hgrow : ∀ j : Addr, (lo' ≤ j.toNat ∧ j.toNat < hi') ↔ j = i ∨ (lo ≤ j.toNat ∧ j.toNat < hi))
    (huntouched : ¬ (lo ≤ (src + i - dest).toNat ∧ (src + i - dest).toNat < hi)) :
    Copied m (store8 m' (dest + i) (m' (src + i))) dest src lo' hi' := by
  intro a
  simp only [hgrow (a - dest)]
  by_cases ha : a = dest + i
  · subst ha
    have hoff : dest + i - dest = i := by rw [BitVec.add_comm, BitVec.add_sub_cancel]
    rw [store8_same, h.outside huntouched, hoff, if_pos (Or.inl rfl)]
  · have hne : a - dest ≠ i := by
      rintro rfl
      exact ha (by bv_omega)
    rw [store8_ne ha, h a]
    simp only [hne, false_or]

end Copied

end ByteMem
