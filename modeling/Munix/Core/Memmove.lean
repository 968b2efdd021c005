import Munix.Lib.Memory
import Munix.Core.Strings

/-!
# Munix — memmove in memory

`memmove` of `core/string.c` on the whole address space, where the two regions may
overlap in any way and may end at the top of memory:

* `memmoveAt_copied` — the destination gets what the source held, and nothing else
  changes.
* `memmoveAt_buffer` — inside one buffer, this is the `memmove` of
  `Munix.Core.Strings`.
-/

namespace Munix

open ByteMem

/-- `for (; n; n--) *(d++) = *(s++);` -/
def copyUpAt : Nat → Addr → Addr → Mem → Mem
  | 0, _, _, m => m
  | n + 1, d, s, m => copyUpAt n (d + 1#32) (s + 1#32) (store8 m d (m s))

/-- `for (; n; n--) *--d = *--s;` -/
def copyDownAt : Nat → Addr → Addr → Mem → Mem
  | 0, _, _, m => m
  | n + 1, d, s, m => copyDownAt n (d - 1#32) (s - 1#32) (store8 m (d - 1#32) (m (s - 1#32)))

/-- `memmove(dest, src, n)`. The order of the pointers decides where it begins. -/
def memmoveAt (m : Mem) (dest src : Addr) (n : BitVec 32) : Mem :=
  if n = 0#32 ∨ src = dest then m
  else if dest < src then copyUpAt n.toNat dest src m
  else copyDownAt n.toNat (dest + n) (src + n) m

-- ---------------------------------------------------------------------------
-- The two loops
-- ---------------------------------------------------------------------------

variable {m m' : Mem} {dest src : Addr} {n : BitVec 32}

/-- Upwards, the next byte to be read lies above all that has been written. -/
theorem copyUpAt_copied (hlt : dest < src) (hsrc : src.toNat + n.toNat ≤ 2 ^ 32) {k : BitVec 32}
    {left : Nat} (hleft : k.toNat + left = n.toNat) (h : Copied m m' dest src 0 k.toNat) :
    Copied m (copyUpAt left (dest + k) (src + k) m') dest src 0 n.toNat := by
  induction left generalizing k m' with
  | zero =>
    rw [copyUpAt, ← hleft]
    exact h
  | succ left ih =>
    have hk : (k + 1#32).toNat = k.toNat + 1 := by bv_omega
    rw [copyUpAt, BitVec.add_assoc, BitVec.add_assoc]
    refine ih (by omega) (h.store ?_ ?_)
    · intro j
      rw [hk]
      bv_omega
    · bv_omega

/-- Downwards, the next byte to be read lies below all that has been written. -/
theorem copyDownAt_copied (hlt : src < dest) (hdest : dest.toNat + n.toNat ≤ 2 ^ 32) {k : BitVec 32}
    {left : Nat} (hleft : k.toNat = left) (hk : left ≤ n.toNat)
    (h : Copied m m' dest src left n.toNat) :
    Copied m (copyDownAt left (dest + k) (src + k) m') dest src 0 n.toNat := by
  induction left generalizing k m' with
  | zero => exact h
  | succ left ih =>
    have hd : dest + k - 1#32 = dest + (k - 1#32) := by bv_omega
    have hs : src + k - 1#32 = src + (k - 1#32) := by bv_omega
    have hpred : (k - 1#32).toNat = left := by bv_omega
    rw [copyDownAt, hd, hs]
    refine ih hpred (by omega) (h.store ?_ ?_)
    · intro j
      bv_omega
    · bv_omega

-- ---------------------------------------------------------------------------
-- The whole function
-- ---------------------------------------------------------------------------

/-- **`memmove` copies under any overlap.** -/
theorem memmoveAt_copied (m : Mem) (hdest : dest.toNat + n.toNat ≤ 2 ^ 32)
    (hsrc : src.toNat + n.toNat ≤ 2 ^ 32) :
    Copied m (memmoveAt m dest src n) dest src 0 n.toNat := by
  unfold memmoveAt
  split
  next h =>
    rcases h with rfl | rfl
    · exact Copied.empty m dest src 0
    · intro a
      have hback : src + (a - src) = a := by bv_omega
      rw [hback, ite_self]
  next h =>
    split
    next hlt =>
      have hall : (0#32).toNat + n.toNat = n.toNat := by simp
      have hcopied := copyUpAt_copied hlt hsrc hall (Copied.empty m dest src 0)
      simpa using hcopied
    next hlt =>
      have hgt : src < dest := by bv_omega
      exact copyDownAt_copied hgt hdest rfl (Nat.le_refl _) (Copied.empty m dest src n.toNat)

/-- `memmove` inside a buffer, and the same `memmove` in the memory where the buffer
is. -/
theorem memmoveAt_buffer {buf : Nat → Byte} {base : Addr} {size d s : Nat}
    (hbase : base.toNat + size ≤ 2 ^ 32) (hbuf : ∀ i < size, m (base + BitVec.ofNat 32 i) = buf i)
    (hd : d + n.toNat ≤ size) (hs : s + n.toNat ≤ size) {i : Nat} (hi : i < size) :
    memmoveAt m (base + BitVec.ofNat 32 d) (base + BitVec.ofNat 32 s) n (base + BitVec.ofNat 32 i) =
      memmove buf d s n.toNat i := by
  by_cases hn : n = 0#32
  · rw [memmoveAt, if_pos (Or.inl hn), memmove, if_pos (Or.inl (by simp [hn])), hbuf i hi]
  have hpos : 0 < n.toNat := by bv_omega
  have hat : ∀ j < size, (BitVec.ofNat 32 j).toNat = j := by
    intro j hj
    exact Nat.mod_eq_of_lt (by omega)
  have hd' := hat d (by omega)
  have hs' := hat s (by omega)
  have hi' := hat i hi
  have hcopied : Copied m (memmoveAt m (base + BitVec.ofNat 32 d) (base + BitVec.ofNat 32 s) n)
      (base + BitVec.ofNat 32 d) (base + BitVec.ofNat 32 s) 0 n.toNat :=
    memmoveAt_copied m (by bv_omega) (by bv_omega)
  rw [hcopied, memmove_apply]
  by_cases hin : d ≤ i ∧ i < d + n.toNat
  · have hoff : base + BitVec.ofNat 32 i - (base + BitVec.ofNat 32 d) = BitVec.ofNat 32 (i - d) := by
      have := hat (i - d) (by omega)
      bv_omega
    have hread : base + BitVec.ofNat 32 s + BitVec.ofNat 32 (i - d) =
        base + BitVec.ofNat 32 (i - d + s) := by
      rw [BitVec.add_assoc, ← BitVec.ofNat_add, Nat.add_comm s]
    rw [hoff, hat (i - d) (by omega), if_pos (by omega), if_pos hin, hread, hbuf _ (by omega)]
  · have hout : ¬ (0 ≤ (base + BitVec.ofNat 32 i - (base + BitVec.ofNat 32 d)).toNat ∧
        (base + BitVec.ofNat 32 i - (base + BitVec.ofNat 32 d)).toNat < n.toNat) := by
      bv_omega
    rw [if_neg hout, if_neg hin, hbuf i hi]

end Munix
