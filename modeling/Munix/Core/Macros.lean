import Munix.Lib.Memory

/-!
# Munix — core macros, error numbers and memory primitives

The pieces of `core/macros.h`, `core/errno.h` and `core/string.c` that the
rest of the kernel is written in. `size_t`, `uintptr_t` and pointers are
32-bit words (the target is i386); results of type `int` are integers, with
errors as negated `errno` values.
-/

namespace Munix

open ByteMem

-- ---------------------------------------------------------------------------
-- errno.h
-- ---------------------------------------------------------------------------

def ENOMEM : Int := 5
def EOVERFLOW : Int := 6
def ENOSYS : Int := 7
def ENOTSUP : Int := 8
def EINVAL : Int := 9
def E2BIG : Int := 10
def EBUSY : Int := 12
def EAGAIN : Int := 15
def ESRCH : Int := 19
def EIO : Int := 20
def ENOBUFS : Int := 21
def EBADF : Int := 23
def ENODEV : Int := 26
def ENOENT : Int := 33
def ENOTDIR : Int := 35

-- ---------------------------------------------------------------------------
-- macros.h
-- ---------------------------------------------------------------------------

/-- `ALIGN_DOWN(x, a)`; `a` is a power of two. -/
def alignDown (x a : BitVec 32) : BitVec 32 := x &&& ~~~(a - 1#32)

/-- `ALIGN_UP(x, a)`, in 32-bit arithmetic: the addition can wrap around. -/
def alignUp (x a : BitVec 32) : BitVec 32 := (x + (a - 1#32)) &&& ~~~(a - 1#32)

/-- `MIN(x, y)` on unsigned words. -/
def minWord (x y : BitVec 32) : BitVec 32 := if x ≤ y then x else y

theorem minWord_zero (x : BitVec 32) : minWord 0#32 x = 0#32 := if_pos (by bv_omega)

/-- Clearing the low `k` bits is a shift down and up again. -/
theorem and_not_low (x : BitVec 32) (k : Nat) :
    x &&& ~~~(BitVec.ofNat 32 (2 ^ k - 1)) = (x >>> k) <<< k := by
  apply BitVec.eq_of_getLsbD_eq
  intro i hi
  simp only [BitVec.getLsbD_and, BitVec.getLsbD_not, BitVec.getLsbD_ofNat,
    Nat.testBit_two_pow_sub_one, BitVec.getLsbD_shiftLeft, BitVec.getLsbD_ushiftRight, hi,
    decide_true, Bool.true_and]
  by_cases hk : i < k
  · simp [hk]
  · simp [hk, Nat.add_sub_cancel' (Nat.le_of_not_lt hk)]

theorem and_not_low_toNat (x : BitVec 32) (k : Nat) :
    (x &&& ~~~(BitVec.ofNat 32 (2 ^ k - 1))).toNat = x.toNat / 2 ^ k * 2 ^ k := by
  have hle : x.toNat / 2 ^ k * 2 ^ k ≤ x.toNat := Nat.div_mul_le_self _ _
  have hx : x.toNat < 2 ^ 32 := x.isLt
  rw [and_not_low, BitVec.toNat_shiftLeft, BitVec.toNat_ushiftRight, Nat.shiftLeft_eq,
    Nat.shiftRight_eq_div_pow, Nat.mod_eq_of_lt (by omega)]

theorem alignDown_toNat (x : BitVec 32) :
    (alignDown x 4096#32).toNat = x.toNat / 4096 * 4096 :=
  and_not_low_toNat x 12

/-- Without overflow `ALIGN_UP` rounds up to the next multiple. -/
theorem alignUp_toNat {x : BitVec 32} (h : x.toNat + 4095 < 2 ^ 32) :
    (alignUp x 4096#32).toNat = (x.toNat + 4095) / 4096 * 4096 := by
  have hadd : (x + 4095#32).toNat = x.toNat + 4095 := by bv_omega
  rw [← hadd]
  exact and_not_low_toNat (x + 4095#32) 12

/-- Page-aligned values are fixed by `ALIGN_DOWN`. -/
theorem alignDown_of_aligned {x : BitVec 32} (h : x.toNat % 4096 = 0) :
    alignDown x 4096#32 = x := by
  apply BitVec.eq_of_toNat_eq
  rw [alignDown_toNat]
  omega

-- ---------------------------------------------------------------------------
-- Signed words
-- ---------------------------------------------------------------------------

theorem toInt_ofNat {n : Nat} (hn : n < 2 ^ 31) : (BitVec.ofNat 32 n).toInt = n := by
  have hnat : (BitVec.ofNat 32 n).toNat = n := by
    rw [BitVec.toNat_ofNat, Nat.mod_eq_of_lt (by omega)]
  rw [BitVec.toInt_eq_toNat_of_lt (by omega), hnat]

theorem slt_ofNat {m n : Nat} (hm : m < 2 ^ 31) (hn : n < 2 ^ 31) :
    (BitVec.ofNat 32 m).slt (BitVec.ofNat 32 n) = decide (m < n) := by
  rw [BitVec.slt, toInt_ofNat hm, toInt_ofNat hn]
  simp

theorem sle_ofNat {m n : Nat} (hm : m < 2 ^ 31) (hn : n < 2 ^ 31) :
    (BitVec.ofNat 32 m).sle (BitVec.ofNat 32 n) = decide (m ≤ n) := by
  rw [BitVec.sle, toInt_ofNat hm, toInt_ofNat hn]
  simp

-- ---------------------------------------------------------------------------
-- string.c
-- ---------------------------------------------------------------------------

/-- `memset(s, c, n)`: one byte at a time, upwards from `s`. -/
def memset (m : Mem) (s : Addr) (c : BitVec 8) : Nat → Mem
  | 0 => m
  | n + 1 => memset (store8 m s c) (s + 1#32) c n

theorem memset_eq_memFill (m : Mem) (s : Addr) (c : BitVec 8) {n : Nat} (hn : n ≤ 2 ^ 32) :
    memset m s c n = memFill m s c n := by
  induction n generalizing m s with
  | zero => funext x; simp [memset, memFill]
  | succ n ih => rw [memset, ih _ _ (by omega), memFill_succ m s c (by omega)]

end Munix
