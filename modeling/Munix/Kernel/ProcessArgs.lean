import Munix.Kernel.Cmdline
import Munix.Kernel.LoadPool

/-!
# Munix — the initial user stack

`push_args` writes the arguments of a program below the top of its stack: copies of
the strings, a zero word, the pointers to the copies, and their number. `crt0.S`
reads this back at the entry point of the program.

* `ArgLayout` — what is there then, in terms of memory only; everything it speaks
  of lies between the new stack pointer and the old one.
* `pushArgs_layout` — `push_args` builds it, on every stack that has room.
* `processLoadPath_stack` — `process_load_path` maps such a stack, and the argument
  lists of the shell fit into it.
-/

namespace Munix

open ByteMem

-- ---------------------------------------------------------------------------
-- A mapped stack
-- ---------------------------------------------------------------------------

/-- From `lo` up to `hi` the active page map takes every address to itself, and goes on doing so
while kernel memory, where the tables are, does not change. -/
structure StackMapped (cr3 : Pme) (m : Mem) (lo hi : BitVec 32) : Prop where
  above : KMAP_MAX ≤ lo
  walk  : ∀ m', KernelKept m m' → ∀ a : Addr, lo ≤ a → a < hi → ∃ perm, hwWalk m' cr3 a = some (a, perm)

section Stack

variable {cr3 : Pme} {m m₁ : Mem} {lo hi : BitVec 32}

theorem StackMapped.storeV (h : StackMapped cr3 m lo hi) (hm : KernelKept m m₁) {a : Addr}
    (hlo : lo ≤ a) (hhi : a < hi) (b : Byte) : storeV cr3 m₁ a b = .ok (store8 m₁ a b) := by
  obtain ⟨perm, hwalk⟩ := h.walk m₁ hm a hlo hhi
  have hout : ¬ a < KMAP_MAX := by
    have := h.above
    bv_omega
  rw [Munix.storeV, hwalk]
  exact if_neg hout

/-- Stores inside the stack succeed. -/
theorem StackMapped.storeBytesV (h : StackMapped cr3 m lo hi) (hm : KernelKept m m₁) {a : Addr}
    {bs : List Byte} (hlo : lo.toNat ≤ a.toNat) (hhi : a.toNat + bs.length ≤ hi.toNat) :
    storeBytesV cr3 m₁ a bs = .ok (memPut m₁ a bs) := by
  have hlt := hi.isLt
  induction bs generalizing m₁ a with
  | nil => rfl
  | cons b bs ih =>
    rw [List.length_cons] at hhi
    have hone := h.storeV hm (show lo ≤ a by bv_omega) (show a < hi by bv_omega) b
    have hkept := storeV_kept cr3 m₁ a b
    rw [hone] at hkept
    rw [Munix.storeBytesV, hone, ← memPut_cons m₁ a b (by omega)]
    cases bs with
    | nil => rfl
    | cons c bs =>
      rw [List.length_cons] at hhi
      exact ih (hm.trans hkept) (by bv_omega) (by rw [List.length_cons]; bv_omega)

/-- Kernel memory is below the stack. -/
theorem StackMapped.kept (h : StackMapped cr3 m lo hi) (hm : KernelKept m m₁) {m₂ : Mem} {lo' hi' : Nat}
    (hs : SameOutside m₁ m₂ lo' hi') (hlo : lo.toNat ≤ lo') : KernelKept m m₂ := by
  refine hm.trans fun a ha => hs a ?_
  have := h.above
  bv_omega

-- ---------------------------------------------------------------------------
-- Strings
-- ---------------------------------------------------------------------------

/-- The bytes that a string takes on the stack: with its NUL, in whole words. -/
def strSize (str : List Byte) : Nat := (str.length + 1 + 3) / 4 * 4

def strsSize (strs : List (List Byte)) : Nat := (strs.map strSize).sum

theorem strsSize_cons (str : List Byte) (strs : List (List Byte)) :
    strsSize (str :: strs) = strSize str + strsSize strs := List.sum_cons

theorem slots_toNat {n : Nat} (hn : n + 3 < 2 ^ 32) :
    (4#32 * (alignUp (BitVec.ofNat 32 n) 4#32 / 4#32)).toNat = (n + 3) / 4 * 4 := by
  have hadd : (BitVec.ofNat 32 n + 3#32).toNat = n + 3 := by
    have h3 : (3#32).toNat = 3 := rfl
    rw [BitVec.toNat_add, BitVec.toNat_ofNat, h3]
    omega
  have hup : (alignUp (BitVec.ofNat 32 n) 4#32).toNat = (n + 3) / 4 * 4 := by
    rw [← hadd]
    exact and_not_low_toNat (BitVec.ofNat 32 n + 3#32) 2
  rw [BitVec.toNat_mul, BitVec.toNat_udiv, hup]
  have h4 : (4#32).toNat = 4 := rfl
  rw [h4]
  omega

/-- `push_str` on a stack that has room. -/
theorem StackMapped.pushStr (h : StackMapped cr3 m lo hi) (hm : KernelKept m m₁) {sp : BitVec 32}
    {str : List Byte} (hroom : lo.toNat + strSize str ≤ sp.toNat) (hsp : sp ≤ hi) :
    ∃ m' sp', pushStr cr3 m₁ sp str = .ok (m', sp') ∧ sp'.toNat + strSize str = sp.toNat ∧
      SameOutside m₁ m' sp'.toNat sp.toNat ∧ Holds m' sp' (str ++ [0#8]) := by
  have hlt := sp.isLt
  have hlen : (str ++ [0#8]).length = str.length + 1 := by simp
  have hslots := slots_toNat (show str.length + 1 + 3 < 2 ^ 32 by unfold strSize at hroom; omega)
  set sp' := sp - 4#32 * (alignUp (BitVec.ofNat 32 (str.length + 1)) 4#32 / 4#32) with hsp'
  have hsize : sp'.toNat + strSize str = sp.toNat := by
    unfold strSize at hroom ⊢
    bv_omega
  have hle : str.length + 1 ≤ strSize str := by
    unfold strSize
    omega
  have hstore := h.storeBytesV hm (show lo.toNat ≤ sp'.toNat by omega)
    (show sp'.toNat + (str ++ [0#8]).length ≤ hi.toNat by bv_omega)
  refine ⟨memPut m₁ sp' (str ++ [0#8]), sp', ?_, hsize, ?_, memPut_holds _ _ (by omega)⟩
  · simp only [Munix.pushStr, ← hsp', hstore]
  · exact (memPut_sameOutside m₁ (by omega)).mono (Nat.le_refl _) (by omega)

/-- Copies of the strings below `top`, each of them below the one before it. -/
inductive Copies (m : Mem) (bot : Nat) : Nat → List (List Byte) → List Addr → Prop where
  | nil {top : Nat} : bot ≤ top → Copies m bot top [] []
  | cons {top : Nat} {str : List Byte} {strs : List (List Byte)} {p : Addr} {ptrs : List Addr} :
      p.toNat + (str.length + 1) ≤ top → Holds m p (str ++ [0#8]) → Copies m bot p.toNat strs ptrs →
      Copies m bot top (str :: strs) (p :: ptrs)

theorem Copies.bot_le {top : Nat} {strs : List (List Byte)} {ptrs : List Addr} {bot : Nat}
    (h : Copies m bot top strs ptrs) : bot ≤ top := by
  induction h with
  | nil hle => exact hle
  | cons htop _ _ ih => omega

/-- Changes below the copies do not matter. -/
theorem Copies.congr {top : Nat} {strs : List (List Byte)} {ptrs : List Addr} {bot lo' : Nat}
    (h : Copies m bot top strs ptrs) (htop : top ≤ 2 ^ 32) (hs : SameOutside m m₁ lo' bot) :
    Copies m₁ bot top strs ptrs := by
  induction h with
  | nil hle => exact .nil hle
  | cons hp hholds hrest ih =>
    have hbot := hrest.bot_le
    refine .cons hp (hholds.congr (by simpa using hp) htop fun x hx _ => ?_) (ih (by omega))
    exact hs x (by omega)

/-- The first loop of `push_args`. -/
theorem StackMapped.pushStrs (h : StackMapped cr3 m lo hi) {strs : List (List Byte)}
    (hm : KernelKept m m₁) {sp : BitVec 32} (hroom : lo.toNat + strsSize strs ≤ sp.toNat) (hsp : sp ≤ hi) :
    ∃ m' sp' ptrs, pushStrs cr3 m₁ sp strs = .ok (m', sp', ptrs) ∧
      sp'.toNat + strsSize strs = sp.toNat ∧ SameOutside m₁ m' sp'.toNat sp.toNat ∧
      Copies m' sp'.toNat sp.toNat strs ptrs := by
  induction strs generalizing m₁ sp with
  | nil => exact ⟨m₁, sp, [], rfl, rfl, .refl _ _ _, .nil (Nat.le_refl _)⟩
  | cons str strs ih =>
    rw [strsSize_cons] at hroom ⊢
    have hlt := sp.isLt
    obtain ⟨m₂, sp₂, hrun, hsize, hs, hholds⟩ :=
      h.pushStr hm (show lo.toNat + strSize str ≤ sp.toNat by omega) hsp
    obtain ⟨m', sp', ptrs, hrest, hsize', hs', hcopies⟩ := ih (h.kept hm hs (by omega)) (by omega)
      (show sp₂ ≤ hi by bv_omega)
    have hle : str.length + 1 ≤ strSize str := by
      unfold strSize
      omega
    refine ⟨m', sp', sp₂ :: ptrs, ?_, by omega, hs.trans hs' (by omega) (by omega), ?_⟩
    · simp only [Munix.pushStrs, hrun, hrest]
    · have hend : sp₂.toNat + (str ++ [0#8]).length ≤ sp.toNat := by
        rw [List.length_append, List.length_singleton]
        omega
      exact .cons (by omega) (hholds.congr hend (by omega) fun x hx _ => hs' x (by omega)) hcopies

-- ---------------------------------------------------------------------------
-- Words
-- ---------------------------------------------------------------------------

theorem load32_of_holds {a : Addr} {v : BitVec 32} (h : Holds m a (word v)) : load32 m a = v := by
  have h0 : m a = v.extractLsb' 0 8 := by simpa [word] using h 0 (by simp [word])
  have h1 : m (a + 1#32) = v.extractLsb' 8 8 := by simpa [word] using h 1 (by simp [word])
  have h2 : m (a + 2#32) = v.extractLsb' 16 8 := by simpa [word] using h 2 (by simp [word])
  have h3 : m (a + 3#32) = v.extractLsb' 24 8 := by simpa [word] using h 3 (by simp [word])
  rw [load32, h0, h1, h2, h3]
  exact append_bytes v

/-- `PUSH` of some words: they are there from the last one on. -/
theorem StackMapped.pushWords (h : StackMapped cr3 m lo hi) {vals : List (BitVec 32)}
    (hm : KernelKept m m₁) {sp : BitVec 32} (hroom : lo.toNat + 4 * vals.length ≤ sp.toNat) (hsp : sp ≤ hi) :
    ∃ m' sp', pushWords cr3 m₁ sp vals = .ok (m', sp') ∧ sp'.toNat + 4 * vals.length = sp.toNat ∧
      SameOutside m₁ m' sp'.toNat sp.toNat ∧
      ∀ i (hi : i < vals.reverse.length), load32 m' (sp' + BitVec.ofNat 32 (4 * i)) = vals.reverse[i] := by
  induction vals generalizing m₁ sp with
  | nil => exact ⟨m₁, sp, rfl, rfl, .refl _ _ _, fun i hi => absurd hi (by simp)⟩
  | cons val vals ih =>
    rw [List.length_cons] at hroom ⊢
    have hlt := sp.isLt
    have hword : (word val).length = 4 := rfl
    have hsub : (sp - 4#32).toNat + 4 = sp.toNat := by bv_omega
    have hstore := h.storeBytesV hm (show lo.toNat ≤ (sp - 4#32).toNat by omega)
      (show (sp - 4#32).toNat + (word val).length ≤ hi.toNat by bv_omega)
    have hs : SameOutside m₁ (memPut m₁ (sp - 4#32) (word val)) (sp - 4#32).toNat sp.toNat := by
      have hput := memPut_sameOutside m₁ (show (sp - 4#32).toNat + (word val).length ≤ 2 ^ 32 by omega)
      rwa [hword, hsub] at hput
    obtain ⟨m', sp', hrun, hsize, hs', hload⟩ := ih (h.kept hm hs (by omega))
      (show lo.toNat + 4 * vals.length ≤ (sp - 4#32).toNat by omega) (show sp - 4#32 ≤ hi by bv_omega)
    refine ⟨m', sp', ?_, by omega, hs.trans hs' (by omega) (by omega), ?_⟩
    · simp only [Munix.pushWords, hstore, hrun]
    · intro i hi
      have hrev : (val :: vals).reverse = vals.reverse ++ [val] := List.reverse_cons
      simp only [List.length_reverse, List.length_cons] at hi
      simp only [hrev]
      by_cases hlast : i < vals.length
      · rw [List.getElem_append_left (by simpa using hlast)]
        exact hload i (by simpa using hlast)
      · -- the word pushed first is above the others
        obtain rfl : i = vals.length := by omega
        have hat : sp' + BitVec.ofNat 32 (4 * vals.length) = sp - 4#32 := by
          apply BitVec.eq_of_toNat_eq
          rw [BitVec.toNat_add, BitVec.toNat_ofNat]
          omega
        rw [List.getElem_append_right (by simp), hat, hs'.load32 (Nat.le_refl _) (by omega),
          load32_of_holds (memPut_holds m₁ _ (by rw [hword]; decide))]
        simp

-- ---------------------------------------------------------------------------
-- The arguments
-- ---------------------------------------------------------------------------

/-- What the arguments take on the stack: their copies, the pointers, the separating zero, `argc`. -/
def argsSize (argv : List (List Byte)) : Nat := strsSize argv + 4 * (argv.length + 2)

/-- `argv[i]`, for a program that starts with the stack pointer at `sp`. -/
def argvWord (m : Mem) (sp : BitVec 32) (i : Nat) : BitVec 32 :=
  load32 m (sp + BitVec.ofNat 32 (4 * (i + 1)))

/-- Between `sp'` and `sp`, memory holds the arguments, and is otherwise as before. -/
structure ArgLayout (m m' : Mem) (sp sp' : BitVec 32) (argv : List (List Byte)) : Prop where
  aligned : Aligned sp'
  argc    : load32 m' sp' = BitVec.ofNat 32 argv.length
  /-- the word after the pointers is zero -/
  null    : argvWord m' sp' argv.length = 0#32
  copies  : ∀ i (hi : i < argv.length), Holds m' (argvWord m' sp' i) (argv[i] ++ [0#8])
  /-- the copies are above the pointers and the zero, and below the old stack pointer -/
  above   : ∀ i (hi : i < argv.length), sp'.toNat + 4 * (argv.length + 2) ≤ (argvWord m' sp' i).toNat ∧
              (argvWord m' sp' i).toNat + (argv[i].length + 1) ≤ sp.toNat
  /-- no copy reaches into the ones before it -/
  apart   : ∀ i j (hj : j < argv.length), i < j →
              (argvWord m' sp' j).toNat + (argv[j].length + 1) ≤ (argvWord m' sp' i).toNat
  size    : sp'.toNat + argsSize argv = sp.toNat
  outside : SameOutside m m' sp'.toNat sp.toNat

theorem Copies.length_eq {bot top : Nat} {strs : List (List Byte)} {ptrs : List Addr}
    (h : Copies m bot top strs ptrs) : ptrs.length = strs.length := by
  induction h with
  | nil _ => rfl
  | cons _ _ _ ih => simp [ih]

theorem Copies.get {bot top : Nat} {strs : List (List Byte)} {ptrs : List Addr}
    (h : Copies m bot top strs ptrs) {i : Nat} (hi : i < strs.length) (hp : i < ptrs.length) :
    Holds m ptrs[i] (strs[i] ++ [0#8]) ∧ bot ≤ ptrs[i].toNat ∧
      ptrs[i].toNat + (strs[i].length + 1) ≤ top := by
  induction h generalizing i with
  | nil _ => exact absurd hi (by simp)
  | cons htop hholds hrest ih =>
    cases i with
    | zero => exact ⟨hholds, hrest.bot_le, htop⟩
    | succ i =>
      obtain ⟨hh, hbot, hle⟩ := ih (by simpa using hi) (by simpa using hp)
      exact ⟨hh, hbot, by simp only [List.getElem_cons_succ]; omega⟩

theorem Copies.apart {bot top : Nat} {strs : List (List Byte)} {ptrs : List Addr}
    (h : Copies m bot top strs ptrs) {i j : Nat} (hij : i < j) (hi : i < ptrs.length)
    (hj : j < strs.length) (hp : j < ptrs.length) :
    ptrs[j].toNat + (strs[j].length + 1) ≤ ptrs[i].toNat := by
  induction h generalizing i j with
  | nil _ => exact absurd hj (by simp)
  | cons htop hholds hrest ih =>
    obtain ⟨j, rfl⟩ := Nat.exists_eq_succ_of_ne_zero (Nat.ne_zero_of_lt hij)
    cases i with
    | zero => exact (hrest.get (by simpa using hj) (by simpa using hp)).2.2
    | succ i =>
      exact ih (Nat.lt_of_succ_lt_succ hij) (by simpa using hi) (by simpa using hj) (by simpa using hp)

theorem strsSize_mod (strs : List (List Byte)) : strsSize strs % 4 = 0 := by
  induction strs with
  | nil => rfl
  | cons str strs ih =>
    have hstr : strSize str % 4 = 0 := Nat.mul_mod_left _ 4
    rw [strsSize_cons]
    omega

/-- **What `push_args` builds**, on every mapped stack that has room for the arguments. -/
theorem StackMapped.pushArgs (h : StackMapped cr3 m lo hi) {argv : List (List Byte)} (halign : Aligned hi)
    (hroom : lo.toNat + argsSize argv ≤ hi.toNat) :
    ∃ m' sp', pushArgs cr3 m hi argv = .ok (m', sp') ∧ ArgLayout m m' hi sp' argv := by
  unfold argsSize at hroom
  obtain ⟨m₂, sp₂, ptrs, hrun, hsize, hs, hcopies⟩ :=
    h.pushStrs (.refl m) (show lo.toNat + strsSize argv ≤ hi.toNat by omega) (show hi ≤ hi by bv_omega)
  have hlen := hcopies.length_eq
  set vals := 0#32 :: ptrs.reverse ++ [BitVec.ofNat 32 argv.length] with hvals
  have hrev : vals.reverse = BitVec.ofNat 32 argv.length :: (ptrs ++ [0#32]) := by simp [hvals]
  have hcount : vals.length = argv.length + 2 := by simp [hvals, hlen]
  obtain ⟨m', sp', hrun', hsize', hs', hload⟩ := h.pushWords (h.kept (.refl m) hs (by omega))
    (show lo.toNat + 4 * vals.length ≤ sp₂.toNat by omega) (show sp₂ ≤ hi by bv_omega)
  simp only [hrev] at hload
  have hlt := hi.isLt
  -- the words at the new stack pointer
  have hword : ∀ i (hi : i < argv.length), argvWord m' sp' i = ptrs[i] := by
    intro i hi
    have hload := hload (i + 1) (by simp; omega)
    rw [argvWord, hload]
    simp only [List.getElem_cons_succ]
    exact List.getElem_append_left (by omega)
  have hcopies' := hcopies.congr (by omega) (hs'.mono (Nat.le_refl _) (Nat.le_refl _))
  refine ⟨m', sp', ?_, ?_, ?_, ?_, ?_, ?_, ?_, ?_, ?_⟩
  · simp only [Munix.pushArgs, hrun, ← hvals, hrun']
  · have hmod := strsSize_mod argv
    unfold Aligned at halign ⊢
    omega
  · simpa using hload 0 (by simp)
  · have hload := hload (argv.length + 1) (by simp; omega)
    rw [argvWord, hload]
    simp [← hlen]
  · intro i hi
    rw [hword i hi]
    exact (hcopies'.get hi (by omega)).1
  · intro i hi
    obtain ⟨-, hbot, htop⟩ := hcopies'.get hi (show i < ptrs.length by omega)
    rw [hword i hi]
    exact ⟨by omega, htop⟩
  · intro i j hj hij
    rw [hword i (by omega), hword j hj]
    exact hcopies'.apart hij (by omega) hj (by omega)
  · unfold argsSize
    omega
  · exact hs.trans hs' (by omega) (by omega)

end Stack

-- ---------------------------------------------------------------------------
-- crt0.S
-- ---------------------------------------------------------------------------

/-- `_start` up to its call of `main`: `%ebp`, which is zero, and the arguments of `main` are pushed.
The result is memory and the stack pointer, where `main` finds its arguments. -/
def crt0Start (m : Mem) (esp : BitVec 32) : Mem × BitVec 32 :=
  let m := store32 m (esp - 4#32) 0#32
  let ebp := esp - 4#32
  let m := store32 m (ebp - 4#32) (ebp + 8#32)
  (store32 m (ebp - 8#32) (load32 m (ebp + 4#32)), ebp - 8#32)

/-- `main` is called with `argc` and with the address of the pointers, and finds the rest of the layout
as it was. -/
theorem crt0Start_args {m m' : Mem} {sp sp' : BitVec 32} {argv : List (List Byte)}
    (h : ArgLayout m m' sp sp' argv) (hroom : 12 ≤ sp'.toNat) :
    load32 (crt0Start m' sp').1 (crt0Start m' sp').2 = BitVec.ofNat 32 argv.length ∧
      load32 (crt0Start m' sp').1 ((crt0Start m' sp').2 + 4#32) = sp' + 4#32 ∧
      ∀ a : Addr, sp' ≤ a → (crt0Start m' sp').1 a = m' a := by
  have halign := h.aligned
  unfold Aligned at halign
  -- the three words below the stack pointer
  have h4 : Aligned (sp' - 4#32) := by unfold Aligned; bv_omega
  have h8 : Aligned (sp' - 4#32 - 4#32) := by unfold Aligned; bv_omega
  have h12 : Aligned (sp' - 4#32 - 8#32) := by unfold Aligned; bv_omega
  have hback : sp' - 4#32 + 4#32 = sp' := by bv_omega
  have hargv : sp' - 4#32 + 8#32 = sp' + 4#32 := by bv_omega
  have hslot : sp' - 4#32 - 8#32 + 4#32 = sp' - 4#32 - 4#32 := by bv_omega
  have hargc : load32 (store32 (store32 m' (sp' - 4#32) 0#32) (sp' - 4#32 - 4#32) (sp' + 4#32)) sp' =
      BitVec.ofNat 32 argv.length := by
    rw [load32_store32_ne h8 h.aligned (by bv_omega), load32_store32_ne h4 h.aligned (by bv_omega), h.argc]
  refine ⟨?_, ?_, ?_⟩
  · simp only [crt0Start, hback, hargv, load32_store32_same, hargc]
  · simp only [crt0Start, hback, hargv, hslot]
    rw [load32_store32_ne h12 h8 (by bv_omega), load32_store32_same]
  · intro a ha
    simp only [crt0Start]
    rw [store32_outside (by bv_omega), store32_outside (by bv_omega), store32_outside (by bv_omega)]

-- ---------------------------------------------------------------------------
-- The stack of a loaded program
-- ---------------------------------------------------------------------------

/-- In the middle of loading process `p`, with its user stack mapped to itself. -/
structure Resources.StackReady (r : Resources) (p : Fin PROCESS_MAX) : Prop where
  loading : r.Loading p
  stack   : ∀ x, 1264 ≤ x → x < 1280 →
              ∃ perm, r.pm.view p.val x = some (BitVec.ofNat 32 (4096 * x), perm)
  top     : (r.pcb p).ustack = USTACK_DFLT

section Load

variable {L : Layout} {r r' : Resources} {p : Fin PROCESS_MAX}

/-- A segment may be mapped over the stack, but to the same frames. -/
theorem stackReady_stable (p : Fin PROCESS_MAX) : SegmentStable p fun r => r.StackReady p where
  inv h := h.loading.inOrder.inv
  map := by
    intro r st x n flags h hm
    refine ⟨h.loading.mapTo hm rfl, fun y hy hy' => ?_, h.top⟩
    change ∃ perm, st.view p.val y = _
    rw [hm.view y (by omega)]
    split
    · have hframe : BitVec.ofNat 32 (4096 * x) + BitVec.ofNat 32 (4096 * (y - x)) =
          BitVec.ofNat 32 (4096 * y) := by
        rw [← BitVec.ofNat_add, show 4096 * x + 4096 * (y - x) = 4096 * y by omega]
      rw [hframe]
      exact ⟨_, rfl⟩
    · exact h.stack y hy hy'
  store := by
    intro r m h hm
    refine ⟨h.loading.setMem hm, fun y hy hy' => ?_, h.top⟩
    obtain ⟨perm, hview⟩ := h.stack y hy hy'
    exact ⟨perm, (view_kept h.loading.inOrder.inv hm p.val (by omega)).trans hview⟩
  file := by
    intro r f hf h
    refine ⟨h.loading.of_pm rfl rfl, h.stack, ?_⟩
    have htop : ((r.setProcess p f).pcb p).ustack = (r.pcb p).ustack := by
      simp only [Resources.setProcess, Function.update_self, hf]
    exact htop.trans h.top

theorem loadStart_stackReady (hr : r.InOrder) {res : Int} (h : loadStart L r p = some (res, r'))
    (hres : ¬ res < 0) : r'.StackReady p := by
  have hload := (loadStart_spec hr h hres).2.1
  obtain ⟨st₀, st₁, -, hmap₁, rfl⟩ := loadStart_maps hr h hres
  refine ⟨hload, fun x hx hx' => ?_, by simp [pmSetRoot, resetProcess, Resources.setProcess]⟩
  change ∃ perm, st₁.view p.val x = _
  have hframe : BitVec.ofNat 32 (4096 * 1264) + BitVec.ofNat 32 (4096 * (x - 1264)) =
      BitVec.ofNat 32 (4096 * x) := by
    rw [← BitVec.ofNat_add, show 4096 * 1264 + 4096 * (x - 1264) = 4096 * x by omega]
  rw [hmap₁.view x (by omega), if_pos (by omega), hframe]
  exact ⟨_, rfl⟩

/-- A program that has been loaded has its stack. -/
theorem processLoadPath_stackReady (hr : r.InOrder) {fuel : Nat} {junk : StackJunk} {cwd path : List Byte}
    (h : processLoadPath L fuel junk r p cwd path = some (.ok (0, r'))) : r'.StackReady p := by
  have hvfs : ∀ {r : Resources} v, r.StackReady p → Resources.StackReady { r with vfs := v } p :=
    fun v h => ⟨h.loading.of_pm rfl rfl, h.stack, h.top⟩
  exact (stackReady_stable p).load hvfs (loadStart_stackReady hr) h

theorem Resources.StackReady.mapped (h : r.StackReady p) :
    StackMapped r.cr3 r.pm.mem (USTACK_DFLT - THREAD_STACK_TOTAL) USTACK_DFLT where
  above := by decide
  walk := by
    intro m hm a hlo hhi
    have hx : 1264 ≤ a.toNat / 4096 ∧ a.toNat / 4096 < 1280 := by
      have hlo' : (USTACK_DFLT - THREAD_STACK_TOTAL).toNat = 4096 * 1264 := by decide
      have hhi' : USTACK_DFLT.toNat = 4096 * 1280 := by decide
      rw [BitVec.le_def] at hlo
      rw [BitVec.lt_def] at hhi
      omega
    obtain ⟨perm, hview⟩ := h.stack (a.toNat / 4096) hx.1 hx.2
    refine ⟨perm, ?_⟩
    rw [h.loading.walk hm, translate_eq_map_view, hview, Option.map_some, ofNat_page, page_or_offset]

end Load

-- ---------------------------------------------------------------------------
-- The arguments of a command
-- ---------------------------------------------------------------------------

theorem strsSize_le {strs : List (List Byte)} {n : Nat} (h : ∀ str ∈ strs, str.length ≤ n) :
    strsSize strs ≤ strs.length * (n + 4) := by
  induction strs with
  | nil => simp [strsSize]
  | cons str strs ih =>
    have hstr : strSize str ≤ n + 4 := by
      have := h str List.mem_cons_self
      unfold strSize
      omega
    have hrest := ih fun s hs => h s (List.mem_cons_of_mem _ hs)
    rw [strsSize_cons, List.length_cons, Nat.succ_mul]
    omega

/-- The arguments that the shell accepts fit into the user stack. -/
theorem argsSize_le_of_line {line : List Byte} {argv : List (List Byte)} (hline : line.length < SH_LINEBUFSZ)
    (h : shBreakCmdline line SH_ARGVSZ = some argv) : argsSize argv ≤ THREAD_STACK_TOTAL.toNat := by
  have hlen := length_le_of_breakLoop h
  have hcount : argv.length ≤ 15 := by
    rw [shBreakCmdline_eq] at h
    split at h
    · rename_i hfit
      rwa [← Option.some.inj h]
    · cases h
  have hstrs := strsSize_le fun str hstr => (hlen str hstr).trans (Nat.le_of_lt_succ hline)
  have htotal : THREAD_STACK_TOTAL.toNat = 65536 := by decide
  rw [argsSize, htotal]
  calc strsSize argv + 4 * (argv.length + 2)
      ≤ argv.length * (255 + 4) + 4 * (argv.length + 2) := Nat.add_le_add_right hstrs _
    _ ≤ 65536 := by omega

/--
**The initial user stack encodes the arguments.** On every mapped stack with room for them,
`push_args` builds the layout that `_start` reads: `main` gets `argc` and the address of the pointers,
in unchanged memory. The user stack that `process_load_path` has mapped is one with room for every
command line of the shell.
-/
theorem pushArgs_layout :
    (∀ (cr3 : Pme) (m : Mem) (lo sp : BitVec 32) (argv : List (List Byte)),
      StackMapped cr3 m lo sp → Aligned sp → lo.toNat + argsSize argv ≤ sp.toNat →
      ∃ m' sp', pushArgs cr3 m sp argv = .ok (m', sp') ∧ ArgLayout m m' sp sp' argv ∧
        load32 (crt0Start m' sp').1 (crt0Start m' sp').2 = BitVec.ofNat 32 argv.length ∧
        load32 (crt0Start m' sp').1 ((crt0Start m' sp').2 + 4#32) = sp' + 4#32 ∧
        ∀ a : Addr, sp' ≤ a → (crt0Start m' sp').1 a = m' a) ∧
    (∀ (L : Layout) (fuel : Nat) (junk : StackJunk) (r r' : Resources) (p : Fin PROCESS_MAX)
      (cwd path line : List Byte) (argv : List (List Byte)),
      r.Reachable L → processLoadPath L fuel junk r p cwd path = some (.ok (0, r')) →
      line.length < SH_LINEBUFSZ → shBreakCmdline line SH_ARGVSZ = some argv →
      StackMapped r'.cr3 r'.pm.mem (USTACK_DFLT - THREAD_STACK_TOTAL) USTACK_DFLT ∧
        ∃ m' sp', pushArgs r'.cr3 r'.pm.mem (r'.pcb p).ustack argv = .ok (m', sp') ∧
          ArgLayout r'.pm.mem m' USTACK_DFLT sp' argv ∧ USTACK_DFLT - THREAD_STACK_TOTAL ≤ sp') := by
  constructor
  · intro cr3 m lo sp argv hstack halign hroom
    obtain ⟨m', sp', hrun, hlayout⟩ := hstack.pushArgs halign hroom
    have hsize := hlayout.size
    have habove := hstack.above
    have hkmap : KMAP_MAX.toNat = 0x400000 := by decide
    rw [BitVec.le_def, hkmap] at habove
    exact ⟨m', sp', hrun, hlayout, crt0Start_args hlayout (by omega)⟩
  · intro L fuel junk r r' p cwd path line argv hr hload hline hargv
    have hready := processLoadPath_stackReady hr.inOrder hload
    have hlo : (USTACK_DFLT - THREAD_STACK_TOTAL).toNat = 0x4f0000 := by decide
    have hhi : USTACK_DFLT.toNat = 0x500000 := by decide
    have hfit : argsSize argv ≤ 65536 := argsSize_le_of_line hline hargv
    obtain ⟨m', sp', hrun, hlayout⟩ := hready.mapped.pushArgs (by decide)
      (show (USTACK_DFLT - THREAD_STACK_TOTAL).toNat + argsSize argv ≤ USTACK_DFLT.toNat by omega)
    have hsize := hlayout.size
    refine ⟨hready.mapped, m', sp', by rw [hready.top]; exact hrun, hlayout, ?_⟩
    rw [BitVec.le_def]
    omega

/-- The command `prog -l`, for a program that has been loaded. -/
theorem pushArgs_layout_prog :
    ∃ m m' sp', ArgLayout m m' USTACK_DFLT sp' [bytes "prog", bytes "-l"] := by
  obtain ⟨r, r', hboot, hload, -⟩ :=
    exists_load_above opens_above (by decide) (by decide) exampleLayout ⟨0, by decide⟩
  obtain ⟨-, m', sp', -, hlayout, -⟩ := pushArgs_layout.2 _ _ _ r r' _ _ _ (bytes "prog -l")
    [bytes "prog", bytes "-l"] (.boot hboot) hload (by decide) (by decide)
  exact ⟨_, m', sp', hlayout⟩

end Munix
