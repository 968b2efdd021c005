import Munix.Lib.Memory

/-!
# Words on a stack

A stack that grows downwards in byte memory, seen as the list of its words from the
top on. A push adds a word to the list and a pop takes one away, and the list is the
same in every memory that agrees on its addresses.

* `OnStack.push` / `OnStack.pop` — the two operations.
* `OnStack.frame` — stores elsewhere leave a stack as it is.
-/

namespace ByteMem

/-- The words `ws` are in memory from `sp` on, the first one at `sp`. -/
def OnStack (m : Mem) : Addr → List (BitVec 32) → Prop
  | _, [] => True
  | sp, w :: ws => load32 m sp = w ∧ OnStack m (sp + 4#32) ws

/-- The `n` words from `sp` on. -/
def stackWords (m : Mem) : Addr → Nat → List (BitVec 32)
  | _, 0 => []
  | sp, n + 1 => load32 m sp :: stackWords m (sp + 4#32) n

@[simp] theorem length_stackWords (m : Mem) (sp : Addr) (n : Nat) : (stackWords m sp n).length = n := by
  induction n generalizing sp with
  | zero => rfl
  | succ n ih => rw [stackWords, List.length_cons, ih]

namespace OnStack

variable {m m' : Mem} {sp : Addr} {ws : List (BitVec 32)}

/-- The word at an index. -/
theorem get (h : OnStack m sp ws) {i : Nat} {w : BitVec 32} (hi : ws[i]? = some w) :
    load32 m (sp + BitVec.ofNat 32 (4 * i)) = w := by
  induction ws generalizing sp i with
  | nil => simp at hi
  | cons v ws ih =>
    cases i with
    | zero =>
      rw [Nat.mul_zero, BitVec.add_zero]
      exact h.1.trans (Option.some.inj hi)
    | succ i =>
      have hoff : sp + BitVec.ofNat 32 (4 * (i + 1)) = sp + 4#32 + BitVec.ofNat 32 (4 * i) := by
        rw [Nat.mul_succ, BitVec.ofNat_add, BitVec.add_assoc, BitVec.add_comm (BitVec.ofNat 32 (4 * i))]
      rw [hoff]
      exact ih h.2 hi

/-- Memory that is the same at the words. -/
theorem congr (h : OnStack m sp ws)
    (heq : ∀ i < 4 * ws.length, m' (sp + BitVec.ofNat 32 i) = m (sp + BitVec.ofNat 32 i)) :
    OnStack m' sp ws := by
  induction ws generalizing sp with
  | nil => trivial
  | cons w ws ih =>
    rw [List.length_cons] at heq
    refine ⟨?_, ih h.2 fun i hi => ?_⟩
    · rw [← h.1]
      refine load32_congr fun i hi => ?_
      have hat := heq i.toNat (by omega)
      rwa [BitVec.ofNat_toNat, BitVec.setWidth_eq] at hat
    · have hat := heq (4 + i) (by omega)
      rwa [BitVec.ofNat_add, ← BitVec.add_assoc] at hat

/-- Stores in `[lo, hi)` leave a stack above or below as it is. -/
theorem frame (h : OnStack m sp ws) {lo hi : Nat} (hs : SameOutside m m' lo hi)
    (hlen : sp.toNat + 4 * ws.length ≤ 2 ^ 32)
    (hout : hi ≤ sp.toNat ∨ sp.toNat + 4 * ws.length ≤ lo) : OnStack m' sp ws := by
  refine h.congr fun i hlt => hs _ ?_
  have hat : (sp + BitVec.ofNat 32 i).toNat = sp.toNat + i := by
    rw [BitVec.toNat_add, BitVec.toNat_ofNat]
    omega
  omega

theorem push (h : OnStack m sp ws) (v : BitVec 32) (hlen : 4 * ws.length + 4 ≤ 2 ^ 32) :
    OnStack (store32 m (sp - 4#32) v) (sp - 4#32) (v :: ws) := by
  refine ⟨load32_store32_same .., ?_⟩
  rw [BitVec.sub_add_cancel]
  refine h.congr fun i hi => store32_outside ?_
  have hoff : sp + BitVec.ofNat 32 i - (sp - 4#32) = BitVec.ofNat 32 (i + 4) := by bv_omega
  rw [hoff, BitVec.toNat_ofNat, Nat.mod_eq_of_lt (by omega)]
  omega

theorem pop {w : BitVec 32} (h : OnStack m sp (w :: ws)) :
    load32 m sp = w ∧ OnStack m (sp + 4#32) ws := h

/-- The words on top. -/
theorem left {vs : List (BitVec 32)} (h : OnStack m sp (vs ++ ws)) : OnStack m sp vs := by
  induction vs generalizing sp with
  | nil => trivial
  | cons v vs ih => exact ⟨h.1, ih h.2⟩

theorem drop (h : OnStack m sp ws) (n : Nat) : OnStack m (sp + BitVec.ofNat 32 (4 * n)) (ws.drop n) := by
  induction n generalizing sp ws with
  | zero => simpa using h
  | succ n ih =>
    cases ws with
    | nil => trivial
    | cons w ws =>
      have hoff : sp + BitVec.ofNat 32 (4 * (n + 1)) = sp + 4#32 + BitVec.ofNat 32 (4 * n) := by
        rw [Nat.mul_succ, BitVec.ofNat_add, BitVec.add_assoc, BitVec.add_comm (BitVec.ofNat 32 (4 * n))]
      rw [hoff, List.drop_succ_cons]
      exact ih h.2

end OnStack

/-- A half word, least significant byte first. -/
def store16 (m : Mem) (a : Addr) (v : BitVec 16) : Mem :=
  store8 (store8 m a (v.extractLsb' 0 8)) (a + 1#32) (v.extractLsb' 8 8)

theorem store16_outside {m : Mem} {a x : Addr} {v : BitVec 16} (h : 2 ≤ (x - a).toNat) :
    store16 m a v x = m x := by
  have h0 : x ≠ a := by rintro rfl; simp at h
  have h1 : x ≠ a + 1#32 := by rintro rfl; bv_omega
  rw [store16, store8_ne h1, store8_ne h0]

/-- The lower half of a word that has been stored. -/
theorem load32_store16 (m : Mem) (a : Addr) (v : BitVec 16) :
    (load32 (store16 m a v) a).setWidth 16 = v := by
  have h0 : store16 m a v a = v.extractLsb' 0 8 := by
    rw [store16, store8_ne (by bv_omega), store8_same]
  have h1 : store16 m a v (a + 1#32) = v.extractLsb' 8 8 := by rw [store16, store8_same]
  apply BitVec.eq_of_getLsbD_eq
  intro i hi
  simp only [load32, h0, h1, BitVec.getLsbD_setWidth, BitVec.getLsbD_append, BitVec.getLsbD_extractLsb']
  by_cases hlow : i < 8
  · simp [hi, hlow]
  · simp [hi, hlow, show i - 8 < 8 by omega, show 8 + (i - 8) = i by omega]

/-- A word below `sp` is stored nowhere else. -/
theorem store32_sameOutside (m : Mem) {a : Addr} (v : BitVec 32) (h : a.toNat + 4 ≤ 2 ^ 32) :
    SameOutside m (store32 m a v) a.toNat (a.toNat + 4) := by
  intro x hx
  refine store32_outside ?_
  bv_omega

/-- Two changes of one range. -/
theorem SameOutside.comp {m m₁ m₂ : Mem} {lo hi : Nat} (h₁ : SameOutside m m₁ lo hi)
    (h₂ : SameOutside m₁ m₂ lo hi) : SameOutside m m₂ lo hi :=
  fun a ha => (h₂ a ha).trans (h₁ a ha)

/-- Words pushed one after the other, the first one first. -/
def pushAll (m : Mem) (sp : Addr) : List (BitVec 32) → Mem × Addr
  | [] => (m, sp)
  | v :: vs => pushAll (store32 m (sp - 4#32) v) (sp - 4#32) vs

theorem pushAll_append (m : Mem) (sp : Addr) (vs ws : List (BitVec 32)) :
    pushAll m sp (vs ++ ws) = pushAll (pushAll m sp vs).1 (pushAll m sp vs).2 ws := by
  induction vs generalizing m sp with
  | nil => rfl
  | cons v vs ih => exact ih ..

theorem pushAll_sp (m : Mem) (sp : Addr) (vs : List (BitVec 32)) :
    (pushAll m sp vs).2 = sp - BitVec.ofNat 32 (4 * vs.length) := by
  induction vs generalizing m sp with
  | nil => simp [pushAll]
  | cons v vs ih =>
    rw [pushAll, ih, List.length_cons, Nat.mul_succ, BitVec.ofNat_add]
    bv_omega

theorem OnStack.pushAll {m : Mem} {sp : Addr} {ws : List (BitVec 32)} (h : OnStack m sp ws)
    (vs : List (BitVec 32)) (hlen : 4 * (ws.length + vs.length) ≤ 2 ^ 32) :
    OnStack (ByteMem.pushAll m sp vs).1 (ByteMem.pushAll m sp vs).2 (vs.reverse ++ ws) := by
  induction vs generalizing m sp ws with
  | nil => exact h
  | cons v vs ih =>
    rw [List.length_cons] at hlen
    rw [ByteMem.pushAll, List.reverse_cons, List.append_assoc]
    exact ih (h.push v (by omega)) (by rw [List.length_append, List.length_singleton]; omega)

/-- Words above the pushes, and below them where the stack goes round. -/
theorem load32_pushAll (m : Mem) {sp off : Addr} {vs : List (BitVec 32)}
    (h : off.toNat + 4 + 4 * vs.length ≤ 2 ^ 32) :
    load32 (pushAll m sp vs).1 (sp + off) = load32 m (sp + off) := by
  induction vs generalizing m sp off with
  | nil => rfl
  | cons v vs ih =>
    rw [List.length_cons] at h
    have hoff : sp + off = sp - 4#32 + (off + 4#32) := by bv_omega
    have hnat : (off + 4#32).toNat = off.toNat + 4 := by bv_omega
    rw [pushAll, hoff, ih _ (by rw [hnat]; omega)]
    refine load32_store32_disjoint ?_ ?_ <;> bv_omega

theorem pushAll_sameOutside (m : Mem) {sp : Addr} {vs : List (BitVec 32)} (h : 4 * vs.length ≤ sp.toNat) :
    SameOutside m (pushAll m sp vs).1 (sp.toNat - 4 * vs.length) sp.toNat := by
  induction vs generalizing m sp with
  | nil => exact SameOutside.refl m _ _
  | cons v vs ih =>
    rw [List.length_cons] at h ⊢
    have hsp : (sp - 4#32).toNat = sp.toNat - 4 := by bv_omega
    have hfirst := store32_sameOutside m (a := sp - 4#32) v (by omega)
    have hrest : SameOutside (store32 m (sp - 4#32) v) (pushAll m sp (v :: vs)).1
        ((sp - 4#32).toNat - 4 * vs.length) (sp - 4#32).toNat := ih _ (by omega)
    rw [hsp] at hfirst hrest
    refine (hfirst.mono (Nat.le_refl _) (by omega)).trans (hrest.mono (by omega) (Nat.le_refl _)) ?_ ?_ <;>
      omega

end ByteMem
