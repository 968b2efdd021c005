import Mathlib.Data.List.Chain
import Mathlib.Data.List.Nodup
import Mathlib.Tactic

/-!
# Rings of linked nodes

A heap that gives every node a `next` and a `prev` pointer, and the rings that
live in it: `LinkRing h l` says that the nodes of `l` are linked both ways in this
order, with the last one linked back to the first. A ring has no first node
(`LinkRing.rotate`); a node can be inserted after any of its nodes
(`LinkRing.insert`) and any node of a larger ring can be taken out
(`LinkRing.unlink`). Rings that a write does not touch stay rings (`LinkRing.congr`).
-/

/-- The two pointers of a node. -/
structure Links (N : Type*) where
  next : N
  prev : N
deriving DecidableEq

abbrev LinkHeap (N : Type*) := N → Links N

namespace LinkHeap

variable {N : Type*} [DecidableEq N]

def setNext (h : LinkHeap N) (a b : N) : LinkHeap N := Function.update h a { h a with next := b }

def setPrev (h : LinkHeap N) (a b : N) : LinkHeap N := Function.update h a { h a with prev := b }

@[simp]
theorem setNext_next (h : LinkHeap N) (a b x : N) :
    (h.setNext a b x).next = if x = a then b else (h x).next := by
  unfold setNext
  by_cases hx : x = a <;> simp [hx]

@[simp]
theorem setNext_prev (h : LinkHeap N) (a b x : N) : (h.setNext a b x).prev = (h x).prev := by
  unfold setNext
  by_cases hx : x = a <;> simp [hx]

@[simp]
theorem setPrev_prev (h : LinkHeap N) (a b x : N) :
    (h.setPrev a b x).prev = if x = a then b else (h x).prev := by
  unfold setPrev
  by_cases hx : x = a <;> simp [hx]

@[simp]
theorem setPrev_next (h : LinkHeap N) (a b x : N) : (h.setPrev a b x).next = (h x).next := by
  unfold setPrev
  by_cases hx : x = a <;> simp [hx]

theorem setNext_of_ne (h : LinkHeap N) {a b x : N} (hx : x ≠ a) : h.setNext a b x = h x := by
  simp [setNext, hx]

theorem setPrev_of_ne (h : LinkHeap N) {a b x : N} (hx : x ≠ a) : h.setPrev a b x = h x := by
  simp [setPrev, hx]

/-- The writes that link `new` in between `a` and `b`. -/
def insertBetween (h : LinkHeap N) (new a b : N) : LinkHeap N :=
  (((h.setNext a new).setPrev new a).setNext new b).setPrev b new

theorem insertBetween_of_ne (h : LinkHeap N) {new a b x : N} (hn : x ≠ new) (ha : x ≠ a)
    (hb : x ≠ b) : h.insertBetween new a b x = h x := by
  rw [insertBetween, setPrev_of_ne _ hb, setNext_of_ne _ hn, setPrev_of_ne _ hn, setNext_of_ne _ ha]

/-- The writes that link the neighbours of `x` to each other. -/
def bypass (h : LinkHeap N) (x : N) : LinkHeap N :=
  (h.setNext (h x).prev (h x).next).setPrev (h x).next (h x).prev

end LinkHeap

open LinkHeap

variable {N : Type*}

/-- `a` is followed by `b`. -/
def Follows (h : LinkHeap N) (a b : N) : Prop := (h a).next = b ∧ (h b).prev = a

/-- The nodes of the list are linked in this order, and the last to the first. -/
def LinkRing (h : LinkHeap N) : List N → Prop
  | [] => True
  | a :: l => (a :: l ++ [a]).IsChain (Follows h)

/-- Links that are not written to stay. -/
theorem isChain_follows_congr {h h' : LinkHeap N} {l : List N} (hl : l.IsChain (Follows h))
    (hn : ∀ x ∈ l.dropLast, (h' x).next = (h x).next) (hp : ∀ y ∈ l.tail, (h' y).prev = (h y).prev) :
    l.IsChain (Follows h') := by
  induction l with
  | nil => exact .nil
  | cons a l ih =>
    cases l with
    | nil => exact .singleton a
    | cons b l =>
      rw [List.isChain_cons_cons] at hl ⊢
      refine ⟨⟨?_, ?_⟩, ih hl.2 ?_ ?_⟩
      · rw [hn a (by simp), hl.1.1]
      · rw [hp b (by simp), hl.1.2]
      · exact fun x hx => hn x (by simp [List.dropLast_cons_of_ne_nil, hx])
      · exact fun y hy => hp y (by simpa using .inr hy)

namespace LinkRing

variable {h h' : LinkHeap N} {a b x new : N} {l l₁ l₂ : List N}

theorem congr (hr : LinkRing h l) (heq : ∀ x ∈ l, h' x = h x) : LinkRing h' l := by
  cases l with
  | nil => trivial
  | cons a l =>
    refine isChain_follows_congr hr ?_ ?_
    · intro x hx
      rw [List.dropLast_concat] at hx
      rw [heq x hx]
    · intro y hy
      rw [heq y]
      simp only [List.cons_append, List.tail_cons, List.mem_append, List.mem_singleton] at hy
      rcases hy with hy | rfl
      · exact List.mem_cons_of_mem _ hy
      · exact List.mem_cons_self

theorem rotate (hr : LinkRing h (l₁ ++ l₂)) : LinkRing h (l₂ ++ l₁) := by
  cases l₁ with
  | nil => simpa using hr
  | cons a l₁ =>
    cases l₂ with
    | nil => simpa using hr
    | cons b l₂ =>
      simp only [LinkRing, List.cons_append, List.append_assoc] at hr ⊢
      rw [List.isChain_cons_split] at hr ⊢
      exact ⟨hr.2, hr.1⟩

theorem next_eq (hr : LinkRing h (a :: b :: l)) : (h a).next = b := by
  have := List.isChain_cons_cons.mp hr
  exact this.1.1

/-- A lone node is linked to itself. -/
theorem singleton_iff : LinkRing h [a] ↔ (h a).next = a ∧ (h a).prev = a :=
  List.isChain_pair

theorem next_mem (hr : LinkRing h (a :: l)) : (h a).next ∈ a :: l := by
  cases l with
  | nil => simp [(singleton_iff.mp hr).1]
  | cons b l => simp [next_eq hr]

theorem prev_eq (hr : LinkRing h (a :: l)) : (h a).prev = (a :: l).getLast (by simp) := by
  have hr' := hr
  rw [← List.dropLast_append_getLast (l := a :: l) (by simp)] at hr'
  have hrot := rotate hr'
  have hch : (((a :: l).getLast (by simp)) :: (a :: l).dropLast ++ [(a :: l).getLast (by simp)]).IsChain
      (Follows h) := hrot
  cases l with
  | nil => exact (singleton_iff.mp hr).2
  | cons b l =>
    rw [List.dropLast_cons_of_ne_nil (by simp)] at hch
    exact (List.isChain_cons_cons.mp hch).1.2

/-- Two chains with the same links and the same end. -/
theorem chain_unique {z : N} {m : List N} (hl : (a :: l ++ [z]).IsChain (Follows h))
    (hm : (a :: m ++ [z]).IsChain (Follows h)) (hzl : z ∉ l) (hzm : z ∉ m) : l = m := by
  induction l generalizing a m with
  | nil =>
    cases m with
    | nil => rfl
    | cons b m =>
      have hz : (h a).next = z := (List.isChain_cons_cons.mp hl).1.1
      have hb : (h a).next = b := (List.isChain_cons_cons.mp hm).1.1
      exact absurd (by simp [← hb, hz]) hzm
  | cons b l ih =>
    obtain ⟨hb, hl⟩ := List.isChain_cons_cons.mp hl
    rw [List.mem_cons, not_or] at hzl
    cases m with
    | nil =>
      have hz : (h a).next = z := (List.isChain_cons_cons.mp hm).1.1
      exact absurd (hz.symm.trans hb.1) hzl.1
    | cons b' m =>
      obtain ⟨hb', hm⟩ := List.isChain_cons_cons.mp hm
      rw [List.mem_cons, not_or] at hzm
      obtain rfl : b = b' := hb.1.symm.trans hb'.1
      rw [ih hl hm hzl.2 hzm.2]

theorem unique {m : List N} (hl : LinkRing h (a :: l)) (hm : LinkRing h (a :: m)) (hal : a ∉ l)
    (ham : a ∉ m) : l = m :=
  chain_unique hl hm hal ham

variable [DecidableEq N]

/-- Insertion after `a`. -/
theorem insert (hr : LinkRing h (a :: l)) (hnd : (a :: l).Nodup) (hnew : new ∉ a :: l) :
    LinkRing (h.insertBetween new a (h a).next) (a :: new :: l) := by
  have hna : new ≠ a := fun h => hnew (h ▸ List.mem_cons_self)
  cases l with
  | nil =>
    obtain ⟨hn, -⟩ := singleton_iff.mp hr
    rw [hn]
    simp only [LinkRing, List.cons_append, List.nil_append, List.isChain_cons_cons, Follows]
    simp [insertBetween, hna, hna.symm]
  | cons b l =>
    have hnb : new ≠ b := fun h => hnew (by simp [h])
    have hab : a ≠ b := by
      rintro rfl
      simp at hnd
    rw [next_eq hr]
    have hrest : (b :: l ++ [a]).IsChain (Follows h) := (List.isChain_cons_cons.mp hr).2
    refine List.isChain_cons_cons.mpr ⟨?_, List.isChain_cons_cons.mpr ⟨?_, ?_⟩⟩
    · simp [Follows, insertBetween, hna.symm, hnb]
    · simp [Follows, insertBetween]
    · change (b :: l ++ [a]).IsChain _
      refine isChain_follows_congr hrest ?_ ?_
      · intro x hx
        rw [List.dropLast_concat] at hx
        have hxa : x ≠ a := by
          rintro rfl
          exact (List.nodup_cons.mp hnd).1 hx
        have hxn : x ≠ new := by
          rintro rfl
          exact hnew (List.mem_cons_of_mem _ hx)
        simp [insertBetween, hxa, hxn]
      · intro y hy
        have hy' : y ∈ l ∨ y = a := by simpa using hy
        have hyb : y ≠ b := by
          rintro rfl
          rcases hy' with hy' | rfl
          · exact (List.nodup_cons.mp (List.nodup_cons.mp hnd).2).1 hy'
          · exact hab rfl
        have hyn : y ≠ new := by
          rintro rfl
          rcases hy' with hy' | rfl
          · exact hnew (by simp [hy'])
          · exact hna rfl
        simp [insertBetween, hyb, hyn]

/-- Taking a node out. -/
theorem unlink (hr : LinkRing h (x :: l)) (hnd : (x :: l).Nodup) : LinkRing (h.bypass x) l := by
  cases l with
  | nil => trivial
  | cons b l =>
    have hn := next_eq hr
    have hp := prev_eq hr
    have hbx : b ≠ x := by
      rintro rfl
      simp at hnd
    cases hl : l.reverse with
    | nil =>
      -- two nodes: the other one is left alone
      obtain rfl : l = [] := by simpa using hl
      simp only [List.getLast_cons_cons, List.getLast_singleton] at hp
      rw [singleton_iff]
      simp [bypass, hn, hp]
    | cons c m =>
      obtain rfl : l = m.reverse ++ [c] := by
        rw [← List.reverse_reverse l, hl]
        simp
      have hlast : (x :: b :: (m.reverse ++ [c])).getLast (by simp) = c := by simp
      rw [hlast] at hp
      have hcx : c ≠ x := by
        rintro rfl
        simp at hnd
      have hbc : b ≠ c := by
        rintro rfl
        simp at hnd
      have hrest : (b :: (m.reverse ++ [c]) ++ [x]).IsChain (Follows h) :=
        (List.isChain_cons_cons.mp hr).2
      rw [show b :: (m.reverse ++ [c]) ++ [x] = (b :: m.reverse) ++ c :: [x] by simp,
        List.isChain_split] at hrest
      have hkeep : ((b :: m.reverse) ++ [c]).IsChain (Follows (h.bypass x)) := by
        refine isChain_follows_congr hrest.1 ?_ ?_
        · intro y hy
          rw [List.dropLast_concat] at hy
          have hyc : y ≠ c := by
            rintro rfl
            have := List.nodup_cons.mp hnd
            simp only [← List.cons_append] at this
            exact (List.disjoint_of_nodup_append this.2) hy (by simp)
          simp [bypass, hp, hn, hyc]
        · intro y hy
          have hyb : y ≠ b := by
            rintro rfl
            exact (List.nodup_cons.mp (List.nodup_cons.mp hnd).2).1 (by simpa using hy)
          simp [bypass, hn, hp, hyb]
      change ((b :: (m.reverse ++ [c])) ++ [b]).IsChain _
      rw [show b :: (m.reverse ++ [c]) ++ [b] = (b :: m.reverse) ++ c :: [b] by simp,
        List.isChain_split]
      refine ⟨hkeep, List.isChain_pair.mpr ?_⟩
      simp [Follows, bypass, hn, hp]

end LinkRing
