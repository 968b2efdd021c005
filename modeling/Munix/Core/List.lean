import Munix.Lib.LinkRing

/-!
# Munix — intrusive lists

The model of `core/list.h`: circular doubly-linked lists whose links are
embedded in the structs they connect. A node is any value of a type with a
`0`, which is the NULL pointer; the heap says what the two pointers of each
node are. Reads and writes go to the heap in the order of the C statements.

`IsList h head xs` is the abstract reading: the list at `head` holds the nodes
`xs`, in this order. A zero-initialised head is an empty list that has not
been linked to itself yet.
-/

namespace Munix

open LinkHeap

variable {N : Type} [Zero N]

-- ---------------------------------------------------------------------------
-- list.h
-- ---------------------------------------------------------------------------

section Operations

variable [DecidableEq N]

/-- `INIT_LIST_HEAD`. -/
def initListHead (h : LinkHeap N) (list : N) : LinkHeap N := (h.setNext list list).setPrev list list

def listEnsureInit (h : LinkHeap N) (list : N) : LinkHeap N :=
  if (h list).next = 0 then initListHead h list else h

def listEmpty (h : LinkHeap N) (head : N) : Bool := (h head).next = 0 || (h head).next = head

/-- `_list_add(new, a, b)`. -/
def listAddBetween (h : LinkHeap N) (new a b : N) : LinkHeap N := h.insertBetween new a b

def listAdd (h : LinkHeap N) (new head : N) : LinkHeap N :=
  let h := listEnsureInit h head
  listAddBetween h new head (h head).next

def listAddTail (h : LinkHeap N) (new head : N) : LinkHeap N :=
  let h := listEnsureInit h head
  listAddBetween h new (h head).prev head

def listDel (h : LinkHeap N) (item : N) : LinkHeap N :=
  let h := h.setNext (h item).prev (h item).next
  let h := h.setPrev (h item).next (h item).prev
  (h.setNext item 0).setPrev item 0

def listRotateLeft (h : LinkHeap N) (head : N) : LinkHeap N :=
  if listEmpty h head then h
  else
    let first := (h head).next
    listAdd (listDel h head) head first

/-- Returns the first node and the heap, or NULL for an empty list. -/
def listShift (h : LinkHeap N) (head : N) : N × LinkHeap N :=
  if listEmpty h head then (0, h)
  else
    let first := (h head).next
    (first, listDel h first)

end Operations

-- ---------------------------------------------------------------------------
-- Iteration
-- ---------------------------------------------------------------------------

section Iteration

variable {A σ : Type} [DecidableEq A]

/-- The `for` statements the iteration macros expand into, with the cursor at `pos`: `link` is the
address the condition compares with the head, `step` the next cursor. -/
def listLoop (head : A) (link step : A → A) (body : A → σ → σ) : Nat → A → σ → Option σ
  | 0, _, _ => none
  | fuel + 1, pos, s =>
    if link pos = head then some s
    else listLoop head link step body fuel (step pos) (body pos s)

/-- `list_for_each(pos, head)` around `body`. -/
def listForEach (h : LinkHeap A) (head : A) (body : A → σ → σ) (fuel : Nat) (s : σ) : Option σ :=
  listLoop head id (fun pos => (h pos).next) body fuel (h head).next s

variable [AddGroup A]

/-- `container_of(ptr, type, member)`, with the member at offset `member` in the type. -/
def containerOf (ptr member : A) : A := if ptr = 0 then 0 else ptr - member

/-- `list_entry(ptr, type, member)`. -/
def listEntry (ptr member : A) : A := containerOf ptr member

/-- `list_for_each_entry_prev(pos, head, member)` around `body`. -/
def listForEachEntryPrev (h : LinkHeap A) (head member : A) (body : A → σ → σ) (fuel : Nat) (s : σ) :
    Option σ :=
  listLoop head (· + member) (fun pos => listEntry (h (pos + member)).prev member) body fuel
    (listEntry (h head).prev member) s

end Iteration

-- ---------------------------------------------------------------------------
-- What a list holds
-- ---------------------------------------------------------------------------

/-- The list at `head` holds the nodes `xs`. -/
structure IsList (h : LinkHeap N) (head : N) (xs : List N) : Prop where
  nodup   : (head :: xs).Nodup
  nonnull : 0 ∉ head :: xs
  links   : ((h head).next = 0 ∧ xs = []) ∨ LinkRing h (head :: xs)

variable {h h' : LinkHeap N} {head new x : N} {xs xs₁ xs₂ : List N}

namespace IsList

/-- Writes elsewhere do not matter. -/
theorem congr (hl : IsList h head xs) (heq : ∀ n ∈ head :: xs, h' n = h n) : IsList h' head xs where
  nodup := hl.nodup
  nonnull := hl.nonnull
  links := hl.links.imp (fun h0 => by rwa [heq head List.mem_cons_self]) fun hr => hr.congr heq

theorem head_ne (hl : IsList h head xs) : head ≠ 0 := fun h0 => hl.nonnull (by simp [h0])

theorem ring_of_ne_nil (hl : IsList h head xs) (hxs : xs ≠ []) : LinkRing h (head :: xs) :=
  hl.links.resolve_left fun h0 => hxs h0.2

/-- The first node of a non-empty list. -/
theorem next_eq (hl : IsList h head (x :: xs)) : (h head).next = x :=
  (hl.ring_of_ne_nil (by simp)).next_eq

/-- A linked head points back to itself when the list is empty. -/
theorem next_eq_of_nil (hl : IsList h head []) : (h head).next = 0 ∨ (h head).next = head :=
  hl.links.imp And.left fun hr => (LinkRing.singleton_iff.mp hr).1

/-- The nodes of a list are linked. -/
theorem linked (hl : IsList h head xs) (hx : x ∈ xs) : (h x).next ≠ 0 ∧ (h x).prev ≠ 0 := by
  obtain ⟨xs₁, xs₂, rfl⟩ := List.append_of_mem hx
  have hr := hl.ring_of_ne_nil (by simp)
  rw [← List.cons_append] at hr
  have hrot : LinkRing h (x :: (xs₂ ++ head :: xs₁)) := hr.rotate
  have hmem : ∀ n ∈ x :: (xs₂ ++ head :: xs₁), n ≠ 0 := by
    rintro n hn rfl
    apply hl.nonnull
    simp only [List.mem_cons, List.mem_append] at hn ⊢
    grind
  refine ⟨hmem _ hrot.next_mem, ?_⟩
  rw [hrot.prev_eq]
  exact hmem _ (List.getLast_mem _)

/-- What a list holds is determined by the links. -/
theorem unique {ys : List N} (hl : IsList h head xs) (hl' : IsList h head ys) : xs = ys := by
  rcases hl.links with ⟨h0, rfl⟩ | hr
  · cases ys with
    | nil => rfl
    | cons y ys => exact absurd (hl'.next_eq.symm.trans h0) fun hy => hl'.nonnull (by simp [hy])
  · rcases hl'.links with ⟨h0, rfl⟩ | hr'
    · cases xs with
      | nil => rfl
      | cons x xs => exact absurd (hl.next_eq.symm.trans h0) fun hx => hl.nonnull (by simp [hx])
    · exact hr.unique hr' (List.nodup_cons.mp hl.nodup).1 (List.nodup_cons.mp hl'.nodup).1

theorem nodup_tail (hl : IsList h head xs) : xs.Nodup := (List.nodup_cons.mp hl.nodup).2

end IsList

-- ---------------------------------------------------------------------------
-- What the operations do to it
-- ---------------------------------------------------------------------------

variable [DecidableEq N]

theorem listEnsureInit_ring (hl : IsList h head xs) : LinkRing (listEnsureInit h head) (head :: xs) := by
  unfold listEnsureInit
  split
  · rename_i h0
    obtain rfl : xs = [] := by
      rcases hl.links with ⟨-, hx⟩ | hr
      · exact hx
      · have := hr.next_mem
        rw [h0] at this
        exact absurd this hl.nonnull
    rw [LinkRing.singleton_iff]
    simp [initListHead]
  · rename_i h0
    exact hl.links.resolve_left fun h => h0 h.1

theorem listEnsureInit_of_ne (hx : x ≠ head) : listEnsureInit h head x = h x := by
  unfold listEnsureInit
  split
  · rw [initListHead, setPrev_of_ne _ hx, setNext_of_ne _ hx]
  · rfl

/-- `list_add` puts the node at the front. -/
theorem listAdd_isList (hl : IsList h head xs) (hnew : new ∉ head :: xs) (h0 : new ≠ 0) :
    IsList (listAdd h new head) head (new :: xs) where
  nodup := by
    have := hl.nodup
    simp only [List.nodup_cons, List.mem_cons, not_or] at this hnew ⊢
    exact ⟨⟨Ne.symm hnew.1, this.1⟩, hnew.2, this.2⟩
  nonnull := by
    have := hl.nonnull
    simp only [List.mem_cons, not_or] at this ⊢
    exact ⟨this.1, Ne.symm h0, this.2⟩
  links := .inr ((listEnsureInit_ring hl).insert hl.nodup hnew)

/-- `list_add_tail` puts the node at the back. -/
theorem listAddTail_isList (hl : IsList h head xs) (hnew : new ∉ head :: xs) (h0 : new ≠ 0) :
    IsList (listAddTail h new head) head (xs ++ [new]) where
  nodup := by
    rw [← List.cons_append, List.nodup_append]
    refine ⟨hl.nodup, by simp, ?_⟩
    intro a ha b hb
    rw [List.mem_singleton.mp hb]
    rintro rfl
    exact hnew ha
  nonnull := by
    rw [← List.cons_append, List.mem_append, not_or]
    exact ⟨hl.nonnull, by simpa using Ne.symm h0⟩
  links := by
    right
    have hr := listEnsureInit_ring hl
    -- turn the ring so that the last node comes first
    have hsplit := List.dropLast_append_getLast (l := head :: xs) (by simp)
    set last := (head :: xs).getLast (by simp) with hlast
    have hr' : LinkRing (listEnsureInit h head) (last :: (head :: xs).dropLast) := by
      rw [← hsplit] at hr
      exact hr.rotate
    have hnd : (last :: (head :: xs).dropLast).Nodup := by
      have := hl.nodup
      rw [← hsplit] at this
      exact (List.nodup_append_comm.mp this)
    have hmem : new ∉ last :: (head :: xs).dropLast := by
      intro hm
      apply hnew
      rw [← hsplit, List.mem_append]
      simpa [or_comm] using hm
    have hins := hr'.insert hnd hmem
    have hnext : (listEnsureInit h head last).next = head := by
      cases xs with
      | nil => exact (LinkRing.singleton_iff.mp hr).1
      | cons y ys =>
        rw [List.dropLast_cons_of_ne_nil (by simp)] at hr'
        exact hr'.next_eq
    have hprev : (listEnsureInit h head head).prev = last := hr.prev_eq
    rw [hnext, ← hprev] at hins
    have hrot := @LinkRing.rotate _ _ [(listEnsureInit h head head).prev, new] _ hins
    rw [hprev, show (head :: xs).dropLast ++ [last, new] = head :: (xs ++ [new]) by
      rw [← List.cons_append, ← hsplit]
      simp] at hrot
    rw [← hprev] at hrot
    exact hrot

theorem listDel_eq (h : LinkHeap N) (item : N) :
    listDel h item = (((h.bypass item).setNext item 0).setPrev item 0) := by
  unfold listDel bypass
  by_cases hself : (h item).prev = item
  · simp [hself]
  · simp [Ne.symm hself]

/-- `list_del` takes the node out and clears its pointers. -/
theorem listDel_self (h : LinkHeap N) (item : N) : listDel h item item = ⟨0, 0⟩ := by
  rw [listDel_eq]
  simp [setNext, setPrev]

theorem listDel_isList (hl : IsList h head (xs₁ ++ x :: xs₂)) :
    IsList (listDel h x) head (xs₁ ++ xs₂) := by
  have hx : x ∉ head :: (xs₁ ++ xs₂) := by
    have := hl.nodup
    simp only [List.nodup_cons, List.mem_append, List.mem_cons, List.nodup_append] at this ⊢
    grind
  refine ⟨hl.nodup.sublist (by simp), fun h0 => hl.nonnull ?_, .inr ?_⟩
  · simp only [List.mem_cons, List.mem_append] at h0 ⊢
    grind
  · have hr := hl.ring_of_ne_nil (by simp)
    rw [← List.cons_append] at hr
    have hnd := hl.nodup
    rw [← List.cons_append] at hnd
    have hout : LinkRing (h.bypass x) (xs₂ ++ head :: xs₁) :=
      hr.rotate.unlink (List.nodup_append_comm.mp hnd)
    have hout' : LinkRing (h.bypass x) (head :: (xs₁ ++ xs₂)) := hout.rotate
    refine hout'.congr fun n hn => ?_
    have hnx : n ≠ x := fun heq => hx (heq ▸ hn)
    rw [listDel_eq, setPrev_of_ne _ hnx, setNext_of_ne _ hnx]

-- ---------------------------------------------------------------------------
-- What they leave alone
-- ---------------------------------------------------------------------------

theorem listAdd_frame (hl : IsList h head xs) (hx : x ∉ new :: head :: xs) :
    listAdd h new head x = h x := by
  simp only [List.mem_cons, not_or] at hx
  have hmem := (listEnsureInit_ring hl).next_mem
  rw [listAdd, listAddBetween, insertBetween_of_ne _ hx.1 hx.2.1, listEnsureInit_of_ne hx.2.1]
  intro heq
  rw [← heq] at hmem
  simp [hx.2] at hmem

theorem listAddTail_frame (hl : IsList h head xs) (hx : x ∉ new :: head :: xs) :
    listAddTail h new head x = h x := by
  simp only [List.mem_cons, not_or] at hx
  have hprev := (listEnsureInit_ring hl).prev_eq
  rw [listAddTail, listAddBetween, insertBetween_of_ne _ hx.1 _ hx.2.1, listEnsureInit_of_ne hx.2.1]
  rw [hprev]
  intro heq
  have hmem := List.getLast_mem (l := head :: xs) (by simp)
  rw [← heq] at hmem
  simp [hx.2] at hmem

/-- A node taken out of a ring leaves what is outside alone. -/
theorem listDel_frame_ring {item n : N} (hr : LinkRing h (item :: xs)) (hn : n ∉ item :: xs) :
    listDel h item n = h n := by
  have hne : ∀ m ∈ item :: xs, n ≠ m := fun m hm heq => hn (heq ▸ hm)
  have hprev : n ≠ (h item).prev := by
    rw [hr.prev_eq]
    exact hne _ (List.getLast_mem _)
  have hitem := hne item List.mem_cons_self
  rw [listDel_eq, setPrev_of_ne _ hitem, setNext_of_ne _ hitem, bypass,
    setPrev_of_ne _ (hne _ hr.next_mem), setNext_of_ne _ hprev]

theorem listDel_frame {item : N} (hl : IsList h head xs) (hitem : item ∈ xs) (hx : x ∉ head :: xs) :
    listDel h item x = h x := by
  obtain ⟨xs₁, xs₂, rfl⟩ := List.append_of_mem hitem
  have hr := hl.ring_of_ne_nil (by simp)
  rw [← List.cons_append] at hr
  have hrot : LinkRing h (item :: (xs₂ ++ head :: xs₁)) := hr.rotate
  refine listDel_frame_ring hrot fun hn => hx ?_
  simp only [List.mem_cons, List.mem_append] at hn ⊢
  grind

end Munix
