import Mathlib.Data.BitVec
import Munix.Core.List

/-!
# Munix — intrusive lists are sequences

What the operations of `core/list.h` do when several lists live in one heap.
`Lists h L` says that the heap holds the lists of `L`, which gives the nodes of the
list at each head: every one of them is linked both ways, or its head is still
zero, and no node is in two of them. Each operation changes one list, as the
operation on sequences does, and the others hold what they held:

* `listsHold_add`, `listsHold_addTail`, `listsHold_del`, `listsHold_rotateLeft` — what
  one operation does to the whole family, from what it does to one list and what it
  leaves alone;
* `listLoop_visits` — the iteration macros visit what the cursor runs over;
* **`list_sequence_laws`** — all operations, for every heap that holds a family of
  disjoint lists.
-/

namespace Munix

open LinkHeap

-- ---------------------------------------------------------------------------
-- A family of lists
-- ---------------------------------------------------------------------------

/-- The nodes of the list at each head; `none` for what is not a head. -/
abbrev ListFamily (N : Type) := N → Option (List N)

section Family

variable {N : Type}

/-- The node is neither the head nor a node of any list. -/
def ListFamily.Free (L : ListFamily N) (n : N) : Prop := ∀ head xs, L head = some xs → n ∉ head :: xs

/-- The family with other nodes at one head. -/
def ListFamily.put [DecidableEq N] (L : ListFamily N) (head : N) (xs : List N) : ListFamily N :=
  Function.update L head (some xs)

@[simp]
theorem ListFamily.put_self [DecidableEq N] (L : ListFamily N) (head : N) (xs : List N) :
    L.put head xs head = some xs := by
  simp [ListFamily.put]

theorem ListFamily.put_of_ne [DecidableEq N] (L : ListFamily N) {head head' : N} (xs : List N)
    (hne : head' ≠ head) : L.put head xs head' = L head' := by
  simp [ListFamily.put, hne]

variable [Zero N]

/-- The heap holds the lists of the family, and no two of them share a node. -/
structure Lists (h : LinkHeap N) (L : ListFamily N) : Prop where
  isList   : ∀ {head xs}, L head = some xs → IsList h head xs
  disjoint : ∀ {head xs head' xs'}, L head = some xs → L head' = some xs' → head ≠ head' →
    List.Disjoint (head :: xs) (head' :: xs')

variable [DecidableEq N]

variable {h h' : LinkHeap N} {L : ListFamily N} {head new x : N} {xs xs' xs₁ xs₂ : List N}

/-- A change to one list: the new one is a list, made of old nodes of this list and of free ones,
and no other node has changed. -/
theorem Lists.put (hL : Lists h L) (hhead : L head = some xs) (hl : IsList h' head xs')
    (hnew : ∀ n ∈ xs', n ∈ xs ∨ L.Free n)
    (hframe : ∀ n, n ∉ head :: xs → n ∉ xs' → h' n = h n) : Lists h' (L.put head xs') := by
  -- the nodes of the new list are in no other one
  have hout : ∀ {head₂ xs₂}, head₂ ≠ head → L head₂ = some xs₂ →
      List.Disjoint (head :: xs') (head₂ :: xs₂) := by
    intro head₂ xs₂ hne h₂ n hn hn₂
    have hdis := hL.disjoint hhead h₂ (Ne.symm hne)
    rcases List.mem_cons.mp hn with rfl | hn
    · exact hdis List.mem_cons_self hn₂
    · rcases hnew n hn with hold | hfree
      · exact hdis (List.mem_cons_of_mem _ hold) hn₂
      · exact hfree head₂ xs₂ h₂ hn₂
  constructor
  · intro head₂ xs₂ h₂
    by_cases hne : head₂ = head
    · subst hne
      obtain rfl : xs' = xs₂ := by simpa using h₂
      exact hl
    · rw [L.put_of_ne _ hne] at h₂
      refine (hL.isList h₂).congr fun n hn => hframe n ?_ ?_
      · exact fun hn' => hL.disjoint hhead h₂ (Ne.symm hne) hn' hn
      · exact fun hn' => hout hne h₂ (List.mem_cons_of_mem _ hn') hn
  · intro head₁ xs₁ head₂ xs₂ h₁ h₂ hne
    by_cases hne₁ : head₁ = head
    · subst hne₁
      obtain rfl : xs' = xs₁ := by simpa using h₁
      rw [L.put_of_ne _ (Ne.symm hne)] at h₂
      exact hout (Ne.symm hne) h₂
    · rw [L.put_of_ne _ hne₁] at h₁
      by_cases hne₂ : head₂ = head
      · subst hne₂
        obtain rfl : xs' = xs₂ := by simpa using h₂
        exact (hout hne₁ h₁).symm
      · rw [L.put_of_ne _ hne₂] at h₂
        exact hL.disjoint h₁ h₂ hne

-- ---------------------------------------------------------------------------
-- One operation, all lists
-- ---------------------------------------------------------------------------

theorem listsHold_add (hL : Lists h L) (hhead : L head = some xs) (hfree : L.Free new) (h0 : new ≠ 0) :
    Lists (listAdd h new head) (L.put head (new :: xs)) := by
  have hl := hL.isList hhead
  refine hL.put hhead (listAdd_isList hl (hfree head xs hhead) h0) ?_ ?_
  · intro n hn
    rcases List.mem_cons.mp hn with rfl | hn
    · exact .inr hfree
    · exact .inl hn
  · intro n hn hn'
    exact listAdd_frame hl (by grind)

theorem listsHold_addTail (hL : Lists h L) (hhead : L head = some xs) (hfree : L.Free new)
    (h0 : new ≠ 0) : Lists (listAddTail h new head) (L.put head (xs ++ [new])) := by
  have hl := hL.isList hhead
  refine hL.put hhead (listAddTail_isList hl (hfree head xs hhead) h0) ?_ ?_
  · intro n hn
    rcases List.mem_append.mp hn with hn | hn
    · exact .inl hn
    · exact .inr (List.mem_singleton.mp hn ▸ hfree)
  · intro n hn hn'
    exact listAddTail_frame hl (by grind)

theorem listsHold_del (hL : Lists h L) (hhead : L head = some (xs₁ ++ x :: xs₂)) :
    Lists (listDel h x) (L.put head (xs₁ ++ xs₂)) := by
  have hl := hL.isList hhead
  refine hL.put hhead (listDel_isList hl) (fun n hn => .inl ?_) ?_
  · exact ((List.sublist_cons_self x xs₂).append_left xs₁).mem hn
  · intro n hn _
    exact listDel_frame hl (by simp) hn

theorem listEmpty_iff (hl : IsList h head xs) : listEmpty h head = true ↔ xs = [] := by
  constructor
  · intro he
    cases xs with
    | nil => rfl
    | cons x xs =>
      -- the first node is neither NULL nor the head
      have hne : x ≠ head := fun hx => by simpa [hx] using hl.nodup
      have h0 : x ≠ 0 := fun hx => hl.nonnull (by simp [hx])
      simp [listEmpty, hl.next_eq, h0, hne] at he
  · rintro rfl
    simpa [listEmpty] using hl.next_eq_of_nil

/-- Without its head, the first node is the head of a list of the others. -/
theorem IsList.without_head (hl : IsList h head (x :: xs)) : IsList (listDel h head) x xs := by
  have hnd := hl.nodup
  refine ⟨hl.nodup_tail, fun h0 => hl.nonnull (List.mem_cons_of_mem _ h0), .inr ?_⟩
  refine ((hl.ring_of_ne_nil (by simp)).unlink hnd).congr fun n hn => ?_
  have hne : n ≠ head := fun heq => (List.nodup_cons.mp hnd).1 (heq ▸ hn)
  rw [listDel_eq, setPrev_of_ne _ hne, setNext_of_ne _ hne]

theorem listEmpty_cons (hl : IsList h head (x :: xs)) : listEmpty h head = false := by
  simpa using (listEmpty_iff hl).not.mpr (List.cons_ne_nil x xs)

/-- Rotation takes the head out of its own list and puts it back behind the first node. -/
theorem listRotateLeft_isList (hl : IsList h head xs) :
    IsList (listRotateLeft h head) head (xs.rotate 1) := by
  cases xs with
  | nil => simpa [listRotateLeft, (listEmpty_iff hl).mpr rfl] using hl
  | cons x xs =>
    have hnd := hl.nodup
    have hnn := hl.nonnull
    have hback := listAdd_isList hl.without_head (List.nodup_cons.mp hnd).1 hl.head_ne
    have hperm : (head :: (xs ++ [x])).Perm (head :: x :: xs) := by
      exact (List.perm_append_singleton x xs).cons head
    simp only [listRotateLeft, listEmpty_cons hl, hl.next_eq, List.rotate_cons_succ, List.rotate_zero]
    refine ⟨hperm.nodup_iff.mpr hnd, fun h0 => hnn (hperm.mem_iff.mp h0), .inr ?_⟩
    have hring : LinkRing (listAdd (listDel h head) head x) ([x] ++ head :: xs) :=
      hback.ring_of_ne_nil (by simp)
    exact hring.rotate

theorem listsHold_rotateLeft (hL : Lists h L) (hhead : L head = some xs) :
    Lists (listRotateLeft h head) (L.put head (xs.rotate 1)) := by
  have hl := hL.isList hhead
  refine hL.put hhead (listRotateLeft_isList hl) (fun n hn => .inl (List.mem_rotate.mp hn)) ?_
  intro n hn _
  cases xs with
  | nil => simp [listRotateLeft, (listEmpty_iff hl).mpr rfl]
  | cons x xs =>
    have hr := hl.ring_of_ne_nil (by simp)
    simp only [listRotateLeft, listEmpty_cons hl, Bool.false_eq_true, if_false, hl.next_eq]
    rw [listAdd_frame hl.without_head (by grind), listDel_frame_ring hr hn]

/-- What `list_shift` returns, and what it leaves. -/
theorem listShift_cons (hl : IsList h head (x :: xs)) : listShift h head = (x, listDel h x) := by
  simp [listShift, listEmpty_cons hl, hl.next_eq]

theorem listShift_nil (hl : IsList h head []) : listShift h head = (0, h) := by
  simp [listShift, (listEmpty_iff hl).mpr rfl]

end Family

-- ---------------------------------------------------------------------------
-- Iteration
-- ---------------------------------------------------------------------------

section Iteration

variable {A σ : Type} [DecidableEq A] {head : A} {link step : A → A} {body : A → σ → σ}

/-- The loop visits the cursors up to the first one that is linked to the head. -/
theorem listLoop_visits {cs : List A} {stop pos : A} {fuel : Nat} {s : σ}
    (hpos : (cs ++ [stop]).head? = some pos) (hstep : (cs ++ [stop]).IsChain fun a b => step a = b)
    (hne : ∀ c ∈ cs, link c ≠ head) (hstop : link stop = head) (hfuel : cs.length < fuel) :
    listLoop head link step body fuel pos s = some (cs.foldl (fun s c => body c s) s) := by
  induction cs generalizing pos fuel s with
  | nil =>
    obtain ⟨fuel, rfl⟩ := Nat.exists_eq_succ_of_ne_zero (Nat.ne_of_gt hfuel)
    obtain rfl : stop = pos := by simpa using hpos
    simp [listLoop, hstop]
  | cons c cs ih =>
    obtain ⟨fuel, rfl⟩ := Nat.exists_eq_succ_of_ne_zero (Nat.ne_zero_of_lt hfuel)
    obtain rfl : c = pos := by simpa using hpos
    have hnext : (cs ++ [stop]).head? = some (step c) := by
      cases cs with
      | nil => simpa using (List.isChain_pair.mp hstep).symm
      | cons d cs => simpa using (List.isChain_cons_cons.mp hstep).1.symm
    rw [listLoop, if_neg (hne c List.mem_cons_self), List.foldl_cons]
    exact ih hnext hstep.tail (fun d hd => hne d (List.mem_cons_of_mem _ hd))
      (Nat.lt_of_succ_lt_succ hfuel)

/-- Forwards: the nodes in order. -/
theorem listForEach_visits {h : LinkHeap A} {xs : List A} {fuel : Nat} (s : σ)
    (hr : LinkRing h (head :: xs)) (hhead : head ∉ xs) (hfuel : xs.length < fuel) :
    listForEach h head body fuel s = some (xs.foldl (fun s n => body n s) s) := by
  have hch : (head :: (xs ++ [head])).IsChain (Follows h) := hr
  refine listLoop_visits ?_ (hch.tail.imp fun _ _ hf => hf.1) ?_ rfl hfuel
  · cases xs with
    | nil => simpa using (LinkRing.singleton_iff.mp hr).1.symm
    | cons x xs => simpa using hr.next_eq.symm
  · exact fun n hn heq => hhead (heq ▸ hn)

variable [AddGroup A]

theorem listEntry_add {n : A} (hn : n ≠ 0) (member : A) : listEntry n member + member = n := by
  rw [listEntry, containerOf, if_neg hn, sub_add_cancel]

/-- Backwards: the entries of the nodes in reverse order. -/
theorem listForEachEntryPrev_visits {h : LinkHeap A} {xs : List A} {fuel : Nat} (member : A) (s : σ)
    (hr : LinkRing h (head :: xs)) (hhead : head ∉ xs) (hnull : 0 ∉ head :: xs)
    (hfuel : xs.length < fuel) :
    listForEachEntryPrev h head member body fuel s =
      some (xs.reverse.foldl (fun s n => body (listEntry n member) s) s) := by
  have hch : (head :: (xs.reverse ++ [head])).IsChain fun a b => Follows h b a := by
    have : (head :: (xs ++ [head])).reverse = head :: (xs.reverse ++ [head]) := by simp
    rw [← this, List.isChain_reverse]
    exact hr
  have hmap : (xs.reverse ++ [head]).map (listEntry · member) =
      xs.reverse.map (listEntry · member) ++ [listEntry head member] := by simp
  have hfold : xs.reverse.foldl (fun s n => body (listEntry n member) s) s =
      (xs.reverse.map (listEntry · member)).foldl (fun s e => body e s) s := by
    rw [List.foldl_map]
  rw [hfold]
  have hne : ∀ n ∈ xs.reverse ++ [head], n ≠ 0 := by
    rintro n hn rfl
    exact hnull (by simpa [or_comm] using hn)
  have hstop : listEntry head member + member = head := listEntry_add (hne head (by simp)) member
  refine listLoop_visits ?_ ?_ ?_ hstop (by simpa using hfuel)
  · rw [← hmap, List.head?_map]
    cases hrev : xs.reverse with
    | nil =>
      rw [hrev] at hch
      simp [(List.isChain_pair.mp hch).2]
    | cons x l =>
      rw [hrev] at hch
      simp [(List.isChain_cons_cons.mp hch).1.2]
  · rw [← hmap, List.isChain_map]
    refine hch.tail.imp_of_mem_imp fun a b ha _ hf => ?_
    rw [listEntry_add (hne a ha), hf.2]
  · intro e he heq
    obtain ⟨n, hn, rfl⟩ := List.mem_map.mp he
    rw [listEntry_add (hne n (List.mem_append_left _ hn))] at heq
    exact hhead (heq ▸ List.mem_reverse.mp hn)

end Iteration

-- ---------------------------------------------------------------------------
-- All operations
-- ---------------------------------------------------------------------------

section Laws

variable {A : Type} [DecidableEq A] [AddGroup A] {h : LinkHeap A} {L : ListFamily A}

/-- Each operation is the one on sequences: the list it is given changes so, and all others hold
what they held. -/
structure SequenceLaws (h : LinkHeap A) (L : ListFamily A) : Prop where
  add : ∀ head xs new, L head = some xs → L.Free new → new ≠ 0 →
    Lists (listAdd h new head) (L.put head (new :: xs))
  addTail : ∀ head xs new, L head = some xs → L.Free new → new ≠ 0 →
    Lists (listAddTail h new head) (L.put head (xs ++ [new]))
  del : ∀ head xs₁ x xs₂, L head = some (xs₁ ++ x :: xs₂) →
    Lists (listDel h x) (L.put head (xs₁ ++ xs₂)) ∧ listDel h x x = ⟨0, 0⟩ ∧
      (L.put head (xs₁ ++ xs₂)).Free x
  shift : ∀ head x xs, L head = some (x :: xs) →
    (listShift h head).1 = x ∧ Lists (listShift h head).2 (L.put head xs) ∧
      (listShift h head).2 x = ⟨0, 0⟩ ∧ (L.put head xs).Free x
  shift_nil : ∀ head, L head = some [] → (listShift h head).2 = h
  shift_null : ∀ head xs, L head = some xs → ((listShift h head).1 = 0 ↔ xs = [])
  rotateLeft : ∀ head xs, L head = some xs → Lists (listRotateLeft h head) (L.put head (xs.rotate 1))
  forEach : ∀ head xs, L head = some xs → (h head).next ≠ 0 → ∀ (σ : Type) (body : A → σ → σ) (s : σ),
    ∀ fuel > xs.length, listForEach h head body fuel s = some (xs.foldl (fun s n => body n s) s)
  forEachEntryPrev : ∀ head xs, L head = some xs → (h head).next ≠ 0 →
    ∀ (member : A) (σ : Type) (body : A → σ → σ) (s : σ), ∀ fuel > xs.length,
      listForEachEntryPrev h head member body fuel s =
        some (xs.reverse.foldl (fun s n => body (listEntry n member) s) s)

/-- A node that was taken out is in no list. -/
theorem Lists.free_removed {head x : A} {xs₁ xs₂ : List A} (hL : Lists h L)
    (hhead : L head = some (xs₁ ++ x :: xs₂)) : (L.put head (xs₁ ++ xs₂)).Free x := by
  intro head' xs' h' hx
  by_cases hne : head' = head
  · subst hne
    obtain rfl : xs₁ ++ xs₂ = xs' := by simpa using h'
    have hnd := (hL.isList hhead).nodup
    simp only [List.nodup_cons, List.mem_append, List.mem_cons, List.nodup_append] at hnd hx
    grind
  · rw [L.put_of_ne _ hne] at h'
    exact hL.disjoint hhead h' (Ne.symm hne) (by simp) hx

/--
**The intrusive lists are sequences.** In every heap that holds a family of disjoint lists, some of
their heads perhaps still zero, the operations add, remove, take and rotate as on sequences, and the
iterations visit the nodes of an initialised list once each, in order and in reverse order.
-/
theorem list_sequence_laws (hL : Lists h L) : SequenceLaws h L := by
  have hring : ∀ {head xs}, L head = some xs → (h head).next ≠ 0 → LinkRing h (head :: xs) :=
    fun hhead h0 => (hL.isList hhead).links.resolve_left fun hz => h0 hz.1
  have hhead_notin : ∀ {head xs}, L head = some xs → head ∉ xs :=
    fun hhead => (List.nodup_cons.mp (hL.isList hhead).nodup).1
  constructor
  case add => exact fun head xs new hhead => listsHold_add hL hhead
  case addTail => exact fun head xs new hhead => listsHold_addTail hL hhead
  case del => exact fun head xs₁ x xs₂ hhead =>
      ⟨listsHold_del hL hhead, listDel_self h x, hL.free_removed hhead⟩
  case shift =>
    intro head x xs hhead
    rw [listShift_cons (hL.isList hhead)]
    have hfirst : L head = some ([] ++ x :: xs) := hhead
    exact ⟨rfl, listsHold_del hL hfirst, listDel_self h x, hL.free_removed hfirst⟩
  case shift_nil =>
    intro head hhead
    rw [listShift_nil (hL.isList hhead)]
  case shift_null =>
    intro head xs hhead
    have hl := hL.isList hhead
    cases xs with
    | nil => simp [listShift_nil hl]
    | cons x xs =>
      have hx : x ≠ 0 := fun h0 => hl.nonnull (by simp [h0])
      simp [listShift_cons hl, hx]
  case rotateLeft => exact fun head xs hhead => listsHold_rotateLeft hL hhead
  case forEach =>
    intro head xs hhead h0 σ body s fuel hfuel
    exact listForEach_visits s (hring hhead h0) (hhead_notin hhead) hfuel
  case forEachEntryPrev =>
    intro head xs hhead h0 member σ body s fuel hfuel
    exact listForEachEntryPrev_visits member s (hring hhead h0) (hhead_notin hhead)
      (hL.isList hhead).nonnull hfuel

/-- The empty lists at some addresses. -/
def emptyLists (heads : A → Bool) : ListFamily A := fun n => if heads n then some [] else none

omit [DecidableEq A] [AddGroup A] in
theorem emptyLists_eq_some {heads : A → Bool} {head : A} {xs : List A}
    (hhead : emptyLists heads head = some xs) : heads head = true ∧ xs = [] := by
  unfold emptyLists at hhead
  split at hhead
  · exact ⟨‹_›, (Option.some.inj hhead).symm⟩
  · cases hhead

omit [DecidableEq A] in
/-- Zero-initialised heads are empty lists. -/
theorem lists_zero {heads : A → Bool} (h0 : heads 0 = false) :
    Lists (fun _ => ⟨0, 0⟩) (emptyLists heads) := by
  constructor
  · intro head xs hhead
    obtain ⟨htrue, rfl⟩ := emptyLists_eq_some hhead
    refine ⟨List.nodup_singleton head, ?_, .inl ⟨rfl, rfl⟩⟩
    intro hz
    rw [← List.mem_singleton.mp hz, h0] at htrue
    cases htrue
  · intro head xs head' xs' hhead hhead' hne n hn hn'
    rw [(emptyLists_eq_some hhead).2] at hn
    rw [(emptyLists_eq_some hhead').2] at hn'
    exact hne ((List.mem_singleton.mp hn).symm.trans (List.mem_singleton.mp hn'))

omit [DecidableEq A] [AddGroup A] in
theorem emptyLists_free {heads : A → Bool} {n : A} (hn : heads n = false) : (emptyLists heads).Free n := by
  intro head xs hhead hmem
  obtain ⟨htrue, rfl⟩ := emptyLists_eq_some hhead
  rw [← List.mem_singleton.mp hmem, hn] at htrue
  cases htrue

omit [AddGroup A] in
theorem ListFamily.Free.put {head n : A} {xs xs' : List A} (hf : L.Free n) (hhead : L head = some xs)
    (hn : n ∉ xs') : (L.put head xs').Free n := by
  intro head₂ xs₂ h₂
  by_cases hne : head₂ = head
  · subst hne
    obtain rfl : xs' = xs₂ := by simpa using h₂
    have hhead_ne : n ≠ head₂ := fun heq => hf head₂ xs hhead (heq ▸ List.mem_cons_self)
    simp [hhead_ne, hn]
  · rw [L.put_of_ne _ hne] at h₂
    exact hf head₂ xs₂ h₂

/-- Two lists at the addresses 8 and 80, the first with two nodes and the second still zero. -/
theorem list_sequence_laws_two : SequenceLaws
    (listAdd (listAdd (fun _ => ⟨0, 0⟩) 24 8) 16 8)
    (((emptyLists fun n : BitVec 32 => n == 8 || n == 80).put 8 [24]).put 8 [16, 24]) := by
  have hhead : emptyLists (fun n : BitVec 32 => n == 8 || n == 80) 8 = some [] := by decide
  have hfree : ∀ n : BitVec 32, (n == 8 || n == 80) = false →
      (emptyLists fun n : BitVec 32 => n == 8 || n == 80).Free n :=
    fun n => @emptyLists_free _ (fun n => n == 8 || n == 80) n
  have hone := listsHold_add (lists_zero (by decide)) hhead (hfree 24 (by decide)) (by decide)
  have htwo := listsHold_add hone (ListFamily.put_self _ 8 _) ((hfree 16 (by decide)).put hhead (by decide))
    (by decide)
  exact list_sequence_laws htwo

end Laws

end Munix
