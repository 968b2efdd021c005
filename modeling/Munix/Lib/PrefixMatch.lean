import Mathlib.Tactic

/-!
# Longest prefix match by order

A table is a list of entries with keys, and a lookup of a string should find the
entry whose key is the longest prefix of it. Taking the last entry of the list
that matches does so exactly if no key is a prefix of the key of an earlier entry
(`lastMatch_longest_iff`). Two tables with the same entries then agree
(`LongestMatch.perm`). Whatever else is asked of a match, the last one has it
exactly if every match without it comes before another match
(`lastMatch_good_iff`).
-/

variable {α β : Type*} [DecidableEq α] (key : β → List α)

/-- The last entry whose key is a prefix of the string. -/
def lastMatch (es : List β) (s : List α) : Option β :=
  es.reverse.find? fun e => decide (key e <+: s)

/-- The result of a lookup is an entry with the longest key that matches. -/
def LongestMatch (es : List β) (s : List α) : Option β → Prop
  | none => ∀ e ∈ es, ¬ key e <+: s
  | some e => e ∈ es ∧ key e <+: s ∧ ∀ e' ∈ es, key e' <+: s → (key e').length ≤ (key e).length

variable {key}

omit [DecidableEq α] in
/-- The longest match does not depend on the order of the entries. -/
theorem LongestMatch.perm {es es' : List β} {s : List α} {r r' : Option β}
    (h : LongestMatch key es s r) (h' : LongestMatch key es' s r') (hperm : es.Perm es')
    (hnd : (es.map key).Nodup) : r = r' := by
  cases r with
  | none =>
    cases r' with
    | none => rfl
    | some e' => exact absurd h'.2.1 (h e' (hperm.mem_iff.mpr h'.1))
  | some e =>
    cases r' with
    | none => exact absurd h.2.1 (h' e (hperm.mem_iff.mp h.1))
    | some e' =>
      obtain ⟨he, hmatch, hlong⟩ := h
      obtain ⟨he', hmatch', hlong'⟩ := h'
      have he' := hperm.mem_iff.mpr he'
      have hle := hlong e' he' hmatch'
      have hge := hlong' e (hperm.mem_iff.mp he) hmatch
      have hkey : key e = key e' := by
        rcases List.prefix_or_prefix_of_prefix hmatch hmatch' with hp | hp
        · exact hp.eq_of_length (Nat.le_antisymm hge hle)
        · exact (hp.eq_of_length (Nat.le_antisymm hle hge)).symm
      rw [List.inj_on_of_nodup_map hnd he he' hkey]

/-- **When the last match is the longest one**, for all strings of a set that is
closed under prefixes. -/
theorem lastMatch_longest_iff {es : List β} (hnd : (es.map key).Nodup) {dom : List α → Prop}
    (hdom : ∀ k s, dom s → k <+: s → k ≠ [] → dom k) :
    (∀ s, dom s → LongestMatch key es s (lastMatch key es s)) ↔
      es.Pairwise fun a b => dom (key a) → ¬ key b <+: key a := by
  constructor
  · intro hlong
    -- along the list, with what comes before the rest
    suffices h : ∀ rest before, es = before ++ rest →
        rest.Pairwise fun a b => dom (key a) → ¬ key b <+: key a from h es [] rfl
    intro rest
    induction rest with
    | nil => exact fun _ _ => .nil
    | cons a rest ih =>
      intro before hes
      refine List.pairwise_cons.mpr ⟨fun b hb ha hba => ?_, ih (before ++ [a]) (by simp [hes])⟩
      -- looking up the key of `a` finds something behind it
      obtain ⟨m, hm⟩ : ∃ m, rest.reverse.find? (fun e => decide (key e <+: key a)) = some m := by
        rw [← Option.isSome_iff_exists, List.find?_isSome]
        exact ⟨b, List.mem_reverse.mpr hb, by simpa using hba⟩
      have hmem : m ∈ rest := List.mem_reverse.mp (List.mem_of_find?_eq_some hm)
      have hlast : lastMatch key es (key a) = some m := by
        rw [lastMatch, hes, List.reverse_append, List.reverse_cons, List.append_assoc,
          List.find?_append, hm]
        rfl
      have hres := hlong (key a) ha
      rw [hlast] at hres
      have hlen := hres.2.2 a (by simp [hes]) (List.prefix_refl _)
      have hkey : key m = key a := hres.2.1.eq_of_length_le hlen
      rw [hes, List.map_append, List.nodup_append, List.map_cons, List.nodup_cons] at hnd
      exact hnd.2.1.1 (hkey ▸ List.mem_map_of_mem hmem)
  · intro hpair s hs
    cases hlast : lastMatch key es s with
    | none =>
      intro e he
      have := List.find?_eq_none.mp hlast e (List.mem_reverse.mpr he)
      simpa using this
    | some m =>
      obtain ⟨hmatch, later, earlier, hsplit, hnone⟩ := List.find?_eq_some_iff_append.mp hlast
      have hes : es = earlier.reverse ++ m :: later.reverse := by
        rw [← List.reverse_reverse es, hsplit]
        simp
      have hmatch : key m <+: s := by simpa using hmatch
      refine ⟨by simp [hes], hmatch, fun e he hpre => ?_⟩
      rw [hes, List.mem_append, List.mem_cons] at he
      rcases he with he | rfl | he
      · -- an earlier entry has a shorter key
        rw [hes, List.pairwise_append] at hpair
        have hnot := hpair.2.2 e he m (by simp)
        rcases List.prefix_or_prefix_of_prefix hpre hmatch with hp | hp
        · exact hp.length_le
        · by_cases hnil : key e = []
          · simp [hnil]
          · exact absurd hp (hnot (hdom _ _ hs hpre hnil))
      · exact Nat.le_refl _
      · have := hnone e (List.mem_reverse.mp he)
        simp [hpre] at this

/-- **When the last match is a good one**: every bad match comes before another
match. -/
theorem lastMatch_good_iff {es : List β} {s : List α} {good : β → Prop} :
    (∀ e, lastMatch key es s = some e → good e) ↔
      ∀ before e after, es = before ++ e :: after → key e <+: s → ¬ good e →
        ∃ e' ∈ after, key e' <+: s := by
  constructor
  · rintro h before e after rfl hmatch hbad
    by_contra hnone
    push Not at hnone
    refine hbad (h e ?_)
    rw [lastMatch, List.reverse_append, List.reverse_cons, List.append_assoc, List.find?_append]
    have hafter : after.reverse.find? (fun e => decide (key e <+: s)) = none := by
      rw [List.find?_eq_none]
      intro e' he'
      simpa using hnone e' (List.mem_reverse.mp he')
    simp [hafter, hmatch]
  · intro h e hlast
    obtain ⟨hmatch, later, earlier, hsplit, hnone⟩ := List.find?_eq_some_iff_append.mp hlast
    have hes : es = earlier.reverse ++ e :: later.reverse := by
      rw [← List.reverse_reverse es, hsplit]
      simp
    by_contra hbad
    obtain ⟨e', he', hpre⟩ := h _ e _ hes (by simpa using hmatch) hbad
    have := hnone e' (List.mem_reverse.mp he')
    simp [hpre] at this
