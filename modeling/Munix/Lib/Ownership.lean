import Mathlib.Tactic

/-!
# Ownership of pooled resources by references

References of type `E` (some of them live) designate resources of type `I`
(some of them allocated). `Owns` says that each live reference owns an
allocated resource. It is kept by what an allocator's client does: change
references without changing what they designate (`Owns.congr`), claim a free
resource for a new reference (`Owns.claim`), give up a reference together with
its resource (`Owns.release`), and forget references (`Owns.drop`). Only the
last one can lose resources, which stay allocated with nothing to designate
them (`Lost`).
-/

variable {E I : Type*}

/-- Each live reference owns an allocated resource. -/
structure Owns (live : E → Prop) (des : E → I → Prop) (alloc : I → Prop) : Prop where
  allocated    : ∀ e, live e → ∃ i, alloc i ∧ des e i
  unique       : ∀ e e' i, des e i → des e' i → e = e'
  alloc_of_des : ∀ e i, des e i → alloc i

/-- The resource is allocated, but no reference designates it. -/
def Lost (des : E → I → Prop) (alloc : I → Prop) (i : I) : Prop := alloc i ∧ ∀ e, ¬ des e i

namespace Owns

variable {live live' : E → Prop} {des des' : E → I → Prop} {alloc alloc' : I → Prop}

theorem congr (h : Owns live des alloc) (hl : ∀ e, live' e ↔ live e)
    (hd : ∀ e i, des' e i ↔ des e i) (ha : ∀ i, alloc' i ↔ alloc i) : Owns live' des' alloc' := by
  obtain rfl : live' = live := funext fun e => propext (hl e)
  obtain rfl : des' = des := funext fun e => funext fun i => propext (hd e i)
  obtain rfl : alloc' = alloc := funext fun i => propext (ha i)
  exact h

/-- A dead reference takes a free resource. -/
theorem claim (h : Owns live des alloc) {e₀ : E} {i₀ : I} (hfree : ¬ alloc i₀)
    (hl : ∀ e, live' e ↔ live e ∨ e = e₀)
    (hd : ∀ e i, des' e i ↔ des e i ∨ (e = e₀ ∧ i = i₀))
    (ha : ∀ i, alloc' i ↔ alloc i ∨ i = i₀) : Owns live' des' alloc' where
  allocated := by
    intro e he
    rcases (hl e).mp he with he | rfl
    · obtain ⟨i, hi, hei⟩ := h.allocated e he
      exact ⟨i, (ha i).mpr (.inl hi), (hd e i).mpr (.inl hei)⟩
    · exact ⟨i₀, (ha i₀).mpr (.inr rfl), (hd e i₀).mpr (.inr ⟨rfl, rfl⟩)⟩
  unique := by
    intro e e' i he he'
    have hold : ∀ x, ¬ des x i₀ := fun x hx => hfree (h.alloc_of_des x i₀ hx)
    rcases (hd e i).mp he with he | ⟨rfl, rfl⟩ <;> rcases (hd e' _).mp he' with he' | ⟨rfl, h'⟩
    · exact h.unique e e' i he he'
    · exact absurd (h' ▸ he) (hold e)
    · exact absurd he' (hold e')
    · rfl
  alloc_of_des := by
    intro e i he
    rcases (hd e i).mp he with he | ⟨-, rfl⟩
    · exact (ha i).mpr (.inl (h.alloc_of_des e i he))
    · exact (ha i).mpr (.inr rfl)

/-- A reference dies and its resource is freed. -/
theorem release (h : Owns live des alloc) {e₀ : E} {i₀ : I} (hdes : des e₀ i₀)
    (hl : ∀ e, live' e ↔ live e ∧ e ≠ e₀)
    (hd : ∀ e i, des' e i ↔ des e i ∧ e ≠ e₀)
    (ha : ∀ i, alloc' i ↔ alloc i ∧ i ≠ i₀) : Owns live' des' alloc' where
  allocated := by
    intro e he
    obtain ⟨he, hne⟩ := (hl e).mp he
    obtain ⟨i, hi, hei⟩ := h.allocated e he
    refine ⟨i, (ha i).mpr ⟨hi, ?_⟩, (hd e i).mpr ⟨hei, hne⟩⟩
    rintro rfl
    exact hne (h.unique e e₀ i hei hdes)
  unique := by
    intro e e' i he he'
    exact h.unique e e' i ((hd e i).mp he).1 ((hd e' i).mp he').1
  alloc_of_des := by
    intro e i he
    obtain ⟨he, hne⟩ := (hd e i).mp he
    refine (ha i).mpr ⟨h.alloc_of_des e i he, ?_⟩
    rintro rfl
    exact hne (h.unique e e₀ i he hdes)

/-- References die; what they designated may be lost. -/
theorem drop (h : Owns live des alloc) {dead : E → Prop} (hl : ∀ e, live' e ↔ live e ∧ ¬ dead e)
    (hd : ∀ e i, des' e i ↔ des e i ∧ ¬ dead e) : Owns live' des' alloc where
  allocated := by
    intro e he
    obtain ⟨he, hne⟩ := (hl e).mp he
    obtain ⟨i, hi, hei⟩ := h.allocated e he
    exact ⟨i, hi, (hd e i).mpr ⟨hei, hne⟩⟩
  unique := by
    intro e e' i he he'
    exact h.unique e e' i ((hd e i).mp he).1 ((hd e' i).mp he').1
  alloc_of_des := by
    intro e i he
    exact h.alloc_of_des e i ((hd e i).mp he).1

end Owns

namespace Lost

variable {des des' : E → I → Prop} {alloc alloc' : I → Prop} {i : I}

/-- Claiming a free resource loses none. -/
theorem claim_iff {e₀ : E} {i₀ : I} (hfree : ¬ alloc i₀)
    (hd : ∀ e i, des' e i ↔ des e i ∨ (e = e₀ ∧ i = i₀)) (ha : ∀ i, alloc' i ↔ alloc i ∨ i = i₀) :
    Lost des' alloc' i ↔ Lost des alloc i := by
  constructor
  · rintro ⟨hal, hno⟩
    rcases (ha i).mp hal with hal | rfl
    · exact ⟨hal, fun e he => hno e ((hd e i).mpr (.inl he))⟩
    · exact absurd ((hd e₀ i).mpr (.inr ⟨rfl, rfl⟩)) (hno e₀)
  · rintro ⟨hal, hno⟩
    refine ⟨(ha i).mpr (.inl hal), fun e he => ?_⟩
    rcases (hd e i).mp he with he | ⟨-, rfl⟩
    · exact hno e he
    · exact hfree hal

/-- A reference that dies with its resource loses none. -/
theorem release_iff {e₀ : E} {i₀ : I} (hdes : des e₀ i₀) (hfun : ∀ i, des e₀ i → i = i₀)
    (hd : ∀ e i, des' e i ↔ des e i ∧ e ≠ e₀) (ha : ∀ i, alloc' i ↔ alloc i ∧ i ≠ i₀) :
    Lost des' alloc' i ↔ Lost des alloc i := by
  constructor
  · rintro ⟨hal, hno⟩
    obtain ⟨hal, hne⟩ := (ha i).mp hal
    refine ⟨hal, fun e he => hno e ((hd e i).mpr ⟨he, ?_⟩)⟩
    rintro rfl
    exact hne (hfun i he)
  · rintro ⟨hal, hno⟩
    refine ⟨(ha i).mpr ⟨hal, ?_⟩, fun e he => hno e ((hd e i).mp he).1⟩
    rintro rfl
    exact hno e₀ hdes

theorem congr_iff (hd : ∀ e i, des' e i ↔ des e i) (ha : ∀ i, alloc' i ↔ alloc i) :
    Lost des' alloc' i ↔ Lost des alloc i := by
  rw [Lost, Lost, ha]
  simp only [hd]

end Lost
