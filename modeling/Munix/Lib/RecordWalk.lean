import Mathlib.Tactic

/-!
# Walking a stream of records

A reader handles the record at its position, takes the next position from what is there, and goes on until
it has left the stream.

* `Visits.ends`: it handles the records it visits, in order, and returns what they lead to.
* `Visits.stuck`: it never returns from a record that is its own successor.
-/

/-- A reader of records: the positions inside of the stream, what handling the record at a position does to
the state, and where the next record is. -/
structure RecordWalk (P S E : Type*) where
  inside : P → Bool
  read   : P → S → Except E S
  next   : P → P

namespace RecordWalk

variable {P S E : Type*} {w : RecordWalk P S E} {p q : P} {s s' : S} {ps : List P}

/-- The reader, for at most `fuel` rounds. -/
def run (w : RecordWalk P S E) : Nat → P → S → Option (Except E S)
  | 0, _, _ => none
  | fuel + 1, p, s =>
    if w.inside p then
      match w.read p s with
      | .error e => some (.error e)
      | .ok s => w.run fuel (w.next p) s
    else some (.ok s)

/-- The reader handles the records at `ps`, one after the other. -/
inductive Visits (w : RecordWalk P S E) : P → S → List P → P → S → Prop where
  | nil (p : P) (s : S) : Visits w p s [] p s
  | cons {p q : P} {s s₁ s' : S} {ps : List P} (hin : w.inside p = true) (hread : w.read p s = .ok s₁)
      (hrest : Visits w (w.next p) s₁ ps q s') : Visits w p s (p :: ps) q s'

theorem run_inside (hin : w.inside p = true) (hread : w.read p s = .ok s') (fuel : Nat) :
    w.run (fuel + 1) p s = w.run fuel (w.next p) s' := by
  rw [run, if_pos hin, hread]

theorem Visits.ends (h : w.Visits p s ps q s') (hend : w.inside q = false) {fuel : Nat}
    (hfuel : ps.length < fuel) : w.run fuel p s = some (.ok s') := by
  induction h generalizing fuel with
  | nil p s =>
    obtain ⟨fuel, rfl⟩ := Nat.exists_eq_add_one_of_ne_zero (Nat.ne_zero_of_lt hfuel)
    rw [run, if_neg (by simp [hend])]
  | cons hin hread _ ih =>
    obtain ⟨fuel, rfl⟩ := Nat.exists_eq_add_one_of_ne_zero (Nat.ne_zero_of_lt hfuel)
    rw [run_inside hin hread]
    exact ih hend (by simpa using hfuel)

theorem Visits.stuck (h : w.Visits p s ps q s') (hin : w.inside q = true) (hnext : w.next q = q)
    (hread : ∀ s, ∃ s₁, w.read q s = .ok s₁) (fuel : Nat) : w.run fuel p s = none := by
  induction h generalizing fuel with
  | nil p s =>
    induction fuel generalizing s with
    | zero => rfl
    | succ fuel ih =>
      obtain ⟨s₁, hs⟩ := hread s
      rw [run_inside hin hs, hnext]
      exact ih s₁
  | cons hin' hread' _ ih =>
    cases fuel with
    | zero => rfl
    | succ fuel =>
      rw [run_inside hin' hread']
      exact ih hin hnext hread fuel

end RecordWalk
