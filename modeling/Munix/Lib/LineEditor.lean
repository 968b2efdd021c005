import Mathlib.Tactic

/-!
# Line editing

What a line discipline is for, with no buffers and no timing in it. A line
editor turns keys into lines (`Edited.keys`): characters extend the unfinished
line, editing keys change it, and two keys complete it. A reader is handed the
completed lines piece by piece (`HandedOut`): a piece never crosses a line's end,
and an empty line, which is how an end of file looks, is one empty piece.
-/

variable {α : Type*}

/-- Keys, as a line editor tells them apart. -/
inductive LineKey (α : Type*) where
  | char (a : α)
  | newline (a : α)
  | eof
  | erase
  | kill

/-- The completed lines and the unfinished one. -/
structure Edited (α : Type*) where
  lines : List (List α)
  cur   : List α

namespace Edited

/-- No key has been pressed. -/
def empty : Edited α := ⟨[], []⟩

/-- What a key does. -/
def key (e : Edited α) : LineKey α → Edited α
  | .char a => { e with cur := e.cur ++ [a] }
  | .newline a => ⟨e.lines ++ [e.cur ++ [a]], []⟩
  | .eof => ⟨e.lines ++ [e.cur], []⟩
  | .erase => { e with cur := e.cur.dropLast }
  | .kill => { e with cur := [] }

def keys (e : Edited α) (ks : List (LineKey α)) : Edited α := ks.foldl key e

@[simp] theorem keys_nil (e : Edited α) : e.keys [] = e := rfl

@[simp] theorem keys_cons (e : Edited α) (k : LineKey α) (ks : List (LineKey α)) :
    e.keys (k :: ks) = (e.key k).keys ks := rfl

theorem keys_append (e : Edited α) (ks ks' : List (LineKey α)) :
    e.keys (ks ++ ks') = (e.keys ks).keys ks' :=
  List.foldl_append

theorem lines_key (e : Edited α) (k : LineKey α) : e.lines <+: (e.key k).lines := by
  cases k <;> simp [key]

/-- A completed line stays as it is. -/
theorem lines_keys (e : Edited α) (ks : List (LineKey α)) : e.lines <+: (e.keys ks).lines := by
  induction ks generalizing e with
  | nil => exact List.prefix_rfl
  | cons k ks ih => exact (lines_key e k).trans (ih (e.key k))

end Edited

/-- Completed lines, the pieces that have been handed out of them, and what is
left of the line that is being handed out. -/
inductive HandedOut : List (List α) → List (List α) → Option (List α) → Prop
  | start : HandedOut [] [] none
  | complete {lines pieces : List (List α)} (line : List α) :
      HandedOut lines pieces none → HandedOut (lines ++ [line]) pieces (some line)
  | piece {lines pieces : List (List α)} {c r : List α} :
      HandedOut lines pieces (some (c ++ r)) → c ≠ [] → r ≠ [] →
        HandedOut lines (pieces ++ [c]) (some r)
  | last {lines pieces : List (List α)} {c : List α} :
      HandedOut lines pieces (some c) → HandedOut lines (pieces ++ [c]) none

/-- The pieces and the rest are the lines. -/
theorem HandedOut.flatten {lines pieces : List (List α)} {rest : Option (List α)}
    (h : HandedOut lines pieces rest) : pieces.flatten ++ rest.getD [] = lines.flatten := by
  induction h with
  | start => rfl
  | complete line _ ih =>
    rw [List.flatten_append, ← ih]
    simp
  | piece _ _ _ ih =>
    rw [← ih]
    simp
  | last _ ih =>
    rw [← ih]
    simp
