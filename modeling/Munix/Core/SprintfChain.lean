import Mathlib.Data.List.GetD
import Munix.Core.SprintfLaw

/-!
# Munix — printing piece by piece

The idiom `pos += snprintf(pos, BUFREM(pos, end), …)` of the logger and of the
functions that describe a structure. Every piece is printed into what the
pieces before it have left of the buffer, and `pos` goes on counting when
nothing is left. The truncation law of one call carries over to the whole
chain: what one print of the concatenated text would leave in the buffer is
what the pieces leave.

## Results

* `Truncated.append`      — printing into the rest of a truncated print.
* `appendAll_truncated`   — a chain whose text ends in the address space.
* `chainLaw_iff`          — the law of the chain holds exactly for these.
-/

namespace Munix

open ByteMem

-- ---------------------------------------------------------------------------
-- The idiom
-- ---------------------------------------------------------------------------

/-- `BUFREM(pos, end)`. -/
def bufrem (pos endp : Addr) : BitVec 32 := if pos < endp then endp - pos else 0#32

/-- A format with its arguments. -/
structure Piece where
  fmt  : List Byte
  args : List VaArg

/-- `pos += res = snprintf(pos, BUFREM(pos, end), …)`: the result, the new
position and memory. -/
def appendPiece (m : Mem) (pos endp : Addr) (p : Piece) : Option (Int × Addr × Mem) :=
  (snprintf m pos (bufrem pos endp) p.fmt p.args).map fun (res, m) =>
    (res, pos + BitVec.ofInt 32 res, m)

/-- The pieces one after the other. -/
def appendAll (m : Mem) (pos endp : Addr) : List Piece → Option (Addr × Mem)
  | [] => some (pos, m)
  | p :: pieces =>
    match appendPiece m pos endp p with
    | none => none
    | some (_, pos, m) => appendAll m pos endp pieces

/-- The concatenation of the formatted texts, if no piece fails. -/
def concatText : List Piece → Option (List Byte)
  | [] => some []
  | p :: pieces =>
    match formatText p.fmt p.args with
    | .ok text => (concatText pieces).map (text ++ ·)
    | _ => none

/-- A buffer is an object: it has bytes, it is not at NULL, and the address of
its end is a pointer. -/
structure Buffer where
  buf     : Addr
  n       : BitVec 32
  nonnull : buf ≠ 0#32
  pos     : 1 ≤ n.toNat
  fits    : buf.toNat + n.toNat < 2 ^ 32

namespace Buffer

/-- `end = buf + n`. -/
def endp (b : Buffer) : Addr := b.buf + b.n

/-- What is left of the buffer after `d` characters. -/
theorem bufrem_toNat (b : Buffer) {d : Nat} (hd : b.buf.toNat + d < 2 ^ 32) :
    (bufrem (b.buf + BitVec.ofNat 32 d) b.endp).toNat = b.n.toNat - d := by
  have hfits := b.fits
  unfold bufrem endp
  split <;> bv_omega

end Buffer

-- ---------------------------------------------------------------------------
-- The truncation law of a chain
-- ---------------------------------------------------------------------------

section Chain

variable {s : Addr} {n : BitVec 32} {m m₁ m₂ : Mem}

/-- **Printing into the rest.** After a truncated print, a print into what is
left of the buffer makes the truncated print of both texts; its first character
goes over the terminator of the other one, and where nothing is left that one
stays. -/
theorem Truncated.append {done text : List Byte} {rem : BitVec 32}
    (hrem : rem.toNat = n.toNat - done.length) (hdone : done.length < 2 ^ 32)
    (h₁ : Truncated done s n m m₁)
    (h₂ : Truncated text (s + BitVec.ofNat 32 done.length) rem m₁ m₂) :
    Truncated (done ++ text) s n m m₂ := by
  by_cases hlt : done.length < n.toNat
  · -- the terminator is in the buffer, and the text starts there
    have hn : n ≠ 0#32 := by bv_omega
    have hrem₀ : rem ≠ 0#32 := by bv_omega
    have hlen : min (n.toNat - 1) (done ++ text).length =
        done.length + min (rem.toNat - 1) text.length := by
      rw [List.length_append]
      omega
    refine ⟨fun _ i hi => ?_, fun _ => ?_, fun a ha => ?_⟩
    · rw [hlen] at hi
      by_cases hid : i < done.length
      · have hout : min (rem.toNat - 1) text.length <
            (s + BitVec.ofNat 32 i - (s + BitVec.ofNat 32 done.length)).toNat := by bv_omega
        rw [h₂.other _ (.inr hout), h₁.text_eq hn i (by omega), List.getD_append _ _ _ _ hid]
      · have haddr : s + BitVec.ofNat 32 i =
            s + BitVec.ofNat 32 done.length + BitVec.ofNat 32 (i - done.length) := by bv_omega
        rw [haddr, h₂.text_eq hrem₀ _ (by omega), List.getD_append_right _ _ _ _ (by omega)]
    · have haddr : s + BitVec.ofNat 32 (done.length + min (rem.toNat - 1) text.length) =
          s + BitVec.ofNat 32 done.length + BitVec.ofNat 32 (min (rem.toNat - 1) text.length) := by
        bv_omega
      rw [hlen, haddr, h₂.nul hrem₀]
    · rw [hlen] at ha
      have ha := ha.resolve_left hn
      have hout : min (rem.toNat - 1) text.length <
          (a - (s + BitVec.ofNat 32 done.length)).toNat := by bv_omega
      rw [h₂.other a (.inr hout), h₁.other a (.inr (by omega))]
  · -- the buffer is full, and nothing is written
    have hrem₀ : rem = 0#32 := by bv_omega
    have hsame : ∀ a, m₂ a = m₁ a := fun a => h₂.other a (.inl hrem₀)
    have hlen : min (n.toNat - 1) (done ++ text).length = min (n.toNat - 1) done.length := by
      rw [List.length_append]
      omega
    refine ⟨fun hn i hi => ?_, fun hn => ?_, fun a ha => ?_⟩
    · rw [hlen] at hi
      rw [hsame, h₁.text_eq hn i hi, List.getD_append _ _ _ _ (by omega)]
    · rw [hlen, hsame, h₁.nul hn]
    · rw [hlen] at ha
      rw [hsame, h₁.other a ha]

end Chain

/-- One piece, printed `d` characters after the start of the buffer. -/
theorem appendPiece_truncated (b : Buffer) {p : Piece} {text : List Byte} {d : Nat}
    (h : formatText p.fmt p.args = .ok text) (hlen : text.length < 2 ^ 31)
    (hfits : b.buf.toNat + d + text.length < 2 ^ 32) (m : Mem) :
    ∃ m', appendPiece m (b.buf + BitVec.ofNat 32 d) b.endp p =
        some ((text.length : Int), b.buf + BitVec.ofNat 32 (d + text.length), m') ∧
      Truncated text (b.buf + BitVec.ofNat 32 d)
        (bufrem (b.buf + BitVec.ofNat 32 d) b.endp) m m' := by
  have hpos : (b.buf + BitVec.ofNat 32 d).toNat = b.buf.toNat + d := by bv_omega
  have hrem := b.bufrem_toNat (d := d) (by omega)
  have hnull : b.buf + BitVec.ofNat 32 d ≠ 0#32 := by
    have := b.nonnull
    bv_omega
  have hbelow : FitsBelow text (b.buf + BitVec.ofNat 32 d)
      (bufrem (b.buf + BitVec.ofNat 32 d) b.endp) := by
    have := b.fits
    refine ⟨by omega, .inr ?_⟩
    rw [hpos, hrem]
    omega
  have hres := snprintfImpl_of_fits h hlen hbelow.1 (fun h0 => absurd h0 hnull) m
    (bufrem (b.buf + BitVec.ofNat 32 d) b.endp)
  refine ⟨_, ?_, truncated_of_fits hbelow m⟩
  have hnext : b.buf + BitVec.ofNat 32 d + BitVec.ofInt 32 (text.length : Int) =
      b.buf + BitVec.ofNat 32 (d + text.length) := by
    rw [BitVec.ofInt_natCast]
    bv_omega
  rw [appendPiece, snprintf, hres, Option.map_some, ← hnext]

theorem concatText_cons {p : Piece} {pieces : List Piece} {text : List Byte}
    (h : concatText (p :: pieces) = some text) :
    ∃ first rest, formatText p.fmt p.args = .ok first ∧ concatText pieces = some rest ∧
      text = first ++ rest := by
  rw [concatText] at h
  split at h
  next first hfirst =>
    obtain ⟨rest, hrest, rfl⟩ := Option.map_eq_some_iff.mp h
    exact ⟨first, rest, hfirst, hrest, rfl⟩
  next => cases h

/-- The pieces that follow a truncated print. -/
theorem appendAll_append (b : Buffer) {pieces : List Piece} {done text : List Byte} {m m₁ : Mem}
    (h : concatText pieces = some text) (hlen : text.length < 2 ^ 31)
    (hfits : b.buf.toNat + done.length + text.length < 2 ^ 32)
    (hdone : Truncated done b.buf b.n m m₁) :
    ∃ m', appendAll m₁ (b.buf + BitVec.ofNat 32 done.length) b.endp pieces =
        some (b.buf + BitVec.ofNat 32 (done ++ text).length, m') ∧
      Truncated (done ++ text) b.buf b.n m m' := by
  induction pieces generalizing done text m₁ with
  | nil =>
    obtain rfl : [] = text := by simpa [concatText] using h
    exact ⟨m₁, by simp [appendAll], by simpa using hdone⟩
  | cons p pieces ih =>
    obtain ⟨first, rest, hfirst, hrest, rfl⟩ := concatText_cons h
    rw [List.length_append] at hlen hfits
    obtain ⟨m₂, hres, htrunc⟩ :=
      appendPiece_truncated b (d := done.length) hfirst (by omega) (by omega) m₁
    have hboth : Truncated (done ++ first) b.buf b.n m m₂ :=
      hdone.append (b.bufrem_toNat (by omega)) (by omega) htrunc
    obtain ⟨m', hall, hend⟩ := ih hrest (by omega) (by rw [List.length_append]; omega) hboth
    rw [List.append_assoc] at hall hend
    refine ⟨m', ?_, hend⟩
    rw [appendAll, hres, ← List.length_append]
    exact hall

/-- **A chain whose text ends in the address space** leaves what one print of
the concatenated text leaves. -/
theorem appendAll_truncated (b : Buffer) {pieces : List Piece} {text : List Byte}
    (hne : pieces ≠ []) (h : concatText pieces = some text) (hlen : text.length < 2 ^ 31)
    (hfits : b.buf.toNat + text.length < 2 ^ 32) (m : Mem) :
    ∃ m', appendAll m b.buf b.endp pieces = some (b.buf + BitVec.ofNat 32 text.length, m') ∧
      Truncated text b.buf b.n m m' := by
  cases pieces with
  | nil => exact absurd rfl hne
  | cons p pieces =>
    obtain ⟨first, rest, hfirst, hrest, rfl⟩ := concatText_cons h
    rw [List.length_append] at hlen hfits
    -- the first piece has the whole buffer
    have hstart : b.buf + BitVec.ofNat 32 0 = b.buf := by bv_omega
    have hwhole : bufrem b.buf b.endp = b.n := by
      apply BitVec.eq_of_toNat_eq
      have := b.bufrem_toNat (d := 0) (by omega)
      rwa [hstart] at this
    obtain ⟨m₁, hres, htrunc⟩ := appendPiece_truncated b (d := 0) hfirst (by omega) (by omega) m
    rw [hstart, Nat.zero_add] at hres
    rw [hstart, hwhole] at htrunc
    obtain ⟨m', hall, hend⟩ := appendAll_append b hrest (by omega) (by omega) htrunc
    exact ⟨m', by rw [appendAll, hres]; exact hall, hend⟩

-- ---------------------------------------------------------------------------
-- Positions at the end of the address space
-- ---------------------------------------------------------------------------

/-- The byte at NULL gets the same value from every memory. -/
def Overwrites (F : Mem → Mem) : Prop := ∃ c, ∀ m, F m 0#32 = c

/-- The byte at NULL is kept. -/
def Keeps (F : Mem → Mem) : Prop := ∀ m, F m 0#32 = m 0#32

theorem Overwrites.comp_right {F : Mem → Mem} (h : Overwrites F) (G : Mem → Mem) :
    Overwrites fun m => F (G m) := by
  obtain ⟨c, hc⟩ := h
  exact ⟨c, fun m => hc _⟩

theorem Overwrites.comp {F G : Mem → Mem} (h : Overwrites G) (hF : Overwrites F ∨ Keeps F) :
    Overwrites fun m => F (G m) := by
  obtain ⟨c, hc⟩ := h
  obtain hF | hF := hF
  · exact hF.comp_right G
  · exact ⟨c, fun m => (hF _).trans (hc m)⟩

/-- A position, where NULL is the end of the address space. -/
def topPos (s : Addr) : Nat := if s = 0#32 then 2 ^ 32 else s.toNat

theorem topPos_ofNat {q : Nat} (h0 : 0 < q) (hle : q ≤ 2 ^ 32) : topPos (BitVec.ofNat 32 q) = q := by
  unfold topPos
  split <;> bv_omega

section Wrap

variable {s t : Addr} {text : List Byte}

/-- Output up to the end of the address space does not get to NULL. -/
theorem foldl_outchar_keeps (hs : s ≠ 0#32) (h : s.toNat + text.length ≤ 2 ^ 32) (m : Mem) :
    (text.foldl (outchar t) ⟨s, m⟩).mem 0#32 = m 0#32 := by
  induction text generalizing s m with
  | nil => rfl
  | cons c text ih =>
    rw [List.length_cons] at h
    have hfirst : (outchar t ⟨s, m⟩ c).mem 0#32 = m 0#32 := by
      dsimp only [outchar]
      split
      · exact store8_ne hs.symm
      · rfl
    rw [List.foldl_cons]
    by_cases hlast : s + 1#32 = 0#32
    · obtain rfl : text = [] := List.length_eq_zero_iff.mp (by bv_omega)
      exact hfirst
    · exact (ih hlast (by bv_omega) _).trans hfirst

/-- Output beyond it does. -/
theorem foldl_outchar_overwrites (ht : 0#32 < t) (hlen : text.length < 2 ^ 32)
    (h : 2 ^ 32 < topPos s + text.length) :
    Overwrites fun m => (text.foldl (outchar t) ⟨s, m⟩).mem := by
  induction text generalizing s with
  | nil =>
    unfold topPos at h
    have := s.isLt
    rw [List.length_nil] at h
    split at h <;> omega
  | cons c text ih =>
    rw [List.length_cons] at h hlen
    by_cases hs : s = 0#32
    · subst hs
      refine ⟨c, fun m => ?_⟩
      refine (foldl_outchar_keeps (s := 0#32 + 1#32) (by decide) (by bv_omega) _).trans ?_
      rw [if_pos ht, store8_same]
    · have hnext : topPos (s + 1#32) = s.toNat + 1 := by
        unfold topPos
        split <;> bv_omega
      rw [topPos, if_neg hs] at h
      obtain ⟨c', hc'⟩ := ih (s := s + 1#32) (by omega) (by omega)
      exact ⟨c', fun m => hc' (if s < t then store8 m s c else m)⟩

/-- From the end of the buffer to the end of the address space nothing is written. -/
theorem foldl_outchar_mem_eq (ht : t ≤ s) (h : s.toNat + text.length ≤ 2 ^ 32) (m : Mem) :
    (text.foldl (outchar t) ⟨s, m⟩).mem = m := by
  induction text generalizing s with
  | nil => rfl
  | cons c text ih =>
    rw [List.length_cons] at h
    have hfirst : outchar t ⟨s, m⟩ c = ⟨s + 1#32, m⟩ := by
      dsimp only [outchar]
      rw [if_neg (by bv_omega)]
    rw [List.foldl_cons, hfirst]
    by_cases hlast : s + 1#32 = 0#32
    · obtain rfl : text = [] := List.length_eq_zero_iff.mp (by bv_omega)
      rfl
    · exact ih (by bv_omega) (by bv_omega)

/-- The terminator goes to NULL if the output has ended there. -/
theorem terminate_null {n : BitVec 32} (hn : n ≠ 0#32) (ht : 0#32 < t) (mem : Mem) :
    terminate t n ⟨0#32, mem⟩ 0#32 = 0#8 := by
  rw [terminate, if_pos hn, if_pos ht, store8_same]

theorem terminate_keeps {n : BitVec 32} (ht : 1#32 < t) (h : n = 0#32 ∨ s ≠ 0#32) (mem : Mem) :
    terminate t n ⟨s, mem⟩ 0#32 = mem 0#32 := by
  by_cases hn : n = 0#32
  · rw [terminate, if_neg (not_not.mpr hn)]
  · rw [terminate, if_pos hn]
    dsimp only
    split
    · exact store8_ne (h.resolve_left hn).symm
    · exact store8_ne (by bv_omega)

end Wrap

theorem Buffer.one_lt_endp (b : Buffer) : 1#32 < b.endp := by
  have hnull := b.nonnull
  have hpos := b.pos
  have hfits := b.fits
  unfold Buffer.endp
  bv_omega

theorem Buffer.bufrem_eq_zero (b : Buffer) {s : Addr} : bufrem s b.endp = 0#32 ↔ b.endp ≤ s := by
  unfold bufrem
  split
  next h => exact ⟨fun h0 => by bv_omega, fun hle => by bv_omega⟩
  next h => exact ⟨fun _ => BitVec.not_lt.mp h, fun _ => rfl⟩

/-- The end that `snprintf_impl` takes for a piece is not before the end of the buffer. -/
theorem Buffer.one_lt_bufEnd (b : Buffer) (s : Addr) : 1#32 < bufEnd s (bufrem s b.endp) := by
  have h := b.one_lt_endp
  unfold bufEnd bufrem UINTPTR_MAX
  split <;> split <;> bv_omega

/-- What a piece does at any position. It changes the byte at NULL, or it keeps it.
In that case it has failed at the end of the address space, or its text ends in the
address space; exactly at its end only if nothing was left of the buffer, and after
a character of the format. -/
theorem appendPiece_wraps (b : Buffer) {p : Piece} {text : List Byte}
    (h : formatText p.fmt p.args = .ok text) (hlen : text.length < 2 ^ 31) (s : Addr) :
    ∃ res F, (∀ m, appendPiece m s b.endp p = some (res, s + BitVec.ofInt 32 res, F m)) ∧
      (Overwrites F ∨ Keeps F ∧
        ((res = -ENOTSUP ∧ 2 ^ 32 ≤ topPos s + text.length) ∨
          (res = text.length ∧ s ≠ 0#32 ∧ s.toNat + text.length ≤ 2 ^ 32 ∧
            (s.toNat + text.length = 2 ^ 32 → b.endp ≤ s ∧ PlainEnd p.fmt p.args)))) := by
  have hend := b.one_lt_bufEnd s
  have hs := s.isLt
  have hrun : ∀ {res : Int} {F : Mem → Mem},
      (∀ m, snprintfImpl m s (bufrem s b.endp) p.fmt p.args = some (res, F m)) →
      ∀ m, appendPiece m s b.endp p = some (res, s + BitVec.ofInt 32 res, F m) := by
    intro res F hres m
    rw [appendPiece, snprintf, hres, Option.map_some]
  obtain ⟨q, hq, hnull, -, hres⟩ | ⟨hplain, hres⟩ := snprintfImpl_stops h s (bufrem s b.endp)
  · -- a conversion that ends at NULL
    have hle := hq.length_le
    refine ⟨_, _, hrun hres, .inr ⟨fun m => ?_, .inl ⟨rfl, ?_⟩⟩⟩
    · by_cases hs0 : s = 0#32
      · obtain rfl : q = [] := List.length_eq_zero_iff.mp (by bv_omega)
        rfl
      · exact foldl_outchar_keeps hs0 (by bv_omega) m
    · unfold topPos
      split <;> bv_omega
  · rw [toInt_ofNat hlen] at hres
    refine ⟨_, _, hrun hres, ?_⟩
    have hpos : ∀ m, text.foldl (outchar (bufEnd s (bufrem s b.endp))) ⟨s, m⟩ =
        ⟨s + BitVec.ofNat 32 text.length,
          (text.foldl (outchar (bufEnd s (bufrem s b.endp))) ⟨s, m⟩).mem⟩ := fun m => by
      rw [← foldl_outchar_s (bufEnd s (bufrem s b.endp)) text ⟨s, m⟩]
    by_cases hterm : bufrem s b.endp ≠ 0#32 ∧ s + BitVec.ofNat 32 text.length = 0#32
    · -- the terminator is written at NULL
      refine .inl ⟨0#8, fun m => ?_⟩
      dsimp only
      rw [hpos m, hterm.2]
      exact terminate_null hterm.1 (by bv_omega) _
    · have hkeep : ∀ m, terminate (bufEnd s (bufrem s b.endp)) (bufrem s b.endp)
          (text.foldl (outchar (bufEnd s (bufrem s b.endp))) ⟨s, m⟩) 0#32 =
          (text.foldl (outchar (bufEnd s (bufrem s b.endp))) ⟨s, m⟩).mem 0#32 := fun m => by
        rw [hpos m]
        refine terminate_keeps hend ?_ _
        by_contra hno
        exact hterm (by simpa using hno)
      by_cases hwrap : 2 ^ 32 < topPos s + text.length
      · have hend0 : 0#32 < bufEnd s (bufrem s b.endp) := by bv_omega
        obtain ⟨c, hc⟩ := foldl_outchar_overwrites hend0 (by omega) hwrap
        exact .inl ⟨c, fun m => (hkeep m).trans (hc m)⟩
      · have hs0 : s ≠ 0#32 := by
          rintro rfl
          rw [topPos, if_pos rfl] at hwrap
          have hrem : bufrem 0#32 b.endp ≠ 0#32 := by
            have h1 := b.one_lt_endp
            rw [Ne, b.bufrem_eq_zero]
            bv_omega
          obtain rfl : text = [] := List.length_eq_zero_iff.mp (by omega)
          exact hterm ⟨hrem, rfl⟩
        rw [topPos, if_neg hs0] at hwrap
        refine .inr ⟨fun m => (hkeep m).trans (foldl_outchar_keeps hs0 (by omega) m),
          .inr ⟨rfl, hs0, by omega, fun hexact => ?_⟩⟩
        have hzero : s + BitVec.ofNat 32 text.length = 0#32 := by bv_omega
        refine ⟨b.bufrem_eq_zero.mp ?_, (hplain hzero).resolve_left ?_⟩
        · by_contra hrem
          exact hterm ⟨hrem, hzero⟩
        · intro hnil
          rw [hnil] at h
          obtain rfl : [] = text := Formatted.ok.inj h
          simp at hexact
          omega

/-- What a chain does at any position. -/
theorem appendAll_acts (b : Buffer) {pieces : List Piece} {text : List Byte}
    (h : concatText pieces = some text) (hlen : text.length < 2 ^ 31) (s : Addr) :
    ∃ pos F, (∀ m, appendAll m s b.endp pieces = some (pos, F m)) ∧ (Overwrites F ∨ Keeps F) := by
  induction pieces generalizing text s with
  | nil => exact ⟨s, id, fun m => rfl, .inr fun m => rfl⟩
  | cons p pieces ih =>
    obtain ⟨first, rest, hfirst, hrest, rfl⟩ := concatText_cons h
    rw [List.length_append] at hlen
    obtain ⟨res, F, hF, hact⟩ := appendPiece_wraps b hfirst (by omega) s
    obtain ⟨pos, G, hG, hacts⟩ := ih hrest (by omega) (s + BitVec.ofInt 32 res)
    refine ⟨pos, fun m => G (F m), fun m => by rw [appendAll, hF]; exact hG _, ?_⟩
    rcases hact with hact | ⟨hkeep, -⟩
    · exact .inl (hact.comp hacts)
    · rcases hacts with hacts | hacts
      · exact .inl (hacts.comp_right F)
      · exact .inr fun m => (hacts _).trans (hkeep m)

/-- How far the position `q` of a chain can be behind, after `d` characters. A piece
that fails takes it back by 8, but only when it has printed up to the end of the
address space. -/
structure Lag (b : Buffer) (d q : Nat) : Prop where
  pos    : 0 < q
  le     : q ≤ 2 ^ 32
  behind : q ≤ b.buf.toNat + d
  near   : 2 * b.buf.toNat ≤ d + 2 * q + 48

/-- The pieces of a chain that keep the byte at NULL. -/
theorem appendAll_wraps (b : Buffer) {pieces : List Piece} {text : List Byte}
    (h : concatText pieces = some text) {d q : Nat} (hlag : Lag b d q) (hlen : d + text.length < 2 ^ 31) :
    ∃ pos F, (∀ m, appendAll m (BitVec.ofNat 32 q) b.endp pieces = some (pos, F m)) ∧
      (Overwrites F ∨ Keeps F ∧ ∃ q', pos = BitVec.ofNat 32 q' ∧ Lag b (d + text.length) q') := by
  induction pieces generalizing text d q with
  | nil =>
    obtain rfl : [] = text := by simpa [concatText] using h
    exact ⟨_, id, fun m => rfl, .inr ⟨fun m => rfl, q, rfl, hlag⟩⟩
  | cons p pieces ih =>
    obtain ⟨first, rest, hfirst, hrest, rfl⟩ := concatText_cons h
    rw [List.length_append] at hlen
    obtain ⟨res, F, hF, hact⟩ := appendPiece_wraps b hfirst (by omega) (BitVec.ofNat 32 q)
    rcases hact with hact | ⟨hkeep, hres⟩
    · obtain ⟨pos, G, hG, hacts⟩ :=
        appendAll_acts b hrest (by omega) (BitVec.ofNat 32 q + BitVec.ofInt 32 res)
      exact ⟨pos, fun m => G (F m), fun m => by rw [appendAll, hF]; exact hG _, .inl (hact.comp hacts)⟩
    · obtain ⟨q₁, hq₁, hlag₁⟩ : ∃ q₁, BitVec.ofNat 32 q + BitVec.ofInt 32 res = BitVec.ofNat 32 q₁ ∧
          Lag b (d + first.length) q₁ := by
        obtain ⟨h0, hle, hbehind, hnear⟩ := hlag
        have hbuf := b.buf.isLt
        rcases hres with ⟨rfl, hfail⟩ | ⟨rfl, hs0, hfits, -⟩
        · rw [topPos_ofNat h0 hle] at hfail
          refine ⟨q - 8, ?_, by omega, by omega, by omega, by omega⟩
          have hback : BitVec.ofInt 32 (-ENOTSUP) = 0#32 - 8#32 := by decide
          rw [hback]
          bv_omega
        · have hlt : q < 2 ^ 32 := by bv_omega
          rw [BitVec.toNat_ofNat, Nat.mod_eq_of_lt hlt] at hfits
          refine ⟨q + first.length, ?_, by omega, by omega, by omega, by omega⟩
          rw [BitVec.ofInt_natCast, BitVec.ofNat_add]
      obtain ⟨pos, G, hG, hacts⟩ := ih hrest hlag₁ (by omega)
      refine ⟨pos, fun m => G (F m), fun m => by rw [appendAll, hF, hq₁]; exact hG _, ?_⟩
      rcases hacts with hacts | ⟨hkeeps, q', hpos, hlag'⟩
      · exact .inl (hacts.comp_right F)
      · refine .inr ⟨fun m => (hkeeps _).trans (hkeep m), q', hpos, ?_⟩
        rwa [List.length_append, ← Nat.add_assoc]

theorem appendAll_concat (m : Mem) (s endp : Addr) (xs ys : List Piece) :
    appendAll m s endp (xs ++ ys) = (appendAll m s endp xs).bind fun r => appendAll r.2 r.1 endp ys := by
  induction xs generalizing m s with
  | nil => rfl
  | cons p xs ih =>
    rw [List.cons_append, appendAll, appendAll]
    cases appendPiece m s endp p with
    | none => rfl
    | some r => exact ih _ _

theorem concatText_append {xs : List Piece} {p : Piece} {text : List Byte}
    (h : concatText (xs ++ [p]) = some text) :
    ∃ first last, concatText xs = some first ∧ formatText p.fmt p.args = .ok last ∧
      text = first ++ last := by
  induction xs generalizing text with
  | nil =>
    obtain ⟨first, rest, hfirst, hrest, rfl⟩ := concatText_cons h
    obtain rfl : [] = rest := by simpa [concatText] using hrest
    exact ⟨[], first, rfl, hfirst, by simp⟩
  | cons q xs ih =>
    obtain ⟨a, rest, ha, hrest, rfl⟩ := concatText_cons h
    obtain ⟨first, last, hfirst, hlast, rfl⟩ := ih hrest
    exact ⟨a ++ first, last, by simp [concatText, ha, hfirst], hlast, by simp⟩

-- ---------------------------------------------------------------------------
-- The law
-- ---------------------------------------------------------------------------

/-- The law of a chain: `pos - buf` is the length of the text, and the buffer holds
the truncated text, with nothing written outside. -/
def ChainLaw (b : Buffer) (pieces : List Piece) (text : List Byte) : Prop :=
  ∀ m : Mem, ∃ pos m', appendAll m b.buf b.endp pieces = some (pos, m') ∧
    (pos - b.buf).toInt = text.length ∧ Truncated text b.buf b.n m m'

/-- The text ends with the last byte of the address space, in a piece that nothing is
left of the buffer for, and after a character of the format. -/
def EndsAtTop (b : Buffer) (pieces : List Piece) (text : List Byte) : Prop :=
  b.buf.toNat + text.length = 2 ^ 32 ∧ ∃ init last first, pieces = init ++ [last] ∧
    concatText init = some first ∧ b.n.toNat ≤ first.length ∧ PlainEnd last.fmt last.args

/-- `pos` comes around to NULL, and nothing is written there. -/
theorem EndsAtTop.chainLaw {b : Buffer} {pieces : List Piece} {text : List Byte}
    (h : EndsAtTop b pieces text) (htext : concatText pieces = some text) (hlen : text.length < 2 ^ 31) :
    ChainLaw b pieces text := by
  intro m
  obtain ⟨htop, init, last, first, rfl, hfirst, hroom, hplain⟩ := h
  obtain ⟨first', lastText, hfirst', hlast, rfl⟩ := concatText_append htext
  obtain rfl : first = first' := Option.some.inj (hfirst.symm.trans hfirst')
  have hpos := b.pos
  have hprint : 0 < lastText.length := hplain.length_lt hlast
  have hne : init ≠ [] := by
    rintro rfl
    obtain rfl : [] = first := Option.some.inj hfirst
    exact absurd hroom (by simp; omega)
  rw [List.length_append] at htop hlen
  obtain ⟨m₁, hinit, htrunc⟩ := appendAll_truncated b hne hfirst (by omega) (by omega) m
  -- the last piece
  set s := b.buf + BitVec.ofNat 32 first.length with hs
  have hsNat : s.toNat = b.buf.toNat + first.length := by bv_omega
  have hrem : bufrem s b.endp = 0#32 := by
    have hfits := b.fits
    rw [b.bufrem_eq_zero, Buffer.endp]
    bv_omega
  have hend : bufEnd s 0#32 = s := by simp [bufEnd]
  have hstop := snprintfImpl_stops hlast s (bufrem s b.endp)
  rw [hrem, hend] at hstop
  have hint := toInt_ofNat (n := lastText.length) (by omega)
  have hpiece : appendPiece m₁ s b.endp last =
      some ((lastText.length : Int), s + BitVec.ofNat 32 lastText.length, m₁) := by
    obtain ⟨q, hq, hnull, hno, -⟩ | ⟨-, hres⟩ := hstop
    · have hle := hq.length_le
      exact absurd hplain (hno (hq.eq_of_length (by bv_omega)))
    · rw [appendPiece, snprintf, hrem, hres, Option.map_some, terminate, if_neg (by simp),
        foldl_outchar_mem_eq (by bv_omega) (by omega), hint, ← BitVec.ofInt_natCast]
  refine ⟨s + BitVec.ofNat 32 lastText.length, m₁, ?_, ?_, ?_⟩
  · rw [appendAll_concat, hinit, Option.bind_some, appendAll, hpiece]
    rfl
  · have hsub : s + BitVec.ofNat 32 lastText.length - b.buf =
        BitVec.ofNat 32 (first ++ lastText).length := by
      rw [List.length_append]
      bv_omega
    rw [hsub, toInt_ofNat (by rw [List.length_append]; omega)]
  · have hleft : (0#32).toNat = b.n.toNat - first.length := by
      rw [BitVec.toNat_ofNat]
      omega
    exact Truncated.append hleft (by omega) htrunc
      ⟨fun h => absurd rfl h, fun h => absurd rfl h, fun _ _ => rfl⟩

/-- Where the law holds, the text ends in the address space, or at its end. -/
theorem ChainLaw.ends {b : Buffer} {pieces : List Piece} {text : List Byte} (hlaw : ChainLaw b pieces text)
    (hne : pieces ≠ []) (htext : concatText pieces = some text) (hlen : text.length < 2 ^ 31) :
    b.buf.toNat + text.length < 2 ^ 32 ∨ EndsAtTop b pieces text := by
  obtain ⟨init, last, rfl⟩ : ∃ init last, pieces = init ++ [last] :=
    ⟨pieces.dropLast, pieces.getLast hne, (List.dropLast_append_getLast hne).symm⟩
  obtain ⟨first, lastText, hfirst, hlast, rfl⟩ := concatText_append htext
  have hbuf := b.buf.isLt
  have hnull := b.nonnull
  have hroom := b.fits
  have hn := b.pos
  rw [List.length_append] at hlen ⊢
  -- the byte at NULL is not one of the buffer
  have hcalls : ∀ {pos : Addr} {F : Mem → Mem},
      (∀ m, appendAll m b.buf b.endp (init ++ [last]) = some (pos, F m)) →
      ¬ Overwrites F ∧ pos - b.buf = BitVec.ofNat 32 (first.length + lastText.length) := by
    intro pos F hF
    have hall : ∀ m, (pos - b.buf).toInt = ((first ++ lastText).length : Int) ∧ F m 0#32 = m 0#32 := by
      intro m
      obtain ⟨pos', m', hres, hdiff, htrunc⟩ := hlaw m
      rw [hF m] at hres
      obtain ⟨rfl, rfl⟩ := Prod.mk.inj (Option.some.inj hres)
      exact ⟨hdiff, htrunc.other 0#32 (.inr (by bv_omega))⟩
    refine ⟨fun ⟨c, hc⟩ => ?_, BitVec.eq_of_toInt_eq ?_⟩
    · have h₁ := (hc fun _ => 1#8).symm.trans (hall _).2
      have h₂ := (hc fun _ => 2#8).symm.trans (hall _).2
      exact absurd (h₁.symm.trans h₂) (by decide)
    · rw [toInt_ofNat hlen, (hall fun _ => 0#8).1, List.length_append]
  obtain ⟨pos, F, hF, hinit⟩ := appendAll_wraps b hfirst
    (show Lag b 0 b.buf.toNat from ⟨by bv_omega, by omega, by omega, by omega⟩) (by omega)
  rw [BitVec.ofNat_toNat, BitVec.setWidth_eq] at hF
  obtain ⟨res, G, hG, hpiece⟩ := appendPiece_wraps b hlast (by omega) pos
  obtain ⟨hover, hdiff⟩ := hcalls (F := fun m => G (F m)) fun m => by
    rw [appendAll_concat, hF, Option.bind_some, appendAll, hG]
    rfl
  obtain ⟨-, q, rfl, hpos, hle, hbehind, hnear⟩ :=
    hinit.resolve_left fun h => hover (h.comp (hpiece.imp_right And.left))
  obtain ⟨-, hres⟩ := hpiece.resolve_left fun h => hover (h.comp_right F)
  rcases hres with ⟨rfl, hfail⟩ | ⟨rfl, hs, hfits, hexact⟩
  · -- a position that is behind does not catch up
    rw [topPos_ofNat hpos hle] at hfail
    have hback : BitVec.ofInt 32 (-ENOTSUP) = 0#32 - 8#32 := by decide
    rw [hback] at hdiff
    bv_omega
  · have hlt : q < 2 ^ 32 := by bv_omega
    rw [BitVec.ofInt_natCast] at hdiff
    rw [BitVec.toNat_ofNat, Nat.mod_eq_of_lt hlt] at hfits hexact
    have hq : q = b.buf.toNat + first.length := by bv_omega
    by_cases htop : q + lastText.length = 2 ^ 32
    · obtain ⟨hend, hplain⟩ := hexact htop
      refine .inr ⟨by rw [List.length_append]; omega, init, last, first, rfl, hfirst, ?_, hplain⟩
      unfold Buffer.endp at hend
      bv_omega
    · exact .inl (by omega)

/-- **Chained bounded printing is one truncated print** exactly when the text
ends in the address space that follows the buffer: `pos` is not protected
against wraparound, and below the buffer it counts as inside. -/
theorem chainLaw_iff (b : Buffer) (pieces : List Piece) (text : List Byte) (hne : pieces ≠ [])
    (h : concatText pieces = some text) (hlen : text.length < 2 ^ 31) :
    ChainLaw b pieces text ↔
      b.buf.toNat + text.length < 2 ^ 32 ∨ EndsAtTop b pieces text := by
  constructor
  · intro hlaw
    exact hlaw.ends hne h hlen
  · rintro (hfits | htop) m
    · obtain ⟨m', hres, htrunc⟩ := appendAll_truncated b hne h hlen hfits m
      refine ⟨_, m', hres, ?_, htrunc⟩
      have hsub : b.buf + BitVec.ofNat 32 text.length - b.buf = BitVec.ofNat 32 text.length := by bv_omega
      rw [hsub, toInt_ofNat hlen]
    · exact htop.chainLaw h hlen m

/-- The pieces of a ready queue with the threads 7 and 12. -/
def queuePieces : List Piece :=
  [⟨bytes "%u -> ", [.word 7#32]⟩, ⟨bytes "%u -> ", [.word 12#32]⟩, ⟨bytes "(end)", []⟩]

/-- The second piece of three does not fit. -/
theorem chainLaw_iff_queue :
    ChainLaw ⟨0x104000#32, 8#32, by decide, by decide, by decide⟩ queuePieces
      (bytes "7 -> 12 -> (end)") :=
  (chainLaw_iff ⟨0x104000#32, 8#32, by decide, by decide, by decide⟩ queuePieces
    (bytes "7 -> 12 -> (end)") (by simp [queuePieces]) (by rfl) (by decide)).mpr (.inl (by decide))

/-- Eight bytes, sixteen before the end of the address space. -/
def highBuffer : Buffer := ⟨0xfffffff0#32, 8#32, by decide, by decide, by decide⟩

/-- Sixteen characters, and two. -/
def highPieces : List Piece := [⟨bytes "0123456789abcdef", []⟩, ⟨bytes "gh", []⟩]

/-- The first piece takes `pos` around to NULL, which is below the end of the
buffer, and the second one is printed there. -/
theorem chainLaw_fails_wraparound :
    concatText highPieces = some (bytes "0123456789abcdefgh") ∧
      (appendAll (fun _ => 1#8) highBuffer.buf highBuffer.endp highPieces).map
          (fun r => (r.2 0#32, r.2 1#32, r.2 2#32)) = some (byte 'g', byte 'h', 0#8) ∧
      ¬ ChainLaw highBuffer highPieces (bytes "0123456789abcdefgh") := by
  have hwritten : (appendAll (fun _ => 1#8) highBuffer.buf highBuffer.endp highPieces).map
      (fun r => (r.2 0#32, r.2 1#32, r.2 2#32)) = some (byte 'g', byte 'h', 0#8) := by
    decide +kernel
  refine ⟨rfl, hwritten, fun hlaw => ?_⟩
  obtain ⟨pos, m', hres, -, htrunc⟩ := hlaw fun _ => 1#8
  have hsame : m' 0#32 = 1#8 := htrunc.other 0#32 (.inr (by decide))
  have hprinted : m' 0#32 = byte 'g' := by
    rw [hres] at hwritten
    exact (Prod.mk.inj (Option.some.inj hwritten)).1
  rw [hsame] at hprinted
  exact absurd hprinted (by decide)

end Munix
