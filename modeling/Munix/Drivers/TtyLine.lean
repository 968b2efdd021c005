import Munix.Lib.LineEditor
import Munix.Core.Memmove
import Munix.Drivers.Tty

/-!
# Munix — the line discipline of a terminal

What runs of `tty_read` calls do, against the reference editor of
`Munix.Lib.LineEditor`:

* `ttyReads_lineDiscipline` — in cooked mode the reads hand out the editor's
  completed lines and the buffer holds the rest, whatever the timing and the
  counts; in raw mode they hand out the bytes as they come.
* `memmove_anyOverlap` — `memmove` copies under any overlap, and the shift at the
  end of a read keeps the unread bytes.
* `ttyReads_alive_iff` — the buffer gets stuck on an unfinished line exactly when
  the input makes a line of `IBUFSZ` characters.
-/

namespace Munix

open ByteMem

-- ---------------------------------------------------------------------------
-- The port
-- ---------------------------------------------------------------------------

theorem serialRead_nil {s : Serial} (h : s.input = []) : serialRead s 1#32 = (-EAGAIN, [], s) := by
  simp [serialRead, serialReadLoop, serialReadch, h, EAGAIN]

theorem serialRead_none {s : Serial} {input : List (Option Byte)} (h : s.input = none :: input) :
    serialRead s 1#32 = (-EAGAIN, [], { s with input := input }) := by
  simp [serialRead, serialReadLoop, serialReadch, h, EAGAIN]

theorem serialRead_some {s : Serial} {ch : Byte} {input : List (Option Byte)}
    (h : s.input = some ch :: input) :
    serialRead s 1#32 = (1, [ifilter s.flags ch], { s with input := input }) := by
  have hch : ¬ ((ch.toNat : Int) < 0) := by omega
  simp [serialRead, serialReadLoop, serialReadch, h, hch]

/-- A terminal after some output to its port. -/
def Tty.withOutput (tty : Tty) (output : List Byte) : Tty :=
  { tty with portdev := { tty.portdev with output := output } }

theorem serialWriteChars_eq (out : List Byte) (s : Serial) :
    ∃ output, (serialWriteChars out s).2 = { s with output := output } := by
  induction out generalizing s with
  | nil => exact ⟨s.output, rfl⟩
  | cons ch out ih =>
    by_cases hneg : (serialWritech s ch).1 < 0
    · exact ⟨s.output ++ [ch], by simp only [serialWriteChars, if_pos hneg]; rfl⟩
    · simp only [serialWriteChars, if_neg hneg]
      exact ih _

theorem serialWriteLoop_eq (src : List Byte) (s : Serial) :
    ∃ output, (serialWriteLoop src s).2 = { s with output := output } := by
  induction src generalizing s with
  | nil => exact ⟨s.output, rfl⟩
  | cons ch src ih =>
    obtain ⟨output, hchars⟩ := serialWriteChars_eq (ofilter s.flags ch) s
    rcases hw : serialWriteChars (ofilter s.flags ch) s with ⟨res, s₁⟩
    obtain rfl : s₁ = { s with output := output } := by simpa [hw] using hchars
    simp only [serialWriteLoop, hw]
    by_cases hneg : res < 0
    · exact ⟨output, by rw [if_pos hneg]⟩
    · rw [if_neg hneg]
      exact ih _

theorem serialWrite_eq (s : Serial) (src : List Byte) :
    ∃ output, (serialWrite s src).2 = { s with output := output } := by
  obtain ⟨output, hloop⟩ := serialWriteLoop_eq src s
  refine ⟨output, ?_⟩
  rw [← hloop]
  simp only [serialWrite]
  split <;> rfl

theorem Tty.write_eq (tty : Tty) (src : List Byte) :
    ∃ output, tty.write src = tty.withOutput output := by
  obtain ⟨output, h⟩ := serialWrite_eq tty.portdev src
  exact ⟨output, by rw [Tty.write, h, Tty.withOutput]⟩

theorem echos_eq (tty : Tty) (str : List Byte) :
    ∃ output, echos tty str = tty.withOutput output := by
  unfold echos
  split
  · exact ⟨tty.portdev.output, rfl⟩
  · exact tty.write_eq str

theorem echoc_eq (tty : Tty) (ch : Byte) : ∃ output, echoc tty ch = tty.withOutput output := by
  unfold echoc
  split
  · exact ⟨tty.portdev.output, rfl⟩
  split
  · exact tty.write_eq _
  split
  · exact tty.write_eq _
  split
  · exact tty.write_eq _
  · unfold serialPrintf
    split
    next text _ =>
      obtain ⟨output, h⟩ := serialWrite_eq tty.portdev text
      exact ⟨output, by rw [h, Tty.withOutput]⟩
    · exact ⟨tty.portdev.output, rfl⟩

-- ---------------------------------------------------------------------------
-- The input buffer
-- ---------------------------------------------------------------------------

/-- The characters in the input buffer. -/
def Tty.pending (tty : Tty) : List Byte := (List.range tty.ilen).map tty.ibuf

@[simp] theorem Tty.length_pending (tty : Tty) : tty.pending.length = tty.ilen := by
  simp [Tty.pending]

theorem Tty.ilen_eq_zero (tty : Tty) : tty.ilen = 0 ↔ tty.pending = [] := by
  rw [← List.length_eq_zero_iff, tty.length_pending]

/-- The port and the modes are the same, up to the port's output. -/
structure Tty.SamePort (tty tty' : Tty) : Prop where
  input     : tty'.portdev.input = tty.portdev.input
  portflags : tty'.portdev.flags = tty.portdev.flags
  flags     : tty'.flags = tty.flags

theorem Tty.SamePort.isCooked {tty tty' : Tty} (h : tty.SamePort tty') :
    tty'.isCooked = tty.isCooked := by
  rw [Tty.isCooked, Tty.isCooked, h.flags]

theorem addToInbuf_spec {tty : Tty} (h : tty.ilen < IBUFSZ) (ch : Byte) :
    ∃ tty', addToInbuf tty ch = (0, tty') ∧ tty.SamePort tty' ∧
      tty'.pending = tty.pending ++ [ch] ∧ tty'.ilen = tty.ilen + 1 ∧
      tty'.ibufEol = tty.ibufEol ∧ tty'.ibufEof = tty.ibufEof := by
  obtain ⟨output, hecho⟩ := echoc_eq { tty with
    ilen := tty.ilen + 1, ibuf := Function.update tty.ibuf tty.ilen ch } ch
  refine ⟨_, (if_neg (by omega)).trans (congrArg (Prod.mk 0) hecho), ⟨rfl, rfl, rfl⟩, ?_, rfl,
    rfl, rfl⟩
  change (List.range (tty.ilen + 1)).map (Function.update tty.ibuf tty.ilen ch) = _
  rw [List.range_succ, List.map_append, Tty.pending]
  congr 1
  · refine List.map_congr_left fun i hi => ?_
    have hne : i ≠ tty.ilen := by
      have := List.mem_range.mp hi
      omega
    exact Function.update_of_ne hne _ _
  · simp

theorem backspace_spec (tty : Tty) :
    tty.SamePort (backspace tty) ∧ (backspace tty).pending = tty.pending.dropLast ∧
      (backspace tty).ilen = tty.ilen - 1 ∧ (backspace tty).ibufEol = tty.ibufEol ∧
      (backspace tty).ibufEof = tty.ibufEof := by
  unfold backspace
  split
  next h => exact ⟨⟨rfl, rfl, rfl⟩, by simp [Tty.pending, h], by omega, rfl, rfl⟩
  next h =>
    obtain ⟨output, hecho⟩ := echos_eq { tty with ilen := tty.ilen - 1 } (bytes "\x08 \x08")
    rw [hecho]
    refine ⟨⟨rfl, rfl, rfl⟩, ?_, rfl, rfl, rfl⟩
    obtain ⟨n, hn⟩ := Nat.exists_eq_succ_of_ne_zero h
    change (List.range (tty.ilen - 1)).map tty.ibuf = _
    rw [Tty.pending, hn, List.range_succ]
    simp

theorem clearline_spec (tty : Tty) :
    tty.SamePort (clearline tty) ∧ (clearline tty).ilen = 0 ∧
      (clearline tty).ibufEol = tty.ibufEol ∧ (clearline tty).ibufEof = tty.ibufEof := by
  have hloop : ∀ (n : Nat) (t : Tty), t.SamePort (backspace^[n] t) ∧
      (backspace^[n] t).ilen = t.ilen - n ∧ (backspace^[n] t).ibufEol = t.ibufEol ∧
      (backspace^[n] t).ibufEof = t.ibufEof := by
    intro n
    induction n with
    | zero => exact fun t => ⟨⟨rfl, rfl, rfl⟩, rfl, rfl, rfl⟩
    | succ n ih =>
      intro t
      obtain ⟨hport, -, hlen, heol, heof⟩ := backspace_spec t
      obtain ⟨hport', hlen', heol', heof'⟩ := ih (backspace t)
      rw [Function.iterate_succ_apply]
      refine ⟨⟨hport'.input.trans hport.input, hport'.portflags.trans hport.portflags,
        hport'.flags.trans hport.flags⟩, by omega, heol'.trans heol, heof'.trans heof⟩
  obtain ⟨hport, hlen, heol, heof⟩ := hloop tty.ilen tty
  exact ⟨hport, by rw [clearline, hlen, Nat.sub_self], heol, heof⟩

-- ---------------------------------------------------------------------------
-- One character
-- ---------------------------------------------------------------------------

/-- What a character is to the line editor. -/
def lineKey (ch : Byte) : LineKey Byte :=
  if ch = byte '\n' then .newline ch
  else if ch = CTRL_D then .eof
  else if ch = 0x08#8 ∨ ch = 0x7f#8 then .erase
  else if ch = CTRL_U then .kill
  else .char ch

/-- The buffer holds the unfinished line, or what is left of a completed one. -/
structure Tty.Shows (tty : Tty) (e : Edited Byte) (rest : Option (List Byte)) : Prop where
  cooked  : tty.isCooked = true
  ilen_le : tty.ilen ≤ IBUFSZ
  pending : tty.pending = rest.getD e.cur
  eol     : tty.ibufEol = rest.isSome
  eof     : tty.ibufEof = true ↔ rest = some []
  cur     : rest.isSome = true → e.cur = []

/-- The steps of `tty_inchar` at a special character. -/
theorem ttyInchar_special {tty : Tty} (hcooked : tty.isCooked = true) (heol : tty.ibufEol = false)
    (ch : Byte) (spch : Specialchar) (hfind : SPECIALCHARS.find? (·.ch = ch) = some spch) :
    ttyInchar tty ch =
      let tty := if spch.endline then { tty with ibufEol := true } else tty
      let tty := (spch.specialEcho.map (echos tty)).getD tty
      let tty := spch.onrecv tty
      if spch.isinput then addToInbuf tty ch else (0, tty) := by
  rw [ttyInchar, if_neg (by simp [hcooked]), if_neg (by simp [heol]), hfind]

theorem ttyInchar_plain {tty : Tty} (hcooked : tty.isCooked = true) (heol : tty.ibufEol = false)
    {ch : Byte} (hfind : SPECIALCHARS.find? (·.ch = ch) = none) :
    ttyInchar tty ch = addToInbuf tty ch := by
  rw [ttyInchar, if_neg (by simp [hcooked]), if_neg (by simp [heol]), hfind]

/-- In cooked mode a character does to the buffer what its key does to the
editor's unfinished line. -/
theorem ttyInchar_cooked {tty : Tty} {e : Edited Byte} (h : tty.Shows e none)
    (hlt : tty.ilen < IBUFSZ) (ch : Byte) :
    ∃ tty' rest, ttyInchar tty ch = (0, tty') ∧ tty.SamePort tty' ∧
      tty'.Shows (e.key (lineKey ch)) rest ∧
      ∀ pieces, HandedOut e.lines pieces none →
        HandedOut (e.key (lineKey ch)).lines pieces rest := by
  have heol : tty.ibufEol = false := h.eol
  have heof : tty.ibufEof = false := by simpa using h.eof
  have hpend : tty.pending = e.cur := h.pending
  -- editing keys leave an unfinished line
  have hedit : ∀ {tty' : Tty} {cur : List Byte}, tty.SamePort tty' → tty'.ilen ≤ IBUFSZ →
      tty'.pending = cur → tty'.ibufEol = tty.ibufEol → tty'.ibufEof = tty.ibufEof →
      tty'.Shows { e with cur := cur } none := by
    intro tty' cur hport hlen hcur heol' heof'
    exact ⟨hport.isCooked.trans h.cooked, hlen, hcur, heol'.trans heol, by simp [heof', heof],
      by simp⟩
  by_cases hnl : ch = byte '\n'
  · -- the newline completes the line and is part of it
    subst hnl
    obtain ⟨tty', hadd, hport, hpend', hlen, heol', heof'⟩ :=
      @addToInbuf_spec { tty with ibufEol := true } hlt (byte '\n')
    have hport : tty.SamePort tty' := ⟨hport.input, hport.portflags, hport.flags⟩
    have hpend' : tty'.pending = e.cur ++ [byte '\n'] := by rw [← hpend]; exact hpend'
    have hrun := ttyInchar_special h.cooked heol (byte '\n') ⟨byte '\n', none, true, true, id⟩ rfl
    refine ⟨tty', some tty'.pending, hrun.trans hadd, hport, ?_, ?_⟩
    · exact ⟨hport.isCooked.trans h.cooked, by rw [hlen]; exact hlt, rfl, heol',
        by simp [heof', heof, hpend'], fun _ => rfl⟩
    · intro pieces hp
      rw [hpend']
      exact hp.complete _
  by_cases heot : ch = CTRL_D
  · -- CTRL-D completes the line and is not stored
    subst heot
    obtain ⟨output, hecho⟩ := echos_eq { tty with ibufEol := true } (bytes "^D\n")
    have hrun := ttyInchar_special h.cooked heol CTRL_D
      ⟨CTRL_D, some (bytes "^D\n"), true, false, onEof⟩ rfl
    refine ⟨_, some e.cur, hrun.trans (congrArg (fun t => (0, onEof t)) hecho), ⟨rfl, rfl, rfl⟩, ?_, fun pieces hp => hp.complete _⟩
    refine ⟨h.cooked, h.ilen_le, hpend, rfl, ?_, fun _ => rfl⟩
    change (if tty.ilen = 0 then true else tty.ibufEof) = true ↔ _
    rw [← hpend, heof]
    simp [tty.ilen_eq_zero]
  by_cases hbs : ch = 0x08#8 ∨ ch = 0x7f#8
  · have hkey : e.key (lineKey ch) = { e with cur := e.cur.dropLast } := by
      simp [lineKey, hnl, heot, hbs, Edited.key]
    obtain ⟨hport, hpend', hlen, heol', heof'⟩ := backspace_spec tty
    have hrun : ttyInchar tty ch = (0, backspace tty) := by
      rcases hbs with rfl | rfl
      · exact ttyInchar_special h.cooked heol 0x08#8 ⟨0x08#8, none, false, false, backspace⟩ rfl
      · exact ttyInchar_special h.cooked heol 0x7f#8 ⟨0x7f#8, none, false, false, backspace⟩ rfl
    rw [hkey]
    exact ⟨_, none, hrun, hport, hedit hport (by omega) (by rw [hpend', hpend]) heol' heof',
      fun _ hp => hp⟩
  by_cases hkill : ch = CTRL_U
  · subst hkill
    obtain ⟨hport, hlen, heol', heof'⟩ := clearline_spec tty
    have hrun : ttyInchar tty CTRL_U = (0, clearline tty) :=
      ttyInchar_special h.cooked heol CTRL_U ⟨CTRL_U, none, false, false, clearline⟩ rfl
    exact ⟨_, none, hrun, hport,
      hedit hport (by omega) (by simp [Tty.pending, hlen]) heol' heof', fun _ hp => hp⟩
  · have hkey : e.key (lineKey ch) = { e with cur := e.cur ++ [ch] } := by
      simp [lineKey, hnl, heot, hbs, hkill, Edited.key]
    have hfind : SPECIALCHARS.find? (·.ch = ch) = none := by
      rw [not_or] at hbs
      simp [SPECIALCHARS, Ne.symm hnl, Ne.symm heot, Ne.symm hbs.1, Ne.symm hbs.2, Ne.symm hkill]
    obtain ⟨tty', hadd, hport, hpend', hlen, heol', heof'⟩ := addToInbuf_spec hlt ch
    rw [hkey]
    exact ⟨tty', none, (ttyInchar_plain h.cooked heol hfind).trans hadd, hport,
      hedit hport (by omega) (by rw [hpend', hpend]) heol' heof', fun _ hp => hp⟩

-- ---------------------------------------------------------------------------
-- Reads in cooked mode
-- ---------------------------------------------------------------------------

/-- The bytes that polls of the port have brought in. -/
def consumed (portflags : BitVec 32) (polls : List (Option Byte)) : List Byte :=
  (polls.filterMap id).map (ifilter portflags)

/-- The reference editor, on those bytes. -/
def feed (portflags : BitVec 32) (e : Edited Byte) (polls : List (Option Byte)) : Edited Byte :=
  e.keys ((consumed portflags polls).map lineKey)

@[simp] theorem feed_nil (portflags : BitVec 32) (e : Edited Byte) :
    feed portflags e [] = e := rfl

@[simp] theorem feed_none (portflags : BitVec 32) (e : Edited Byte)
    (polls : List (Option Byte)) : feed portflags e (none :: polls) = feed portflags e polls := rfl

@[simp] theorem feed_some (portflags : BitVec 32) (e : Edited Byte) (ch : Byte)
    (polls : List (Option Byte)) : feed portflags e (some ch :: polls) =
      feed portflags (e.key (lineKey (ifilter portflags ch))) polls := rfl

theorem feed_append (portflags : BitVec 32) (e : Edited Byte)
    (polls polls' : List (Option Byte)) :
    feed portflags e (polls ++ polls') = feed portflags (feed portflags e polls) polls' := by
  simp [feed, consumed, Edited.keys_append]

/-- No line that polls of the port type reaches the size of the buffer. -/
def LinesFit (portflags : BitVec 32) (e : Edited Byte) (polls : List (Option Byte)) : Prop :=
  ∀ before, before <+: polls → (feed portflags e before).cur.length < IBUFSZ

/-- The polls of a part of a run, from one terminal state to another. -/
structure Tty.Polled (tty tty' : Tty) (polls : List (Option Byte)) : Prop where
  input     : tty.portdev.input = polls ++ tty'.portdev.input
  portflags : tty'.portdev.flags = tty.portdev.flags
  flags     : tty'.flags = tty.flags

/-- **The read loop runs the editor**: it polls the port until nothing is ready,
a line is complete, or the buffer is full. -/
theorem ttyReadLoop_cooked {e : Edited Byte} {rest : Option (List Byte)} (fuel : Nat)
    {portres : Int} {tty : Tty} (h : tty.Shows e rest) (hres : portres ≠ 0)
    (hfuel : tty.portdev.input.length < fuel) :
    ∃ portres' tty' polls rest', ttyReadLoop fuel portres tty = (.inr portres', tty') ∧
      portres' ≠ 0 ∧ tty.Polled tty' polls ∧
      tty'.Shows (feed tty.portdev.flags e polls) rest' ∧
      (∀ pieces, HandedOut e.lines pieces rest →
        HandedOut (feed tty.portdev.flags e polls).lines pieces rest') ∧
      (rest = none → tty.ilen < IBUFSZ → tty.portdev.input ≠ [] → polls ≠ []) ∧
      (∀ before, before <+: polls → before ≠ polls →
        (feed tty.portdev.flags e before).cur.length < IBUFSZ) := by
  induction fuel generalizing tty e rest portres with
  | zero => omega
  | succ fuel ih =>
    rw [ttyReadLoop]
    by_cases hgo : tty.ilen < IBUFSZ ∧ tty.ibufEol = false
    · rw [if_pos hgo]
      obtain rfl : rest = none := by simpa [hgo.2] using h.eol.symm
      have hcur : e.cur.length < IBUFSZ := by
        rw [← show tty.pending = e.cur from h.pending, tty.length_pending]
        exact hgo.1
      cases hinput : tty.portdev.input with
      | nil =>
        simp only [serialRead_nil hinput]
        refine ⟨-EAGAIN, tty, [], none, rfl, by decide, ⟨by simp [hinput], rfl, rfl⟩, h,
          fun _ hp => hp, by simp, by simp⟩
      | cons poll input =>
        cases poll with
        | none =>
          simp only [serialRead_none hinput]
          refine ⟨-EAGAIN, _, [none], none, rfl, by decide, ⟨by simp [hinput], rfl, rfl⟩, ?_,
            fun _ hp => hp, by simp, ?_⟩
          · exact ⟨h.cooked, h.ilen_le, h.pending, h.eol, h.eof, h.cur⟩
          · intro before hb hne
            obtain rfl : before = [] := by
              rcases List.prefix_cons_iff.mp hb with h0 | ⟨t, rfl, ht⟩
              · exact h0
              · simp_all
            exact hcur
        | some ch =>
          simp only [serialRead_some hinput]
          rw [if_neg (by decide)]
          obtain ⟨tty₁, rest₁, hin, hport, hshow, hhand⟩ :=
            @ttyInchar_cooked { tty with portdev := { tty.portdev with input := input } } _
              ⟨h.cooked, h.ilen_le, h.pending, h.eol, h.eof, h.cur⟩ hgo.1 (ifilter tty.portdev.flags ch)
          have hlen : tty₁.portdev.input.length < fuel := by
            rw [hport.input]
            simp only [hinput, List.length_cons] at hfuel
            exact Nat.lt_of_succ_lt_succ hfuel
          obtain ⟨portres', tty', polls, rest', hloop, hres', hpolled, hshow', hhand', -, hfit⟩ :=
            ih hshow (show (1 : Int) ≠ 0 by decide) hlen
          have hflags : tty₁.portdev.flags = tty.portdev.flags := hport.portflags
          rw [hflags] at hshow' hhand' hfit
          refine ⟨portres', tty', some ch :: polls, rest', ?_, hres', ⟨?_, ?_, ?_⟩, hshow',
            fun pieces hp => hhand' pieces (hhand pieces hp), by simp, ?_⟩
          · simp only [List.headD_cons, hin]
            rw [if_neg (by decide), hloop]
          · rw [hinput, List.cons_append, ← hpolled.input, hport.input]
          · rw [hpolled.portflags, hflags]
          · rw [hpolled.flags, hport.flags]
          · intro before hb hne
            rcases List.prefix_cons_iff.mp hb with rfl | ⟨t, rfl, ht⟩
            · exact hcur
            · exact hfit t ht (fun heq => hne (by rw [heq]))
    · rw [if_neg hgo]
      refine ⟨portres, tty, [], rest, rfl, hres, ⟨rfl, rfl, rfl⟩, h, fun _ hp => hp, ?_, by simp⟩
      rintro rfl hlt -
      exact absurd ⟨hlt, h.eol⟩ hgo

theorem Tty.pending_dropFront (tty : Tty) {retct : Nat} (h : retct ≤ tty.ilen) :
    (List.range retct).map tty.ibuf ++ (tty.dropFront retct).pending = tty.pending := by
  have hmoved : (tty.dropFront retct).pending =
      (List.range (tty.ilen - retct)).map fun i => tty.ibuf (retct + i) := by
    refine List.map_congr_left fun i hi => ?_
    have hlt : i < tty.ilen - retct := List.mem_range.mp hi
    exact (memmove_front tty.ibuf hlt).trans (by rw [Nat.add_comm])
  have hsplit : tty.pending = ((List.range retct) ++
      (List.range (tty.ilen - retct)).map (retct + ·)).map tty.ibuf := by
    rw [Tty.pending, ← List.range_add, Nat.add_sub_cancel' h]
  rw [hmoved, hsplit, List.map_append, List.map_map]
  rfl

/-- What a read hands out and what it keeps are what its loop had collected. -/
theorem ttyRead_split (tty : Tty) (count : BitVec 32) :
    (ttyRead tty count).2.1 ++ (ttyRead tty count).2.2.pending =
      (ttyReadLoop (tty.portdev.input.length + 1) (-EAGAIN) tty).2.pending := by
  unfold ttyRead
  rcases ttyReadLoop (tty.portdev.input.length + 1) (-EAGAIN) tty with ⟨res | portres, tty₁⟩
  · rfl
  · by_cases hnone : tty₁.ilen = 0
    · simp only [if_pos hnone]
      split_ifs <;> rfl
    · simp only [if_neg hnone]
      split_ifs
      · rfl
      · exact tty₁.pending_dropFront (Nat.min_le_left _ _)

/-- **`memmove` is correct under any overlap**: the destination gets what the source
held before the call, and no other byte changes. So the shift at the end of
`tty_read` keeps exactly the bytes that it has not handed out, in the buffer that the
terminal has in memory. -/
theorem memmove_anyOverlap (m : Mem) (dest src : Addr) (n : BitVec 32)
    (hdest : dest.toNat + n.toNat ≤ 2 ^ 32) (hsrc : src.toNat + n.toNat ≤ 2 ^ 32) :
    (∀ i, i < n → memmoveAt m dest src n (dest + i) = m (src + i)) ∧
    (∀ a : Addr, ¬ (dest.toNat ≤ a.toNat ∧ a.toNat < dest.toNat + n.toNat) →
      memmoveAt m dest src n a = m a) ∧
    (∀ (tty : Tty) (ibuf : Addr), ibuf.toNat + IBUFSZ ≤ 2 ^ 32 → tty.ilen ≤ IBUFSZ →
      (∀ i < IBUFSZ, m (ibuf + BitVec.ofNat 32 i) = tty.ibuf i) → ∀ retct ≤ tty.ilen,
        (∀ i < IBUFSZ, memmoveAt m ibuf (ibuf + BitVec.ofNat 32 retct)
            (BitVec.ofNat 32 (tty.ilen - retct)) (ibuf + BitVec.ofNat 32 i) =
          (tty.dropFront retct).ibuf i) ∧
        (tty.dropFront retct).pending = tty.pending.drop retct) ∧
    ∀ (tty : Tty) (count : BitVec 32),
      (ttyRead tty count).2.1 ++ (ttyRead tty count).2.2.pending =
        (ttyReadLoop (tty.portdev.input.length + 1) (-EAGAIN) tty).2.pending := by
  have hcopied := memmoveAt_copied m hdest hsrc
  refine ⟨?_, ?_, ?_, ttyRead_split⟩
  · intro i hi
    exact hcopied.inside (Nat.zero_le _) (BitVec.lt_def.mp hi)
  · intro a ha
    refine hcopied.outside ?_
    bv_omega
  · intro tty ibuf hibuf hilen hbuf retct hret
    have hlen : (BitVec.ofNat 32 (tty.ilen - retct)).toNat = tty.ilen - retct := by
      refine Nat.mod_eq_of_lt ?_
      have : IBUFSZ < 2 ^ 32 := by decide
      omega
    refine ⟨?_, ?_⟩
    · intro i hi
      have hshift := memmoveAt_buffer (d := 0) (s := retct) (n := BitVec.ofNat 32 (tty.ilen - retct))
        hibuf hbuf (by omega) (by omega) hi
      rw [hlen] at hshift
      simpa [Tty.dropFront] using hshift
    · have hall := tty.pending_dropFront hret
      rw [← hall, List.drop_left' (by simp)]

/-- Ten bytes moved up by three and down by three, and the same at the top of
memory. -/
theorem memmove_anyOverlap_near :
    memmoveAt (fun a => a.setWidth 8) 0x1003#32 0x1000#32 10#32 0x1003#32 = 0#8 ∧
      memmoveAt (fun a => a.setWidth 8) 0xfffffff3#32 0xfffffff6#32 10#32 0xfffffffc#32 = 0xff#8 :=
  ⟨(memmove_anyOverlap _ _ _ _ (by decide) (by decide)).1 0#32 (by decide),
    (memmove_anyOverlap _ _ _ _ (by decide) (by decide)).1 9#32 (by decide)⟩

/-- **A read in cooked mode**: it runs the editor on what it polls, and then
hands out a piece of a completed line or asks to be called again. -/
theorem ttyRead_cooked {tty : Tty} {e : Edited Byte} {rest : Option (List Byte)}
    (h : tty.Shows e rest) (count : BitVec 32) :
    ∃ res dst tty' polls rest', ttyRead tty count = (res, dst, tty') ∧ tty.Polled tty' polls ∧
      tty'.Shows (feed tty.portdev.flags e polls) rest' ∧
      (res = -EAGAIN ∧ dst = [] ∧
          (∀ pieces, HandedOut e.lines pieces rest →
            HandedOut (feed tty.portdev.flags e polls).lines pieces rest') ∨
        res = dst.length ∧ dst.length ≤ count.toNat ∧
          (count ≠ 0#32 → ∀ pieces, HandedOut e.lines pieces rest →
            HandedOut (feed tty.portdev.flags e polls).lines (pieces ++ [dst]) rest')) ∧
      (IBUFSZ ≤ count.toNat → tty'.ibufEol = false) ∧
      (tty.ibufEol = false → tty.ilen < IBUFSZ → tty.portdev.input ≠ [] → polls ≠ []) ∧
      (∀ before, before <+: polls → before ≠ polls →
        (feed tty.portdev.flags e before).cur.length < IBUFSZ) := by
  obtain ⟨portres, tty₁, polls, rest₁, hloop, hres, hpolled, hshow, hhand, hprog, hfit⟩ :=
    ttyReadLoop_cooked (tty.portdev.input.length + 1) h (show -EAGAIN ≠ 0 by decide)
      (Nat.lt_succ_self _)
  have hprog' : tty.ibufEol = false → tty.ilen < IBUFSZ → tty.portdev.input ≠ [] → polls ≠ [] := by
    intro heol
    exact hprog (by simpa [heol] using h.eol.symm)
  cases rest₁ with
  | none =>
    -- no line is complete
    have heol : tty₁.ibufEol = false := hshow.eol
    have heof : tty₁.ibufEof = false := by simpa using hshow.eof
    refine ⟨-EAGAIN, [], tty₁, polls, none, ?_, hpolled, hshow, .inl ⟨rfl, rfl, hhand⟩,
      fun _ => heol, hprog', hfit⟩
    rw [ttyRead, hloop]
    simp [hres, heof, heol, hshow.cooked]
  | some line =>
    have heol : tty₁.ibufEol = true := hshow.eol
    have hpend : tty₁.pending = line := hshow.pending
    have hcur := hshow.cur rfl
    by_cases hzero : tty₁.ilen = 0
    · -- an empty line: the end of the file
      obtain rfl : line = [] := by rw [← hpend, ← tty₁.ilen_eq_zero, hzero]
      have heof : tty₁.ibufEof = true := hshow.eof.mpr rfl
      refine ⟨0, [], { tty₁ with ibufEof := false, ibufEol := false }, polls, none, ?_,
        ⟨hpolled.input, hpolled.portflags, hpolled.flags⟩, ?_,
        .inr ⟨rfl, Nat.zero_le _, fun _ pieces hp => (hhand pieces hp).last⟩, fun _ => rfl,
        hprog', hfit⟩
      · rw [ttyRead, hloop]
        simp [hzero, hres, heof, hshow.cooked]
      · exact ⟨hshow.cooked, hshow.ilen_le, hpend.trans hcur.symm, rfl, by simp, by simp⟩
    · have hline : line ≠ [] := fun h0 => hzero (by rw [tty₁.ilen_eq_zero, hpend, h0])
      have heof : tty₁.ibufEof = false := by
        rw [← Bool.not_eq_true, hshow.eof]
        simpa using hline
      set retct := min tty₁.ilen count.toNat with hret
      have hsplit := tty₁.pending_dropFront (Nat.min_le_left tty₁.ilen count.toNat)
      rw [← hret, hpend] at hsplit
      have hlen : ((List.range retct).map tty₁.ibuf).length = retct := by simp
      have hilen : (tty₁.dropFront retct).ilen = tty₁.ilen - retct := rfl
      have hle := hshow.ilen_le
      have hrun : ttyRead tty count =
          ((retct : Int), (List.range retct).map tty₁.ibuf, tty₁.dropFront retct) := by
        rw [ttyRead, hloop]
        simp [hzero, heol, hret]
      by_cases hall : tty₁.ilen - retct = 0
      · have hnone : (tty₁.dropFront retct).pending = [] := by
          rw [← (tty₁.dropFront retct).ilen_eq_zero, hilen, hall]
        rw [hnone, List.append_nil] at hsplit
        refine ⟨_, _, _, polls, none, hrun, ⟨hpolled.input, hpolled.portflags, hpolled.flags⟩, ?_,
          .inr ⟨by rw [hlen], by rw [hlen]; exact Nat.min_le_right _ _, fun _ pieces hp => ?_⟩,
          fun _ => by rw [Tty.dropFront, if_pos hall], hprog', hfit⟩
        · exact ⟨hshow.cooked, by rw [hilen]; omega, hnone.trans hcur.symm,
            by rw [Tty.dropFront, if_pos hall]; rfl, by simp [Tty.dropFront, heof], by simp⟩
        · rw [hsplit]
          exact (hhand pieces hp).last
      · have hpos : (tty₁.dropFront retct).pending ≠ [] := by
          rwa [Ne, ← (tty₁.dropFront retct).ilen_eq_zero]
        refine ⟨_, _, _, polls, some (tty₁.dropFront retct).pending, hrun,
          ⟨hpolled.input, hpolled.portflags, hpolled.flags⟩, ?_,
          .inr ⟨by rw [hlen], by rw [hlen]; exact Nat.min_le_right _ _, fun hcount pieces hp => ?_⟩,
          fun hbig => by omega, hprog', hfit⟩
        · refine ⟨hshow.cooked, by rw [hilen]; omega, rfl, ?_, ?_, fun _ => hcur⟩
          · rw [Tty.dropFront, if_neg hall]
            exact heol
          · simp only [Tty.dropFront, heof] at hpos ⊢
            simpa using hpos
        · refine (hsplit ▸ hhand pieces hp).piece ?_ hpos
          intro h0
          have hcount' : count.toNat ≠ 0 := fun h => hcount (BitVec.eq_of_toNat_eq h)
          rw [h0, List.length_nil] at hlen
          omega

-- ---------------------------------------------------------------------------
-- Reads in raw mode
-- ---------------------------------------------------------------------------

/-- In raw mode the buffer just collects what comes in. -/
structure Tty.Collects (tty : Tty) : Prop where
  raw     : tty.isCooked = false
  ilen_le : tty.ilen ≤ IBUFSZ
  eol     : tty.ibufEol = false

theorem consumed_append (portflags : BitVec 32) (polls polls' : List (Option Byte)) :
    consumed portflags (polls ++ polls') =
      consumed portflags polls ++ consumed portflags polls' := by
  simp [consumed]

theorem ttyReadLoop_raw (fuel : Nat) {portres : Int} {tty : Tty} (h : tty.Collects)
    (hres : portres ≠ 0) :
    ∃ portres' tty' polls, ttyReadLoop fuel portres tty = (.inr portres', tty') ∧
      portres' ≠ 0 ∧ tty.Polled tty' polls ∧ tty'.Collects ∧
      tty'.pending = tty.pending ++ consumed tty.portdev.flags polls := by
  induction fuel generalizing tty portres with
  | zero => exact ⟨portres, tty, [], rfl, hres, ⟨rfl, rfl, rfl⟩, h, by simp [consumed]⟩
  | succ fuel ih =>
    rw [ttyReadLoop]
    by_cases hgo : tty.ilen < IBUFSZ ∧ tty.ibufEol = false
    · rw [if_pos hgo]
      cases hinput : tty.portdev.input with
      | nil =>
        simp only [serialRead_nil hinput]
        exact ⟨-EAGAIN, tty, [], rfl, by decide, ⟨by simp [hinput], rfl, rfl⟩, h, by simp [consumed]⟩
      | cons poll input =>
        cases poll with
        | none =>
          simp only [serialRead_none hinput]
          exact ⟨-EAGAIN, _, [none], rfl, by decide, ⟨by simp [hinput], rfl, rfl⟩,
            ⟨h.raw, h.ilen_le, h.eol⟩, by simp [consumed, Tty.pending]⟩
        | some ch =>
          simp only [serialRead_some hinput]
          rw [if_neg (by decide)]
          obtain ⟨tty₁, hadd, hport, hpend, hlen, heol, -⟩ :=
            @addToInbuf_spec { tty with portdev := { tty.portdev with input := input } }
              hgo.1 (ifilter tty.portdev.flags ch)
          have hin : ttyInchar { tty with portdev := { tty.portdev with input := input } }
              (ifilter tty.portdev.flags ch) = (0, tty₁) := by
            rw [← hadd]
            exact if_pos (by simpa [Tty.isCooked] using h.raw)
          have hcoll : tty₁.Collects :=
            ⟨hport.isCooked.trans h.raw, by rw [hlen]; exact hgo.1, heol.trans h.eol⟩
          obtain ⟨portres', tty', polls, hloop, hres', hpolled, hcoll', hpend'⟩ :=
            ih hcoll (show (1 : Int) ≠ 0 by decide)
          refine ⟨portres', tty', some ch :: polls, ?_, hres', ⟨?_, ?_, ?_⟩, hcoll', ?_⟩
          · simp only [List.headD_cons, hin]
            rw [if_neg (by decide), hloop]
          · rw [hinput, List.cons_append, ← hpolled.input, hport.input]
          · rw [hpolled.portflags, hport.portflags]
          · rw [hpolled.flags, hport.flags]
          · rw [hpend', hpend, hport.portflags]
            simp [consumed, Tty.pending]
    · rw [if_neg hgo]
      exact ⟨portres, tty, [], rfl, hres, ⟨rfl, rfl, rfl⟩, h, by simp [consumed]⟩

/-- **A read in raw mode** hands out the first bytes that have come in. -/
theorem ttyRead_raw {tty : Tty} (h : tty.Collects) (count : BitVec 32) :
    ∃ res dst tty' polls, ttyRead tty count = (res, dst, tty') ∧ tty.Polled tty' polls ∧
      tty'.Collects ∧ dst ++ tty'.pending = tty.pending ++ consumed tty.portdev.flags polls ∧
      (res = -EAGAIN ∧ dst = [] ∨ res = dst.length ∧ dst.length ≤ count.toNat) := by
  obtain ⟨portres, tty₁, polls, hloop, hres, hpolled, hcoll, hpend⟩ :=
    ttyReadLoop_raw (tty.portdev.input.length + 1) h (show -EAGAIN ≠ 0 by decide)
  rw [ttyRead, hloop]
  by_cases hzero : tty₁.ilen = 0
  · refine ⟨-EAGAIN, [], tty₁, polls, ?_, hpolled, hcoll, hpend, .inl ⟨rfl, rfl⟩⟩
    simp [hzero, hres, hcoll.raw]
  · have hle := hcoll.ilen_le
    have hlen : ((List.range (min tty₁.ilen count.toNat)).map tty₁.ibuf).length =
        min tty₁.ilen count.toNat := by simp
    refine ⟨(min tty₁.ilen count.toNat : Nat), (List.range (min tty₁.ilen count.toNat)).map tty₁.ibuf,
      tty₁.dropFront (min tty₁.ilen count.toNat), polls, by simp [hzero, hcoll.raw],
      ⟨hpolled.input, hpolled.portflags, hpolled.flags⟩, ⟨hcoll.raw, ?_, ?_⟩, ?_,
      .inr ⟨by rw [hlen], by rw [hlen]; exact Nat.min_le_right _ _⟩⟩
    · exact Nat.le_trans (Nat.sub_le _ _) hle
    · simp [Tty.dropFront, hcoll.eol]
    · rw [tty₁.pending_dropFront (Nat.min_le_left _ _), hpend]

-- ---------------------------------------------------------------------------
-- Runs
-- ---------------------------------------------------------------------------

/-- The pieces that reads have handed out; a negative result hands out nothing. -/
def returned (results : List (Int × List Byte)) : List (List Byte) :=
  (results.filter fun r => 0 ≤ r.1).map (·.2)

/-- A read asks to be called again, or returns the number of bytes it stores. -/
def ReadOk (count : BitVec 32) (r : Int × List Byte) : Prop :=
  r = (-EAGAIN, []) ∨ r.1 = r.2.length ∧ r.2.length ≤ count.toNat

theorem returned_cons_again (results : List (Int × List Byte)) :
    returned ((-EAGAIN, []) :: results) = returned results := by
  simp [returned, EAGAIN]

theorem returned_cons_piece {res : Int} {dst : List Byte} (h : res = dst.length)
    (results : List (Int × List Byte)) :
    returned ((res, dst) :: results) = dst :: returned results := by
  simp [returned, h]

theorem Tty.Polled.trans {tty tty₁ tty₂ : Tty} {polls polls' : List (Option Byte)}
    (h : tty.Polled tty₁ polls) (h' : tty₁.Polled tty₂ polls') : tty.Polled tty₂ (polls ++ polls') :=
  ⟨by rw [h.input, h'.input, List.append_assoc], h'.portflags.trans h.portflags,
    h'.flags.trans h.flags⟩

/-- A run of reads in cooked mode, from any state. -/
theorem ttyReads_cooked {tty : Tty} {e : Edited Byte} {rest : Option (List Byte)}
    (h : tty.Shows e rest) (counts : List (BitVec 32)) :
    ∃ polls rest', tty.Polled (ttyReads tty counts).2 polls ∧
      (ttyReads tty counts).2.Shows (feed tty.portdev.flags e polls) rest' ∧
      List.Forall₂ ReadOk counts (ttyReads tty counts).1 ∧
      ((∀ c ∈ counts, c ≠ 0#32) → ∀ pieces, HandedOut e.lines pieces rest →
        HandedOut (feed tty.portdev.flags e polls).lines
          (pieces ++ returned (ttyReads tty counts).1) rest') := by
  induction counts generalizing tty e rest with
  | nil =>
    exact ⟨[], rest, ⟨rfl, rfl, rfl⟩, h, .nil, fun _ pieces hp => by simpa [ttyReads, returned] using hp⟩
  | cons count counts ih =>
    obtain ⟨res, dst, tty₁, polls, rest₁, hread, hpolled, hshow, hcase, -, -, -⟩ :=
      ttyRead_cooked h count
    obtain ⟨polls', rest', hpolled', hshow', hok, hhand⟩ := ih hshow
    rw [hpolled.portflags, ← feed_append] at hshow' hhand
    have hrun : ttyReads tty (count :: counts) =
        ((res, dst) :: (ttyReads tty₁ counts).1, (ttyReads tty₁ counts).2) := by
      simp only [ttyReads, hread]
    rw [hrun]
    refine ⟨polls ++ polls', rest', hpolled.trans hpolled', hshow', ?_, ?_⟩
    · refine .cons ?_ hok
      rcases hcase with ⟨rfl, rfl, -⟩ | ⟨hres, hle, -⟩
      · exact .inl rfl
      · exact .inr ⟨hres, hle⟩
    · intro hcounts pieces hp
      have hrest := hhand fun c hc => hcounts c (List.mem_cons_of_mem _ hc)
      rcases hcase with ⟨rfl, rfl, hkeep⟩ | ⟨hres, -, hpiece⟩
      · rw [returned_cons_again]
        exact hrest pieces (hkeep pieces hp)
      · rw [returned_cons_piece hres, List.append_cons]
        exact hrest _ (hpiece (hcounts count (by simp)) pieces hp)

/-- A run of reads in raw mode, from any state. -/
theorem ttyReads_raw {tty : Tty} (h : tty.Collects) (counts : List (BitVec 32)) :
    ∃ polls, tty.Polled (ttyReads tty counts).2 polls ∧
      List.Forall₂ ReadOk counts (ttyReads tty counts).1 ∧
      (returned (ttyReads tty counts).1).flatten ++ (ttyReads tty counts).2.pending =
        tty.pending ++ consumed tty.portdev.flags polls := by
  induction counts generalizing tty with
  | nil => exact ⟨[], ⟨rfl, rfl, rfl⟩, .nil, by simp [ttyReads, returned, consumed]⟩
  | cons count counts ih =>
    obtain ⟨res, dst, tty₁, polls, hread, hpolled, hcoll, hpend, hcase⟩ := ttyRead_raw h count
    obtain ⟨polls', hpolled', hok, hpend'⟩ := ih hcoll
    rw [hpolled.portflags] at hpend'
    have hrun : ttyReads tty (count :: counts) =
        ((res, dst) :: (ttyReads tty₁ counts).1, (ttyReads tty₁ counts).2) := by
      simp only [ttyReads, hread]
    rw [hrun]
    refine ⟨polls ++ polls', hpolled.trans hpolled', .cons ?_ hok, ?_⟩
    · rcases hcase with ⟨rfl, rfl⟩ | hres
      · exact .inl rfl
      · exact .inr hres
    · have hdst : (returned ((res, dst) :: (ttyReads tty₁ counts).1)).flatten =
          dst ++ (returned (ttyReads tty₁ counts).1).flatten := by
        rcases hcase with ⟨rfl, rfl⟩ | ⟨hres, -⟩
        · rw [returned_cons_again, List.nil_append]
        · rw [returned_cons_piece hres, List.flatten_cons]
      rw [hdst, List.append_assoc, hpend', ← List.append_assoc, hpend, consumed_append,
        List.append_assoc]

/-- A terminal whose buffer is empty, as `tty_open_dev` leaves it. -/
structure Tty.Fresh (tty : Tty) : Prop where
  ilen : tty.ilen = 0
  eol  : tty.ibufEol = false
  eof  : tty.ibufEof = false

theorem Tty.Fresh.shows {tty : Tty} (h : tty.Fresh) (hcooked : tty.isCooked = true) :
    tty.Shows Edited.empty none := by
  have hpend : tty.pending = [] := by rw [← tty.ilen_eq_zero, h.ilen]
  exact ⟨hcooked, by rw [h.ilen]; exact Nat.zero_le _, hpend, h.eol, by simp [h.eof], by simp⟩

theorem Tty.Fresh.collects {tty : Tty} (h : tty.Fresh) (hraw : tty.isCooked = false) :
    tty.Collects :=
  ⟨hraw, by rw [h.ilen]; exact Nat.zero_le _, h.eol⟩

/-- The line discipline, for a run in cooked mode: the reads have handed out
completed lines of the editor piece by piece, the buffer holds what is left of
the line that is being handed out, or else the unfinished line, and no later
byte changes a completed line. -/
def LineDiscipline (e : Edited Byte) (pieces : List (List Byte)) (pending : List Byte) : Prop :=
  pieces.flatten ++ pending = e.lines.flatten ++ e.cur ∧
  (∃ rest, HandedOut e.lines pieces rest ∧ pending = rest.getD e.cur ∧
    (rest.isSome = true → e.cur = [])) ∧
  ∀ later, e.lines <+: (e.keys later).lines

/-- **The line discipline holds whatever the timing.** For every stream of bytes
and every placement of polls that find nothing, and for every sequence of reads:
in cooked mode the reads hand out what the reference editor makes of the bytes
consumed, and in raw mode the bytes themselves. -/
theorem ttyReads_lineDiscipline (tty : Tty) (hfresh : tty.Fresh) (counts : List (BitVec 32))
    (hcounts : ∀ c ∈ counts, c ≠ 0#32) :
    ∃ polls, tty.Polled (ttyReads tty counts).2 polls ∧
      List.Forall₂ ReadOk counts (ttyReads tty counts).1 ∧
      (tty.isCooked = true →
        LineDiscipline (feed tty.portdev.flags Edited.empty polls)
          (returned (ttyReads tty counts).1) (ttyReads tty counts).2.pending) ∧
      (tty.isCooked = false →
        (returned (ttyReads tty counts).1).flatten ++ (ttyReads tty counts).2.pending =
          consumed tty.portdev.flags polls) := by
  cases hmode : tty.isCooked with
  | true =>
    obtain ⟨polls, rest, hpolled, hshow, hok, hhand⟩ := ttyReads_cooked (hfresh.shows hmode) counts
    have hhanded := hhand hcounts [] .start
    rw [List.nil_append] at hhanded
    refine ⟨polls, hpolled, hok, fun _ => ⟨?_, ⟨rest, hhanded, hshow.pending, hshow.cur⟩,
      Edited.lines_keys _⟩, nofun⟩
    rw [hshow.pending, ← hhanded.flatten]
    cases rest with
    | none => simp
    | some line => simp [hshow.cur rfl]
  | false =>
    obtain ⟨polls, hpolled, hok, hpend⟩ := ttyReads_raw (hfresh.collects hmode) counts
    refine ⟨polls, hpolled, hok, nofun, fun _ => ?_⟩
    have hnil : tty.pending = [] := by rw [← tty.ilen_eq_zero, hfresh.ilen]
    rw [hpend, hnil, List.nil_append]

/-- The terminal of the boot shell, with the given input to come. -/
def shellTty (input : List (Option Byte)) : Tty :=
  ⟨⟨SRL_ICRNL ||| SRL_OCRNL, input, []⟩, TTY_ECHO ||| TTY_COOKED, false, false, 0, fun _ => 0#8⟩

/-- Somebody types `hj`, a backspace, and after a pause `i` and the enter key. -/
def typedHi : Tty :=
  shellTty ((bytes "hj\x08").map some ++ [none] ++ (bytes "i\r").map some)

theorem ttyReads_lineDiscipline_hi :
    ∃ polls, typedHi.Polled (ttyReads typedHi [4#32, 1#32, 4#32]).2 polls ∧
      LineDiscipline (feed typedHi.portdev.flags Edited.empty polls)
        [bytes "h", bytes "i\n"] [] := by
  have hcounts : ∀ c ∈ [4#32, 1#32, 4#32], c ≠ 0#32 := by simp
  have hret : returned (ttyReads typedHi [4#32, 1#32, 4#32]).1 = [bytes "h", bytes "i\n"] := by
    decide +kernel
  have hpend : (ttyReads typedHi [4#32, 1#32, 4#32]).2.pending = [] := by decide +kernel
  obtain ⟨polls, hpolled, -, hcooked, -⟩ :=
    ttyReads_lineDiscipline typedHi ⟨rfl, rfl, rfl⟩ [4#32, 1#32, 4#32] hcounts
  have hline := hcooked rfl
  rw [hret, hpend] at hline
  exact ⟨polls, hpolled, hline⟩

-- ---------------------------------------------------------------------------
-- A full buffer
-- ---------------------------------------------------------------------------

/-- The buffer is full, and the line in it is not complete. -/
def Tty.Wedged (tty : Tty) : Prop := tty.ilen = IBUFSZ ∧ tty.ibufEol = false

/-- A terminal that is wedged stays so: no read polls the port any more. -/
theorem Tty.Wedged.read {tty : Tty} (h : tty.Wedged) (hcooked : tty.isCooked = true)
    (count : BitVec 32) : ttyRead tty count = (-EAGAIN, [], tty) := by
  have hloop : ttyReadLoop (tty.portdev.input.length + 1) (-EAGAIN) tty = (.inr (-EAGAIN), tty) :=
    if_neg fun hgo => absurd h.1 (Nat.ne_of_lt hgo.1)
  rw [ttyRead, hloop]
  simp [h.1, h.2, hcooked, IBUFSZ]

theorem ttyReads_append (tty : Tty) (counts counts' : List (BitVec 32)) :
    (ttyReads tty (counts ++ counts')).2 = (ttyReads (ttyReads tty counts).2 counts').2 := by
  induction counts generalizing tty with
  | nil => rfl
  | cons count counts ih =>
    simp only [List.cons_append, ttyReads]
    exact ih _

/-- A full line is a wedged terminal. -/
theorem Tty.Shows.wedged_iff {tty : Tty} {e : Edited Byte} {rest : Option (List Byte)}
    (h : tty.Shows e rest) : tty.Wedged ↔ IBUFSZ ≤ e.cur.length := by
  have hlen := tty.length_pending
  rw [h.pending] at hlen
  have hle := h.ilen_le
  unfold Tty.Wedged
  rw [h.eol]
  cases rest with
  | none =>
    have hlen : e.cur.length = tty.ilen := hlen
    simp only [Option.isSome_none, and_true]
    omega
  | some line => simp [h.cur rfl, IBUFSZ]

/-- Reads with room for a whole line poll the port to its last byte, unless the
terminal gets wedged. -/
theorem exists_reads {tty : Tty} {e : Edited Byte} {rest : Option (List Byte)} (n : Nat)
    (h : tty.Shows e rest) (hn : tty.portdev.input.length ≤ n) :
    ∃ counts, (ttyReads tty counts).2.Wedged ∨ (ttyReads tty counts).2.portdev.input = [] := by
  induction n generalizing tty e rest with
  | zero => exact ⟨[], .inr (List.length_eq_zero_iff.mp (Nat.le_zero.mp hn))⟩
  | succ n ih =>
    -- the first read takes a completed line out of the way
    obtain ⟨res, dst, tty₁, polls, rest₁, hread, hpolled, hshow, -, hbig, -, -⟩ :=
      ttyRead_cooked h (BitVec.ofNat 32 IBUFSZ)
    have heol : tty₁.ibufEol = false := hbig (by decide)
    have hone : (ttyReads tty [BitVec.ofNat 32 IBUFSZ]).2 = tty₁ := by simp only [ttyReads, hread]
    have hlen₁ : tty.portdev.input.length = polls.length + tty₁.portdev.input.length := by
      rw [hpolled.input, List.length_append]
    by_cases hfull : tty₁.ilen < IBUFSZ
    · by_cases hinput : tty₁.portdev.input = []
      · exact ⟨[BitVec.ofNat 32 IBUFSZ], .inr (by rw [hone, hinput])⟩
      · -- the second one gets a poll
        obtain ⟨res', dst', tty₂, polls', rest₂, hread', hpolled', hshow', -, -, hprog, -⟩ :=
          ttyRead_cooked hshow (BitVec.ofNat 32 IBUFSZ)
        have hpolls : 0 < polls'.length := List.length_pos_of_ne_nil (hprog heol hfull hinput)
        have hlen₂ : tty₁.portdev.input.length = polls'.length + tty₂.portdev.input.length := by
          rw [hpolled'.input, List.length_append]
        obtain ⟨counts, hcounts⟩ := ih hshow' (by omega)
        refine ⟨BitVec.ofNat 32 IBUFSZ :: BitVec.ofNat 32 IBUFSZ :: counts, ?_⟩
        simpa only [ttyReads, hread, hread'] using hcounts
    · exact ⟨[BitVec.ofNat 32 IBUFSZ], .inl (by
        rw [hone]
        exact ⟨Nat.le_antisymm hshow.ilen_le (Nat.not_lt.mp hfull), heol⟩)⟩

/-- A run that never wedges has typed only lines that fit. -/
theorem linesFit_of_not_wedged {tty : Tty} {e : Edited Byte} {rest : Option (List Byte)}
    (h : tty.Shows e rest) (counts : List (BitVec 32))
    (hnever : ∀ before, before <+: counts → ¬ (ttyReads tty before).2.Wedged) :
    ∃ polls, tty.Polled (ttyReads tty counts).2 polls ∧ LinesFit tty.portdev.flags e polls := by
  induction counts generalizing tty e rest with
  | nil =>
    refine ⟨[], ⟨rfl, rfl, rfl⟩, fun before hb => ?_⟩
    obtain rfl : before = [] := List.prefix_nil.mp hb
    exact Nat.lt_of_not_le fun hle => hnever [] List.prefix_rfl (h.wedged_iff.mpr hle)
  | cons count counts ih =>
    obtain ⟨res, dst, tty₁, polls, rest₁, hread, hpolled, hshow, -, -, -, hfit⟩ :=
      ttyRead_cooked h count
    have hrun : ∀ cs, (ttyReads tty (count :: cs)).2 = (ttyReads tty₁ cs).2 := fun cs => by
      simp only [ttyReads, hread]
    obtain ⟨polls', hpolled', hfit'⟩ := ih hshow fun before hb hw =>
      hnever (count :: before) ((List.prefix_cons_inj count).mpr hb) (by rwa [hrun])
    rw [hrun]
    refine ⟨polls ++ polls', hpolled.trans hpolled', fun before hb => ?_⟩
    have hlate : ∀ t, t <+: polls' →
        (feed tty.portdev.flags e (polls ++ t)).cur.length < IBUFSZ := by
      intro t ht
      have hlt := hfit' t ht
      rwa [hpolled.portflags, ← feed_append] at hlt
    by_cases heq : before = polls
    · simpa [heq] using hlate [] (List.nil_prefix)
    · rcases List.prefix_or_prefix_of_prefix hb (List.prefix_append polls polls') with hb' | ⟨t, rfl⟩
      · exact hfit before hb' heq
      · exact hlate t ((List.prefix_append_right_inj polls).mp hb)

/-- The terminal is not wedged, and later reads consume all that comes in on the
port. -/
def Tty.Alive (tty : Tty) : Prop :=
  ¬ tty.Wedged ∧ ∃ counts, (ttyReads tty counts).2.portdev.input = []

/-- **When a terminal never wedges.** With a given stream on the port, every run
of reads in cooked mode leaves the terminal alive exactly when no line that the
stream types gets `IBUFSZ` characters long, editing included. -/
theorem ttyReads_alive_iff (tty : Tty) (hfresh : tty.Fresh) (hcooked : tty.isCooked = true) :
    (∀ counts, (ttyReads tty counts).2.Alive) ↔
      LinesFit tty.portdev.flags Edited.empty tty.portdev.input := by
  have hshow := hfresh.shows hcooked
  constructor
  · intro halive
    obtain ⟨-, counts, hend⟩ := halive []
    obtain ⟨polls, hpolled, hfit⟩ :=
      linesFit_of_not_wedged hshow counts fun before _ => (halive before).1
    have hend : (ttyReads tty counts).2.portdev.input = [] := hend
    have hall : tty.portdev.input = polls := by rw [hpolled.input, hend, List.append_nil]
    rw [hall]
    exact hfit
  · intro hfit
    have hnever : ∀ counts, ¬ (ttyReads tty counts).2.Wedged := by
      intro counts hwedged
      obtain ⟨polls, rest, hpolled, hshow', -, -⟩ := ttyReads_cooked hshow counts
      have hlt := hfit polls (hpolled.input ▸ List.prefix_append _ _)
      exact absurd (hshow'.wedged_iff.mp hwedged) (Nat.not_le.mpr hlt)
    intro counts
    obtain ⟨polls, rest, -, hshow', -, -⟩ := ttyReads_cooked hshow counts
    obtain ⟨more, hmore⟩ := exists_reads _ hshow' (Nat.le_refl _)
    refine ⟨hnever counts, more, hmore.resolve_left ?_⟩
    rw [← ttyReads_append]
    exact hnever (counts ++ more)

theorem ttyReads_alive_iff_ls :
    (shellTty ((bytes "ls\r").map some)).Fresh ∧
      ∀ counts, (ttyReads (shellTty ((bytes "ls\r").map some)) counts).2.Alive := by
  have hfresh : (shellTty ((bytes "ls\r").map some)).Fresh := ⟨rfl, rfl, rfl⟩
  refine ⟨hfresh, (ttyReads_alive_iff _ hfresh rfl).mpr ?_⟩
  intro before hb
  have hall : ∀ b ∈ ((bytes "ls\r").map some).inits,
      (feed (SRL_ICRNL ||| SRL_OCRNL) Edited.empty b).cur.length < IBUFSZ := by decide
  exact hall before ((List.mem_inits before _).mpr hb)

/-- A line of 256 letters wedges the terminal, so that the newline after them is
never read. -/
theorem ttyReads_wedges :
    ¬ ∀ tty : Tty, tty.Fresh → tty.isCooked = true → ∀ counts, ¬ (ttyReads tty counts).2.Wedged := by
  intro h
  have hwedged : (ttyReads (shellTty (List.replicate 256 (some (byte 'a')) ++ [some (byte '\n')]))
      [1#32]).2.Wedged := by
    unfold Tty.Wedged
    decide +kernel
  exact h _ ⟨rfl, rfl, rfl⟩ rfl [1#32] hwedged

end Munix
