import Munix.Core.TwoPass

/-!
# Munix — log lines

The model of `log_vsnprintf` and `_vlogf` in `drivers/log.c`. A log line is a
chain of pieces; when it does not fit in the first buffer, the length that the
chain returns is the size of the second one.

## Results

* `logVsnprintf_truncated` — a log line is printed like one text.
* `vlogf_text`             — the second buffer is always large enough.
-/

namespace Munix

open ByteMem

-- ---------------------------------------------------------------------------
-- The pieces of a log line
-- ---------------------------------------------------------------------------

inductive LogLevel where
  | error
  | warn
  | info
  | debug
  | trace
deriving DecidableEq

/-- A pointer to a string, with the bytes of the object. -/
structure StrPtr where
  addr : Addr
  obj  : List Byte

def StrPtr.arg (p : StrPtr) : VaArg := .ptr p.addr p.obj

def LVLSTRS : LogLevel → List Byte
  | .error => bytes "error"
  | .warn => bytes "warning"
  | .info => bytes "info"
  | .debug => bytes "debug"
  | .trace => bytes "trace"

/-- `struct _log_extra`, where `none` is NULL. The result comes with what
`strerror_s` leaves in `errbuf` for it. -/
structure LogExtra where
  result    : Option (BitVec 32 × StrPtr)
  post      : Option StrPtr
  valname   : Option StrPtr
  tblhw     : BitVec 32
  valdecode : Option StrPtr

def resultPiece : BitVec 32 × StrPtr → Piece
  | (res, errbuf) =>
    if res = 0#32 then ⟨bytes "[OK] ", []⟩
    else if res.msb then ⟨bytes "[-%s] ", [errbuf.arg]⟩
    else ⟨bytes "[%d] ", [.word res]⟩

/-- The arguments of `log_vsnprintf` after the buffer; `lvlstr` is where the
string of the level lies. -/
structure LogLine where
  lvl    : LogLevel
  lvlstr : Addr
  pre    : StrPtr
  x      : Option LogExtra
  fmt    : List Byte
  va     : List VaArg

/-- What `log_vsnprintf` prints, in this order. -/
def LogLine.pieces (l : LogLine) : List Piece :=
  [⟨bytes "%-7s: ", [.ptr l.lvlstr (LVLSTRS l.lvl ++ [0#8])]⟩]
    ++ ((l.x.bind (·.result)).map resultPiece).toList
    ++ [⟨bytes "%s: ", [l.pre.arg]⟩]
    ++ (l.x.bind fun x => x.valname.map fun v => ⟨bytes "%-*s: ", [.word x.tblhw, v.arg]⟩).toList
    ++ [⟨l.fmt, l.va⟩]
    ++ (l.x.bind fun x => x.valdecode.map fun v => ⟨bytes " (%s)", [v.arg]⟩).toList
    ++ (l.x.bind fun x => x.post.map fun v => ⟨bytes "%s", [v.arg]⟩).toList

-- ---------------------------------------------------------------------------
-- Formatting a line
-- ---------------------------------------------------------------------------

/-- The pieces one after the other, up to one that fails. -/
def appendUntil (m : Mem) (pos endp : Addr) : List Piece → Option (Except Int Addr × Mem)
  | [] => some (.ok pos, m)
  | p :: pieces =>
    match appendPiece m pos endp p with
    | none => none
    | some (res, pos, m) => if res < 0 then some (.error res, m) else appendUntil m pos endp pieces

def logVsnprintf (m : Mem) (buf : Addr) (n : BitVec 32) (l : LogLine) : Option (Int × Mem) :=
  (appendUntil m buf (buf + n) l.pieces).map fun
    | (.error res, m) => (res, m)
    | (.ok pos, m) => ((pos - buf).toInt, m)

/-- `log_vsnprintf` as its caller sees it: `va` goes on to `vsnprintf`, which
takes the arguments from a copy, and so the line stays as it was. -/
def logFormatter : Formatter LogLine := fun l m buf n =>
  (logVsnprintf m buf n l).map fun (res, m) => (res, l, m)

/-- A file that can be written to; `f->f_op->write` may be missing. -/
structure OutFile where
  write : Option (List Byte → Int)

/-- `file_write(f, src, count)`, where `none` is NULL. -/
def fileWrite (f : Option OutFile) : Writer := fun m src count =>
  match f.bind (·.write) with
  | none => ⟨[], -EINVAL⟩
  | some write =>
    if src = 0#32 ∨ count = 0#32 then ⟨[], 0⟩
    else ⟨[.write (bufText m src count.toNat)], write (bufText m src count.toNat)⟩

/-- `_vlogf`, for at most `k` tries. The levels are not negative, and the copy
`va_tmp` that each try makes is not used. -/
def vlogf (logFile : Option OutFile) (array : BitVec 32 → Addr) (k : Nat) (m : Mem)
    (l : LogLine) : Option Printed :=
  if logFile.isNone then some ⟨[], -EBADF⟩
  else tryFormat logFormatter (fileWrite logFile) array k l m DEFAULT_BUFSZ

-- ---------------------------------------------------------------------------
-- A line is one text
-- ---------------------------------------------------------------------------

/-- Pieces that do not fail are all printed. -/
theorem appendUntil_eq (b : Buffer) {pieces : List Piece} {text : List Byte} {d : Nat}
    (h : concatText pieces = some text) (hlen : text.length < 2 ^ 31)
    (hfits : b.buf.toNat + d + text.length < 2 ^ 32) (m : Mem) :
    appendUntil m (b.buf + BitVec.ofNat 32 d) b.endp pieces =
      (appendAll m (b.buf + BitVec.ofNat 32 d) b.endp pieces).map fun (pos, m) => (.ok pos, m) := by
  induction pieces generalizing d text m with
  | nil => rfl
  | cons p pieces ih =>
    obtain ⟨first, rest, hfirst, hrest, rfl⟩ := concatText_cons h
    rw [List.length_append] at hlen hfits
    obtain ⟨m₁, hres, -⟩ := appendPiece_truncated b (d := d) hfirst (by omega) (by omega) m
    have hnat : ¬ (first.length : Int) < 0 := by omega
    rw [appendUntil, appendAll, hres]
    simp only [hnat, if_false]
    exact ih hrest (by omega) (by omega) m₁

/-- **A log line is printed like one text**: the returned length is that of the
whole line, and the buffer holds what fits. -/
theorem logVsnprintf_truncated (b : Buffer) {l : LogLine} {text : List Byte}
    (h : concatText l.pieces = some text) (hlen : text.length < 2 ^ 31)
    (hfits : b.buf.toNat + text.length < 2 ^ 32) (m : Mem) :
    ∃ m', logVsnprintf m b.buf b.n l = some ((text.length : Int), m') ∧
      Truncated text b.buf b.n m m' := by
  have hne : l.pieces ≠ [] := by simp [LogLine.pieces]
  obtain ⟨m', hall, htrunc⟩ := appendAll_truncated b hne h hlen hfits m
  refine ⟨m', ?_, htrunc⟩
  have huntil := appendUntil_eq b (d := 0) h hlen (by omega) m
  rw [show b.buf + BitVec.ofNat 32 0 = b.buf by bv_omega, hall] at huntil
  have hnat : (b.buf + BitVec.ofNat 32 text.length - b.buf).toNat = text.length := by bv_omega
  have hint : (b.buf + BitVec.ofNat 32 text.length - b.buf).toInt = text.length := by
    rw [BitVec.toInt_eq_toNat_of_lt (by omega), hnat]
  rw [logVsnprintf, show b.buf + b.n = b.endp from rfl, huntil]
  simp only [Option.map_some, hint]

theorem logFormatter_text {l : LogLine} {text : List Byte} (h : concatText l.pieces = some text)
    (hlen : text.length < 2 ^ 31) : FormatsText logFormatter l text := by
  intro b m hfits
  obtain ⟨m', hres, htrunc⟩ := logVsnprintf_truncated b h hlen hfits m
  exact ⟨m', by rw [logFormatter, hres, Option.map_some], htrunc⟩

theorem fileWrite_once {f : OutFile} {op : List Byte → Int} (h : f.write = some op) :
    WritesOnce (fileWrite (some f)) op := by
  intro m src count hsrc hcount
  simp [fileWrite, h, hsrc, hcount]

/-- **The retry length is right**: whatever the length of the line, at most two
tries are needed, and what is written to the log file is the whole line. -/
theorem vlogf_text (st : ArrayStack) {f : OutFile} {op : List Byte → Int} (hop : f.write = some op)
    {l : LogLine} {text : List Byte} (h : concatText l.pieces = some text)
    (hne : 1 ≤ text.length) (hlen : text.length ≤ 2 ^ 31 - 2) {k : Nat} (hk : 2 ≤ k) (m : Mem) :
    vlogf (some f) st.array k m l = some ⟨twoPassCalls text, op text⟩ := by
  rw [vlogf, if_neg (by simp)]
  exact tryFormat_text st (logFormatter_text h (by omega)) (fileWrite_once hop) hne hlen hk m

end Munix
