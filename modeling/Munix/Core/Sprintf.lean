import Munix.Core.Macros

/-!
# Munix — formatted output

The model of `core/sprintf.c`. Every character of the output goes through
`outchar`; the functions above it are written for any output state `O` with
such an operation. `snprintf` runs them with the write-if-in-bounds cursor of
the C code, and `formatText` with a list that records the characters, which is
what "the formatted text" means.

A format string is the list of its characters before the NUL. An argument is
a 32-bit word of the `va_list`, or a pointer together with the bytes of the
object it points into; these bytes do not change during the call (the buffer
overlaps neither the format nor an argument). `none` and `undef` stand for
undefined behaviour: an internal buffer overrun, a missing argument, a string
that is not terminated.
-/

namespace Munix

open ByteMem

abbrev Byte := BitVec 8

/-- A character constant. -/
def byte (c : Char) : Byte := BitVec.ofNat 8 c.toNat

/-- A string constant, without the terminator. -/
def bytes (s : String) : List Byte := s.toList.map byte

-- ---------------------------------------------------------------------------
-- Settings
-- ---------------------------------------------------------------------------

def FMTCPYSZ : Nat := 32
def DIGITBUFSZ : Nat := 128

/-- Value for width or precision that is unspecified: `(-1)`. -/
def WP_NONE : BitVec 32 := 0xffffffff#32

/-- `struct fmtspec`, without the debugging copy of the pattern; its size
bounds the number of characters of a pattern. -/
structure FmtSpec where
  left     : Bool
  plus     : Bool
  space    : Bool
  alt      : Bool
  zero     : Bool
  w        : BitVec 32
  p        : BitVec 32
  /-- Length modifier, as the size of the desired type. -/
  lenmodsz : Nat
deriving DecidableEq

-- ---------------------------------------------------------------------------
-- Character and string output
-- ---------------------------------------------------------------------------

section Output

variable {O : Type} (outchar : O → Byte → O)

def outpad (o : O) (c : Byte) : Nat → O
  | 0 => o
  | len + 1 => outpad (outchar o c) c len

def outstr (o : O) : List Byte → O
  | [] => o
  | c :: str => outstr (outchar o c) str

/-- The padding of a value, in `size_t` arithmetic. -/
def padlen (spec : FmtSpec) (pre valstr : List Byte) : BitVec 32 :=
  let needwidth := BitVec.ofNat 32 pre.length + BitVec.ofNat 32 valstr.length
  let w := if spec.w ≠ WP_NONE then spec.w else 0#32
  if needwidth < w then w - needwidth else 0#32

def outpadded (o : O) (spec : FmtSpec) (pre valstr : List Byte) : O :=
  let pad := (padlen spec pre valstr).toNat
  let o := if !spec.left && !spec.zero then outpad outchar o (byte ' ') pad else o
  let o := outstr outchar o pre
  let o := if !spec.left && spec.zero then outpad outchar o (byte '0') pad else o
  let o := outstr outchar o valstr
  if spec.left then outpad outchar o (byte ' ') pad else o

end Output

-- ---------------------------------------------------------------------------
-- Helpers and number conversions
-- ---------------------------------------------------------------------------

def signPrefix (spec : FmtSpec) (isneg : Bool) : List Byte :=
  if isneg then bytes "-"
  else if spec.plus then bytes "+"
  else if spec.space then bytes " "
  else []

def toupper (c : Byte) : Byte := if byte 'a' ≤ c ∧ c ≤ byte 'z' then c - 0x20#8 else c

def strtoupper (s : List Byte) : List Byte := s.map toupper

def hexdigit (d : Nat) : Byte :=
  if d < 10 then byte '0' + BitVec.ofNat 8 d else byte 'a' + BitVec.ofNat 8 (d - 10)

/-- The digit loop of `itoa`, least significant digit first. A `uintmax_t` has
at most 64 digits. -/
def itoaDigits (base : Nat) : Nat → Nat → List Byte
  | 0, _ => []
  | n + 1, uval => if uval = 0 then [] else hexdigit (uval % base) :: itoaDigits base n (uval / base)

/-- `itoa(s, uval, base, precision, flags)`, where of the flags only
`CF_OCTALPREFIX` matters. The digits and their terminator have to fit in
buffers of `DIGITBUFSZ` characters. -/
def itoa (uval : BitVec 64) (base : Nat) (precision : BitVec 32) (octalPrefix : Bool) :
    Option (List Byte) :=
  let d := itoaDigits base 64 uval.toNat
  let d := d ++ List.replicate (precision.toNat - d.length) (byte '0')
  let d := if octalPrefix && d.getLast? != some (byte '0') then d ++ [byte '0'] else d
  if d.length < DIGITBUFSZ then some d.reverse else none

-- ---------------------------------------------------------------------------
-- Parameter extraction
-- ---------------------------------------------------------------------------

/-- An argument as it lies in the `va_list`. -/
inductive VaArg where
  | word (w : BitVec 32)
  | ptr (addr : BitVec 32) (obj : List Byte)
deriving DecidableEq

/-- `va_arg` of an `int`, a `long` or a pointer value. -/
def vaWord : List VaArg → Option (BitVec 32 × List VaArg)
  | [] => none
  | .word w :: args => some (w, args)
  | .ptr addr _ :: args => some (addr, args)

/-- `va_arg` of a `long long`: the low word comes first. -/
def vaWord64 (args : List VaArg) : Option (BitVec 64 × List VaArg) :=
  match vaWord args with
  | none => none
  | some (lo, args) =>
    match vaWord args with
    | none => none
    | some (hi, args) => some (hi ++ lo, args)

def vaArgSigned (sz : Nat) (args : List VaArg) : Option (BitVec 64 × List VaArg) :=
  if sz ≤ 4 then
    (vaWord args).map fun (w, args) =>
      (if sz = 0 then w.signExtend 64
        else if sz ≤ 1 then (w.setWidth 8).signExtend 64
        else if sz ≤ 2 then (w.setWidth 16).signExtend 64
        else w.signExtend 64, args)
  else vaWord64 args

def vaArgUnsigned (sz : Nat) (args : List VaArg) : Option (BitVec 64 × List VaArg) :=
  if sz ≤ 4 then
    (vaWord args).map fun (w, args) =>
      (if sz = 0 then w.setWidth 64
        else if sz ≤ 1 then (w.setWidth 8).setWidth 64
        else if sz ≤ 2 then (w.setWidth 16).setWidth 64
        else w.setWidth 64, args)
  else vaWord64 args

-- ---------------------------------------------------------------------------
-- C strings
-- ---------------------------------------------------------------------------

/-- The string that starts an object, if it is terminated in it. -/
def cstring : List Byte → Option (List Byte)
  | [] => none
  | c :: obj => if c = 0#8 then some [] else (cstring obj).map (c :: ·)

/-- The `n` characters that `strncpy(dest, src, n)` writes. It looks at a
character of `src` before it looks at the count. -/
def strncpy : List Byte → Nat → Option (List Byte)
  | [], _ => none
  | c :: src, n =>
    if c = 0#8 then some (List.replicate n 0#8)
    else
      match n with
      | 0 => some []
      | n + 1 => (strncpy src n).map (c :: ·)

-- ---------------------------------------------------------------------------
-- Formatting logic for each major conversion type
-- ---------------------------------------------------------------------------

section Format

variable {O : Type} (outchar : O → Byte → O)

/-- The string that `format_str` prints: cut off at the precision, if there is
one. A negative array size `spec->p + 1` is undefined. -/
def strValue (spec : FmtSpec) (obj : List Byte) : Option (List Byte) :=
  if spec.p ≠ WP_NONE then
    if (spec.p + 1#32).msb then none
    else (strncpy obj spec.p.toNat).bind fun pstr => cstring (pstr ++ [0#8])
  else cstring obj

def formatStr (o : O) (spec : FmtSpec) : List VaArg → Option (O × List VaArg)
  | .ptr _ obj :: args =>
    (strValue spec obj).map fun str => (outpadded outchar o spec [] str, args)
  | _ => none

/-- A NUL character prints as the empty string. -/
def formatChar (o : O) (spec : FmtSpec) (args : List VaArg) : Option (O × List VaArg) :=
  (vaWord args).bind fun (w, args) =>
    (cstring [w.setWidth 8, 0#8]).map fun convbuf => (outpadded outchar o spec [] convbuf, args)

/-- Default precision 1; if a precision is given, the zero flag is ignored. -/
def FmtSpec.checkPrecision (spec : FmtSpec) : FmtSpec :=
  if spec.p = WP_NONE then { spec with p := 1#32 } else { spec with zero := false }

def formatSigned (o : O) (spec : FmtSpec) (base : Nat) (args : List VaArg) :
    Option (O × List VaArg) :=
  (vaArgSigned spec.lenmodsz args).bind fun (val, args) =>
    let sign := signPrefix spec val.msb
    let val := if val.msb then -val else val
    let spec := spec.checkPrecision
    (itoa val base spec.p false).map fun digitbuf => (outpadded outchar o spec sign digitbuf, args)

def formatUnsigned (o : O) (spec : FmtSpec) (base : Nat) (up : Bool) (args : List VaArg) :
    Option (O × List VaArg) :=
  (vaArgUnsigned spec.lenmodsz args).bind fun (val, args) =>
    let octalPrefix := spec.alt && base == 8
    let pre :=
      if spec.alt && base == 2 && val != 0#64 then bytes "0b"
      else if spec.alt && base == 16 && val != 0#64 then bytes "0x"
      else []
    let spec := spec.checkPrecision
    (itoa val base spec.p octalPrefix).map fun digitbuf =>
      (outpadded outchar o spec (if up then strtoupper pre else pre)
        (if up then strtoupper digitbuf else digitbuf), args)

def formatPointer (o : O) (spec : FmtSpec) (args : List VaArg) : Option (O × List VaArg) :=
  let uspec : FmtSpec := ⟨false, false, false, true, false, spec.w, spec.p, 4⟩
  formatUnsigned outchar o uspec 16 false args

end Format

-- ---------------------------------------------------------------------------
-- Parsing a conversion specification
-- ---------------------------------------------------------------------------

/-- The variables of `process_conversion`: `onPrecision` says where `wp` points. -/
structure ParseState where
  spec        : FmtSpec
  onPrecision : Bool
  zeroIsFlag  : Bool
deriving DecidableEq

def ParseState.initial : ParseState :=
  ⟨⟨false, false, false, false, false, WP_NONE, WP_NONE, 0⟩, false, true⟩

/-- `*wp`. -/
def ParseState.wp (ps : ParseState) : BitVec 32 := if ps.onPrecision then ps.spec.p else ps.spec.w

/-- `*wp = v`. -/
def ParseState.setWp (ps : ParseState) (v : BitVec 32) : ParseState :=
  { ps with spec := if ps.onPrecision then { ps.spec with p := v } else { ps.spec with w := v } }

def ParseState.digit (ps : ParseState) (ch : Char) : ParseState :=
  let v := if ps.wp = WP_NONE then 0#32 else ps.wp
  { ps.setWp (v * 10#32 + BitVec.ofNat 32 (ch.toNat - 48)) with zeroIsFlag := false }

/-- A `*` with its argument: a negative width means left-justified, a negative
precision is none. -/
def ParseState.star (ps : ParseState) (arg : BitVec 32) : ParseState :=
  let ps := ps.setWp arg
  if arg.msb then
    if ps.onPrecision then { ps with spec := { ps.spec with p := WP_NONE } }
    else { ps with spec := { ps.spec with left := true, w := -arg } }
  else ps

def ParseState.lenmod (ps : ParseState) (sz : Nat) : ParseState :=
  { ps with spec := { ps.spec with lenmodsz := sz } }

/-- What a character of a specification is. -/
inductive SpecStep where
  /-- An option; `skip` says that the next character belongs to it. -/
  | option (ps : ParseState) (skip : Bool) (args : List VaArg)
  /-- It ends the specification. -/
  | conversion
  | undef

/-- The cases of the switch in `process_conversion` that go on parsing. -/
def specChar (ch nextchar : Char) (ps : ParseState) (args : List VaArg) : SpecStep :=
  match ch with
  | '-' => .option { ps with spec := { ps.spec with left := true } } false args
  | '+' => .option { ps with spec := { ps.spec with plus := true } } false args
  | ' ' => .option { ps with spec := { ps.spec with space := true } } false args
  | '#' => .option { ps with spec := { ps.spec with alt := true } } false args
  | '0' =>
    if ps.zeroIsFlag then
      .option { ps with spec := { ps.spec with zero := true }, zeroIsFlag := false } false args
    else .option (ps.digit ch) false args
  | '1' | '2' | '3' | '4' | '5' | '6' | '7' | '8' | '9' => .option (ps.digit ch) false args
  | '*' =>
    match vaWord args with
    | none => .undef
    | some (arg, args) => .option (ps.star arg) false args
  | '.' =>
    .option { spec := { ps.spec with p := 0#32 }, onPrecision := true, zeroIsFlag := false } false args
  | 'h' => if nextchar = 'h' then .option (ps.lenmod 1) true args else .option (ps.lenmod 2) false args
  | 'l' => if nextchar = 'l' then .option (ps.lenmod 8) true args else .option (ps.lenmod 4) false args
  | 'j' => .option (ps.lenmod 8) false args
  | 'z' => .option (ps.lenmod 4) false args
  | 't' => .option (ps.lenmod 4) false args
  | 'L' => .option (ps.lenmod 12) false args
  | _ => .conversion

/-- Outcome of `process_conversion`. -/
inductive Conv (α : Type) where
  | undef
  /-- NULL: unknown or unsupported conversion character. -/
  | null
  | ok (a : α)

def Conv.ofOption {α : Type} : Option α → Conv α
  | none => .undef
  | some a => .ok a

section Process

variable {O : Type} (outchar : O → Byte → O)

/-- The cases of the switch that return. -/
def convert (o : O) (ch : Char) (spec : FmtSpec) (args : List VaArg) : Conv (O × List VaArg) :=
  match ch with
  | '%' => .ok (outchar o (byte '%'), args)
  | 's' => .ofOption (formatStr outchar o spec args)
  | 'c' => .ofOption (formatChar outchar o spec args)
  | 'd' | 'i' => .ofOption (formatSigned outchar o spec 10 args)
  | 'u' => .ofOption (formatUnsigned outchar o spec 10 false args)
  | 'o' => .ofOption (formatUnsigned outchar o spec 8 false args)
  | 'x' => .ofOption (formatUnsigned outchar o spec 16 false args)
  | 'X' => .ofOption (formatUnsigned outchar o spec 16 true args)
  | 'b' => .ofOption (formatUnsigned outchar o spec 2 false args)
  | 'B' => .ofOption (formatUnsigned outchar o spec 2 true args)
  | 'p' => .ofOption (formatPointer outchar o spec args)
  | _ => .null

def toChar (b : Byte) : Char := Char.ofNat b.toNat

/-- The loop of `process_conversion`; `room` is what is left of `fmtbuf`. The
string's terminator is a character like any other, and no conversion. -/
def conversionLoop (o : O) : Nat → List Byte → ParseState → List VaArg →
    Conv (O × List Byte × List VaArg)
  | 0, _, _, _ => .undef
  | _ + 1, [], _, _ => .null
  | room + 1, b :: fmt, ps, args =>
    match specChar (toChar b) (toChar (fmt.headD 0#8)) ps args with
    | .option ps skip args => conversionLoop o room (if skip then fmt.tail else fmt) ps args
    | .undef => .undef
    | .conversion =>
      match convert outchar o (toChar b) ps.spec args with
      | .undef => .undef
      | .null => .null
      | .ok (o, args) => .ok (o, fmt, args)

/-- `process_conversion`, with `fmt` after the `%`, which is the first
character of `fmtbuf`. -/
def processConversion (o : O) (fmt : List Byte) (args : List VaArg) :
    Conv (O × List Byte × List VaArg) :=
  conversionLoop outchar o (FMTCPYSZ - 1) fmt .initial args

/-- Outcome of the main loop: the output, after the whole format or up to an
unsupported conversion. -/
inductive Formatted (O : Type) where
  | undef
  | notsup (o : O)
  | ok (o : O)

variable (isnull : O → Bool)

/-- The main loop of `snprintf_impl`, for at most `n` rounds. A conversion
reports an error by returning NULL instead of the position it has come to, so
that a position that is NULL is taken for an error. -/
def formatLoop : Nat → O → List Byte → List VaArg → Formatted O
  | 0, _, _, _ => .undef
  | _ + 1, o, [], _ => .ok o
  | n + 1, o, c :: fmt, args =>
    if c ≠ byte '%' then formatLoop n (outchar o c) fmt args
    else
      match processConversion outchar o fmt args with
      | .undef => .undef
      | .null => .notsup o
      | .ok (o, fmt, args) => if isnull o then .notsup o else formatLoop n o fmt args

/-- Every round consumes a character. -/
def format (o : O) (fmt : List Byte) (args : List VaArg) : Formatted O :=
  formatLoop outchar isnull (fmt.length + 1) o fmt args

end Process

/-- **The formatted text**: the characters that are output. -/
def formatText (fmt : List Byte) (args : List VaArg) : Formatted (List Byte) :=
  format (fun text c => text ++ [c]) (fun _ => false) [] fmt args

-- ---------------------------------------------------------------------------
-- Bounded output
-- ---------------------------------------------------------------------------

/-- The output position and memory. -/
structure Cursor where
  s   : Addr
  mem : Mem

/-- `outchar(s, t, c)`. -/
def outchar (t : Addr) (o : Cursor) (c : Byte) : Cursor where
  s   := o.s + 1#32
  mem := if o.s < t then store8 o.mem o.s c else o.mem

def UINTPTR_MAX : BitVec 32 := 0xffffffff#32

/-- The end of the buffer. -/
def bufEnd (s : Addr) (n : BitVec 32) : Addr := if s + n < s then UINTPTR_MAX else s + n

/-- The terminator: at the end of the text, or of the buffer. -/
def terminate (t : Addr) (n : BitVec 32) (o : Cursor) : Mem :=
  if n ≠ 0#32 then
    if o.s < t then store8 o.mem o.s 0#8 else store8 o.mem (t - 1#32) 0#8
  else o.mem

def snprintfImpl (m : Mem) (s : Addr) (n : BitVec 32) (fmt : List Byte) (args : List VaArg) :
    Option (Int × Mem) :=
  let t := bufEnd s n
  match format (outchar t) (fun o => o.s == 0#32) ⟨s, m⟩ fmt args with
  | .undef => none
  | .notsup o => some (-ENOTSUP, o.mem)
  | .ok o => some ((o.s - s).toInt, terminate t n o)

/-- The copied `va_list` is the list itself. -/
def vsnprintf (m : Mem) (s : Addr) (n : BitVec 32) (format : List Byte) (args : List VaArg) :
    Option (Int × Mem) :=
  snprintfImpl m s n format args

def snprintf (m : Mem) (s : Addr) (n : BitVec 32) (format : List Byte) (args : List VaArg) :
    Option (Int × Mem) :=
  snprintfImpl m s n format args

/-- `SIZE_MAX` as the size. -/
def vsprintf (m : Mem) (s : Addr) (format : List Byte) (args : List VaArg) : Option (Int × Mem) :=
  vsnprintf m s 0xffffffff#32 format args

def sprintf (m : Mem) (s : Addr) (format : List Byte) (args : List VaArg) : Option (Int × Mem) :=
  vsprintf m s format args

end Munix
