import Munix.Core.Strings

/-!
# Munix — serial ports and terminals

The model of `drivers/chrdev/serial.c` and `drivers/chrdev/tty.c`: reading and
writing a serial port, and the line discipline of a terminal on it.

The UART is the list of what the polls of its line status will find, in order:
a byte that is ready, or nothing yet. After the end of the list it never has a
byte ready. Its transmitter takes every byte, after a wait that is left out.
-/

namespace Munix

-- ---------------------------------------------------------------------------
-- Serial ports
-- ---------------------------------------------------------------------------

def SRL_ICRNL : BitVec 32 := 0x0001#32
def SRL_OCRNL : BitVec 32 := 0x0002#32

/-- `struct serial`, with what will come in on the port and what has gone out. -/
structure Serial where
  flags  : BitVec 32
  input  : List (Option Byte)
  output : List Byte
deriving DecidableEq

def serialReadch (s : Serial) : Int × Serial :=
  match s.input with
  | [] => (-EAGAIN, s)
  | none :: input => (-EAGAIN, { s with input := input })
  | some ch :: input => (ch.toNat, { s with input := input })

/-- `serial_writech(s, ch)`. The result is a `char`, which is signed. -/
def serialWritech (s : Serial) (ch : Byte) : Int × Serial :=
  (ch.toInt, { s with output := s.output ++ [ch] })

def ifilter (flags : BitVec 32) (ch : Byte) : Byte :=
  if flags &&& SRL_ICRNL ≠ 0#32 ∧ ch = byte '\r' then byte '\n' else ch

/-- `ofilter(s, outbuf, ch)`: what it leaves in `outbuf`. -/
def ofilter (flags : BitVec 32) (ch : Byte) : List Byte :=
  if flags &&& SRL_OCRNL ≠ 0#32 ∧ ch = byte '\n' then [byte '\r', ch] else [ch]

/-- The loop of `serial_read`, with the bytes read so far. -/
def serialReadLoop : Nat → Serial → List Byte → Int × List Byte × Serial
  | 0, s, dst => (dst.length, dst, s)
  | count + 1, s, dst =>
    let (ch, s) := serialReadch s
    if ch = -EAGAIN ∧ dst ≠ [] then (dst.length, dst, s)
    else if ch < 0 then (ch, dst, s)
    else serialReadLoop count s (dst ++ [ifilter s.flags (BitVec.ofInt 8 ch)])

/-- `serial_read(f, dst, count, off)`. -/
def serialRead (s : Serial) (count : BitVec 32) : Int × List Byte × Serial :=
  serialReadLoop count.toNat s []

/-- The inner loop of `serial_write`: 0 when every character has gone out. -/
def serialWriteChars : List Byte → Serial → Int × Serial
  | [], s => (0, s)
  | ch :: out, s =>
    let (res, s) := serialWritech s ch
    if res < 0 then (res, s) else serialWriteChars out s

/-- The outer loop of `serial_write`. -/
def serialWriteLoop : List Byte → Serial → Int × Serial
  | [], s => (0, s)
  | ch :: src, s =>
    let (res, s) := serialWriteChars (ofilter s.flags ch) s
    if res < 0 then (res, s) else serialWriteLoop src s

/-- `serial_write(f, src, count, off)`. The count becomes an `ssize_t`. -/
def serialWrite (s : Serial) (src : List Byte) : Int × Serial :=
  let (res, s) := serialWriteLoop src s
  if res < 0 then (res, s) else ((BitVec.ofNat 32 src.length).toInt, s)

/-- `file_printf` to a serial port. `file_vprintf` formats into buffers until the
text fits. -/
def serialPrintf (s : Serial) (fmt : List Byte) (args : List VaArg) : Serial :=
  match formatText fmt args with
  | .ok text => (serialWrite s text).2
  | _ => s

-- ---------------------------------------------------------------------------
-- Terminals
-- ---------------------------------------------------------------------------

def IBUFSZ : Nat := 256

def TTY_ECHO : BitVec 32 := 0x0001#32
def TTY_ECHOCTL : BitVec 32 := 0x0002#32
def TTY_COOKED : BitVec 32 := 0x0004#32

def CTRL_D : Byte := 0x04#8
def CTRL_U : Byte := 0x15#8

/-- `struct tty`, on a serial port. -/
structure Tty where
  portdev : Serial
  flags   : BitVec 32
  ibufEol : Bool
  ibufEof : Bool
  ilen    : Nat
  ibuf    : Nat → Byte

/-- `ISCOOKED(TTY)`. -/
def Tty.isCooked (tty : Tty) : Bool := tty.flags &&& TTY_COOKED != 0#32

/-- `file_write(&tty->portdev, src, count)`. -/
def Tty.write (tty : Tty) (src : List Byte) : Tty :=
  { tty with portdev := (serialWrite tty.portdev src).2 }

def isprint (c : Byte) : Bool := 0x20#8 ≤ c && c ≤ 0x7e#8

/-- `echoc(tty, ch)`. The terminator of `"\n\r\t"` is one of its characters. -/
def echoc (tty : Tty) (ch : Byte) : Tty :=
  if tty.flags &&& TTY_ECHO = 0#32 then tty
  else if tty.flags &&& TTY_ECHOCTL = 0#32 ∨ isprint ch ∨ ch ∈ bytes "\n\r\t\x00" then
    tty.write [ch]
  else if 0 ≤ ch.toInt ∧ ch.toInt < 0x1f then tty.write [byte '^', ch + 0x40#8]
  else if ch = 0x7f#8 then tty.write (bytes "^?")
  else
    { tty with
      portdev := serialPrintf tty.portdev (bytes "\\x%02hhx") [.word (ch.signExtend 32)] }

def echos (tty : Tty) (str : List Byte) : Tty :=
  if tty.flags &&& TTY_ECHO = 0#32 then tty else tty.write str

/-- `add_to_inbuf(tty, ch)`. -/
def addToInbuf (tty : Tty) (ch : Byte) : Int × Tty :=
  if tty.ilen = IBUFSZ then (-ENOBUFS, tty)
  else
    (0, echoc { tty with ilen := tty.ilen + 1, ibuf := Function.update tty.ibuf tty.ilen ch } ch)

def backspace (tty : Tty) : Tty :=
  if tty.ilen = 0 then tty else echos { tty with ilen := tty.ilen - 1 } (bytes "\x08 \x08")

/-- `clearline(tty)`: one backspace for each character. -/
def clearline (tty : Tty) : Tty := backspace^[tty.ilen] tty

def onEof (tty : Tty) : Tty :=
  { tty with ibufEol := true, ibufEof := if tty.ilen = 0 then true else tty.ibufEof }

/-- `struct specialchar`. -/
structure Specialchar where
  ch          : Byte
  specialEcho : Option (List Byte)
  endline     : Bool
  isinput     : Bool
  onrecv      : Tty → Tty

def SPECIALCHARS : List Specialchar :=
  [⟨byte '\n', none, true, true, id⟩,
   ⟨CTRL_D, some (bytes "^D\n"), true, false, onEof⟩,
   ⟨0x08#8, none, false, false, backspace⟩,
   ⟨0x7f#8, none, false, false, backspace⟩,
   ⟨CTRL_U, none, false, false, clearline⟩]

/-- `tty_inchar(tty, ch)`. -/
def ttyInchar (tty : Tty) (ch : Byte) : Int × Tty :=
  if !tty.isCooked then addToInbuf tty ch
  else if tty.ibufEol then (-ENOBUFS, tty)
  else
    match SPECIALCHARS.find? (·.ch = ch) with
    | some spch =>
      let tty := if spch.endline then { tty with ibufEol := true } else tty
      let tty := (spch.specialEcho.map (echos tty)).getD tty
      let tty := spch.onrecv tty
      if spch.isinput then addToInbuf tty ch else (0, tty)
    | none => addToInbuf tty ch

/-- The loop of `tty_read`: the error it returns with, or the last result of the
port. Each round polls the port, which has nothing ready in the end, so that a
round for each poll and one more are enough. -/
def ttyReadLoop : Nat → Int → Tty → (Int ⊕ Int) × Tty
  | 0, portres, tty => (.inr portres, tty)
  | fuel + 1, portres, tty =>
    if tty.ilen < IBUFSZ ∧ tty.ibufEol = false then
      let (portres, dst, portdev) := serialRead tty.portdev 1#32
      let tty := { tty with portdev := portdev }
      if portres ≤ 0 then (.inr portres, tty)
      else
        let (res, tty) := ttyInchar tty (dst.headD 0#8)
        if res < 0 then (.inl res, tty) else ttyReadLoop fuel portres tty
    else (.inr portres, tty)

/-- The end of `tty_read`, when it has handed out `retct` characters. -/
def Tty.dropFront (tty : Tty) (retct : Nat) : Tty :=
  let ilen := tty.ilen - retct
  { tty with
    ibuf := memmove tty.ibuf 0 retct (tty.ilen - retct)
    ilen := ilen
    ibufEol := if ilen = 0 then false else tty.ibufEol }

/-- `tty_read(f, dst, count, off)`: its result, the bytes it stores at `dst`, and
the terminal afterwards. -/
def ttyRead (tty : Tty) (count : BitVec 32) : Int × List Byte × Tty :=
  match ttyReadLoop (tty.portdev.input.length + 1) (-EAGAIN) tty with
  | (.inl res, tty) => (res, [], tty)
  | (.inr portres, tty) =>
    if tty.ilen = 0 then
      if portres = 0 then (0, [], tty)
      else if tty.isCooked ∧ tty.ibufEof then (0, [], { tty with ibufEof := false, ibufEol := false })
      else (-EAGAIN, [], tty)
    else if tty.isCooked ∧ tty.ibufEol = false then (-EAGAIN, [], tty)
    else
      let retct := min tty.ilen count.toNat
      (retct, (List.range retct).map tty.ibuf, tty.dropFront retct)

/-- A run of `tty_read` calls with the given counts: what each one returns and
stores, and the terminal afterwards. -/
def ttyReads : Tty → List (BitVec 32) → List (Int × List Byte) × Tty
  | tty, [] => ([], tty)
  | tty, count :: counts =>
    let (res, dst, tty) := ttyRead tty count
    let (rest, tty) := ttyReads tty counts
    ((res, dst) :: rest, tty)

end Munix
