import Munix.Core.SprintfChain

/-!
# Munix — printing in two passes

`file_vprintf`, `vfprintf` and `_vlogf` format into an array on the stack before
they write. They do not know how long the text is: when it does not fit, the
result of the formatter is the size of the next array, and the arguments are
formatted again. The three loops are one loop here, over the formatter and the
writer that it calls; `Drivers/Log` and `Drivers/Vprintf` have those.

## Results

* `Truncated.bufText_eq` — a large enough array holds the text.
* `tryFormat_fits`       — a try whose array is large enough writes the text.
* `tryFormat_text`       — at most two tries, and one write of the whole text.
-/

namespace Munix

open ByteMem

-- ---------------------------------------------------------------------------
-- The loop
-- ---------------------------------------------------------------------------

/-- The size of the first array. -/
def DEFAULT_BUFSZ : BitVec 32 := 256#32

/-- The first `count` bytes of a buffer. -/
def bufText (m : Mem) (buf : Addr) (count : Nat) : List Byte :=
  (List.range count).map fun i => m (buf + BitVec.ofNat 32 i)

/-- The calls that a print makes: one that formats into an array of `bufsz`
bytes, and one that writes the bytes out. -/
inductive PrintCall where
  | format (bufsz : BitVec 32)
  | write (src : List Byte)
deriving DecidableEq

/-- The calls of a print in their order, and its result. -/
structure Printed where
  calls : List PrintCall
  res   : Int
deriving DecidableEq

namespace Printed

/-- The same after one more call of the formatter. -/
def after (p : Printed) (bufsz : BitVec 32) : Printed := { p with calls := .format bufsz :: p.calls }

/-- The sizes of the arrays that were formatted into. -/
def formats (p : Printed) : List (BitVec 32) :=
  p.calls.filterMap fun
    | .format bufsz => some bufsz
    | .write _ => none

/-- The texts that were written. -/
def writes (p : Printed) : List (List Byte) :=
  p.calls.filterMap fun
    | .format _ => none
    | .write src => some src

end Printed

/-- A call that formats the arguments `va` into the buffer: its result, and what
it leaves of the arguments for the caller. It is `none` for an overrun of an
internal buffer. -/
abbrev Formatter (V : Type) := V → Mem → Addr → BitVec 32 → Option (Int × V × Mem)

/-- A call that writes `count` bytes from an address. -/
abbrev Writer := Mem → Addr → BitVec 32 → Printed

/-- The loop, for at most `k` tries. The array `char buf[bufsz]` of a try lies
at `array bufsz`. -/
def tryFormat {V : Type} (format : Formatter V) (write : Writer) (array : BitVec 32 → Addr) :
    Nat → V → Mem → BitVec 32 → Option Printed
  | 0, _, _, _ => none
  | k + 1, va, m, bufsz =>
    match format va m (array bufsz) bufsz with
    | none => none
    | some (res, va, m) =>
      if res < 0 then some ⟨[.format bufsz], res⟩
      else if bufsz.toInt ≤ res then
        (tryFormat format write array k va m (BitVec.ofInt 32 (res + 1))).map (·.after bufsz)
      else some ((write m (array bufsz) (BitVec.ofInt 32 res)).after bufsz)

-- ---------------------------------------------------------------------------
-- What the loop relies on
-- ---------------------------------------------------------------------------

/-- Where the arrays lie. The stacks of the kernel (from `KSTACK_DFLT` down, and
`kstacks` in the image at `0x10000`) and of the processes (from `USTACK_DFLT`
down) lie in the lower half of the address space; the sizes are those that an
`int` can have. -/
structure ArrayStack where
  array   : BitVec 32 → Addr
  nonnull : ∀ bufsz, bufsz.toNat < 2 ^ 31 → array bufsz ≠ 0#32
  low     : ∀ bufsz, bufsz.toNat < 2 ^ 31 → (array bufsz).toNat ≤ 2 ^ 31

/-- The array of one try is a buffer. -/
def ArrayStack.buffer (st : ArrayStack) (bufsz : BitVec 32) (hpos : 1 ≤ bufsz.toNat)
    (hint : bufsz.toNat < 2 ^ 31) : Buffer where
  buf     := st.array bufsz
  n       := bufsz
  nonnull := st.nonnull bufsz hint
  pos     := hpos
  fits    := by
    have := st.low bufsz hint
    omega

section Loop

variable {V : Type} (format : Formatter V) (write : Writer)

/-- A formatter that prints the text into whatever part of it a buffer can hold
and leaves the arguments as they were. -/
def FormatsText (va : V) (text : List Byte) : Prop :=
  ∀ (b : Buffer) (m : Mem), b.buf.toNat + text.length < 2 ^ 32 →
    ∃ m', format va m b.buf b.n = some ((text.length : Int), va, m') ∧
      Truncated text b.buf b.n m m'

/-- A writer that hands bytes to one write, whose result it returns. -/
def WritesOnce (op : List Byte → Int) : Prop :=
  ∀ (m : Mem) (src : Addr) (count : BitVec 32), src ≠ 0#32 → count ≠ 0#32 →
    write m src count =
      ⟨[.write (bufText m src count.toNat)], op (bufText m src count.toNat)⟩

end Loop

-- ---------------------------------------------------------------------------
-- One try
-- ---------------------------------------------------------------------------

/-- A buffer that is larger than the text holds the text. -/
theorem Truncated.bufText_eq {text : List Byte} {s : Addr} {n : BitVec 32} {m m' : Mem}
    (h : Truncated text s n m m') (hn : text.length < n.toNat) :
    bufText m' s text.length = text := by
  have hn₀ : n ≠ 0#32 := by bv_omega
  apply List.ext_getElem
  · simp [bufText]
  · intro i hi₁ hi₂
    have hi : i < min (n.toNat - 1) text.length := by omega
    simp only [bufText, List.getElem_map, List.getElem_range]
    rw [h.text_eq hn₀ i hi, List.getD_eq_getElem]

section Tries

variable {V : Type} {format : Formatter V} {write : Writer} {va : V} {text : List Byte}
  {op : List Byte → Int} (st : ArrayStack)

/-- A try whose array is larger than the text writes the text. -/
theorem tryFormat_fits {bufsz : BitVec 32} (hformat : FormatsText format va text)
    (hwrite : WritesOnce write op) (hne : 1 ≤ text.length) (hroom : text.length < bufsz.toNat)
    (hint : bufsz.toNat < 2 ^ 31) (k : Nat) (m : Mem) :
    tryFormat format write st.array (k + 1) va m bufsz =
      some ⟨[.format bufsz, .write text], op text⟩ := by
  let b := st.buffer bufsz (by omega) hint
  have hlow : b.buf.toNat ≤ 2 ^ 31 := st.low bufsz hint
  obtain ⟨m', hres, htrunc⟩ := hformat b m (by omega)
  have hcount : (BitVec.ofInt 32 (text.length : Int)).toNat = text.length := by
    rw [BitVec.ofInt_natCast]
    bv_omega
  have hbytes : bufText m' b.buf (BitVec.ofInt 32 (text.length : Int)).toNat = text := by
    rw [hcount, htrunc.bufText_eq hroom]
  have hwritten : write m' b.buf (BitVec.ofInt 32 (text.length : Int)) =
      ⟨[.write text], op text⟩ := by
    have h := hwrite m' b.buf (BitVec.ofInt 32 (text.length : Int)) b.nonnull (by bv_omega)
    rwa [hbytes] at h
  have hpos : ¬ (text.length : Int) < 0 := by omega
  have hlt : ¬ bufsz.toInt ≤ (text.length : Int) := by
    rw [BitVec.toInt_eq_toNat_of_lt (by omega)]
    omega
  have hfirst : format va m (st.array bufsz) bufsz = some ((text.length : Int), va, m') := hres
  rw [tryFormat, hfirst]
  simp only [hpos, hlt, if_false]
  exact congrArg (fun p : Printed => some (p.after bufsz)) hwritten

/-- A try whose array is too small is followed by one with an array that has a
byte more than the text. -/
theorem tryFormat_again {bufsz : BitVec 32} (hformat : FormatsText format va text)
    (hlen : text.length < 2 ^ 31) (hpos : 1 ≤ bufsz.toNat) (hsmall : bufsz.toNat ≤ text.length)
    (k : Nat) (m : Mem) :
    ∃ m', tryFormat format write st.array (k + 1) va m bufsz =
      (tryFormat format write st.array k va m' (BitVec.ofNat 32 (text.length + 1))).map
        (·.after bufsz) := by
  let b := st.buffer bufsz hpos (by omega)
  have hlow : b.buf.toNat ≤ 2 ^ 31 := st.low bufsz (by omega)
  obtain ⟨m', hres, -⟩ := hformat b m (by omega)
  have hnat : ¬ (text.length : Int) < 0 := by omega
  have hge : bufsz.toInt ≤ (text.length : Int) := by
    rw [BitVec.toInt_eq_toNat_of_lt (by omega)]
    omega
  have hfirst : format va m (st.array bufsz) bufsz = some ((text.length : Int), va, m') := hres
  refine ⟨m', ?_⟩
  rw [tryFormat, hfirst]
  simp only [hnat, hge, if_false, if_true]
  rw [← Int.natCast_succ, BitVec.ofInt_natCast]

/-- The calls of a print of a text. -/
def twoPassCalls (text : List Byte) : List PrintCall :=
  if text.length < DEFAULT_BUFSZ.toNat then [.format DEFAULT_BUFSZ, .write text]
  else [.format DEFAULT_BUFSZ, .format (BitVec.ofNat 32 (text.length + 1)), .write text]

/-- **Two tries are enough**: the text is formatted into the first array or, when
it does not fit, into one of its own size, and then it is written once. -/
theorem tryFormat_text (hformat : FormatsText format va text) (hwrite : WritesOnce write op)
    (hne : 1 ≤ text.length) (hlen : text.length ≤ 2 ^ 31 - 2) {k : Nat} (hk : 2 ≤ k) (m : Mem) :
    tryFormat format write st.array k va m DEFAULT_BUFSZ =
      some ⟨twoPassCalls text, op text⟩ := by
  have h256 : DEFAULT_BUFSZ.toNat = 256 := rfl
  obtain ⟨k, rfl⟩ : ∃ k', k = k' + 1 + 1 := ⟨k - 2, by omega⟩
  by_cases hshort : text.length < DEFAULT_BUFSZ.toNat
  · rw [tryFormat_fits st hformat hwrite hne hshort (by omega), twoPassCalls, if_pos hshort]
  · obtain ⟨m', hagain⟩ : ∃ m', tryFormat format write st.array (k + 1 + 1) va m DEFAULT_BUFSZ =
        (tryFormat format write st.array (k + 1) va m' (BitVec.ofNat 32 (text.length + 1))).map
          (·.after DEFAULT_BUFSZ) :=
      tryFormat_again st hformat (by omega) (by omega) (by omega) (k + 1) m
    have hsize : (BitVec.ofNat 32 (text.length + 1)).toNat = text.length + 1 := by bv_omega
    have hsecond : tryFormat format write st.array (k + 1) va m'
        (BitVec.ofNat 32 (text.length + 1)) =
          some ⟨[.format (BitVec.ofNat 32 (text.length + 1)), .write text], op text⟩ :=
      tryFormat_fits st hformat hwrite hne (by omega) (by omega) k m'
    rw [hagain, hsecond, twoPassCalls, if_neg hshort]
    rfl

end Tries

end Munix
