import Munix.Drivers.Log

/-!
# Munix — formatted output to a file

The models of `file_vprintf` in `drivers/vfs_file.c` and `vfprintf` in
`mulibc/stdio.c`. They differ in the argument list that they hand to
`vsnprintf`: one a copy that it makes for every try, the other the list that it
was given. `vsnprintf` takes the arguments from a copy of its own, so that the
second try finds all of them in both.

## Results

* `fileVprintf_text`, `vfprintf_text` — at most two tries, one write of the text.
* `twoPass_writesWhole`               — the same of these two and `_vlogf`.
-/

namespace Munix

open ByteMem

-- ---------------------------------------------------------------------------
-- The functions
-- ---------------------------------------------------------------------------

/-- `vsnprintf` as its caller sees it: `snprintf_impl` takes the arguments from
`argscopy`, and the list of the caller stays where it was. -/
def vsnprintfFormatter (fmt : List Byte) : Formatter (List VaArg) := fun va m buf bufsz =>
  (vsnprintf m buf bufsz fmt va).map fun (res, m) => (res, va, m)

/-- `file_vprintf`, for at most `k` tries. -/
def fileVprintf (f : Option OutFile) (array : BitVec 32 → Addr) (k : Nat) (m : Mem)
    (fmt : List Byte) (va : List VaArg) : Option Printed :=
  let format : Formatter (List VaArg) := fun va m buf bufsz =>
    let vaTmp := va
    (vsnprintfFormatter fmt vaTmp m buf bufsz).map fun (len, _, m) => (len, va, m)
  tryFormat format (fileWrite f) array k va m DEFAULT_BUFSZ

/-- `write(fd, src, count)`: a system call, which hands on NULL and no bytes at
all as well. -/
def sysWrite (syscall : List Byte → Int) : Writer := fun m src count =>
  ⟨[.write (bufText m src count.toNat)], syscall (bufText m src count.toNat)⟩

/-- `vfprintf`, for at most `k` tries; `write` is what the system call does for
the descriptor of the stream. The copy `va_tmp` of each try is not used. -/
def vfprintf (write : List Byte → Int) (array : BitVec 32 → Addr) (k : Nat) (m : Mem)
    (fmt : List Byte) (va : List VaArg) : Option Printed :=
  tryFormat (vsnprintfFormatter fmt) (sysWrite write) array k va m 256#32

-- ---------------------------------------------------------------------------
-- The whole text
-- ---------------------------------------------------------------------------

section Text

variable {fmt text : List Byte} {va : List VaArg}

theorem vsnprintfFormatter_text (h : formatText fmt va = .ok text) (hlen : text.length < 2 ^ 31) :
    FormatsText (vsnprintfFormatter fmt) va text := by
  intro b m hfits
  have hnull : b.buf = 0#32 → ¬ EmptyConversion fmt va := fun h0 => absurd h0 b.nonnull
  refine ⟨_, ?_, truncated_of_fits ⟨hfits, .inr b.fits⟩ m⟩
  rw [vsnprintfFormatter, vsnprintf, snprintfImpl_of_fits h hlen hfits hnull, Option.map_some]

theorem sysWrite_once (syscall : List Byte → Int) : WritesOnce (sysWrite syscall) syscall :=
  fun _ _ _ _ _ => rfl

theorem fileVprintf_text (st : ArrayStack) {f : OutFile} {op : List Byte → Int}
    (hop : f.write = some op) (h : formatText fmt va = .ok text) (hne : 1 ≤ text.length)
    (hlen : text.length ≤ 2 ^ 31 - 2) {k : Nat} (hk : 2 ≤ k) (m : Mem) :
    fileVprintf (some f) st.array k m fmt va = some ⟨twoPassCalls text, op text⟩ := by
  refine tryFormat_text st (fun b m hfits => ?_) (fileWrite_once hop) hne hlen hk m
  obtain ⟨m', hres, htrunc⟩ := vsnprintfFormatter_text h (by omega) b m hfits
  exact ⟨m', by simp only [hres, Option.map_some], htrunc⟩

theorem vfprintf_text (st : ArrayStack) (write : List Byte → Int)
    (h : formatText fmt va = .ok text) (hne : 1 ≤ text.length)
    (hlen : text.length ≤ 2 ^ 31 - 2) {k : Nat} (hk : 2 ≤ k) (m : Mem) :
    vfprintf write st.array k m fmt va = some ⟨twoPassCalls text, write text⟩ :=
  tryFormat_text st (vsnprintfFormatter_text h (by omega)) (sysWrite_once write) hne hlen hk m

end Text

-- ---------------------------------------------------------------------------
-- The law
-- ---------------------------------------------------------------------------

/-- A print that ends, however many tries it is given from two on, after at most
two calls of the formatter and one write, of the text and nothing else, whose
result it returns. -/
def WritesWhole (print : Nat → Option Printed) (op : List Byte → Int) (text : List Byte) : Prop :=
  ∃ p : Printed, (∀ k, 2 ≤ k → print k = some p) ∧
    p.formats.length ≤ 2 ∧ p.writes = [text] ∧ p.res = op text

theorem writesWhole_of_eq {print : Nat → Option Printed} {op : List Byte → Int} {text : List Byte}
    (h : ∀ k, 2 ≤ k → print k = some ⟨twoPassCalls text, op text⟩) : WritesWhole print op text := by
  refine ⟨_, h, ?_, ?_, rfl⟩
  · unfold Printed.formats twoPassCalls
    split <;> simp
  · unfold Printed.writes twoPassCalls
    split <;> rfl

/-- **Two-pass printing writes the whole text**, whatever its length: the three
functions format at most twice and write the text in one write. -/
theorem twoPass_writesWhole (st : ArrayStack) (m : Mem) (text : List Byte)
    (hne : 1 ≤ text.length) (hlen : text.length ≤ 2 ^ 31 - 2) :
    (∀ (f : OutFile) (op : List Byte → Int) (fmt : List Byte) (va : List VaArg),
      f.write = some op → formatText fmt va = .ok text →
        WritesWhole (fun k => fileVprintf (some f) st.array k m fmt va) op text) ∧
    (∀ (write : List Byte → Int) (fmt : List Byte) (va : List VaArg),
      formatText fmt va = .ok text →
        WritesWhole (fun k => vfprintf write st.array k m fmt va) write text) ∧
    (∀ (f : OutFile) (op : List Byte → Int) (l : LogLine),
      f.write = some op → concatText l.pieces = some text →
        WritesWhole (fun k => vlogf (some f) st.array k m l) op text) := by
  refine ⟨fun f op fmt va hop h => ?_, fun write fmt va h => ?_, fun f op l hop h => ?_⟩
  · exact writesWhole_of_eq fun k hk => fileVprintf_text st hop h hne hlen hk m
  · exact writesWhole_of_eq fun k hk => vfprintf_text st write h hne hlen hk m
  · exact writesWhole_of_eq fun k hk => vlogf_text st hop h hne hlen hk m

/-- The arrays of a process with one page of stack. -/
def pageStack : ArrayStack where
  array   := fun _ => 0x4ff000#32
  nonnull := fun _ _ => by decide
  low     := fun _ _ => by decide

/-- A file, the standard output and the log file take a line with a number in
one write of all its bytes. -/
theorem twoPass_writesWhole_line :
    WritesWhole (fun k => fileVprintf (some ⟨some fun src => src.length⟩) pageStack.array k
      (fun _ => 0#8) (bytes "pid %u\n") [.word 7#32]) (fun src => src.length) (bytes "pid 7\n") ∧
    WritesWhole (fun k => vfprintf (fun src => src.length) pageStack.array k (fun _ => 0#8)
      (bytes "pid %u\n") [.word 7#32]) (fun src => src.length) (bytes "pid 7\n") ∧
    WritesWhole (fun k => vlogf (some ⟨some fun src => src.length⟩) pageStack.array k (fun _ => 0#8)
      ⟨.info, 0x10000#32, ⟨0x10008#32, bytes "sched" ++ [0#8]⟩,
        some ⟨some (0#32, ⟨0x4fe000#32, [0#8]⟩), some ⟨0x10010#32, bytes "\n" ++ [0#8]⟩, none, 0#32,
          none⟩,
        bytes "pid %u", [.word 7#32]⟩)
      (fun src => src.length) (bytes "info   : [OK] sched: pid 7\n") :=
  ⟨(twoPass_writesWhole pageStack _ (bytes "pid 7\n") (by decide) (by decide)).1 _ _ _ _ rfl
      (by rfl),
    (twoPass_writesWhole pageStack _ (bytes "pid 7\n") (by decide) (by decide)).2.1 _ _ _ (by rfl),
    (twoPass_writesWhole pageStack _ (bytes "info   : [OK] sched: pid 7\n") (by decide)
      (by decide)).2.2 _ _ _ rfl (by decide +kernel)⟩

end Munix
