import Munix.Drivers.SerialWrite
import Munix.Kernel.System

/-!
# Munix — system calls in the kernel

`kernel/syscall_dispatch.c` and `process_write`. The descriptors of a program are the
terminal of the shell that has started it. The kernel reads what is to be sent through
the page map: at its level it can read every page that is present, and where none is
there is a page fault. `mapped` says of which addresses the page is present.

* `syscallDispatch_write` — what `SYS_write` sends and returns, for all arguments.
* `syscallDispatch_quiet` — no other call writes anything.
-/

namespace Munix

open ByteMem

-- ---------------------------------------------------------------------------
-- The dispatcher
-- ---------------------------------------------------------------------------

/-- `enum syscall_nr`. -/
def SYS_NULL : BitVec 32 := 0#32
def SYS_exit : BitVec 32 := 1#32
def SYS_write : BitVec 32 := 2#32
def SYS_thrd_create : BitVec 32 := 3#32
def SYS_thrd_exit : BitVec 32 := 4#32
def SYS_thrd_join : BitVec 32 := 5#32
def SYS_thrd_yield : BitVec 32 := 6#32
def SYS_MAX : BitVec 32 := 7#32

def FD_MAX : Nat := 4

/-- `p->fds`: which of them are the terminal. The others are NULL. -/
abbrev Fds := Fin FD_MAX → Bool

/-- The files that `kshell_read_exec` links a program to. -/
def kshellFds : Fds := fun fd => fd.val < 3

/-- The bytes from `src` on that can be read: up to the first one without a page. -/
def mappedText (mapped : Addr → Bool) (m : Mem) (src : Addr) (count : Nat) : List Byte :=
  (((List.range count).map fun i => src + BitVec.ofNat 32 i).takeWhile mapped).map m

/-- The loop of `serial_write` gets to a byte without a page: no byte that is negative
as a `char` has stopped it before. -/
def WriteFaults (mapped : Addr → Bool) (m : Mem) (src : Addr) (count : Nat) : Prop :=
  (mappedText mapped m src count).length < count ∧ ∀ ch ∈ mappedText mapped m src count, isAscii ch = true

instance (mapped : Addr → Bool) (m : Mem) (src : Addr) (count : Nat) :
    Decidable (WriteFaults mapped m src count) := inferInstanceAs (Decidable (_ ∧ _))

/-- `file_write(f, src, count)` on the terminal. There is no result after a page fault. -/
def fileWriteTty (mapped : Addr → Bool) (m : Mem) (tty : Tty) (src : Addr) (count : BitVec 32) :
    Option Int × Tty :=
  if src = 0#32 ∨ count = 0#32 then (some 0, tty)
  else
    let (res, tty) := ttyWrite tty (mappedText mapped m src count.toNat)
    if WriteFaults mapped m src count.toNat then (none, tty) else (some res, tty)

/-- `process_write(fd, src, count)`, with the descriptors of the current process if there is one. -/
def processWrite (current : Option Fds) (mapped : Addr → Bool) (m : Mem) (tty : Tty) (fd : BitVec 32)
    (src : Addr) (count : BitVec 32) : Option Int × Tty :=
  if h : 0 ≤ fd.toInt ∧ fd.toInt < FD_MAX then
    match current with
    | none => (some (-EBADF), tty)
    | some fds =>
      if fds ⟨fd.toInt.toNat, by omega⟩ then fileWriteTty mapped m tty src count else (some (-EBADF), tty)
  else (some (-EBADF), tty)

/-- How a system call goes on: it returns, or there is a page fault in the kernel, or it is a call of the
scheduler, or the process is over. -/
inductive DispatchEnd where
  | returns (res : BitVec 32)
  | fault
  | thread (call : ThreadCall)
  | exit (status : BitVec 32)

/-- `syscall_dispatch(number, arg1, ..)`. The last two arguments are not used. -/
def syscallDispatch (current : Option Fds) (mapped : Addr → Bool) (m : Mem) (tty : Tty)
    (number arg1 arg2 arg3 : BitVec 32) : DispatchEnd × Tty :=
  if number = SYS_NULL ∨ number = SYS_MAX then (.returns (BitVec.ofInt 32 (-ENOSYS)), tty)
  else if number = SYS_exit then (.exit arg1, tty)
  else if number = SYS_write then
    match processWrite current mapped m tty arg1 arg2 arg3 with
    | (some res, tty) => (.returns (BitVec.ofInt 32 res), tty)
    | (none, tty) => (.fault, tty)
  else if number = SYS_thrd_yield then (.thread .yield, tty)
  else if number = SYS_thrd_create then (.thread (.create arg1 arg2), tty)
  else if number = SYS_thrd_exit then (.thread (.exit arg1), tty)
  else if number = SYS_thrd_join then (.thread (.join arg1), tty)
  else (.returns (BitVec.ofInt 32 (-ENOSYS)), tty)

-- ---------------------------------------------------------------------------
-- Output
-- ---------------------------------------------------------------------------

/-- What of a string goes out: up to the first byte that is negative as a `char`. -/
def sentPart (src : List Byte) : List Byte := src.takeWhile isAscii ++ (src.dropWhile isAscii).take 1

/-- The result of a write. -/
def sentResult (src : List Byte) : BitVec 32 :=
  match src.dropWhile isAscii with
  | [] => BitVec.ofNat 32 src.length
  | ch :: _ => BitVec.ofInt 32 ch.toInt

variable {mapped : Addr → Bool} {m : Mem} {tty : Tty} {src : Addr} {count fd : BitVec 32} {text : List Byte}

/-- The terminal after a write. -/
def Tty.sent (tty : Tty) (src : List Byte) : Tty :=
  { tty with portdev := tty.portdev.send (expandNewlines tty.portdev.ocrnl (sentPart src)) }

theorem sent_nil (tty : Tty) : tty.sent [] = tty := by
  simp [Tty.sent, sentPart, expandNewlines, Serial.send]

theorem sentPart_ascii (h : ∀ ch ∈ text, isAscii ch = true) : sentPart text = text := by
  have hdrop : text.dropWhile isAscii = [] := List.dropWhile_eq_nil_iff.mpr h
  have htake : text.takeWhile isAscii = text := by
    have hsplit := List.takeWhile_append_dropWhile (p := isAscii) (l := text)
    rwa [hdrop, List.append_nil] at hsplit
  rw [sentPart, hdrop, htake, List.take_nil, List.append_nil]

theorem sentResult_ascii (h : ∀ ch ∈ text, isAscii ch = true) : sentResult text = BitVec.ofNat 32 text.length := by
  rw [sentResult, List.dropWhile_eq_nil_iff.mpr h]

theorem ttyWrite_sent (tty : Tty) (src : List Byte) :
    BitVec.ofInt 32 (ttyWrite tty src).1 = sentResult src ∧ (ttyWrite tty src).2 = tty.sent src := by
  have hwrite : ttyWrite tty src = ((serialWrite tty.portdev src).1, tty.write src) :=
    Prod.ext (ttyWrite_eq tty src).1 (ttyWrite_eq tty src).2
  rw [hwrite, Tty.write, Tty.sent, serialWrite, serialWriteLoop_sends, sentResult, sentPart]
  cases hrest : src.dropWhile isAscii with
  | nil =>
    have htake : src.takeWhile isAscii = src := by
      have hsplit := List.takeWhile_append_dropWhile (p := isAscii) (l := src)
      rwa [hrest, List.append_nil] at hsplit
    simp only [Int.lt_irrefl, if_false, List.take_nil, List.append_nil, htake]
    exact ⟨BitVec.ofInt_toInt .., trivial⟩
  | cons ch rest =>
    have hch : isAscii ch = false := by
      have := List.head_dropWhile_not isAscii (l := src) (by simp [hrest])
      simpa [hrest] using this
    simp only [(toInt_neg_iff ch).mpr hch, if_true, List.take_succ_cons, List.take_zero]
    exact ⟨trivial, trivial⟩

/-- Descriptor `fd` of the current process is open. -/
def FdOpen (current : Option Fds) (fd : BitVec 32) : Bool :=
  current.any fun fds =>
    if h : 0 ≤ fd.toInt ∧ fd.toInt < FD_MAX then fds ⟨fd.toInt.toNat, by omega⟩ else false

theorem mappedText_prefix (mapped : Addr → Bool) (m : Mem) (src : Addr) (count : Nat) :
    mappedText mapped m src count <+: bufText m src count := by
  have hmap : bufText m src count = ((List.range count).map fun i => src + BitVec.ofNat 32 i).map m := by
    rw [List.map_map]
    rfl
  rw [hmap]
  exact (List.takeWhile_prefix _).map m

/-- If all pages are present, then there is no page fault. -/
theorem not_writeFaults {n : Nat} (h : ∀ i < n, mapped (src + BitVec.ofNat 32 i) = true) :
    ¬ WriteFaults mapped m src n := by
  rintro ⟨hshort, -⟩
  rw [mappedText, List.takeWhile_eq_self_iff.mpr (by simpa using h)] at hshort
  simp at hshort

/-- A write that has been stopped does not depend on what follows. -/
theorem sent_of_prefix {src' : List Byte} (h : src' <+: text)
    (hstop : src'.length = text.length ∨ ¬ ∀ ch ∈ src', isAscii ch = true) :
    sentPart src' = sentPart text ∧ sentResult src' = sentResult text := by
  rcases hstop with hlen | hstop
  · rw [h.eq_of_length hlen]
    exact ⟨rfl, rfl⟩
  · obtain ⟨rest, rfl⟩ := h
    -- the negative byte is in the first part
    obtain ⟨ch, tail, hdrop⟩ : ∃ ch tail, src'.dropWhile isAscii = ch :: tail :=
      List.exists_cons_of_ne_nil fun hnil => hstop (List.dropWhile_eq_nil_iff.mp hnil)
    have hsplit := List.takeWhile_append_dropWhile (p := isAscii) (l := src')
    have hshort : (src'.takeWhile isAscii).length ≠ src'.length := by
      intro hlen
      have := congrArg List.length hsplit
      rw [List.length_append, hdrop, List.length_cons] at this
      omega
    have hdrop' : (src' ++ rest).dropWhile isAscii = ch :: (tail ++ rest) := by
      rw [List.dropWhile_append, hdrop]
      rfl
    rw [sentPart, sentPart, sentResult, sentResult, hdrop, hdrop', List.takeWhile_append, if_neg hshort]
    exact ⟨rfl, rfl⟩

/-- **`SYS_write` for all arguments.** An address that is not NULL is not looked at: what is at `src` goes
out, wherever this is, if it can be read at all. -/
theorem syscallDispatch_write (current : Option Fds) (mapped : Addr → Bool) (m : Mem) (tty : Tty)
    (fd count : BitVec 32) (src : Addr) :
    syscallDispatch current mapped m tty SYS_write fd src count =
      if FdOpen current fd = true then
        if src = 0#32 then (.returns 0#32, tty)
        else if WriteFaults mapped m src count.toNat then
          (.fault, tty.sent (mappedText mapped m src count.toNat))
        else (.returns (sentResult (bufText m src count.toNat)), tty.sent (bufText m src count.toNat))
      else (.returns (BitVec.ofInt 32 (-EBADF)), tty) := by
  have hcall : syscallDispatch current mapped m tty SYS_write fd src count =
      match processWrite current mapped m tty fd src count with
      | (some res, tty) => (.returns (BitVec.ofInt 32 res), tty)
      | (none, tty) => (.fault, tty) := rfl
  rw [hcall, processWrite]
  cases current with
  | none =>
    have hclosed : FdOpen none fd = false := rfl
    rw [hclosed]
    by_cases hfd : 0 ≤ fd.toInt ∧ fd.toInt < FD_MAX
    · rw [dif_pos hfd]
      rfl
    · rw [dif_neg hfd]
      rfl
  | some fds =>
    by_cases hfd : 0 ≤ fd.toInt ∧ fd.toInt < FD_MAX
    · have hopen : FdOpen (some fds) fd = fds ⟨fd.toInt.toNat, by omega⟩ := dif_pos hfd
      rw [dif_pos hfd, hopen]
      dsimp only
      by_cases hfds : fds ⟨fd.toInt.toNat, by omega⟩ = true
      · rw [if_pos hfds, if_pos hfds, fileWriteTty]
        by_cases hsrc : src = 0#32
        · rw [if_pos (.inl hsrc), if_pos hsrc]
          rfl
        · rw [if_neg hsrc]
          by_cases hcount : count = 0#32
          · subst hcount
            have hnone : ¬ WriteFaults mapped m src (0#32).toNat :=
              not_writeFaults fun i hi => absurd hi (Nat.not_lt_zero i)
            rw [if_pos (.inr rfl), if_neg hnone]
            exact Prod.ext rfl (sent_nil tty).symm
          · rw [if_neg (not_or.mpr ⟨hsrc, hcount⟩)]
            obtain ⟨hres, htty⟩ := ttyWrite_sent tty (mappedText mapped m src count.toNat)
            dsimp only
            by_cases hfault : WriteFaults mapped m src count.toNat
            · rw [if_pos hfault, if_pos hfault, htty]
            · rw [if_neg hfault, if_neg hfault]
              have hprefix := mappedText_prefix mapped m src count.toNat
              have hlength : (bufText m src count.toNat).length = count.toNat := by simp [bufText]
              have hle := hprefix.length_le
              obtain ⟨hpart, hresult⟩ := sent_of_prefix hprefix (by
                rcases not_and_or.mp hfault with hlong | hstop
                · exact .inl (by omega)
                · exact .inr hstop)
              dsimp only
              rw [hres, htty, hresult, Tty.sent, Tty.sent, hpart]
      · rw [if_neg hfds, if_neg hfds]
    · have hclosed : FdOpen (some fds) fd = false := dif_neg hfd
      rw [dif_neg hfd, hclosed]
      rfl

/-- No other system call writes anything. -/
theorem syscallDispatch_quiet (current : Option Fds) (mapped : Addr → Bool) (m : Mem) (tty : Tty) {number : BitVec 32}
    (h : number ≠ SYS_write) (arg1 arg2 arg3 : BitVec 32) :
    (syscallDispatch current mapped m tty number arg1 arg2 arg3).2 = tty := by
  unfold syscallDispatch
  split
  · rfl
  · split
    · rfl
    · split
      · rfl
      · split
        · rfl
        · split
          · rfl
          · split <;> rfl

end Munix
