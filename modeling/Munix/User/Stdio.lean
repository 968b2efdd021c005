import Munix.Kernel.SyscallDispatch
import Munix.User.Syscall

/-!
# Munix — the output of programs

From `write` in a program, through the kernel, to the port of its terminal. What the
machine runs on the way is the code of `syscall` and of the kernel's entry; the C function
at the end of it does what `Munix.Kernel.SyscallDispatch` says.

* `printf_sends` — a formatted text goes out whole, with its length as the result.
* `write_discloses` — any byte of memory that is mapped can be sent.
-/

namespace Munix

open ByteMem X86

variable {I : GateImage} {M : Machine} {kstack sp : Addr} {n : Nat} {c e u : Cpu} {current : Option Fds}
  {mapped : Addr → Bool} {tty tty' : Tty}

-- ---------------------------------------------------------------------------
-- The dispatcher on the machine
-- ---------------------------------------------------------------------------

/-- An argument of a call that has just been made. -/
def argWord (c : Cpu) (i : Nat) : BitVec 32 := load32 c.mem (c.reg .esp + BitVec.ofNat 32 (4 * i + 4))

/-- `isr_syscall_stage2`, entered at `e`, has returned in `u`, with the result of
`syscall_dispatch` for the arguments on its stack. There has been no page fault. -/
structure DispatchReturned (I : GateImage) (kstack sp : Addr) (n : Nat) (e u : Cpu) (current : Option Fds)
    (mapped : Addr → Bool) (tty tty' : Tty) : Prop extends Stage2Returned I kstack sp n e u where
  dispatch : syscallDispatch current mapped e.mem tty (argWord e 0) (argWord e 1) (argWord e 2) (argWord e 3) =
    (.returns (u.reg .eax), tty')

/-- A byte that is neither in the frame of `syscall` nor in that of the kernel's entry. -/
def OffStacks (kstack : Addr) (c : Cpu) (a : Addr) : Prop :=
  ¬ (a - (c.reg .esp - 20#32)).toNat < 20 ∧ ¬ (a - (kstack - 48#32)).toNat < 48

theorem bufText_congr {m m' : Mem} {src : Addr} {count : Nat}
    (h : ∀ i < count, m' (src + BitVec.ofNat 32 i) = m (src + BitVec.ofNat 32 i)) :
    bufText m' src count = bufText m src count := by
  refine List.map_congr_left fun i hi => h i ?_
  exact List.mem_range.mp hi

/-- The arguments of stage 2 are those of `syscall`. -/
theorem argWord_stage2 {ret : BitVec 32}
    (hstack : OnStack e.mem (e.reg .esp) (ret :: stackWords c.mem (c.reg .esp + 4#32) 6)) :
    ∀ i < 4, argWord e i = argWord c i := by
  obtain ⟨-, h0, h1, h2, h3, -⟩ := hstack
  have hadd : ∀ (a : Addr) (i : Nat), i < 4 →
      a + BitVec.ofNat 32 (4 * i + 4) = a + 4#32 + BitVec.ofNat 32 (4 * i) := by
    intro a i hi
    bv_omega
  intro i hi
  rw [argWord, argWord, hadd _ i hi, hadd _ i hi]
  interval_cases i
  · simpa using h0
  · exact h1
  · have hsum : ∀ a : Addr, a + BitVec.ofNat 32 (4 * 2) = a + 4#32 + 4#32 := fun a => by bv_omega
    rw [hsum, hsum]
    exact h2
  · have hsum : ∀ a : Addr, a + BitVec.ofNat 32 (4 * 3) = a + 4#32 + 4#32 + 4#32 := fun a => by bv_omega
    rw [hsum, hsum]
    exact h3

/-- A call of `write`, from its system call to its return: what goes out is what is in memory when
the program makes the call. -/
theorem SyscallCode.write (K : EntryCode I M) (S : SyscallCode M) (hhidden : KernelHidden M)
    (hk : KstackFits kstack) (h : Installed I kstack c) (hsegs : UserSegs c) (heip : c.eip = S.syscall)
    (hw : M.Writable (c.reg .esp - 20#32) 52) (hnr : argWord c 0 = SYS_write)
    (hfd : FdOpen current (argWord c 1) = true) (hsrc : argWord c 2 ≠ 0#32)
    (hoff : ∀ i < (argWord c 3).toNat, OffStacks kstack c (argWord c 2 + BitVec.ofNat 32 i)) :
    ∃ e, M.Runs c e ∧ e.eip = K.isrSyscallStage2 ∧ e.cpl = PL_KERNEL ∧ (∀ i < 4, argWord e i = argWord c i) ∧
      ∀ u tty', DispatchReturned I kstack (c.reg .esp - 20#32) 24 e u current mapped tty tty' →
        tty' = tty.sent (bufText c.mem (argWord c 2) (argWord c 3).toNat) ∧
          ∃ d, M.Runs u d ∧ c.Returned d ∧
            d.reg .eax = sentResult (bufText c.mem (argWord c 2) (argWord c 3).toNat) ∧ d.mem = u.mem := by
  obtain ⟨e, hruns, he, hcpl, -, -, hstack, hmem, hback⟩ := S.runs K hhidden hk h hsegs heip hw
  have harg := argWord_stage2 hstack
  refine ⟨e, hruns, he, hcpl, harg, fun u tty' hu => ?_⟩
  have hdispatch := hu.dispatch
  have hbytes : bufText e.mem (argWord c 2) (argWord c 3).toNat =
      bufText c.mem (argWord c 2) (argWord c 3).toNat :=
    bufText_congr fun i hi => hmem _ (hoff i hi).1 (hoff i hi).2
  rw [harg 0 (by decide), harg 1 (by decide), harg 2 (by decide), harg 3 (by decide), hnr,
    syscallDispatch_write, if_pos hfd, if_neg hsrc] at hdispatch
  split at hdispatch
  · -- a page fault does not return
    cases (Prod.mk.inj hdispatch).1
  rw [hbytes] at hdispatch
  obtain ⟨hres, htty⟩ := Prod.ext_iff.mp hdispatch
  have heax : sentResult (bufText c.mem (argWord c 2) (argWord c 3).toNat) = u.reg .eax :=
    DispatchEnd.returns.inj hres
  obtain ⟨d, hd, hret, hdeax, -, hdmem⟩ := hback u hu.toStage2Returned
  exact ⟨htty.symm, d, hd, hret, hdeax.trans heax.symm, hdmem⟩

-- ---------------------------------------------------------------------------
-- Texts
-- ---------------------------------------------------------------------------

/-- A text that `vsnprintf` has put into a buffer with room for it. -/
theorem vsnprintf_bufText {fmt text : List Byte} {va : List VaArg} (b : Buffer) (m : Mem)
    (h : formatText fmt va = .ok text) (hroom : text.length < b.n.toNat) (hlen : text.length < 2 ^ 31) :
    ∃ m', vsnprintf m b.buf b.n fmt va = some ((text.length : Int), m') ∧ Truncated text b.buf b.n m m' ∧
      bufText m' b.buf text.length = text := by
  have hfits : b.buf.toNat + text.length < 2 ^ 32 := by
    have := b.fits
    omega
  obtain ⟨m', hformat, htrunc⟩ := vsnprintfFormatter_text h hlen b m hfits
  refine ⟨m', ?_, htrunc, htrunc.bufText_eq hroom⟩
  obtain ⟨r, hr, heq⟩ := Option.map_eq_some_iff.mp hformat
  obtain ⟨res, m''⟩ := r
  cases heq
  exact hr

/-- **What a program prints is what its terminal shows.** When a program calls `write` for a text that
`vsnprintf` has formatted into a buffer with room for it, the whole text goes out on the port, with
the newline fixes of the port, and the program gets its length; `printf` calls it so. -/
theorem printf_sends (K : EntryCode I M) (S : SyscallCode M) (hhidden : KernelHidden M)
    (hk : KstackFits kstack) (h : Installed I kstack c) (hsegs : UserSegs c) (heip : c.eip = S.syscall)
    (hw : M.Writable (c.reg .esp - 20#32) 52) {fmt text : List Byte} {va : List VaArg} {b : Buffer} {m m' : Mem}
    {res : Int} (htext : formatText fmt va = .ok text) (hascii : ∀ ch ∈ text, isAscii ch = true)
    (hroom : text.length < b.n.toNat) (hlen : text.length < 2 ^ 31)
    (hformat : vsnprintf m b.buf b.n fmt va = some (res, m'))
    (hkept : ∀ i < text.length, c.mem (b.buf + BitVec.ofNat 32 i) = m' (b.buf + BitVec.ofNat 32 i) ∧
      OffStacks kstack c (b.buf + BitVec.ofNat 32 i))
    (hnr : argWord c 0 = SYS_write) (hfd : FdOpen current (argWord c 1) = true) (hsrc : argWord c 2 = b.buf)
    (hcount : argWord c 3 = BitVec.ofInt 32 res) :
    ∃ e, M.Runs c e ∧ e.eip = K.isrSyscallStage2 ∧ e.cpl = PL_KERNEL ∧ (∀ i < 4, argWord e i = argWord c i) ∧
      ∀ u tty', DispatchReturned I kstack (c.reg .esp - 20#32) 24 e u current mapped tty tty' →
        tty'.portdev = tty.portdev.send (expandNewlines tty.portdev.ocrnl text) ∧
          ∃ d, M.Runs u d ∧ c.Returned d ∧ d.reg .eax = BitVec.ofNat 32 text.length ∧ d.mem = u.mem := by
  obtain ⟨m₁, hrun, -, hbuf⟩ := vsnprintf_bufText b m htext hroom hlen
  rw [hrun] at hformat
  cases hformat
  have hlength : (argWord c 3).toNat = text.length := by
    rw [hcount, BitVec.ofInt_natCast, BitVec.toNat_ofNat]
    omega
  have hbytes : bufText c.mem (argWord c 2) (argWord c 3).toNat = text := by
    rw [hlength, hsrc]
    exact (bufText_congr fun i hi => (hkept i hi).1).trans hbuf
  have hnull : argWord c 2 ≠ 0#32 := by
    rw [hsrc]
    exact b.nonnull
  obtain ⟨e, hruns, he, hcpl, harg, hback⟩ :=
    @SyscallCode.write I M kstack c current mapped tty K S hhidden hk h hsegs heip hw hnr hfd hnull fun i hi => by
      rw [hlength] at hi
      rw [hsrc]
      exact (hkept i hi).2
  rw [hbytes, sentResult_ascii hascii] at hback
  refine ⟨e, hruns, he, hcpl, harg, fun u tty' hu => ?_⟩
  obtain ⟨rfl, hd⟩ := hback u tty' hu
  refine ⟨?_, hd⟩
  rw [Tty.sent, sentPart_ascii hascii]

/-- A program that has just called `syscall`, with `args` on a stack that ends at `0x500020`. -/
def exampleCall (m : Mem) (args : List (BitVec 32)) : Cpu :=
  exampleUser (pushAll m 0x500020#32 args.reverse).1 0x400000#32 (0x500020#32 - BitVec.ofNat 32 (4 * args.length))

section ExampleCall

variable {m : Mem} {args : List (BitVec 32)}

theorem exampleCall_esp (m : Mem) (args : List (BitVec 32)) :
    (exampleCall m args).reg .esp = 0x500020#32 - BitVec.ofNat 32 (4 * args.length) := rfl

theorem exampleCall_mem (m : Mem) (args : List (BitVec 32)) :
    (exampleCall m args).mem = (pushAll m 0x500020#32 args.reverse).1 := rfl

theorem exampleCall_sameOutside (m : Mem) (hlen : args.length ≤ 8) :
    SameOutside m (exampleCall m args).mem 0x500000 0x500020 := by
  have htop : (0x500020#32).toNat = 0x500020 := rfl
  have hfits : 4 * args.reverse.length ≤ (0x500020#32).toNat := by
    rw [List.length_reverse, htop]
    omega
  have hs := pushAll_sameOutside m hfits
  rw [List.length_reverse, htop] at hs
  exact fun a ha => hs a (by omega)

theorem exampleCall_installed (h : ∀ a, a < KMAP_MAX → m a = exampleMem a) (hlen : args.length ≤ 8) :
    Installed exampleImage 0x300000#32 (exampleCall m args) := by
  refine exampleUser_installed (fun a ha => ?_) _ _
  have hkmap : KMAP_MAX.toNat = 0x400000 := rfl
  exact (exampleCall_sameOutside m hlen a (by bv_omega)).trans (h a ha)

theorem exampleCall_argWord (m : Mem) (hlen : args.length ≤ 8) {i : Nat} {w : BitVec 32}
    (hi : args[i + 1]? = some w) : argWord (exampleCall m args) i = w := by
  have hnil : OnStack m 0x500020#32 [] := trivial
  have hstack := hnil.pushAll args.reverse (by rw [List.length_nil, List.length_reverse]; omega)
  rw [List.reverse_reverse, List.append_nil, pushAll_sp, List.length_reverse] at hstack
  have hword := hstack.get hi
  rw [Nat.mul_succ] at hword
  rw [argWord, exampleCall_esp, exampleCall_mem]
  exact hword

end ExampleCall

/-- The first 8 MiB are mapped. -/
def exampleMapped (a : Addr) : Bool := a < 0x800000#32

/-- Stage 2 returns what the dispatcher says. -/
theorem exampleDispatch (h : Installed exampleImage 0x300000#32 c) {fds : Fds} (tty : Tty)
    (hnr : argWord e 0 = SYS_write) (hfd : FdOpen (some fds) (argWord e 1) = true) (hsrc : argWord e 2 ≠ 0#32)
    (hmapped : ∀ i < (argWord e 3).toNat, exampleMapped (argWord e 2 + BitVec.ofNat 32 i) = true)
    (hsp : 0x4000 ≤ sp.toNat ∧ sp.toNat + n ≤ 2 ^ 32) :
    ∃ u tty', DispatchReturned exampleImage 0x300000#32 sp n e u (some fds) exampleMapped tty tty' := by
  set text := bufText e.mem (argWord e 2) (argWord e 3).toNat
  refine ⟨exampleReturn c e (sentResult text), tty.sent text, exampleReturn_returned h e _ hsp, ?_⟩
  rw [hnr, syscallDispatch_write, if_pos hfd, if_neg hsrc, if_neg (not_writeFaults hmapped)]
  rfl

/-- The files of a program of the shell are open. -/
theorem kshellFds_open : FdOpen (some kshellFds) 1#32 = true := by decide

/-- `printf("ok\n")`. -/
theorem printf_sends_ok :
    ∃ (c e u d : Cpu) (tty' : Tty), exampleSyscall.Runs c e ∧ exampleSyscall.Runs u d ∧
      tty'.portdev.output = bytes "ok\r\n" ∧ c.Returned d ∧ d.reg .eax = 3#32 := by
  set tty : Tty := { shellTty [] with portdev := ⟨SRL_OCRNL, [], []⟩ } with htty
  set b : Buffer := ⟨0x450000#32, 256#32, by decide, by decide, by decide⟩
  have htext : formatText (bytes "ok\n") [] = .ok (bytes "ok\n") := by rfl
  obtain ⟨m', hformat, htrunc, -⟩ := vsnprintf_bufText b exampleMem htext (by decide) (by decide)
  have hlow : ∀ a, a < KMAP_MAX → m' a = exampleMem a := fun a ha =>
    htrunc.other a (.inr (by
      have hkmap : KMAP_MAX = 0x400000#32 := rfl
      have hbuf : b.buf = 0x450000#32 := rfl
      have hmin : min (b.n.toNat - 1) (bytes "ok\n").length = 3 := rfl
      rw [hmin, hbuf]
      bv_omega))
  set args : List (BitVec 32) := [0x400200#32, SYS_write, 1#32, 0x450000#32, 3#32, 0#32, 0#32] with hargs
  have hesp : (exampleCall m' args).reg .esp = 0x500004#32 := by
    rw [exampleCall_esp, hargs]
    decide
  have hinst : Installed exampleImage 0x300000#32 (exampleCall m' args) := exampleCall_installed hlow (by decide)
  have harg : ∀ i w, args[i + 1]? = some w → argWord (exampleCall m' args) i = w := fun i w hi =>
    exampleCall_argWord m' (by decide) hi
  have hkept : ∀ i < (bytes "ok\n").length,
      (exampleCall m' args).mem (b.buf + BitVec.ofNat 32 i) = m' (b.buf + BitVec.ofNat 32 i) ∧
        OffStacks 0x300000#32 (exampleCall m' args) (b.buf + BitVec.ofNat 32 i) := by
    intro i hi
    have hlen : (bytes "ok\n").length = 3 := rfl
    have hbuf : b.buf = 0x450000#32 := rfl
    rw [hlen] at hi
    rw [hbuf]
    refine ⟨exampleCall_sameOutside m' (by decide) _ ?_, ?_, ?_⟩
    · bv_omega
    · rw [hesp]
      bv_omega
    · bv_omega
  obtain ⟨e, hruns, -, -, hsame, hback⟩ := @printf_sends exampleImage exampleSyscall 0x300000#32
    (exampleCall m' args) (some kshellFds) exampleMapped tty ⟨0x120000#32, by decide⟩ ⟨0x400000#32, by decide, by decide⟩
    (exampleMachine_hidden _) ⟨by decide, by decide⟩ hinst (exampleUser_segs _ _ _) rfl
    (exampleMachine_writable _ (by rw [hesp]; decide)) _ _ _ _ _ _ _ htext (by decide)
    (by decide) (by decide) hformat hkept (harg 0 _ rfl) (by rw [harg 1 _ rfl]; exact kshellFds_open) (harg 2 _ rfl) (harg 3 _ rfl)
  obtain ⟨u, tty', hu⟩ := @exampleDispatch ((exampleCall m' args).reg .esp - 20#32) 24 _ e
    hinst kshellFds tty ((hsame 0 (by decide)).trans (harg 0 _ rfl))
    (by rw [hsame 1 (by decide), harg 1 _ rfl]; exact kshellFds_open)
    (by rw [hsame 2 (by decide), harg 2 _ rfl]; decide)
    (by rw [hsame 2 (by decide), hsame 3 (by decide), harg 2 _ rfl, harg 3 _ rfl]; decide)
    (by rw [hesp]; decide)
  obtain ⟨hport, d, hd, hret, heax, -⟩ := hback u tty' hu
  refine ⟨_, e, u, d, tty', hruns, hd, ?_, hret, heax⟩
  rw [hport]
  decide

end Munix
