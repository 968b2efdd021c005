import Munix.Kernel.Cmdline
import Munix.Kernel.LoaderRuns

/-!
# Munix — commands whose program cannot be loaded

`kshell_read_exec` reports the result of `process_load_path` and starts the
process all the same. What follows depends on how far the load got.

* `kshellReadExec_noTrace_iff`: a failed load leaves no trace if and only if there
  was no room for the address space, the kernel's page map was active, and no
  process was current.
-/

namespace Munix

open ByteMem

-- ---------------------------------------------------------------------------
-- Open-file slots
-- ---------------------------------------------------------------------------

/-- The same slots are in use. -/
def SameSlots (d d' : Drivers) : Prop := ∀ i, (d'.cfdatas i).af.fOp = (d.cfdatas i).af.fOp

theorem cfdataFree_fOp (d : Drivers) (i j : Nat) :
    ((cfdataFree d i).cfdatas j).af.fOp = if j = i then none else (d.cfdatas j).af.fOp := by
  by_cases hj : j = i <;> simp [cfdataFree, Drivers.setCfdata, hj]

theorem cfdataAlloc_free {d : Drivers} {i : Nat} (h : cfdataAlloc d = some i) :
    (d.cfdatas i).af.fOp = none := by
  have := List.find?_some h
  simpa using this

/-- Freeing a slot that was free before the others were left alone. -/
theorem SameSlots.free {d d' : Drivers} {i : Nat} (hfree : (d.cfdatas i).af.fOp = none)
    (h : ∀ j, j ≠ i → (d'.cfdatas j).af.fOp = (d.cfdatas j).af.fOp) :
    SameSlots d (cfdataFree d' i) := by
  intro j
  rw [cfdataFree_fOp]
  split
  · rename_i hj
    rw [hj, hfree]
  · rename_i hj
    exact h j hj

/-- Opening a file takes one free slot, or none if it fails. -/
theorem cpioFileOpenPath_slots {fuel : Nat} {d d' : Drivers} {f f' : File FileOps} {sb : Superblock}
    {path : List Byte} {res : Int} (h : cpioFileOpenPath fuel d f sb path = some (res, f', d')) :
    (res < 0 ∧ SameSlots d d') ∨ (res = 0 ∧ f'.fOp = f.fOp ∧ ∃ i, f'.fDriverData = some i ∧
      (d.cfdatas i).af.fOp = none ∧ ∀ j, j ≠ i → (d'.cfdatas j).af.fOp = (d.cfdatas j).af.fOp) := by
  rw [cpioFileOpenPath] at h
  split at h
  · cases h
    exact .inl ⟨by decide, fun _ => rfl⟩
  · rename_i i halloc
    have hfree := cfdataAlloc_free halloc
    -- only slot `i` is written
    have hset : ∀ (d₁ : Drivers) (c : Cfdata), (∀ j, j ≠ i → d₁.cfdatas j = d.cfdatas j) →
        ∀ j, j ≠ i → (d₁.setCfdata i c).cfdatas j = d.cfdatas j := by
      intro d₁ c h₁ j hj
      simp [Drivers.setCfdata, hj, h₁ j hj]
    have hclosed : ∀ d₁ : Drivers, (∀ j, j ≠ i → d₁.cfdatas j = d.cfdatas j) →
        SameSlots d (cfdataFree d₁ i) := by
      intro d₁ h₁
      exact .free hfree fun j hj => by rw [h₁ j hj]
    dsimp only at h
    split at h
    · rename_i hneg
      cases h
      exact .inl ⟨hneg, hclosed _ (hset d _ fun _ _ => rfl)⟩
    · split at h
      · cases h
      · split at h
        · rename_i hneg
          cases h
          exact .inl ⟨hneg, hclosed _ (hset _ _ (hset d _ fun _ _ => rfl))⟩
        · split at h
          · rename_i hneg
            cases h
            exact .inl ⟨hneg, hclosed _ (hset _ _ (hset d _ fun _ _ => rfl))⟩
          · cases h
            refine .inr ⟨rfl, rfl, i, rfl, hfree, fun j hj => ?_⟩
            rw [hset _ _ (hset _ _ (hset d _ fun _ _ => rfl)) j hj]

/-- Opening a file by its path, and closing it again. -/
theorem fileOpenPath_slots {fuel : Nat} {v : Vfs} {f : File FileOps} {cwd path : List Byte} {o : Opened}
    (h : fileOpenPath fuel v f cwd path = some o) :
    (o.res < 0 ∧ SameSlots v.drivers o.vfs.drivers) ∨
      (o.res = 0 ∧ SameSlots v.drivers (fileClose o.vfs.drivers o.file)) := by
  rw [fileOpenPath, fileOpenPathAbs] at h
  split at h
  · cases h
    exact .inl ⟨show -ENOENT < 0 by decide, fun _ => rfl⟩
  · split at h
    · cases h
    · rw [fileOpenSbPath] at h
      split at h
      · cases h
      · rename_i d' hcpio
        cases h
        rcases cpioFileOpenPath_slots hcpio with hfail | ⟨h0, hop, i, hdata, hfree, hkeep⟩
        · exact .inl hfail
        · refine .inr ⟨h0, ?_⟩
          simp only [fileClose, cpioFileRelease, hop, hdata, cpioFileNew]
          exact .free hfree hkeep

/-- Looking up a file opens and closes it. -/
theorem fileStat_slots {fuel : Nat} {v v' : Vfs} {fstat fstat' : Fstat} {cwd path : List Byte}
    {res : Int} (h : fileStat fuel v fstat cwd path = some (res, fstat', v')) :
    SameSlots v.drivers v'.drivers := by
  rw [fileStat] at h
  split at h
  · cases h
  · rename_i hopen
    have hslots := fileOpenPath_slots hopen
    dsimp only at hslots
    split at h
    · rename_i hneg
      cases h
      rcases hslots with ⟨-, hsame⟩ | ⟨h0, -⟩
      · exact hsame
      · omega
    · rename_i hneg
      cases h
      rcases hslots with ⟨hneg', -⟩ | ⟨-, hsame⟩
      · exact absurd hneg' hneg
      · exact hsame

theorem kshellSearchBin_slots {fuel : Nat} {execname : List Byte} {dirs : List (List Byte)} {v v' : Vfs}
    {bin : Option (List Byte)} (h : kshellSearchBin fuel execname dirs v = some (bin, v')) :
    SameSlots v.drivers v'.drivers := by
  induction dirs generalizing v with
  | nil =>
    cases h
    exact fun _ => rfl
  | cons dir dirs ih =>
    rw [kshellSearchBin] at h
    split at h
    · cases h
    · rename_i hstat
      have hsame := fileStat_slots hstat
      have hrest : ∀ {v₁ : Vfs}, SameSlots v.drivers v₁.drivers →
          kshellSearchBin fuel execname dirs v₁ = some (bin, v') → SameSlots v.drivers v'.drivers :=
        fun h₁ h i => (ih h i).trans (h₁ i)
      split at h
      · exact hrest hsame h
      · split at h
        · cases h
          exact hsame
        · split at h
          · cases h
            exact hsame
          · exact hrest hsame h

-- ---------------------------------------------------------------------------
-- Arguments
-- ---------------------------------------------------------------------------

/-- Where the first argument goes. -/
def arg0Addr (sp : BitVec 32) (arg0 : List Byte) : Addr :=
  sp - 4#32 * (alignUp (BitVec.ofNat 32 (arg0.length + 1)) 4#32 / 4#32)

/-- The first store of `push_args` decides whether there is a fault. -/
theorem pushArgs_fault {cr3 : Pme} (m : Mem) (sp : BitVec 32) {arg0 : List Byte}
    (args : List (List Byte)) (h : hwWalk m cr3 (arg0Addr sp arg0) = none) :
    pushArgs cr3 m sp (arg0 :: args) = .fault m := by
  have hstore : storeBytesV cr3 m (arg0Addr sp arg0) (arg0 ++ [0#8]) = .fault m := by
    cases arg0 <;> simp [storeBytesV, storeV, h]
  have hstr : pushStr cr3 m sp arg0 = .fault m := by
    unfold pushStr
    unfold arg0Addr at hstore
    simp only [hstore]
  rw [pushArgs, pushStrs, hstr]

-- ---------------------------------------------------------------------------
-- No trace
-- ---------------------------------------------------------------------------

/-- After the command, the kernel `k'` is as `k` was before it: no thread has been
created, slot `p` of the process table is free, the active page map is the one
that was active and has the kernel, and the pool, the open-file slots and the
current process are the same. -/
structure NoTrace (k k' : Kernel) (p : Fin PROCESS_MAX) : Prop where
  threads : k'.sched.tcb = k.sched.tcb
  slot    : (k'.res.pcb p).pid = 0#32
  root    : k'.res.cr3 = k.res.cr3
  live    : ∃ s i, k'.res.cr3 = k'.res.pm.roots s ∧ k'.res.pm.Designates (.root s) i ∧
              k'.res.pm.Allocated i
  mapped  : k'.res.kernelMapped = true
  pool    : ∀ i, (k'.res.pm.physpages i).paddr = (k.res.pm.physpages i).paddr
  files   : SameSlots k.res.vfs.drivers k'.res.vfs.drivers
  current : k'.sched.currentProcess = k.sched.currentProcess

/-- The command is over, without a trace. -/
def ExecEnd.NoTrace (k : Kernel) (p : Fin PROCESS_MAX) : ExecEnd → Prop
  | .ended k' => Munix.NoTrace k k' p
  | _ => False

/-- In a page map that has the pages of the kernel, the kernel is mapped. -/
theorem kernelMapped_of_view {r : Resources} (hcr3 : r.cr3 = r.pm.roots kernelSpace)
    (h : ∀ x, x < 1024 → (r.pm.view kernelSpace x).isSome = true) : r.kernelMapped = true := by
  refine List.all_eq_true.mpr fun x hx => ?_
  have hx : x < 1024 := List.mem_range.mp hx
  have hva : (BitVec.ofNat 32 (4096 * x)).toNat = 4096 * x := by
    rw [BitVec.toNat_ofNat, Nat.mod_eq_of_lt (by omega)]
  have hwalk : hwWalk r.pm.mem r.cr3 (BitVec.ofNat 32 (4096 * x)) = r.pm.view kernelSpace x := by
    rw [hcr3]
    change r.pm.translate kernelSpace _ = _
    rw [translate_eq_view _ _ (by omega), hva, Nat.mul_div_cancel_left x (by decide)]
  rw [hwalk]
  exact h x hx

/-- The user stack is not in the page map of the kernel. -/
theorem hwWalk_arg0 {st : PmState} (h : ∀ x, x < 2 ^ 20 → 1024 ≤ x → st.view kernelSpace x = none)
    {arg0 : List Byte} (hlen : arg0.length < SH_LINEBUFSZ) :
    hwWalk st.mem (st.roots kernelSpace) (arg0Addr USTACK_DFLT arg0) = none := by
  have hlen : arg0.length + 1 ≤ 256 := hlen
  have hofNat : (BitVec.ofNat 32 (arg0.length + 1)).toNat = arg0.length + 1 := by
    rw [BitVec.toNat_ofNat, Nat.mod_eq_of_lt (by omega)]
  have hup : (alignUp (BitVec.ofNat 32 (arg0.length + 1)) 4#32).toNat ≤ 256 := by
    have := and_not_low_toNat (BitVec.ofNat 32 (arg0.length + 1) + 3#32) 2
    have hup : (alignUp (BitVec.ofNat 32 (arg0.length + 1)) 4#32).toNat =
        (BitVec.ofNat 32 (arg0.length + 1) + 3#32).toNat / 2 ^ 2 * 2 ^ 2 := this
    bv_omega
  have hpage : (arg0Addr USTACK_DFLT arg0).toNat / 4096 = 1279 ∨
      (arg0Addr USTACK_DFLT arg0).toNat / 4096 = 1280 := by
    unfold arg0Addr USTACK_DFLT
    have hdiv : (alignUp (BitVec.ofNat 32 (arg0.length + 1)) 4#32 / 4#32).toNat ≤ 64 := by
      rw [BitVec.toNat_udiv, show (4#32).toNat = 4 by decide]
      omega
    bv_omega
  change st.translate kernelSpace _ = none
  rw [translate_eq_map_view, h _ (by omega) (by omega)]
  rfl

/-- `process_close` makes the kernel's page map the active one. -/
theorem closeResources_cr3 {r r' : Resources} {p : Fin PROCESS_MAX} (h : closeResources r p = some r') :
    r'.cr3 = r.pm.roots kernelSpace := by
  rw [closeResources] at h
  dsimp only [Resources.onPm, pmSetRoot] at h
  split at h
  · cases h
  · rename_i heq
    cases h
    obtain ⟨a, -, ha⟩ := Option.map_eq_some_iff.mp heq
    cases ha
    rfl

section Command

variable {L : Layout} {fuel : Nat} {junk : StackJunk} {k : Kernel} {p : Fin PROCESS_MAX}

/-- Starting a process can only be over by closing it. -/
theorem processStart_ended {argv : List (List Byte)} {k' : Kernel}
    (h : processStart L k p argv = some (.ended k')) :
    k'.res.cr3 = k.res.pm.roots kernelSpace ∧ k'.sched.currentProcess = none := by
  rw [processStart] at h
  dsimp only at h
  split at h
  · cases h
  · obtain ⟨k₁, hk₁, hended⟩ := Option.map_eq_some_iff.mp h
    cases hended
    rw [handleException, processKill, processClose] at hk₁
    obtain ⟨r, hr, rfl⟩ := Option.map_eq_some_iff.mp hk₁
    have hcr3 := closeResources_cr3 hr
    exact ⟨hcr3, if_pos rfl⟩
  · cases h

variable {st₀ st₁ : PmState}

/-- The state in which a load without room for the address space leaves the
resources. -/
theorem noRoom_start (hr : k.res.InOrder) (hcr3 : k.res.cr3 = k.res.pm.roots kernelSpace)
    (hinit : addrspcInit (k.res.pm.dropRoot p.val) p.val = some (-ENOMEM, st₀))
    (hclean : addrspcCleanup st₀ p.val = some (0, st₁)) {arg0 : List Byte}
    (hlen : arg0.length < SH_LINEBUFSZ) (args : List (List Byte)) (links : LinkHeap Node) :
    Resources.kernelMapped { resetProcess L k.res p with pm := st₁ } = true ∧
    ∃ k', processStart L ⟨{ resetProcess L k.res p with pm := st₁ }, { k.sched with links := links }⟩ p
        (arg0 :: args) = some (.ended k') ∧
      (k.sched.currentProcess = none → NoTrace k k' p) := by
  have hreset := resetProcess_closed hr L p
  have hr₀ : (resetProcess L k.res p).InOrder := hr.closed hreset
  obtain ⟨st₁', res₂, st₂, hclean', hclean₂, hroots, hview, hclosed, hpool⟩ :=
    addrspcInit_fails_closed hreset.inv hreset.filled hreset.root hinit
  obtain rfl : st₁ = st₁' := by simpa using hclean.symm.trans hclean'
  have hne := kernelSpace_ne p
  have hroot : k.res.cr3 = st₁.roots kernelSpace := by
    rw [hcr3, hroots kernelSpace hne, hreset.roots kernelSpace hne]
  have hmapped : Resources.kernelMapped { resetProcess L k.res p with pm := st₁ } = true := by
    refine kernelMapped_of_view hroot fun x hx => ?_
    change (st₁.view kernelSpace x).isSome = true
    rw [hview kernelSpace x hne (by omega)]
    exact (hr₀.kernel x (by omega)).mpr hx
  refine ⟨hmapped, ?_⟩
  -- the first argument is pushed to where nothing is mapped
  have hnone : ∀ x, x < 2 ^ 20 → 1024 ≤ x → st₁.view kernelSpace x = none := by
    intro x hx hge
    rw [hview kernelSpace x hne hx]
    have hk := hr₀.kernel x hx
    cases hv : (resetProcess L k.res p).pm.view kernelSpace x with
    | none => rfl
    | some a =>
      rw [hv] at hk
      exact absurd (hk.mp rfl) (by omega)
  have hsp : ((resetProcess L k.res p).pcb p).ustack = USTACK_DFLT := by
    simp [resetProcess, Resources.setProcess]
  have hfault := pushArgs_fault st₁.mem USTACK_DFLT args
    (hroot ▸ hwWalk_arg0 hnone hlen : hwWalk st₁.mem k.res.cr3 (arg0Addr USTACK_DFLT arg0) = none)
  have hpush : pushArgs (resetProcess L k.res p).cr3 st₁.mem ((resetProcess L k.res p).pcb p).ustack
      (arg0 :: args) = .fault st₁.mem := by
    rw [hsp]
    exact hfault
  set r₁ : Resources := { resetProcess L k.res p with pm := st₁ } with hr₁
  have hfile : (r₁.pcb p).execfile = File.zero FileOps := by
    simp [hr₁, resetProcess, Resources.setProcess, Process.zero]
  set r₂ : Resources := {
    pm := st₂.dropRoot p.val
    cr3 := r₁.pm.roots kernelSpace
    vfs := { r₁.vfs with drivers := fileClose r₁.vfs.drivers (r₁.pcb p).execfile }
    pcb := Function.update r₁.pcb p .zero
    nextPid := r₁.nextPid } with hr₂
  have hclose : closeResources r₁ p = some r₂ := closeResources_eq hclean₂
  have hinOrder := (hr₀.closed hclosed : Resources.InOrder { r₁ with pm := st₂.dropRoot p.val })
  refine ⟨⟨r₂, closeSched { k.sched with links := links, currentProcess := some p } p⟩, ?_,
    fun hnocur => ?_⟩
  · rw [processStart]
    dsimp only
    rw [hpush]
    change Option.map _ (Option.map _ (closeResources r₁ p)) = _
    rw [hclose]
    rfl
  · have hkernel : (st₂.dropRoot p.val).roots kernelSpace = st₁.roots kernelSpace := by
      rw [hclosed.roots kernelSpace hne, hroots kernelSpace hne]
    have hpage : ∀ x, x < 1024 → ((st₂.dropRoot p.val).view kernelSpace x).isSome = true :=
      fun x hx => (hinOrder.kernel x (by omega)).mpr hx
    have hpres : (st₂.dropRoot p.val).Present (.root kernelSpace) := by
      by_contra hno
      have hv := hpage 0 (by decide)
      rw [view_eq_none_of_absent (by decide) fun hp => hno (Present.root hp)] at hv
      cases hv
    obtain ⟨i, hal, hi⟩ := hclosed.inv.owned.allocated _ hpres
    refine ⟨rfl, ?_, hroot.symm, ⟨kernelSpace, i, hkernel.symm, hi, hal⟩,
      kernelMapped_of_view hkernel.symm hpage, hpool, ?_, ?_⟩
    · simp [hr₂, Process.zero]
    · intro j
      simp only [hr₂, hfile, fileClose, File.zero]
      rfl
    · simp [closeSched, hnocur]

section Exec

variable {line arg0 bindir : List Byte} {args : List (List Byte)} {v : Vfs} {res : Int} {r₁ : Resources}

/-- A command line that names an executable. -/
theorem kshellReadExec_eq (hargv : shBreakCmdline line SH_ARGVSZ = some (arg0 :: args))
    (hbuiltin : kshellSearchBuiltins arg0 = false)
    (hbin : kshellSearchBin fuel arg0 binPaths k.res.vfs = some (some bindir, v))
    (hp : processAlloc k.res = some p)
    (hload : processLoadPath L fuel junk { k.res with vfs := v } p bindir arg0 = some (.ok (res, r₁))) :
    kshellReadExec L fuel junk k line = if r₁.kernelMapped then
      processStart L ⟨r₁, { k.sched with
        links := Function.update k.sched.links (.threads p) ⟨0, 0⟩ }⟩ p (arg0 :: args)
      else some .dead := by
  have hp' : processAlloc { k.res with vfs := v } = some p := hp
  rw [kshellReadExec, hargv]
  simp only [hbuiltin, hbin, Bool.false_eq_true, if_false]
  rw [kshellExec, hp']
  simp only [List.headD_cons]
  rw [hload]

/-- **When a failed load leaves no trace.** The line names an executable, for which
there is a slot in the process table but which cannot be loaded. No trace is left
if and only if the pool has fewer than two pages left, so that not even the
address space can be set up, the kernel's page map is the active one, and no
process is current. -/
theorem kshellReadExec_noTrace_iff (hr : k.res.Reachable L) (hline : line.length < SH_LINEBUFSZ)
    (hargv : shBreakCmdline line SH_ARGVSZ = some (arg0 :: args))
    (hbuiltin : kshellSearchBuiltins arg0 = false)
    (hbin : kshellSearchBin fuel arg0 binPaths k.res.vfs = some (some bindir, v))
    (hp : processAlloc k.res = some p)
    (hload : processLoadPath L fuel junk { k.res with vfs := v } p bindir arg0 = some (.ok (res, r₁)))
    (hres : res < 0) :
    (∃ e, kshellReadExec L fuel junk k line = some e ∧ e.NoTrace k p) ↔
      PHYSPAGES_MAX < k.res.pm.used.card + 2 ∧ k.res.cr3 = k.res.pm.roots kernelSpace ∧
        k.sched.currentProcess = none := by
  set k₁ : Kernel := { k with res := { k.res with vfs := v } } with hk₁
  have hr₁ : k₁.res.InOrder := hr.inOrder.of_pm rfl
  have hreset := resetProcess_closed hr₁ L p
  rw [kshellReadExec_eq hargv hbuiltin hbin hp hload]
  rcases processLoadPath_spec hr₁ hload with ⟨st₀, st₁, hinit, hclean, ho⟩ | ⟨⟨st₀, hinit⟩, ho⟩
  · obtain ⟨rfl, rfl⟩ := Prod.mk.inj (Outcome.ok.inj ho)
    have hused := (addrspcInit_fails_iff hreset.inv hreset.root).mp ⟨st₀, hinit⟩
    constructor
    · rintro ⟨e, he, hno⟩
      split at he
      · cases e with
        | ended k' =>
          obtain ⟨hcr3, hcur⟩ := processStart_ended he
          obtain ⟨st₁', -, -, hclean', -, hroots, -⟩ :=
            addrspcInit_fails_closed hreset.inv hreset.filled hreset.root hinit
          obtain rfl : st₁ = st₁' := by simpa using hclean.symm.trans hclean'
          have hne := kernelSpace_ne p
          refine ⟨hused, ?_, hno.current.symm.trans hcur⟩
          rw [← hno.root, hcr3]
          exact (hroots kernelSpace hne).trans (hreset.roots kernelSpace hne)
        | scheduled => exact hno.elim
        | dead => exact hno.elim
        | clobber => exact hno.elim
        | builtin => exact hno.elim
      · cases he
        exact hno.elim
    · rintro ⟨-, hcr3, hcur⟩
      have hlen : arg0.length < SH_LINEBUFSZ :=
        (length_le_of_breakLoop hargv arg0 List.mem_cons_self).trans_lt hline
      obtain ⟨hmapped, k', hstart, hno⟩ := noRoom_start (L := L) (k := k₁) hr₁ hcr3 hinit hclean hlen
        args (Function.update k.sched.links (.threads p) ⟨0, 0⟩)
      have hno := hno hcur
      rw [if_pos hmapped]
      refine ⟨.ended k', hstart, hno.threads, hno.slot, hno.root, hno.live, hno.mapped, hno.pool, ?_,
        hno.current⟩
      exact fun i => (hno.files i).trans (kshellSearchBin_slots hbin i)
  · -- the address space was there: the kernel is not mapped any more
    have hmapped : r₁.kernelMapped = false := by
      rcases ho with ⟨-, hmapped⟩ | ⟨h0, -⟩
      · exact hmapped
      · have h0 : res = 0 := h0
        omega
    refine iff_of_false ?_ ?_
    · rintro ⟨e, he, hno⟩
      rw [hmapped] at he
      cases he
      exact hno
    · rintro ⟨hused, -⟩
      obtain ⟨st, hst⟩ := (addrspcInit_fails_iff hreset.inv hreset.root).mpr hused
      have h := (Prod.mk.inj (Option.some.inj (hst.symm.trans hinit))).1
      simp [ENOMEM] at h

end Exec

end Command

-- ---------------------------------------------------------------------------
-- A full pool, and a program of the wrong class
-- ---------------------------------------------------------------------------

/-- Each present table entry has a page of the pool. -/
theorem PmInv.card_le_used {st : PmState} (hinv : PmInv st) (refs : Finset TableRef)
    (h : ∀ e ∈ refs, st.Present e) : refs.card ≤ st.used.card := by
  have hpage : ∀ e, ∃ i, e ∈ refs → st.Designates e i := by
    intro e
    by_cases he : e ∈ refs
    · obtain ⟨i, hi⟩ := hinv.exists_designates (h e he)
      exact ⟨i, fun _ => hi⟩
    · exact ⟨⟨0, by decide⟩, fun h => absurd h he⟩
  choose page hpage using hpage
  refine Finset.card_le_card_of_injOn page ?_ ?_
  · intro e he
    exact mem_used.mpr (hinv.owned.alloc_of_des e _ (hpage e he))
  · intro e he e' he' heq
    exact hinv.owned.unique e e' (page e) (hpage e he) (heq ▸ hpage e' he')

/-- Two spaces with a page 0 take four pages at least. -/
theorem PmInv.four_le_used {st : PmState} (hinv : PmInv st) {s s' : Nat} (hne : s ≠ s')
    (hs : (st.view s 0).isSome = true) (hs' : (st.view s' 0).isSome = true) : 4 ≤ st.used.card := by
  have hpres : ∀ {s : Nat}, (st.view s 0).isSome = true → st.Present (.pde s 0) := by
    intro s hs
    by_contra hno
    rw [view_eq_none_of_absent (by decide) hno] at hs
    cases hs
  have hcard : ({.root s, .pde s 0, .root s', .pde s' 0} : Finset TableRef).card = 4 := by
    rw [Finset.card_insert_of_notMem, Finset.card_insert_of_notMem, Finset.card_insert_of_notMem,
      Finset.card_singleton] <;> simp [hne]
  rw [← hcard]
  refine hinv.card_le_used _ fun e he => ?_
  simp only [Finset.mem_insert, Finset.mem_singleton] at he
  rcases he with rfl | rfl | rfl | rfl
  · exact Present.root (hpres hs)
  · exact hpres hs
  · exact Present.root (hpres hs')
  · exact hpres hs'

theorem processLoadPath_noRoom (L : Layout) (fuel : Nat) (junk : StackJunk)
    (p : Fin PROCESS_MAX) (cwd path : List Byte) {r : Resources} (hr : r.InOrder)
    (hfull : PHYSPAGES_MAX < r.pm.used.card + 2) :
    ∃ r₁, processLoadPath L fuel junk r p cwd path = some (.ok (-ENOMEM, r₁)) := by
  have hreset := resetProcess_closed hr L p
  obtain ⟨st₀, hinit⟩ := (addrspcInit_fails_iff hreset.inv hreset.root).mpr hfull
  obtain ⟨st₁, -, -, hclean, -⟩ :=
    addrspcInit_fails_closed hreset.inv hreset.filled hreset.root hinit
  refine ⟨{ resetProcess L r p with pm := st₁ }, ?_⟩
  rw [processLoadPath]
  simp only [Resources.onPm, hinit, Option.map_some, show -ENOMEM < 0 by decide, if_true, loadError,
    hclean]
  rfl

/-- A reachable state without room for another process, in which the kernel's page
map is active and slot 1 of the process table is free. -/
theorem exists_fullPool (L : Layout) (v : Vfs) :
    ∃ r : Resources, r.Reachable L ∧ PHYSPAGES_MAX < r.pm.used.card + 2 ∧
      r.cr3 = r.pm.roots kernelSpace ∧ r.vfs = v ∧ ∃ p, processAlloc r = some p := by
  obtain ⟨r, r', hboot, hload, -⟩ := exists_load_above opens_above (by decide) (by decide) L ⟨0, by decide⟩
  have hreach : r'.Reachable L := .load 4 zeroJunk _ _ _ (.boot hboot) hload
  have hloading := (processLoadPath_ok hboot.inOrder hload).1
  obtain ⟨st, hclean, hclosed, -⟩ :=
    addrspcUnmap_drop hloading.inOrder.inv hloading.inOrder.filled 1 0#32 SIZE_MAX
  have hclose := closeResources_eq (r := r') (p := ⟨1, by decide⟩) hclean
  refine ⟨_, .files v (.close _ hreach hclose), ?_, ?_, rfl, ?_⟩
  · have hzero : ((st.dropRoot 1).view 0 0).isSome = true := by
      rw [hclosed.view 0 0 (by decide) (by decide)]
      exact hloading.first
    have hkernel : ((st.dropRoot 1).view kernelSpace 0).isSome = true := by
      rw [hclosed.view kernelSpace 0 (by decide) (by decide)]
      exact (hloading.inOrder.kernel 0 (by decide)).mpr (by decide)
    have hfour := hclosed.inv.four_le_used (by decide) hzero hkernel
    change 5 < (st.dropRoot 1).used.card + 2
    omega
  · exact (hclosed.roots kernelSpace (by decide)).symm
  · rw [← Option.isSome_iff_exists, processAlloc, List.find?_isSome]
    refine ⟨⟨1, by decide⟩, List.mem_finRange _, ?_⟩
    simp [Process.zero]

theorem searchBin_prog : (kshellSearchBin 4 (bytes "prog") binPaths
    (rootVfs (progArchive 1#8 0x400001#32))).any fun x => x.1 = some (bytes "/bin") := by
  decide +kernel

theorem break_prog : shBreakCmdline (bytes "prog") SH_ARGVSZ = some [bytes "prog"] := by decide

/-- Without room for another process, the command `prog` leaves no trace. -/
theorem kshellReadExec_noTrace_iff_fullPool :
    ∃ k : Kernel, k.res.Reachable exampleLayout ∧ ∃ p e,
      kshellReadExec exampleLayout 4 zeroJunk k (bytes "prog") = some e ∧ e.NoTrace k p := by
  obtain ⟨r, hr, hfull, hcr3, hvfs, p, hp⟩ :=
    exists_fullPool exampleLayout (rootVfs (progArchive 1#8 0x400001#32))
  obtain ⟨⟨bin, v⟩, hbin, hdir⟩ := (Option.any_eq_true _ _).mp searchBin_prog
  obtain rfl : bin = some (bytes "/bin") := of_decide_eq_true hdir
  rw [← hvfs] at hbin
  obtain ⟨r₁, hload⟩ := processLoadPath_noRoom exampleLayout 4 zeroJunk p
    (bytes "/bin") (bytes "prog") (r := { r with vfs := v })
    (hr.inOrder.of_pm rfl) hfull
  refine ⟨⟨r, Sched.boot 0#32⟩, hr, p, ?_⟩
  exact (kshellReadExec_noTrace_iff (k := ⟨r, Sched.boot 0#32⟩) hr (by decide) break_prog (by decide)
    hbin hp hload (by decide)).mpr ⟨hfull, hcr3, rfl⟩

/-- A 64-bit program is found, but its header is rejected. -/
theorem searchBin_prog64 : (kshellSearchBin 4 (bytes "prog") binPaths
    (rootVfs (progArchive 2#8 0x400001#32))).any fun x => x.1 = some (bytes "/bin") ∧
      (fileOpenPath 4 x.2 (File.zero FileOps) (bytes "/bin") (bytes "prog")).any fun o =>
        o.res = 0 ∧ (elfReadEhdr32 o.vfs.drivers o.file zeroJunk.ehdr).1 = -ENOTSUP := by
  decide +kernel

/-- A file whose header is rejected: the load fails, and takes the kernel out of the
active page map. -/
theorem loadFile_rejected {fuel : Nat} {junk : StackJunk} {p : Fin PROCESS_MAX} {r : Resources}
    {cwd path : List Byte} {o : Opened} {res : Int} (hr : r.Loading p)
    (hfile : (r.pcb p).execfile = File.zero FileOps)
    (hopen : fileOpenPath fuel r.vfs (File.zero FileOps) cwd path = some o) (hres : o.res = 0)
    (hehdr : (elfReadEhdr32 o.vfs.drivers o.file junk.ehdr).1 = res) (hneg : res < 0) :
    ∃ r₁, loadFile fuel junk r p cwd path = some (.ok (res, r₁)) ∧ r₁.kernelMapped = false := by
  rw [loadFile, hfile, hopen]
  simp only [hres, hehdr, if_neg (lt_irrefl (0 : Int)), if_pos hneg]
  generalize hgen : Resources.setProcess _ p _ = r₂
  have hr₂ : r₂.Loading p := by
    rw [← hgen]
    exact hr.of_pm rfl rfl
  obtain ⟨st, hclean, hmapped⟩ := hr₂.cleanup
  rw [loadError, Resources.onPm, hclean]
  exact ⟨_, rfl, hmapped⟩

/-- After boot, the command `prog` for a 64-bit program is the end of the kernel. -/
theorem kshellReadExec_leaves_trace :
    ∃ (k : Kernel) (p : Fin PROCESS_MAX) (v : Vfs) (res : Int) (r₁ : Resources),
      k.res.Reachable exampleLayout ∧
      kshellSearchBin 4 (bytes "prog") binPaths k.res.vfs = some (some (bytes "/bin"), v) ∧
      processAlloc k.res = some p ∧
      processLoadPath exampleLayout 4 zeroJunk { k.res with vfs := v } p (bytes "/bin") (bytes "prog") =
        some (.ok (res, r₁)) ∧ res < 0 ∧
      ¬ ∃ e, kshellReadExec exampleLayout 4 zeroJunk k (bytes "prog") = some e ∧ e.NoTrace k p := by
  obtain ⟨r, hboot, hvfs, hused⟩ := exists_booted (rootVfs (progArchive 2#8 0x400001#32))
  obtain ⟨⟨bin, v⟩, hbin, hdir⟩ := (Option.any_eq_true _ _).mp searchBin_prog64
  obtain ⟨rfl, hopens⟩ : bin = some (bytes "/bin") ∧ _ := of_decide_eq_true hdir
  obtain ⟨o, ho, hrej⟩ := (Option.any_eq_true _ _).mp hopens
  obtain ⟨hres, hehdr⟩ := of_decide_eq_true hrej
  rw [← hvfs] at hbin
  have hp : processAlloc r = some ⟨0, by decide⟩ := by
    simp [processAlloc, hboot.pcb, Process.zero]
    rfl
  have h5 : PHYSPAGES_MAX = 5 := rfl
  obtain ⟨r₀, hload, hload₀, hvfs₀, hfile₀, -⟩ := processLoadPath_room exampleLayout 4
    zeroJunk ⟨0, by decide⟩ (bytes "/bin") (bytes "prog") (r := { r with vfs := v })
    (hboot.inOrder.of_pm rfl) (by change r.pm.used.card + 3 ≤ _; omega)
  obtain ⟨r₁, hfail, hmapped⟩ := loadFile_rejected hload₀ hfile₀ (by rw [hvfs₀]; exact ho) hres hehdr
    (by decide)
  rw [hfail] at hload
  refine ⟨⟨r, Sched.boot 0#32⟩, ⟨0, by decide⟩, v, -ENOTSUP, r₁, .boot hboot, hbin, hp, hload,
    by decide, ?_⟩
  rintro ⟨e, he, hno⟩
  rw [kshellReadExec_eq (k := ⟨r, Sched.boot 0#32⟩) break_prog (by decide) hbin hp hload, hmapped] at he
  cases he
  exact hno

end Munix
