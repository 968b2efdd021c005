import Munix.Drivers.CpioRead
import Munix.Kernel.Kshell
import Munix.Kernel.Loader

/-!
# Munix — loading programs, in every state of the kernel

`Resources.Reachable` are the states that the kernel gets to by loading
programs, running them and closing them. In all of them the page maps are in
order and the kernel has its own one (`Resources.InOrder`). From there
`processLoadPath_spec` says what a load does, at whichever step it ends.

* `processLoadPath_kernelHidden_iff`: a load that succeeds keeps the kernel
  hidden from user mode if and only if no segment begins below the kernel's end.
-/

namespace Munix

open ByteMem

-- ---------------------------------------------------------------------------
-- States in order
-- ---------------------------------------------------------------------------

/-- The page maps are in order, and that of the kernel has the pages of the
kernel, and nothing else. -/
structure Resources.InOrder (r : Resources) : Prop where
  inv    : PmInv r.pm
  filled : r.pm.Filled
  kernel : ∀ x, x < 2 ^ 20 → ((r.pm.view kernelSpace x).isSome = true ↔ x < 1024)

theorem kernelSpace_ne (p : Fin PROCESS_MAX) : kernelSpace ≠ p.val := by
  have := p.isLt
  unfold kernelSpace
  omega

section InOrder

variable {r r' : Resources} {p : Fin PROCESS_MAX}

/-- What is in order depends on the page maps only. -/
theorem Resources.InOrder.of_pm (h : r.InOrder) (hpm : r'.pm = r.pm) : r'.InOrder := by
  refine ⟨?_, ?_, ?_⟩ <;> rw [hpm]
  · exact h.inv
  · exact h.filled
  · exact h.kernel

theorem Resources.InOrder.closed (h : r.InOrder) (hc : Closed r.pm r'.pm p.val) : r'.InOrder where
  inv := hc.inv
  filled := hc.filled
  kernel x hx := by rw [hc.view kernelSpace x (kernelSpace_ne p) hx, h.kernel x hx]

theorem Resources.InOrder.mapTo {x n : Nat} {paddr : BitVec 32} {flags : Pme} (h : r.InOrder)
    (hm : MapTo r.pm r'.pm p.val x n paddr flags) : r'.InOrder where
  inv := hm.inv
  filled := hm.filled h.filled
  kernel x hx := by rw [hm.other kernelSpace x (kernelSpace_ne p) hx, h.kernel x hx]

theorem Resources.InOrder.setMem {m : Mem} (h : r.InOrder) (hm : KernelKept r.pm.mem m) :
    (r.setMem m).InOrder where
  inv := h.inv.keepTables hm
  filled := by
    intro s d hp
    obtain ⟨t, ht, hsome⟩ := h.filled s d ((present_kept h.inv hm _).mp hp)
    have hd : d < 1024 := hp.2.1
    exact ⟨t, ht, (congrArg Option.isSome (view_kept h.inv hm s (by omega))).trans hsome⟩
  kernel := by
    intro x hx
    rw [← h.kernel x hx, ← view_kept h.inv hm kernelSpace hx]
    rfl

theorem closeResources_eq {res : Int} {st : PmState} (h : addrspcCleanup r.pm p.val = some (res, st)) :
    closeResources r p = some {
      pm := st.dropRoot p.val
      cr3 := r.pm.roots kernelSpace
      vfs := { r.vfs with drivers := fileClose r.vfs.drivers (r.pcb p).execfile }
      pcb := Function.update r.pcb p .zero
      nextPid := r.nextPid } := by
  simp only [closeResources, Resources.onPm, pmSetRoot, h, Option.map_some]
  rfl

/-- `process_close` leaves everything in order, whatever the process. -/
theorem Resources.InOrder.close (h : r.InOrder) (p : Fin PROCESS_MAX) :
    ∃ r', closeResources r p = some r' ∧ r'.InOrder := by
  obtain ⟨st, hrun, hclosed, -⟩ := addrspcUnmap_drop h.inv h.filled p.val 0#32 SIZE_MAX
  exact ⟨_, closeResources_eq hrun, h.closed (p := p) hclosed⟩

end InOrder

-- ---------------------------------------------------------------------------
-- Loading segments
-- ---------------------------------------------------------------------------

/-- In the middle of loading process `p`: its page map is the active one, and
has the first page of the kernel. -/
structure Resources.Loading (r : Resources) (p : Fin PROCESS_MAX) : Prop where
  inOrder : r.InOrder
  root    : r.pm.Present (.root p.val)
  active  : pmePaddr r.cr3 = pmePaddr (r.pm.roots p.val)
  first   : (r.pm.view p.val 0).isSome = true

section Loading

variable {r r' : Resources} {p : Fin PROCESS_MAX}

theorem Resources.Loading.mapTo {x n : Nat} {paddr : BitVec 32} {flags : Pme} (h : r.Loading p)
    (hm : MapTo r.pm r'.pm p.val x n paddr flags) (hcr3 : r'.cr3 = r.cr3) : r'.Loading p := by
  obtain ⟨i, hi⟩ := h.inOrder.inv.exists_designates h.root
  have hi' := hm.designates _ i hi
  refine ⟨h.inOrder.mapTo hm, hi'.1, ?_, ?_⟩
  · have hold : pmePaddr (r.pm.roots p.val) = pageAddr i := hi.2
    have hnew : pmePaddr (r'.pm.roots p.val) = pageAddr i := hi'.2
    rw [hcr3, h.active, hold, hnew]
  · rw [hm.view 0 (by decide)]
    split
    · rfl
    · exact h.first

theorem Resources.Loading.setMem {m : Mem} (h : r.Loading p) (hm : KernelKept r.pm.mem m) :
    (r.setMem m).Loading p where
  inOrder := h.inOrder.setMem hm
  root := h.root
  active := h.active
  first := (congrArg Option.isSome (view_kept h.inOrder.inv hm p.val (by decide))).trans h.first

theorem Resources.Loading.of_pm (h : r.Loading p) (hpm : r'.pm = r.pm) (hcr3 : r'.cr3 = r.cr3) :
    r'.Loading p := by
  refine ⟨h.inOrder.of_pm hpm, ?_, ?_, ?_⟩
  · rw [hpm]
    exact h.root
  · rw [hpm, hcr3]
    exact h.active
  · rw [hpm]
    exact h.first

theorem kernelHidden_setMem {m : Mem} (hinv : PmInv r.pm) (hm : KernelKept r.pm.mem m) (s : Nat) :
    (r.setMem m).pm.KernelHidden s ↔ r.pm.KernelHidden s := by
  rw [kernelHidden_iff, kernelHidden_iff]
  refine forall_congr' fun x => forall_congr' fun hx => ?_
  rw [← view_kept hinv hm s (x := x) (by omega)]
  rfl

end Loading

section Load

variable {fuel : Nat} {p : Fin PROCESS_MAX} {ehdr : Ehdr} {junk : Nat → Phdr}

/-- One segment: if it is loaded, then the kernel stays hidden exactly when the
segment is above it. -/
theorem loadSegment_spec {phdr : Phdr} {r : Resources} {o : Outcome Resources (Int × Resources)}
    (hr : r.Loading p) (h : loadSegment fuel p r phdr = some o) :
    o.All (fun r' => r'.Loading p) fun a => a.2.Loading p ∧ a.2.vfs = r.vfs ∧
      SameFile (r.pcb p).execfile (a.2.pcb p).execfile ∧
      (¬ a.1 < 0 → (a.2.pm.KernelHidden p.val ↔ r.pm.KernelHidden p.val ∧ SegAbove phdr)) := by
  obtain ⟨res₁, st₁, n, hrun, hmap₁, -, hend⟩ := addrspcMap_spec hr.inOrder.inv p.val (segVaddr phdr)
    (segVaddr phdr) (segSize phdr) (segFlags_flagSet phdr)
  have hload₁ : Resources.Loading { r with pm := st₁ } p := hr.mapTo hmap₁ rfl
  rw [loadSegment, Resources.onPm, hrun] at h
  simp only [Option.map_some] at h
  split at h
  · rename_i hneg
    cases h
    exact ⟨hload₁, rfl, .refl _, fun hpos => absurd hneg hpos⟩
  · rename_i hneg
    obtain rfl : res₁ = 0 := by
      rcases hend with ⟨h0, -⟩ | ⟨h0, -⟩
      · exact h0
      · exact absurd (by rw [h0]; decide) hneg
    obtain ⟨hinv₁, hhid⟩ := addrspcMap_segment hr.inOrder.inv hrun
    split at h
    · cases h
    · cases h
      trivial
    · rename_i hseg
      cases h
      exact hload₁.setMem (elfLoadSeg32_spec hseg)
    · rename_i hseg
      cases h
      obtain ⟨hsame, hkept⟩ := elfLoadSeg32_spec hseg
      refine ⟨(hload₁.setMem hkept).of_pm rfl rfl, rfl, ?_, fun _ => ?_⟩
      · simpa [Resources.setProcess, Resources.setMem] using hsame
      · rw [← hhid]
        exact kernelHidden_setMem hinv₁ hkept p.val

/-- Loading segments: if all are loaded, then the kernel stays hidden exactly
when all of them are above it. -/
theorem loadSegments_spec {f : File FileOps} {d : Drivers} {n i : Nat} {r : Resources}
    {o : Outcome Resources (Int × Resources)} (h : loadSegments fuel p ehdr junk n i r = some o)
    (hr : r.Loading p) (hd : r.vfs.drivers = d) (hf : SameFile f (r.pcb p).execfile) :
    o.All (fun r' => r'.Loading p) fun a => a.2.Loading p ∧
      (¬ a.1 < 0 → a.1 = 0 ∧ (a.2.pm.KernelHidden p.val ↔ r.pm.KernelHidden p.val ∧
        ∀ j, i ≤ j → j < i + n → pType (phdrAt d f ehdr junk j) = PT_LOAD →
          SegAbove (phdrAt d f ehdr junk j))) := by
  induction n generalizing i r with
  | zero =>
    cases h
    exact ⟨hr, fun _ => ⟨rfl, (and_iff_left fun j hj hj' => by omega).symm⟩⟩
  | succ n ih =>
    -- the range splits into the first header and the rest
    have hrange : ∀ P : Nat → Prop, (∀ j, i ≤ j → j < i + (n + 1) → P j) ↔
        P i ∧ ∀ j, i + 1 ≤ j → j < i + 1 + n → P j := by
      intro P
      constructor
      · intro hP
        exact ⟨hP i (by omega) (by omega), fun j hj hj' => hP j (by omega) (by omega)⟩
      · rintro ⟨hi, hP⟩ j hj hj'
        by_cases hji : j = i
        · rw [hji]
          exact hi
        · exact hP j (by omega) (by omega)
    have hphdr : (elfReadPhdr32 r.vfs.drivers (r.pcb p).execfile ehdr i (junk i)).2.2 =
        phdrAt d f ehdr junk i := by
      rw [hd]
      exact (elfReadPhdr32_congr d hf ehdr i (junk i)).2
    have hsame := hf.trans (elfReadPhdr32_sameFile r.vfs.drivers (r.pcb p).execfile ehdr i (junk i))
    rw [loadSegments] at h
    dsimp only at h
    rw [hphdr] at h
    rw [hrange fun j => pType (phdrAt d f ehdr junk j) = PT_LOAD → SegAbove (phdrAt d f ehdr junk j)]
    set r₁ := r.setProcess p fun pr => { pr with
      execfile := (elfReadPhdr32 r.vfs.drivers (r.pcb p).execfile ehdr i (junk i)).2.1 } with hr₁
    have hload₁ : r₁.Loading p := hr.of_pm rfl rfl
    have hsame₁ : SameFile f (r₁.pcb p).execfile := by simpa [hr₁, Resources.setProcess] using hsame
    split at h
    · rename_i hneg
      cases h
      exact ⟨hload₁, fun hpos => absurd hneg hpos⟩
    · split at h
      · -- not a segment to load
        rename_i htype
        refine (ih h hload₁ hd hsame₁).mono (fun _ h => h) fun a ha => ⟨ha.1, fun hpos => ?_⟩
        obtain ⟨h0, hiff⟩ := ha.2 hpos
        refine ⟨h0, hiff.trans ?_⟩
        exact and_congr_right fun _ => (and_iff_right fun ht => absurd ht htype).symm
      · rename_i htype
        have htype : pType (phdrAt d f ehdr junk i) = PT_LOAD := not_not.mp htype
        split at h
        · cases h
        · cases h
          trivial
        · rename_i hseg
          cases h
          exact loadSegment_spec hload₁ hseg
        · rename_i hseg
          obtain ⟨hload₂, hvfs, hfile, hhid⟩ := loadSegment_spec hload₁ hseg
          dsimp only at hload₂ hvfs hfile hhid
          split at h
          · rename_i hneg
            cases h
            exact ⟨hload₂, fun hpos => absurd hneg hpos⟩
          · rename_i hres
            have hrest := ih h hload₂ (by rw [hvfs]; exact hd) (hsame₁.trans hfile)
            refine hrest.mono (fun _ h => h) fun a ha => ⟨ha.1, fun hpos => ?_⟩
            obtain ⟨h0, hiff⟩ := ha.2 hpos
            refine ⟨h0, ?_⟩
            rw [hiff, hhid hres, and_assoc]
            refine and_congr_right fun _ => and_congr_left fun _ => ?_
            exact ⟨fun ha _ => ha, fun ha => ha htype⟩

end Load

-- ---------------------------------------------------------------------------
-- Failing
-- ---------------------------------------------------------------------------

/-- The walk depends on where the page directory is. -/
theorem hwWalk_congr {root root' : Pme} (h : pmePaddr root = pmePaddr root')
    (hp : pmeIspresent root 0 = true) (hp' : pmeIspresent root' 0 = true) (m : Mem) (va : Addr) :
    hwWalk m root va = hwWalk m root' va := by
  rw [hwWalk, hwWalk, if_pos hp, if_pos hp']
  rw [show pdeAddr root va = pdeAddr root' va by rw [pdeAddr, pdeAddr, h]]

/-- The active page map is that of the process, in whatever memory. -/
theorem Resources.Loading.walk_active {r : Resources} {p : Fin PROCESS_MAX} (hr : r.Loading p) (m : Mem)
    (va : Addr) : hwWalk m r.cr3 va = PmState.translate { r.pm with mem := m } p.val va := by
  obtain ⟨i, hi⟩ := hr.inOrder.inv.exists_designates hr.root
  have hroot : pmePaddr (r.pm.roots p.val) = pageAddr i := hi.2
  have hcr3 : pmeIspresent r.cr3 0 = true := by
    rw [pmeIspresent_root]
    intro h0
    have := hr.active.trans hroot
    rw [h0] at this
    exact pageAddr_ne_zero i (this.symm.trans (by decide))
  exact hwWalk_congr hr.active hcr3 hr.root m va

/-- The active page map stays that of the process. -/
theorem Resources.Loading.walk {r : Resources} {p : Fin PROCESS_MAX} {m : Mem} (hr : r.Loading p)
    (hm : KernelKept r.pm.mem m) (va : Addr) :
    hwWalk m r.cr3 va = r.pm.translate p.val va := by
  have hlt : va.toNat / 4096 < 2 ^ 20 := by
    have := va.isLt
    omega
  calc hwWalk m r.cr3 va
      = PmState.translate { r.pm with mem := m } p.val va := hr.walk_active m va
    _ = r.pm.translate p.val va := by
      rw [translate_eq_map_view, view_kept hr.inOrder.inv hm p.val hlt, ← translate_eq_map_view]

/-- Cleaning up the active space takes the kernel out of the active page map. -/
theorem Resources.Loading.cleanup {r : Resources} {p : Fin PROCESS_MAX} (h : r.Loading p) :
    ∃ st, addrspcCleanup r.pm p.val = some (0, st) ∧
      Resources.kernelMapped { r with pm := st } = false := by
  obtain ⟨st₁, hun, -, hend⟩ := addrspcUnmap_walk h.inOrder.inv h.inOrder.filled p.val 0#32 SIZE_MAX
  have hfirst : st₁.view p.val 0 = none :=
    hun.lost 0 (by decide) (reached_first h.first (by decide) (by decide))
  obtain ⟨i, hi⟩ := h.inOrder.inv.exists_designates h.root
  have hcr3 : pmePaddr r.cr3 = pageAddr i := h.active.trans hi.2
  have hpres : ∀ {root : Pme}, pmePaddr root = pageAddr i → pmeIspresent root 0 = true := by
    intro root hroot
    rw [pmeIspresent_root]
    rintro rfl
    exact pageAddr_ne_zero i (hroot.symm.trans (by decide))
  -- whatever becomes of the page directory, page 0 is not translated any more
  have hdone : ∀ st : PmState, pmePaddr (st.roots p.val) = pageAddr i → st.view p.val 0 = none →
      Resources.kernelMapped { r with pm := st } = false := by
    intro st hroot hview
    refine List.all_eq_false.mpr ⟨0, List.mem_range.mpr (by decide), ?_⟩
    have hwalk : hwWalk st.mem r.cr3 0#32 = st.translate p.val 0#32 :=
      hwWalk_congr (hcr3.trans hroot.symm) (hpres hcr3) (hpres hroot) st.mem 0#32
    rw [show BitVec.ofNat 32 (4096 * 0) = 0#32 by decide, hwalk, translate_eq_view st p.val (by decide),
      show (0#32).toNat / 4096 = 0 by decide, hview]
    decide
  have hroot₁ : pmePaddr (st₁.roots p.val) = pageAddr i := by
    rw [hun.roots]
    exact hi.2
  rcases hend with ⟨-, hrun⟩ | ⟨-, j, hj, -, hrun⟩
  · exact ⟨st₁, hrun, hdone st₁ hroot₁ hfirst⟩
  · refine ⟨_, hrun, hdone _ ?_ (((release_root hj).1 p.val 0).trans hfirst)⟩
    rw [show (st₁.releaseRoot p.val j).roots p.val = st₁.roots p.val &&& ~~~PME_PRESENT from
      Function.update_self _ _ _, pmePaddr_clear, hroot₁]

theorem loadError_spec {r : Resources} {p : Fin PROCESS_MAX} (h : r.Loading p) {fileIsopen : Bool}
    {res : Int} {o : Outcome Resources (Int × Resources)}
    (ho : loadError p fileIsopen res r = some o) :
    ∃ r', o = .ok (res, r') ∧ r'.kernelMapped = false := by
  obtain ⟨st, hrun, hmapped⟩ := h.cleanup
  rw [loadError, Resources.onPm, hrun] at ho
  cases ho
  refine ⟨_, rfl, ?_⟩
  split <;> exact hmapped

-- ---------------------------------------------------------------------------
-- Loading a program
-- ---------------------------------------------------------------------------

/-- The segments of the file that the path names all leave the kernel's pages
alone. -/
def SegmentsAbove (fuel : Nat) (junk : StackJunk) (v : Vfs) (cwd path : List Byte) : Prop :=
  ∀ o, fileOpenPath fuel v (File.zero FileOps) cwd path = some o →
    ∀ ehdr, ehdr = (elfReadEhdr32 o.vfs.drivers o.file junk.ehdr).2.2 →
      ∀ i < (ePhnum ehdr).toNat, pType (phdrAt o.vfs.drivers o.file ehdr junk.phdr i) = PT_LOAD →
        SegAbove (phdrAt o.vfs.drivers o.file ehdr junk.phdr i)

/-- How a load ends once the address space is there: with a failure that leaves
the kernel unmapped, or with the program loaded. -/
def LoadEnd (p : Fin PROCESS_MAX) (hidden : Prop) (a : Int × Resources) : Prop :=
  (a.1 < 0 ∧ a.2.kernelMapped = false) ∨
    (a.1 = 0 ∧ a.2.Loading p ∧ (a.2.pm.KernelHidden p.val ↔ hidden))

section LoadPath

variable {L : Layout} {fuel : Nat} {junk : StackJunk} {p : Fin PROCESS_MAX} {cwd path : List Byte}
  {o : Outcome Resources (Int × Resources)}

theorem loadError_end {r : Resources} (h : r.Loading p) {fileIsopen : Bool} {res : Int}
    (hres : res < 0) {hidden : Prop} (ho : loadError p fileIsopen res r = some o) :
    o.All (fun r' => r'.Loading p) (LoadEnd p hidden) := by
  obtain ⟨r', rfl, hmapped⟩ := loadError_spec h ho
  exact .inl ⟨hres, hmapped⟩

theorem loadFile_spec {r : Resources} (hr : r.Loading p) (hfile : (r.pcb p).execfile = File.zero FileOps)
    (hhid : r.pm.KernelHidden p.val) (h : loadFile fuel junk r p cwd path = some o) :
    o.All (fun r' => r'.Loading p) (LoadEnd p (SegmentsAbove fuel junk r.vfs cwd path)) := by
  rw [loadFile, hfile] at h
  split at h
  · cases h
  · rename_i res file vfs hopen
    dsimp only at h
    split at h
    · rename_i hneg
      refine loadError_end ?_ hneg h
      exact hr.of_pm rfl rfl
    · split at h
      · rename_i hneg
        refine loadError_end ?_ hneg h
        exact hr.of_pm rfl rfl
      · set ehdr := (elfReadEhdr32 vfs.drivers file junk.ehdr).2.2 with hehdr
        have hall : SegmentsAbove fuel junk r.vfs cwd path ↔ ∀ j, 0 ≤ j → j < 0 + (ePhnum ehdr).toNat →
            pType (phdrAt vfs.drivers file ehdr junk.phdr j) = PT_LOAD →
              SegAbove (phdrAt vfs.drivers file ehdr junk.phdr j) := by
          constructor
          · intro habove j _ hj
            exact habove _ hopen ehdr rfl j (by simpa using hj)
          · rintro habove o ho _ rfl j hj
            obtain rfl : ⟨res, file, vfs⟩ = o := Option.some.inj (hopen.symm.trans ho)
            exact habove j (Nat.zero_le j) (by simpa using hj)
        split at h
        · cases h
        · cases h
          trivial
        · rename_i hsegs
          cases h
          exact loadSegments_spec hsegs (f := file) (hr.of_pm rfl rfl) rfl
            (by simpa [Resources.setProcess] using elfReadEhdr32_sameFile vfs.drivers file junk.ehdr)
        · rename_i res' r' hsegs
          obtain ⟨hload, hend⟩ := loadSegments_spec hsegs (f := file) (hr.of_pm rfl rfl) rfl
            (by simpa [Resources.setProcess] using elfReadEhdr32_sameFile vfs.drivers file junk.ehdr)
          split at h
          · rename_i hneg
            exact loadError_end hload hneg h
          · rename_i hpos
            cases h
            refine .inr ⟨rfl, hload, ?_⟩
            rw [(hend hpos).2, hall]
            exact and_iff_right hhid

/-- The process structure is zeroed before anything else. -/
theorem resetProcess_closed {r : Resources} (hr : r.InOrder) (L : Layout) (p : Fin PROCESS_MAX) :
    Closed r.pm (resetProcess L r p).pm p.val :=
  closed_dropRoot hr.inv hr.filled p.val

/-- A new address space hides the kernel. -/
theorem MapTo.kernelHidden_init {st st' : PmState} {s : Nat} (h : MapTo st st' s 0 1024 0#32 0#32) :
    st'.KernelHidden s := by
  rw [kernelHidden_iff]
  intro x hx pa perm hv
  rw [h.view x (by omega), if_pos (by omega)] at hv
  obtain ⟨-, rfl⟩ := Prod.mk.inj (Option.some.inj hv)
  decide

/-- With the new address space active, loading goes on. -/
theorem loading_init {r : Resources} (hr : r.InOrder) {st : PmState}
    (h : MapTo r.pm st p.val 0 1024 0#32 0#32) :
    (pmSetRoot { r with pm := st } (st.roots p.val)).Loading p := by
  have hfirst : (st.view p.val 0).isSome = true := by
    rw [h.view 0 (by decide), if_pos (by decide)]
    rfl
  refine ⟨(hr.mapTo h : Resources.InOrder { r with pm := st }).of_pm rfl, ?_, rfl, hfirst⟩
  by_contra hroot
  have hroot : ¬ st.Present (.root p.val) := hroot
  rw [view_eq_none_of_absent (by decide) fun hp => hroot (Present.root hp)] at hfirst
  cases hfirst

/-- `process_load_path` up to where it opens the file: the address space, with
the user stack. -/
def loadStart (L : Layout) (r : Resources) (p : Fin PROCESS_MAX) : Option (Int × Resources) :=
  let r := resetProcess L r p
  match r.onPm fun pm => addrspcInit pm p.val with
  | none => none
  | some (res, r) =>
    if res < 0 then some (res, r)
    else
      let r := pmSetRoot r (r.pm.roots p.val)
      let ustackLow := (r.pcb p).ustack - THREAD_STACK_TOTAL
      r.onPm fun pm =>
        addrspcMap pm p.val ustackLow ustackLow THREAD_STACK_TOTAL (PME_USER ||| PME_W)

theorem processLoadPath_eq (L : Layout) (fuel : Nat) (junk : StackJunk) (r : Resources)
    (p : Fin PROCESS_MAX) (cwd path : List Byte) :
    processLoadPath L fuel junk r p cwd path =
      match loadStart L r p with
      | none => none
      | some (res, r) => if res < 0 then loadError p false res r else loadFile fuel junk r p cwd path := by
  rw [processLoadPath, loadStart]
  dsimp only
  rcases (resetProcess L r p).onPm fun pm => addrspcInit pm p.val with _ | ⟨res, r₁⟩
  · rfl
  · dsimp only
    split
    · rename_i hneg
      simp only [if_pos hneg]
    · rcases Resources.onPm (pmSetRoot r₁ (r₁.pm.roots p.val)) _ with _ | ⟨res, r₂⟩
      · rfl
      · rfl

/-- How the start of a load ends: there is no room for the address space, or the kernel is mapped
and then as much of the user stack as there is room for. -/
inductive StartEnd (L : Layout) (r : Resources) (p : Fin PROCESS_MAX) : Int × Resources → Prop
  | noSpace {st₀ : PmState} (hrun : addrspcInit (r.pm.dropRoot p.val) p.val = some (-ENOMEM, st₀)) :
      StartEnd L r p (-ENOMEM, { resetProcess L r p with pm := st₀ })
  | space {res : Int} {st₀ st₁ : PmState} {m : Nat}
      (hrun : addrspcInit (r.pm.dropRoot p.val) p.val = some (0, st₀))
      (hmap : MapTo (resetProcess L r p).pm st₀ p.val 0 1024 0#32 0#32)
      (hstack : MapTo st₀ st₁ p.val 1264 m (BitVec.ofNat 32 (4096 * 1264)) (PME_USER ||| PME_W))
      (hall : ¬ res < 0 → m = 16) :
      StartEnd L r p
        (res, { pmSetRoot { resetProcess L r p with pm := st₀ } (st₀.roots p.val) with pm := st₁ })

/-- **How a load starts.** -/
theorem loadStart_ends {r : Resources} (hr : r.InOrder) :
    ∃ a, loadStart L r p = some a ∧ StartEnd L r p a := by
  have hreset := resetProcess_closed hr L p
  have hustack : ((resetProcess L r p).pcb p).ustack = USTACK_DFLT := by
    simp [resetProcess, Resources.setProcess]
  obtain ⟨res, st₀, n, hrun, hmap, hend⟩ := addrspcInit_spec hreset.inv p.val
  rw [loadStart]
  simp only [Resources.onPm, hrun, Option.map_some]
  rcases hend with ⟨rfl, rfl⟩ | ⟨rfl, rfl⟩
  · obtain ⟨res, st₁, m, hrun₁, hstack, -, hend₁⟩ := addrspcMap_spec hmap.inv p.val
      (USTACK_DFLT - THREAD_STACK_TOTAL) (USTACK_DFLT - THREAD_STACK_TOTAL) THREAD_STACK_TOTAL
      (by decide : FlagSet (PME_USER ||| PME_W))
    have hpage : (USTACK_DFLT - THREAD_STACK_TOTAL).toNat / 4096 = 1264 := by decide
    have hpaddr : alignDown (USTACK_DFLT - THREAD_STACK_TOTAL) PAGESZ = BitVec.ofNat 32 (4096 * 1264) := by
      decide
    rw [hpage, hpaddr] at hstack
    rw [if_neg (Int.lt_irrefl 0)]
    simp only [pmSetRoot, hustack, hrun₁, Option.map_some]
    refine ⟨_, rfl, .space hrun hmap hstack fun hres => ?_⟩
    rcases hend₁ with ⟨-, hm⟩ | ⟨h0, -⟩
    · rw [hm]
      decide
    · exact absurd (by rw [h0]; decide) hres
  · rw [if_pos (show -ENOMEM < 0 by decide)]
    exact ⟨_, rfl, .noSpace hrun⟩

theorem loadStart_cases {r : Resources} (hr : r.InOrder) {a : Int × Resources}
    (h : loadStart L r p = some a) : StartEnd L r p a := by
  obtain ⟨a', h', hend⟩ := loadStart_ends (L := L) (p := p) hr
  obtain rfl : a = a' := Option.some.inj (h.symm.trans h')
  exact hend

/-- A load that gets to the file has mapped the kernel and then the user stack. -/
theorem loadStart_maps {r r₁ : Resources} (hr : r.InOrder) {res : Int}
    (h : loadStart L r p = some (res, r₁)) (hres : ¬ res < 0) :
    ∃ st₀ st₁, MapTo (resetProcess L r p).pm st₀ p.val 0 1024 0#32 0#32 ∧
      MapTo st₀ st₁ p.val 1264 16 (BitVec.ofNat 32 (4096 * 1264)) (PME_USER ||| PME_W) ∧
      r₁ = { pmSetRoot { resetProcess L r p with pm := st₀ } (st₀.roots p.val) with pm := st₁ } := by
  cases loadStart_cases hr h with
  | noSpace hrun => exact absurd (by decide) hres
  | space hrun hmap hstack hall =>
    obtain rfl := hall hres
    exact ⟨_, _, hmap, hstack, rfl⟩

/-- **What `process_load_path` does.** If there is no room for the address space
it cleans up what there is of it; otherwise it fails with the kernel unmapped, or
loads the program. -/
theorem processLoadPath_spec {r : Resources} (hr : r.InOrder)
    (h : processLoadPath L fuel junk r p cwd path = some o) :
    (∃ st₀ st₁, addrspcInit (r.pm.dropRoot p.val) p.val = some (-ENOMEM, st₀) ∧
      addrspcCleanup st₀ p.val = some (0, st₁) ∧
      o = .ok (-ENOMEM, { resetProcess L r p with pm := st₁ })) ∨
    ((∃ st₀, addrspcInit (r.pm.dropRoot p.val) p.val = some (0, st₀)) ∧
      o.All (fun r' => r'.Loading p) (LoadEnd p (SegmentsAbove fuel junk r.vfs cwd path))) := by
  have hreset := resetProcess_closed hr L p
  rw [processLoadPath_eq] at h
  cases hstart : loadStart L r p with
  | none => simp [hstart] at h
  | some a =>
    obtain ⟨res, r₁⟩ := a
    rw [hstart] at h
    dsimp only at h
    cases loadStart_cases hr hstart with
    | noSpace hrun =>
      left
      obtain ⟨st₁, -, -, hclean, -⟩ :=
        addrspcInit_fails_closed hreset.inv hreset.filled hreset.root hrun
      rw [if_pos (by decide), loadError] at h
      simp only [Resources.onPm, hclean, Option.map_some] at h
      exact ⟨_, st₁, hrun, hclean, (Option.some.inj h).symm⟩
    | @space _ st₀ st₁ _ hrun hmap hstack _ =>
      right
      refine ⟨⟨st₀, hrun⟩, ?_⟩
      have hload₁ : Resources.Loading
          { pmSetRoot { resetProcess L r p with pm := st₀ } (st₀.roots p.val) with pm := st₁ } p :=
        (loading_init (hr.closed hreset) hmap).mapTo hstack rfl
      split at h
      · rename_i hneg
        exact loadError_end hload₁ hneg h
      · have hfile : ((resetProcess L r p).pcb p).execfile = File.zero FileOps := by
          simp [resetProcess, Resources.setProcess, Process.zero]
        -- the stack is above the kernel
        have hhid₁ : st₁.KernelHidden p.val :=
          (hstack.kernelHidden (.inl (by decide))).mpr hmap.kernelHidden_init
        have hspec := loadFile_spec hload₁ hfile hhid₁ h
        exact hspec

end LoadPath

theorem processLoadPath_ok {L : Layout} {fuel : Nat} {junk : StackJunk} {r r' : Resources}
    {p : Fin PROCESS_MAX} {cwd path : List Byte} (hr : r.InOrder)
    (h : processLoadPath L fuel junk r p cwd path = some (.ok (0, r'))) :
    r'.Loading p ∧ (r'.pm.KernelHidden p.val ↔ SegmentsAbove fuel junk r.vfs cwd path) := by
  rcases processLoadPath_spec hr h with ⟨_, _, -, -, ho⟩ | ⟨-, ho⟩
  · simp [ENOMEM] at ho
  · rcases ho with ⟨hneg, -⟩ | ⟨-, hload, hiff⟩
    · exact absurd hneg (Int.lt_irrefl 0)
    · exact ⟨hload, hiff⟩

-- ---------------------------------------------------------------------------
-- Runs
-- ---------------------------------------------------------------------------

/-- After `init_pm`: the kernel has its page map, and no process has been
started. Any file systems may be mounted. -/
structure Resources.Booted (r : Resources) : Prop where
  init : ∃ mem, addrspcInit (PmState.initial mem) kernelSpace = some (0, r.pm)
  cr3  : r.cr3 = r.pm.roots kernelSpace
  pcb  : ∀ p, r.pcb p = .zero
  pid  : r.nextPid = 1#32

/-- The states that the kernel gets to: it loads programs into slots of the
process table, they run, and they are closed, in any order. A load can end in a
page fault, or fail; the shell goes on with closing the process then, but only if
the kernel is still mapped. -/
inductive Resources.Reachable (L : Layout) : Resources → Prop where
  | boot {r : Resources} : r.Booted → Reachable L r
  | load {r r' : Resources} (fuel : Nat) (junk : StackJunk) (p : Fin PROCESS_MAX) (cwd path : List Byte) :
      Reachable L r → processLoadPath L fuel junk r p cwd path = some (.ok (0, r')) → Reachable L r'
  | fault {r r' : Resources} (fuel : Nat) (junk : StackJunk) (p : Fin PROCESS_MAX)
      (cwd path : List Byte) :
      Reachable L r → processLoadPath L fuel junk r p cwd path = some (.fault r') → Reachable L r'
  | abort {r r₁ r' : Resources} {res : Int} (fuel : Nat) (junk : StackJunk) (p : Fin PROCESS_MAX)
      (cwd path : List Byte) :
      Reachable L r → processLoadPath L fuel junk r p cwd path = some (.ok (res, r₁)) → res < 0 →
      r₁.kernelMapped = true → closeResources r₁ p = some r' → Reachable L r'
  | close {r r' : Resources} (p : Fin PROCESS_MAX) :
      Reachable L r → closeResources r p = some r' → Reachable L r'
  /-- Stores by user code, and onto the user stack. -/
  | run {r : Resources} (m : Mem) : Reachable L r → KernelKept r.pm.mem m → Reachable L (r.setMem m)
  /-- `process_start` moves the stack pointer. -/
  | push {r : Resources} (p : Fin PROCESS_MAX) (sp : BitVec 32) :
      Reachable L r → Reachable L (r.setProcess p fun pr => { pr with ustack := sp })
  /-- Files are opened and closed by commands of the shell. -/
  | files {r : Resources} (v : Vfs) : Reachable L r → Reachable L { r with vfs := v }

theorem Resources.Booted.inOrder {r : Resources} (h : r.Booted) : r.InOrder := by
  obtain ⟨mem, hrun⟩ := h.init
  obtain ⟨res, st, n, hrun', hmap, hend⟩ := addrspcInit_spec (PmInv.initial mem) kernelSpace
  obtain ⟨rfl, rfl⟩ : 0 = res ∧ r.pm = st := by simpa using hrun.symm.trans hrun'
  obtain rfl : n = 1024 := by
    rcases hend with ⟨-, hn⟩ | ⟨h0, -⟩
    · exact hn
    · simp [ENOMEM] at h0
  refine ⟨hmap.inv, hmap.filled (PmState.Filled.initial mem), fun x hx => ?_⟩
  rw [hmap.view x hx, view_eq_none_of_absent hx (PmState.initial_absent mem _)]
  split
  · exact iff_of_true rfl (by omega)
  · exact iff_of_false (by simp) (by omega)

theorem Resources.Reachable.inOrder {L : Layout} {r : Resources} (h : r.Reachable L) : r.InOrder := by
  induction h with
  | boot h => exact h.inOrder
  | load fuel junk p cwd path _ hload ih =>
    exact (processLoadPath_ok ih hload).1.inOrder
  | fault fuel junk p cwd path _ hload ih =>
    rcases processLoadPath_spec ih hload with ⟨_, _, -, -, ho⟩ | ⟨-, ho⟩
    · cases ho
    · exact ho.inOrder
  | @abort r r₁ r' res fuel junk p cwd path _ hload hneg hmapped hclose ih =>
    have hreset := resetProcess_closed ih L p
    rcases processLoadPath_spec ih hload with ⟨st₀, st₁, hinit, hclean, ho⟩ | ⟨-, ho⟩
    · obtain ⟨-, rfl⟩ := Prod.mk.inj (Outcome.ok.inj ho)
      obtain ⟨st₁', res₂, st₂, hclean', hclean₂, -, -, hclosed, -⟩ :=
        addrspcInit_fails_closed hreset.inv hreset.filled hreset.root hinit
      obtain rfl : st₁ = st₁' := by simpa using hclean.symm.trans hclean'
      rw [closeResources_eq hclean₂] at hclose
      obtain rfl := Option.some.inj hclose
      exact (ih.closed hreset).closed (p := p) hclosed
    · rcases ho with ⟨-, hno⟩ | ⟨h0, -⟩
      · exact absurd (hmapped.symm.trans hno) (by decide)
      · have h0 : res = 0 := h0
        omega
  | close p _ hclose ih =>
    obtain ⟨r', hclose', hr'⟩ := ih.close p
    obtain rfl := Option.some.inj (hclose.symm.trans hclose')
    exact hr'
  | run m _ hm ih => exact ih.setMem hm
  | push p sp _ ih => exact ih.of_pm rfl
  | files v _ ih => exact ih.of_pm rfl

/-- **When the loader keeps the kernel hidden.** After a load that returned 0, no
page of the kernel can be accessed at user privilege if and only if every
segment of the file begins above the kernel or is empty. -/
theorem processLoadPath_kernelHidden_iff {L : Layout} {fuel : Nat} {junk : StackJunk}
    {r r' : Resources} {p : Fin PROCESS_MAX} {cwd path : List Byte} (hr : r.Reachable L)
    (h : processLoadPath L fuel junk r p cwd path = some (.ok (0, r'))) :
    r'.pm.KernelHidden p.val ↔ SegmentsAbove fuel junk r.vfs cwd path := by
  exact (processLoadPath_ok hr.inOrder h).2

-- ---------------------------------------------------------------------------
-- Room for a program
-- ---------------------------------------------------------------------------

theorem exists_booted (v : Vfs) : ∃ r : Resources, r.Booted ∧ r.vfs = v ∧ r.pm.used.card ≤ 2 := by
  obtain ⟨st, hrun, -, hused⟩ := addrspcMap_succeeds (PmInv.initial fun _ => 0#8) kernelSpace
    KMAP_MIN KMAP_MIN (KMAP_MAX - KMAP_MIN) (by decide : FlagSet 0#32) 2 (by decide) (.inl rfl)
    (by rw [used_initial]; decide)
  rw [used_initial] at hused
  exact ⟨⟨st, st.roots kernelSpace, v, fun _ => .zero, 1#32⟩, ⟨⟨_, hrun⟩, rfl, fun _ => rfl, rfl⟩, rfl,
    hused⟩

/-- With three pages left, there is room for the address space. -/
theorem loadStart_room {L : Layout} {r : Resources} {p : Fin PROCESS_MAX} (hr : r.InOrder)
    (hroom : r.pm.used.card + 3 ≤ PHYSPAGES_MAX) :
    ∃ r₁, loadStart L r p = some (0, r₁) ∧ r₁.pm.used.card ≤ r.pm.used.card + 3 := by
  have hreset := resetProcess_closed hr L p
  have hr₀ : (resetProcess L r p).InOrder := hr.closed hreset
  have hused₀ : (resetProcess L r p).pm.used.card = r.pm.used.card := rfl
  obtain ⟨st₁, hrun₁, hmap₁, hused₁⟩ := addrspcMap_succeeds hreset.inv p.val KMAP_MIN KMAP_MIN
    (KMAP_MAX - KMAP_MIN) (by decide : FlagSet 0#32) 2 (by decide) (.inl rfl) (by omega)
  have hroot₁ : st₁.Present (.root p.val) := (loading_init hr₀ hmap₁).root
  obtain ⟨st₂, hrun₂, -, hused₂⟩ := addrspcMap_succeeds hmap₁.inv p.val
    (USTACK_DFLT - THREAD_STACK_TOTAL) (USTACK_DFLT - THREAD_STACK_TOTAL) THREAD_STACK_TOTAL
    (by decide : FlagSet (PME_USER ||| PME_W)) 1 (by decide) (.inr (.inl ⟨rfl, hroot₁⟩)) (by omega)
  have hstack : ((resetProcess L r p).pcb p).ustack = USTACK_DFLT := by
    simp [resetProcess, Resources.setProcess]
  have hinit : addrspcInit (resetProcess L r p).pm p.val = some (0, st₁) := hrun₁
  refine ⟨{ pmSetRoot { resetProcess L r p with pm := st₁ } (st₁.roots p.val) with pm := st₂ }, ?_, ?_⟩
  · rw [loadStart]
    simp only [Resources.onPm, hinit, Option.map_some, pmSetRoot, hstack, hrun₂]
    rfl
  · change st₂.used.card ≤ _
    omega

/-- With three pages left, loading gets as far as opening the file. -/
theorem processLoadPath_room (L : Layout) (fuel : Nat) (junk : StackJunk) (p : Fin PROCESS_MAX)
    (cwd path : List Byte) {r : Resources} (hr : r.InOrder)
    (hroom : r.pm.used.card + 3 ≤ PHYSPAGES_MAX) :
    ∃ r₁, processLoadPath L fuel junk r p cwd path = loadFile fuel junk r₁ p cwd path ∧
      r₁.Loading p ∧ r₁.vfs = r.vfs ∧ (r₁.pcb p).execfile = File.zero FileOps ∧
      r₁.pm.used.card ≤ r.pm.used.card + 3 ∧ ∀ d, d ≤ 1 → r₁.pm.Present (.pde p.val d) := by
  obtain ⟨r₁, hstart, hused⟩ := loadStart_room (L := L) (p := p) hr hroom
  obtain ⟨st₁, st₂, hmap₁, hmap₂, rfl⟩ := loadStart_maps hr hstart (by decide)
  have hload₁ := loading_init (hr.closed (resetProcess_closed hr L p)) hmap₁
  have hload₂ : Resources.Loading
      { pmSetRoot { resetProcess L r p with pm := st₁ } (st₁.roots p.val) with pm := st₂ } p :=
    hload₁.mapTo hmap₂ rfl
  refine ⟨_, ?_, hload₂, rfl, by simp [pmSetRoot, resetProcess, Resources.setProcess, Process.zero],
    hused, ?_⟩
  · rw [processLoadPath_eq, hstart]
    rfl
  · have hview : ∀ x, x < 2 ^ 20 → (st₂.view p.val x).isSome = true →
        st₂.Present (.pde p.val (x / 1024)) := by
      intro x hx hsome
      by_contra hno
      rw [view_eq_none_of_absent hx hno] at hsome
      cases hsome
    intro d hd
    obtain rfl | rfl : d = 0 ∨ d = 1 := by omega
    · exact hview 0 (by decide) hload₂.first
    · refine hview 1264 (by decide) ?_
      rw [hmap₂.view 1264 (by decide), if_pos (by decide)]
      rfl

-- ---------------------------------------------------------------------------
-- Programs with one empty segment
-- ---------------------------------------------------------------------------

/-- An executable of the given class, with one segment at `vaddr`, in which there
is nothing. -/
def elfFile (cls : Byte) (vaddr : BitVec 32) : List Byte :=
  ELFMAG ++ [cls, 1#8, 1#8] ++ List.replicate 9 0#8 ++ [2#8, 0#8, 3#8, 0#8] ++ word 1#32 ++
    word vaddr ++ word 52#32 ++ word 0#32 ++ word 0#32 ++ [52#8, 0#8, 32#8, 0#8, 1#8, 0#8] ++
    List.replicate 6 0#8 ++
    (word PT_LOAD ++ word 0#32 ++ word vaddr ++ word vaddr ++ word 0#32 ++ word 0#32 ++ word 5#32 ++
      word PAGESZ)

theorem length_elfFile (cls : Byte) (vaddr : BitVec 32) : (elfFile cls vaddr).length = 84 := rfl

/-- The executable in an archive, under the name `bin/prog`. -/
def elfEntry (cls : Byte) (vaddr : BitVec 32) : Record where
  header := bytes ("070701" ++ "00000001" ++ "000081A4" ++ "00000000" ++ "00000000" ++ "00000001" ++
    "00000000" ++ "00000054" ++ "00000000" ++ "00000000" ++ "00000000" ++ "00000000" ++
    "00000009" ++ "00000000")
  name := bytes "bin/prog"
  namePad := [0#8]
  data := elfFile cls vaddr
  dataPad := []
  header_length := by decide
  magic := by decide
  fields_hex := by decide +kernel
  namesize := by decide +kernel
  filesize := by
    rw [length_elfFile]
    decide +kernel
  name_nonempty := by decide
  name_string := by decide
  name_fits := by decide
  namePad_length := by decide
  dataPad_length := by
    rw [length_elfFile]
    decide

def progArchive (cls : Byte) (vaddr : BitVec 32) : Archive where
  entries := [elfEntry cls vaddr]
  trailer := helloTrailer
  rest := []
  entries_name := by
    intro r hr
    obtain rfl := List.mem_singleton.mp hr
    change bytes "bin/prog" ≠ _
    decide
  trailer_name := helloArchive.trailer_name
  trailer_data := helloArchive.trailer_data
  size_lt := by
    rw [List.flatMap_singleton, List.append_nil, List.length_append, Record.length_encode,
      Record.length_front, Record.length_encode, Record.length_front]
    simp only [elfEntry, length_elfFile]
    decide

/-- The archive is mounted at the root. -/
def rootVfs (a : Archive) : Vfs := ⟨a.drivers, [⟨0x400#32, bytes "/"⟩]⟩

/-- A clean stack. -/
def zeroJunk : StackJunk := ⟨List.replicate 52 0#8, fun _ => List.replicate 32 0#8⟩

/-- The file is an executable with one segment, at `vaddr` and empty. -/
def EmptySegment (vaddr : BitVec 32) (o : Opened) : Prop :=
  let e := elfReadEhdr32 o.vfs.drivers o.file zeroJunk.ehdr
  let ph := elfReadPhdr32 o.vfs.drivers e.2.1 e.2.2 0 (zeroJunk.phdr 0)
  o.res = 0 ∧ e.1 = 0 ∧ ePhnum e.2.2 = 1#16 ∧ ph.1 = 0 ∧ pType ph.2.2 = PT_LOAD ∧
    pVaddr ph.2.2 = vaddr ∧ pFilesz ph.2.2 = 0#32 ∧ pMemsz ph.2.2 = 0#32 ∧
    (fileLseek ph.2.1 (pOffset ph.2.2) .seekSet).1 = 0

instance (vaddr : BitVec 32) (o : Opened) : Decidable (EmptySegment vaddr o) :=
  inferInstanceAs (Decidable (_ ∧ _))

/-- An empty segment is loaded once it is mapped. -/
theorem loadSegment_empty {fuel : Nat} {p : Fin PROCESS_MAX} {r : Resources} {phdr : Phdr} {st : PmState}
    (hmap : addrspcMap r.pm p.val (segVaddr phdr) (segVaddr phdr) (segSize phdr) (segFlags phdr) =
      some (0, st)) (hseek : (fileLseek (r.pcb p).execfile (pOffset phdr) .seekSet).1 = 0)
    (hfilesz : pFilesz phdr = 0#32) (hmemsz : pMemsz phdr = 0#32) :
    ∃ r', loadSegment (fuel + 1) p r phdr = some (.ok (0, r')) := by
  rw [loadSegment, Resources.onPm, hmap]
  simp [elfLoadSeg32, hseek, segCopyLoop, hfilesz, hmemsz, memsetV]

/-- A file with one empty segment is loaded if the segment can be mapped. -/
theorem loadFile_empty {p : Fin PROCESS_MAX} {r : Resources} {cwd path : List Byte} {vaddr : BitVec 32}
    {o : Opened} (hfile : (r.pcb p).execfile = File.zero FileOps)
    (ho : fileOpenPath 4 r.vfs (File.zero FileOps) cwd path = some o) (hseg : EmptySegment vaddr o)
    (hmap : ∀ phdr, pVaddr phdr = vaddr → pMemsz phdr = 0#32 → ∃ st,
      addrspcMap r.pm p.val (segVaddr phdr) (segVaddr phdr) (segSize phdr) (segFlags phdr) =
        some (0, st)) :
    ∃ r', loadFile 4 zeroJunk r p cwd path = some (.ok (0, r')) := by
  obtain ⟨hres, hehdr, hnum, hphdr, htype, hvaddr, hfilesz, hmemsz, hseek⟩ := hseg
  rw [loadFile, hfile, ho]
  simp only [hres, hehdr, hnum, show (1#16).toNat = 1 by decide, loadSegments, Resources.setProcess,
    Function.update_self, hphdr, htype]
  rw [if_neg (lt_irrefl 0), if_neg (lt_irrefl 0), if_neg (lt_irrefl 0), if_neg (not_not.mpr rfl)]
  generalize hgen : loadSegment _ _ _ _ = x
  obtain ⟨r', rfl⟩ : ∃ r', x = some (.ok (0, r')) := by
    obtain ⟨st, hmap⟩ := hmap _ hvaddr hmemsz
    rw [← hgen]
    exact loadSegment_empty hmap (by simpa using hseek) hfilesz hmemsz
  exact ⟨r', rfl⟩
/-- The pages of an empty segment that does not begin at a page boundary: one. -/
theorem segSize_empty {phdr : Phdr} (hmemsz : pMemsz phdr = 0#32) (hlow : pVaddr phdr < 0x7ff000#32)
    (hodd : (pVaddr phdr).toNat % 4096 = 1) : segSize phdr = 4096#32 := by
  have hdown : (segVaddr phdr).toNat = (pVaddr phdr).toNat / 4096 * 4096 := alignDown_toNat _
  have hup : (alignUp (pVaddr phdr) PAGESZ).toNat = ((pVaddr phdr).toNat + 4095) / 4096 * 4096 :=
    alignUp_toNat (by bv_omega)
  rw [segSize, hmemsz, BitVec.add_zero]
  bv_omega

/-- A program with one empty segment is loaded. -/
theorem exists_load {vaddr : BitVec 32}
    (hopens : (fileOpenPath 4 (rootVfs (progArchive 1#8 vaddr)) (File.zero FileOps) (bytes "/bin")
      (bytes "prog")).any fun o => EmptySegment vaddr o) (hlow : vaddr < 0x7ff000#32)
    (hodd : vaddr.toNat % 4096 = 1) (L : Layout) (p : Fin PROCESS_MAX) :
    ∃ r r', r.Booted ∧ r.vfs = rootVfs (progArchive 1#8 vaddr) ∧
      processLoadPath L 4 zeroJunk r p (bytes "/bin") (bytes "prog") = some (.ok (0, r')) := by
  obtain ⟨r, hboot, hvfs, hused⟩ := exists_booted (rootVfs (progArchive 1#8 vaddr))
  have h5 : PHYSPAGES_MAX = 5 := rfl
  obtain ⟨r₁, hload, hload₁, hvfs₁, hfile₁, hused₁, htbl⟩ := processLoadPath_room L 4 zeroJunk p
    (bytes "/bin") (bytes "prog") hboot.inOrder (by omega)
  obtain ⟨o, ho, hseg⟩ := (Option.any_eq_true _ _).mp hopens
  -- the segment's page is in a table that the space has already
  have hmap : ∀ phdr, pVaddr phdr = vaddr → pMemsz phdr = 0#32 → ∃ st,
      addrspcMap r₁.pm p.val (segVaddr phdr) (segVaddr phdr) (segSize phdr) (segFlags phdr) =
        some (0, st) := by
    rintro phdr rfl hmemsz
    have hpage : (segVaddr phdr).toNat / 4096 = (pVaddr phdr).toNat / 4096 := by
      rw [segVaddr, PAGESZ, alignDown_toNat]
      omega
    have hup : (alignUp (segSize phdr) PAGESZ).toNat / 4096 = 1 := by
      rw [segSize_empty hmemsz hlow hodd]
      decide
    have hd : (segVaddr phdr).toNat / 4096 / 1024 ≤ 1 := by bv_omega
    obtain ⟨st, hmap, -⟩ := addrspcMap_succeeds hload₁.inOrder.inv p.val (segVaddr phdr)
      (segVaddr phdr) (segSize phdr) (segFlags_flagSet phdr) 0 (by omega)
      (.inr (.inr ⟨rfl, htbl _ hd⟩)) (by omega)
    exact ⟨st, hmap⟩
  obtain ⟨r', hr'⟩ := loadFile_empty hfile₁ (by rw [hvfs₁, hvfs]; exact ho) (of_decide_eq_true hseg) hmap
  exact ⟨r, r', hboot, hvfs, hload.trans hr'⟩

/-- Such a program leaves the kernel alone if its segment does. -/
theorem segmentsAbove_empty {vaddr : BitVec 32}
    (hopens : (fileOpenPath 4 (rootVfs (progArchive 1#8 vaddr)) (File.zero FileOps) (bytes "/bin")
      (bytes "prog")).any fun o => EmptySegment vaddr o) (hlow : vaddr < 0x7ff000#32)
    (hodd : vaddr.toNat % 4096 = 1) :
    SegmentsAbove 4 zeroJunk (rootVfs (progArchive 1#8 vaddr)) (bytes "/bin") (bytes "prog") ↔
      KMAP_MAX ≤ vaddr := by
  obtain ⟨o, ho, hseg⟩ := (Option.any_eq_true _ _).mp hopens
  obtain ⟨-, -, hnum, -, htype, hvaddr, -, hmemsz, -⟩ := of_decide_eq_true hseg
  have hsame := elfReadEhdr32_sameFile o.vfs.drivers o.file zeroJunk.ehdr
  rw [(elfReadPhdr32_congr _ hsame _ _ _).2] at htype hvaddr hmemsz
  have habove : ∀ phdr, pVaddr phdr = vaddr → pMemsz phdr = 0#32 → (SegAbove phdr ↔ KMAP_MAX ≤ vaddr) := by
    rintro phdr rfl hmemsz
    have hdown : (segVaddr phdr).toNat = (pVaddr phdr).toNat / 4096 * 4096 := alignDown_toNat _
    rw [SegAbove, segSize_empty hmemsz hlow hodd]
    unfold KMAP_MAX
    bv_omega
  constructor
  · intro h
    exact (habove _ hvaddr hmemsz).mp (h o ho _ rfl 0 (by rw [hnum]; decide) htype)
  · rintro h o' ho' _ rfl i hi htype'
    obtain rfl : o = o' := Option.some.inj (ho.symm.trans ho')
    obtain rfl : i = 0 := by
      rw [hnum] at hi
      simpa using hi
    exact (habove _ hvaddr hmemsz).mpr h

/-- Whether loading it keeps the kernel hidden depends on the address. -/
theorem exists_load_above {vaddr : BitVec 32}
    (hopens : (fileOpenPath 4 (rootVfs (progArchive 1#8 vaddr)) (File.zero FileOps) (bytes "/bin")
      (bytes "prog")).any fun o => EmptySegment vaddr o) (hlow : vaddr < 0x7ff000#32)
    (hodd : vaddr.toNat % 4096 = 1) (L : Layout) (p : Fin PROCESS_MAX) :
    ∃ r r', r.Booted ∧
      processLoadPath L 4 zeroJunk r p (bytes "/bin") (bytes "prog") = some (.ok (0, r')) ∧
      (SegmentsAbove 4 zeroJunk r.vfs (bytes "/bin") (bytes "prog") ↔ KMAP_MAX ≤ vaddr) := by
  obtain ⟨r, r', hboot, hvfs, hload⟩ := exists_load hopens hlow hodd L p
  exact ⟨r, r', hboot, hload, by rw [hvfs]; exact segmentsAbove_empty hopens hlow hodd⟩

/-- Kernel stacks at 128 KiB. -/
def exampleLayout : Layout := ⟨0x20000#32, kstacks_fit⟩

theorem opens_above :
    (fileOpenPath 4 (rootVfs (progArchive 1#8 0x400001#32)) (File.zero FileOps) (bytes "/bin")
      (bytes "prog")).any fun o => EmptySegment 0x400001#32 o := by
  decide +kernel

theorem opens_below :
    (fileOpenPath 4 (rootVfs (progArchive 1#8 0x3ff001#32)) (File.zero FileOps) (bytes "/bin")
      (bytes "prog")).any fun o => EmptySegment 0x3ff001#32 o := by
  decide +kernel

/-- A program above the kernel. -/
theorem processLoadPath_kernelHidden_iff_above :
    ∃ r r', r.Reachable exampleLayout ∧
      processLoadPath exampleLayout 4 zeroJunk r ⟨0, by decide⟩ (bytes "/bin") (bytes "prog") =
        some (.ok (0, r')) ∧ r'.pm.KernelHidden 0 := by
  obtain ⟨r, r', hboot, hload, habove⟩ :=
    exists_load_above opens_above (by decide) (by decide) exampleLayout ⟨0, by decide⟩
  refine ⟨r, r', .boot hboot, hload, (processLoadPath_kernelHidden_iff (.boot hboot) hload).mpr ?_⟩
  rw [habove]
  decide

/-- A program with a segment in the last page of the kernel. -/
theorem processLoadPath_opens_kernel :
    ∃ r r', r.Reachable exampleLayout ∧
      processLoadPath exampleLayout 4 zeroJunk r ⟨0, by decide⟩ (bytes "/bin") (bytes "prog") =
        some (.ok (0, r')) ∧ ¬ r'.pm.KernelHidden 0 := by
  obtain ⟨r, r', hboot, hload, habove⟩ :=
    exists_load_above opens_below (by decide) (by decide) exampleLayout ⟨0, by decide⟩
  refine ⟨r, r', .boot hboot, hload, fun hhid => ?_⟩
  rw [(processLoadPath_ok hboot.inOrder hload).2, habove] at hhid
  exact absurd hhid (by decide)

end Munix
