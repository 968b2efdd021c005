import Munix.Kernel.KernelStores
import Munix.User.ThreadStart

/-!
# Munix — the pages of a loaded program

The machine of `Munix.Lib.X86Machine` with the pages that the kernel has made for a
program: what `process_load_path` maps is what the walk of the processor finds, and it is
what `userRuns_confined` needs.

* `processLoadPath_selfMapped` — every page of the program is mapped to itself.
* `program_confined` — a loaded program, from `cpu_user_start` on.
-/

namespace Munix

open ByteMem X86

variable {L : Layout} {r r' : Resources} {p : Fin PROCESS_MAX} {m m' : Mem}

-- ---------------------------------------------------------------------------
-- Page tables
-- ---------------------------------------------------------------------------

/-- The pool of the page tables is the same in two memories. -/
def TablesKept (m m' : Mem) : Prop :=
  ∀ a : Addr, PM_AREA ≤ a → a.toNat < PM_AREA.toNat + 4096 * PHYSPAGES_MAX → m' a = m a

theorem TablesKept.of_kernel (h : ∀ a, a < KMAP_MAX → m' a = m a) : TablesKept m m' := by
  intro a _ hhi
  have htop : PM_AREA.toNat + 4096 * PHYSPAGES_MAX < 0x400000 := by decide
  have hkmap : KMAP_MAX.toNat = 0x400000 := rfl
  exact h a (by bv_omega)

theorem TablesKept.trans {m₁ m₂ : Mem} (h : TablesKept m m₁) (h' : TablesKept m₁ m₂) : TablesKept m m₂ :=
  fun a hlo hhi => (h' a hlo hhi).trans (h a hlo hhi)

theorem TablesKept.tbl {st : PmState} (h : TablesKept st.mem m) (i : Fin PHYSPAGES_MAX) {t : Nat}
    (ht : t < 1024) : PmState.tbl { st with mem := m } i t = st.tbl i t := by
  refine load32_congr fun j hj => ?_
  have hent := tblEntry_toNat i ht
  have hi : i.val < 5 := i.isLt
  have hlow : PM_AREA.toNat = 0x100000 := rfl
  refine h _ ?_ ?_
  · rw [BitVec.le_def, hlow]
    bv_omega
  · rw [hlow, PHYSPAGES_MAX]
    bv_omega

/-- A page map depends on its tables only. -/
theorem TablesKept.view {st : PmState} (h : TablesKept st.mem m) (hinv : PmInv st) {s : Nat}
    (hs : st.Present (.root s)) {x : Nat} (hx : x < 2 ^ 20) :
    PmState.view { st with mem := m } s x = st.view s x := by
  have hd : x / 1024 < 1024 := by omega
  obtain ⟨i, hi⟩ := hinv.exists_designates hs
  have hi' : PmState.Designates { st with mem := m } (.root s) i := hi
  have hpde : PmState.pde { st with mem := m } s (x / 1024) = st.pde s (x / 1024) := by
    rw [pde_eq_tbl hi', pde_eq_tbl hi, h.tbl i hd]
  by_cases hp : pmeIspresent (st.pde s (x / 1024)) 1 = true
  · have hpres : st.Present (.pde s (x / 1024)) := ⟨hs, hd, hp⟩
    obtain ⟨j, hj⟩ := hinv.exists_designates hpres
    have hj' : PmState.Designates { st with mem := m } (.pde s (x / 1024)) j := by
      refine ⟨⟨hs, hd, ?_⟩, ?_⟩
      · rw [hpde]
        exact hp
      · rw [PmState.entry, hpde]
        exact hj.2
    have hpte : PmState.pte { st with mem := m } s (x / 1024) (x % 1024) =
        st.pte s (x / 1024) (x % 1024) := by
      rw [pte_eq_tbl hj', pte_eq_tbl hj, h.tbl j (Nat.mod_lt _ (by decide))]
    rw [PmState.view, PmState.view, hpde, hpte]
  · simp only [PmState.view, hpde, if_neg hp]

/-- The processor walks the tables of the process that is being loaded. -/
theorem Resources.Loading.walk_tables (hr : r.Loading p) (h : TablesKept r.pm.mem m) (va : Addr) :
    hwWalk m r.cr3 va = r.pm.translate p.val va := by
  have hlt : va.toNat / 4096 < 2 ^ 20 := by
    have := va.isLt
    omega
  calc hwWalk m r.cr3 va
      = PmState.translate { r.pm with mem := m } p.val va := hr.walk_active m va
    _ = r.pm.translate p.val va := by
      rw [translate_eq_map_view, h.view hr.inOrder.inv hr.root hlt, ← translate_eq_map_view]

-- ---------------------------------------------------------------------------
-- Pages that are mapped to themselves
-- ---------------------------------------------------------------------------

/-- **A program's pages are mapped to themselves.** -/
theorem processLoadPath_selfMapped (hr : r.InOrder) {fuel : Nat} {junk : StackJunk} {cwd path : List Byte}
    (h : processLoadPath L fuel junk r p cwd path = some (.ok (0, r'))) : r'.SelfMapped p := by
  have hvfs : ∀ {r : Resources} v, r.SelfMapped p → Resources.SelfMapped { r with vfs := v } p :=
    fun v h => ⟨h.loading.of_pm rfl rfl, h.self⟩
  exact (selfMapped_stable p).load hvfs (loadStart_selfMapped hr) h

/-- What the processor finds for an address of a program is the address itself. -/
theorem Resources.SelfMapped.walk (h : r.SelfMapped p) (hm : TablesKept r.pm.mem m) {a pa : Addr} {perm : Perm}
    (hwalk : hwWalk m r.cr3 a = some (pa, perm)) : pa = a := by
  rw [h.loading.walk_tables hm] at hwalk
  exact h.translate hwalk

-- ---------------------------------------------------------------------------
-- The machine
-- ---------------------------------------------------------------------------

/-- The pages that user code can read, and those that it can write. -/
def userPage (m : Mem) (cr3 : Pme) (a : Addr) : Bool := (hwWalk m cr3 a).any fun t => t.2.user
def userPageW (m : Mem) (cr3 : Pme) (a : Addr) : Bool := (hwWalk m cr3 a).any fun t => t.2.user && t.2.write

/-- The pages of a machine are those of the page tables in its memory. -/
structure OnPages (M : Machine) (m : Mem) (cr3 : Pme) : Prop where
  user  : ∀ a, M.user a = userPage m cr3 a
  userW : ∀ a, M.userW a = userPageW m cr3 a

variable {I : GateImage} {M : Machine} {kstack : Addr} {k : Cpu}

/-- The pages of a program that hides the kernel. -/
theorem Resources.Loading.kernelHidden (hr : r.Loading p) (hm : TablesKept r.pm.mem m)
    (hhidden : r.pm.KernelHidden p.val) (hpages : OnPages M m r.cr3) : KernelHidden M := by
  intro a ha
  rw [hpages.userW, userPageW, Option.any_eq_true] at ha
  obtain ⟨t, hwalk, hperm⟩ := ha
  rw [Bool.and_eq_true] at hperm
  rw [hr.walk_tables hm] at hwalk
  refine BitVec.not_lt.mp fun hlt => ?_
  have huser := hhidden a (BitVec.le_def.mpr (Nat.zero_le _)) hlt t.1 t.2 hwalk
  rw [hperm.1] at huser
  cases huser

theorem OnPages.congr {cr3 : Pme} (h : OnPages M m cr3) (heq : ∀ a, hwWalk m' cr3 a = hwWalk m cr3 a) :
    OnPages M m' cr3 := by
  refine ⟨fun a => ?_, fun a => ?_⟩
  · rw [h.user, userPage, userPage, heq]
  · rw [h.userW, userPageW, userPageW, heq]

/-- **A loaded program is confined.** Take any file that `process_load_path` accepts and whose
segments are above the kernel, and start it with `cpu_user_start` on the pages that the load has
made: it begins at its start address on its stack, and whatever it does and whatever interrupts
it, as long as it has not left user mode the processor finds the same pages, each of them mapped
to itself, kernel memory and the descriptor tables are as they were, and the only way out is an
entry point of the kernel with the frame that it expects. -/
theorem program_confined {fuel : Nat} {junk : StackJunk} {cwd path : List Byte} (hr : r.Reachable L)
    (hload : processLoadPath L fuel junk r p cwd path = some (.ok (0, r')))
    (habove : SegmentsAbove fuel junk r.vfs cwd path) (h : Installed I kstack k) {startAddr ustackAddr : Addr}
    (hstart : UserStart M startAddr ustackAddr k) (htables : TablesKept r'.pm.mem k.mem)
    (hpages : OnPages M k.mem r'.cr3) :
    ∃ s, M.Runs k s ∧ s.eip = startAddr ∧ s.reg .esp = ustackAddr ∧ s.cpl = PL_USER ∧
      ∀ d, UserRuns M s d →
        Installed I kstack d ∧ (∀ a, a < KMAP_MAX → d.mem a = k.mem a) ∧ OnPages M d.mem r'.cr3 ∧
        (∀ a pa perm, hwWalk d.mem r'.cr3 a = some (pa, perm) → pa = a) ∧
        ∀ e, UserEvent M d e → e.cpl ≠ PL_USER → EntersKernel I kstack d e := by
  have hself := processLoadPath_selfMapped hr.inOrder hload
  have hhidden : KernelHidden M := hself.loading.kernelHidden htables
    ((processLoadPath_ok hr.inOrder hload).2.mpr habove) hpages
  obtain ⟨s, hruns, heip, hesp, hsegs, hflags, hmem, hinst, -⟩ := cpuUserStart_runs h hstart
  have hio : ioLevel s.eflags = PL_KERNEL := by
    rw [hflags]
    decide
  refine ⟨s, hruns, heip, hesp, hsegs.cpl, fun d hd => ?_⟩
  obtain ⟨hdinst, hguard, hdmem⟩ := hinst.userRuns hhidden hsegs.cpl hio hd
  have hleave := fun e (he : UserEvent M d e) =>
    hdinst.leavesUser (hguard.cpl.trans hsegs.cpl) ((ioLevel_eq hguard.flags).trans hio) he
  rw [hmem] at hdmem
  have hdtables : TablesKept r'.pm.mem d.mem := htables.trans (.of_kernel hdmem)
  refine ⟨hdinst, hdmem, hpages.congr fun a => ?_, fun a pa perm => hself.walk hdtables, hleave⟩
  rw [hself.loading.walk_tables hdtables, hself.loading.walk_tables htables]

/-- The kernel memory of the example, with the page tables of a load. -/
def exampleLoaded (m : Mem) : Mem := fun a =>
  if PM_AREA ≤ a ∧ a.toNat < PM_AREA.toNat + 4096 * PHYSPAGES_MAX then m a else exampleMem a

/-- The machine at the start of a program that has been loaded. -/
def examplePages (k : Cpu) (cr3 : Pme) : Machine :=
  { exampleMachine [(0x100000#32, cpuUserStartOps .eax .ecx)] with
    user := userPage k.mem cr3, userW := userPageW k.mem cr3 }

theorem exampleLoaded_tables (m : Mem) : TablesIn exampleImage 0x300000#32 (exampleLoaded m) := by
  have hs : SameOutside exampleMem (exampleLoaded m) 0x100000 0x105000 := by
    intro a ha
    refine if_neg fun hin => ha ⟨?_, hin.2⟩
    exact BitVec.le_def.mp hin.1
  have hbase : exampleImage.kernelTss = 0x3000#32 := rfl
  refine ⟨⟨exampleMem_tables.gdt.frame hs (by decide) (.inr (by decide)),
    exampleMem_tables.idt.frame hs (by decide) (.inr (by decide))⟩, ?_, ?_⟩
  · rw [← exampleMem_tables.esp0]
    exact load32_congr fun i hi => hs _ (by bv_omega)
  · rw [← exampleMem_tables.ss0]
    exact congrArg _ (load32_congr fun i hi => hs _ (by bv_omega))

theorem program_confined_example :
    ∃ r r' k s, processLoadPath exampleLayout 4 zeroJunk r ⟨0, by decide⟩ (bytes "/bin") (bytes "prog") =
        some (.ok (0, r')) ∧ (examplePages k r'.cr3).Runs k s ∧ s.cpl = PL_USER ∧
      ∀ d, UserRuns (examplePages k r'.cr3) s d → ∀ a, a < KMAP_MAX → d.mem a = k.mem a := by
  obtain ⟨r, r', hboot, hload, habove⟩ :=
    exists_load_above opens_above (by decide) (by decide) exampleLayout ⟨0, by decide⟩
  set k := exampleKernel (exampleLoaded r'.pm.mem) 0x400000#32 0x500000#32 with hk
  have hstart := @exampleKernel_start [(0x100000#32, cpuUserStartOps .eax .ecx)] (by decide)
    (exampleLoaded r'.pm.mem) 0x400000#32 0x500000#32
  have htables : TablesKept r'.pm.mem k.mem := by
    intro a hlo hhi
    have hsame := exampleKernel_sameOutside (exampleLoaded r'.pm.mem) 0x400000#32 0x500000#32 a (by
      have htop : PM_AREA.toNat + 4096 * PHYSPAGES_MAX = 0x105000 := rfl
      omega)
    rw [hk, hsame]
    exact if_pos ⟨hlo, hhi⟩
  obtain ⟨s, hruns, -, -, hcpl, hconfined⟩ := program_confined (.boot hboot) hload (habove.mpr (by decide))
    (exampleKernel_installed (exampleLoaded_tables _) _ _)
    (⟨hstart.code, hstart.kernel, hstart.nt⟩ : UserStart (examplePages k r'.cr3) _ _ k) htables
    ⟨fun _ => rfl, fun _ => rfl⟩
  exact ⟨r, r', k, s, hload, hruns, hcpl, fun d hd => (hconfined d hd).2.1⟩

end Munix
