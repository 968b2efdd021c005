import Mathlib.Data.List.Perm.Basic
import Munix.Drivers.CpioBounds
import Munix.Drivers.Mount

/-!
# Munix — the slots of open files

`cpio_file_open_path` takes a slot of `cfdatas` and gives it back on every path on
which it fails; the driver pointer of the archive file in it is the mark that the
slot is in use. A run of opens, closes and other calls therefore keeps the slots
in use and the open files in step.

* `fileRun_slots_conserved`: in every state of every run, each open file has a slot
  of its own and there are no others in use; a failed open changes nothing that
  is in use; an open of a path that exists fails only if all slots are in use; and
  no call on one file touches the slot of another.
-/

namespace Munix

-- ---------------------------------------------------------------------------
-- What opening a file does
-- ---------------------------------------------------------------------------

section Headers

variable {dev : Devices} {f f' : File DevOps}

theorem cpioReadHeaderRaw_fmt (h : 0 ≤ (cpioReadHeaderRaw dev f).1) :
    (cpioReadHeaderRaw dev f).2.2.fmt = .newc := by
  revert h
  rw [cpioReadHeaderRaw]
  dsimp only
  split
  · rename_i hneg
    exact fun h => absurd h (Int.not_le.mpr hneg)
  · split
    · exact fun h => absurd h (show ¬ 0 ≤ -EINVAL by decide)
    · split
      · exact fun h => absurd h (show ¬ 0 ≤ -EINVAL by decide)
      · split <;> exact fun _ => rfl

theorem cpioReadPathname_fmt {fuel : Nat} {h h' : CpioHeader} {res : Int}
    (hname : cpioReadPathname dev fuel f h = some (res, f', h')) : h'.fmt = h.fmt := by
  rw [cpioReadPathname] at hname
  dsimp only at hname
  split at hname
  · cases hname
  · split at hname
    · cases hname
      rfl
    · split at hname
      · cases hname
        rfl
      · split at hname
        · cases hname
          rfl
        · split at hname <;> cases hname <;> rfl

/-- A header that has been read is in the "newc" format. -/
theorem cpioReadHeader_fmt {fuel : Nat} {res : Int} {h : CpioHeader}
    (hread : cpioReadHeader dev fuel f = some (res, f', h)) (hres : 0 ≤ res) : h.fmt = .newc := by
  rw [cpioReadHeader] at hread
  dsimp only at hread
  split at hread
  · rename_i hneg
    cases hread
    exact absurd hres (Int.not_le.mpr hneg)
  · rename_i hraw
    have hfmt := cpioReadHeaderRaw_fmt (Int.not_lt.mp hraw)
    have hsizes : (cpiohDecodeSizes (cpioReadHeaderRaw dev f).2.2).2.fmt = .newc := by
      rw [cpiohDecodeSizes, hfmt]
    split at hread
    · rename_i hneg
      cases hread
      exact absurd hres (Int.not_le.mpr hneg)
    · split at hread
      · cases hread
      · rename_i hname
        have hkeep := cpioReadPathname_fmt hname
        split at hread
        · rename_i hneg
          cases hread
          exact absurd hres (Int.not_le.mpr hneg)
        · cases hread
          exact hkeep.trans hsizes

/-- What the search finds is a header in the "newc" format, with the path's name. -/
theorem cpioFindPathLoop_match {p : List Byte} {fuel i : Nat} {h h' : CpioHeader} {res : Int}
    (hrun : cpioFindPathLoop dev p fuel i f h = some (res, f', h')) (hres : 0 ≤ res) :
    h'.fmt = .newc ∧ strcmp h'.path p = 0 := by
  induction fuel generalizing i f h with
  | zero => cases hrun
  | succ fuel ih =>
    rw [cpioFindPathLoop] at hrun
    split at hrun
    · cases hrun
      exact absurd hres (by decide)
    · split at hrun
      · cases hrun
      · rename_i hread
        split at hrun
        · rename_i hneg
          cases hrun
          exact absurd hres (Int.not_le.mpr hneg)
        · rename_i hpos
          split at hrun
          · rename_i hcmp
            cases hrun
            exact ⟨cpioReadHeader_fmt hread (Int.not_lt.mp hpos), hcmp⟩
          · dsimp only at hrun
            split at hrun
            · rename_i hneg
              cases hrun
              exact absurd hres (Int.not_le.mpr hneg)
            · exact ih hrun

theorem fileOpenDev_op {rdev : BitVec 32} {res : Int} (hopen : fileOpenDev dev rdev = (res, f))
    (hres : 0 ≤ res) : f.fOp.isSome = true := by
  rw [fileOpenDev] at hopen
  dsimp only at hopen
  split at hopen
  · cases hopen
    exact absurd hres (by decide)
  · split at hopen
    · cases hopen
      exact absurd hres (by decide)
    · rename_i op _
      cases op
      simp only [Devices.openDev, ramdiskOpenDev] at hopen
      split at hopen
      · cases hopen
        rfl
      · split at hopen <;> cases hopen <;> rfl

end Headers

section Open

variable {fuel : Nat} {d d' : Drivers} {f f' : File FileOps} {sb : Superblock} {path : List Byte}
  {res : Int}

/-- The path that is searched for: an empty one stands for the root. -/
def searchPath (path : List Byte) : List Byte := if path = [] then bytes "." else path

/-- The path exists: the device can be opened, and the search finds it. -/
def PathExists (fuel : Nat) (d : Drivers) (sb : Superblock) (path : List Byte) : Prop :=
  0 ≤ (fileOpenDev d.dev sb.sBdev).1 ∧
    ∃ r, cpioFindPath d.dev fuel (fileOpenDev d.dev sb.sBdev).2 (searchPath path) = some r ∧ 0 ≤ r.1

/-- How opening a file can end. -/
inductive OpenEnd (fuel : Nat) (d : Drivers) (f : File FileOps) (sb : Superblock) (path : List Byte) :
    Int → File FileOps → Drivers → Prop where
  /-- All slots are in use. -/
  | full : cfdataAlloc d = none → OpenEnd fuel d f sb path (-ENOMEM) f d
  /-- A slot is taken and freed again. -/
  | failed {res : Int} {i : Nat} (c : Cfdata) : res < 0 → cfdataAlloc d = some i →
      ¬ PathExists fuel d sb path → OpenEnd fuel d f sb path res f (cfdataFree (d.setCfdata i c) i)
  | opened {i : Nat} {af : File DevOps} {h : CpioHeader} (foff : BitVec 32) (fstat : Fstat) :
      cfdataAlloc d = some i → af.fOp.isSome = true → strcmp h.path (searchPath path) = 0 →
      OpenEnd fuel d f sb path 0 { f with fStat := fstat, fDriverData := some i }
        (d.setCfdata i ⟨af, h, foff⟩)

theorem setCfdata_setCfdata (d : Drivers) (i : Nat) (c c' : Cfdata) :
    (d.setCfdata i c).setCfdata i c' = d.setCfdata i c' := by
  simp only [Drivers.setCfdata]
  congr
  funext j
  split <;> rfl

@[simp]
theorem setCfdata_self (d : Drivers) (i : Nat) (c : Cfdata) : (d.setCfdata i c).cfdatas i = c :=
  if_pos rfl

theorem setCfdata_other (d : Drivers) {i j : Nat} (hj : j ≠ i) (c : Cfdata) :
    (d.setCfdata i c).cfdatas j = d.cfdatas j :=
  if_neg hj

/-- **What opening a file does.** -/
theorem cpioFileOpenPath_end (h : cpioFileOpenPath fuel d f sb path = some (res, f', d')) :
    OpenEnd fuel d f sb path res f' d' := by
  rw [cpioFileOpenPath] at h
  dsimp only at h
  split at h
  · cases h
    exact .full ‹_›
  · rename_i i hi
    rcases hdev : fileOpenDev d.dev sb.sBdev with ⟨res₀, af⟩
    simp only [hdev] at h
    split at h
    · rename_i hneg
      cases h
      refine .failed _ hneg hi fun hex => ?_
      have := hex.1
      rw [hdev] at this
      exact absurd this (Int.not_le.mpr hneg)
    · rename_i hpos
      split at h
      · cases h
      · rename_i res₁ af₁ h₁ hfind
        split at h
        · rename_i hneg
          cases h
          rw [setCfdata_setCfdata]
          refine .failed _ hneg hi fun hex => ?_
          obtain ⟨-, r, hr, hres⟩ := hex
          rw [hdev] at hr
          obtain rfl := Option.some.inj (hfind.symm.trans hr)
          exact absurd hres (Int.not_le.mpr hneg)
        · rename_i hres₁
          obtain ⟨hfmt, hcmp⟩ := cpioFindPathLoop_match hfind (Int.not_lt.mp hres₁)
          have hstat : (cpiohFstat h₁ f.fStat).1 = 0 := by rw [cpiohFstat, hfmt]
          rw [hstat, if_neg (Int.lt_irrefl 0)] at h
          obtain ⟨⟨pos, rfl⟩, -⟩ := cpioFindPathLoop_found hfind
          cases h
          have hop := fileOpenDev_op hdev (Int.not_lt.mp hpos)
          simp only [setCfdata_setCfdata, setCfdata_self]
          exact .opened _ _ hi hop hcmp

end Open

/-- How `file_open_path` can end. -/
theorem fileOpenPath_end {fuel : Nat} {v : Vfs} {file : File FileOps} {cwd path : List Byte} {o : Opened}
    (h : fileOpenPath fuel v file cwd path = some o) :
    (findMountForPath v.mounts (pathJoin PATH_MAX cwd path) = none ∧ o.res = -ENOENT ∧ o.vfs = v) ∨
      ∃ sb relpath, findMountForPath v.mounts (pathJoin PATH_MAX cwd path) = some sb ∧
        pathStripPrefix (pathJoin PATH_MAX cwd path) sb.sMountpath = some relpath ∧
        OpenEnd fuel v.drivers cpioFileNew sb relpath o.res o.file o.vfs.drivers := by
  rw [fileOpenPath, fileOpenPathAbs] at h
  split at h
  · rename_i hnone
    cases h
    exact .inl ⟨hnone, rfl, rfl⟩
  · rename_i sb hfind
    split at h
    · cases h
    · rename_i relpath hstrip
      rw [fileOpenSbPath] at h
      split at h
      · cases h
      · rename_i hopen
        cases h
        exact .inr ⟨sb, relpath, hfind, hstrip, cpioFileOpenPath_end hopen⟩

-- ---------------------------------------------------------------------------
-- Slots in use
-- ---------------------------------------------------------------------------

/-- The mark that a slot is in use. -/
def Drivers.used (d : Drivers) (i : Nat) : Bool := (d.cfdatas i).af.fOp.isSome

def usedSlots (d : Drivers) : List Nat := (List.range MAX_CPIO_OPEN).filter d.used

section Slots

variable {d d' : Drivers} {i : Nat}

theorem mem_usedSlots : i ∈ usedSlots d ↔ i < MAX_CPIO_OPEN ∧ d.used i = true := by
  rw [usedSlots, List.mem_filter, List.mem_range]

theorem usedSlots_nodup (d : Drivers) : (usedSlots d).Nodup := List.nodup_range.filter _

theorem usedSlots_congr (h : ∀ i, d'.used i = d.used i) : usedSlots d' = usedSlots d := by
  rw [usedSlots, usedSlots, funext h]

theorem cfdataAlloc_eq_some (h : cfdataAlloc d = some i) : i < MAX_CPIO_OPEN ∧ d.used i = false := by
  refine ⟨List.mem_range.mp (List.mem_of_find?_eq_some h), ?_⟩
  have hnone := List.find?_some h
  rw [Drivers.used, Option.isSome_eq_false_iff]
  exact hnone

/-- Without a free slot, all are in use. -/
theorem cfdataAlloc_eq_none (h : cfdataAlloc d = none) : (usedSlots d).length = MAX_CPIO_OPEN := by
  have hall : usedSlots d = List.range MAX_CPIO_OPEN := by
    refine List.filter_eq_self.mpr fun i hi => ?_
    have := List.find?_eq_none.mp h i hi
    rw [Drivers.used]
    simpa [Option.isSome_iff_ne_none] using this
  rw [hall, List.length_range]

/-- A slot that comes into use. -/
theorem usedSlots_take (hi : i < MAX_CPIO_OPEN) (hfree : d.used i = false) (huse : d'.used i = true)
    (hother : ∀ j, j ≠ i → d'.used j = d.used j) : (usedSlots d').Perm (i :: usedSlots d) := by
  have hnot : i ∉ usedSlots d := by
    rw [mem_usedSlots, hfree]
    simp
  rw [List.perm_ext_iff_of_nodup (usedSlots_nodup d') (List.nodup_cons.mpr ⟨hnot, usedSlots_nodup d⟩)]
  intro j
  rw [List.mem_cons, mem_usedSlots, mem_usedSlots]
  by_cases hj : j = i
  · subst hj
    simp [hi, huse]
  · simp [hj, hother j hj]

theorem cfdataFree_used (d : Drivers) (i : Nat) : (cfdataFree d i).used i = false := by
  simp [cfdataFree, Drivers.used]

theorem cfdataFree_other (d : Drivers) {i j : Nat} (hj : j ≠ i) :
    (cfdataFree d i).cfdatas j = d.cfdatas j :=
  setCfdata_other d hj _

/-- **What opening a file does to the slots in use.** -/
theorem OpenEnd.slots {fuel : Nat} {f f' : File FileOps} {sb : Superblock} {path : List Byte} {res : Int}
    (h : OpenEnd fuel d f sb path res f' d') :
    (res < 0 ∧ ∀ i, d'.used i = d.used i ∧ (d.used i = true → d'.cfdatas i = d.cfdatas i)) ∨
      ∃ i, res = 0 ∧ i < MAX_CPIO_OPEN ∧ d.used i = false ∧ d'.used i = true ∧
        f'.fDriverData = some i ∧ f'.fOp = f.fOp ∧ ∀ j, j ≠ i → d'.cfdatas j = d.cfdatas j := by
  cases h with
  | full hfull => exact .inl ⟨by decide, fun i => ⟨rfl, fun _ => rfl⟩⟩
  | @failed res i c hneg halloc hex =>
    obtain ⟨hi, hfree⟩ := cfdataAlloc_eq_some halloc
    refine .inl ⟨hneg, fun j => ?_⟩
    by_cases hj : j = i
    · subst hj
      rw [cfdataFree_used, hfree]
      exact ⟨rfl, nofun⟩
    · have hsame : (cfdataFree (d.setCfdata i c) i).cfdatas j = d.cfdatas j := by
        rw [cfdataFree_other _ hj, setCfdata_other d hj]
      rw [Drivers.used, Drivers.used, hsame]
      exact ⟨rfl, fun _ => rfl⟩
  | @opened i af hdr foff fstat halloc hop hcmp =>
    obtain ⟨hi, hfree⟩ := cfdataAlloc_eq_some halloc
    refine .inr ⟨i, rfl, hi, hfree, ?_, rfl, rfl, fun j hj => setCfdata_other d hj _⟩
    rw [Drivers.used, setCfdata_self]
    exact hop

end Slots

-- ---------------------------------------------------------------------------
-- Calls on an open file
-- ---------------------------------------------------------------------------

/-- The calls that an open file is used with. -/
inductive FileCall where
  | read (count : BitVec 32)
  | lseek (off : BitVec 32) (whence : Whence)
  | readdir (fuel : Nat) (fstat : Fstat) (dirent : Dirent)
  | close

/-- What a call does to the drivers and to the file; none is left of a file that
has been closed. -/
def FileCall.run (d : Drivers) (f : File FileOps) : FileCall → Option (Drivers × Option (File FileOps))
  | .read count => some (d, some (fileRead d.read f true count).2.2)
  | .lseek off whence => some (d, some (fileLseek f off whence).2)
  | .readdir fuel fstat dirent => (fileReaddir fuel d f fstat dirent).map fun r => (r.2.2, some f)
  | .close => some (fileClose d f, none)

section Calls

variable {d d' : Drivers} {f : File FileOps} {i : Nat}

theorem readdirLoop_sameFile {dev : Devices} {dirpath : List Byte} {fuel : Nat} {af af' : File DevOps}
    {res : Int} {h : CpioHeader} (hrun : readdirLoop dev dirpath fuel af = some (res, af', h)) :
    SameFile af af' := by
  induction fuel generalizing af with
  | zero => cases hrun
  | succ fuel ih =>
    rw [readdirLoop] at hrun
    split at hrun
    · cases hrun
    · rename_i res₁ af₁ h₁ hread
      have hsame := cpioReadHeader_sameFile hread
      have hskip := hsame.trans (fileLseek_sameFile af₁ (h₁.fsize + h₁.fpad) .seekCur)
      split at hrun
      · cases hrun
        exact hsame
      · dsimp only at hrun
        split at hrun
        · cases hrun
          exact hskip
        · split at hrun
          · cases hrun
            exact hskip
          · split at hrun
            · cases hrun
              exact hskip
            · exact hskip.trans (ih hrun)

/-- Listing a directory moves the archive file of its own slot. -/
theorem fileReaddir_slot {fuel : Nat} {fstat : Fstat} {dirent : Dirent} {r : Int × Dirent × Drivers}
    (hslot : f.fDriverData = some i) (h : fileReaddir fuel d f fstat dirent = some r) :
    ∀ j, r.2.2.used j = d.used j ∧ (j ≠ i → r.2.2.cfdatas j = d.cfdatas j) := by
  -- the archive file is kept up to its position
  have hkeep : ∀ {af : File DevOps}, SameFile (d.cfdatas i).af af → ∀ j,
      (d.setCfdata i { d.cfdatas i with af := af }).used j = d.used j ∧
        (j ≠ i → (d.setCfdata i { d.cfdatas i with af := af }).cfdatas j = d.cfdatas j) := by
    rintro af ⟨pos, rfl⟩ j
    refine ⟨?_, fun hj => setCfdata_other d hj _⟩
    by_cases hj : j = i
    · subst hj
      rw [Drivers.used, setCfdata_self]
      rfl
    · rw [Drivers.used, setCfdata_other d hj]
      rfl
  rw [fileReaddir] at h
  split at h
  · split at h
    · cases h
      exact fun j => ⟨rfl, fun _ => rfl⟩
    · rw [cpioFileReaddir, hslot] at h
      dsimp only at h
      have hstart : SameFile (d.cfdatas i).af (if f.fPos = 0#32 then
          cpioSkipFdata (d.cfdatas i).af (d.cfdatas i).h else (0, (d.cfdatas i).af)).2 := by
        split
        · exact fileLseek_sameFile _ _ _
        · exact .refl _
      generalize (if f.fPos = 0#32 then cpioSkipFdata (d.cfdatas i).af (d.cfdatas i).h
        else (0, (d.cfdatas i).af)) = start at h hstart
      split at h
      · cases h
        exact hkeep hstart
      · split at h
        · cases h
        · rename_i hloop
          have hsame := hstart.trans (readdirLoop_sameFile hloop)
          split at h <;> cases h <;> exact hkeep hsame
  · cases h
    exact fun j => ⟨rfl, fun _ => rfl⟩

/-- **What a call on an open file does to the slots.** -/
theorem FileCall.slots (c : FileCall) (hop : f.fOp = some .cpioFile) (hslot : f.fDriverData = some i)
    {f' : Option (File FileOps)} (h : c.run d f = some (d', f')) :
    (∀ j, j ≠ i → d'.cfdatas j = d.cfdatas j) ∧
      ((∃ g, f' = some g ∧ g.fOp = f.fOp ∧ g.fDriverData = f.fDriverData ∧ ∀ j, d'.used j = d.used j) ∨
        f' = none ∧ d'.used i = false ∧ ∀ j, j ≠ i → d'.used j = d.used j) := by
  cases c with
  | read count =>
    obtain ⟨pos, hsame⟩ := fileRead_sameFile d.read f true count
    cases h
    refine ⟨fun j _ => rfl, .inl ⟨_, rfl, ?_, ?_, fun _ => rfl⟩⟩ <;> rw [hsame]
  | lseek off whence =>
    obtain ⟨pos, hsame⟩ := fileLseek_sameFile f off whence
    cases h
    refine ⟨fun j _ => rfl, .inl ⟨_, rfl, ?_, ?_, fun _ => rfl⟩⟩ <;> rw [hsame]
  | readdir fuel fstat dirent =>
    obtain ⟨r, hr, heq⟩ := Option.map_eq_some_iff.mp h
    cases heq
    have hslots := fileReaddir_slot hslot hr
    exact ⟨fun j => (hslots j).2, .inl ⟨f, rfl, rfl, rfl, fun j => (hslots j).1⟩⟩
  | close =>
    have hrun : (cfdataFree d i, none) = (d', f') := by
      simpa only [FileCall.run, fileClose, hop, cpioFileRelease, hslot] using Option.some.inj h
    cases hrun
    have hother : ∀ j, j ≠ i → (cfdataFree d i).cfdatas j = d.cfdatas j := fun j => cfdataFree_other d
    refine ⟨hother, .inr ⟨rfl, cfdataFree_used d i, fun j hj => ?_⟩⟩
    rw [Drivers.used, hother j hj]
    rfl

end Calls

-- ---------------------------------------------------------------------------
-- Runs
-- ---------------------------------------------------------------------------

/-- The file systems and the files that are open. -/
structure OpenFiles where
  vfs   : Vfs
  files : List (File FileOps)

/-- The states that calls get to from the start, when no slot is in use. -/
inductive FileRun : OpenFiles → Prop where
  | init (v : Vfs) : (∀ i, v.drivers.used i = false) → FileRun ⟨v, []⟩
  /-- Another list of mounted file systems. -/
  | mount {s : OpenFiles} (mounts : List Superblock) : FileRun s →
      FileRun { s with vfs := { s.vfs with mounts := mounts } }
  | opened {s : OpenFiles} {o : Opened} (fuel : Nat) (file : File FileOps) (cwd path : List Byte) :
      FileRun s → fileOpenPath fuel s.vfs file cwd path = some o → 0 ≤ o.res →
      FileRun ⟨o.vfs, o.file :: s.files⟩
  | failed {s : OpenFiles} {o : Opened} (fuel : Nat) (file : File FileOps) (cwd path : List Byte) :
      FileRun s → fileOpenPath fuel s.vfs file cwd path = some o → o.res < 0 →
      FileRun ⟨o.vfs, s.files⟩
  /-- A call on the open file at place `k`. -/
  | call {s : OpenFiles} {f : File FileOps} {d' : Drivers} {f' : File FileOps} (c : FileCall) (k : Nat) :
      FileRun s → s.files[k]? = some f → c.run s.vfs.drivers f = some (d', some f') →
      FileRun ⟨{ s.vfs with drivers := d' }, s.files.set k f'⟩
  | closed {s : OpenFiles} {f : File FileOps} {d' : Drivers} (c : FileCall) (k : Nat) :
      FileRun s → s.files[k]? = some f → c.run s.vfs.drivers f = some (d', none) →
      FileRun ⟨{ s.vfs with drivers := d' }, s.files.eraseIdx k⟩

/-- The open files and the slots in use are in step. -/
structure OpenFiles.InStep (s : OpenFiles) : Prop where
  op    : ∀ f ∈ s.files, f.fOp = some .cpioFile
  slots : (s.files.map (·.fDriverData)).Perm ((usedSlots s.vfs.drivers).map some)

theorem set_of_getElem?_eq {α : Type} {l : List α} {k : Nat} {a : α} (h : l[k]? = some a) :
    l.set k a = l := by
  induction l generalizing k with
  | nil => rfl
  | cons b l ih =>
    cases k with
    | zero => rw [List.set_cons_zero, Option.some.inj h]
    | succ k => rw [List.set_cons_succ, ih h]

namespace OpenFiles.InStep

variable {s : OpenFiles} {f : File FileOps} {k : Nat}

/-- The slot of an open file. -/
theorem slot (h : s.InStep) (hf : f ∈ s.files) :
    ∃ i, f.fDriverData = some i ∧ i < MAX_CPIO_OPEN ∧ s.vfs.drivers.used i = true := by
  have hmem := h.slots.subset (List.mem_map_of_mem hf)
  obtain ⟨i, hi, heq⟩ := List.mem_map.mp hmem
  obtain ⟨hlt, hused⟩ := mem_usedSlots.mp hi
  exact ⟨i, heq.symm, hlt, hused⟩

theorem nodup (h : s.InStep) : (s.files.map (·.fDriverData)).Nodup :=
  h.slots.nodup_iff.mpr ((usedSlots_nodup _).map (Option.some_injective _))

/-- A file that is opened takes a slot of its own. -/
theorem opened (h : s.InStep) {v : Vfs} {i : Nat} (hi : i < MAX_CPIO_OPEN)
    (hfree : s.vfs.drivers.used i = false) (huse : v.drivers.used i = true)
    (hother : ∀ j, j ≠ i → v.drivers.cfdatas j = s.vfs.drivers.cfdatas j)
    (hop : f.fOp = some .cpioFile) (hslot : f.fDriverData = some i) :
    OpenFiles.InStep ⟨v, f :: s.files⟩ := by
  refine ⟨List.forall_mem_cons.mpr ⟨hop, h.op⟩, ?_⟩
  have htake := usedSlots_take hi hfree huse fun j hj => by rw [Drivers.used, hother j hj]; rfl
  rw [List.map_cons, hslot]
  exact (h.slots.cons (some i)).trans (htake.map some).symm

/-- A call that leaves the file open. -/
theorem call (h : s.InStep) (hf : s.files[k]? = some f) {g : File FileOps} (hop : g.fOp = f.fOp)
    (hslot : g.fDriverData = f.fDriverData) {d' : Drivers}
    (hused : ∀ j, d'.used j = s.vfs.drivers.used j) :
    OpenFiles.InStep ⟨{ s.vfs with drivers := d' }, s.files.set k g⟩ := by
  refine ⟨fun x hx => ?_, ?_⟩
  · rcases List.mem_or_eq_of_mem_set hx with hx | rfl
    · exact h.op x hx
    · exact hop.trans (h.op f (List.mem_of_getElem? hf))
  · have hsame : (s.files.set k g).map (·.fDriverData) = s.files.map (·.fDriverData) := by
      rw [List.map_set, hslot]
      exact set_of_getElem?_eq (by rw [List.getElem?_map, hf]; rfl)
    rw [hsame, usedSlots_congr hused]
    exact h.slots

/-- Closing a file gives its slot back. -/
theorem closed (h : s.InStep) (hf : s.files[k]? = some f) {i : Nat} (hslot : f.fDriverData = some i)
    {d' : Drivers} (hfree : d'.used i = false)
    (hused : ∀ j, j ≠ i → d'.used j = s.vfs.drivers.used j) :
    OpenFiles.InStep ⟨{ s.vfs with drivers := d' }, s.files.eraseIdx k⟩ := by
  obtain ⟨i', hslot', hi, huse⟩ := h.slot (List.mem_of_getElem? hf)
  obtain rfl : i = i' := Option.some.inj (hslot.symm.trans hslot')
  refine ⟨fun x hx => h.op x (List.mem_of_mem_eraseIdx hx), ?_⟩
  have htake := usedSlots_take hi hfree huse fun j hj => (hused j hj).symm
  have hperm : (f :: s.files.eraseIdx k).Perm s.files := by
    obtain ⟨hk, rfl⟩ := List.getElem?_eq_some_iff.mp hf
    exact List.getElem_cons_eraseIdx_perm hk
  have hslots := (hperm.map (·.fDriverData)).trans (h.slots.trans (htake.map some))
  rw [List.map_cons, hslot, List.map_cons] at hslots
  exact hslots.cons_inv

end OpenFiles.InStep

/-- **Open files and slots stay in step** in every run. -/
theorem FileRun.inStep {s : OpenFiles} (h : FileRun s) : s.InStep := by
  induction h with
  | init v hfree =>
    refine ⟨nofun, ?_⟩
    have hnone : usedSlots v.drivers = [] := by
      refine List.filter_eq_nil_iff.mpr fun i _ => ?_
      rw [hfree i]
      exact Bool.false_ne_true
    rw [hnone]
    exact .nil
  | mount mounts _ ih => exact ⟨ih.op, ih.slots⟩
  | opened fuel file cwd path _ hopen hres ih =>
    rcases fileOpenPath_end hopen with ⟨-, hneg, -⟩ | ⟨sb, relpath, -, -, hend⟩
    · rw [hneg] at hres
      exact absurd hres (by decide)
    · rcases hend.slots with ⟨hneg, -⟩ | ⟨i, -, hi, hfree, huse, hslot, hop, hother⟩
      · exact absurd hres (Int.not_le.mpr hneg)
      · exact ih.opened hi hfree huse hother hop hslot
  | @failed s o fuel file cwd path _ hopen hres ih =>
    have hused : usedSlots o.vfs.drivers = usedSlots s.vfs.drivers := by
      rcases fileOpenPath_end hopen with ⟨-, -, hsame⟩ | ⟨sb, relpath, -, -, hend⟩
      · rw [hsame]
      · rcases hend.slots with ⟨-, hkeep⟩ | ⟨i, hzero, -⟩
        · exact usedSlots_congr fun i => (hkeep i).1
        · omega
    refine ⟨ih.op, ?_⟩
    rw [hused]
    exact ih.slots
  | call c k _ hf hrun ih =>
    have hmem := List.mem_of_getElem? hf
    obtain ⟨i, hslot, -, -⟩ := ih.slot hmem
    obtain ⟨-, ⟨g, hg, hop, hsame, hused⟩ | ⟨hnone, -⟩⟩ := c.slots (ih.op _ hmem) hslot hrun
    · obtain rfl := Option.some.inj hg
      exact ih.call hf hop hsame hused
    · cases hnone
  | closed c k _ hf hrun ih =>
    have hmem := List.mem_of_getElem? hf
    obtain ⟨i, hslot, -, -⟩ := ih.slot hmem
    obtain ⟨-, ⟨g, hg, -⟩ | ⟨-, hfree, hused⟩⟩ := c.slots (ih.op _ hmem) hslot hrun
    · cases hg
    · exact ih.closed hf hslot hfree hused

/-- The slots are conserved in a state: what is in use, and what any further call
would do to it. -/
structure SlotsConserved (s : OpenFiles) : Prop where
  /-- As many slots are in use as files are open, each file has one, and no two the
  same. -/
  count    : (usedSlots s.vfs.drivers).length = s.files.length
  slot     : ∀ f ∈ s.files, ∃ i ∈ usedSlots s.vfs.drivers, f.fDriverData = some i
  distinct : (s.files.map (·.fDriverData)).Nodup
  /-- An open that fails leaves the slots in use and their contents as they were. -/
  failed   : ∀ fuel file cwd path o, fileOpenPath fuel s.vfs file cwd path = some o → o.res < 0 →
    usedSlots o.vfs.drivers = usedSlots s.vfs.drivers ∧
      ∀ i ∈ usedSlots s.vfs.drivers, o.vfs.drivers.cfdatas i = s.vfs.drivers.cfdatas i
  /-- An open of a path that exists fails only if all slots are in use. -/
  room     : ∀ fuel file cwd path o sb relpath, fileOpenPath fuel s.vfs file cwd path = some o →
    findMountForPath s.vfs.mounts (pathJoin PATH_MAX cwd path) = some sb →
    pathStripPrefix (pathJoin PATH_MAX cwd path) sb.sMountpath = some relpath →
    PathExists fuel s.vfs.drivers sb relpath → o.res < 0 → s.files.length = MAX_CPIO_OPEN
  /-- An open that succeeds leaves the contents of the slots in use as they were. -/
  opened   : ∀ fuel file cwd path o, fileOpenPath fuel s.vfs file cwd path = some o → 0 ≤ o.res →
    ∀ i ∈ usedSlots s.vfs.drivers, o.vfs.drivers.cfdatas i = s.vfs.drivers.cfdatas i
  /-- A call on one open file leaves the contents of the others' slots as they were. -/
  others   : ∀ (c : FileCall) (k : Nat) f d' f', s.files[k]? = some f → c.run s.vfs.drivers f = some (d', f') →
    ∀ (l : Nat) (g : File FileOps) i, l ≠ k → s.files[l]? = some g → g.fDriverData = some i →
      d'.cfdatas i = s.vfs.drivers.cfdatas i

/-- **The slots of open files are conserved** in every state of every run of opens,
closes and other calls. -/
theorem fileRun_slots_conserved {s : OpenFiles} (h : FileRun s) : SlotsConserved s := by
  have hstep := h.inStep
  have hcount : (usedSlots s.vfs.drivers).length = s.files.length := by
    simpa using hstep.slots.length_eq.symm
  refine ⟨hcount, fun f hf => ?_, hstep.nodup, ?_, ?_, ?_, ?_⟩
  · obtain ⟨i, hslot, hi, hused⟩ := hstep.slot hf
    exact ⟨i, mem_usedSlots.mpr ⟨hi, hused⟩, hslot⟩
  · intro fuel file cwd path o hopen hres
    rcases fileOpenPath_end hopen with ⟨-, -, hsame⟩ | ⟨sb, relpath, -, -, hend⟩
    · rw [hsame]
      exact ⟨rfl, fun _ _ => rfl⟩
    · rcases hend.slots with ⟨-, hkeep⟩ | ⟨i, hzero, -⟩
      · exact ⟨usedSlots_congr fun i => (hkeep i).1, fun i hi => (hkeep i).2 (mem_usedSlots.mp hi).2⟩
      · omega
  · intro fuel file cwd path o sb relpath hopen hfind hstrip hexists hres
    rw [← hcount]
    rcases fileOpenPath_end hopen with ⟨hnone, -⟩ | ⟨sb', relpath', hfind', hstrip', hend⟩
    · cases hnone.symm.trans hfind
    · obtain rfl := Option.some.inj (hfind'.symm.trans hfind)
      obtain rfl := Option.some.inj (hstrip'.symm.trans hstrip)
      generalize o.res = res at hend hres
      generalize o.file = f at hend
      generalize o.vfs.drivers = d' at hend
      cases hend with
      | full hfull => exact cfdataAlloc_eq_none hfull
      | failed c _ _ hno => exact absurd hexists hno
      | opened => exact absurd hres (Int.lt_irrefl 0)
  · intro fuel file cwd path o hopen hres i hi
    rcases fileOpenPath_end hopen with ⟨-, hneg, -⟩ | ⟨sb, relpath, -, -, hend⟩
    · rw [hneg] at hres
      exact absurd hres (by decide)
    · rcases hend.slots with ⟨hneg, -⟩ | ⟨j, -, -, hfree, -, -, -, hother⟩
      · exact absurd hres (Int.not_le.mpr hneg)
      · refine hother i ?_
        rintro rfl
        rw [(mem_usedSlots.mp hi).2] at hfree
        cases hfree
  · intro c k f d' f' hf hrun l g i hne hg hslot
    obtain ⟨j, hslot', -, -⟩ := hstep.slot (List.mem_of_getElem? hf)
    obtain ⟨hother, -⟩ := c.slots (hstep.op _ (List.mem_of_getElem? hf)) hslot' hrun
    refine hother i ?_
    -- two places of the list have two slots
    rintro rfl
    refine hne ?_
    have hl : (s.files.map (·.fDriverData))[l]? = some (some i) := by rw [List.getElem?_map, hg]; simp [hslot]
    have hk : (s.files.map (·.fDriverData))[k]? = some (some i) := by rw [List.getElem?_map, hf]; simp [hslot']
    obtain ⟨hlt, hget⟩ := List.getElem?_eq_some_iff.mp hl
    exact (List.getElem?_inj hlt hstep.nodup).mp (hl.trans hk.symm)

/-- After `hello` has been opened, a single slot is in use. -/
theorem fileRun_slots_conserved_hello :
    ∃ s : OpenFiles, FileRun s ∧ (usedSlots s.vfs.drivers).length = 1 ∧ SlotsConserved s := by
  have hopens : (fileOpenPath 4 ⟨helloArchive.drivers, [⟨0x400#32, bytes "/"⟩]⟩ (File.zero FileOps)
      (bytes "/") (bytes "hello")).any (fun o => o.res = 0) = true := by decide +kernel
  obtain ⟨o, hopen, hres⟩ := (Option.any_eq_true _ _).mp hopens
  have hrun : FileRun ⟨o.vfs, [o.file]⟩ :=
    .opened (s := ⟨⟨helloArchive.drivers, [⟨0x400#32, bytes "/"⟩]⟩, []⟩) 4 _ _ _ (.init _ fun _ => rfl)
      hopen (by rw [of_decide_eq_true hres])
  have hslots := fileRun_slots_conserved hrun
  exact ⟨_, hrun, hslots.count, hslots⟩

end Munix
