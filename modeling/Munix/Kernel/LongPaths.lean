import Munix.Drivers.CpioDir
import Munix.Drivers.CpioSlots
import Munix.Kernel.Kshell

/-!
# Munix — paths that are too long

`file_open_path` joins a path to the directory in a buffer of `PATH_MAX` characters
and does not look at the length that `path_join` returns, so that a longer path is
cut off and what is left of it is opened.

* `opensComplete_iff`: what `file_open_path`, `file_stat` and the shell's lookup of
  programs find is always the entry of the complete path if and only if the joined
  path fits the buffer.
-/

namespace Munix

-- ---------------------------------------------------------------------------
-- What is opened
-- ---------------------------------------------------------------------------

/-- The complete path: `path` itself if it is absolute, and joined to `cwd`
otherwise. -/
def joinedPath (cwd path : List Byte) : List Byte :=
  let slash := if cwd ≠ [] ∧ cwd.getLast? ≠ some (byte '/') then [byte '/'] else []
  if path.head? = some (byte '/') then path else cwd ++ slash ++ path

theorem pathJoin_eq_take (n : Nat) (cwd path : List Byte) :
    pathJoin n cwd path = (joinedPath cwd path).take (n - 1) := rfl

/-- What has been opened is the entry that the complete path names: it fits, and
the header in the slot has the path relative to the mount. -/
structure OpenedComplete (v : Vfs) (full : List Byte) (o : Opened) : Prop where
  fits  : full.length < PATH_MAX
  entry : ∃ sb relpath i, findMountForPath v.mounts full = some sb ∧
    pathStripPrefix full sb.sMountpath = some relpath ∧ o.file.fDriverData = some i ∧
    (o.vfs.drivers.cfdatas i).h.path = searchPath relpath

/-- Nothing but the entry that the complete path names is ever opened, looked at or
found, whatever the file systems hold. -/
structure OpensComplete (cwd path : List Byte) : Prop where
  opens  : ∀ fuel v file o, fileOpenPath fuel v file cwd path = some o → 0 ≤ o.res →
    OpenedComplete v (joinedPath cwd path) o
  stats  : ∀ fuel v fstat res fstat' v', fileStat fuel v fstat cwd path = some (res, fstat', v') →
    0 ≤ res → ∃ o, OpenedComplete v (joinedPath cwd path) o ∧ fstat' = o.file.fStat
  search : ∀ fuel v dir v', kshellSearchBin fuel path [cwd] v = some (some dir, v') →
    dir = cwd ∧ ∃ o, OpenedComplete v (joinedPath cwd path) o ∧ o.file.fStat.fType = .reg

section Fits

variable {fuel : Nat} {v : Vfs} {cwd path : List Byte}

theorem isString_joinedPath (hcwd : IsString cwd) (hpath : IsString path) :
    IsString (joinedPath cwd path) := by
  by_cases habs : path.head? = some (byte '/')
  · simpa only [joinedPath, if_pos habs] using hpath
  · have hslash : IsString (if cwd ≠ [] ∧ cwd.getLast? ≠ some (byte '/') then [byte '/'] else []) := by
      split
      · decide
      · exact List.not_mem_nil
    simp only [joinedPath, if_neg habs]
    intro hmem
    rcases List.mem_append.mp hmem with hmem | hmem
    · rcases List.mem_append.mp hmem with hmem | hmem
      · exact hcwd hmem
      · exact hslash hmem
    · exact hpath hmem

/-- What is left of a string after a prefix is a string. -/
theorem pathStripPrefix_isString {s pre rest : List Byte} (hs : IsString s)
    (h : pathStripPrefix s pre = some rest) : IsString rest := by
  rw [pathStripPrefix] at h
  split at h
  · cases h
  · obtain rfl := Option.some.inj h
    intro hmem
    split at hmem
    · exact hs (List.mem_of_mem_drop (List.mem_of_mem_tail hmem))
    · exact hs (List.mem_of_mem_drop hmem)

theorem isString_path (h : CpioHeader) : IsString h.path := by
  intro hmem
  have := List.all_eq_true.mp List.all_takeWhile _ hmem
  simp at this

/-- A path that fits is opened completely. -/
theorem openedComplete_of_fits (hcwd : IsString cwd) (hpath : IsString path)
    (hfits : (joinedPath cwd path).length < PATH_MAX) {file : File FileOps} {o : Opened}
    (hopen : fileOpenPath fuel v file cwd path = some o) (hres : 0 ≤ o.res) :
    OpenedComplete v (joinedPath cwd path) o := by
  have hjoin : pathJoin PATH_MAX cwd path = joinedPath cwd path := by
    rw [pathJoin_eq_take]
    exact List.take_of_length_le (by omega)
  have hend := fileOpenPath_end hopen
  rw [hjoin] at hend
  rcases hend with ⟨-, hneg, -⟩ | ⟨sb, relpath, hfind, hstrip, hend⟩
  · rw [hneg] at hres
    exact absurd hres (by decide)
  · have hrel := pathStripPrefix_isString (isString_joinedPath hcwd hpath) hstrip
    have hsearch : IsString (searchPath relpath) := by
      unfold searchPath
      split
      · decide
      · exact hrel
    refine ⟨hfits, sb, relpath, ?_⟩
    generalize o.res = res at hend hres
    generalize o.file = f at hend ⊢
    generalize o.vfs.drivers = d' at hend ⊢
    cases hend with
    | full => exact absurd hres (by decide)
    | failed c hneg => exact absurd hres (Int.not_le.mpr hneg)
    | @opened i af h foff fstat _ _ hcmp =>
      refine ⟨i, hfind, hstrip, rfl, ?_⟩
      rw [setCfdata_self]
      exact (strcmp_eq_zero (isString_path h) hsearch).mp hcmp

/-- `file_stat` succeeds with what `file_open_path` has opened. -/
theorem fileStat_opened {fstat fstat' : Fstat} {res : Int} {v' : Vfs}
    (h : fileStat fuel v fstat cwd path = some (res, fstat', v')) (hres : 0 ≤ res) :
    ∃ o, fileOpenPath fuel v (File.zero FileOps) cwd path = some o ∧ 0 ≤ o.res ∧
      fstat' = o.file.fStat := by
  rw [fileStat] at h
  split at h
  · cases h
  · rename_i r f v₁ hopen
    split at h
    · rename_i hneg
      cases h
      exact absurd hres (Int.not_le.mpr hneg)
    · rename_i hpos
      cases h
      exact ⟨_, hopen, Int.not_lt.mp hpos, rfl⟩

theorem opensComplete_of_fits (hcwd : IsString cwd) (hpath : IsString path)
    (hfits : (joinedPath cwd path).length < PATH_MAX) : OpensComplete cwd path where
  opens fuel v file o := openedComplete_of_fits hcwd hpath hfits
  stats fuel v fstat res fstat' v' hstat hres := by
    obtain ⟨o, hopen, hpos, heq⟩ := fileStat_opened hstat hres
    exact ⟨o, openedComplete_of_fits hcwd hpath hfits hopen hpos, heq⟩
  search fuel v dir v' hfound := by
    rw [kshellSearchBin] at hfound
    split at hfound
    · cases hfound
    · rename_i hstat
      split at hfound
      · cases hfound
      · split at hfound
        · cases hfound
        · rename_i hpos
          split at hfound
          · rename_i hreg
            obtain ⟨o, hopen, hres, rfl⟩ := fileStat_opened hstat (Int.not_lt.mp hpos)
            cases hfound
            exact ⟨rfl, o, openedComplete_of_fits hcwd hpath hfits hopen hres, hreg⟩
          · cases hfound

end Fits

-- ---------------------------------------------------------------------------
-- Paths that do not fit
-- ---------------------------------------------------------------------------

/-- An empty file with a name of 125 or 126 characters. -/
def longNamed (name : List Byte) (hname : IsString name) (hlen : name.length = 125 ∨ name.length = 126) :
    Record where
  header := plainHeader (bytes "000081A4")
    (if name.length = 125 then bytes "0000007E" else bytes "0000007F")
  name := name
  namePad := List.replicate (pad4 (110 + (name.length + 1))) 0#8
  data := []
  dataPad := []
  header_length := by split <;> decide
  magic := by split <;> decide
  fields_hex := by split <;> decide +kernel
  namesize := by
    rcases hlen with h | h
    · rw [if_pos h, h]
      decide +kernel
    · rw [if_neg (by omega), h]
      decide +kernel
  filesize := by split <;> decide +kernel
  name_nonempty := List.ne_nil_of_length_pos (by omega)
  name_string := hname
  name_fits := by
    unfold PATH_MAX
    omega
  namePad_length := List.length_replicate
  dataPad_length := rfl

theorem longNamed_name {name : List Byte} (hname : IsString name)
    (hlen : name.length = 125 ∨ name.length = 126) :
    ∀ r ∈ [longNamed name hname hlen], r.name ≠ bytes "TRAILER!!!" := by
  intro r hr
  obtain rfl := List.mem_singleton.mp hr
  intro heq
  have hlen' : name.length = 10 := congrArg List.length heq
  omega

theorem longNamed_size {name : List Byte} (hname : IsString name)
    (hlen : name.length = 125 ∨ name.length = 126) :
    ([longNamed name hname hlen].flatMap Record.encode ++ helloTrailer.encode ++ []).length < 2 ^ 30 := by
  rw [List.flatMap_singleton, List.append_nil, List.length_append, Record.length_encode,
    Record.length_front, Record.length_encode, Record.length_front]
  have hpad : (longNamed name hname hlen).namePad.length < 4 := by
    rw [(longNamed name hname hlen).namePad_length, pad4]
    omega
  have hname' : (longNamed name hname hlen).name.length ≤ 126 := by
    change name.length ≤ 126
    omega
  have hdata : (longNamed name hname hlen).data.length = 0 := rfl
  have hdataPad : (longNamed name hname hlen).dataPad.length = 0 := rfl
  have htrailer : 110 + (helloTrailer.name.length + 1) + helloTrailer.namePad.length +
      helloTrailer.data.length + helloTrailer.dataPad.length = 124 := by decide
  omega

/-- The archive with this file only. -/
def longArchive (name : List Byte) (hname : IsString name)
    (hlen : name.length = 125 ∨ name.length = 126) : Archive where
  entries := [longNamed name hname hlen]
  trailer := helloTrailer
  rest := []
  entries_name := longNamed_name hname hlen
  trailer_name := helloArchive.trailer_name
  trailer_data := helloArchive.trailer_data
  size_lt := longNamed_size hname hlen

/-- **A path that does not fit can be opened**: in an archive with a file that has
the name that is left of it. -/
theorem exists_opened_of_long {cwd path : List Byte} (hcwd : IsString cwd) (hpath : IsString path)
    (hlong : PATH_MAX ≤ (joinedPath cwd path).length) :
    ∃ v, ∀ file, ∃ o, fileOpenPath 2 v file cwd path = some o ∧ o.res = 0 := by
  have hmax : PATH_MAX = 128 := rfl
  have hjoin : pathJoin PATH_MAX cwd path = (joinedPath cwd path).take 127 := pathJoin_eq_take _ _ _
  have hstring : IsString ((joinedPath cwd path).take 127) := fun hmem =>
    isString_joinedPath hcwd hpath (List.mem_of_mem_take hmem)
  have hlen : ((joinedPath cwd path).take 127).length = 127 := by
    rw [List.length_take]
    omega
  generalize (joinedPath cwd path).take 127 = t at hjoin hstring hlen
  -- a file system is mounted on the first character
  cases t with
  | nil => cases hlen
  | cons c t =>
    rw [List.length_cons] at hlen
    have hc : IsString [c] := fun hmem =>
      hstring (List.mem_cons.mpr (.inl (List.mem_singleton.mp hmem)))
    obtain ⟨name, hstrip, hnlen⟩ : ∃ name, pathStripPrefix (c :: t) [c] = some name ∧
        (name.length = 125 ∨ name.length = 126) := by
      have hcmp : strncmp (c :: t) [c] [c].length = 0 := (strncmp_length_eq_zero hc).mpr ⟨t, rfl⟩
      rw [pathStripPrefix, if_neg (not_not.mpr hcmp)]
      rw [List.length_singleton, List.drop_one, List.tail_cons]
      refine ⟨_, rfl, ?_⟩
      split
      · rw [List.length_tail]
        omega
      · omega
    have hname := pathStripPrefix_isString hstring hstrip
    let a := longArchive name hname hnlen
    refine ⟨⟨a.drivers, [⟨0x400#32, [c]⟩]⟩, fun file => ?_⟩
    have hfind : findMountForPath [⟨0x400#32, [c]⟩] (c :: t) = some ⟨0x400#32, [c]⟩ := by
      have hmatch : strstr (c :: t) [c] = some 0 :=
        (strstr_eq_zero (List.cons_ne_nil c t) hc).mpr ⟨t, rfl⟩
      simp [findMountForPath, hmatch]
    have hmount : MountedArchive a.drivers ⟨0x400#32, [c]⟩ 0 a.bytes := ⟨rfl, rfl, by decide, rfl⟩
    have hdata : a.bytes = [].flatMap Record.encode ++ (longNamed name hname hnlen).encode ++
        (helloTrailer.encode ++ []) := by
      simp [a, Archive.bytes, longArchive]
    obtain ⟨f, d', hopen, -⟩ := hmount.open a.size_lt ⟨0, by decide, rfl⟩
      (fun b hb => absurd hb List.not_mem_nil) hdata (Nat.le_refl 2)
    refine ⟨⟨0, f, ⟨d', [⟨0x400#32, [c]⟩]⟩⟩, ?_, rfl⟩
    have hopen : cpioFileOpenPath 2 a.drivers cpioFileNew ⟨0x400#32, [c]⟩ name = some (0, f, d') := hopen
    rw [fileOpenPath, hjoin, fileOpenPathAbs]
    simp only [hfind, hstrip, fileOpenSbPath, hopen]

/-- **When no long path opens a wrong file.** For every directory and path: only the
entry that the complete path names is ever opened, looked at or found, if and only
if the joined path fits a buffer of `PATH_MAX` characters. -/
theorem opensComplete_iff {cwd path : List Byte} (hcwd : IsString cwd) (hpath : IsString path) :
    OpensComplete cwd path ↔ (joinedPath cwd path).length < PATH_MAX := by
  refine ⟨fun h => ?_, opensComplete_of_fits hcwd hpath⟩
  by_contra hlong
  obtain ⟨v, hv⟩ := exists_opened_of_long hcwd hpath (Nat.le_of_not_lt hlong)
  obtain ⟨o, hopen, hres⟩ := hv (File.zero FileOps)
  exact hlong (h.opens 2 v _ o hopen (by rw [hres])).fits

theorem opensComplete_iff_short : OpensComplete (bytes "/bin") (bytes "sh") :=
  (opensComplete_iff (by decide) (by decide)).mpr (by decide)

/-- With a name of 200 characters, a file with the first 126 of them is opened. -/
theorem fileOpenPath_cuts_off :
    ¬ OpensComplete (bytes "/") (List.replicate 200 (byte 'a')) ∧
      ∃ v o, fileOpenPath 2 v (File.zero FileOps) (bytes "/") (List.replicate 200 (byte 'a')) = some o ∧
        o.res = 0 := by
  have hstring : IsString (List.replicate 200 (byte 'a')) := fun hmem =>
    absurd (List.eq_of_mem_replicate hmem) (by decide)
  have hlong : PATH_MAX ≤ (joinedPath (bytes "/") (List.replicate 200 (byte 'a'))).length := by
    decide +kernel
  obtain ⟨v, hv⟩ := exists_opened_of_long (by decide) hstring hlong
  obtain ⟨o, hopen, hres⟩ := hv (File.zero FileOps)
  refine ⟨fun h => ?_, v, o, hopen, hres⟩
  have hfits := (h.opens 2 v _ o hopen (by rw [hres])).fits
  exact absurd hfits (Nat.not_lt.mpr hlong)

end Munix
