import Munix.Drivers.MountOrder

/-!
# Munix — the mount that a path is resolved in

`find_mount_for_path` looks for a mount path at the begin of the path's characters,
`path_strip_prefix` takes it off, and `path_join` would put it back. They agree as
long as a mount path ends where a component of the path does.

* `resolvePath_inside_iff`: a path is resolved in a mount that contains it, and can
  be joined again, if and only if every mount path that ends inside a component of
  the path comes before another mount that matches.
-/

namespace Munix

-- ---------------------------------------------------------------------------
-- Paths and mounts
-- ---------------------------------------------------------------------------

/-- An absolute path without empty components. -/
structure PlainPath (path : List Byte) : Prop where
  absolute : path.head? = some (byte '/')
  plain    : ¬ [byte '/', byte '/'] <:+: path
  string   : IsString path

/-- The mount path equals the path, ends in `/`, or is followed by `/`. -/
def MountContains (mountpath path : List Byte) : Prop :=
  mountpath = path ∨ mountpath.getLast? = some (byte '/') ∨ mountpath ++ [byte '/'] <+: path

instance (mountpath path : List Byte) : Decidable (MountContains mountpath path) :=
  inferInstanceAs (Decidable (_ ∨ _ ∨ _))

/-- Two paths are the same up to a `/` at the end. -/
def SameUpToSlash (s t : List Byte) : Prop := s = t ∨ s = t ++ [byte '/'] ∨ s ++ [byte '/'] = t

/-- The superblock that `file_open_path_abs` finds, and the relative path that it
hands to the driver. -/
def resolvePath (mounts : List Superblock) (abspath : List Byte) : Option (Superblock × List Byte) :=
  (findMountForPath mounts abspath).bind fun sb =>
    (pathStripPrefix abspath sb.sMountpath).map fun relpath => (sb, relpath)

section Strip

variable {mountpath path : List Byte}

theorem pathStripPrefix_append (hm : IsString mountpath) (rest : List Byte) :
    pathStripPrefix (mountpath ++ rest) mountpath =
      some (if rest.head? = some (byte '/') then rest.tail else rest) := by
  have hcmp : strncmp (mountpath ++ rest) mountpath mountpath.length = 0 :=
    (strncmp_length_eq_zero hm).mpr (List.prefix_append _ _)
  rw [pathStripPrefix, if_neg (not_not.mpr hcmp), List.drop_left]

/-- No `/` follows a `/`. -/
theorem PlainPath.head_ne {l rest : List Byte} (h : PlainPath (l ++ byte '/' :: rest)) :
    rest.head? ≠ some (byte '/') := by
  intro hhead
  obtain ⟨tail, rfl⟩ : ∃ tail, rest = byte '/' :: tail := by
    cases rest with
    | nil => cases hhead
    | cons c tail => exact ⟨tail, by rw [Option.some.inj hhead]⟩
  exact h.plain ⟨l, tail, by simp⟩

/-- What `path_join` makes of a mount path and a relative path. -/
theorem pathJoin_relative {n : Nat} {a b : List Byte} (hb : b.head? ≠ some (byte '/')) :
    pathJoin n a b = (a ++ (if a ≠ [] ∧ a.getLast? ≠ some (byte '/') then [byte '/'] else []) ++ b).take
      (n - 1) := by
  rw [pathJoin]
  simp only [if_neg hb]

/-- Joining the relative path to a mount path that is not empty. -/
theorem sameUpToSlash_of_contains {rest : List Byte} (hp : PlainPath (mountpath ++ rest))
    (hne : mountpath ≠ []) (hcontains : MountContains mountpath (mountpath ++ rest)) {n : Nat}
    (hn : (mountpath ++ rest).length < n) :
    SameUpToSlash (pathJoin n mountpath (if rest.head? = some (byte '/') then rest.tail else rest))
      (mountpath ++ rest) := by
  by_cases hlast : mountpath.getLast? = some (byte '/')
  · -- the slash belongs to the mount path
    have hhead : rest.head? ≠ some (byte '/') := by
      obtain ⟨l, rfl⟩ := List.getLast?_eq_some_iff.mp hlast
      exact PlainPath.head_ne (l := l) (by simpa using hp)
    rw [if_neg hhead, pathJoin_relative hhead, if_neg (fun h => h.2 hlast), List.append_nil]
    exact .inl (List.take_of_length_le (by omega))
  · have hslash : mountpath ≠ [] ∧ mountpath.getLast? ≠ some (byte '/') := ⟨hne, hlast⟩
    cases rest with
    | nil =>
      -- the path is the mount path, and a slash is added if there is room
      rw [List.append_nil] at hn ⊢
      simp only [List.head?_nil, reduceCtorEq, if_false]
      rw [pathJoin_relative (by simp), if_pos hslash, List.append_nil]
      by_cases hroom : mountpath.length + 1 < n
      · refine .inr (.inl (List.take_of_length_le ?_))
        rw [List.length_append, List.length_singleton]
        omega
      · refine .inl ?_
        rw [show n - 1 = mountpath.length by omega, List.take_left]
    | cons c rest =>
      obtain rfl : byte '/' = c := by
        rcases hcontains with heq | hend | hfollow
        · have := congrArg List.length heq
          simp at this
        · exact absurd hend hlast
        · rw [List.prefix_append_right_inj, List.cons_prefix_cons] at hfollow
          exact hfollow.1
      simp only [List.head?_cons, if_true, List.tail_cons]
      rw [pathJoin_relative hp.head_ne, if_pos hslash, List.append_assoc, List.singleton_append]
      exact .inl (List.take_of_length_le (by omega))

/-- The empty mount path loses the first slash. -/
theorem sameUpToSlash_empty (hp : PlainPath path) {n : Nat} (hn : path.length < n) :
    SameUpToSlash (pathJoin n [] (if path.head? = some (byte '/') then path.tail else path)) path ↔
      path = [byte '/'] := by
  obtain ⟨rest, rfl⟩ : ∃ rest, path = byte '/' :: rest := by
    have habs := hp.absolute
    cases path with
    | nil => cases habs
    | cons c rest => exact ⟨rest, by rw [Option.some.inj habs]⟩
  have hhead : rest.head? ≠ some (byte '/') := PlainPath.head_ne (l := []) hp
  rw [List.length_cons] at hn
  simp only [List.head?_cons, if_true, List.tail_cons]
  rw [pathJoin_relative hhead, if_neg (fun h => h.1 rfl), List.append_nil, List.nil_append,
    List.take_of_length_le (by omega)]
  constructor
  · rintro (heq | heq | heq)
    · have := congrArg List.length heq
      simp at this
    · have := congrArg List.length heq
      simp at this
      omega
    · cases rest with
      | nil => rfl
      | cons c rest =>
        obtain ⟨rfl, -⟩ := List.cons.inj heq
        exact absurd rfl hhead
  · intro heq
    obtain ⟨-, rfl⟩ := List.cons.inj heq
    exact .inr (.inr rfl)

end Strip

-- ---------------------------------------------------------------------------
-- Resolution
-- ---------------------------------------------------------------------------

/-- The path is resolved in a mount that contains it, and the relative path that
the driver gets can be joined to the mount path again. -/
def ResolvedInside (mounts : List Superblock) (path : List Byte) (n : Nat) : Prop :=
  ∀ sb relpath, resolvePath mounts path = some (sb, relpath) →
    MountContains sb.sMountpath path ∧ SameUpToSlash (pathJoin n sb.sMountpath relpath) path

/-- The mount path ends inside a component of the path, or is empty while the path
is not the root. -/
def EndsInside (mountpath path : List Byte) : Prop :=
  ¬ MountContains mountpath path ∨ mountpath = [] ∧ path ≠ [byte '/']

instance (mountpath path : List Byte) : Decidable (EndsInside mountpath path) :=
  inferInstanceAs (Decidable (_ ∨ _))

theorem findMountForPath_eq_lastMatch {mounts : List Superblock}
    (hmounts : ∀ sb ∈ mounts, IsString sb.sMountpath) {path : List Byte} (hpath : path ≠ []) :
    findMountForPath mounts path = lastMatch Superblock.sMountpath mounts path := by
  rw [findMountForPath, lastMatch]
  refine List.find?_congr fun sb hsb => ?_
  exact decide_eq_decide.mpr (strstr_eq_zero hpath (hmounts sb (List.mem_reverse.mp hsb)))

/-- The mount path that is found can be taken off. -/
theorem findMountForPath_strip {mounts : List Superblock}
    (hmounts : ∀ sb ∈ mounts, IsString sb.sMountpath) {path : List Byte} (hpath : path ≠ [])
    {sb : Superblock} (hfind : findMountForPath mounts path = some sb) :
    ∃ rest, path = sb.sMountpath ++ rest ∧ pathStripPrefix path sb.sMountpath =
      some (if rest.head? = some (byte '/') then rest.tail else rest) := by
  have hmem : sb ∈ mounts := List.mem_reverse.mp (List.mem_of_find?_eq_some hfind)
  have hmatch := List.find?_some hfind
  obtain ⟨rest, rfl⟩ := (strstr_eq_zero hpath (hmounts sb hmem)).mp (of_decide_eq_true hmatch)
  exact ⟨rest, rfl, pathStripPrefix_append (hmounts sb hmem) rest⟩

/-- `file_open_path_abs` calls the driver with what the path is resolved to. -/
theorem fileOpenPathAbs_eq {v : Vfs} (hv : ∀ sb ∈ v.mounts, IsString sb.sMountpath)
    {path : List Byte} (hpath : path ≠ []) (fuel : Nat) (file : File FileOps) :
    fileOpenPathAbs fuel v file path =
      match resolvePath v.mounts path with
      | none => some ⟨-ENOENT, file, v⟩
      | some (sb, relpath) => fileOpenSbPath fuel v sb relpath := by
  rw [fileOpenPathAbs, resolvePath]
  cases hfind : findMountForPath v.mounts path with
  | none => rfl
  | some sb =>
    obtain ⟨rest, -, hstrip⟩ := findMountForPath_strip hv hpath hfind
    simp only [Option.bind_some, hstrip, Option.map_some]

theorem inside_iff {mountpath path rest : List Byte} (hpath : PlainPath path) {n : Nat}
    (hn : path.length < n) (hrest : path = mountpath ++ rest) :
    MountContains mountpath path ∧ SameUpToSlash (pathJoin n mountpath
      (if rest.head? = some (byte '/') then rest.tail else rest)) path ↔ ¬ EndsInside mountpath path := by
  rw [EndsInside, not_or, not_not]
  refine and_congr_right fun hcontains => ?_
  by_cases hempty : mountpath = []
  · subst hempty
    obtain rfl : path = rest := hrest
    rw [sameUpToSlash_empty hpath hn]
    simp
  · subst hrest
    refine iff_of_true (sameUpToSlash_of_contains hpath hempty hcontains hn) fun h => hempty h.1

/-- **When a path is resolved inside a mount that contains it.** For every set of
mounts and every absolute path without empty components: the mount that is chosen
contains the path, and the path that the driver gets can be joined to it again, if
and only if every mount path that the path begins with, but that ends inside a
component of it, comes before another mount path that the path begins with. -/
theorem resolvePath_inside_iff {mounts : List Superblock}
    (hmounts : ∀ sb ∈ mounts, IsString sb.sMountpath) {path : List Byte} (hpath : PlainPath path)
    {n : Nat} (hn : path.length < n) :
    ResolvedInside mounts path n ↔ ∀ before sb after, mounts = before ++ sb :: after →
      sb.sMountpath <+: path → EndsInside sb.sMountpath path →
        ∃ sb' ∈ after, sb'.sMountpath <+: path := by
  have hne : path ≠ [] := by
    rintro rfl
    cases hpath.absolute
  have hgood : ResolvedInside mounts path n ↔
      ∀ sb, lastMatch Superblock.sMountpath mounts path = some sb → ¬ EndsInside sb.sMountpath path := by
    rw [← findMountForPath_eq_lastMatch hmounts hne]
    refine ⟨fun h sb hfind => ?_, fun h sb relpath hres => ?_⟩
    · obtain ⟨rest, hrest, hstrip⟩ := findMountForPath_strip hmounts hne hfind
      obtain ⟨hcontains, hsame⟩ := h sb _ (by rw [resolvePath, hfind, Option.bind_some, hstrip]; rfl)
      exact (inside_iff hpath hn hrest).mp ⟨hcontains, hsame⟩
    · rw [resolvePath, Option.bind_eq_some_iff] at hres
      obtain ⟨sb', hfind, hres⟩ := hres
      obtain ⟨rest, hrest, hstrip⟩ := findMountForPath_strip hmounts hne hfind
      rw [hstrip, Option.map_some] at hres
      obtain ⟨rfl, rfl⟩ := Prod.mk.inj (Option.some.inj hres)
      exact (inside_iff hpath hn hrest).mpr (h sb' hfind)
  rw [hgood, lastMatch_good_iff]
  simp only [not_not]

/-- A path in `bin`, with file systems on the root and on `/bin`. -/
theorem resolvePath_inside_iff_bin :
    ResolvedInside [⟨0x400#32, bytes "/"⟩, ⟨0x401#32, bytes "/bin"⟩] (bytes "/bin/sh") PATH_MAX :=
  (resolvePath_inside_iff (by decide) ⟨by decide, by decide, by decide⟩ (by decide)).mpr (by
    intro before sb after hsplit hpre hinside
    have hmem : sb ∈ [⟨0x400#32, bytes "/"⟩, ⟨0x401#32, bytes "/bin"⟩] := by
      rw [hsplit]
      simp
    have hall : ∀ sb ∈ [(⟨0x400#32, bytes "/"⟩ : Superblock), ⟨0x401#32, bytes "/bin"⟩],
        ¬ EndsInside sb.sMountpath (bytes "/bin/sh") := by decide
    exact absurd hinside (hall sb hmem))

/-- With the same mounts, `/binary` is looked up as `ary` on `/bin`. -/
theorem resolvePath_inside_component :
    PlainPath (bytes "/binary") ∧
      resolvePath [⟨0x400#32, bytes "/"⟩, ⟨0x401#32, bytes "/bin"⟩] (bytes "/binary") =
        some (⟨0x401#32, bytes "/bin"⟩, bytes "ary") ∧
      ¬ ResolvedInside [⟨0x400#32, bytes "/"⟩, ⟨0x401#32, bytes "/bin"⟩] (bytes "/binary") PATH_MAX := by
  have hres : resolvePath [⟨0x400#32, bytes "/"⟩, ⟨0x401#32, bytes "/bin"⟩] (bytes "/binary") =
      some (⟨0x401#32, bytes "/bin"⟩, bytes "ary") := by decide
  refine ⟨⟨by decide, by decide, by decide⟩, hres, fun h => ?_⟩
  exact absurd (h _ _ hres).1 (by decide)

end Munix
