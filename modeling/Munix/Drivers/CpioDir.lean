import Munix.Drivers.CpioLookup
import Munix.Drivers.Mount

/-!
# Munix — what a directory listing shows

`cpio_file_readdir` goes on in the archive from where the last call has stopped,
and shows every entry whose path begins with the characters of the directory's.
That is not the same as to lie below the directory: a neighbour `bin2` begins with
`bin` as well.

* `readdir_exact_iff`: successive calls show exactly the entries below a directory
  if and only if no other entry behind it begins with its name, and every name of
  the archive fits.
-/

namespace Munix

-- ---------------------------------------------------------------------------
-- Directories of an archive
-- ---------------------------------------------------------------------------

/-- The entry of a directory: its mode says so, and it has no data. -/
structure Entry.IsDir (e : Entry) : Prop where
  mode  : ∃ m, hexValue ((e.header.drop 14).take 8) = some m ∧ m &&& 0o170000 = 0o040000
  empty : e.data = []

/-- A path lies below directory `dir`; all paths lie below the root. -/
def Below (dir path : List Byte) : Prop :=
  dir = bytes "." ∨ dir ++ [byte '/'] <+: path ∧ dir.length + 1 < path.length

instance (dir path : List Byte) : Decidable (Below dir path) := inferInstanceAs (Decidable (_ ∨ _))

/-- A path relative to a directory that it lies below. -/
def relativePath (dir path : List Byte) : List Byte :=
  if dir = bytes "." then (if path.head? = some (byte '/') then path.tail else path)
  else path.drop (dir.length + 1)

/-- The string that `cpio_file_readdir` compares the paths with. -/
def dirPrefix (dir : List Byte) : List Byte := if dir = bytes "." then [] else dir

theorem dirPrefix_of_below {dir path : List Byte} (h : Below dir path) : dirPrefix dir <+: path := by
  unfold dirPrefix
  split
  · exact List.nil_prefix
  · rename_i hroot
    exact (List.prefix_append _ _).trans (h.resolve_left hroot).1

/-- What is left of a path below a directory is its relative path. -/
theorem pathStripPrefix_below {dir path : List Byte} (hdir : IsString dir) (h : Below dir path) :
    pathStripPrefix path (dirPrefix dir) = some (relativePath dir path) := by
  have hpre : strncmp path (dirPrefix dir) (dirPrefix dir).length = 0 := by
    refine (strncmp_length_eq_zero ?_).mpr (dirPrefix_of_below h)
    unfold dirPrefix
    split
    · exact List.not_mem_nil
    · exact hdir
  rw [pathStripPrefix, if_neg (not_not.mpr hpre), dirPrefix, relativePath]
  split
  · rfl
  · rename_i hroot
    obtain ⟨⟨rest, rfl⟩, -⟩ := h.resolve_left hroot
    simp

-- ---------------------------------------------------------------------------
-- The loop
-- ---------------------------------------------------------------------------

section Loop

variable {dev : Devices} {data dir : List Byte} {f : File DevOps}

/-- The loop of `cpio_file_readdir` walks over records that do not match. -/
theorem readdirLoop_skip (hdir : IsString dir) (before : List Record)
    (hbefore : ∀ b ∈ before, ¬ dir <+: b.name ∧ b.name ≠ trailerName) {fuel : Nat} (hfuel : 1 ≤ fuel)
    (hf : DiskFile dev data f) {pre post : List Byte}
    (hdata : data = pre ++ before.flatMap Record.encode ++ post)
    (hpos : f.fPos = BitVec.ofNat 32 pre.length) :
    readdirLoop dev dir (before.length + fuel) f =
      readdirLoop dev dir fuel (f.at (pre ++ before.flatMap Record.encode).length) := by
  induction before generalizing f pre with
  | nil =>
    have hat : f.at pre.length = f := by rw [File.at, ← hpos]
    simp only [List.flatMap_nil, List.append_nil, List.length_nil, Nat.zero_add, hat]
  | cons b before ih =>
    obtain ⟨hbd, hbt⟩ := hbefore b List.mem_cons_self
    have hdata' : data = pre ++ b.encode ++ (before.flatMap Record.encode ++ post) := by
      rw [hdata, List.flatMap_cons]
      simp only [List.append_assoc]
    have hread := cpioReadHeader_record (before.length + fuel + 1) (by omega) hf hdata' hpos
    have hskip : cpioSkipFdata (f.at (pre.length + b.front.length)) (b.decoded pre.length) =
        (0, f.at (pre ++ b.encode).length) := by
      rw [List.length_append]
      exact cpioSkipFdata_record hf b pre.length
    have hnext : (b.decoded pre.length).isEndmarker = false := by
      simp [Record.decoded, hbt]
    have hcmp : strncmp (b.decoded pre.length).path dir dir.length ≠ 0 := by
      rw [b.decoded_path]
      exact fun h => hbd ((strncmp_length_eq_zero hdir).mp h)
    have hloop := ih (fun x hx => hbefore x (List.mem_cons_of_mem _ hx))
      (hf.at (pre ++ b.encode).length)
      (show data = pre ++ b.encode ++ before.flatMap Record.encode ++ post by
        rw [hdata']; simp only [List.append_assoc]) rfl
    have hlen : (b :: before).length + fuel = before.length + fuel + 1 := by
      rw [List.length_cons]
      omega
    rw [hlen, readdirLoop, hread]
    simp only [hskip, hnext, Bool.false_eq_true, if_false, hcmp]
    rw [if_neg (by omega), if_neg (by decide), hloop, List.flatMap_cons, List.append_assoc]
    rfl

/-- It stops at one that matches. -/
theorem readdirLoop_hit (hdir : IsString dir) {e : Record} (hmatch : dir <+: e.name)
    (hname : e.name ≠ trailerName) {fuel : Nat} (hfuel : 2 ≤ fuel) (hf : DiskFile dev data f)
    {pre post : List Byte} (hdata : data = pre ++ e.encode ++ post)
    (hpos : f.fPos = BitVec.ofNat 32 pre.length) :
    readdirLoop dev dir fuel f = some (1, f.at (pre ++ e.encode).length, e.decoded pre.length) := by
  have hread := cpioReadHeader_record fuel hfuel hf hdata hpos
  have hskip : cpioSkipFdata (f.at (pre.length + e.front.length)) (e.decoded pre.length) =
      (0, f.at (pre ++ e.encode).length) := by
    rw [List.length_append]
    exact cpioSkipFdata_record hf e pre.length
  have hnext : (e.decoded pre.length).isEndmarker = false := by
    simp [Record.decoded, hname]
  have hcmp : strncmp (e.decoded pre.length).path dir dir.length = 0 := by
    rw [e.decoded_path]
    exact (strncmp_length_eq_zero hdir).mpr hmatch
  obtain ⟨fuel, rfl⟩ := Nat.exists_eq_add_of_le' (show 1 ≤ fuel by omega)
  rw [readdirLoop, hread]
  simp only [hskip, hnext, Bool.false_eq_true, if_false, hcmp, if_true]
  rw [if_neg (by omega), if_neg (by decide)]

/-- The listing ends with result `t` at offset `n`. -/
def ReaddirEnds (dev : Devices) (data dir : List Byte) (n : Nat) (t : Int) : Prop :=
  t ≤ 0 ∧ ∀ (fuel : Nat) (f : File DevOps), 2 ≤ fuel → DiskFile dev data f →
    f.fPos = BitVec.ofNat 32 n → ∃ f' h, readdirLoop dev dir fuel f = some (t, f', h)

theorem readdirEnds_trailer {trailer : Record} (hname : trailer.name = trailerName)
    (hempty : trailer.data = []) {pre rest : List Byte}
    (hdata : data = pre ++ trailer.encode ++ rest) : ReaddirEnds dev data dir pre.length 0 := by
  refine ⟨Int.le_refl 0, fun fuel f hfuel hf hpos => ?_⟩
  have hread := cpioReadHeader_record fuel hfuel hf hdata hpos
  have hskip := cpioSkipFdata_record hf trailer pre.length
  have hend : (trailer.decoded pre.length).isEndmarker = true := by
    simp [Record.decoded, hname, hempty]
  obtain ⟨fuel, rfl⟩ := Nat.exists_eq_add_of_le' (show 1 ≤ fuel by omega)
  refine ⟨f.at (pre.length + trailer.encode.length), trailer.decoded pre.length, ?_⟩
  rw [readdirLoop, hread]
  simp only [hskip, hend, if_true]
  rw [if_neg (by omega), if_neg (by decide)]

theorem readdirEnds_long {e : Entry} (hlong : ¬ e.Fits) {pre post : List Byte}
    (hdata : data = pre ++ e.encode ++ post) :
    ReaddirEnds dev data dir pre.length (-EOVERFLOW) := by
  refine ⟨by decide, fun fuel f hfuel hf hpos => ?_⟩
  obtain ⟨f', h', hread⟩ := cpioReadHeader_long fuel hfuel hf hlong hdata hpos
  obtain ⟨fuel, rfl⟩ := Nat.exists_eq_add_of_le' (show 1 ≤ fuel by omega)
  refine ⟨f', h', ?_⟩
  rw [readdirLoop, hread]
  exact if_pos (by decide)

end Loop

-- ---------------------------------------------------------------------------
-- Runs of calls
-- ---------------------------------------------------------------------------

/-- An open directory of the archive `data`, whose listing has come to offset
`n`. -/
structure OpenDir (d : Drivers) (data : List Byte) (dir : Record) (f : File FileOps) (n : Nat) :
    Prop where
  op      : f.fOp = some .cpioFile
  type    : f.fStat.fType = .dir
  pos     : f.fPos = 0#32
  slot    : ∃ i off, f.fDriverData = some i ∧ (d.cfdatas i).h = dir.decoded off ∧
    DiskFile d.dev data (d.cfdatas i).af ∧ (d.cfdatas i).af.fPos = BitVec.ofNat 32 n
  empty   : dir.data = []

/-- The result of the call of `file_readdir` that comes after `k` others; `junk` is
what the uninitialised variables hold at each call. -/
def readdirRun (fuel : Nat) (f : File FileOps) : (Nat → Fstat × Dirent) → Nat → Drivers →
    Option (Int × Dirent × Drivers)
  | junk, 0, d => fileReaddir fuel d f (junk 0).1 (junk 0).2
  | junk, k + 1, d =>
    match fileReaddir fuel d f (junk 0).1 (junk 0).2 with
    | none => none
    | some (_, _, d) => readdirRun fuel f (fun n => junk (n + 1)) k d

section Run

variable {d : Drivers} {data : List Byte} {dir : Record} {f : File FileOps} {n : Nat}

theorem isString_dirPrefix (dir : Record) : IsString (dirPrefix dir.name) := by
  unfold dirPrefix
  split
  · exact List.not_mem_nil
  · exact dir.name_string

/-- A call goes on with the loop where the last one has stopped: the directory has
no data of its own that could be skipped. -/
theorem OpenDir.fileReaddir (h : OpenDir d data dir f n) (fuel : Nat) (fstat : Fstat) (dirent : Dirent) :
    ∃ i, f.fDriverData = some i ∧ DiskFile d.dev data (d.cfdatas i).af ∧
      (d.cfdatas i).af.fPos = BitVec.ofNat 32 n ∧
      Munix.fileReaddir fuel d f fstat dirent =
        (readdirLoop d.dev (dirPrefix dir.name) fuel (d.cfdatas i).af).map fun (res, af, h) =>
          (res, if res ≤ 0 then dirent else cpioDirent fstat (dirPrefix dir.name) h,
            d.setCfdata i { d.cfdatas i with af := af }) := by
  obtain ⟨i, off, hslot, hh, hf, hpos⟩ := h.slot
  refine ⟨i, hslot, hf, hpos, ?_⟩
  have hpath : (d.cfdatas i).h.path = dir.name := by rw [hh, dir.decoded_path]
  have hprefix : (if strcmp (d.cfdatas i).h.path (bytes ".") = 0 then [] else (d.cfdatas i).h.path) =
      dirPrefix dir.name := by
    rw [hpath, dirPrefix]
    simp only [strcmp_eq_zero dir.name_string (show IsString (bytes ".") by decide)]
  have hskip : cpioSkipFdata (d.cfdatas i).af (d.cfdatas i).h = (0, (d.cfdatas i).af) := by
    have hpad : dir.dataPad.length = 0 := by
      rw [dir.dataPad_length, h.empty]
      rfl
    have hoff : (d.cfdatas i).h.fsize + (d.cfdatas i).h.fpad = BitVec.ofNat 32 0 := by
      rw [hh]
      simp only [Record.decoded, Record.namedHeader, Record.sizedHeader, h.empty, hpad]
      rfl
    rw [cpioSkipFdata, fileLseek_cur hf hpos hoff, Nat.add_zero, File.at, ← hpos]
  rw [Munix.fileReaddir, h.op]
  simp only [h.type, ne_eq, not_true_eq_false, if_false, cpioFileReaddir, hslot, hprefix, h.pos, if_true,
    hskip, Int.lt_irrefl]
  rcases readdirLoop d.dev (dirPrefix dir.name) fuel (d.cfdatas i).af with _ | ⟨res, af, hdr⟩
  · rfl
  · simp only [Option.map_some]
    split <;> rfl

/-- The listing stays open. -/
theorem OpenDir.next (h : OpenDir d data dir f n) {i : Nat} (hslot : f.fDriverData = some i)
    {af : File DevOps} (haf : DiskFile d.dev data af) {m : Nat} (hpos : af.fPos = BitVec.ofNat 32 m) :
    OpenDir (d.setCfdata i { d.cfdatas i with af := af }) data dir f m := by
  obtain ⟨j, off, hslot', hh, -⟩ := h.slot
  obtain rfl : j = i := Option.some.inj (hslot'.symm.trans hslot)
  refine ⟨h.op, h.type, h.pos, ⟨j, off, hslot, ?_, ?_, ?_⟩, h.empty⟩
  · simpa [Drivers.setCfdata] using hh
  · simpa [Drivers.setCfdata] using haf
  · simpa [Drivers.setCfdata] using hpos

/-- The name that a match is shown with. -/
def shownName (dir path : List Byte) : List Byte :=
  ((pathStripPrefix path (dirPrefix dir)).getD []).take (PATH_MAX - 1)

/-- **A run of calls** shows the records that match, in the order of the archive,
and then ends. -/
theorem OpenDir.run {hits after : List Record} (hhits : after.filter (dirPrefix dir.name <+: ·.name) = hits)
    (hafter : ∀ b ∈ after, b.name ≠ trailerName) {pre post : List Byte}
    (hdata : data = pre ++ after.flatMap Record.encode ++ post) (h : OpenDir d data dir f pre.length)
    {t : Int} (hend : ReaddirEnds d.dev data (dirPrefix dir.name)
      (pre ++ after.flatMap Record.encode).length t)
    {fuel : Nat} (hfuel : after.length + 2 ≤ fuel) (junk : Nat → Fstat × Dirent) :
    (∀ k e, hits[k]? = some e → ∃ de d', readdirRun fuel f junk k d = some (1, de, d') ∧
      de.dName = shownName dir.name e.name) ∧
    ∃ de d', readdirRun fuel f junk hits.length d = some (t, de, d') := by
  have hdir := isString_dirPrefix dir
  induction hits generalizing after pre d junk with
  | nil =>
    refine ⟨nofun, ?_⟩
    obtain ⟨i, hslot, hf, hpos, hcall⟩ := h.fileReaddir fuel (junk 0).1 (junk 0).2
    obtain ⟨k, rfl⟩ := Nat.exists_eq_add_of_le hfuel
    have hno : ∀ b ∈ after, ¬ dirPrefix dir.name <+: b.name ∧ b.name ≠ trailerName := fun b hb =>
      ⟨by simpa using List.filter_eq_nil_iff.mp hhits b hb, hafter b hb⟩
    obtain ⟨f', hdr, hloop⟩ := hend.2 (k + 2) _ (by omega)
      (hf.at (pre ++ after.flatMap Record.encode).length) rfl
    rw [← readdirLoop_skip hdir after hno (by omega) hf hdata hpos,
      show after.length + (k + 2) = after.length + 2 + k by omega] at hloop
    rw [hloop] at hcall
    exact ⟨_, _, hcall⟩
  | cons e hits ih =>
    obtain ⟨l₁, l₂, rfl, hno, hyes, hrest⟩ := List.filter_eq_cons_iff.mp hhits
    obtain ⟨i, hslot, hf, hpos, hcall⟩ := h.fileReaddir fuel (junk 0).1 (junk 0).2
    -- the call stops behind `e`
    have hl₁ : ∀ b ∈ l₁, ¬ dirPrefix dir.name <+: b.name ∧ b.name ≠ trailerName := fun b hb =>
      ⟨by simpa using hno b hb, hafter b (by simp [hb])⟩
    have hsplit : data = pre ++ l₁.flatMap Record.encode ++ e.encode ++
        (l₂.flatMap Record.encode ++ post) := by
      rw [hdata, List.flatMap_append, List.flatMap_cons]
      simp only [List.append_assoc]
    have hlen : (l₁ ++ e :: l₂).length = l₁.length + l₂.length + 1 := by
      rw [List.length_append, List.length_cons]
      omega
    obtain ⟨k, rfl⟩ := Nat.exists_eq_add_of_le (show l₁.length + 2 ≤ fuel by omega)
    have hloop : readdirLoop d.dev (dirPrefix dir.name) (l₁.length + 2 + k) (d.cfdatas i).af =
        some (1, (d.cfdatas i).af.at (pre ++ l₁.flatMap Record.encode ++ e.encode).length,
          e.decoded (pre ++ l₁.flatMap Record.encode).length) := by
      rw [show l₁.length + 2 + k = l₁.length + (k + 2) by omega,
        readdirLoop_skip hdir l₁ hl₁ (by omega) hf
          (show data = pre ++ l₁.flatMap Record.encode ++ (e.encode ++ (l₂.flatMap Record.encode ++ post))
            by rw [hsplit]; simp only [List.append_assoc]) hpos,
        readdirLoop_hit hdir (by simpa using hyes) (hafter e (by simp)) (by omega) (hf.at _) hsplit rfl]
      rfl
    rw [hloop] at hcall
    have hnext := h.next hslot (hf.at (pre ++ l₁.flatMap Record.encode ++ e.encode).length) rfl
    have hend' : ReaddirEnds d.dev data (dirPrefix dir.name)
        (pre ++ l₁.flatMap Record.encode ++ e.encode ++ l₂.flatMap Record.encode).length t := by
      rw [List.flatMap_append, List.flatMap_cons] at hend
      simpa only [List.append_assoc] using hend
    obtain ⟨hshown, hlast⟩ := ih hrest (fun b hb => hafter b (by simp [hb]))
      (by rw [hsplit]; simp only [List.append_assoc]) hnext hend' (by omega) (fun n => junk (n + 1))
    refine ⟨fun j x hx => ?_, ?_⟩
    · cases j with
      | zero =>
        obtain rfl : e = x := Option.some.inj hx
        refine ⟨_, _, hcall, ?_⟩
        simp only [cpioDirent, e.decoded_path]
        rfl
      | succ j =>
        rw [readdirRun, hcall]
        exact hshown j x hx
    · rw [List.length_cons, readdirRun, hcall]
      exact hlast

end Run

-- ---------------------------------------------------------------------------
-- Listings
-- ---------------------------------------------------------------------------

/-- The type of a directory's entry. -/
theorem Entry.IsDir.dirtype {e : Entry} (h : e.IsDir) :
    cpioModeToDirtype (BitVec.ofInt 32 (newcAtoi ((e.header.drop 14).take 8))) = .dir := by
  obtain ⟨m, hm, hmode⟩ := h.mode
  have hand : BitVec.ofNat 32 m &&& 0o060000#32 = 0o040000#32 := by
    have h₁ : BitVec.ofNat 32 m &&& 0o170000#32 = 0o040000#32 := by
      have := congrArg (BitVec.ofNat 32) hmode
      rwa [BitVec.ofNat_and] at this
    calc BitVec.ofNat 32 m &&& 0o060000#32
      _ = BitVec.ofNat 32 m &&& 0o170000#32 &&& 0o060000#32 := by
          rw [BitVec.and_assoc]
          rfl
      _ = 0o040000#32 := by rw [h₁]; rfl
  rw [ofInt_newcAtoi hm, cpioModeToDirtype, hand]
  rfl

section Listing

variable {d : Drivers} {sb : Superblock} {rd : Nat} {data rest : List Byte} {entries : List Entry}
  {trailer : Record}

/-- Opening a directory gives a listing that begins behind its entry. -/
theorem MountedArchive.openDir (h : MountedArchive d sb rd data) (hlt : data.length < 2 ^ 31)
    (hfree : ∃ i < MAX_CPIO_OPEN, (d.cfdatas i).af.fOp = none) {r : Record} (hdir : r.toEntry.IsDir)
    {before : List Record} (hbefore : ∀ b ∈ before, b.name ≠ r.name ∧ b.name ≠ trailerName)
    {post : List Byte} (hdata : data = before.flatMap Record.encode ++ r.encode ++ post) {fuel : Nat}
    (hfuel : before.length + 2 ≤ fuel) :
    ∃ f d', cpioFileOpenPath fuel d cpioFileNew sb r.name = some (0, f, d') ∧ d'.dev = d.dev ∧
      OpenDir d' data r f (before.flatMap Record.encode ++ r.encode).length := by
  obtain ⟨i, hi⟩ := cfdataAlloc_of_free hfree
  obtain ⟨af, hdev, haf, hpos⟩ := h.fileOpenDev hlt
  obtain ⟨off, hoff, hfind⟩ := cpioFindPathLoop_records r.name_string rfl before hbefore hfuel
    (i := 0) (h := CpioHeader.reset 0#32) rfl haf
    (show data = [] ++ before.flatMap Record.encode ++ r.encode ++ post by simpa using hdata) hpos
  obtain ⟨d', hopen, hdev', hslot⟩ := cpioFileOpenPath_found r.name_nonempty hi hdev hfind rfl
  have hlen : r.encode.length = r.front.length := by
    rw [r.length_encode, r.dataPad_length, show r.data = [] from hdir.empty]
    rfl
  refine ⟨_, d', hopen, hdev', rfl, hdir.dirtype, rfl, ⟨i, off, rfl, ?_, ?_, ?_⟩, hdir.empty⟩
  · rw [hslot]
  · rw [hslot, hdev']
    exact haf.at _
  · rw [hslot, List.length_append, hlen, hoff]
    rfl

/-- Opening `dir` and calling `file_readdir` again and again gives exactly `shown`:
one entry a call with its relative path, and then 0. -/
def ListsExactly (d : Drivers) (sb : Superblock) (dir : List Byte) (shown : List Entry) : Prop :=
  ∃ N, ∀ fuel, N ≤ fuel → ∃ f d', cpioFileOpenPath fuel d cpioFileNew sb dir = some (0, f, d') ∧
    ∀ junk, (∀ k e, shown[k]? = some e → ∃ de d'', readdirRun fuel f junk k d' = some (1, de, d'') ∧
        de.dName = relativePath dir e.name) ∧
      ∃ de d'', readdirRun fuel f junk shown.length d' = some (0, de, d'')

/-- Behind an entry whose name does not fit, nothing can be opened. -/
theorem MountedArchive.open_long (h : MountedArchive d sb rd data) (hlt : data.length < 2 ^ 31)
    (hfree : ∃ i < MAX_CPIO_OPEN, (d.cfdatas i).af.fOp = none) {p : List Byte} (hp : IsString p)
    (hne : p ≠ []) {before : List Record}
    (hbefore : ∀ b ∈ before, b.name ≠ p ∧ b.name ≠ trailerName) {e : Entry} (hlong : ¬ e.Fits)
    {post : List Byte} (hdata : data = before.flatMap Record.encode ++ e.encode ++ post) {fuel : Nat}
    (hfuel : before.length + 2 ≤ fuel) :
    ∃ f d', cpioFileOpenPath fuel d cpioFileNew sb p = some (-EOVERFLOW, f, d') := by
  obtain ⟨i, hi⟩ := cfdataAlloc_of_free hfree
  obtain ⟨af, hdev, haf, hpos⟩ := h.fileOpenDev hlt
  obtain ⟨f', h', hfind⟩ := cpioFindPath_long hp hbefore hlong haf hdata hpos hfuel
  rw [cpioFileOpenPath, if_neg hne, hi, hdev]
  dsimp only
  rw [if_neg (by decide), show (d.setCfdata i { d.cfdatas i with af := af }).dev = d.dev from rfl, hfind]
  dsimp only
  rw [if_pos (by decide)]
  exact ⟨_, _, rfl⟩

/-- What the calls really give, if every name up to the directory's fits: the
records whose path begins with the directory's, and then result `t`. -/
theorem MountedArchive.listing (h : MountedArchive d sb rd data) (hlt : data.length < 2 ^ 31)
    (hfree : ∃ i < MAX_CPIO_OPEN, (d.cfdatas i).af.fOp = none) {r : Record} (hdir : r.toEntry.IsDir)
    {before after : List Record} (hbefore : ∀ b ∈ before, b.name ≠ r.name ∧ b.name ≠ trailerName)
    (hafter : ∀ b ∈ after, b.name ≠ trailerName) {post : List Byte}
    (hdata : data = before.flatMap Record.encode ++ r.encode ++ after.flatMap Record.encode ++ post)
    {t : Int} (hend : ReaddirEnds d.dev data (dirPrefix r.name)
      (before.flatMap Record.encode ++ r.encode ++ after.flatMap Record.encode).length t) {fuel : Nat}
    (hfuel : before.length + after.length + 2 ≤ fuel) :
    ∃ f d', cpioFileOpenPath fuel d cpioFileNew sb r.name = some (0, f, d') ∧
      ∀ junk, (∀ k e, (after.filter (dirPrefix r.name <+: ·.name))[k]? = some e →
          ∃ de d'', readdirRun fuel f junk k d' = some (1, de, d'') ∧
            de.dName = shownName r.name e.name) ∧
        ∃ de d'', readdirRun fuel f junk (after.filter (dirPrefix r.name <+: ·.name)).length d' =
          some (t, de, d'') := by
  obtain ⟨f, d', hopen, hdev, hd'⟩ := h.openDir hlt hfree hdir hbefore
    (show data = before.flatMap Record.encode ++ r.encode ++ (after.flatMap Record.encode ++ post) by
      rw [hdata]; simp only [List.append_assoc]) (show before.length + 2 ≤ fuel by omega)
  refine ⟨f, d', hopen, fun junk => hd'.run rfl hafter hdata ?_ (by omega) junk⟩
  rw [hdev]
  exact hend

/-- A listing has as many entries as the calls give, and its end is no error. -/
theorem ListsExactly.length_eq {dir : List Byte} {shown : List Entry} (h : ListsExactly d sb dir shown)
    {hits : List Record} {t : Int} (ht : t ≤ 0) {name : Record → List Byte} {M : Nat}
    (hcalls : ∀ fuel, M ≤ fuel → ∃ f d', cpioFileOpenPath fuel d cpioFileNew sb dir = some (0, f, d') ∧
      ∀ junk, (∀ k e, hits[k]? = some e → ∃ de d'', readdirRun fuel f junk k d' = some (1, de, d'') ∧
          de.dName = name e) ∧
        ∃ de d'', readdirRun fuel f junk hits.length d' = some (t, de, d'')) :
    shown.length = hits.length ∧ t = 0 := by
  obtain ⟨N, hN⟩ := h
  obtain ⟨f, d', hopen, hshown⟩ := hN (max N M) (Nat.le_max_left _ _)
  obtain ⟨f', d'', hopen', hhits⟩ := hcalls (max N M) (Nat.le_max_right _ _)
  obtain ⟨-, rfl, rfl⟩ : (0 : Int) = 0 ∧ f = f' ∧ d' = d'' := by
    simpa using hopen.symm.trans hopen'
  obtain ⟨hshown, _, _, hlast⟩ := hshown fun _ => (⟨0#32, .unknown, 0#32, 0#32⟩, ⟨0#32, .unknown, []⟩)
  obtain ⟨hhits, _, _, hlast'⟩ := hhits fun _ => (⟨0#32, .unknown, 0#32, 0#32⟩, ⟨0#32, .unknown, []⟩)
  rcases Nat.lt_trichotomy shown.length hits.length with hlt | heq | hgt
  · obtain ⟨_, _, hcall, -⟩ := hhits shown.length _ (List.getElem?_eq_getElem hlt)
    have := (Prod.mk.inj (Option.some.inj (hcall.symm.trans hlast))).1
    omega
  · rw [heq] at hlast
    exact ⟨heq, (Prod.mk.inj (Option.some.inj (hlast'.symm.trans hlast))).1⟩
  · obtain ⟨_, _, hcall, -⟩ := hshown hits.length _ (List.getElem?_eq_getElem hgt)
    have := (Prod.mk.inj (Option.some.inj (hcall.symm.trans hlast'))).1
    omega

/-- A path that is shown under its relative path. -/
theorem shownName_below {dir : List Byte} (hdir : IsString dir) {e : Record} (h : Below dir e.name) :
    shownName dir e.name = relativePath dir e.name := by
  have hfits := e.name_fits
  have hle : (relativePath dir e.name).length ≤ e.name.length := by
    unfold relativePath
    split
    · split
      · rw [List.length_tail]
        omega
      · exact Nat.le_refl _
    · rw [List.length_drop]
      omega
  rw [shownName, pathStripPrefix_below hdir h, Option.getD_some]
  exact List.take_of_length_le (by omega)

/-- The records that begin with the directory's path are those below it, as soon as
there are no more of them. -/
theorem filter_below_of_length {dir : List Byte} {after : List Record}
    (h : ((after.map Record.toEntry).filter (Below dir ·.name)).length =
      (after.filter (dirPrefix dir <+: ·.name)).length) :
    ∀ e ∈ after, dirPrefix dir <+: e.name → Below dir e.name := by
  have hsub : (after.filter (dirPrefix dir <+: ·.name)).filter (Below dir ·.name) =
      after.filter (Below dir ·.name) := by
    rw [List.filter_filter]
    refine List.filter_congr fun e _ => ?_
    rw [Bool.and_eq_left_iff_imp]
    intro hbelow
    exact decide_eq_true (dirPrefix_of_below (of_decide_eq_true hbelow))
  have hlen : ((after.filter (dirPrefix dir <+: ·.name)).filter (Below dir ·.name)).length =
      (after.filter (dirPrefix dir <+: ·.name)).length := by
    rw [hsub, ← h, List.filter_map, List.length_map]
    rfl
  have hall := List.filter_eq_self.mp (List.filter_sublist.eq_of_length hlen)
  intro e he hpre
  exact of_decide_eq_true (hall e (List.mem_filter.mpr ⟨he, decide_eq_true hpre⟩))

/-- Behind a name that does not fit, no listing is exact. -/
theorem MountedArchive.not_listsExactly (h : MountedArchive d sb rd data) (hlt : data.length < 2 ^ 31)
    (hfree : ∃ i < MAX_CPIO_OPEN, (d.cfdatas i).af.fOp = none) {p : List Byte} (hp : IsString p)
    (hne : p ≠ []) {bs : List Record} (hbs : ∀ b ∈ bs, b.name ≠ p ∧ b.name ≠ trailerName) {e : Entry}
    (hlong : ¬ e.Fits) {post : List Byte}
    (hdata : data = bs.flatMap Record.encode ++ e.encode ++ post) (shown : List Entry) :
    ¬ ListsExactly d sb p shown := by
  rintro ⟨N, hN⟩
  obtain ⟨f, d', hopen, -⟩ := hN (max N (bs.length + 2)) (Nat.le_max_left _ _)
  obtain ⟨f', d'', hopen'⟩ := h.open_long hlt hfree hp hne hbs hlong hdata (Nat.le_max_right N _)
  have := (Prod.mk.inj (Option.some.inj (hopen.symm.trans hopen'))).1
  simp [EOVERFLOW] at this

/-- The same for an archive all of whose names fit up to the directory's. -/
theorem MountedArchive.listsExactly_iff (h : MountedArchive d sb rd data) (hlt : data.length < 2 ^ 31)
    (hfree : ∃ i < MAX_CPIO_OPEN, (d.cfdatas i).af.fOp = none) (hname : trailer.name = trailerName)
    (hempty : trailer.data = []) {r : Record} (hdir : r.toEntry.IsDir) {bs : List Record}
    (hbs : ∀ b ∈ bs, b.name ≠ r.name ∧ b.name ≠ trailerName) {after : List Entry}
    (hafter : ∀ e ∈ after, e.name ≠ trailerName)
    (hdata : data = bs.flatMap Record.encode ++ r.encode ++ after.flatMap Entry.encode ++
      trailer.encode ++ rest) :
    ListsExactly d sb r.name (after.filter (Below r.name ·.name)) ↔
      (∀ e ∈ after, e.Fits) ∧ ∀ e ∈ after, dirPrefix r.name <+: e.name → Below r.name e.name := by
  rcases split_fits after with ⟨as, rfl⟩ | ⟨as, e, later, rfl, hlong⟩
  · -- the listing ends at the trailer
    have hfits : ∀ e ∈ as.map Record.toEntry, e.Fits := by
      intro e he
      obtain ⟨a, -, rfl⟩ := List.mem_map.mp he
      exact a.name_fits
    have has : ∀ b ∈ as, b.name ≠ trailerName := fun b hb =>
      hafter b.toEntry (List.mem_map_of_mem hb)
    rw [flatMap_toEntry] at hdata
    have hcalls := fun fuel (hfuel : bs.length + as.length + 2 ≤ fuel) =>
      h.listing hlt hfree hdir hbs has
        (show data = bs.flatMap Record.encode ++ r.encode ++ as.flatMap Record.encode ++
          (trailer.encode ++ rest) by rw [hdata, List.append_assoc _ trailer.encode rest])
        (show ReaddirEnds d.dev data (dirPrefix r.name) _ 0 from readdirEnds_trailer hname hempty hdata)
        hfuel
    rw [and_iff_right hfits]
    constructor
    · intro hexact
      obtain ⟨hlen, -⟩ := hexact.length_eq (Int.le_refl 0) hcalls
      have hall := filter_below_of_length hlen
      intro e he
      obtain ⟨a, ha, rfl⟩ := List.mem_map.mp he
      exact hall a ha
    · intro hall
      refine ⟨bs.length + as.length + 2, fun fuel hfuel => ?_⟩
      obtain ⟨f, d', hopen, hrun⟩ := hcalls fuel hfuel
      refine ⟨f, d', hopen, fun junk => ?_⟩
      obtain ⟨hshown, hlast⟩ := hrun junk
      have hfilter : (as.map Record.toEntry).filter (Below r.name ·.name) =
          (as.filter (dirPrefix r.name <+: ·.name)).map Record.toEntry := by
        rw [List.filter_map]
        congr 1
        refine List.filter_congr fun e he => ?_
        exact decide_eq_decide.mpr ⟨dirPrefix_of_below, hall e.toEntry (List.mem_map_of_mem he)⟩
      rw [hfilter, List.length_map]
      refine ⟨fun k e he => ?_, hlast⟩
      rw [List.getElem?_map, Option.map_eq_some_iff] at he
      obtain ⟨a, ha, rfl⟩ := he
      obtain ⟨de, d'', hcall, hde⟩ := hshown k a ha
      refine ⟨de, d'', hcall, ?_⟩
      obtain ⟨hmem, hpre⟩ := List.mem_filter.mp (List.mem_of_getElem? ha)
      rw [hde]
      exact shownName_below r.name_string
        (hall a.toEntry (List.mem_map_of_mem hmem) (of_decide_eq_true hpre))
  · -- it ends with an error
    refine iff_of_false (fun hexact => ?_) fun h => hlong (h.1 e (by simp))
    have has : ∀ b ∈ as, b.name ≠ trailerName := fun b hb =>
      hafter b.toEntry (List.mem_append_left _ (List.mem_map_of_mem hb))
    rw [List.flatMap_append, flatMap_toEntry, List.flatMap_cons] at hdata
    have hdata' : data = bs.flatMap Record.encode ++ r.encode ++ as.flatMap Record.encode ++ e.encode ++
        (later.flatMap Entry.encode ++ trailer.encode ++ rest) := by
      rw [hdata]
      simp only [List.append_assoc]
    obtain ⟨-, hend⟩ := hexact.length_eq (show -EOVERFLOW ≤ 0 by decide)
      fun fuel (hfuel : bs.length + as.length + 2 ≤ fuel) =>
        h.listing hlt hfree hdir hbs has
          (show data = bs.flatMap Record.encode ++ r.encode ++ as.flatMap Record.encode ++
            (e.encode ++ (later.flatMap Entry.encode ++ trailer.encode ++ rest)) by
              rw [hdata']; simp only [List.append_assoc])
          (readdirEnds_long hlong hdata') hfuel
    simp [EOVERFLOW] at hend

/-- **When a directory listing is exact.** For every archive and every directory in
it that precedes the entries below it: successive calls of `file_readdir` show
exactly the entries below the directory, with their relative paths, and then
return 0, if and only if every name of the archive fits, and every entry behind the
directory whose path begins with the characters of the directory's lies below
it. -/
theorem readdir_exact_iff (hmount : MountedArchive d sb rd data) (hlt : data.length < 2 ^ 31)
    (hfree : ∃ i < MAX_CPIO_OPEN, (d.cfdatas i).af.fOp = none)
    (hdata : data = entries.flatMap Entry.encode ++ trailer.encode ++ rest)
    (hentries : ∀ e ∈ entries, e.name ≠ trailerName) (hname : trailer.name = trailerName)
    (hempty : trailer.data = []) {before after : List Entry} {dir : Entry}
    (hsplit : entries = before ++ dir :: after) (hdir : dir.IsDir)
    (hbefore : ∀ b ∈ before, b.name ≠ dir.name ∧ ¬ Below dir.name b.name) :
    ListsExactly d sb dir.name (after.filter (Below dir.name ·.name)) ↔
      (∀ e ∈ entries, e.Fits) ∧ ∀ e ∈ after, dir.name <+: e.name → Below dir.name e.name := by
  subst hsplit
  rw [List.flatMap_append, List.flatMap_cons] at hdata
  rcases split_fits before with ⟨bs, rfl⟩ | ⟨bs, e, later, rfl, hlong⟩
  · have hbs : ∀ b ∈ bs, b.name ≠ dir.name ∧ b.name ≠ trailerName := fun b hb =>
      ⟨(hbefore b.toEntry (List.mem_map_of_mem hb)).1,
        hentries b.toEntry (List.mem_append_left _ (List.mem_map_of_mem hb))⟩
    rw [flatMap_toEntry, ← List.append_assoc] at hdata
    by_cases hfits : dir.Fits
    · obtain ⟨r, rfl⟩ : ∃ r : Record, r.toEntry = dir := ⟨dir.toRecord hfits, rfl⟩
      have hall : (∀ e ∈ bs.map Record.toEntry ++ r.toEntry :: after, e.Fits) ↔ ∀ e ∈ after, e.Fits := by
        refine ⟨fun h e he => h e (by simp [he]), fun h e he => ?_⟩
        rcases List.mem_append.mp he with hb | hb
        · obtain ⟨b, -, rfl⟩ := List.mem_map.mp hb
          exact b.name_fits
        · rcases List.mem_cons.mp hb with rfl | hb
          · exact hfits
          · exact h e hb
      have hprefix : (∀ e ∈ after, dirPrefix r.name <+: e.name → Below r.name e.name) ↔
          ∀ e ∈ after, r.name <+: e.name → Below r.name e.name := by
        by_cases hroot : r.name = bytes "."
        · exact iff_of_true (fun _ _ _ => .inl hroot) fun _ _ _ => .inl hroot
        · rw [dirPrefix, if_neg hroot]
      rw [hall]
      refine (hmount.listsExactly_iff hlt hfree hname hempty hdir hbs
        (fun e he => hentries e (by simp [he])) hdata).trans (and_congr_right fun _ => hprefix)
    · refine iff_of_false (hmount.not_listsExactly hlt hfree dir.name_string dir.name_nonempty hbs hfits
        (show data = bs.flatMap Record.encode ++ dir.encode ++ (after.flatMap Entry.encode ++
          trailer.encode ++ rest) by rw [hdata]; simp only [List.append_assoc]) _)
        fun h => hfits (h.1 dir (by simp))
  · have hbs : ∀ b ∈ bs, b.name ≠ dir.name ∧ b.name ≠ trailerName := fun b hb =>
      ⟨(hbefore b.toEntry (List.mem_append_left _ (List.mem_map_of_mem hb))).1,
        hentries b.toEntry (List.mem_append_left _ (List.mem_append_left _ (List.mem_map_of_mem hb)))⟩
    rw [List.flatMap_append, flatMap_toEntry, List.flatMap_cons] at hdata
    refine iff_of_false (hmount.not_listsExactly hlt hfree dir.name_string dir.name_nonempty hbs hlong
      (show data = bs.flatMap Record.encode ++ e.encode ++ (later.flatMap Entry.encode ++ dir.encode ++
        after.flatMap Entry.encode ++ trailer.encode ++ rest) by
          rw [hdata]; simp only [List.append_assoc]) _) fun h => hlong (h.1 e (by simp))

end Listing

-- ---------------------------------------------------------------------------
-- A directory with a neighbour
-- ---------------------------------------------------------------------------

/-- A header with a mode and a length of the name, and zeros in all other fields. -/
def plainHeader (mode namesize : List Byte) : List Byte :=
  bytes "070701" ++ List.replicate 8 (byte '0') ++ mode ++ List.replicate 72 (byte '0') ++ namesize ++
    List.replicate 8 (byte '0')

/-- The root directory. -/
def rootDir : Record where
  header := plainHeader (bytes "000041ED") (bytes "00000002")
  name := bytes "."
  namePad := []
  data := []
  dataPad := []
  header_length := by decide
  magic := by decide
  fields_hex := by decide +kernel
  namesize := by decide +kernel
  filesize := by decide +kernel
  name_nonempty := by decide
  name_string := by decide
  name_fits := by decide
  namePad_length := by decide
  dataPad_length := no_dataPad

/-- A directory `bin`. -/
def binDir : Record where
  header := plainHeader (bytes "000041ED") (bytes "00000004")
  name := bytes "bin"
  namePad := [0#8, 0#8]
  data := []
  dataPad := []
  header_length := by decide
  magic := by decide
  fields_hex := by decide +kernel
  namesize := by decide +kernel
  filesize := by decide +kernel
  name_nonempty := by decide
  name_string := by decide
  name_fits := by decide
  namePad_length := by decide
  dataPad_length := no_dataPad

/-- A file in it. -/
def binFile : Record where
  header := plainHeader (bytes "000081A4") (bytes "00000006")
  name := bytes "bin/a"
  namePad := []
  data := []
  dataPad := []
  header_length := by decide
  magic := by decide
  fields_hex := by decide +kernel
  namesize := by decide +kernel
  filesize := by decide +kernel
  name_nonempty := by decide
  name_string := by decide
  name_fits := by decide
  namePad_length := by decide
  dataPad_length := no_dataPad

/-- A file whose path begins with `bin`, but does not lie below it. -/
def bin2File : Record where
  header := plainHeader (bytes "000081A4") (bytes "00000005")
  name := bytes "bin2"
  namePad := [0#8]
  data := []
  dataPad := []
  header_length := by decide
  magic := by decide
  fields_hex := by decide +kernel
  namesize := by decide +kernel
  filesize := by decide +kernel
  name_nonempty := by decide
  name_string := by decide
  name_fits := by decide
  namePad_length := by decide
  dataPad_length := no_dataPad

def binArchive : Archive where
  entries := [rootDir, binDir, binFile, bin2File]
  trailer := helloTrailer
  rest := []
  entries_name := by decide
  trailer_name := helloArchive.trailer_name
  trailer_data := helloArchive.trailer_data
  size_lt := by
    simp only [List.flatMap_cons, List.flatMap_nil, List.length_append, Record.length_encode,
      Record.length_front]
    decide

theorem binArchive_mounted : MountedArchive binArchive.drivers ⟨0x400#32, bytes "/"⟩ 0 binArchive.bytes :=
  ⟨rfl, rfl, by decide, by decide⟩

theorem binArchive_bytes : binArchive.bytes =
    (binArchive.entries.map Record.toEntry).flatMap Entry.encode ++ helloTrailer.encode ++ [] := by
  rw [flatMap_toEntry]
  rfl

theorem rootDir_isDir : rootDir.toEntry.IsDir := ⟨⟨0o040755, by decide +kernel, by decide⟩, rfl⟩

theorem binDir_isDir : binDir.toEntry.IsDir := ⟨⟨0o040755, by decide +kernel, by decide⟩, rfl⟩

/-- The root directory shows all other entries. -/
theorem readdir_exact_iff_root :
    ListsExactly binArchive.drivers ⟨0x400#32, bytes "/"⟩ (bytes ".")
      [binDir.toEntry, binFile.toEntry, bin2File.toEntry] :=
  (readdir_exact_iff binArchive_mounted (Nat.lt_trans binArchive.size_lt (by decide))
    ⟨0, by decide, rfl⟩ binArchive_bytes (by decide) rfl rfl
    (show binArchive.entries.map Record.toEntry = [] ++ rootDir.toEntry ::
      [binDir.toEntry, binFile.toEntry, bin2File.toEntry] from rfl) rootDir_isDir nofun).mpr
    ⟨by decide, fun _ _ _ => .inl rfl⟩

/-- Listing `bin` shows `bin2`, too, under the name `2`. -/
theorem readdir_shows_neighbour :
    (∀ e ∈ [rootDir.toEntry, binDir.toEntry, bin2File.toEntry], ¬ Below (bytes "bin") e.name) ∧
      ¬ ListsExactly binArchive.drivers ⟨0x400#32, bytes "/"⟩ (bytes "bin") [binFile.toEntry] := by
  refine ⟨by decide, fun h => ?_⟩
  have hdata : binArchive.bytes = [rootDir].flatMap Record.encode ++ binDir.encode ++
      [binFile.toEntry, bin2File.toEntry].flatMap Entry.encode ++ helloTrailer.encode ++ [] := by
    rw [show [binFile.toEntry, bin2File.toEntry] = [binFile, bin2File].map Record.toEntry from rfl,
      flatMap_toEntry]
    simp only [Archive.bytes, binArchive, List.flatMap_cons, List.flatMap_nil, List.append_assoc,
      List.append_nil]
  have hiff := binArchive_mounted.listsExactly_iff (Nat.lt_trans binArchive.size_lt (by decide))
    ⟨0, by decide, rfl⟩ helloArchive.trailer_name rfl binDir_isDir (by decide) (by decide) hdata
  exact absurd ((hiff.mp h).2 bin2File.toEntry (by simp)) (by decide)

end Munix
