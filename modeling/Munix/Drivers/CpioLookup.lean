import Munix.Drivers.CpioRead

/-!
# Munix — what a lookup in an archive finds

`cpio_find_path` compares the name of every header with the path, the trailer's
as well, and gives up at a header whose name does not fit its buffer.

* `cpioFindPath_exact_iff`: it finds exactly the names of the archive if and only
  if the path is not the name of the trailer, and every entry that it walks over
  has a name that fits.
-/

namespace Munix

-- ---------------------------------------------------------------------------
-- Entries with names of any length
-- ---------------------------------------------------------------------------

def Entry.encode (e : Entry) : List Byte :=
  e.header ++ (e.name ++ [0#8]) ++ e.namePad ++ e.data ++ e.dataPad

/-- The name fits `pathname`. -/
def Entry.Fits (e : Entry) : Prop := e.name.length + 1 ≤ PATH_MAX

instance (e : Entry) : Decidable e.Fits := inferInstanceAs (Decidable (_ ≤ _))

def Entry.toRecord (e : Entry) (h : e.Fits) : Record := ⟨e, h⟩

theorem exists_records {es : List Entry} (h : ∀ e ∈ es, e.Fits) :
    ∃ rs : List Record, rs.map Record.toEntry = es := by
  induction es with
  | nil => exact ⟨[], rfl⟩
  | cons e es ih =>
    obtain ⟨rs, rfl⟩ := ih fun x hx => h x (List.mem_cons_of_mem _ hx)
    exact ⟨e.toRecord (h e List.mem_cons_self) :: rs, rfl⟩

/-- The entries before the first whose name does not fit. -/
theorem split_fits (es : List Entry) : (∃ rs : List Record, rs.map Record.toEntry = es) ∨
    ∃ (rs : List Record) (e : Entry) (later : List Entry),
      rs.map Record.toEntry ++ e :: later = es ∧ ¬ e.Fits := by
  induction es with
  | nil => exact .inl ⟨[], rfl⟩
  | cons e es ih =>
    by_cases he : e.Fits
    · rcases ih with ⟨rs, rfl⟩ | ⟨rs, e', later, rfl, hlong⟩
      · exact .inl ⟨e.toRecord he :: rs, rfl⟩
      · exact .inr ⟨e.toRecord he :: rs, e', later, rfl, hlong⟩
    · exact .inr ⟨[], e, es, rfl, he⟩

theorem flatMap_toEntry (rs : List Record) :
    (rs.map Record.toEntry).flatMap Entry.encode = rs.flatMap Record.encode := by
  rw [List.flatMap_map]
  rfl

section LongName

variable {dev : Devices} {data : List Byte} {f : File DevOps} {pre post : List Byte} {e : Entry}

/-- Of a name that does not fit, as much is read as there is room for. -/
theorem cpioReadPathname_long {name : List Byte} {fuel : Nat} (hfuel : 2 ≤ fuel)
    (h : DiskFile dev data f) (hlen : PATH_MAX ≤ name.length) (hdata : data = pre ++ name ++ post)
    (hpos : f.fPos = BitVec.ofNat 32 pre.length) (hdr : CpioHeader)
    (hsize : PATH_MAX < hdr.psize.toNat) :
    ∃ f' hdr', cpioReadPathname dev fuel f hdr = some (-EOVERFLOW, f', hdr') := by
  have hseg : data = pre ++ name.take PATH_MAX ++ (name.drop PATH_MAX ++ post) := by
    rw [hdata]
    conv_lhs => rw [← List.take_append_drop PATH_MAX name]
    simp only [List.append_assoc]
  have htake : (name.take PATH_MAX).length = PATH_MAX := by
    rw [List.length_take, Nat.min_eq_left hlen]
  have hne : name.take PATH_MAX ≠ [] := by
    refine List.ne_nil_of_length_pos ?_
    rw [htake]
    decide
  have hread := fileRead_segment h hseg hpos hne
    (show BitVec.ofNat 32 (PATH_MAX - 0) = _ by rw [htake, Nat.sub_zero])
  rw [htake] at hread
  obtain ⟨fuel, rfl⟩ := Nat.exists_eq_add_of_le' hfuel
  rw [cpioReadPathname, Nat.min_eq_right (Nat.le_of_lt hsize), readPathnameLoop, if_pos (by decide),
    hread]
  dsimp only
  rw [if_neg (by omega), readPathnameLoop, if_neg (by omega)]
  dsimp only
  rw [if_neg (by omega), if_pos hsize]
  exact ⟨_, _, rfl⟩

/-- A header with a name that does not fit. -/
theorem cpioReadHeader_long (fuel : Nat) (hfuel : 2 ≤ fuel) (h : DiskFile dev data f)
    (hlong : ¬ e.Fits) (hdata : data = pre ++ e.encode ++ post)
    (hpos : f.fPos = BitVec.ofNat 32 pre.length) :
    ∃ f' h', cpioReadHeader dev fuel f = some (-EOVERFLOW, f', h') := by
  have hlt := h.lt
  have hlen : PATH_MAX < e.name.length + 1 := Nat.lt_of_not_le hlong
  have hall : data.length = pre.length + (110 + (e.name.length + 1) + e.namePad.length +
      e.data.length + e.dataPad.length) + post.length := by
    rw [hdata, Entry.encode]
    simp only [List.length_append, e.header_length, List.length_singleton]
  have hraw := cpioReadHeaderRaw_newc h e.header_length e.magic
    (show data = pre ++ e.header ++ ((e.name ++ [0#8]) ++ e.namePad ++ e.data ++ e.dataPad ++ post) by
      rw [hdata, Entry.encode]; simp only [List.append_assoc]) hpos
  have hpos' : (f.at (pre.length + 110)).fPos = BitVec.ofNat 32 (pre ++ e.header).length := by
    rw [List.length_append, e.header_length]
    rfl
  have hpsize : (BitVec.ofInt 32 (newcAtoi ((e.header.drop 94).take 8))).toNat = e.name.length + 1 := by
    rw [ofInt_newcAtoi e.namesize, BitVec.toNat_ofNat, Nat.mod_eq_of_lt (by omega)]
  obtain ⟨f', h', hname⟩ := cpioReadPathname_long hfuel (h.at (pre.length + 110))
    (Nat.le_of_lt_succ hlen)
    (show data = (pre ++ e.header) ++ e.name ++ ([0#8] ++ e.namePad ++ e.data ++ e.dataPad ++ post) by
      rw [hdata, Entry.encode]; simp only [List.append_assoc]) hpos'
    ((cpiohDecodeSizes { CpioHeader.reset (BitVec.ofNat 32 pre.length) with
      fmt := .newc, bytes := e.header, hsize := BitVec.ofNat 32 NEWC_HSIZE }).2)
    (hlen.trans_eq hpsize.symm)
  refine ⟨f', h', ?_⟩
  rw [cpioReadHeader, hraw]
  dsimp only
  rw [if_neg (by decide), if_neg (by change ¬ (0 : Int) < 0; decide), hname]
  dsimp only
  rw [if_pos (by decide)]

end LongName

-- ---------------------------------------------------------------------------
-- The search
-- ---------------------------------------------------------------------------

section Search

variable {dev : Devices} {data p : List Byte} {f : File DevOps}

/-- The search gives up at a header with a name that does not fit. -/
theorem cpioFindPath_long (hp : IsString p) {before : List Record}
    (hbefore : ∀ b ∈ before, b.name ≠ p ∧ b.name ≠ trailerName) {e : Entry} (hlong : ¬ e.Fits)
    (hf : DiskFile dev data f) {post : List Byte}
    (hdata : data = before.flatMap Record.encode ++ e.encode ++ post) (hpos : f.fPos = 0#32)
    {fuel : Nat} (hfuel : before.length + 2 ≤ fuel) :
    ∃ f' h', cpioFindPath dev fuel f p = some (-EOVERFLOW, f', h') := by
  obtain ⟨k, rfl⟩ := Nat.exists_eq_add_of_le hfuel
  obtain ⟨h', hh', hloop⟩ := cpioFindPathLoop_skip hp before hbefore (i := 0)
    (h := CpioHeader.reset 0#32) (show 1 ≤ k + 2 by omega) rfl hf
    (show data = [] ++ before.flatMap Record.encode ++ (e.encode ++ post) by
      rw [hdata]; simp only [List.append_assoc, List.nil_append]) hpos
  obtain ⟨f'', h'', hread⟩ := cpioReadHeader_long (k + 2) (by omega)
    (hf.at (before.flatMap Record.encode).length) hlong hdata rfl
  refine ⟨f'', h'', ?_⟩
  rw [cpioFindPath, show before.length + 2 + k = before.length + (k + 2) by omega, hloop,
    cpioFindPathLoop, hh', List.nil_append, hread]
  simp only [Bool.false_eq_true, if_false]
  rw [if_pos (by decide)]

/-- The search ends behind a trailer with another name than the path. -/
theorem cpioFindPath_missing (hp : IsString p) {entries : List Record}
    (hentries : ∀ b ∈ entries, b.name ≠ p ∧ b.name ≠ trailerName) {trailer : Record}
    (hname : trailer.name = trailerName) (hempty : trailer.data = []) (hne : p ≠ trailerName)
    (hf : DiskFile dev data f) {rest : List Byte}
    (hdata : data = entries.flatMap Record.encode ++ trailer.encode ++ rest) (hpos : f.fPos = 0#32)
    {fuel : Nat} (hfuel : entries.length + 2 ≤ fuel) :
    ∃ f' h', cpioFindPath dev fuel f p = some (-ENOENT, f', h') := by
  obtain ⟨k, rfl⟩ := Nat.exists_eq_add_of_le hfuel
  obtain ⟨h', hh', hloop⟩ := cpioFindPathLoop_skip hp entries hentries (i := 0)
    (h := CpioHeader.reset 0#32) (show 1 ≤ k + 2 by omega) rfl hf
    (show data = [] ++ entries.flatMap Record.encode ++ (trailer.encode ++ rest) by
      rw [hdata]; simp only [List.append_assoc, List.nil_append]) hpos
  have hread := cpioReadHeader_record (k + 2) (by omega)
    (hf.at (entries.flatMap Record.encode).length) hdata rfl
  have hcmp : strcmp (trailer.decoded (entries.flatMap Record.encode).length).path p ≠ 0 := by
    rw [trailer.decoded_path, hname]
    exact fun h => hne ((strcmp_eq_zero (by decide) hp).mp h).symm
  have hskip := cpioSkipFdata_record (hf.at (entries.flatMap Record.encode).length) trailer
    (entries.flatMap Record.encode).length
  have hend : (trailer.decoded (entries.flatMap Record.encode).length).isEndmarker = true := by
    simp [Record.decoded, hname, hempty]
  rw [cpioFindPath, show entries.length + 2 + k = entries.length + (k + 2) by omega, hloop,
    cpioFindPathLoop, hh', List.nil_append, hread]
  simp only [Bool.false_eq_true, if_false, hcmp, hskip]
  rw [if_neg (by omega), if_neg (by decide), cpioFindPathLoop, hend]
  exact ⟨_, _, rfl⟩

/-- The trailer is found under its own name, as if it were an entry. -/
theorem cpioFindPath_trailer {entries : List Record} (hentries : ∀ b ∈ entries, b.name ≠ trailerName)
    {trailer : Record} (hname : trailer.name = trailerName) (hf : DiskFile dev data f)
    {rest : List Byte} (hdata : data = entries.flatMap Record.encode ++ trailer.encode ++ rest)
    (hpos : f.fPos = 0#32) {fuel : Nat} (hfuel : entries.length + 2 ≤ fuel) :
    ∃ f' h', cpioFindPath dev fuel f trailerName = some ((entries.length : Int), f', h') := by
  obtain ⟨off, -, hfind⟩ := cpioFindPathLoop_records (show IsString trailerName by decide) hname
    entries (fun b hb => ⟨hentries b hb, hentries b hb⟩) hfuel (i := 0) (h := CpioHeader.reset 0#32)
    rfl hf (show data = [] ++ entries.flatMap Record.encode ++ trailer.encode ++ rest by
      rw [hdata, List.nil_append]) hpos
  rw [Nat.zero_add] at hfind
  exact ⟨_, _, hfind⟩

end Search

-- ---------------------------------------------------------------------------
-- What is found
-- ---------------------------------------------------------------------------

/-- The fields of a header that has been read from the entry at offset `off`. -/
structure HeaderOf (e : Entry) (off : Nat) (h : CpioHeader) : Prop where
  fmt   : h.fmt = .newc
  bytes : h.bytes = e.header
  hoff  : h.hoff = BitVec.ofNat 32 off
  hsize : h.hsize = BitVec.ofNat 32 NEWC_HSIZE
  psize : h.psize = BitVec.ofNat 32 (e.name.length + 1)
  ppad  : h.ppad = BitVec.ofNat 32 e.namePad.length
  fsize : h.fsize = BitVec.ofNat 32 e.data.length
  fpad  : h.fpad = BitVec.ofNat 32 e.dataPad.length
  path  : h.path = e.name
  more  : h.isEndmarker = false

theorem Record.decoded_headerOf (r : Record) (hname : r.name ≠ trailerName) (off : Nat) :
    HeaderOf r.toEntry off (r.decoded off) where
  fmt := rfl
  bytes := rfl
  hoff := rfl
  hsize := rfl
  psize := rfl
  ppad := rfl
  fsize := rfl
  fpad := rfl
  path := r.decoded_path off
  more := by simp [Record.decoded, hname]

/-- The result of a search is exact: the index of the first entry with that name
and its header, and `-ENOENT` exactly if there is none. -/
structure FoundExactly (entries : List Entry) (p : List Byte) (o : Int × File DevOps × CpioHeader) :
    Prop where
  first   : ∀ before e after, entries = before ++ e :: after → e.name = p →
    (∀ b ∈ before, b.name ≠ p) →
      o.1 = before.length ∧ HeaderOf e (before.flatMap Entry.encode).length o.2.2
  missing : o.1 = -ENOENT ↔ ∀ e ∈ entries, e.name ≠ p

/-- A search that ends with another error is not exact. -/
theorem FoundExactly.res {entries : List Entry} {p : List Byte} {o : Int × File DevOps × CpioHeader}
    (h : FoundExactly entries p o) : 0 ≤ o.1 ∨ o.1 = -ENOENT := by
  by_cases hex : ∃ e ∈ entries, e.name = p
  · left
    obtain ⟨e, hfind⟩ : ∃ e, entries.find? (fun e => e.name = p) = some e := by
      obtain ⟨e, he, hname⟩ := hex
      rw [← Option.isSome_iff_exists, List.find?_isSome]
      exact ⟨e, he, by simpa using hname⟩
    obtain ⟨hname, before, after, hsplit, hnot⟩ := List.find?_eq_some_iff_append.mp hfind
    have hfirst := h.first before e after hsplit (by simpa using hname)
      fun b hb => by simpa using hnot b hb
    omega
  · right
    push Not at hex
    exact h.missing.mpr hex

theorem takeWhile_split {α : Type} {q : α → Bool} {before : List α} {e : α} (after : List α)
    (hbefore : ∀ b ∈ before, q b = true) (he : ¬ q e = true) :
    (before ++ e :: after).takeWhile q = before := by
  rw [List.takeWhile_append_of_pos hbefore, List.takeWhile_cons_of_neg he, List.append_nil]

section Exact

variable {dev : Devices} {data p : List Byte} {f : File DevOps} {entries : List Entry}
  {trailer : Record} {rest : List Byte}

/-- With names that fit, the search finds the first entry of that name. -/
theorem cpioFindPath_first (hf : DiskFile dev data f) (hpos : f.fPos = 0#32)
    (hdata : data = entries.flatMap Entry.encode ++ rest)
    (hentries : ∀ e ∈ entries, e.name ≠ trailerName) (hp : IsString p) {before after : List Entry}
    {e : Entry} (hsplit : entries = before ++ e :: after) (hname : e.name = p) (hfits : e.Fits)
    (hbefore : ∀ b ∈ before, b.name ≠ p ∧ b.Fits) {fuel : Nat} (hfuel : before.length + 2 ≤ fuel) :
    ∃ o, cpioFindPath dev fuel f p = some o ∧ FoundExactly entries p o := by
  obtain ⟨rs, rfl⟩ := exists_records fun b hb => (hbefore b hb).2
  rw [List.length_map] at hfuel
  have hbefore' : ∀ b ∈ rs, b.name ≠ p ∧ b.name ≠ trailerName := fun b hb =>
    ⟨(hbefore b.toEntry (List.mem_map_of_mem hb)).1,
      hentries b.toEntry (by rw [hsplit]; exact List.mem_append_left _ (List.mem_map_of_mem hb))⟩
  have hrec : data = [] ++ rs.flatMap Record.encode ++ (e.toRecord hfits).encode ++
      (after.flatMap Entry.encode ++ rest) := by
    rw [hdata, hsplit, List.flatMap_append, List.flatMap_cons, flatMap_toEntry]
    simp only [List.append_assoc, List.nil_append]
    rfl
  obtain ⟨off, hoff, hfind⟩ := cpioFindPathLoop_records hp (r := e.toRecord hfits) hname rs hbefore'
    hfuel (i := 0) (h := CpioHeader.reset 0#32) rfl hf hrec hpos
  refine ⟨_, hfind, ?_, ?_⟩
  · -- there is one way only to split the entries at the first of that name
    intro before' e' after' hsplit' hname' hnot'
    have htake' : entries.takeWhile (fun e => e.name ≠ p) = before' := by
      rw [hsplit']
      exact takeWhile_split after' (fun b hb => by simpa using hnot' b hb) (by simpa using hname')
    have htake : entries.takeWhile (fun e => e.name ≠ p) = rs.map Record.toEntry := by
      rw [hsplit]
      exact takeWhile_split after (fun b hb => by simpa using (hbefore b hb).1) (by simpa using hname)
    obtain rfl : before' = rs.map Record.toEntry := htake'.symm.trans htake
    have hrest := List.append_cancel_left (hsplit'.symm.trans hsplit)
    obtain ⟨rfl, -⟩ := List.cons.inj hrest
    refine ⟨by simp, ?_⟩
    rw [hoff, flatMap_toEntry]
    exact Record.decoded_headerOf (e'.toRecord hfits) (hentries e' (by rw [hsplit]; simp)) _
  · refine iff_of_false (fun h => ?_) fun h => h e (by rw [hsplit]; simp) hname
    have : ((0 + rs.length : Nat) : Int) = -ENOENT := h
    unfold ENOENT at this
    omega

/-- **When a lookup is exact.** For every archive in a ramdisk and every path
shorter than `PATH_MAX`: `cpio_find_path` finds the first entry of that name, and
returns `-ENOENT` exactly if there is none, if and only if the path is not the
name of the trailer, and every entry before the first of that name has a name that
fits. -/
theorem cpioFindPath_exact_iff (hf : DiskFile dev data f) (hpos : f.fPos = 0#32)
    (hdata : data = entries.flatMap Entry.encode ++ trailer.encode ++ rest)
    (hentries : ∀ e ∈ entries, e.name ≠ trailerName) (hname : trailer.name = trailerName)
    (hempty : trailer.data = []) (hp : IsString p) (hlen : p.length < PATH_MAX) :
    (∃ N, ∀ fuel, N ≤ fuel → ∃ o, cpioFindPath dev fuel f p = some o ∧ FoundExactly entries p o) ↔
      p ≠ trailerName ∧ ∀ e ∈ entries.takeWhile (fun e => e.name ≠ p), e.Fits := by
  have hnot : ∀ b ∈ entries.takeWhile (fun e => e.name ≠ p), b.name ≠ p := fun b hb => by
    simpa using List.all_eq_true.mp List.all_takeWhile b hb
  have hsplit := List.takeWhile_append_dropWhile (p := fun e : Entry => decide (e.name ≠ p)) (l := entries)
  by_cases hfits : ∀ e ∈ entries.takeWhile (fun e => e.name ≠ p), e.Fits
  · rw [and_iff_left hfits]
    cases hdrop : entries.dropWhile (fun e => e.name ≠ p) with
    | cons e after =>
      rw [hdrop] at hsplit
      have hep : e.name = p := by
        have := List.head?_dropWhile_not (fun e : Entry => decide (e.name ≠ p)) entries
        rw [hdrop] at this
        simpa using this
      have hne : p ≠ trailerName := by
        rw [← hep]
        exact hentries e (by rw [← hsplit]; simp)
      refine iff_of_true ⟨(entries.takeWhile (fun e => e.name ≠ p)).length + 2,
        fun fuel hfuel => ?_⟩ hne
      exact cpioFindPath_first hf hpos (by rw [hdata, List.append_assoc]) hentries hp hsplit.symm hep
        (by rw [Entry.Fits, hep]; exact hlen) (fun b hb => ⟨hnot b hb, hfits b hb⟩) hfuel
    | nil =>
      rw [hdrop, List.append_nil] at hsplit
      rw [hsplit] at hnot hfits
      obtain ⟨rs, rfl⟩ := exists_records hfits
      rw [flatMap_toEntry] at hdata
      have hrs : ∀ b ∈ rs, b.name ≠ p ∧ b.name ≠ trailerName := fun b hb =>
        ⟨hnot b.toEntry (List.mem_map_of_mem hb), hentries b.toEntry (List.mem_map_of_mem hb)⟩
      constructor
      · -- the trailer is found under its own name
        rintro ⟨N, hN⟩ rfl
        obtain ⟨o, ho, hexact⟩ := hN (max N (rs.length + 2)) (Nat.le_max_left _ _)
        obtain ⟨f', h', hfind⟩ := cpioFindPath_trailer (fun b hb => (hrs b hb).2) hname hf hdata hpos
          (Nat.le_max_right N _)
        obtain rfl := Option.some.inj (ho.symm.trans hfind)
        have hres : (rs.length : Int) = -ENOENT := hexact.missing.mpr hnot
        unfold ENOENT at hres
        omega
      · intro hne
        refine ⟨rs.length + 2, fun fuel hfuel => ?_⟩
        obtain ⟨f', h', hfind⟩ := cpioFindPath_missing hp hrs hname hempty hne hf hdata hpos hfuel
        refine ⟨_, hfind, fun before e after hsplit' hep _ => ?_, iff_of_true rfl hnot⟩
        exact absurd hep (hnot e (by rw [hsplit']; simp))
  · -- the search gives up at the first name that does not fit
    refine iff_of_false ?_ fun h => hfits h.2
    rintro ⟨N, hN⟩
    push Not at hfits
    obtain ⟨e, hfind⟩ : ∃ e, (entries.takeWhile fun e => e.name ≠ p).find? (fun e => ¬ e.Fits) = some e := by
      obtain ⟨e, he, hno⟩ := hfits
      rw [← Option.isSome_iff_exists, List.find?_isSome]
      exact ⟨e, he, by simpa using hno⟩
    obtain ⟨hlong, before, after, hw, hshort⟩ := List.find?_eq_some_iff_append.mp hfind
    obtain ⟨rs, rfl⟩ := exists_records fun b hb => by simpa using hshort b hb
    have hrs : ∀ b ∈ rs, b.name ≠ p ∧ b.name ≠ trailerName := fun b hb => by
      have hmem : b.toEntry ∈ entries.takeWhile (fun e => e.name ≠ p) := by
        rw [hw]
        exact List.mem_append_left _ (List.mem_map_of_mem hb)
      exact ⟨hnot _ hmem, hentries _ ((List.takeWhile_sublist _).subset hmem)⟩
    rw [hw] at hsplit
    generalize entries.dropWhile (fun e => e.name ≠ p) = later at hsplit
    obtain ⟨o, ho, hexact⟩ := hN (max N (rs.length + 2)) (Nat.le_max_left _ _)
    obtain ⟨f', h', hlost⟩ := cpioFindPath_long hp hrs (e := e) (by simpa using hlong) hf
      (show data = rs.flatMap Record.encode ++ e.encode ++ (after.flatMap Entry.encode ++
          later.flatMap Entry.encode ++ trailer.encode ++ rest) by
        rw [hdata, ← hsplit]
        simp only [List.flatMap_append, List.flatMap_cons, flatMap_toEntry, List.append_assoc])
      hpos (Nat.le_max_right N _)
    obtain rfl := Option.some.inj (ho.symm.trans hlost)
    have hres := hexact.res
    simp [EOVERFLOW, ENOENT] at hres

end Exact

/-- The archive with one file, open as a ramdisk file at its begin. -/
def helloDisk : File DevOps :=
  (fileOpenDev helloArchive.drivers.dev 0x400#32).2

theorem helloDisk_diskFile :
    DiskFile helloArchive.drivers.dev helloArchive.bytes helloDisk ∧ helloDisk.fPos = 0#32 := by
  refine ⟨⟨by decide +kernel, by decide +kernel, by decide +kernel, ?_⟩, by decide +kernel⟩
  exact Nat.lt_trans helloArchive.size_lt (by decide)

theorem helloArchive_entries :
    helloArchive.bytes = [helloEntry.toEntry].flatMap Entry.encode ++ helloTrailer.encode ++ [] := by
  have h := flatMap_toEntry [helloEntry]
  rw [List.map_singleton] at h
  rw [h]
  rfl

theorem cpioFindPath_exact_iff_hello :
    ∃ N, ∀ fuel, N ≤ fuel → ∃ o, cpioFindPath helloArchive.drivers.dev fuel helloDisk (bytes "hello") =
      some o ∧ FoundExactly [helloEntry.toEntry] (bytes "hello") o :=
  (cpioFindPath_exact_iff helloDisk_diskFile.1 helloDisk_diskFile.2 helloArchive_entries
    (by decide) rfl rfl (by decide) (by decide)).mpr ⟨by decide, by decide⟩

/-- Looking up `TRAILER!!!` gives the index behind the last entry. -/
theorem cpioFindPath_finds_trailer :
    (∀ e ∈ [helloEntry.toEntry], e.name ≠ bytes "TRAILER!!!") ∧
      ¬ ∃ N, ∀ fuel, N ≤ fuel → ∃ o, cpioFindPath helloArchive.drivers.dev fuel helloDisk
        (bytes "TRAILER!!!") = some o ∧ FoundExactly [helloEntry.toEntry] (bytes "TRAILER!!!") o := by
  have hnames : ∀ e ∈ [helloEntry.toEntry], e.name ≠ bytes "TRAILER!!!" := by decide
  refine ⟨hnames, ?_⟩
  rintro ⟨N, hN⟩
  obtain ⟨o, ho, hexact⟩ := hN (max N 3) (Nat.le_max_left _ _)
  obtain ⟨f', h', hfind⟩ := cpioFindPath_trailer helloArchive.entries_name helloArchive.trailer_name
    helloDisk_diskFile.1 rfl helloDisk_diskFile.2 (Nat.le_max_right N 3)
  obtain rfl := Option.some.inj (ho.symm.trans hfind)
  have hres : ((1 : Nat) : Int) = -ENOENT := hexact.missing.mpr hnames
  exact absurd hres (by decide)

end Munix
