import Munix.Drivers.CpioRead
import Munix.Drivers.Mount

/-!
# Munix — walking through an archive

`cpio_find_path` and `cpio_file_readdir` walk through the headers of an archive,
which may hold any bytes: it may be cut off anywhere, and its size fields may be
anything. This module says when such a walk comes to an end (`archiveWalks_iff`).

A name that the archive cuts off is never read to its end (`cpioReadHeader_cut`),
and the file size of a header, as a signed number, can move the walk backwards.
-/

namespace Munix

-- ---------------------------------------------------------------------------
-- Reading anywhere in an archive
-- ---------------------------------------------------------------------------

section Reads

variable {dev : Devices} {data : List Byte} {f : File DevOps}

/-- The file at any position. -/
def File.seek {Ops : Type} (f : File Ops) (pos : BitVec 32) : File Ops := { f with fPos := pos }

theorem DiskFile.seek (h : DiskFile dev data f) (pos : BitVec 32) : DiskFile dev data (f.seek pos) :=
  ⟨h.op, h.disk, h.size, h.lt⟩

theorem DiskFile.fileRead_any (h : DiskFile dev data f) {count : BitVec 32} (hcount : count ≠ 0#32) :
    fileRead dev.read f true count =
      (((((data.drop (diskStart f.fPos)).take count.toNat).length : Nat) : Int),
        (data.drop (diskStart f.fPos)).take count.toNat,
        f.seek (BitVec.ofNat 32
          (diskStart f.fPos + ((data.drop (diskStart f.fPos)).take count.toNat).length))) := by
  rw [fileRead_of_op h.op hcount, h.read_any]
  rfl

theorem diskStart_ofNat {n : Nat} (h : n < 2 ^ 31) : diskStart (BitVec.ofNat 32 n) = n := by
  have hnat : (BitVec.ofNat 32 n).toNat = n := by
    rw [BitVec.toNat_ofNat, Nat.mod_eq_of_lt (by omega)]
  unfold diskStart
  rw [show (0#32) = BitVec.ofNat 32 0 from rfl, slt_ofNat h (by omega), hnat]
  simp

/-- A read at a position inside the archive. -/
theorem DiskFile.fileRead_at (h : DiskFile dev data f) {pos : Nat} (hpos : pos ≤ data.length)
    {count : BitVec 32} (hcount : count ≠ 0#32) :
    fileRead dev.read (f.at pos) true count =
      (((min count.toNat (data.length - pos) : Nat) : Int), (data.drop pos).take count.toNat,
        f.at (pos + min count.toNat (data.length - pos))) := by
  have hlt := h.lt
  have hstart : diskStart (f.at pos).fPos = pos := diskStart_ofNat (by omega)
  rw [(h.at pos).fileRead_any hcount, hstart, List.length_take, List.length_drop]
  rfl

/-- A raw header is refused, or the file is at a place inside the archive behind
it. -/
theorem cpioReadHeaderRaw_cases (h : DiskFile dev data f) :
    (cpioReadHeaderRaw dev f).1 < 0 ∨
      0 ≤ (cpioReadHeaderRaw dev f).1 ∧
      ∃ e ≤ data.length, (cpioReadHeaderRaw dev f).2.1 = f.at e ∧
        (cpioReadHeaderRaw dev f).2.2.fmt = .newc ∧
        (cpioReadHeaderRaw dev f).2.2.pathname = List.replicate PATH_MAX 0#8 ∧
        (cpioReadHeaderRaw dev f).2.2.isEndmarker = false := by
  have hlt := h.lt
  have hlen : ((data.drop (diskStart f.fPos)).take 6).length =
      min 6 (data.length - diskStart f.fPos) := by
    rw [List.length_take, List.length_drop]
  rw [cpioReadHeaderRaw]
  simp only [h.fileRead_any (show (6#32) ≠ 0#32 by decide), show (6#32).toNat = 6 from rfl]
  set n := ((data.drop (diskStart f.fPos)).take 6).length with hn
  rw [if_neg (by omega)]
  by_cases hzero : (n : Int) = 0
  · rw [if_pos hzero]
    exact .inl (show -EINVAL < 0 by decide)
  rw [if_neg hzero]
  split
  · exact .inl (show -EINVAL < 0 by decide)
  · have hseek : f.seek (BitVec.ofNat 32 (diskStart f.fPos + n)) = f.at (diskStart f.fPos + n) := rfl
    have hcount : BitVec.ofNat 32 NEWC_HSIZE - BitVec.ofInt 32 (n : Int) =
        BitVec.ofNat 32 (110 - n) := by
      rw [BitVec.ofInt_natCast, show NEWC_HSIZE = 110 from rfl]
      bv_omega
    have hne : BitVec.ofNat 32 (110 - n) ≠ 0#32 := by bv_omega
    simp only [hseek, hcount, h.fileRead_at (show diskStart f.fPos + n ≤ data.length by omega) hne]
    rw [if_neg (by omega)]
    refine .inr ⟨by simp only []; omega, _, ?_, rfl, rfl, rfl, rfl⟩
    omega

/-- The loop that reads a name never comes to an end where the archive is too
short for it: at its end every read returns 0. -/
theorem readPathnameLoop_cut (h : DiskFile dev data f) {readsz : Nat} (hsz : readsz ≤ PATH_MAX)
    (fuel : Nat) {pos ct : Nat} {pathname : List Byte} (hpos : pos ≤ data.length)
    (hcut : data.length + ct < pos + readsz) :
    readPathnameLoop dev readsz fuel (f.at pos) pathname ct = none := by
  induction fuel generalizing pos ct pathname with
  | zero => rfl
  | succ fuel ih =>
    unfold PATH_MAX at hsz
    have hcount : (BitVec.ofNat 32 (readsz - ct)).toNat = readsz - ct := by
      rw [BitVec.toNat_ofNat, Nat.mod_eq_of_lt (by omega)]
    have hne : BitVec.ofNat 32 (readsz - ct) ≠ 0#32 := by bv_omega
    have hmin : min (readsz - ct) (data.length - pos) = data.length - pos := by omega
    rw [readPathnameLoop, if_pos (by omega)]
    simp only [h.fileRead_at hpos hne, hcount, hmin]
    rw [if_neg (by omega), Int.toNat_natCast]
    exact ih (by omega) (by omega)

/-- A name inside the archive takes one read. -/
theorem readPathnameLoop_inside (h : DiskFile dev data f) {readsz : Nat} (hsz : readsz ≤ PATH_MAX)
    {fuel : Nat} (hfuel : 2 ≤ fuel) {pos : Nat} (hpos : pos + readsz ≤ data.length)
    (pathname : List Byte) :
    readPathnameLoop dev readsz fuel (f.at pos) pathname 0 =
      some ((readsz : Int), f.at (pos + readsz),
        overwrite pathname 0 ((data.drop pos).take readsz)) := by
  obtain ⟨fuel, rfl⟩ := Nat.exists_eq_add_of_le' hfuel
  by_cases hzero : readsz = 0
  · subst hzero
    simp [readPathnameLoop, overwrite]
  · unfold PATH_MAX at hsz
    have hcount : (BitVec.ofNat 32 (readsz - 0)).toNat = readsz := by
      rw [BitVec.toNat_ofNat, Nat.sub_zero, Nat.mod_eq_of_lt (by omega)]
    have hne : BitVec.ofNat 32 (readsz - 0) ≠ 0#32 := by bv_omega
    have hmin : min readsz (data.length - pos) = readsz := by omega
    rw [readPathnameLoop, if_pos (by omega)]
    simp only [h.fileRead_at (show pos ≤ data.length by omega) hne, hcount, hmin]
    rw [if_neg (by omega), Int.toNat_natCast, Nat.zero_add, readPathnameLoop,
      if_neg (Nat.lt_irrefl _)]

theorem readPathnameLoop_mono {readsz fuel fuel' : Nat} {pathname : List Byte} {ct : Nat}
    {r : Int × File DevOps × List Byte}
    (h : readPathnameLoop dev readsz fuel f pathname ct = some r) (hle : fuel ≤ fuel') :
    readPathnameLoop dev readsz fuel' f pathname ct = some r := by
  induction fuel generalizing fuel' f pathname ct with
  | zero => cases h
  | succ fuel ih =>
    obtain ⟨fuel', rfl⟩ := Nat.exists_eq_add_of_le' (show 1 ≤ fuel' by omega)
    rw [readPathnameLoop] at h ⊢
    dsimp only at h ⊢
    split at h
    · rename_i hgo
      rw [if_pos hgo]
      split at h
      · rename_i hneg
        rw [if_pos hneg]
        exact h
      · rename_i hneg
        rw [if_neg hneg]
        exact ih h (by omega)
    · rename_i hgo
      rw [if_neg hgo]
      exact h

theorem cpioReadPathname_mono {fuel fuel' : Nat} {h : CpioHeader}
    {r : Int × File DevOps × CpioHeader} (hrun : cpioReadPathname dev fuel f h = some r)
    (hle : fuel ≤ fuel') : cpioReadPathname dev fuel' f h = some r := by
  rcases hloop : readPathnameLoop dev (min h.psize.toNat PATH_MAX) fuel f h.pathname 0 with _ | r'
  · simp only [cpioReadPathname, hloop] at hrun
    cases hrun
  · have hloop' := readPathnameLoop_mono hloop hle
    simp only [cpioReadPathname, hloop] at hrun
    simp only [cpioReadPathname, hloop']
    exact hrun

/-- More rounds for its loop do not change what a header read finds. -/
theorem cpioReadHeader_mono {fuel fuel' : Nat} {r : Int × File DevOps × CpioHeader}
    (hrun : cpioReadHeader dev fuel f = some r) (hle : fuel ≤ fuel') :
    cpioReadHeader dev fuel' f = some r := by
  rw [cpioReadHeader] at hrun ⊢
  dsimp only at hrun ⊢
  split at hrun
  · rename_i hneg
    rw [if_pos hneg]
    exact hrun
  · rename_i hneg
    rw [if_neg hneg]
    split at hrun
    · rename_i hdec
      rw [if_pos hdec]
      exact hrun
    · rename_i hdec
      rw [if_neg hdec]
      split at hrun
      · cases hrun
      · rename_i hname
        rw [cpioReadPathname_mono hname hle]
        exact hrun

/-- Nor what a search finds. -/
theorem cpioFindPathLoop_mono {p : List Byte} {fuel fuel' i : Nat} {h : CpioHeader}
    {r : Int × File DevOps × CpioHeader} (hrun : cpioFindPathLoop dev p fuel i f h = some r)
    (hle : fuel ≤ fuel') : cpioFindPathLoop dev p fuel' i f h = some r := by
  induction fuel generalizing fuel' i f h with
  | zero => cases hrun
  | succ fuel ih =>
    obtain ⟨fuel', rfl⟩ := Nat.exists_eq_add_of_le' (show 1 ≤ fuel' by omega)
    rw [cpioFindPathLoop] at hrun ⊢
    split at hrun
    · rename_i hend
      rw [if_pos hend]
      exact hrun
    · rename_i hend
      rw [if_neg hend]
      split at hrun
      · cases hrun
      · rename_i hread
        rw [cpioReadHeader_mono hread hle]
        dsimp only at hrun ⊢
        split at hrun
        · rename_i hneg
          rw [if_pos hneg]
          exact hrun
        · rename_i hneg
          rw [if_neg hneg]
          split at hrun
          · rename_i hfound
            rw [if_pos hfound]
            exact hrun
          · rename_i hfound
            rw [if_neg hfound]
            split at hrun
            · rename_i hskip
              rw [if_pos hskip]
              exact hrun
            · rename_i hskip
              rw [if_neg hskip]
              exact ih hrun (by omega)

/-- The header at the file's position, with its sizes decoded. -/
def decodedHeader (dev : Devices) (f : File DevOps) : CpioHeader :=
  (cpiohDecodeSizes (cpioReadHeaderRaw dev f).2.2).2

/-- The position of the name behind that header. -/
def namePos (dev : Devices) (f : File DevOps) : Nat := (cpioReadHeaderRaw dev f).2.1.fPos.toNat

/-- The header with the name that the archive has for it. -/
def namedHeader (dev : Devices) (data : List Byte) (f : File DevOps) : CpioHeader :=
  let h := decodedHeader dev f
  { h with
    pathname := overwrite h.pathname 0 ((data.drop (namePos dev f)).take (min h.psize.toNat PATH_MAX)) }

/-- What `cpio_read_header` decides about the end of the archive. -/
def isTrailer (h : CpioHeader) : Bool := h.fsize == 0#32 && strncmp h.path trailerName PATH_MAX == 0

theorem cpiohDecodeSizes_newc {h : CpioHeader} (hfmt : h.fmt = .newc) :
    (cpiohDecodeSizes h).1 = 0 ∧ (cpiohDecodeSizes h).2.pathname = h.pathname := by
  simp [cpiohDecodeSizes, hfmt]

/-- A header that is not one ends the walk. -/
theorem cpioReadHeader_bad (fuel : Nat) (hraw : (cpioReadHeaderRaw dev f).1 < 0) :
    cpioReadHeader dev fuel f = some (cpioReadHeaderRaw dev f) := by
  rw [cpioReadHeader]
  rcases hr : cpioReadHeaderRaw dev f with ⟨res, f', h⟩
  rw [hr] at hraw
  simp only [if_pos hraw]

/-- The place behind a header, which lies inside the archive. -/
theorem namePos_spec (h : DiskFile dev data f) (hraw : 0 ≤ (cpioReadHeaderRaw dev f).1) :
    namePos dev f ≤ data.length ∧ (cpioReadHeaderRaw dev f).2.1 = f.at (namePos dev f) := by
  have hlt := h.lt
  rcases cpioReadHeaderRaw_cases h with hneg | ⟨-, e, he, hfile, -⟩
  · omega
  · have hpos : namePos dev f = e := by
      rw [namePos, hfile, File.at, BitVec.toNat_ofNat, Nat.mod_eq_of_lt (by omega)]
    rw [hpos]
    exact ⟨he, hfile⟩

/-- What is left to do behind a header. -/
theorem cpioReadHeader_good (h : DiskFile dev data f) (hraw : 0 ≤ (cpioReadHeaderRaw dev f).1)
    (fuel : Nat) :
    cpioReadHeader dev fuel f =
      match cpioReadPathname dev fuel (f.at (namePos dev f)) (decodedHeader dev f) with
      | none => none
      | some (res, f', h') =>
        if res < 0 then some (res, f', h')
        else some ((cpioReadHeaderRaw dev f).1 + res, f', { h' with isEndmarker := isTrailer h' }) := by
  have hfile := (namePos_spec h hraw).2
  rcases cpioReadHeaderRaw_cases h with hneg | ⟨-, e, -, -, hfmt, -⟩
  · omega
  · have hdec := (cpiohDecodeSizes_newc hfmt).1
    rw [← hfile, cpioReadHeader, decodedHeader]
    rcases hr : cpioReadHeaderRaw dev f with ⟨res, f₁, h₁⟩
    rw [hr] at hraw hdec
    rcases hd : cpiohDecodeSizes h₁ with ⟨res', h₂⟩
    obtain rfl : res' = 0 := by simpa [hd] using hdec
    simp only [if_neg (Int.not_lt.mpr hraw), hd, Int.lt_irrefl, if_false]
    rfl

/-- **A name that the archive cuts off** is never read. -/
theorem cpioReadHeader_cut (h : DiskFile dev data f) (hraw : 0 ≤ (cpioReadHeaderRaw dev f).1)
    (hcut : data.length < namePos dev f + min (decodedHeader dev f).psize.toNat PATH_MAX)
    (fuel : Nat) : cpioReadHeader dev fuel f = none := by
  have hloop : ∀ pathname, readPathnameLoop dev (min (decodedHeader dev f).psize.toNat PATH_MAX) fuel
      (f.at (namePos dev f)) pathname 0 = none := fun _ =>
    readPathnameLoop_cut h (Nat.min_le_right _ PATH_MAX) fuel (namePos_spec h hraw).1 hcut
  rw [cpioReadHeader_good h hraw, cpioReadPathname]
  simp only [hloop]

/-- The position of the data behind a header and its name. -/
def dataPos (dev : Devices) (f : File DevOps) : BitVec 32 :=
  BitVec.ofNat 32 (namePos dev f) + (decodedHeader dev f).psize + (decodedHeader dev f).ppad

/-- **A header whose name the archive has** is read, or its name is too long. -/
theorem cpioReadHeader_inside (h : DiskFile dev data f) (hraw : 0 ≤ (cpioReadHeaderRaw dev f).1)
    (hin : namePos dev f + min (decodedHeader dev f).psize.toNat PATH_MAX ≤ data.length)
    {fuel : Nat} (hfuel : 2 ≤ fuel) :
    (PATH_MAX < (decodedHeader dev f).psize.toNat ∧
      ∃ f', cpioReadHeader dev fuel f = some (-EOVERFLOW, f', namedHeader dev data f)) ∨
    ((decodedHeader dev f).psize.toNat ≤ PATH_MAX ∧ ∃ res, 0 ≤ res ∧
      cpioReadHeader dev fuel f = some (res, f.seek (dataPos dev f),
        { namedHeader dev data f with isEndmarker := isTrailer (namedHeader dev data f) })) := by
  have hloop := readPathnameLoop_inside h (Nat.min_le_right _ PATH_MAX) hfuel hin
    (decodedHeader dev f).pathname
  set hd := decodedHeader dev f with hhd
  have hnamed : namedHeader dev data f =
      { hd with
        pathname := overwrite hd.pathname 0
          ((data.drop (namePos dev f)).take (min hd.psize.toNat PATH_MAX)) } := rfl
  rw [cpioReadHeader_good h hraw, cpioReadPathname]
  simp only [← hhd, hloop, ← hnamed]
  rw [if_neg (by omega)]
  by_cases hlong : PATH_MAX < hd.psize.toNat
  · refine .inl ⟨hlong, f.at (namePos dev f + min hd.psize.toNat PATH_MAX), ?_⟩
    rw [if_pos hlong]
    rfl
  · refine .inr ⟨by omega, ?_⟩
    have hmin : min hd.psize.toNat PATH_MAX = hd.psize.toNat := by omega
    have hpos : BitVec.ofNat 32 (namePos dev f + hd.psize.toNat) =
        BitVec.ofNat 32 (namePos dev f) + hd.psize := by bv_omega
    rw [if_neg hlong, hmin]
    by_cases hpad : hd.ppad = 0#32
    · have hseek : f.at (namePos dev f + hd.psize.toNat) = f.seek (dataPos dev f) := by
        rw [File.at, File.seek, hpos, dataPos, ← hhd, hpad, BitVec.add_zero]
      rw [if_pos hpad, hseek]
      dsimp only
      rw [if_neg (by omega)]
      exact ⟨_, by omega, rfl⟩
    · have hseek : fileLseek (f.at (namePos dev f + hd.psize.toNat)) hd.ppad
          .seekCur = (0, f.seek (dataPos dev f)) := by
        simp only [fileLseek, File.at, h.op, File.seek, hpos, dataPos, ← hhd]
      rw [if_neg hpad, hseek]
      dsimp only
      rw [if_neg (by omega)]
      dsimp only
      rw [if_neg (by omega)]
      exact ⟨_, by omega, rfl⟩

theorem cpioSkipFdata_seek (h : DiskFile dev data f) (pos : BitVec 32) (hd : CpioHeader) :
    cpioSkipFdata (f.seek pos) hd = (0, f.seek (pos + (hd.fsize + hd.fpad))) := by
  simp only [cpioSkipFdata, fileLseek, File.seek, h.op]

end Reads

-- ---------------------------------------------------------------------------
-- Walks
-- ---------------------------------------------------------------------------

section Walks

variable (dev : Devices) (hit : CpioHeader → Bool) (f : File DevOps)

/-- A header iteration at position `q` of the archive that neither fails nor ends
the walk, and leaves the archive at `q'`. -/
def Continues (q q' : BitVec 32) : Prop :=
  ∃ fuel res f₁ h, cpioReadHeader dev fuel (f.seek q) = some (res, f₁, h) ∧ 0 ≤ res ∧
    hit h = false ∧ q' = (cpioSkipFdata f₁ h).2.fPos

/-- The positions of the headers that a walk from `q₀` gets to. -/
def Visits (q₀ q : BitVec 32) : Prop := Relation.ReflTransGen (Continues dev hit f) q₀ q

/-- A walk makes progress: at each header it reads the name to its end, and then
fails, ends, or leaves the archive further on. -/
structure Progresses (q₀ : BitVec 32) : Prop where
  name    : ∀ q, Visits dev hit f q₀ q → ∃ fuel, (cpioReadHeader dev fuel (f.seek q)).isSome = true
  forward : ∀ q q', Visits dev hit f q₀ q → Continues dev hit f q q' → q.toInt < q'.toInt

/-- The headers that a walk gets to are sound: the archive has the whole name of
each, and the sizes that a header gives lead to a later position, unless the walk
ends there. -/
def HeadersSound (data : List Byte) (q₀ : BitVec 32) : Prop :=
  ∀ q, Visits dev hit f q₀ q → 0 ≤ (cpioReadHeaderRaw dev (f.seek q)).1 →
    let h := decodedHeader dev (f.seek q)
    let named := namedHeader dev data (f.seek q)
    namePos dev (f.seek q) + min h.psize.toNat PATH_MAX ≤ data.length ∧
    (h.psize.toNat ≤ PATH_MAX → hit { named with isEndmarker := isTrailer named } = false →
      q.toInt < (dataPos dev (f.seek q) + (h.fsize + h.fpad)).toInt)

variable {dev hit f} {data : List Byte} {q₀ : BitVec 32}

/-- A header iteration that goes on, from the bytes of the archive. -/
theorem DiskFile.continues_iff (h : DiskFile dev data f) {q q' : BitVec 32} :
    Continues dev hit f q q' ↔
      0 ≤ (cpioReadHeaderRaw dev (f.seek q)).1 ∧
      namePos dev (f.seek q) + min (decodedHeader dev (f.seek q)).psize.toNat PATH_MAX ≤ data.length ∧
      (decodedHeader dev (f.seek q)).psize.toNat ≤ PATH_MAX ∧
      hit { namedHeader dev data (f.seek q) with
        isEndmarker := isTrailer (namedHeader dev data (f.seek q)) } = false ∧
      q' = dataPos dev (f.seek q) +
        ((decodedHeader dev (f.seek q)).fsize + (decodedHeader dev (f.seek q)).fpad) := by
  have hq := h.seek q
  constructor
  · rintro ⟨fuel, res, f₁, hd, hread, hres, hhit, rfl⟩
    have hraw : 0 ≤ (cpioReadHeaderRaw dev (f.seek q)).1 := by
      by_contra hneg
      rw [cpioReadHeader_bad fuel (by omega)] at hread
      have hres' := congrArg Prod.fst (Option.some.inj hread)
      exact hneg (hres'.symm ▸ hres)
    have hin : namePos dev (f.seek q) + min (decodedHeader dev (f.seek q)).psize.toNat PATH_MAX ≤
        data.length := by
      by_contra hcut
      rw [cpioReadHeader_cut hq hraw (by omega)] at hread
      cases hread
    have hread := cpioReadHeader_mono hread (Nat.le_max_left fuel 2)
    rcases cpioReadHeader_inside hq hraw hin (Nat.le_max_right fuel 2) with
      ⟨-, f', hread'⟩ | ⟨hlen, res', -, hread'⟩
    · rw [hread] at hread'
      have hres' := congrArg Prod.fst (Option.some.inj hread')
      exact absurd hres (by rw [show res = -EOVERFLOW from hres']; decide)
    · rw [hread] at hread'
      obtain ⟨rfl, rfl, rfl⟩ : res = res' ∧ f₁ = _ ∧ hd = _ := by simpa using hread'
      refine ⟨hraw, hin, hlen, hhit, ?_⟩
      have hskip := cpioSkipFdata_seek hq (dataPos dev (f.seek q)) (namedHeader dev data (f.seek q))
      exact congrArg (fun r => r.2.fPos) hskip
  · rintro ⟨hraw, hin, hlen, hhit, rfl⟩
    rcases cpioReadHeader_inside hq hraw hin (Nat.le_refl 2) with ⟨hlong, -⟩ | ⟨-, res, hres, hread⟩
    · omega
    · refine ⟨2, res, _, _, hread, hres, hhit, ?_⟩
      have hskip := cpioSkipFdata_seek hq (dataPos dev (f.seek q)) (namedHeader dev data (f.seek q))
      exact (congrArg (fun r => r.2.fPos) hskip).symm

/-- Progress is a matter of the headers alone. -/
theorem DiskFile.progresses_iff (h : DiskFile dev data f) (q₀ : BitVec 32) :
    Progresses dev hit f q₀ ↔ HeadersSound dev hit f data q₀ := by
  constructor
  · intro hp q hq hraw
    have hin : namePos dev (f.seek q) + min (decodedHeader dev (f.seek q)).psize.toNat PATH_MAX ≤
        data.length := by
      by_contra hcut
      obtain ⟨fuel, hsome⟩ := hp.name q hq
      rw [cpioReadHeader_cut (h.seek q) hraw (by omega)] at hsome
      cases hsome
    exact ⟨hin, fun hlen hhit =>
      hp.forward q _ hq (h.continues_iff.mpr ⟨hraw, hin, hlen, hhit, rfl⟩)⟩
  · intro hs
    constructor
    · intro q hq
      by_cases hraw : 0 ≤ (cpioReadHeaderRaw dev (f.seek q)).1
      · rcases cpioReadHeader_inside (h.seek q) hraw (hs q hq hraw).1 (Nat.le_refl 2) with
          ⟨-, f', hread⟩ | ⟨-, res, -, hread⟩
        · exact ⟨2, by rw [hread]; rfl⟩
        · exact ⟨2, by rw [hread]; rfl⟩
      · exact ⟨2, by rw [cpioReadHeader_bad 2 (by omega)]; rfl⟩
    · intro q q' hq hgo
      obtain ⟨hraw, -, hlen, hhit, rfl⟩ := h.continues_iff.mp hgo
      exact (hs q hq hraw).2 hlen hhit

/-- What one iteration of a walk can find, with sound headers. -/
theorem HeadersSound.cases (hs : HeadersSound dev hit f data q₀) (h : DiskFile dev data f)
    {q : BitVec 32} (hq : Visits dev hit f q₀ q) {fuel : Nat} (hfuel : 2 ≤ fuel) :
    ∃ res f₁ hd, cpioReadHeader dev fuel (f.seek q) = some (res, f₁, hd) ∧
      (res < 0 ∨ 0 ≤ res ∧ ∃ q', cpioSkipFdata f₁ hd = (0, f.seek q') ∧
        (hit hd = false → Visits dev hit f q₀ q' ∧ q.toInt < q'.toInt)) := by
  by_cases hraw : 0 ≤ (cpioReadHeaderRaw dev (f.seek q)).1
  · obtain ⟨hin, hforward⟩ := hs q hq hraw
    rcases cpioReadHeader_inside (h.seek q) hraw hin hfuel with
      ⟨-, f', hread⟩ | ⟨hlen, res, hres, hread⟩
    · exact ⟨_, _, _, hread, .inl (by decide)⟩
    · refine ⟨_, _, _, hread, .inr ⟨hres, _, cpioSkipFdata_seek (h.seek q) _ _, fun hhit => ?_⟩⟩
      exact ⟨hq.tail (h.continues_iff.mpr ⟨hraw, hin, hlen, hhit, rfl⟩), hforward hlen hhit⟩
  · have hneg : (cpioReadHeaderRaw dev (f.seek q)).1 < 0 := Int.not_le.mp hraw
    exact ⟨(cpioReadHeaderRaw dev (f.seek q)).1, _, _, cpioReadHeader_bad fuel hneg, .inl hneg⟩

/-- How `cpio_find_path` ends a walk. -/
def findHit (p : List Byte) (h : CpioHeader) : Bool := h.isEndmarker || strcmp h.path p == 0

/-- How `cpio_file_readdir` ends a walk. -/
def readdirHit (dirpath : List Byte) (h : CpioHeader) : Bool :=
  h.isEndmarker || strncmp h.path dirpath dirpath.length == 0

/-- With sound headers a search ends: it has fewer positions before it at each
header. -/
theorem cpioFindPathLoop_ends {p : List Byte} (hs : HeadersSound dev (findHit p) f data q₀)
    (h : DiskFile dev data f) (n : Nat) {q : BitVec 32} (hq : Visits dev (findHit p) f q₀ q)
    (hn : 2 ^ 31 - q.toInt ≤ n) {fuel : Nat} (hfuel : n + 2 ≤ fuel) (i : Nat) (hd : CpioHeader) :
    (cpioFindPathLoop dev p fuel i (f.seek q) hd).isSome = true := by
  induction n generalizing q fuel i hd with
  | zero =>
    have := BitVec.toInt_lt (x := q)
    omega
  | succ n ih =>
    obtain ⟨fuel, rfl⟩ := Nat.exists_eq_add_of_le' (show 1 ≤ fuel by omega)
    rw [cpioFindPathLoop]
    by_cases hend : hd.isEndmarker = true
    · rw [if_pos hend]
      rfl
    · obtain ⟨res, f₁, hd₁, hread, hcase⟩ := hs.cases h hq (show 2 ≤ fuel + 1 by omega)
      rw [if_neg hend, hread]
      dsimp only
      rcases hcase with hneg | ⟨hres, q', hskip, hgo⟩
      · rw [if_pos hneg]
        rfl
      · rw [if_neg (by omega)]
        by_cases hcmp : strcmp hd₁.path p = 0
        · rw [if_pos hcmp]
          rfl
        · rw [if_neg hcmp, hskip]
          dsimp only
          rw [if_neg (by decide)]
          by_cases hlast : hd₁.isEndmarker = true
          · obtain ⟨fuel, rfl⟩ := Nat.exists_eq_add_of_le' (show 1 ≤ fuel by omega)
            rw [cpioFindPathLoop, if_pos hlast]
            rfl
          · have hhit : findHit p hd₁ = false := by simp [findHit, hlast, hcmp]
            obtain ⟨hq', hlt⟩ := hgo hhit
            exact ih hq' (by omega) (by omega) (i + 1) hd₁

theorem readdirLoop_ends {dirpath : List Byte} (hs : HeadersSound dev (readdirHit dirpath) f data q₀)
    (h : DiskFile dev data f) (n : Nat) {q : BitVec 32}
    (hq : Visits dev (readdirHit dirpath) f q₀ q) (hn : 2 ^ 31 - q.toInt ≤ n) {fuel : Nat}
    (hfuel : n + 2 ≤ fuel) : (readdirLoop dev dirpath fuel (f.seek q)).isSome = true := by
  induction n generalizing q fuel with
  | zero =>
    have := BitVec.toInt_lt (x := q)
    omega
  | succ n ih =>
    obtain ⟨fuel, rfl⟩ := Nat.exists_eq_add_of_le' (show 1 ≤ fuel by omega)
    obtain ⟨res, f₁, hd₁, hread, hcase⟩ := hs.cases h hq (show 2 ≤ fuel + 1 by omega)
    rw [readdirLoop, hread]
    dsimp only
    rcases hcase with hneg | ⟨hres, q', hskip, hgo⟩
    · rw [if_pos hneg]
      rfl
    · rw [if_neg (by omega), hskip]
      dsimp only
      rw [if_neg (by decide)]
      by_cases hlast : hd₁.isEndmarker = true
      · rw [if_pos hlast]
        rfl
      · by_cases hcmp : strncmp hd₁.path dirpath dirpath.length = 0
        · rw [if_neg hlast, if_pos hcmp]
          rfl
        · have hhit : readdirHit dirpath hd₁ = false := by simp [readdirHit, hlast, hcmp]
          obtain ⟨hq', hlt⟩ := hgo hhit
          rw [if_neg hlast, if_neg hcmp]
          exact ih hq' (by omega) (by omega)

end Walks

-- ---------------------------------------------------------------------------
-- Any archive
-- ---------------------------------------------------------------------------

/-- An open file of a ramdisk with any contents, as long as its size is a
`size_t`. -/
structure ArchiveFile (dev : Devices) (data : List Byte) (f : File DevOps) : Prop where
  op   : f.fOp = some .ramdisk
  disk : f.fDriverData.bind dev.ramdisks = some data
  size : f.fStat.fSize = BitVec.ofNat 32 data.length
  lt   : data.length < 2 ^ 32

/-- In an archive so large that its size is negative there is nothing to read. -/
theorem ArchiveFile.raw_neg {dev : Devices} {data : List Byte} {f : File DevOps}
    (h : ArchiveFile dev data f) (hlarge : 2 ^ 31 ≤ data.length) (q : BitVec 32) :
    (cpioReadHeaderRaw dev (f.seek q)).1 < 0 := by
  have hlt := h.lt
  have hsle : ∀ off : BitVec 32, off.slt 0#32 = false →
      (BitVec.ofNat 32 data.length).sle off = true := by
    intro off hoff
    have hnat : (BitVec.ofNat 32 data.length).toNat = data.length := by
      rw [BitVec.toNat_ofNat, Nat.mod_eq_of_lt hlt]
    have hneg : (BitVec.ofNat 32 data.length).toInt < 0 := by
      rw [BitVec.toInt_eq_toNat_cond, hnat, if_neg (by omega)]
      norm_num
      omega
    have hpos : 0 ≤ off.toInt := by simpa [BitVec.slt] using hoff
    rw [BitVec.sle, decide_eq_true_eq]
    omega
  have hread : fileRead dev.read (f.seek q) true 6#32 =
      (0, [], f.seek (if q.slt 0#32 then 0#32 else q)) := by
    have hoff : (if q.slt 0#32 then 0#32 else q).slt 0#32 = false := by
      split
      · rfl
      · next h => simpa using h
    have hdev : dev.read .ramdisk (f.seek q) 6#32 (f.seek q).fPos =
        ⟨0, [], if q.slt 0#32 then 0#32 else q⟩ := by
      have hsize : (f.seek q).fStat.fSize = BitVec.ofNat 32 data.length := h.size
      unfold Devices.read ramdiskRead
      rw [hsize]
      exact if_pos (hsle _ hoff)
    rw [fileRead_of_op (show (f.seek q).fOp = some .ramdisk from h.op) (by decide), hdev]
    rfl
  rw [cpioReadHeaderRaw]
  simp only [hread]
  rw [if_neg (by decide)]
  exact (show -EINVAL < 0 by decide)

theorem ArchiveFile.diskFile {dev : Devices} {data : List Byte} {f : File DevOps}
    (h : ArchiveFile dev data f) (hlt : data.length < 2 ^ 31) : DiskFile dev data f :=
  ⟨h.op, h.disk, h.size, hlt⟩

/-- A walk from a position where there is no header. -/
theorem progresses_of_raw_neg {dev : Devices} {hit : CpioHeader → Bool} {f : File DevOps}
    (hneg : ∀ q, (cpioReadHeaderRaw dev (f.seek q)).1 < 0) (q₀ : BitVec 32) :
    Progresses dev hit f q₀ := by
  constructor
  · intro q _
    exact ⟨0, by rw [cpioReadHeader_bad 0 (hneg q)]; rfl⟩
  · rintro q q' - ⟨fuel, res, f₁, h, hread, hres, -, -⟩
    rw [cpioReadHeader_bad fuel (hneg q)] at hread
    have hfst := congrArg Prod.fst (Option.some.inj hread)
    have := hneg q
    omega

/-- The path that `cpio_file_readdir` compares with. -/
def readdirPath (c : Cfdata) : List Byte := if strcmp c.h.path (bytes ".") = 0 then [] else c.h.path

/-- Where `cpio_file_readdir` starts. -/
def readdirStart (c : Cfdata) (f : File FileOps) : BitVec 32 :=
  if f.fPos = 0#32 then c.af.fPos + (c.h.fsize + c.h.fpad) else c.af.fPos

/-- **When walking an archive terminates.** For an archive of any bytes, a search
for a path and a directory read come to an end, with progress at every header and
in every read loop, exactly when the headers they get to are sound. -/
theorem archiveWalks_iff {d : Drivers} {i : Nat} {data : List Byte}
    (h : ArchiveFile d.dev data (d.cfdatas i).af) :
    (∀ p, (∃ fuel, (cpioFindPath d.dev fuel (d.cfdatas i).af p).isSome = true) ∧
        Progresses d.dev (findHit p) (d.cfdatas i).af (d.cfdatas i).af.fPos ↔
      HeadersSound d.dev (findHit p) (d.cfdatas i).af data (d.cfdatas i).af.fPos) ∧
    (∀ (f : File FileOps) (fstat : Fstat) (dirent : Dirent), f.fDriverData = some i →
      ((∃ fuel, (cpioFileReaddir fuel d f fstat dirent).isSome = true) ∧
        Progresses d.dev (readdirHit (readdirPath (d.cfdatas i))) (d.cfdatas i).af
          (readdirStart (d.cfdatas i) f) ↔
      HeadersSound d.dev (readdirHit (readdirPath (d.cfdatas i))) (d.cfdatas i).af data
        (readdirStart (d.cfdatas i) f))) := by
  set c := d.cfdatas i with hc
  -- where a directory read starts, and what is left of it then
  have hreaddir : ∀ (f : File FileOps) (fstat : Fstat) (dirent : Dirent), f.fDriverData = some i →
      ∀ fuel, (readdirLoop d.dev (readdirPath c) fuel (c.af.seek (readdirStart c f))).isSome = true →
        (cpioFileReaddir fuel d f fstat dirent).isSome = true := by
    intro f fstat dirent hslot fuel hloop
    have hstart : (if f.fPos = 0#32 then cpioSkipFdata c.af c.h else (0, c.af)) =
        (0, c.af.seek (readdirStart c f)) := by
      unfold readdirStart
      split
      · simp only [cpioSkipFdata, fileLseek, h.op, File.seek]
      · rfl
    obtain ⟨⟨res, af, hd⟩, hrun⟩ := Option.isSome_iff_exists.mp hloop
    rw [readdirPath] at hrun
    simp only [cpioFileReaddir, hslot, ← hc, hstart, hrun]
    rw [if_neg (by decide)]
    split <;> rfl
  by_cases hlt : data.length < 2 ^ 31
  · have hdisk := h.diskFile hlt
    constructor
    · intro p
      rw [hdisk.progresses_iff]
      refine and_iff_right_of_imp fun hs => ⟨2 ^ 32 + 2, ?_⟩
      have hge := BitVec.le_toInt c.af.fPos
      exact cpioFindPathLoop_ends hs hdisk (2 ^ 32) .refl (by norm_num at hge ⊢; omega)
        (Nat.le_refl _) 0 (CpioHeader.reset 0#32)
    · intro f fstat dirent hslot
      rw [hdisk.progresses_iff]
      refine and_iff_right_of_imp fun hs => ⟨2 ^ 32 + 2, hreaddir f fstat dirent hslot _ ?_⟩
      have hge := BitVec.le_toInt (readdirStart c f)
      exact readdirLoop_ends hs hdisk (2 ^ 32) .refl (by norm_num at hge ⊢; omega) (Nat.le_refl _)
  · -- no header is read from an archive of 2 GiB or more
    have hneg := fun q => h.raw_neg (Nat.not_lt.mp hlt) q
    constructor
    · intro p
      refine iff_of_true ⟨⟨1, ?_⟩, progresses_of_raw_neg hneg _⟩ fun q _ hraw => ?_
      · have hread : cpioReadHeader d.dev 1 c.af = _ := cpioReadHeader_bad 1 (hneg c.af.fPos)
        have hraw : (cpioReadHeaderRaw d.dev c.af).1 < 0 := hneg c.af.fPos
        rw [cpioFindPath, cpioFindPathLoop, if_neg (by simp [CpioHeader.reset]), hread]
        dsimp only
        rw [if_pos hraw]
        rfl
      · have := hneg q
        omega
    · intro f fstat dirent hslot
      refine iff_of_true ⟨⟨1, hreaddir f fstat dirent hslot 1 ?_⟩, progresses_of_raw_neg hneg _⟩
        fun q _ hraw => ?_
      · rw [readdirLoop, cpioReadHeader_bad 1 (hneg _)]
        dsimp only
        rw [if_pos (hneg _)]
        rfl
      · have := hneg q
        omega

/-- A ramdisk with the given contents, whose file is open in every slot. -/
def diskDrivers (data : List Byte) : Drivers where
  dev := ⟨fun maj => if maj = MAJ_RAMDISK then some .ramdisk else none,
    fun i => if i = 0 then some data else none⟩
  cfdatas := fun _ =>
    ⟨⟨⟨0#32, .chr, 0x400#32, BitVec.ofNat 32 data.length⟩, 0#32, some .ramdisk, some 0⟩,
      CpioHeader.reset 0#32, 0#32⟩

theorem diskDrivers_archive {data : List Byte} (h : data.length < 2 ^ 32) (i : Nat) :
    ArchiveFile (diskDrivers data).dev data ((diskDrivers data).cfdatas i).af :=
  ⟨rfl, rfl, rfl, h⟩

/-- A walk that ends at its first header. -/
theorem DiskFile.headersSound_of_hit {dev : Devices} {hit : CpioHeader → Bool} {f : File DevOps}
    {data : List Byte} {q₀ : BitVec 32} (h : DiskFile dev data f)
    (hin : namePos dev (f.seek q₀) + min (decodedHeader dev (f.seek q₀)).psize.toNat PATH_MAX ≤
      data.length)
    (hhit : hit { namedHeader dev data (f.seek q₀) with
      isEndmarker := isTrailer (namedHeader dev data (f.seek q₀)) } = true) :
    HeadersSound dev hit f data q₀ := by
  intro q hq hraw
  rcases Relation.ReflTransGen.cases_head hq with rfl | ⟨q', hgo, -⟩
  · exact ⟨hin, fun _ hnot => absurd (hhit.symm.trans hnot) nofun⟩
  · obtain ⟨-, -, -, hnot, -⟩ := h.continues_iff.mp hgo
    exact absurd (hhit.symm.trans hnot) nofun

theorem archiveWalks_iff_hello :
    (∃ fuel, (cpioFindPath (diskDrivers helloArchive.bytes).dev fuel
      ((diskDrivers helloArchive.bytes).cfdatas 0).af (bytes "hello")).isSome = true) ∧
    Progresses (diskDrivers helloArchive.bytes).dev (findHit (bytes "hello"))
      ((diskDrivers helloArchive.bytes).cfdatas 0).af
      ((diskDrivers helloArchive.bytes).cfdatas 0).af.fPos := by
  have hlen : helloArchive.bytes.length < 2 ^ 31 := by decide +kernel
  have harchive := diskDrivers_archive (Nat.lt_trans hlen (by decide)) 0
  refine ((archiveWalks_iff harchive).1 (bytes "hello")).mpr ?_
  exact (harchive.diskFile hlen).headersSound_of_hit (by decide +kernel) (by decide +kernel)

/-- A search in an archive that ends with its first header never comes back. -/
theorem cpioFindPath_never_ends :
    ArchiveFile (diskDrivers helloEntry.header).dev helloEntry.header
      ((diskDrivers helloEntry.header).cfdatas 0).af ∧
    ∀ fuel, cpioFindPath (diskDrivers helloEntry.header).dev fuel
      ((diskDrivers helloEntry.header).cfdatas 0).af (bytes "hello") = none := by
  have hlen : helloEntry.header.length < 2 ^ 31 := by decide +kernel
  have harchive := diskDrivers_archive (Nat.lt_trans hlen (by decide)) 0
  have hraw : 0 ≤ (cpioReadHeaderRaw (diskDrivers helloEntry.header).dev
      ((diskDrivers helloEntry.header).cfdatas 0).af).1 := by decide +kernel
  have hcut : helloEntry.header.length < namePos (diskDrivers helloEntry.header).dev
      ((diskDrivers helloEntry.header).cfdatas 0).af +
        min (decodedHeader (diskDrivers helloEntry.header).dev
          ((diskDrivers helloEntry.header).cfdatas 0).af).psize.toNat PATH_MAX := by decide +kernel
  refine ⟨harchive, fun fuel => ?_⟩
  cases fuel with
  | zero => rfl
  | succ fuel =>
    rw [cpioFindPath, cpioFindPathLoop, if_neg (by simp [CpioHeader.reset]),
      cpioReadHeader_cut (harchive.diskFile hlen) hraw hcut]

end Munix
