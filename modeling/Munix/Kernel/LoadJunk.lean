import Munix.Kernel.SegmentStores

/-!
# Munix — what a load takes from the stack

`process_load_path` reads the ELF header and the program headers into structures on the
kernel stack, and does not look at how much it got. Where the file ends inside a header,
the rest of it is what the stack held before.

A header is *decided* by its file if it has enough of it: all that the code looks at, or
a byte that makes the code turn it down.

* `ehdr_decided_iff`, `phdr_decided_iff` — these are the headers that the code takes the
  same for whatever is on the stack.
* `processLoadPath_fromFile` — a load that reads such headers only gives the same
  result code, entry address and page mappings for whatever is on the stack.
* `loadFile_cut` — an executable that ends before the end of `e_entry` is one that does
  not.
-/

namespace Munix

open ByteMem

-- ---------------------------------------------------------------------------
-- Fields and their bytes
-- ---------------------------------------------------------------------------

theorem toNat_append_byte {m : Nat} (a : BitVec m) (b : Byte) :
    (a ++ b).toNat = a.toNat * 256 + b.toNat := by
  rw [BitVec.toNat_append, ← Nat.shiftLeft_add_eq_or_of_lt b.isLt, Nat.shiftLeft_eq]

theorem toNat_le16 (b : List Byte) (off : Nat) :
    (le16 b off).toNat = (b.getD (off + 1) 0#8).toNat * 256 + (b.getD off 0#8).toNat :=
  toNat_append_byte _ _

theorem toNat_le32 (b : List Byte) (off : Nat) :
    (le32 b off).toNat = (((b.getD (off + 3) 0#8).toNat * 256 + (b.getD (off + 2) 0#8).toNat) * 256 +
      (b.getD (off + 1) 0#8).toNat) * 256 + (b.getD off 0#8).toNat := by
  have h3 := toNat_append_byte (b.getD (off + 3) 0#8) (b.getD (off + 2) 0#8)
  have h2 := toNat_append_byte (b.getD (off + 3) 0#8 ++ b.getD (off + 2) 0#8) (b.getD (off + 1) 0#8)
  have h1 := toNat_append_byte
    (b.getD (off + 3) 0#8 ++ b.getD (off + 2) 0#8 ++ b.getD (off + 1) 0#8) (b.getD off 0#8)
  rw [h2, h3] at h1
  exact h1

/-- The header has the given bytes at their places. -/
def HasFixed (fixed : List (Nat × Byte)) (h : List Byte) : Prop := ∀ q ∈ fixed, h.getD q.1 0#8 = q.2

/-- What `ELFMAG`, `ET_EXEC` and `PT_LOAD` are in a header. -/
def ELFMAG_AT : List (Nat × Byte) := [(0, 0x7f#8), (1, 0x45#8), (2, 0x4c#8), (3, 0x46#8)]
def ET_EXEC_AT : List (Nat × Byte) := [(16, 2#8), (17, 0#8)]
def PT_LOAD_AT : List (Nat × Byte) := [(0, 1#8), (1, 0#8), (2, 0#8), (3, 0#8)]

theorem elfmag_iff (h : Ehdr) : h.take 4 = ELFMAG ↔ HasFixed ELFMAG_AT h := by
  have hmag : ELFMAG = [0x7f#8, 0x45#8, 0x4c#8, 0x46#8] := by decide
  rw [hmag]
  rcases h with _ | ⟨a, _ | ⟨b, _ | ⟨c, _ | ⟨d, t⟩⟩⟩⟩ <;> simp [HasFixed, ELFMAG_AT]

theorem eType_iff (h : Ehdr) : eType h = ET_EXEC ↔ HasFixed ET_EXEC_AT h := by
  have hfield : (le16 h 16).toNat = (h.getD 17 0#8).toNat * 256 + (h.getD 16 0#8).toNat :=
    toNat_le16 h 16
  simp only [HasFixed, ET_EXEC_AT, List.forall_mem_cons, List.not_mem_nil, false_imp_iff,
    implies_true, and_true]
  rw [eType, ET_EXEC]
  bv_omega

theorem pType_iff (h : Phdr) : pType h = PT_LOAD ↔ HasFixed PT_LOAD_AT h := by
  have hfield : (le32 h 0).toNat = (((h.getD 3 0#8).toNat * 256 + (h.getD 2 0#8).toNat) * 256 +
      (h.getD 1 0#8).toNat) * 256 + (h.getD 0 0#8).toNat := toNat_le32 h 0
  simp only [HasFixed, PT_LOAD_AT, List.forall_mem_cons, List.not_mem_nil, false_imp_iff,
    implies_true, and_true]
  rw [pType, PT_LOAD]
  bv_omega

theorem and_two_iff {w : Nat} (hw : 1 < w) (x : BitVec w) : x &&& 2#w = 0#w ↔ x.toNat / 2 % 2 = 0 := by
  have h2 : 2#w = BitVec.twoPow w 1 := by
    apply BitVec.eq_of_toNat_eq
    rw [BitVec.toNat_twoPow, BitVec.toNat_ofNat]
  have hne : BitVec.twoPow w 1 ≠ 0#w := by
    intro h
    have hnat := congrArg BitVec.toNat h
    rw [BitVec.toNat_twoPow, BitVec.toNat_ofNat,
      Nat.mod_eq_of_lt (Nat.pow_lt_pow_right (by decide) hw)] at hnat
    simp at hnat
  have hbit : x.getLsbD 1 = decide (x.toNat / 2 % 2 = 1) := by
    rw [BitVec.getLsbD, Nat.testBit_eq_decide_div_mod_eq, Nat.pow_one]
  rw [h2, BitVec.and_twoPow, hbit]
  by_cases h : x.toNat / 2 % 2 = 1
  · simp [h, hne]
  · simp [h]
    omega

/-- The flag `PF_W` is in the first byte of `p_flags`. -/
theorem pFlags_w (h : Phdr) : pFlags h &&& PF_W = 0#32 ↔ h.getD 24 0#8 &&& 2#8 = 0#8 := by
  rw [pFlags, PF_W, and_two_iff (by decide), and_two_iff (by decide), toNat_le32]
  omega

-- ---------------------------------------------------------------------------
-- Headers
-- ---------------------------------------------------------------------------

/-- What the code makes of an ELF header: an error, or the fields that it goes on with. -/
def ehdrView (h : Ehdr) : Except Int (BitVec 32 × BitVec 32 × BitVec 16) :=
  if h.take 4 ≠ ELFMAG then .error (-EINVAL)
  else if h.getD 4 0#8 ≠ ELFCLASS32 then .error (-ENOTSUP)
  else if eType h ≠ ET_EXEC then .error (-ENOTSUP)
  else .ok (eEntry h, ePhoff h, ePhnum h)

/-- What the code makes of a program header: the fields of a segment, if it is one to
load. -/
def phdrView (h : Phdr) : Option (BitVec 32 × BitVec 32 × BitVec 32 × BitVec 32 × Pme) :=
  if pType h ≠ PT_LOAD then none
  else some (pOffset h, pVaddr h, pFilesz h, pMemsz h, segFlags h)

/-- The bytes that every header has that is not turned down. -/
def EHDR_FIXED : List (Nat × Byte) := ELFMAG_AT ++ (4, ELFCLASS32) :: ET_EXEC_AT
def PHDR_FIXED : List (Nat × Byte) := PT_LOAD_AT

/-- How much of a header the code looks at: up to `e_phnum`, and up to the flag `PF_W`. -/
def EHDR_USED : Nat := 46
def PHDR_USED : Nat := 25

/-- The bytes `bs` that the file has of a header leave nothing to the stack: they fit in
the header, and are all that is looked at or differ from what must be there. -/
def Decided (size used : Nat) (fixed : List (Nat × Byte)) (bs : List Byte) : Prop :=
  bs.length ≤ size ∧ (used ≤ bs.length ∨ ∃ q ∈ fixed, q.1 < bs.length ∧ bs.getD q.1 0#8 ≠ q.2)

def EhdrDecided (bs : List Byte) : Prop := Decided EHDRSZ EHDR_USED EHDR_FIXED bs
def PhdrDecided (bs : List Byte) : Prop := Decided PHDRSZ PHDR_USED PHDR_FIXED bs

instance (size used : Nat) (fixed : List (Nat × Byte)) (bs : List Byte) :
    Decidable (Decided size used fixed bs) :=
  inferInstanceAs (Decidable (_ ∧ (_ ∨ _)))

instance (bs : List Byte) : Decidable (EhdrDecided bs) := inferInstanceAs (Decidable (Decided ..))
instance (bs : List Byte) : Decidable (PhdrDecided bs) := inferInstanceAs (Decidable (Decided ..))

theorem getD_overwrite (junk bs : List Byte) (i : Nat) :
    (overwrite junk 0 bs).getD i 0#8 = if i < bs.length then bs.getD i 0#8 else junk.getD i 0#8 := by
  rw [overwrite_zero]
  split
  · rename_i h
    rw [List.getD_append _ _ _ _ h]
  · rename_i h
    rw [List.getD_append_right _ _ _ _ (by omega), List.getD_eq_getElem?_getD, List.getElem?_drop,
      Nat.add_sub_cancel' (by omega), ← List.getD_eq_getElem?_getD]

section Agree

variable {h h' : List Byte} {n : Nat} (hag : ∀ i < n, h.getD i 0#8 = h'.getD i 0#8)

include hag

theorem le16_congr {off : Nat} (hoff : off + 2 ≤ n) : le16 h off = le16 h' off := by
  rw [le16, le16, hag off (by omega), hag (off + 1) (by omega)]

theorem le32_congr {off : Nat} (hoff : off + 4 ≤ n) : le32 h off = le32 h' off := by
  rw [le32, le32, hag off (by omega), hag (off + 1) (by omega), hag (off + 2) (by omega),
    hag (off + 3) (by omega)]

theorem hasFixed_congr {fixed : List (Nat × Byte)} {k : Nat} (hk : ∀ q ∈ fixed, q.1 < k) (hn : k ≤ n) :
    HasFixed fixed h ↔ HasFixed fixed h' := by
  refine forall₂_congr fun q hq => ?_
  have hlt := hk q hq
  rw [hag q.1 (by omega)]

theorem elfmag_congr (hn : 4 ≤ n) : h.take 4 = ELFMAG ↔ h'.take 4 = ELFMAG := by
  rw [elfmag_iff, elfmag_iff, hasFixed_congr hag (by decide : ∀ q ∈ ELFMAG_AT, q.1 < 4) hn]

theorem segFlags_congr (hn : 25 ≤ n) : segFlags h = segFlags h' := by
  have hw : pFlags h &&& PF_W = 0#32 ↔ pFlags h' &&& PF_W = 0#32 := by
    rw [pFlags_w, pFlags_w, hag 24 (by omega)]
  simp only [segFlags, ne_eq, hw]

/-- Headers that agree in what is looked at. -/
theorem ehdrView_congr (hn : EHDR_USED ≤ n) : ehdrView h = ehdrView h' := by
  have h46 : EHDR_USED = 46 := rfl
  have htype : eType h = eType h' := le16_congr hag (by omega)
  have hentry : eEntry h = eEntry h' := le32_congr hag (by omega)
  have hphoff : ePhoff h = ePhoff h' := le32_congr hag (by omega)
  have hphnum : ePhnum h = ePhnum h' := le16_congr hag (by omega)
  have hmag := elfmag_congr hag (by omega)
  rw [ehdrView, ehdrView, hag 4 (by omega), htype, hentry, hphoff, hphnum]
  simp only [ne_eq, hmag]

theorem phdrView_congr (hn : PHDR_USED ≤ n) : phdrView h = phdrView h' := by
  have h25 : PHDR_USED = 25 := rfl
  have htype : pType h = pType h' := le32_congr hag (by omega)
  have hoffset : pOffset h = pOffset h' := le32_congr hag (by omega)
  have hvaddr : pVaddr h = pVaddr h' := le32_congr hag (by omega)
  have hfilesz : pFilesz h = pFilesz h' := le32_congr hag (by omega)
  have hmemsz : pMemsz h = pMemsz h' := le32_congr hag (by omega)
  rw [phdrView, phdrView, htype, hoffset, hvaddr, hfilesz, hmemsz, segFlags_congr hag (by omega)]

/-- A byte that is not as it must be, in both headers. -/
theorem not_hasFixed {fixed : List (Nat × Byte)} {q : Nat × Byte} (hq : q ∈ fixed) (hlt : q.1 < n)
    (hne : h.getD q.1 0#8 ≠ q.2) : ¬ HasFixed fixed h ∧ ¬ HasFixed fixed h' := by
  refine ⟨fun hb => hne (hb q hq), fun hb => hne ?_⟩
  rw [hag q.1 hlt]
  exact hb q hq

/-- Headers that both have a byte that turns them down. -/
theorem ehdrView_rejected {q : Nat × Byte} (hq : q ∈ EHDR_FIXED) (hlt : q.1 < n)
    (hne : h.getD q.1 0#8 ≠ q.2) : ehdrView h = ehdrView h' := by
  rcases List.mem_append.mp hq with hq | hq
  · obtain ⟨hmag, hmag'⟩ := not_hasFixed hag hq hlt hne
    rw [← elfmag_iff] at hmag hmag'
    rw [ehdrView, ehdrView, if_pos hmag, if_pos hmag']
  · -- the class or the type is wrong, and the bytes before it are the same
    have h4 : 4 < n := by
      rcases List.mem_cons.mp hq with rfl | hq
      · exact hlt
      · exact Nat.lt_trans ((by decide : ∀ q ∈ ET_EXEC_AT, 4 < q.1) q hq) hlt
    have hbad : ∀ g : Ehdr, g.getD 4 0#8 ≠ ELFCLASS32 ∨ ¬ HasFixed ET_EXEC_AT g →
        ehdrView g = if g.take 4 ≠ ELFMAG then .error (-EINVAL) else .error (-ENOTSUP) := by
      intro g hg
      rw [ehdrView]
      by_cases hclass : g.getD 4 0#8 = ELFCLASS32
      · have htype := hg.resolve_left (not_not.mpr hclass)
        rw [← eType_iff] at htype
        rw [if_neg (not_not.mpr hclass), if_pos htype]
      · rw [if_pos hclass]
    have hboth : (h.getD 4 0#8 ≠ ELFCLASS32 ∨ ¬ HasFixed ET_EXEC_AT h) ∧
        (h'.getD 4 0#8 ≠ ELFCLASS32 ∨ ¬ HasFixed ET_EXEC_AT h') := by
      rcases List.mem_cons.mp hq with rfl | hq
      · exact ⟨.inl hne, .inl (by rw [← hag 4 h4]; exact hne)⟩
      · exact (not_hasFixed hag hq hlt hne).imp .inr .inr
    rw [hbad h hboth.1, hbad h' hboth.2]
    simp only [ne_eq, elfmag_congr hag (by omega)]

theorem phdrView_rejected {q : Nat × Byte} (hq : q ∈ PHDR_FIXED) (hlt : q.1 < n)
    (hne : h.getD q.1 0#8 ≠ q.2) : phdrView h = phdrView h' := by
  obtain ⟨htype, htype'⟩ := not_hasFixed hag (show q ∈ PT_LOAD_AT from hq) hlt hne
  rw [← pType_iff] at htype htype'
  rw [phdrView, phdrView, if_pos htype, if_pos htype']

end Agree

theorem overwrite_agree (junk junk' bs : List Byte) :
    ∀ i < bs.length, (overwrite junk 0 bs).getD i 0#8 = (overwrite junk' 0 bs).getD i 0#8 := by
  intro i hi
  rw [getD_overwrite, getD_overwrite, if_pos hi, if_pos hi]

theorem EhdrDecided.view {bs : List Byte} (h : EhdrDecided bs) (junk junk' : Ehdr) :
    ehdrView (overwrite junk 0 bs) = ehdrView (overwrite junk' 0 bs) := by
  have hag := overwrite_agree junk junk' bs
  obtain ⟨-, hall | ⟨q, hq, hlt, hne⟩⟩ := h
  · exact ehdrView_congr hag hall
  · exact ehdrView_rejected hag hq hlt (by rwa [getD_overwrite, if_pos hlt])

theorem PhdrDecided.view {bs : List Byte} (h : PhdrDecided bs) (junk junk' : Phdr) :
    phdrView (overwrite junk 0 bs) = phdrView (overwrite junk' 0 bs) := by
  have hag := overwrite_agree junk junk' bs
  obtain ⟨-, hall | ⟨q, hq, hlt, hne⟩⟩ := h
  · exact phdrView_congr hag hall
  · exact phdrView_rejected hag hq hlt (by rwa [getD_overwrite, if_pos hlt])

/-- Bytes that do not decide a header are too few, and right as far as they go. -/
theorem not_decided {size used : Nat} {fixed : List (Nat × Byte)} {bs : List Byte}
    (hlen : bs.length ≤ size) (h : ¬ Decided size used fixed bs) :
    bs.length < used ∧ ∀ q ∈ fixed, q.1 < bs.length → bs.getD q.1 0#8 = q.2 := by
  rw [Decided, and_iff_right hlen, not_or] at h
  refine ⟨Nat.lt_of_not_le h.1, fun q hq hlt => ?_⟩
  by_contra hne
  exact h.2 ⟨q, hq, hlt, hne⟩

theorem hasFixed_overwrite {fixed : List (Nat × Byte)} {junk bs : List Byte} (hjunk : HasFixed fixed junk)
    (hbs : ∀ q ∈ fixed, q.1 < bs.length → bs.getD q.1 0#8 = q.2) :
    HasFixed fixed (overwrite junk 0 bs) := by
  intro q hq
  rw [getD_overwrite]
  split
  · rename_i hlt
    exact hbs q hq hlt
  · exact hjunk q hq

theorem ehdrView_of_hasFixed {h : Ehdr} (hfix : HasFixed EHDR_FIXED h) :
    ehdrView h = .ok (eEntry h, ePhoff h, ePhnum h) := by
  have hmag : h.take 4 = ELFMAG :=
    (elfmag_iff h).mpr fun q hq => hfix q (List.mem_append_left _ hq)
  have hclass : h.getD 4 0#8 = ELFCLASS32 :=
    hfix (4, ELFCLASS32) (List.mem_append_right _ List.mem_cons_self)
  have htype : eType h = ET_EXEC :=
    (eType_iff h).mpr fun q hq => hfix q (List.mem_append_right _ (List.mem_cons_of_mem _ hq))
  rw [ehdrView, if_neg (not_not.mpr hmag), if_neg (not_not.mpr hclass), if_neg (not_not.mpr htype)]

theorem phdrView_of_hasFixed {h : Phdr} (hfix : HasFixed PHDR_FIXED h) :
    phdrView h = some (pOffset h, pVaddr h, pFilesz h, pMemsz h, segFlags h) := by
  rw [phdrView, if_neg (not_not.mpr ((pType_iff h).mpr hfix))]

theorem ehdrView_error {h : Ehdr} {e : Int} (hview : ehdrView h = .error e) : e < 0 := by
  rw [ehdrView] at hview
  split at hview
  · cases hview
    decide
  · split at hview
    · cases hview
      decide
    · split at hview
      · cases hview
        decide
      · cases hview

theorem ehdrView_ok {h : Ehdr} {entry phoff : BitVec 32} {phnum : BitVec 16}
    (hview : ehdrView h = .ok (entry, phoff, phnum)) :
    eEntry h = entry ∧ ePhoff h = phoff ∧ ePhnum h = phnum := by
  rw [ehdrView] at hview
  split at hview
  · cases hview
  · split at hview
    · cases hview
    · split at hview
      · cases hview
      · cases hview
        exact ⟨rfl, rfl, rfl⟩

/-- A stack with a header that is not turned down, with `entry` as the last byte of
`e_entry` and `num` as the last one of `e_phnum`. -/
def ehdrJunk (entry num : Byte) : Ehdr :=
  ELFMAG ++ ELFCLASS32 :: List.replicate 11 0#8 ++ 2#8 :: List.replicate 10 0#8 ++
    entry :: List.replicate 17 0#8 ++ num :: List.replicate 6 0#8

/-- A stack with the header of an empty segment, with `flags` as its flags. -/
def phdrJunk (flags : Byte) : Phdr :=
  1#8 :: List.replicate 23 0#8 ++ flags :: List.replicate 7 0#8

theorem ehdrJunk_hasFixed (entry num : Byte) : HasFixed EHDR_FIXED (ehdrJunk entry num) := by
  simp [HasFixed, EHDR_FIXED, ELFMAG_AT, ET_EXEC_AT, ehdrJunk, ELFMAG, bytes]
  decide

/-- The header that such a stack makes of bytes that do not turn it down. -/
theorem ehdrView_junk {bs : List Byte} (hbs : ∀ q ∈ EHDR_FIXED, q.1 < bs.length → bs.getD q.1 0#8 = q.2)
    (entry num : Byte) :
    ehdrView (overwrite (ehdrJunk entry num) 0 bs) =
      .ok (eEntry (overwrite (ehdrJunk entry num) 0 bs), ePhoff (overwrite (ehdrJunk entry num) 0 bs),
        ePhnum (overwrite (ehdrJunk entry num) 0 bs)) :=
  ehdrView_of_hasFixed (hasFixed_overwrite (ehdrJunk_hasFixed entry num) hbs)

/-- **The ELF headers that nothing on the stack changes** are the decided ones. -/
theorem ehdr_decided_iff {bs : List Byte} (hlen : bs.length ≤ EHDRSZ) :
    EhdrDecided bs ↔ ∀ junk junk' : Ehdr, junk.length = EHDRSZ → junk'.length = EHDRSZ →
      ehdrView (overwrite junk 0 bs) = ehdrView (overwrite junk' 0 bs) := by
  refine ⟨fun h junk junk' _ _ => h.view junk junk', fun h => ?_⟩
  by_contra hno
  obtain ⟨hshort, hbs⟩ := not_decided hlen hno
  have hview := h (ehdrJunk 0#8 0#8) (ehdrJunk 0#8 1#8) rfl rfl
  rw [ehdrView_junk hbs, ehdrView_junk hbs] at hview
  have hnum := congrArg BitVec.toNat (Prod.mk.inj (Prod.mk.inj (Except.ok.inj hview)).2).2
  have hlow : ∀ b, (ehdrJunk 0#8 b).getD 44 0#8 = 0#8 ∧ (ehdrJunk 0#8 b).getD 45 0#8 = b := fun b =>
    ⟨rfl, rfl⟩
  rw [ePhnum, ePhnum, toNat_le16, toNat_le16] at hnum
  simp only [getD_overwrite, Nat.reduceAdd, hlow, if_neg (Nat.not_lt.mpr (Nat.le_of_lt_succ hshort))] at hnum
  norm_num at hnum

/-- **The program headers that nothing on the stack changes** are the decided ones. -/
theorem phdr_decided_iff {bs : List Byte} (hlen : bs.length ≤ PHDRSZ) :
    PhdrDecided bs ↔ ∀ junk junk' : Phdr, junk.length = PHDRSZ → junk'.length = PHDRSZ →
      phdrView (overwrite junk 0 bs) = phdrView (overwrite junk' 0 bs) := by
  refine ⟨fun h junk junk' _ _ => h.view junk junk', fun h => ?_⟩
  by_contra hno
  obtain ⟨hshort, hbs⟩ := not_decided hlen hno
  have hfix : ∀ b, HasFixed PHDR_FIXED (overwrite (phdrJunk b) 0 bs) := fun b =>
    hasFixed_overwrite (by simp [HasFixed, PHDR_FIXED, PT_LOAD_AT, phdrJunk]) hbs
  have hview := h (phdrJunk 0#8) (phdrJunk 2#8) rfl rfl
  rw [phdrView_of_hasFixed (hfix _), phdrView_of_hasFixed (hfix _)] at hview
  have hflags := (Prod.mk.inj (Prod.mk.inj (Prod.mk.inj (Prod.mk.inj (Option.some.inj hview)).2).2).2).2
  have hbyte : ∀ b, (overwrite (phdrJunk b) 0 bs).getD 24 0#8 = b := by
    intro b
    rw [getD_overwrite, if_neg (Nat.not_lt.mpr (Nat.le_of_lt_succ hshort))]
    rfl
  have hread : pFlags (overwrite (phdrJunk 0#8) 0 bs) &&& PF_W = 0#32 := by
    rw [pFlags_w, hbyte]
    rfl
  have hwrite : pFlags (overwrite (phdrJunk 2#8) 0 bs) &&& PF_W ≠ 0#32 := by
    rw [ne_eq, pFlags_w, hbyte]
    decide
  rw [segFlags, segFlags, if_neg (not_not.mpr hread), if_pos hwrite] at hflags
  exact absurd hflags (by decide)

-- ---------------------------------------------------------------------------
-- The headers that a load reads
-- ---------------------------------------------------------------------------

/-- A header that a load has read, with the bytes that the file has of it. -/
inductive HeaderRead where
  | ehdr (bs : List Byte)
  | phdr (bs : List Byte)

def HeaderRead.Decided : HeaderRead → Prop
  | .ehdr bs => EhdrDecided bs
  | .phdr bs => PhdrDecided bs

/-- What `elf_read_phdr32` reads of header `i`. -/
def phdrBytes (d : Drivers) (f : File FileOps) (ehdr : Ehdr) (i : Nat) : List Byte :=
  (fileRead d.read (fileLseek f (ePhoff ehdr + BitVec.ofNat 32 (i * PHDRSZ)) .seekSet).2 true
    (BitVec.ofNat 32 PHDRSZ)).2.1

/-- The program headers that the loop of `process_load_path` reads. -/
def segmentHeaders (fuel : Nat) (p : Fin PROCESS_MAX) (ehdr : Ehdr) (junk : Nat → Phdr) :
    Nat → Nat → Resources → List HeaderRead
  | 0, _, _ => []
  | n + 1, i, r =>
    let (res, f, phdr) := elfReadPhdr32 r.vfs.drivers (r.pcb p).execfile ehdr i (junk i)
    let r' := r.setProcess p fun pr => { pr with execfile := f }
    if res < 0 then []
    else .phdr (phdrBytes r.vfs.drivers (r.pcb p).execfile ehdr i) ::
      if pType phdr ≠ PT_LOAD then segmentHeaders fuel p ehdr junk n (i + 1) r'
      else
        match loadSegment fuel p r' phdr with
        | some (.ok (res, r)) => if res < 0 then [] else segmentHeaders fuel p ehdr junk n (i + 1) r
        | _ => []

def fileHeaders (fuel : Nat) (junk : StackJunk) (r : Resources) (p : Fin PROCESS_MAX)
    (cwd path : List Byte) : List HeaderRead :=
  match fileOpenPath fuel r.vfs (r.pcb p).execfile cwd path with
  | none => []
  | some o =>
    if o.res < 0 then []
    else
      let (res, bs, _) := fileRead o.vfs.drivers.read o.file true (BitVec.ofNat 32 EHDRSZ)
      if res < 0 then []
      else .ehdr bs ::
        let (res, _, ehdr) := elfReadEhdr32 o.vfs.drivers o.file junk.ehdr
        if res < 0 then []
        else segmentHeaders fuel p ehdr junk.phdr (ePhnum ehdr).toNat 0 (headerRead r p junk o)

/-- The headers that `process_load_path` reads. -/
def pathHeaders (L : Layout) (fuel : Nat) (junk : StackJunk) (r : Resources) (p : Fin PROCESS_MAX)
    (cwd path : List Byte) : List HeaderRead :=
  match loadStart L r p with
  | none => []
  | some (res, r) => if res < 0 then [] else fileHeaders fuel junk r p cwd path

-- ---------------------------------------------------------------------------
-- Two loads with different stacks
-- ---------------------------------------------------------------------------

/-- What a load gives: the result code, the entry address and the page mappings. -/
def loadOutcome (p : Fin PROCESS_MAX) (x : LoadResult) :
    Option (Outcome Unit (Int × Addr × (Nat → Addr → Option (Addr × Perm)))) :=
  x.map fun
    | .ok (res, r) => .ok (res, (r.pcb p).startAddr, r.pm.translate)
    | .fault _ => .fault ()
    | .clobber => .clobber

def SameLoad (p : Fin PROCESS_MAX) (x y : LoadResult) : Prop := loadOutcome p x = loadOutcome p y

section Loads

variable {L : Layout} {fuel : Nat} {p : Fin PROCESS_MAX} {r : Resources} {cwd path : List Byte}

theorem elfReadEhdr32_eq {d : Drivers} {f f' : File FileOps} {res : Int} {bs : List Byte}
    (hread : fileRead d.read f true (BitVec.ofNat 32 EHDRSZ) = (res, bs, f')) (junk : Ehdr) :
    elfReadEhdr32 d f junk =
      (if res < 0 then res else match ehdrView (overwrite junk 0 bs) with
        | .error e => e
        | .ok _ => 0, f', overwrite junk 0 bs) := by
  rw [elfReadEhdr32, hread]
  dsimp only
  by_cases hres : res < 0
  · rw [if_pos hres, if_pos hres]
  · rw [if_neg hres, if_neg hres, ehdrView]
    split
    · rfl
    · split
      · rfl
      · split <;> rfl

/-- A program header, read for two stacks. -/
theorem elfReadPhdr32_junk (d : Drivers) (f : File FileOps) {ehdr ehdr' : Ehdr}
    (hoff : ePhoff ehdr = ePhoff ehdr') (i : Nat) (junk junk' : Phdr) :
    (elfReadPhdr32 d f ehdr i junk).1 = (elfReadPhdr32 d f ehdr' i junk').1 ∧
      (elfReadPhdr32 d f ehdr i junk).2.1 = (elfReadPhdr32 d f ehdr' i junk').2.1 ∧
      (¬ (elfReadPhdr32 d f ehdr i junk).1 < 0 → PhdrDecided (phdrBytes d f ehdr i) →
        phdrView (elfReadPhdr32 d f ehdr i junk).2.2 = phdrView (elfReadPhdr32 d f ehdr' i junk').2.2) := by
  rw [elfReadPhdr32, elfReadPhdr32, phdrBytes, ← hoff]
  rcases fileLseek f (ePhoff ehdr + BitVec.ofNat 32 (i * PHDRSZ)) .seekSet with ⟨res, f₁⟩
  dsimp only
  by_cases hseek : res < 0
  · rw [if_pos hseek, if_pos hseek]
    exact ⟨rfl, rfl, fun h => absurd hseek h⟩
  · rw [if_neg hseek, if_neg hseek]
    rcases fileRead d.read f₁ true (BitVec.ofNat 32 PHDRSZ) with ⟨res', bs, f₂⟩
    dsimp only
    by_cases hres : res' < 0
    · rw [if_pos hres, if_pos hres]
      exact ⟨rfl, rfl, fun h => absurd hres h⟩
    · rw [if_neg hres, if_neg hres]
      exact ⟨rfl, rfl, fun _ hdec => hdec.view junk junk'⟩

theorem pType_of_view {phdr phdr' : Phdr} (hview : phdrView phdr = phdrView phdr')
    (htype : pType phdr = PT_LOAD) : pType phdr' = PT_LOAD := by
  by_contra htype'
  rw [phdrView, phdrView, if_neg (not_not.mpr htype), if_pos htype'] at hview
  cases hview

/-- To load a segment is to use the fields that the code makes of its header. -/
theorem loadSegment_congr {phdr phdr' : Phdr} (hview : phdrView phdr = phdrView phdr')
    (htype : pType phdr = PT_LOAD) : loadSegment fuel p r phdr = loadSegment fuel p r phdr' := by
  have htype' := pType_of_view hview htype
  rw [phdrView, phdrView, if_neg (not_not.mpr htype), if_neg (not_not.mpr htype')] at hview
  obtain ⟨hoff, hview⟩ := Prod.mk.inj (Option.some.inj hview)
  obtain ⟨hvaddr, hview⟩ := Prod.mk.inj hview
  obtain ⟨hfilesz, hview⟩ := Prod.mk.inj hview
  obtain ⟨hmemsz, hflags⟩ := Prod.mk.inj hview
  have hv : segVaddr phdr = segVaddr phdr' := by rw [segVaddr, segVaddr, hvaddr]
  have hsize : segSize phdr = segSize phdr' := by rw [segSize, segSize, hv, hvaddr, hmemsz]
  have hload : ∀ d cr3 f m, elfLoadSeg32 d fuel cr3 f m phdr = elfLoadSeg32 d fuel cr3 f m phdr' := by
    intro d cr3 f m
    rw [elfLoadSeg32, elfLoadSeg32, hoff, hvaddr, hfilesz, hmemsz]
  rw [loadSegment, loadSegment, hv, hsize, hflags]
  simp only [hload]

/-- The segment loop, for two stacks. -/
theorem loadSegments_junk {ehdr ehdr' : Ehdr} (hoff : ePhoff ehdr = ePhoff ehdr') {junk : Nat → Phdr}
    (junk' : Nat → Phdr) {n i : Nat} (h : ∀ x ∈ segmentHeaders fuel p ehdr junk n i r, x.Decided) :
    loadSegments fuel p ehdr junk n i r = loadSegments fuel p ehdr' junk' n i r := by
  induction n generalizing i r with
  | zero => rfl
  | succ n ih =>
    obtain ⟨hres, hfile, hview⟩ := elfReadPhdr32_junk r.vfs.drivers (r.pcb p).execfile hoff i (junk i)
      (junk' i)
    rw [segmentHeaders] at h
    rw [loadSegments, loadSegments]
    dsimp only at h ⊢
    rw [← hres, ← hfile]
    by_cases hneg : (elfReadPhdr32 r.vfs.drivers (r.pcb p).execfile ehdr i (junk i)).1 < 0
    · rw [if_pos hneg, if_pos hneg]
    · rw [if_neg hneg] at h ⊢
      rw [if_neg hneg]
      obtain ⟨hhead, hrest⟩ := List.forall_mem_cons.mp h
      have hview := hview hneg hhead
      set r₁ := r.setProcess p fun pr => { pr with
        execfile := (elfReadPhdr32 r.vfs.drivers (r.pcb p).execfile ehdr i (junk i)).2.1 }
      set phdr := (elfReadPhdr32 r.vfs.drivers (r.pcb p).execfile ehdr i (junk i)).2.2
      set phdr' := (elfReadPhdr32 r.vfs.drivers (r.pcb p).execfile ehdr' i (junk' i)).2.2
      by_cases htype : pType phdr = PT_LOAD
      · have hload : loadSegment fuel p r₁ phdr = loadSegment fuel p r₁ phdr' :=
          loadSegment_congr hview htype
        rw [if_neg (not_not.mpr htype)] at hrest ⊢
        rw [if_neg (not_not.mpr (pType_of_view hview htype)), ← hload]
        rcases hrun : loadSegment fuel p r₁ phdr with _ | ⟨res, r₂⟩ | _ | _
        · rfl
        · rw [hrun] at hrest
          dsimp only at hrest ⊢
          by_cases hseg : res < 0
          · rw [if_pos hseg, if_pos hseg]
          · rw [if_neg hseg] at hrest ⊢
            rw [if_neg hseg]
            exact ih hrest
        · rfl
        · rfl
      · rw [if_pos htype] at hrest ⊢
        rw [if_pos fun htype' => htype (pType_of_view hview.symm htype')]
        exact ih hrest

/-- A file, loaded for two stacks. -/
theorem loadFile_junk {junk : StackJunk} (junk' : StackJunk)
    (h : ∀ x ∈ fileHeaders fuel junk r p cwd path, x.Decided) :
    loadFile fuel junk r p cwd path = loadFile fuel junk' r p cwd path := by
  rw [fileHeaders] at h
  rw [loadFile, loadFile]
  rcases hopen : fileOpenPath fuel r.vfs (r.pcb p).execfile cwd path with _ | ⟨res, file, vfs⟩
  · rfl
  · rw [hopen] at h
    dsimp only at h ⊢
    by_cases hres : res < 0
    · rw [if_pos hres, if_pos hres]
    · rw [if_neg hres] at h ⊢
      rw [if_neg hres]
      rcases hread : fileRead vfs.drivers.read file true (BitVec.ofNat 32 EHDRSZ) with ⟨res', bs, f⟩
      have hehdr := elfReadEhdr32_eq hread junk.ehdr
      rw [hread] at h
      rw [elfReadEhdr32_eq hread junk'.ehdr]
      dsimp only at h
      by_cases hneg : res' < 0
      · rw [if_pos hneg] at hehdr ⊢
        rw [hehdr]
        dsimp only
        rw [if_pos hneg, if_pos hneg]
      · rw [if_neg hneg] at h hehdr ⊢
        obtain ⟨hhead, hrest⟩ := List.forall_mem_cons.mp h
        have hview := EhdrDecided.view hhead junk.ehdr junk'.ehdr
        rw [← hview]
        rcases hcase : ehdrView (overwrite junk.ehdr 0 bs) with e | ⟨entry, phoff, phnum⟩
        · have he := ehdrView_error hcase
          rw [hcase] at hehdr
          dsimp only at hehdr ⊢
          rw [hehdr]
          dsimp only
          rw [if_pos he, if_pos he]
        · obtain ⟨hentry, hoff, hnum⟩ := ehdrView_ok hcase
          obtain ⟨hentry', hoff', hnum'⟩ := ehdrView_ok (hview.symm.trans hcase)
          rw [hcase] at hehdr
          rw [hehdr] at hrest
          rw [hehdr]
          dsimp only at hrest ⊢
          rw [if_neg (Int.lt_irrefl 0)] at hrest ⊢
          rw [if_neg (Int.lt_irrefl 0), hentry', ← hentry, hnum', ← hnum]
          rw [headerRead, hehdr] at hrest
          dsimp only at hrest
          rw [loadSegments_junk (hoff.trans hoff'.symm) junk'.phdr hrest]

theorem processLoadPath_junk {junk : StackJunk} (junk' : StackJunk)
    (h : ∀ x ∈ pathHeaders L fuel junk r p cwd path, x.Decided) :
    processLoadPath L fuel junk r p cwd path = processLoadPath L fuel junk' r p cwd path := by
  rw [pathHeaders] at h
  rw [processLoadPath_eq, processLoadPath_eq]
  rcases hstart : loadStart L r p with _ | ⟨res, r₁⟩
  · rfl
  · rw [hstart] at h
    dsimp only at h ⊢
    by_cases hres : res < 0
    · rw [if_pos hres, if_pos hres]
    · rw [if_neg hres] at h ⊢
      rw [if_neg hres]
      exact loadFile_junk junk' h

/-- **The outcome of a load depends only on the file**, if the file decides every header
that the load reads: for any other stack the load gives the same result code, the same
entry address and the same page mappings. -/
theorem processLoadPath_fromFile {junk : StackJunk}
    (h : ∀ x ∈ pathHeaders L fuel junk r p cwd path, x.Decided) (junk' : StackJunk) :
    SameLoad p (processLoadPath L fuel junk r p cwd path) (processLoadPath L fuel junk' r p cwd path) := by
  rw [SameLoad, processLoadPath_junk junk' h]

-- ---------------------------------------------------------------------------
-- Files that end in the ELF header
-- ---------------------------------------------------------------------------

/-- The stack makes an executable without segments out of such a file. -/
theorem loadFile_cut_run {o : Opened}
    (ho : fileOpenPath fuel r.vfs (r.pcb p).execfile cwd path = some o) (hres : ¬ o.res < 0) {res : Int}
    {bs : List Byte} {f : File FileOps}
    (hread : fileRead o.vfs.drivers.read o.file true (BitVec.ofNat 32 EHDRSZ) = (res, bs, f))
    (hres' : ¬ res < 0) (hshort : bs.length < 28) (hbs : ¬ EhdrDecided bs) (entry : Byte)
    (phdr : Nat → Phdr) :
    loadOutcome p (loadFile fuel ⟨ehdrJunk entry 0#8, phdr⟩ r p cwd path) =
      some (.ok (0, eEntry (overwrite (ehdrJunk entry 0#8) 0 bs), r.pm.translate)) := by
  obtain ⟨-, hfix⟩ := not_decided (Nat.le_of_lt (Nat.lt_trans hshort (by decide))) hbs
  have hnum : ePhnum (overwrite (ehdrJunk entry 0#8) 0 bs) = 0#16 := by
    have h44 : (ehdrJunk entry 0#8).getD 44 0#8 = 0#8 := rfl
    have h45 : (ehdrJunk entry 0#8).getD (44 + 1) 0#8 = 0#8 := rfl
    rw [ePhnum, le16, getD_overwrite, getD_overwrite, if_neg (by omega), if_neg (by omega), h44, h45]
    rfl
  rw [loadFile, ho]
  dsimp only
  rw [if_neg hres, elfReadEhdr32_eq hread, if_neg hres', ehdrView_junk hfix]
  dsimp only
  rw [if_neg (Int.lt_irrefl 0), hnum]
  simp [loadSegments, loadOutcome, Resources.setProcess]

/-- **An executable that ends before the end of `e_entry`** is loaded for some stacks, and
gets an entry address from the stack. -/
theorem loadFile_cut {o : Opened}
    (ho : fileOpenPath fuel r.vfs (r.pcb p).execfile cwd path = some o) (hres : ¬ o.res < 0) {res : Int}
    {bs : List Byte} {f : File FileOps}
    (hread : fileRead o.vfs.drivers.read o.file true (BitVec.ofNat 32 EHDRSZ) = (res, bs, f))
    (hres' : ¬ res < 0) (hshort : bs.length < 28) (hbs : ¬ EhdrDecided bs) (phdr : Nat → Phdr) :
    ¬ SameLoad p (loadFile fuel ⟨ehdrJunk 0#8 0#8, phdr⟩ r p cwd path)
      (loadFile fuel ⟨ehdrJunk 1#8 0#8, phdr⟩ r p cwd path) := by
  have hrun := loadFile_cut_run ho hres hread hres' hshort hbs
  intro hsame
  rw [SameLoad, hrun, hrun] at hsame
  have hentry := congrArg BitVec.toNat
    (Prod.mk.inj (Prod.mk.inj (Outcome.ok.inj (Option.some.inj hsame))).2).1
  have hlast : ∀ b, (overwrite (ehdrJunk b 0#8) 0 bs).getD 27 0#8 = b := by
    intro b
    rw [getD_overwrite, if_neg (by omega)]
    rfl
  have hag : ∀ i < 27, (overwrite (ehdrJunk 0#8 0#8) 0 bs).getD i 0#8 =
      (overwrite (ehdrJunk 1#8 0#8) 0 bs).getD i 0#8 := by
    intro i hi
    rw [getD_overwrite, getD_overwrite]
    split
    · rfl
    · interval_cases i <;> rfl
  rw [eEntry, eEntry, toNat_le32, toNat_le32] at hentry
  simp only [Nat.reduceAdd, hlast, hag 24 (by omega), hag 25 (by omega), hag 26 (by omega)] at hentry
  norm_num at hentry

end Loads

-- ---------------------------------------------------------------------------
-- A whole executable, and one that is cut
-- ---------------------------------------------------------------------------

/-- An executable with one program header, and both headers in the file. -/
def WholeHeaders (o : Opened) : Prop :=
  let h := fileRead o.vfs.drivers.read o.file true (BitVec.ofNat 32 EHDRSZ)
  let e := elfReadEhdr32 o.vfs.drivers o.file zeroJunk.ehdr
  o.res = 0 ∧ h.1 = 52 ∧ EhdrDecided h.2.1 ∧ e.1 = 0 ∧ ePhnum e.2.2 = 1#16 ∧
    PhdrDecided (phdrBytes o.vfs.drivers e.2.1 e.2.2 0)

instance (o : Opened) : Decidable (WholeHeaders o) := inferInstanceAs (Decidable (_ ∧ _))

theorem WholeHeaders.decided {o : Opened} (ho : WholeHeaders o) {fuel : Nat} {r : Resources}
    {p : Fin PROCESS_MAX} {cwd path : List Byte}
    (hopen : fileOpenPath fuel r.vfs (r.pcb p).execfile cwd path = some o) :
    ∀ x ∈ fileHeaders fuel zeroJunk r p cwd path, x.Decided := by
  obtain ⟨hres, hread, hehdr, hres', hnum, hphdr⟩ := ho
  have hfile : ((headerRead r p zeroJunk o).pcb p).execfile =
      (elfReadEhdr32 o.vfs.drivers o.file zeroJunk.ehdr).2.1 := by
    simp [headerRead, Resources.setProcess]
  have hvfs : (headerRead r p zeroJunk o).vfs = o.vfs := rfl
  rw [fileHeaders, hopen]
  dsimp only
  rw [if_neg (by omega), if_neg (by omega), if_neg (by omega), hnum]
  refine List.forall_mem_cons.mpr ⟨hehdr, ?_⟩
  change ∀ x ∈ segmentHeaders fuel p _ zeroJunk.phdr (0 + 1) 0 _, x.Decided
  rw [segmentHeaders, hfile, hvfs]
  dsimp only
  split
  · exact List.forall_mem_nil _
  · refine List.forall_mem_cons.mpr ⟨hphdr, ?_⟩
    split
    · exact List.forall_mem_nil _
    · split
      · split <;> exact List.forall_mem_nil _
      · exact List.forall_mem_nil _

theorem opens_whole :
    (fileOpenPath 4 (rootVfs (progArchive 1#8 0x400001#32)) (File.zero FileOps) (bytes "/bin")
      (bytes "prog")).any (fun o => WholeHeaders o) = true := by
  decide +kernel

theorem processLoadPath_fromFile_prog :
    ∃ r : Resources, r.Reachable exampleLayout ∧
      r.vfs = rootVfs (progArchive 1#8 0x400001#32) ∧ ∀ junk' : StackJunk,
      SameLoad ⟨0, by decide⟩
        (processLoadPath exampleLayout 4 zeroJunk r ⟨0, by decide⟩ (bytes "/bin") (bytes "prog"))
        (processLoadPath exampleLayout 4 junk' r ⟨0, by decide⟩ (bytes "/bin") (bytes "prog")) := by
  obtain ⟨o, ho, hprop⟩ := (Option.any_eq_true _ _).mp opens_whole
  have hwhole : WholeHeaders o := of_decide_eq_true hprop
  obtain ⟨r, hboot, hvfs, -⟩ := exists_booted (rootVfs (progArchive 1#8 0x400001#32))
  refine ⟨r, .boot hboot, hvfs, fun junk' => processLoadPath_fromFile (fun x hx => ?_) junk'⟩
  rw [pathHeaders] at hx
  rcases hstart : loadStart exampleLayout r ⟨0, by decide⟩ with _ | ⟨res, r₁⟩
  · rw [hstart] at hx
    cases hx
  · rw [hstart] at hx
    dsimp only at hx
    split at hx
    · cases hx
    · rename_i hres
      obtain ⟨-, -, -, hvfs₁, hfile₁⟩ := loadStart_spec hboot.inOrder hstart hres
      exact hwhole.decided (by rw [hvfs₁, hvfs, hfile₁]; exact ho) x hx

/-- The first 20 bytes of an executable, in an archive under the name `bin/prog`. -/
def cutEntry : Record :=
  { elfEntry ELFCLASS32 0x400001#32 with
    header := bytes ("070701" ++ "00000001" ++ "000081A4" ++ "00000000" ++ "00000000" ++ "00000001" ++
      "00000000" ++ "00000014" ++ "00000000" ++ "00000000" ++ "00000000" ++ "00000000" ++
      "00000009" ++ "00000000")
    data := (elfFile ELFCLASS32 0x400001#32).take 20
    dataPad := []
    header_length := by decide
    magic := by decide
    fields_hex := by decide +kernel
    namesize := by decide +kernel
    filesize := by decide +kernel
    dataPad_length := by decide }

def cutArchive : Archive where
  entries := [cutEntry]
  trailer := helloTrailer
  rest := []
  entries_name := by
    intro r hr
    obtain rfl := List.mem_singleton.mp hr
    change bytes "bin/prog" ≠ _
    decide
  trailer_name := helloArchive.trailer_name
  trailer_data := helloArchive.trailer_data
  size_lt := by decide +kernel

/-- The file ends before `e_entry`, and what there is of its header is right. -/
theorem opens_cut :
    (fileOpenPath 4 (rootVfs cutArchive) (File.zero FileOps) (bytes "/bin") (bytes "prog")).any (fun o =>
      let h := fileRead o.vfs.drivers.read o.file true (BitVec.ofNat 32 EHDRSZ)
      o.res = 0 ∧ h.1 = 20 ∧ h.2.1.length = 20 ∧ ¬ EhdrDecided h.2.1) = true := by
  decide +kernel

/-- It is loaded with an entry address that depends on the stack. -/
theorem processLoadPath_reads_stack :
    ∃ (r : Resources) (junk junk' : StackJunk), r.Reachable exampleLayout ∧ r.vfs = rootVfs cutArchive ∧
      ¬ SameLoad ⟨0, by decide⟩
        (processLoadPath exampleLayout 4 junk r ⟨0, by decide⟩ (bytes "/bin") (bytes "prog"))
        (processLoadPath exampleLayout 4 junk' r ⟨0, by decide⟩ (bytes "/bin") (bytes "prog")) := by
  obtain ⟨o, ho, hprop⟩ := (Option.any_eq_true _ _).mp opens_cut
  obtain ⟨hres, hread, hlen, hbs⟩ := of_decide_eq_true hprop
  rcases hq : fileRead o.vfs.drivers.read o.file true (BitVec.ofNat 32 EHDRSZ) with ⟨res, bs, f⟩
  rw [hq] at hread hlen hbs
  dsimp only at hread hlen hbs
  obtain ⟨r, hboot, hvfs, hused⟩ := exists_booted (rootVfs cutArchive)
  obtain ⟨r₁, hstart, -⟩ := loadStart_room (L := exampleLayout) (p := ⟨0, by decide⟩) hboot.inOrder
    (show r.pm.used.card + 3 ≤ PHYSPAGES_MAX from Nat.add_le_add_right hused 3)
  obtain ⟨-, -, -, hvfs₁, hfile₁⟩ := loadStart_spec hboot.inOrder hstart (by decide)
  rw [← hvfs, ← hvfs₁, ← hfile₁] at ho
  refine ⟨r, ⟨ehdrJunk 0#8 0#8, zeroJunk.phdr⟩, ⟨ehdrJunk 1#8 0#8, zeroJunk.phdr⟩, .boot hboot, hvfs, ?_⟩
  rw [processLoadPath_eq, processLoadPath_eq, hstart]
  dsimp only
  rw [if_neg (Int.lt_irrefl 0), if_neg (Int.lt_irrefl 0)]
  exact loadFile_cut ho (by omega) hq (by omega) (by omega) hbs zeroJunk.phdr

end Munix
