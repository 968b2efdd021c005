import Munix.Kernel.Process
import Munix.Kernel.PagemapClose

/-!
# Munix — what the loader makes accessible

`addrspc_init` maps the kernel for the supervisor only, and `process_load_path`
then maps the stack and the segments of the file for user mode. Stores that do
not hit kernel memory leave every page map as it is (`PmInv.keepTables`), so
that the mappings alone decide: each segment is an exact mapping of its pages
(`addrspcMap_spec`), and the kernel stays hidden exactly when no segment begins
below its end.
-/

namespace Munix

open ByteMem

-- ---------------------------------------------------------------------------
-- Stores outside kernel memory
-- ---------------------------------------------------------------------------

/-- Kernel memory is the same. -/
def KernelKept (m m' : Mem) : Prop := ∀ a : Addr, a < KMAP_MAX → m' a = m a

theorem KernelKept.refl (m : Mem) : KernelKept m m := fun _ _ => rfl

theorem KernelKept.trans {m₁ m₂ m₃ : Mem} (h : KernelKept m₁ m₂) (h' : KernelKept m₂ m₃) :
    KernelKept m₁ m₃ :=
  fun a ha => (h' a ha).trans (h a ha)

/-- `P` of the state at a fault, and `Q` of a result. -/
def Outcome.All {ε α : Type} (P : ε → Prop) (Q : α → Prop) : Outcome ε α → Prop
  | .ok a => Q a
  | .fault e => P e
  | .clobber => True

theorem Outcome.All.mono {ε α : Type} {P P' : ε → Prop} {Q Q' : α → Prop} {o : Outcome ε α}
    (h : o.All P Q) (hP : ∀ e, P e → P' e) (hQ : ∀ a, Q a → Q' a) : o.All P' Q' := by
  cases o with
  | ok a => exact hQ a h
  | fault e => exact hP e h
  | clobber => trivial

theorem storeV_kept (cr3 : Pme) (m : Mem) (va : Addr) (b : Byte) :
    (storeV cr3 m va b).All (KernelKept m) (KernelKept m) := by
  unfold storeV
  split
  · exact .refl m
  · rename_i pa _ _
    split
    · trivial
    · rename_i hpa
      intro a ha
      refine store8_ne ?_
      rintro rfl
      exact hpa ha

theorem storeBytesV_kept (cr3 : Pme) (bs : List Byte) (m : Mem) (va : Addr) :
    (storeBytesV cr3 m va bs).All (KernelKept m) (KernelKept m) := by
  induction bs generalizing m va with
  | nil => exact .refl m
  | cons b bs ih =>
    have h := storeV_kept cr3 m va b
    rw [storeBytesV]
    split <;> rename_i heq <;> rw [heq] at h
    · exact (ih _ _).mono (fun _ => h.trans) fun _ => h.trans
    · exact h
    · trivial

/-- To set memory is to store the same byte again and again. -/
theorem memsetV_eq (cr3 : Pme) (m : Mem) (va : Addr) (c : Byte) (n : Nat) :
    memsetV cr3 m va c n = storeBytesV cr3 m va (List.replicate n c) := by
  induction n generalizing m va with
  | zero => rfl
  | succ n ih =>
    rw [memsetV, List.replicate_succ, storeBytesV]
    cases storeV cr3 m va c with
    | ok m' => exact ih m' (va + 1#32)
    | fault m' => rfl
    | clobber => rfl

theorem memsetV_kept (cr3 : Pme) (c : Byte) (n : Nat) (m : Mem) (va : Addr) :
    (memsetV cr3 m va c n).All (KernelKept m) (KernelKept m) := by
  rw [memsetV_eq]
  exact storeBytesV_kept cr3 (List.replicate n c) m va

-- ---------------------------------------------------------------------------
-- Page maps under such stores
-- ---------------------------------------------------------------------------

section Tables

variable {st : PmState} {m' : Mem}

/-- The tables are in kernel memory. -/
theorem tbl_kept (hm : KernelKept st.mem m') (i : Fin PHYSPAGES_MAX) {t : Nat} (ht : t < 1024) :
    PmState.tbl { st with mem := m' } i t = st.tbl i t := by
  apply load32_congr
  intro j hj
  apply hm
  have hent := tblEntry_toNat i ht
  have hi : i.val < 5 := i.isLt
  unfold KMAP_MAX
  bv_omega

theorem pde_kept (hinv : PmInv st) (hm : KernelKept st.mem m') {s d : Nat}
    (hs : st.Present (.root s)) (hd : d < 1024) :
    PmState.pde { st with mem := m' } s d = st.pde s d := by
  obtain ⟨r, hr⟩ := hinv.exists_designates hs
  have hr' : PmState.Designates { st with mem := m' } (.root s) r := hr
  rw [pde_eq_tbl hr, pde_eq_tbl hr', tbl_kept hm r hd]

theorem present_kept (hinv : PmInv st) (hm : KernelKept st.mem m') (e : TableRef) :
    PmState.Present { st with mem := m' } e ↔ st.Present e := by
  cases e with
  | root s => exact Iff.rfl
  | pde s d =>
    refine and_congr_right fun hs => and_congr_right fun hd => ?_
    rw [pde_kept hinv hm hs hd]

theorem designates_kept (hinv : PmInv st) (hm : KernelKept st.mem m') (e : TableRef)
    (i : Fin PHYSPAGES_MAX) :
    PmState.Designates { st with mem := m' } e i ↔ st.Designates e i := by
  rw [PmState.Designates, PmState.Designates, present_kept hinv hm]
  refine and_congr_right fun he => ?_
  cases e with
  | root s => exact Iff.rfl
  | pde s d =>
    rw [PmState.entry, PmState.entry, pde_kept hinv hm he.1 he.2.1]

theorem pte_kept (hinv : PmInv st) (hm : KernelKept st.mem m') {s d t : Nat}
    (hp : st.Present (.pde s d)) (ht : t < 1024) :
    PmState.pte { st with mem := m' } s d t = st.pte s d t := by
  obtain ⟨j, hj⟩ := hinv.exists_designates hp
  have hj' := (designates_kept hinv hm (.pde s d) j).mpr hj
  rw [pte_eq_tbl hj, pte_eq_tbl hj', tbl_kept hm j ht]

/-- **Stores outside kernel memory keep the page maps** in order. -/
theorem PmInv.keepTables (hinv : PmInv st) (hm : KernelKept st.mem m') :
    PmInv { st with mem := m' } where
  owned := hinv.owned.congr (present_kept hinv hm) (designates_kept hinv hm) fun _ => Iff.rfl
  pool := hinv.pool
  perm := by
    intro s d t hp ht hpres
    have hp := (present_kept hinv hm _).mp hp
    rw [pte_kept hinv hm hp ht] at hpres ⊢
    rw [pde_kept hinv hm hp.1 hp.2.1]
    exact hinv.perm s d t hp ht hpres

theorem view_kept (hinv : PmInv st) (hm : KernelKept st.mem m') (s : Nat) {x : Nat}
    (hx : x < 2 ^ 20) : PmState.view { st with mem := m' } s x = st.view s x := by
  have hinv' := hinv.keepTables hm
  by_cases hp : st.Present (.pde s (x / 1024))
  · rw [view_eq_of_present hinv hp, view_eq_of_present hinv' ((present_kept hinv hm _).mpr hp),
      pte_kept hinv hm hp (Nat.mod_lt _ (by decide))]
  · rw [view_eq_none_of_absent hx hp,
      view_eq_none_of_absent hx (fun h => hp ((present_kept hinv hm _).mp h))]

end Tables

-- ---------------------------------------------------------------------------
-- The kernel's pages
-- ---------------------------------------------------------------------------

/-- No page of the kernel can be accessed at user privilege in space `s`. -/
def PmState.KernelHidden (st : PmState) (s : Nat) : Prop :=
  ∀ va : Addr, KMAP_MIN ≤ va → va < KMAP_MAX → ∀ pa perm, st.translate s va = some (pa, perm) →
    perm.user = false

/-- The page of an address, counted from the start of a range. -/
theorem page_of_range {lo a : Addr} (hlo : lo.toNat % 4096 = 0) (h : lo.toNat ≤ a.toNat) :
    lo + BitVec.ofNat 32 (4096 * (a.toNat / 4096 - lo.toNat / 4096)) = a &&& ~~~0xfff#32 := by
  have hlt := a.isLt
  have hand : (a &&& ~~~0xfff#32).toNat = a.toNat / 2 ^ 12 * 2 ^ 12 := and_not_low_toNat a 12
  apply BitVec.eq_of_toNat_eq
  rw [hand, BitVec.toNat_add, BitVec.toNat_ofNat]
  omega

/-- The page of an address, as the tables have it. -/
theorem ofNat_page (a : Addr) : BitVec.ofNat 32 (4096 * (a.toNat / 4096)) = a &&& ~~~0xfff#32 := by
  have hpage := @page_of_range 0#32 a rfl (Nat.zero_le _)
  simpa using hpage

/-- The address of a page and the offset in it make up the address. -/
theorem page_or_offset (a : Addr) : (a &&& ~~~0xfff#32) ||| (a &&& 0xfff#32) = a := by
  rw [← BitVec.and_or_distrib_left, BitVec.or_comm, BitVec.or_not_self, BitVec.and_allOnes]

/-- An address is translated as its page is. -/
theorem translate_eq_map_view (st : PmState) (s : Nat) (va : Addr) :
    st.translate s va =
      (st.view s (va.toNat / 4096)).map fun t => (t.1 ||| (va &&& 0xfff#32), t.2) := by
  have hd : va.toNat / 4096 / 1024 = va.toNat / 2 ^ 22 := by omega
  have ht : va.toNat / 4096 % 1024 = va.toNat / 2 ^ 12 % 1024 := by omega
  simp only [PmState.translate, hwWalk, PmState.view, PmState.pde, PmState.pte, pdeAddr, pteAddr,
    hd, ht, apply_ite (Option.map _), Option.map_some, Option.map_none]
  rfl

theorem kernelHidden_iff (st : PmState) (s : Nat) :
    st.KernelHidden s ↔ ∀ x, x < 1024 → ∀ pa perm, st.view s x = some (pa, perm) →
      perm.user = false := by
  constructor
  · intro h x hx pa perm hv
    have hva : (BitVec.ofNat 32 (4096 * x)).toNat = 4096 * x := by
      rw [BitVec.toNat_ofNat, Nat.mod_eq_of_lt (by omega)]
    refine h (BitVec.ofNat 32 (4096 * x)) (by simp [KMAP_MIN]) ?_ _ perm (by
      rw [translate_eq_map_view, hva, Nat.mul_div_cancel_left x (by decide), hv]
      rfl)
    unfold KMAP_MAX
    bv_omega
  · intro h va _ hva pa perm ht
    rw [translate_eq_map_view, Option.map_eq_some_iff] at ht
    obtain ⟨⟨pa', perm'⟩, hv, heq⟩ := ht
    obtain ⟨-, rfl⟩ := Prod.mk.inj heq
    refine h (va.toNat / 4096) ?_ pa' perm' hv
    unfold KMAP_MAX at hva
    bv_omega

-- ---------------------------------------------------------------------------
-- Mapping a segment
-- ---------------------------------------------------------------------------

/-- The segment leaves the kernel's pages alone. -/
def SegAbove (phdr : Phdr) : Prop := KMAP_MAX ≤ segVaddr phdr ∨ segSize phdr = 0#32

theorem segSize_aligned (phdr : Phdr) : (segSize phdr).toNat % 4096 = 0 := by
  have hup : (alignUp (pVaddr phdr + pMemsz phdr) PAGESZ).toNat % 4096 = 0 := by
    have h := and_not_low_toNat (pVaddr phdr + pMemsz phdr + 4095#32) 12
    have h' : (alignUp (pVaddr phdr + pMemsz phdr) PAGESZ).toNat =
        (pVaddr phdr + pMemsz phdr + 4095#32).toNat / 2 ^ 12 * 2 ^ 12 := h
    omega
  have hdown : (segVaddr phdr).toNat % 4096 = 0 := by
    rw [segVaddr, PAGESZ, alignDown_toNat]
    omega
  unfold segSize
  bv_omega

theorem segFlags_flagSet (phdr : Phdr) : FlagSet (segFlags phdr) := by
  unfold segFlags
  split <;> decide

theorem segFlags_user (phdr : Phdr) : (pmePerm (segFlags phdr)).user = true := by
  unfold segFlags
  split <;> decide

/-- Mapping a range above the kernel keeps it hidden. -/
theorem MapTo.kernelHidden {st st' : PmState} {s p n : Nat} {paddr : BitVec 32} {flags : Pme}
    (h : MapTo st st' s p n paddr flags) (hp : 1024 ≤ p ∨ n = 0) :
    st'.KernelHidden s ↔ st.KernelHidden s := by
  rw [kernelHidden_iff, kernelHidden_iff]
  refine forall_congr' fun x => forall_congr' fun hx => ?_
  rw [h.view x (by omega), if_neg (by omega)]

/-- Mapping a segment: it is the segment's first page that shows. -/
theorem addrspcMap_segment {st st' : PmState} (hinv : PmInv st) {s : Nat} {phdr : Phdr}
    (h : addrspcMap st s (segVaddr phdr) (segVaddr phdr) (segSize phdr) (segFlags phdr) =
      some (0, st')) :
    PmInv st' ∧ (st'.KernelHidden s ↔ st.KernelHidden s ∧ SegAbove phdr) := by
  obtain ⟨res, st'', n, hrun, hmap, -, hend⟩ := addrspcMap_spec hinv s (segVaddr phdr)
    (segVaddr phdr) (segSize phdr) (segFlags_flagSet phdr)
  rw [h] at hrun
  obtain ⟨rfl, rfl⟩ : 0 = res ∧ st' = st'' := by simpa using hrun
  have hal := segSize_aligned phdr
  have hvlt := (segVaddr phdr).isLt
  have hslt := (segSize phdr).isLt
  have hup : (alignUp (segSize phdr) PAGESZ).toNat / 4096 = (segSize phdr).toNat / 4096 := by
    rw [PAGESZ, alignUp_toNat (by omega)]
    omega
  have hn : n = min ((segSize phdr).toNat / 4096) (2 ^ 20 - (segVaddr phdr).toNat / 4096) := by
    rcases hend with ⟨-, hn⟩ | ⟨h0, -⟩
    · rw [hn, hup]
    · simp [ENOMEM] at h0
  have hva : KMAP_MAX ≤ segVaddr phdr ↔ 1024 ≤ (segVaddr phdr).toNat / 4096 := by
    unfold KMAP_MAX
    bv_omega
  have hsz : segSize phdr = 0#32 ↔ n = 0 := by
    constructor
    · intro h0
      rw [hn, h0]
      simp
    · intro h0
      have : (segSize phdr).toNat = 0 := by omega
      exact BitVec.eq_of_toNat_eq this
  refine ⟨hmap.inv, ?_⟩
  rw [SegAbove, hva, hsz]
  by_cases habove : 1024 ≤ (segVaddr phdr).toNat / 4096 ∨ n = 0
  · rw [hmap.kernelHidden habove]
    exact (and_iff_left habove).symm
  · refine iff_of_false ?_ fun h => habove h.2
    intro hhid
    have huser := (kernelHidden_iff st' s).mp hhid ((segVaddr phdr).toNat / 4096) (by omega) _ _ (by
      rw [hmap.view _ (by omega), if_pos (by omega)])
    rw [segFlags_user] at huser
    cases huser

-- ---------------------------------------------------------------------------
-- Program headers
-- ---------------------------------------------------------------------------

theorem elfReadEhdr32_sameFile (d : Drivers) (f : File FileOps) (junk : Ehdr) :
    SameFile f (elfReadEhdr32 d f junk).2.1 := by
  have h := fileRead_sameFile d.read f true (BitVec.ofNat 32 EHDRSZ)
  rw [elfReadEhdr32]
  dsimp only
  repeat' split
  all_goals exact h

theorem elfReadPhdr32_sameFile (d : Drivers) (f : File FileOps) (ehdr : Ehdr) (i : Nat) (junk : Phdr) :
    SameFile f (elfReadPhdr32 d f ehdr i junk).2.1 := by
  have hseek := fileLseek_sameFile f (ePhoff ehdr + BitVec.ofNat 32 (i * PHDRSZ)) .seekSet
  have hread := fileRead_sameFile d.read
    (fileLseek f (ePhoff ehdr + BitVec.ofNat 32 (i * PHDRSZ)) .seekSet).2 true
    (BitVec.ofNat 32 PHDRSZ)
  rw [elfReadPhdr32]
  dsimp only
  split
  · exact hseek
  · split
    · exact hseek.trans hread
    · exact hseek.trans hread

section Segments

variable {d : Drivers} {cr3 : Pme} {fuel : Nat} {f : File FileOps} {m : Mem}

theorem segCopyLoop_spec {fend vpos : Addr}
    {o : Outcome Mem (Int × File FileOps × Mem × Addr)}
    (h : segCopyLoop d cr3 fend fuel f m vpos = some o) :
    o.All (KernelKept m) fun a => SameFile f a.2.1 ∧ KernelKept m a.2.2.1 := by
  induction fuel generalizing f m vpos with
  | zero => cases h
  | succ fuel ih =>
    rw [segCopyLoop] at h
    split at h
    · have hread := fileRead_sameFile d.read f (vpos != 0#32) (fend - vpos)
      have hstore := storeBytesV_kept cr3 (fileRead d.read f (vpos != 0#32) (fend - vpos)).2.1 m vpos
      dsimp only at h
      split at h <;> rename_i heq <;> rw [heq] at hstore
      · split at h
        · cases h
          exact ⟨hread, hstore⟩
        · exact (ih h).mono (fun _ => hstore.trans) fun _ ha => ⟨hread.trans ha.1, hstore.trans ha.2⟩
      · cases h
        exact hstore
      · cases h
        trivial
    · cases h
      exact ⟨.refl f, .refl m⟩

/-- Loading a segment moves the file position and writes outside kernel memory. -/
theorem elfLoadSeg32_spec {phdr : Phdr} {o : Outcome Mem (Int × File FileOps × Mem)}
    (h : elfLoadSeg32 d fuel cr3 f m phdr = some o) :
    o.All (KernelKept m) fun a => SameFile f a.2.1 ∧ KernelKept m a.2.2 := by
  have hseek := fileLseek_sameFile f (pOffset phdr) .seekSet
  rw [elfLoadSeg32] at h
  dsimp only at h
  split at h
  · cases h
    exact ⟨hseek, .refl m⟩
  · split at h
    · cases h
    · rename_i hcopy
      cases h
      exact segCopyLoop_spec hcopy
    · cases h
      trivial
    · rename_i hcopy
      have hcopy := segCopyLoop_spec hcopy
      dsimp only [Outcome.All] at hcopy
      split at h
      · cases h
        exact ⟨hseek.trans hcopy.1, hcopy.2⟩
      · rename_i m₁ vpos _ _
        have hset := memsetV_kept cr3 0#8 (pVaddr phdr + pMemsz phdr - vpos).toNat m₁ vpos
        split at h <;> rename_i heq <;> rw [heq] at hset
        · cases h
          exact ⟨hseek.trans hcopy.1, hcopy.2.trans hset⟩
        · cases h
          exact hcopy.2.trans hset
        · cases h
          trivial

end Segments

/-- A header is read the same way from every position. -/
theorem elfReadPhdr32_congr (d : Drivers) {f f' : File FileOps} (h : SameFile f f') (ehdr : Ehdr)
    (i : Nat) (junk : Phdr) :
    (elfReadPhdr32 d f' ehdr i junk).1 = (elfReadPhdr32 d f ehdr i junk).1 ∧
      (elfReadPhdr32 d f' ehdr i junk).2.2 = (elfReadPhdr32 d f ehdr i junk).2.2 := by
  obtain ⟨pos, rfl⟩ := h
  cases hop : f.fOp with
  | none => simp [elfReadPhdr32, fileLseek, hop, EINVAL]
  | some op =>
    simp only [elfReadPhdr32, fileLseek, hop]
    exact ⟨rfl, rfl⟩

-- ---------------------------------------------------------------------------
-- The segments
-- ---------------------------------------------------------------------------

/-- Program header `i` of a file, as it is read. -/
def phdrAt (d : Drivers) (f : File FileOps) (ehdr : Ehdr) (junk : Nat → Phdr) (i : Nat) : Phdr :=
  (elfReadPhdr32 d f ehdr i (junk i)).2.2

end Munix
