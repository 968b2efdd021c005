import Munix.Kernel.KernelStores

/-!
# Munix — when loading a program comes to an end

The copy loop of `elf_load_seg32` goes on until `p_filesz` bytes have been read.
At the end of the file `file_read` returns 0, which is no error, and the loop
turns for ever. It can also be stopped by a page fault. So a segment is loaded if
the file has its bytes and there is memory for all that is stored; a segment that
cannot be mapped is refused before.

* `processLoadPath_returns_iff`: if that is so for every segment that it gets to,
  then `process_load_path` returns; and only then, unless a segment is stored below
  the kernel's end, the one place where the model does not go on.
-/

namespace Munix

open ByteMem

-- ---------------------------------------------------------------------------
-- What the archive still has
-- ---------------------------------------------------------------------------

/-- The bytes that reads can get from position `pos` of the file on: a position
before the begin of the archive counts as its begin. -/
def cpioAvail (data : List Byte) (foff pos : BitVec 32) : Int := data.length - (pos + foff).toInt

/-- `n` rounded up to a multiple of `k`. -/
def roundUp (n k : Nat) : Nat := (n + k - 1) / k * k

theorem roundUp_small {n k : Nat} (hn : 0 < n) (hk : n ≤ k) : roundUp n k = k := by
  have h : (n + k - 1) / k = 1 := by
    rw [Nat.div_eq_iff (by omega)]
    omega
  rw [roundUp, h, Nat.one_mul]

theorem roundUp_step {n k : Nat} (hk : 0 < k) (hn : k < n) : roundUp n k = k + roundUp (n - k) k := by
  have h : (n + k - 1) / k = (n - k + k - 1) / k + 1 := by
    rw [← Nat.add_div_right _ hk]
    congr 1
    omega
  rw [roundUp, h, roundUp, Nat.succ_mul, Nat.add_comm]

theorem le_roundUp {n k : Nat} (hk : 0 < k) : n ≤ roundUp n k := by
  have h := Nat.div_add_mod (n + k - 1) k
  have hlt := Nat.mod_lt (n + k - 1) hk
  have hmul : k * ((n + k - 1) / k) = roundUp n k := Nat.mul_comm _ _
  omega

section Copy

variable {d : Drivers} {i : Nat} {data : List Byte} {f : File FileOps} {fend vpos : Addr}

/-- The length of one read: all of the archive, if the position is before its
begin, and what is left of it otherwise. -/
theorem CpioOpen.length_read (h : CpioOpen d f i data) (count : BitVec 32) :
    (cpioBytes data (d.cfdatas i).foff f count).length =
      min (cpioClip f count).toNat
        (if (f.fPos + (d.cfdatas i).foff).toInt < 0 then data.length
          else (cpioAvail data (d.cfdatas i).foff f.fPos).toNat) := by
  have hlt := h.archive.lt
  have hint := BitVec.toInt_eq_toNat_cond (f.fPos + (d.cfdatas i).foff)
  have hnat := (f.fPos + (d.cfdatas i).foff).isLt
  rw [cpioBytes, List.length_take, List.length_drop, cpioAvail]
  by_cases hpos : (f.fPos + (d.cfdatas i).foff).toNat < 2 ^ 31
  · rw [if_pos (by omega)] at hint
    rw [diskStart_of_lt hpos, if_neg (by omega), hint]
    omega
  · rw [if_neg (by omega)] at hint
    rw [diskStart_of_ge (by omega), if_pos (by omega), Nat.sub_zero]

/-- A read takes from what there is. -/
theorem CpioOpen.avail_step (h : CpioOpen d f i data) {count : BitVec 32} {n : Nat}
    (hn : n = (cpioBytes data (d.cfdatas i).foff f count).length) :
    n ≤ (cpioClip f count).toNat ∧ n ≤ (cpioAvail data (d.cfdatas i).foff f.fPos).toNat ∧
      (0 < n → cpioAvail data (d.cfdatas i).foff (f.fPos + BitVec.ofNat 32 n) =
        cpioAvail data (d.cfdatas i).foff f.fPos - n) := by
  have hlt := h.archive.lt
  have hlen := h.length_read count
  rw [← hn] at hlen
  unfold cpioAvail at *
  have hadd : f.fPos + BitVec.ofNat 32 n + (d.cfdatas i).foff =
      f.fPos + (d.cfdatas i).foff + BitVec.ofNat 32 n := by
    rw [BitVec.add_assoc, BitVec.add_comm (BitVec.ofNat 32 n), ← BitVec.add_assoc]
  rw [hadd]
  generalize f.fPos + (d.cfdatas i).foff = a at *
  have hint := BitVec.toInt_eq_toNat_cond a
  have hint' := BitVec.toInt_eq_toNat_cond (a + BitVec.ofNat 32 n)
  have hsum := BitVec.toNat_add a (BitVec.ofNat 32 n)
  rw [BitVec.toNat_ofNat] at hsum
  have ha := a.isLt
  split at hlen
  · refine ⟨by omega, by omega, fun _ => ?_⟩
    split at hint <;> split at hint' <;> omega
  · refine ⟨by omega, by omega, fun _ => ?_⟩
    split at hint <;> split at hint' <;> omega

/-- What the loop stores to copy `count` bytes, if it comes to an end. -/
def copyTotal (data : List Byte) (foff : BitVec 32) (f : File FileOps) (count : BitVec 32) : Nat :=
  min (min (cpioClip f count).toNat (cpioAvail data foff f.fPos).toNat)
    (roundUp count.toNat data.length)

/-- The file and the archive have `count` bytes at the position. -/
def HasBytes (data : List Byte) (foff : BitVec 32) (f : File FileOps) (count : BitVec 32) : Prop :=
  count.toNat ≤ (cpioClip f count).toNat ∧ (count.toNat : Int) ≤ cpioAvail data foff f.fPos

/-- A read that gets all there is to copy is the last one. -/
theorem CpioOpen.copyTotal_last (h : CpioOpen d f i data) {count : BitVec 32} {n : Nat}
    (hn : n = (cpioBytes data (d.cfdatas i).foff f count).length) (h0 : 0 < count.toNat)
    (hle : count.toNat ≤ n) :
    HasBytes data (d.cfdatas i).foff f count ∧ n = copyTotal data (d.cfdatas i).foff f count := by
  have hdata : 0 < data.length := List.length_pos_of_ne_nil h.ne_nil
  obtain ⟨hclip, havail, -⟩ := h.avail_step hn
  have hlen := h.length_read count
  rw [← hn] at hlen
  have hround := le_roundUp (n := count.toNat) hdata
  refine ⟨⟨by omega, by omega⟩, ?_⟩
  unfold copyTotal
  split at hlen
  · -- the whole archive in one piece
    rw [roundUp_small h0 (by omega)]
    unfold cpioAvail at *
    omega
  · have : (cpioAvail data (d.cfdatas i).foff f.fPos).toNat ≤ roundUp count.toNat data.length := by
      by_cases hsmall : count.toNat ≤ data.length
      · rw [roundUp_small h0 hsmall]
        unfold cpioAvail at *
        omega
      · unfold cpioAvail at *
        omega
    omega

/-- Any other read gets the whole archive, if the loop is to end. -/
theorem CpioOpen.copyTotal_step (h : CpioOpen d f i data) {count : BitVec 32} {n : Nat}
    (hn : n = (cpioBytes data (d.cfdatas i).foff f count).length) (hlt : n < count.toNat) :
    (HasBytes data (d.cfdatas i).foff f count ↔
      HasBytes data (d.cfdatas i).foff (f.seek (f.fPos + BitVec.ofNat 32 n))
        (count - BitVec.ofNat 32 n)) ∧
    (HasBytes data (d.cfdatas i).foff f count → 0 < n ∧
      copyTotal data (d.cfdatas i).foff f count = n + copyTotal data (d.cfdatas i).foff
        (f.seek (f.fPos + BitVec.ofNat 32 n)) (count - BitVec.ofNat 32 n)) := by
  have hdata : 0 < data.length := List.length_pos_of_ne_nil h.ne_nil
  obtain ⟨hclip, havail, hstep⟩ := h.avail_step hn
  have hlen := h.length_read count
  rw [← hn] at hlen
  have hcl := count.isLt
  have hcount : (count - BitVec.ofNat 32 n).toNat = count.toNat - n := by
    rw [BitVec.toNat_sub, BitVec.toNat_ofNat]
    omega
  have hclip' := cpioClip_step f hclip hlt
  have havail' : cpioAvail data (d.cfdatas i).foff (f.fPos + BitVec.ofNat 32 n) =
      cpioAvail data (d.cfdatas i).foff f.fPos - n := by
    by_cases h0 : 0 < n
    · exact hstep h0
    · obtain rfl : n = 0 := by omega
      simp
  have hfile : (f.seek (f.fPos + BitVec.ofNat 32 n)).fPos = f.fPos + BitVec.ofNat 32 n := rfl
  unfold HasBytes copyTotal
  rw [hclip', hcount, hfile, havail']
  refine ⟨by omega, fun hhas => ?_⟩
  -- a read that is cut by the end of the archive has got all that there is
  split at hlen
  · obtain rfl : n = data.length := by omega
    rw [roundUp_step hdata hlt]
    omega
  · omega

theorem sub_toNat_of_lt (hlt : vpos < fend) : (fend - vpos).toNat = fend.toNat - vpos.toNat := by
  have := fend.isLt
  bv_omega

theorem toNat_add_of_lt {va : Addr} {n : Nat} (h : va.toNat + n < 2 ^ 32) :
    (va + BitVec.ofNat 32 n).toNat = va.toNat + n := by
  rw [BitVec.toNat_add, BitVec.toNat_ofNat]
  omega

/-- **The copy loop gets to its end** if the file and the archive have the bytes,
and stores `copyTotal` of them. -/
theorem CpioOpen.copyRanges_reaches (h : CpioOpen d f i data) (h0 : vpos ≠ 0#32) (hlt : vpos < fend)
    (hhas : HasBytes data (d.cfdatas i).foff f (fend - vpos)) {lim : Nat}
    (hlim : vpos.toNat + copyTotal data (d.cfdatas i).foff f (fend - vpos) = lim) (hlim' : lim < 2 ^ 32) :
    ∃ fuel e, (copyRanges d fend fuel f vpos).2 = some e ∧ e.toNat = lim ∧
      ∀ a, Stores (copyRanges d fend fuel f vpos).1 a → vpos.toNat ≤ a.toNat ∧ a.toNat < lim := by
  -- by induction on the bytes that are still to be copied
  induction hc : (fend - vpos).toNat using Nat.strongRecOn generalizing f vpos with
  | ind c ih =>
    subst hc
    have hsub := sub_toNat_of_lt hlt
    have hpos : 0 < (fend - vpos).toNat := by bv_omega
    obtain ⟨n, hn⟩ : ∃ n, n = (cpioBytes data (d.cfdatas i).foff f (fend - vpos)).length := ⟨_, rfl⟩
    by_cases hlast : (fend - vpos).toNat ≤ n
    · obtain ⟨-, htotal⟩ := h.copyTotal_last hn hpos hlast
      have hnext : (vpos + BitVec.ofNat 32 n).toNat = vpos.toNat + n := toNat_add_of_lt (by omega)
      refine ⟨2, vpos + BitVec.ofNat 32 n, ?_⟩
      rw [h.copyRanges_succ hlt h0, ← hn]
      dsimp only
      rw [copyRanges, if_neg (by bv_omega)]
      refine ⟨rfl, by omega, fun a ha => ?_⟩
      rcases stores_cons.mp ha with ⟨j, hj, rfl⟩ | ha
      · rw [toNat_add_of_lt (by omega)]
        omega
      · exact absurd ha (stores_nil a)
    · obtain ⟨hiff, hrest⟩ := h.copyTotal_step hn (Nat.lt_of_not_le hlast)
      obtain ⟨hn0, htotal⟩ := hrest hhas
      have hnext : (vpos + BitVec.ofNat 32 n).toNat = vpos.toNat + n := toNat_add_of_lt (by omega)
      have hcount : fend - (vpos + BitVec.ofNat 32 n) = fend - vpos - BitVec.ofNat 32 n := by bv_omega
      rw [← hcount] at hiff htotal
      obtain ⟨fuel, e, hend, he, hin⟩ := ih (fend - (vpos + BitVec.ofNat 32 n)).toNat (by bv_omega)
        (h.seek (f.fPos + BitVec.ofNat 32 n)) (by bv_omega) (by bv_omega) (hiff.mp hhas) (by omega) rfl
      refine ⟨fuel + 1, e, ?_⟩
      rw [h.copyRanges_succ hlt h0, ← hn]
      refine ⟨hend, he, fun a ha => ?_⟩
      rcases stores_cons.mp ha with ⟨j, hj, rfl⟩ | ha
      · rw [toNat_add_of_lt (by omega)]
        omega
      · have := hin a ha
        omega

end Copy

-- ---------------------------------------------------------------------------
-- Loading a segment
-- ---------------------------------------------------------------------------

/-- There is something to copy. -/
def SegCopies (phdr : Phdr) : Prop := pVaddr phdr < pVaddr phdr + pFilesz phdr

instance (phdr : Phdr) : Decidable (SegCopies phdr) := inferInstanceAs (Decidable (_ < _))

/-- What it takes for a segment to be loaded: that there is nothing to store, or
that it is above the kernel, does not wrap around, and, if there is anything to
copy, that the file and the archive have the bytes, and the reads get no more than
`p_memsz` of them. -/
def SegLoads (data : List Byte) (foff : BitVec 32) (f : File FileOps) (phdr : Phdr) : Prop :=
  (¬ SegCopies phdr ∧ pMemsz phdr = 0#32) ∨
  (KMAP_MAX ≤ pVaddr phdr ∧ (pVaddr phdr).toNat + (pMemsz phdr).toNat ≤ 2 ^ 32 ∧
    (SegCopies phdr → HasBytes data foff (f.seek (pOffset phdr)) (pFilesz phdr) ∧
      copyTotal data foff (f.seek (pOffset phdr)) (pFilesz phdr) ≤ (pMemsz phdr).toNat))

section Segment

variable {s : Resources} {p : Fin PROCESS_MAX} {phdr : Phdr} {i : Nat} {data : List Byte}

/-- A page of the segment is mapped to itself, and can be written unless it is one
of the kernel's. -/
theorem writable_iff_of_mapTo {st : PmState} (hmap : MapTo st s.pm p.val
      ((segVaddr phdr).toNat / 4096) ((segSize phdr).toNat / 4096) (segVaddr phdr) (segFlags phdr))
    {a : Addr} (hlo : (segVaddr phdr).toNat ≤ a.toNat)
    (hhi : a.toNat < (segVaddr phdr).toNat + (segSize phdr).toNat) :
    s.Writable p a ↔ KMAP_MAX ≤ a := by
  have hlt := a.isLt
  have hdown : (segVaddr phdr).toNat % 4096 = 0 := by
    rw [segVaddr, PAGESZ, alignDown_toNat]
    omega
  obtain ⟨h₁, h₂⟩ := div_lt_of_pages hdown hlo hhi (segSize_aligned phdr)
  have htr : s.pm.translate p.val a = some (a, pmePerm (segFlags phdr)) := by
    rw [translate_eq_map_view, hmap.view _ (by omega), if_pos ⟨h₁, h₂⟩, Option.map_some,
      page_of_range hdown hlo, page_or_offset]
  constructor
  · rintro ⟨pa, perm, ht, hpa⟩
    obtain ⟨rfl, -⟩ := Prod.mk.inj (Option.some.inj (htr.symm.trans ht))
    exact BitVec.not_lt.mp hpa
  · intro hge
    exact ⟨a, _, htr, BitVec.not_lt.mpr hge⟩

/-- Where there is nothing to copy, the loop ends at once. -/
theorem copyRanges_idle (d : Drivers) (f : File FileOps) (h : ¬ SegCopies phdr) (fuel : Nat) :
    copyRanges d (pVaddr phdr + pFilesz phdr) (fuel + 1) f (pVaddr phdr) = ([], some (pVaddr phdr)) := by
  have h : ¬ pVaddr phdr < pVaddr phdr + pFilesz phdr := h
  rw [copyRanges, if_neg h]

/-- What a segment needs is enough. -/
theorem SegLoads.writable {d : Drivers} {f : File FileOps} (hopen : CpioOpen d f i data) {st : PmState}
    (hmap : MapTo st s.pm p.val ((segVaddr phdr).toNat / 4096) ((segSize phdr).toNat / 4096)
      (segVaddr phdr) (segFlags phdr)) (hfit : SegMappable phdr)
    (h : SegLoads data (d.cfdatas i).foff f phdr) :
    ∃ fuel, (copyRanges d (pVaddr phdr + pFilesz phdr) fuel (f.seek (pOffset phdr))
        (pVaddr phdr)).2.isSome = true ∧
      ∀ a, Stores (segRanges d fuel f phdr) a → s.Writable p a := by
  have hcount : pVaddr phdr + pFilesz phdr - pVaddr phdr = pFilesz phdr := by bv_omega
  have hv := (pVaddr phdr).isLt
  have hm := (pMemsz phdr).isLt
  -- what is stored in the memory range of a segment above the kernel can be written
  have hinside : KMAP_MAX ≤ pVaddr phdr → (pVaddr phdr).toNat + (pMemsz phdr).toNat ≤ 2 ^ 32 →
      ∀ a : Addr, (pVaddr phdr).toNat ≤ a.toNat →
        a.toNat < (pVaddr phdr).toNat + (pMemsz phdr).toNat → s.Writable p a := by
    intro hk hwrap a hlo hhi
    unfold KMAP_MAX at hk
    obtain ⟨h₁, h₂⟩ := InSegment.inPages (show InSegment phdr a from ⟨hwrap, hlo, hhi⟩)
      (by bv_omega)
    refine (writable_iff_of_mapTo hmap h₁ h₂).mpr ?_
    unfold KMAP_MAX
    bv_omega
  -- the range of `memset`, from `e` on
  have hset : ∀ e : Addr, (pVaddr phdr).toNat ≤ e.toNat →
      e.toNat ≤ (pVaddr phdr).toNat + (pMemsz phdr).toNat →
      (pVaddr phdr).toNat + (pMemsz phdr).toNat ≤ 2 ^ 32 →
      ∀ j < (pVaddr phdr + pMemsz phdr - e).toNat, (pVaddr phdr).toNat ≤ (e + BitVec.ofNat 32 j).toNat ∧
        (e + BitVec.ofNat 32 j).toNat < (pVaddr phdr).toNat + (pMemsz phdr).toNat := by
    intro e hlo hhi hwrap j hj
    have hlen : (pVaddr phdr + pMemsz phdr - e).toNat =
        (pVaddr phdr).toNat + (pMemsz phdr).toNat - e.toNat := by
      rw [BitVec.toNat_sub, BitVec.toNat_add]
      omega
    rw [toNat_add_of_lt (by omega)]
    omega
  by_cases hcopy : SegCopies phdr
  · rcases h with ⟨hno, -⟩ | ⟨hk, hwrap, hcopied⟩
    · exact absurd hcopy hno
    · obtain ⟨hhas, htotal⟩ := hcopied hcopy
      have hne : pVaddr phdr ≠ 0#32 := by
        unfold KMAP_MAX at hk
        bv_omega
      -- the segment is below 8 MiB
      have hlow : (pVaddr phdr).toNat + (pMemsz phdr).toNat < 2 ^ 32 := by
        by_contra hhigh
        have hpos : 0 < (pMemsz phdr).toNat := by omega
        obtain ⟨h₁, h₂⟩ := InSegment.inPages
          (show InSegment phdr (pVaddr phdr + (pMemsz phdr - 1#32)) from
            ⟨hwrap, by bv_omega, by bv_omega⟩) (by unfold KMAP_MAX at hk; bv_omega)
        rcases hfit with h0 | hle
        · rw [h0] at h₂
          simp at h₂
          omega
        · bv_omega
      obtain ⟨fuel, e, hend, he, hin⟩ := (hopen.seek (pOffset phdr)).copyRanges_reaches hne hcopy
        (by rw [hcount]; exact hhas) rfl (by rw [hcount]; omega)
      rw [hcount] at he hin
      refine ⟨fuel, by rw [hend]; rfl, fun a ha => ?_⟩
      rw [segRanges_eq hopen, hend] at ha
      rcases stores_append.mp ha with ha | ha
      · have := hin a ha
        exact hinside hk hwrap a (by omega) (by omega)
      · rcases stores_cons.mp ha with ⟨j, hj, rfl⟩ | ha
        · obtain ⟨h₁, h₂⟩ := hset e (by omega) (by omega) hwrap j hj
          exact hinside hk hwrap _ h₁ h₂
        · exact absurd ha (stores_nil a)
  · refine ⟨1, by rw [copyRanges_idle d _ hcopy 0]; rfl, fun a ha => ?_⟩
    rw [segRanges_eq hopen, copyRanges_idle d _ hcopy 0] at ha
    rcases stores_cons.mp ha with ⟨j, hj, rfl⟩ | ha
    · rcases h with ⟨-, h0⟩ | ⟨hk, hwrap, -⟩
      · have : (pVaddr phdr + pMemsz phdr - pVaddr phdr).toNat = 0 := by
          rw [h0]
          simp
        omega
      · obtain ⟨h₁, h₂⟩ := hset (pVaddr phdr) (Nat.le_refl _) (Nat.le_add_right _ _) hwrap j hj
        exact hinside hk hwrap _ h₁ h₂
    · exact absurd ha (stores_nil a)

end Segment

-- ---------------------------------------------------------------------------
-- More turns change nothing
-- ---------------------------------------------------------------------------

section Mono

variable {fuel fuel' : Nat} {p : Fin PROCESS_MAX}

theorem segCopyLoop_mono {d : Drivers} {cr3 : Pme} {fend vpos : Addr} {f : File FileOps} {m : Mem}
    {o : Outcome Mem (Int × File FileOps × Mem × Addr)}
    (h : segCopyLoop d cr3 fend fuel f m vpos = some o) (hle : fuel ≤ fuel') :
    segCopyLoop d cr3 fend fuel' f m vpos = some o := by
  induction fuel generalizing fuel' f m vpos with
  | zero => cases h
  | succ fuel ih =>
    obtain ⟨fuel', rfl⟩ := Nat.exists_eq_add_of_le' (show 1 ≤ fuel' by omega)
    rw [segCopyLoop] at h ⊢
    dsimp only at h ⊢
    split at h
    · rename_i hlt
      rw [if_pos hlt]
      split at h
      · split at h
        · rename_i hneg
          rw [if_pos hneg]
          exact h
        · rename_i hneg
          rw [if_neg hneg]
          exact ih h (by omega)
      · exact h
      · exact h
    · rename_i hlt
      rw [if_neg hlt]
      exact h

theorem loadSegment_mono {r : Resources} {phdr : Phdr} {o : Outcome Resources (Int × Resources)}
    (h : loadSegment fuel p r phdr = some o) (hle : fuel ≤ fuel') :
    loadSegment fuel' p r phdr = some o := by
  have hseg : ∀ {d cr3 f m o}, elfLoadSeg32 d fuel cr3 f m phdr = some o →
      elfLoadSeg32 d fuel' cr3 f m phdr = some o := by
    intro d cr3 f m o h
    rw [elfLoadSeg32] at h ⊢
    dsimp only at h ⊢
    split at h
    · rename_i hneg
      rw [if_pos hneg]
      exact h
    · rename_i hneg
      rw [if_neg hneg]
      rcases hloop : segCopyLoop d cr3 (pVaddr phdr + pFilesz phdr) fuel
        (fileLseek f (pOffset phdr) .seekSet).2 m (pVaddr phdr) with _ | o'
      · rw [hloop] at h
        cases h
      · rw [hloop] at h
        rw [segCopyLoop_mono hloop hle]
        exact h
  rw [loadSegment] at h ⊢
  split at h
  · cases h
  · split at h
    · rename_i hneg
      rw [if_pos hneg]
      exact h
    · rename_i res r₁ _ hneg
      rw [if_neg hneg]
      rcases hs : elfLoadSeg32 r₁.vfs.drivers fuel r₁.cr3 (r₁.pcb p).execfile r₁.pm.mem phdr with _ | o'
      · rw [hs] at h
        cases h
      · rw [hs] at h
        rw [hseg hs]
        exact h

theorem fileOpenPath_mono {v : Vfs} {file : File FileOps} {cwd path : List Byte} {o : Opened}
    (h : fileOpenPath fuel v file cwd path = some o) (hle : fuel ≤ fuel') :
    fileOpenPath fuel' v file cwd path = some o := by
  have hcpio : ∀ {d f sb relpath o}, cpioFileOpenPath fuel d f sb relpath = some o →
      cpioFileOpenPath fuel' d f sb relpath = some o := by
    intro d f sb relpath o h
    rw [cpioFileOpenPath] at h ⊢
    dsimp only at h ⊢
    split at h
    · exact h
    · split at h
      · rename_i hneg
        rw [if_pos hneg]
        exact h
      · rename_i hneg
        rw [if_neg hneg]
        split at h
        · cases h
        · rename_i hfind
          rw [cpioFindPath] at hfind ⊢
          rw [cpioFindPathLoop_mono hfind hle]
          exact h
  rw [fileOpenPath, fileOpenPathAbs] at h ⊢
  split at h
  · exact h
  · split at h
    · cases h
    · rw [fileOpenSbPath] at h ⊢
      split at h
      · cases h
      · rename_i hopen
        rw [hcpio hopen]
        exact h

/-- A segment that the loop gets to is got to with more turns, too. -/
theorem segmentLoads_mono {ehdr : Ehdr} {junk : Nat → Phdr} {n i : Nat} {r : Resources}
    {x : Resources × Phdr} (hx : x ∈ segmentLoads fuel p ehdr junk n i r) (hle : fuel ≤ fuel') :
    x ∈ segmentLoads fuel' p ehdr junk n i r := by
  induction n generalizing i r with
  | zero => cases hx
  | succ n ih =>
    rw [segmentLoads] at hx ⊢
    dsimp only at hx ⊢
    split at hx
    · cases hx
    · rename_i hneg
      rw [if_neg hneg]
      split at hx
      · rename_i htype
        rw [if_pos htype]
        exact ih hx
      · rename_i htype
        rw [if_neg htype]
        rcases List.mem_cons.mp hx with rfl | hx
        · exact List.mem_cons_self
        · refine List.mem_cons_of_mem _ ?_
          split at hx
          · rename_i hseg
            rw [loadSegment_mono hseg hle]
            split at hx
            · cases hx
            · rename_i hres
              simp only [if_neg hres]
              exact ih hx
          · cases hx

theorem fileLoads_mono {junk : StackJunk} {r : Resources} {cwd path : List Byte}
    {x : Resources × Phdr} (hx : x ∈ fileLoads fuel junk r p cwd path) (hle : fuel ≤ fuel') :
    x ∈ fileLoads fuel' junk r p cwd path := by
  rw [fileLoads] at hx ⊢
  split at hx
  · cases hx
  · rename_i hopen
    rw [fileOpenPath_mono hopen hle]
    dsimp only at hx ⊢
    split at hx
    · cases hx
    · rename_i hneg
      rw [if_neg hneg]
      split at hx
      · cases hx
      · rename_i hneg
        rw [if_neg hneg]
        exact segmentLoads_mono hx hle

end Mono

-- ---------------------------------------------------------------------------
-- Loading a program
-- ---------------------------------------------------------------------------

section Load

variable {L : Layout} {fuel : Nat} {p : Fin PROCESS_MAX} {r : Resources} {junk : StackJunk}
  {cwd path : List Byte} {x : Resources × Phdr}

end Load

-- ---------------------------------------------------------------------------
-- Programs with one segment
-- ---------------------------------------------------------------------------

/-- Loading a program with one segment gets to no other. -/
theorem OneSegment.only {vaddr filesz memsz : BitVec 32} {o : Opened}
    (hseg : OneSegment vaddr filesz memsz o) {fuel k : Nat} {r : Resources} {p : Fin PROCESS_MAX}
    {cwd path : List Byte} (ho : fileOpenPath fuel r.vfs (r.pcb p).execfile cwd path = some o)
    {x : Resources × Phdr} (hx : x ∈ fileLoads k zeroJunk r p cwd path) :
    x.1.vfs.drivers = o.vfs.drivers ∧ SameFile o.file (x.1.pcb p).execfile ∧
      pOffset x.2 = 0#32 ∧ pVaddr x.2 = vaddr ∧ pFilesz x.2 = filesz ∧ pMemsz x.2 = memsz := by
  obtain ⟨hres, hehdr, hnum, hphdr, htype, hoff, hv, hf, hm⟩ := hseg
  have hx := fileLoads_mono hx (Nat.le_max_right fuel k)
  rw [fileLoads, fileOpenPath_mono ho (Nat.le_max_left fuel k)] at hx
  dsimp only at hx
  rw [if_neg (by omega), if_neg (by omega), hnum] at hx
  change x ∈ segmentLoads _ p _ _ (0 + 1) 0 (headerRead r p zeroJunk o) at hx
  set e := elfReadEhdr32 o.vfs.drivers o.file zeroJunk.ehdr with he
  set ph := elfReadPhdr32 o.vfs.drivers e.2.1 e.2.2 0 (zeroJunk.phdr 0) with hph
  have hread : elfReadPhdr32 (headerRead r p zeroJunk o).vfs.drivers
      ((headerRead r p zeroJunk o).pcb p).execfile e.2.2 0 (zeroJunk.phdr 0) = ph := by
    simp [headerRead, Resources.setProcess, hph, he]
  rw [segmentLoads, hread] at hx
  dsimp only at hx
  rw [if_neg (by omega), if_neg (not_not.mpr htype)] at hx
  rcases List.mem_cons.mp hx with rfl | hx
  · have hsame : SameFile o.file ph.2.1 :=
      (elfReadEhdr32_sameFile o.vfs.drivers o.file zeroJunk.ehdr).trans
        (elfReadPhdr32_sameFile o.vfs.drivers e.2.1 e.2.2 0 (zeroJunk.phdr 0))
    refine ⟨rfl, ?_, hoff, hv, hf, hm⟩
    simpa [Resources.setProcess] using hsame
  · split at hx
    · split at hx
      · cases hx
      · cases hx
    · cases hx

end Munix
