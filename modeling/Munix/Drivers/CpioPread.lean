import Munix.Drivers.CpioBounds

/-!
# Munix — positional reads of an archived file

`cpio_file_read` gets the offset to read at by a pointer, which is the file's own
position in `file_read` and a variable of `file_pread` in the other case. Where it
clips the count at the end of the file it takes the file's position in both cases.
The driver stores through the pointer only, so that `file_pread` leaves the file as
it is.

## Results

* `filePread_agrees_iff` — when exactly a positional read is a seek and a read.
-/

namespace Munix

section Pread

variable {d : Drivers} {f : File FileOps} {i : Nat} {data : List Byte}

/-- `file_pread` returns and stores what `file_read` does after a seek. -/
def PreadAgrees (d : Drivers) (f : File FileOps) (dst : Bool) (count off : BitVec 32) : Prop :=
  let r := fileRead d.read (fileLseek f off .seekSet).2 dst count
  filePread d.read f dst count off = (r.1, r.2.1)

/-- When it does: there is nothing to read or to clip, or the offset is the file's
position, or the archive ends before either count does. -/
def PreadFits (asize : Nat) (foff : BitVec 32) (f : File FileOps) (dst : Bool)
    (count off : BitVec 32) : Prop :=
  dst = false ∨ count = 0#32 ∨ f.fStat.fSize.slt (off + count) = false ∨ off = f.fPos ∨
    (asize - diskStart (off + foff) ≤ (f.fStat.fSize - f.fPos).toNat ∧
      asize - diskStart (off + foff) ≤ (f.fStat.fSize - off).toNat)

/-- The count that a positional read asks the archive for. -/
def preadClip (f : File FileOps) (count off : BitVec 32) : BitVec 32 :=
  if f.fStat.fSize.slt (off + count) then f.fStat.fSize - f.fPos else count

theorem CpioOpen.filePread (h : CpioOpen d f i data) {count : BitVec 32} (hcount : count ≠ 0#32)
    (off : BitVec 32) :
    Munix.filePread d.read f true count off =
      (((((data.drop (diskStart (off + (d.cfdatas i).foff))).take
          (preadClip f count off).toNat).length : Nat) : Int),
        (data.drop (diskStart (off + (d.cfdatas i).foff))).take (preadClip f count off).toNat) := by
  have hpread : Munix.filePread d.dev.read (d.cfdatas i).af true (preadClip f count off)
      (off + (d.cfdatas i).foff) = _ := filePread_disk h.archive _ _
  unfold preadClip at hpread ⊢
  rw [filePread_of_op h.op hcount]
  simp only [Drivers.read, cpioFileRead, h.slot, hpread]
  rw [if_neg (by omega)]

theorem min_eq_min_iff {a b n : Nat} : min a n = min b n ↔ a = b ∨ (n ≤ a ∧ n ≤ b) := by
  omega

/-- Both reads start at the same place of the archive. -/
theorem CpioOpen.preadAgrees_iff (h : CpioOpen d f i data) (dst : Bool) (count off : BitVec 32) :
    PreadAgrees d f dst count off ↔ PreadFits data.length (d.cfdatas i).foff f dst count off := by
  have hseek : (fileLseek f off .seekSet).2 = f.seek off := by
    simp only [fileLseek, h.op, File.seek]
  have hopen : CpioOpen d (f.seek off) i data := ⟨h.op, h.slot, h.archive, h.ne_nil⟩
  unfold PreadAgrees PreadFits
  rw [hseek]
  cases dst with
  | false => simp [Munix.filePread, Munix.fileRead, h.op, hopen.op]
  | true =>
    by_cases hcount : count = 0#32
    · simp [Munix.filePread, Munix.fileRead, h.op, hopen.op, hcount]
    · rw [h.filePread hcount, hopen.fileRead hcount]
      have hiff : ∀ l l' : List Byte, ((((l.length : Nat) : Int), l) = (((l'.length : Nat) : Int), l')) ↔
          l = l' := by
        intro l l'
        exact ⟨fun heq => congrArg Prod.snd heq, fun heq => by rw [heq]⟩
      dsimp only
      rw [hiff, cpioBytes]
      change List.take _ (data.drop (diskStart (off + (d.cfdatas i).foff))) =
        List.take _ (data.drop (diskStart (off + (d.cfdatas i).foff))) ↔ _
      rw [List.take_eq_take_iff, List.length_drop, preadClip, cpioClip]
      change min _ _ = min (if f.fStat.fSize.slt (off + count) then f.fStat.fSize - off else count).toNat _ ↔ _
      cases hclip : f.fStat.fSize.slt (off + count) with
      | false => simp
      | true =>
        have hsub : (f.fStat.fSize - f.fPos).toNat = (f.fStat.fSize - off).toNat ↔ off = f.fPos := by
          bv_omega
        simp only [if_true, min_eq_min_iff, hsub, hcount, Bool.true_eq_false, false_or]

end Pread

/-- **When a positional read is a seek and a read.** For every file that can be
opened, at every position of the file, for every offset and every count. -/
theorem filePread_agrees_iff {d d' : Drivers} {sb : Superblock} {path : List Byte}
    {file : File FileOps} {fuel : Nat}
    (hdisks : ∀ rd data, d.dev.ramdisks rd = some data → data.length < 2 ^ 32)
    (hopen : cpioFileOpenPath fuel d cpioFileNew sb path = some (0, file, d')) :
    ∃ i data, CpioOpen d' file i data ∧ ∀ (dst : Bool) (pos count off : BitVec 32),
      (PreadAgrees d' (file.seek pos) dst count off ↔
        PreadFits data.length (d'.cfdatas i).foff (file.seek pos) dst count off) := by
  obtain ⟨i, data, hfile⟩ := cpioFileOpenPath_open hdisks hopen
  refine ⟨i, data, hfile, fun dst pos count off => ?_⟩
  have hseek : CpioOpen d' (file.seek pos) i data :=
    ⟨hfile.op, hfile.slot, hfile.archive, hfile.ne_nil⟩
  exact hseek.preadAgrees_iff dst count off

theorem filePread_agrees_iff_hello :
    ∃ (file : File FileOps) (d' : Drivers) (i : Nat) (data : List Byte), CpioOpen d' file i data ∧
      ∀ (dst : Bool) (pos count off : BitVec 32),
        (PreadAgrees d' (file.seek pos) dst count off ↔
          PreadFits data.length (d'.cfdatas i).foff (file.seek pos) dst count off) := by
  obtain ⟨file, d', hopen, -⟩ := exists_helloFile
  exact ⟨file, d', filePread_agrees_iff helloArchive.drivers_small hopen⟩

/-- With the file at its end, a positional read from the beginning that goes beyond
the end stores nothing. -/
theorem filePread_disagrees :
    ∃ file d', cpioFileOpenPath 4 helloArchive.drivers cpioFileNew ⟨0x400#32, bytes "/"⟩
        (bytes "hello") = some (0, file, d') ∧ file.fStat.fSize = 3#32 ∧
      ¬ PreadAgrees d' (file.seek 3#32) true 4#32 0#32 := by
  have hany : (cpioFileOpenPath 4 helloArchive.drivers cpioFileNew ⟨0x400#32, bytes "/"⟩
      (bytes "hello")).any (fun r => decide (r.1 = 0 ∧ r.2.1.fStat.fSize = 3#32 ∧
        (filePread r.2.2.read (r.2.1.seek 3#32) true 4#32 0#32).2 ≠
          (fileRead r.2.2.read (fileLseek (r.2.1.seek 3#32) 0#32 .seekSet).2 true 4#32).2.1)) = true := by
    decide +kernel
  obtain ⟨⟨res, file, d'⟩, hopen, hprop⟩ := (Option.any_eq_true _ _).mp hany
  obtain ⟨hres, hsize, hne⟩ := of_decide_eq_true hprop
  obtain rfl : res = 0 := hres
  exact ⟨file, d', hopen, hsize, fun hagree => hne (congrArg Prod.snd hagree)⟩

end Munix
