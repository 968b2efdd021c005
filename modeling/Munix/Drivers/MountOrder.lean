import Munix.Drivers.Mount
import Munix.Lib.PrefixMatch

/-!
# Munix — the order of mounts

`vfs_mount_list_add` looks for the place of a new superblock in a list sorted by
mount path and then appends it to the list, so that the list is in the order of
the mounts (`Mounted`). `find_mount_for_path` takes the last superblock that
matches (`Mounted.findMount`), which is the one with the longest mount path
exactly if no file system is mounted above an earlier one
(`mounts_orderIndependent_iff`).
-/

namespace Munix

-- ---------------------------------------------------------------------------
-- Mounting one file system after the other
-- ---------------------------------------------------------------------------

/-- The arguments of a call of `fs_mountdev`. -/
structure MountCall where
  blockdev : BitVec 32
  fstypeid : Nat
  mpath    : List Byte
deriving DecidableEq

/-- What a call asks for. -/
def MountCall.superblock (c : MountCall) : Superblock := ⟨c.blockdev, c.mpath⟩

/-- What a successful call mounts. -/
def MountCall.mounted (c : MountCall) : Superblock := ⟨c.blockdev, c.mpath.take (PATH_MAX - 1)⟩

/-- Calls of `fs_mountdev` that all succeed. -/
def mountAll (fuel : Nat) (dev : Devices) : MountTable → List MountCall → Option MountTable
  | t, [] => some t
  | t, c :: calls =>
    match fsMountdev fuel dev t c.blockdev c.fstypeid c.mpath with
    | some (0, t) => mountAll fuel dev t calls
    | _ => none

/-- The superblock that `find_mount_for_path` finds. -/
def MountTable.resolve (t : MountTable) (abspath : List Byte) : Option Superblock :=
  (t.findMount abspath).map t.superblocks

-- ---------------------------------------------------------------------------
-- The mount list
-- ---------------------------------------------------------------------------

/-- The table after the given calls, which took the slots from the first on. -/
structure Mounted (t : MountTable) (calls : List MountCall) : Prop where
  ring : LinkRing t.links (.head :: (List.range calls.length).map .sb)
  fits : calls.length ≤ SB_MAX
  free : ∀ i, t.sOp i = none ↔ calls.length ≤ i
  sb   : ∀ i (hi : i < calls.length), t.superblocks i = calls[i].mounted

theorem mounted_initial (fsDrivers : Nat → Option FsOps) : Mounted (.initial fsDrivers) [] where
  ring := LinkRing.singleton_iff.mpr (by simp [MountTable.initial, initListHead])
  fits := Nat.zero_le _
  free := fun i => by simp [MountTable.initial]
  sb := fun i hi => absurd hi (Nat.not_lt_zero i)

/-- What a successful `sb_open` leaves behind. -/
theorem sbOpen_ok {fuel : Nat} {dev : Devices} {t t' : MountTable} {i : Nat} {blockdev : BitVec 32}
    {fstypeid : Nat} {res : Int} (h : sbOpen fuel dev t i blockdev fstypeid = some (res, t'))
    (hres : ¬ res < 0) :
    ∃ op, t' = { t.setSb i ⟨blockdev, []⟩ (some op) with links := initListHead t.links (.sb i) } := by
  unfold sbOpen at h
  split at h
  · have hno : -ENODEV = res := congrArg Prod.fst (Option.some.inj h)
    exact absurd (hno ▸ hres) (by decide)
  · dsimp only at h
    split at h
    · cases h
    next res' _ =>
      split at h
      next hneg =>
        have hres' : res' = res := congrArg Prod.fst (Option.some.inj h)
        exact absurd (hres' ▸ hneg) hres
      next => exact ⟨.cpiofs, (congrArg Prod.snd (Option.some.inj h)).symm⟩

namespace Mounted

variable {t t' : MountTable} {calls : List MountCall} {c : MountCall} {fuel : Nat} {dev : Devices}

theorem isList (h : Mounted t calls) : IsList t.links .head ((List.range calls.length).map .sb) where
  nodup := by
    refine List.nodup_cons.mpr ⟨by simp, List.nodup_range.map fun i j hij => ?_⟩
    cases hij
    rfl
  nonnull := by
    have hnull : (0 : MountNode) = .null := rfl
    simp [hnull]
  links := .inr h.ring

/-- The slot that a mount takes is the next one. -/
theorem sbAlloc_eq {i : Nat} (h : Mounted t calls) (hi : sbAlloc t = some i) : i = calls.length := by
  obtain ⟨hnone, before, after, hsplit, hsome⟩ := List.find?_eq_some_iff_append.mp hi
  have hge : calls.length ≤ i := (h.free i).mp (Option.isNone_iff_eq_none.mp hnone)
  refine Nat.le_antisymm (Nat.le_of_not_lt fun hlt => ?_) hge
  -- an earlier slot would be taken first
  have hlen : i = before.length := by
    have hget := congrArg (·[before.length]?) hsplit
    have hbound : before.length < SB_MAX := by
      have := congrArg List.length hsplit
      simp at this
      omega
    simpa [hbound] using hget.symm
  have hmem : calls.length ∈ before := by
    have hget := congrArg (·[calls.length]?) hsplit
    have hbound : calls.length < SB_MAX := by
      have := congrArg List.length hsplit
      simp at this
      omega
    rw [List.getElem?_append_left (by omega)] at hget
    rw [List.getElem?_range hbound] at hget
    exact List.mem_of_getElem? hget.symm
  have := hsome _ hmem
  rw [(h.free calls.length).mpr (Nat.le_refl _)] at this
  exact absurd this (by decide)

/-- A mount appends its superblock. -/
theorem step (h : Mounted t calls)
    (hmount : fsMountdev fuel dev t c.blockdev c.fstypeid c.mpath = some (0, t')) :
    Mounted t' (calls ++ [c]) := by
  unfold fsMountdev at hmount
  split at hmount
  · exact absurd (congrArg Prod.fst (Option.some.inj hmount)) (show -ENOMEM ≠ 0 by decide)
  next i hi =>
    obtain rfl := h.sbAlloc_eq hi
    split at hmount
    · cases hmount
    next res t₁ hopen =>
      split at hmount
      next hneg =>
        have := congrArg Prod.fst (Option.some.inj hmount)
        dsimp only at this
        omega
      next hneg =>
        obtain rfl : _ = t' := congrArg Prod.snd (Option.some.inj hmount)
        obtain ⟨op, rfl⟩ := sbOpen_ok hopen hneg
        refine ⟨?_, ?_, fun j => ?_, fun j hj => ?_⟩
        · -- only the new node was reset, and it is not in the list yet
          have hfresh : MountNode.sb calls.length ∉
              MountNode.head :: (List.range calls.length).map MountNode.sb := by simp
          have hreset : IsList (initListHead t.links (.sb calls.length)) .head
              ((List.range calls.length).map .sb) := by
            refine h.isList.congr fun n hn => ?_
            have hne : n ≠ .sb calls.length := fun heq => hfresh (heq ▸ hn)
            rw [initListHead, LinkHeap.setPrev_of_ne _ hne, LinkHeap.setNext_of_ne _ hne]
          have hadd := listAddTail_isList hreset hfresh (by simp)
          rw [List.length_append, List.length_singleton, List.range_succ, List.map_append]
          exact hadd.ring_of_ne_nil (by simp)
        · rw [List.length_append, List.length_singleton]
          exact List.mem_range.mp (List.mem_of_find?_eq_some hi)
        · rw [List.length_append, List.length_singleton]
          by_cases hj : j = calls.length
          · simp [vfsMountListAdd, MountTable.setSb, hj]
          · simp only [vfsMountListAdd, MountTable.setSb, hj, if_false]
            rw [h.free j]
            omega
        · by_cases hlast : j = calls.length
          · subst hlast
            simp [vfsMountListAdd, MountTable.setSb, MountCall.mounted]
          · have hlt : j < calls.length := by
              rw [List.length_append, List.length_singleton] at hj
              omega
            simp only [vfsMountListAdd, MountTable.setSb, hlast, if_false]
            rw [List.getElem_append_left hlt, h.sb j hlt]

/-- **The list is in mount order**, after any calls that succeed. -/
theorem run {rest : List MountCall} (h : Mounted t calls)
    (hmount : mountAll fuel dev t rest = some t') : Mounted t' (calls ++ rest) := by
  induction rest generalizing t calls with
  | nil =>
    cases hmount
    rwa [List.append_nil]
  | cons c rest ih =>
    rw [mountAll] at hmount
    split at hmount
    next hc =>
      have := ih (h.step hc) hmount
      rwa [List.append_assoc] at this
    next => cases hmount

-- ---------------------------------------------------------------------------
-- Looking up a path
-- ---------------------------------------------------------------------------

/-- Walking back through a part of the list. -/
theorem findMountLoop_eq {s : List Byte} {slots later : List Nat}
    (hl : IsList t.links .head ((slots ++ later).map .sb)) (hfuel : slots.length < fuel) :
    findMountLoop t s fuel ((MountNode.head :: slots.map .sb).getLast (by simp)) =
      slots.reverse.find? fun i => decide (strstr s (t.superblocks i).sMountpath = some 0) := by
  induction slots using List.reverseRecOn generalizing later fuel with
  | nil =>
    cases fuel with
    | zero => rfl
    | succ fuel => rfl
  | append_singleton slots i ih =>
    cases fuel with
    | zero => exact absurd hfuel (Nat.not_lt_zero _)
    | succ fuel =>
      rw [List.length_append, List.length_singleton] at hfuel
      have hring := hl.ring_of_ne_nil (by simp)
      rw [List.append_assoc, List.map_append, List.singleton_append, List.map_cons,
        ← List.cons_append] at hring
      -- the slot before this one
      have hprev : (t.links (.sb i)).prev =
          (MountNode.head :: slots.map .sb).getLast (by simp) := by
        have hturned : LinkRing t.links (.sb i :: (later.map .sb ++ .head :: slots.map .sb)) :=
          hring.rotate
        rw [hturned.prev_eq, List.getLast_cons (by simp)]
        exact List.getLast_append_of_ne_nil (by simp) (List.cons_ne_nil _ _)
      have hl' : IsList t.links .head ((slots ++ i :: later).map .sb) := by simpa using hl
      have hrest := ih hl' (Nat.lt_of_succ_lt_succ hfuel)
      rw [List.reverse_append, List.reverse_singleton, List.singleton_append, List.find?_cons]
      have hlast : (MountNode.head :: (slots ++ [i]).map .sb).getLast (by simp) = .sb i := by simp
      rw [hlast, findMountLoop, hprev, hrest]
      by_cases hi : strstr s (t.superblocks i).sMountpath = some 0
      · simp [hi]
      · simp [hi]

/-- **What a lookup finds**: the last superblock mounted that matches. -/
theorem resolve_eq (h : Mounted t calls) (s : List Byte) :
    t.resolve s = findMountForPath (calls.map (·.mounted)) s := by
  have hmounts : calls.map (·.mounted) = (List.range calls.length).map t.superblocks := by
    refine List.ext_getElem (by simp) fun i hi _ => ?_
    simp [h.sb i (by simpa using hi)]
  have hlast : (t.links .head).prev =
      (MountNode.head :: (List.range calls.length).map .sb).getLast (by simp) := h.ring.prev_eq
  have hl : IsList t.links .head ((List.range calls.length ++ []).map .sb) := by
    simpa using h.isList
  have hfuel : (List.range calls.length).length < SB_MAX + 1 :=
    Nat.lt_succ_of_le (by simpa using h.fits)
  have hloop := findMountLoop_eq (s := s) hl hfuel
  rw [MountTable.resolve, MountTable.findMount, hlast, hloop, findMountForPath, hmounts,
    ← List.map_reverse, List.find?_map]
  rfl

/-- The last match in the list of superblocks. -/
theorem resolve_eq_lastMatch (h : Mounted t calls) (hstr : ∀ c ∈ calls, IsString c.mpath)
    {s : List Byte} (hs : s ≠ []) :
    t.resolve s = lastMatch Superblock.sMountpath (calls.map (·.mounted)) s := by
  rw [h.resolve_eq, findMountForPath, lastMatch]
  refine List.find?_congr fun sb hsb => ?_
  obtain ⟨c, hc, rfl⟩ := List.mem_map.mp (List.mem_reverse.mp hsb)
  have hsub : IsString (c.mounted).sMountpath := fun h0 => hstr c hc (List.mem_of_mem_take h0)
  simp only [strstr_eq_zero hs hsub]

end Mounted

-- ---------------------------------------------------------------------------
-- Longest mount paths
-- ---------------------------------------------------------------------------

def Absolute (s : List Byte) : Prop := s.head? = some (byte '/')

instance (s : List Byte) : Decidable (Absolute s) := inferInstanceAs (Decidable (_ = _))

theorem Absolute.ne_nil {s : List Byte} (h : Absolute s) : s ≠ [] := by
  rintro rfl
  cases h

/-- The prefixes of an absolute path. -/
theorem Absolute.of_initial {k s : List Byte} (h : Absolute s) (hk : k <+: s) (hne : k ≠ []) :
    Absolute k := by
  cases k with
  | nil => exact absurd rfl hne
  | cons c k =>
    obtain ⟨rest, rfl⟩ := hk
    exact h

/-- Every absolute path is resolved to the file system with the longest mount
path that is a prefix of it. -/
def ResolvesLongest (t : MountTable) (calls : List MountCall) : Prop :=
  ∀ s, IsString s → Absolute s →
    LongestMatch Superblock.sMountpath (calls.map (·.superblock)) s (t.resolve s)

/-- No absolute mount path is cut off. -/
def MountPathsFit (calls : List MountCall) : Prop :=
  ∀ c ∈ calls, Absolute c.mpath → c.mpath.length < PATH_MAX

/-- No file system is mounted above an earlier one. -/
def MountedInwards (calls : List MountCall) : Prop :=
  calls.Pairwise fun a b => Absolute a.mpath → ¬ b.mpath <+: a.mpath

theorem MountCall.mounted_eq {c : MountCall} (h : c.mpath.length < PATH_MAX) :
    c.mounted = c.superblock := by
  have hle : c.mpath.length ≤ PATH_MAX - 1 := Nat.le_pred_of_lt h
  rw [MountCall.mounted, MountCall.superblock, List.take_of_length_le hle]

/-- Cutting off a mount path that is not absolute does not matter. -/
theorem MountCall.mounted_match {c : MountCall} {s : List Byte} (hs : Absolute s)
    (hfit : Absolute c.mpath → c.mpath.length < PATH_MAX) :
    ((c.mounted).sMountpath <+: s ↔ (c.superblock).sMountpath <+: s) ∧
      ((c.superblock).sMountpath <+: s → c.mounted = c.superblock) := by
  by_cases habs : Absolute c.mpath
  · rw [mounted_eq (hfit habs)]
    exact ⟨Iff.rfl, fun _ => rfl⟩
  · by_cases hnil : c.mpath = []
    · rw [mounted_eq (by simp [hnil, PATH_MAX])]
      exact ⟨Iff.rfl, fun _ => rfl⟩
    · have hno : ¬ c.mpath <+: s := fun hp => habs (hs.of_initial hp hnil)
      have hcut : c.mpath.take (PATH_MAX - 1) ≠ [] := by
        simp [hnil, PATH_MAX]
      refine ⟨iff_of_false (fun hp => ?_) hno, fun hp => absurd hp hno⟩
      have hhead : Absolute (c.mpath.take (PATH_MAX - 1)) := hs.of_initial hp hcut
      rw [Absolute, List.head?_take, if_neg (by decide)] at hhead
      exact habs hhead

/-- Searching two images of one list that agree on what matches. -/
theorem find?_map_congr {α β : Type} {f g : α → β} {p : β → Bool} {l : List α}
    (h : ∀ a ∈ l, p (f a) = p (g a) ∧ (p (g a) = true → f a = g a)) :
    (l.map f).find? p = (l.map g).find? p := by
  induction l with
  | nil => rfl
  | cons a l ih =>
    obtain ⟨hp, heq⟩ := h a List.mem_cons_self
    rw [List.map_cons, List.map_cons, List.find?_cons, List.find?_cons, hp,
      ih fun b hb => h b (List.mem_cons_of_mem _ hb)]
    split
    next hg => rw [heq hg]
    next => rfl

/-- **When every path is in the file system with the longest mount path.** -/
theorem Mounted.resolvesLongest_iff {t : MountTable} {calls : List MountCall} (h : Mounted t calls)
    (hstr : ∀ c ∈ calls, IsString c.mpath) (hnd : (calls.map (·.mpath)).Nodup) :
    ResolvesLongest t calls ↔ MountPathsFit calls ∧ MountedInwards calls := by
  have hkeys : ((calls.map (·.superblock)).map Superblock.sMountpath).Nodup := by
    rw [List.map_map]
    exact hnd
  -- as long as the paths fit, the lookup is in the list of what was asked for
  have hlookup : MountPathsFit calls → ∀ s, Absolute s →
      t.resolve s = lastMatch Superblock.sMountpath (calls.map (·.superblock)) s := by
    intro hfit s hs
    rw [h.resolve_eq_lastMatch hstr hs.ne_nil, lastMatch, lastMatch, ← List.map_reverse,
      ← List.map_reverse]
    refine find?_map_congr fun c hc => ?_
    obtain ⟨hiff, heq⟩ := MountCall.mounted_match hs (hfit c (List.mem_reverse.mp hc))
    exact ⟨by simp only [hiff], fun hp => heq (of_decide_eq_true hp)⟩
  have hlong := @lastMatch_longest_iff _ _ _ _ _ hkeys (fun s => IsString s ∧ Absolute s)
    fun k s hs hk hne => ⟨fun h0 => hs.1 (hk.subset h0), hs.2.of_initial hk hne⟩
  have hinwards : (calls.map (·.superblock)).Pairwise (fun a b =>
      IsString a.sMountpath ∧ Absolute a.sMountpath → ¬ b.sMountpath <+: a.sMountpath) ↔
      MountedInwards calls := by
    rw [List.pairwise_map]
    exact List.Pairwise.iff_of_mem fun {a b} ha _ =>
      ⟨fun hab habs => hab ⟨hstr a ha, habs⟩, fun hab habs => hab habs.2⟩
  rw [hinwards] at hlong
  constructor
  · intro hres
    have hfit : MountPathsFit calls := by
      intro c hc habs
      have hfound := hres c.mpath (hstr c hc) habs
      have hmem := List.mem_map_of_mem (f := (·.superblock)) hc
      cases hlast : t.resolve c.mpath with
      | none =>
        rw [hlast] at hfound
        exact absurd (List.prefix_refl _) (hfound _ hmem)
      | some sb =>
        rw [hlast] at hfound
        -- what is mounted has a path that fits
        rw [h.resolve_eq_lastMatch hstr habs.ne_nil] at hlast
        have hsb := List.mem_of_find?_eq_some hlast
        obtain ⟨b, -, rfl⟩ := List.mem_map.mp (List.mem_reverse.mp hsb)
        have hle := hfound.2.2 _ hmem (List.prefix_refl _)
        have hcut : (b.mounted).sMountpath.length ≤ PATH_MAX - 1 := List.length_take_le _ _
        exact Nat.lt_of_le_of_lt (Nat.le_trans hle hcut) (by decide)
    exact ⟨hfit, hlong.mp fun s hs => hlookup hfit s hs.2 ▸ hres s hs.1 hs.2⟩
  · rintro ⟨hfit, hin⟩ s hs habs
    rw [hlookup hfit s habs]
    exact hlong.mpr hin s ⟨hs, habs⟩

-- ---------------------------------------------------------------------------
-- Two orders
-- ---------------------------------------------------------------------------

/-- **When the order of the mounts does not matter.** The same mounts are done in
two orders; every absolute path is in the file system with the longest mount path
in both, and in the same one, exactly if the mount paths fit and neither order
mounts a file system above an earlier one. -/
theorem mounts_orderIndependent_iff {fuel fuel' : Nat} {dev : Devices}
    {fsDrivers : Nat → Option FsOps} {calls calls' : List MountCall} {t t' : MountTable}
    (hmount : mountAll fuel dev (.initial fsDrivers) calls = some t)
    (hmount' : mountAll fuel' dev (.initial fsDrivers) calls' = some t')
    (hperm : calls.Perm calls') (hstr : ∀ c ∈ calls, IsString c.mpath)
    (hnd : (calls.map (·.mpath)).Nodup) :
    (ResolvesLongest t calls ∧ ResolvesLongest t' calls' ∧
      ∀ s, IsString s → Absolute s → t.resolve s = t'.resolve s) ↔
    MountPathsFit calls ∧ MountedInwards calls ∧ MountedInwards calls' := by
  have h : Mounted t calls := (mounted_initial fsDrivers).run hmount
  have h' : Mounted t' calls' := (mounted_initial fsDrivers).run hmount'
  have hstr' : ∀ c ∈ calls', IsString c.mpath := fun c hc => hstr c (hperm.mem_iff.mpr hc)
  have hnd' : (calls'.map (·.mpath)).Nodup := (hperm.map _).nodup_iff.mp hnd
  rw [h.resolvesLongest_iff hstr hnd, h'.resolvesLongest_iff hstr' hnd']
  constructor
  · rintro ⟨⟨hfit, hin⟩, ⟨-, hin'⟩, -⟩
    exact ⟨hfit, hin, hin'⟩
  · rintro ⟨hfit, hin, hin'⟩
    have hfit' : MountPathsFit calls' := fun c hc => hfit c (hperm.mem_iff.mpr hc)
    refine ⟨⟨hfit, hin⟩, ⟨hfit', hin'⟩, fun s hs habs => ?_⟩
    have hlong := (h.resolvesLongest_iff hstr hnd).mpr ⟨hfit, hin⟩ s hs habs
    have hlong' := (h'.resolvesLongest_iff hstr' hnd').mpr ⟨hfit', hin'⟩ s hs habs
    refine hlong.perm hlong' (hperm.map _) ?_
    rw [List.map_map]
    exact hnd

/-- An archive that starts with its root directory. -/
def rootEntry : List Byte :=
  bytes ("070701" ++ "00000001" ++ "000041ED" ++ "00000000" ++ "00000000" ++ "00000002" ++
    "00000000" ++ "00000000" ++ "00000000" ++ "00000000" ++ "00000000" ++ "00000000" ++
    "00000002" ++ "00000000" ++ ".") ++ [0#8]

/-- The archive in the first two ramdisks. -/
def rootDevices : Devices :=
  ⟨fun maj => if maj = MAJ_RAMDISK then some .ramdisk else none,
    fun i => if i < 2 then some rootEntry else none⟩

def mountRoot : MountCall := ⟨0x400#32, 1, bytes "/"⟩

def mountBin : MountCall := ⟨0x401#32, 1, bytes "/bin"⟩

def mountedTable (calls : List MountCall) : Option MountTable :=
  mountAll 4 rootDevices (.initial fun i => if i = 1 then some .cpiofs else none) calls

theorem mounts_orderIndependent_iff_root :
    ∃ t, mountedTable [mountRoot, mountBin] = some t ∧ ResolvesLongest t [mountRoot, mountBin] := by
  have hsome : (mountedTable [mountRoot, mountBin]).isSome = true := by decide +kernel
  obtain ⟨t, ht⟩ := Option.isSome_iff_exists.mp hsome
  have hfit : MountPathsFit [mountRoot, mountBin] := by
    unfold MountPathsFit
    decide
  have hin : MountedInwards [mountRoot, mountBin] := by
    unfold MountedInwards
    decide
  exact ⟨t, ht, ((mounts_orderIndependent_iff ht ht (.refl _) (by decide) (by decide)).mpr
    ⟨hfit, hin, hin⟩).1⟩

/-- The root mounted last hides what is mounted below it. -/
theorem mountedTable_hides_bin :
    (mountedTable [mountBin, mountRoot]).map (·.resolve (bytes "/bin/sh")) =
      some (some mountRoot.superblock) ∧
    (mountedTable [mountRoot, mountBin]).map (·.resolve (bytes "/bin/sh")) =
      some (some mountBin.superblock) ∧
    ¬ LongestMatch Superblock.sMountpath [mountBin.superblock, mountRoot.superblock] (bytes "/bin/sh")
      (some mountRoot.superblock) := by
  refine ⟨by decide +kernel, by decide +kernel, fun h => ?_⟩
  have := h.2.2 mountBin.superblock List.mem_cons_self (by decide)
  exact absurd this (by decide)

end Munix
