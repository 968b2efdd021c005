import Munix.Core.Macros

/-!
# Munix — page maps

The model of `kernel/pagemap.c` and of the page-map entries of
`arch/i386/cpu_pagemap.h`: the pool of physical pages that hold page tables,
the recursive map and unmap walks, and the hardware's own two-level walk
(`hwWalk`) that says what a page map means.

Tables live in physical memory and are accessed at their physical address, as
`physpage_access` does (the kernel range, which holds the pool, is mapped
one-to-one in every address space). The root entry of an address space is a
field of its `struct addrspc`, so it has a pointer of its own kind.

The loops of the two walks carry an iteration bound; `none` is a walk that
has not ended within it.
-/

namespace Munix

open ByteMem

-- ---------------------------------------------------------------------------
-- cpu_pagemap.h, cpu_pagemap.c
-- ---------------------------------------------------------------------------

def PAGESZ : BitVec 32 := 4096#32

/-- Page mapping entry. -/
abbrev Pme := BitVec 32

/-- `struct pm_lvl`, without the names that only the log prints. -/
structure PmLvl where
  idxBits : Nat
  isPage  : Bool
deriving Repr, DecidableEq

structure PmMode where
  lvlct : Nat
  lvls  : List PmLvl

/-- `X86_PAGING_32`: root (CR3), page directory, page table, page. -/
def x86Paging32 : PmMode where
  lvlct := 4
  lvls  := [⟨0, false⟩, ⟨10, false⟩, ⟨10, false⟩, ⟨12, true⟩]

/-- `pm_mode->lvls[lvl]`. -/
def pmLvl (lvl : Nat) : PmLvl := x86Paging32.lvls.getD lvl ⟨0, true⟩

def PME_PRESENT : Pme := 1#32
def PME_W : Pme := 2#32
def PME_USER : Pme := 4#32

def pmePaddr (pme : Pme) : BitVec 32 := pme &&& ~~~0xfff#32

/-- At the root level only the PWT and PCD bits of the flags are kept. -/
def pmeSetFlags (pme flags : Pme) (lvl : Nat) : Pme :=
  if lvl = 0 then pme ||| (flags &&& 0x18#32) else pme ||| flags

def pmePack (paddr : BitVec 32) (flags : Pme) (lvl : Nat) : Pme :=
  pmeSetFlags paddr flags lvl

/-- Presence is "non-zero" at the root and a bit everywhere else. -/
def pmeIspresent (pme : Pme) (lvl : Nat) : Bool :=
  if lvl = 0 then pme != 0#32 else pme &&& PME_PRESENT != 0#32

-- ---------------------------------------------------------------------------
-- State
-- ---------------------------------------------------------------------------

def PM_AREA : BitVec 32 := 0x100000#32
def PHYSPAGES_MAX : Nat := 5

structure Physpage where
  paddr : BitVec 32
  vaddr : BitVec 32
deriving DecidableEq

/-- What the page-map code reads and writes: the pool, the `root_entry` of
every address space, and physical memory. -/
structure PmState where
  physpages : Fin PHYSPAGES_MAX → Physpage
  roots     : Nat → Pme
  mem       : Mem

/-- A `pme_t *`: the root entry of a space, or a word of a table. -/
inductive PmePtr where
  | root (space : Nat)
  | word (addr : Addr)
deriving DecidableEq

def PmState.pme (st : PmState) : PmePtr → Pme
  | .root s => st.roots s
  | .word a => load32 st.mem a

def PmState.setPme (st : PmState) (entry : PmePtr) (v : Pme) : PmState :=
  match entry with
  | .root s => { st with roots := Function.update st.roots s v }
  | .word a => { st with mem := store32 st.mem a v }

-- ---------------------------------------------------------------------------
-- The pool
-- ---------------------------------------------------------------------------

/-- Where pool page `i` lives. -/
def pageAddr (i : Fin PHYSPAGES_MAX) : BitVec 32 := PM_AREA + BitVec.ofNat 32 i.val * PAGESZ

def PmState.setPhyspage (st : PmState) (i : Fin PHYSPAGES_MAX) (p : Physpage) : PmState :=
  { st with physpages := Function.update st.physpages i p }

/-- First page whose `paddr` is 0, now marked with its address. -/
def physpageAlloc (st : PmState) : Option (Fin PHYSPAGES_MAX × PmState) :=
  match (List.finRange PHYSPAGES_MAX).find? fun i => (st.physpages i).paddr = 0#32 with
  | some i => some (i, st.setPhyspage i { st.physpages i with paddr := pageAddr i })
  | none => none

def physpageFree (st : PmState) (i : Fin PHYSPAGES_MAX) : PmState :=
  st.setPhyspage i { st.physpages i with paddr := 0#32 }

def physpageFind (paddr : BitVec 32) : Option (Fin PHYSPAGES_MAX) :=
  let i := ((paddr - PM_AREA) / PAGESZ).toNat
  if h : i < PHYSPAGES_MAX then some ⟨i, h⟩ else none

/-- Returns the table's address; `page->vaddr` remembers it. -/
def physpageAccess (st : PmState) (i : Fin PHYSPAGES_MAX) : Addr × PmState :=
  ((st.physpages i).paddr,
    st.setPhyspage i { st.physpages i with vaddr := (st.physpages i).paddr })

def physpageClose (st : PmState) (i : Fin PHYSPAGES_MAX) : PmState :=
  st.setPhyspage i { st.physpages i with vaddr := 0#32 }

-- ---------------------------------------------------------------------------
-- Offsets and coverage
-- ---------------------------------------------------------------------------

/-- The `size_t offsets[PM_LVL_MAX]` array. -/
abbrev Offsets := Nat → Nat

def pmOffsetsFrom : Nat → BitVec 32 → Offsets → Offsets
  | 0, _, offs => offs
  | i + 1, v, offs =>
    let bits := (pmLvl i).idxBits
    let mask : BitVec 32 := (1#32 <<< bits) - 1#32
    pmOffsetsFrom i (v >>> bits) (Function.update offs i (v &&& mask).toNat)

def pmOffsets (vaddr : BitVec 32) : Offsets :=
  pmOffsetsFrom x86Paging32.lvlct vaddr fun _ => 0

/-- Past the end of the level table everything counts as a page, so that the
recursion over levels ends. -/
theorem pmLvl_isPage_of_le {lvl : Nat} (h : 4 ≤ lvl) : (pmLvl lvl).isPage = true := by
  simp [pmLvl, x86Paging32, List.getD_eq_getElem?_getD, h]

/-- `pme_coversz`, in `size_t` arithmetic. -/
def pmeCoversz (lvl : Nat) : BitVec 32 :=
  if h : (pmLvl lvl).isPage then 1#32 <<< (pmLvl lvl).idxBits
  else pmeCoversz (lvl + 1) <<< (pmLvl lvl).idxBits
termination_by 4 - lvl
decreasing_by
  have hlt : lvl < 4 := Nat.lt_of_not_le fun hge => h (pmLvl_isPage_of_le hge)
  omega

/-- The address of `tbl[i]`. -/
def tblEntry (tbl : Addr) (i : Nat) : Addr := tbl + 4#32 * BitVec.ofNat 32 i

-- ---------------------------------------------------------------------------
-- Mapping
-- ---------------------------------------------------------------------------

/-- The variables the levels of the map walk share through pointers. -/
structure MapCursor where
  offsets : Offsets
  paddr   : BitVec 32
  size    : BitVec 32

/-- Outcome of a walk: result code, shared variables, state. -/
abbrev WalkM (γ : Type) := Option (Int × γ × PmState)

/-- The `while (*size)` loop over one table. `step` is the recursive call on
a child entry. -/
def mapLoop (step : PmePtr → MapCursor → PmState → WalkM MapCursor)
    (childLvl offsetMax : Nat) (tbl : Addr) : Nat → MapCursor → PmState → WalkM MapCursor
  | 0, _, _ => none
  | n + 1, cur, st =>
    if cur.size = 0#32 then some (0, cur, st)
    else
      match step (.word (tblEntry tbl (cur.offsets childLvl))) cur st with
      | none => none
      | some (res, cur, st) =>
        if res < 0 then some (res, cur, st)
        else
          let off := cur.offsets childLvl + 1
          if off = offsetMax then
            some (0, { cur with offsets := Function.update cur.offsets childLvl 0 }, st)
          else
            mapLoop step childLvl offsetMax tbl n
              { cur with offsets := Function.update cur.offsets childLvl off } st

/-- Find the table an entry points to, allocating a zeroed one if the entry is
not present, and add the flags to the entry. `none` is `-ENOMEM`. -/
def mapOpenTable (lvl : Nat) (entry : PmePtr) (flags : Pme) (st : PmState) :
    Option (Fin PHYSPAGES_MAX × Addr × PmState) :=
  if !pmeIspresent (st.pme entry) lvl then
    match physpageAlloc st with
    | none => none
    | some (pg, st) =>
      let (tbl, st) := physpageAccess st pg
      let st := { st with mem := memset st.mem tbl 0#8 PAGESZ.toNat }
      some (pg, tbl, st.setPme entry (pmePack (st.physpages pg).paddr (flags ||| PME_PRESENT) lvl))
  else
    match physpageFind (pmePaddr (st.pme entry)) with
    | none => none
    | some pg =>
      let (tbl, st) := physpageAccess st pg
      some (pg, tbl, st.setPme entry (pmeSetFlags (st.pme entry) flags lvl))

def addrspcMapRecursive (lvl : Nat) (flags : Pme) (entry : PmePtr) (cur : MapCursor)
    (st : PmState) : WalkM MapCursor :=
  if _h : (pmLvl (lvl + 1)).isPage then
    some (0, { cur with paddr := cur.paddr + PAGESZ, size := cur.size - PAGESZ },
      st.setPme entry (pmePack cur.paddr (flags ||| PME_PRESENT) lvl))
  else
    match mapOpenTable lvl entry flags st with
    | none => some (-ENOMEM, cur, st)
    | some (pg, tbl, st) =>
      let childLvl := lvl + 1
      let offsetMax := 1 <<< (pmLvl childLvl).idxBits
      match mapLoop (addrspcMapRecursive childLvl flags) childLvl offsetMax tbl offsetMax cur st with
      | none => none
      | some (res, cur, st) => some (res, cur, physpageClose st pg)
termination_by 4 - lvl
decreasing_by
  have hlt : lvl + 1 < 4 := Nat.lt_of_not_le fun hge => _h (pmLvl_isPage_of_le hge)
  omega

/-- `addrspc_map(space, vaddr, paddr, size, flags)`. -/
def addrspcMap (st : PmState) (space : Nat) (vaddr paddr size : BitVec 32) (flags : Pme) :
    Option (Int × PmState) :=
  let vaddrVal := alignDown vaddr PAGESZ
  let paddr := alignDown paddr PAGESZ
  let size := alignUp size PAGESZ
  match addrspcMapRecursive 0 flags (.root space) ⟨pmOffsets vaddrVal, paddr, size⟩ st with
  | none => none
  | some (res, _, st) => some (res, st)

-- ---------------------------------------------------------------------------
-- Unmapping
-- ---------------------------------------------------------------------------

/-- The variables the levels of the unmap walk share through pointers. -/
structure UnmapCursor where
  offsets : Offsets
  size    : BitVec 32

def unmapLoop (step : PmePtr → UnmapCursor → PmState → WalkM UnmapCursor)
    (childLvl offsetMax : Nat) (tbl : Addr) : Nat → UnmapCursor → PmState → WalkM UnmapCursor
  | 0, _, _ => none
  | n + 1, cur, st =>
    if cur.size = 0#32 then some (0, cur, st)
    else
      match step (.word (tblEntry tbl (cur.offsets childLvl))) cur st with
      | none => none
      | some (res, cur, st) =>
        if res < 0 then some (res, cur, st)
        else
          let off := cur.offsets childLvl + 1
          if off = offsetMax then
            some (0, { cur with offsets := Function.update cur.offsets childLvl 0 }, st)
          else
            unmapLoop step childLvl offsetMax tbl n
              { cur with offsets := Function.update cur.offsets childLvl off } st

/-- No entry of the table is present. -/
def tblEmpty (st : PmState) (childLvl offsetMax : Nat) (tbl : Addr) : Bool :=
  (List.range offsetMax).all fun i => !pmeIspresent (load32 st.mem (tblEntry tbl i)) childLvl

def addrspcUnmapRecursive (lvl : Nat) (entry : PmePtr) (cur : UnmapCursor) (st : PmState) :
    WalkM UnmapCursor :=
  if !pmeIspresent (st.pme entry) lvl then
    some (0, { cur with size := cur.size - minWord (pmeCoversz lvl) cur.size }, st)
  else if _h : (pmLvl (lvl + 1)).isPage then
    some (0, { cur with size := cur.size - PAGESZ },
      st.setPme entry (st.pme entry &&& ~~~PME_PRESENT))
  else
    match physpageFind (pmePaddr (st.pme entry)) with
    | none => some (-ENOMEM, cur, st)
    | some pg =>
      let (tbl, st) := physpageAccess st pg
      if tbl = 0#32 then some (-ENOMEM, cur, st)
      else
        let childLvl := lvl + 1
        let offsetMax := 1 <<< (pmLvl childLvl).idxBits
        match unmapLoop (addrspcUnmapRecursive childLvl) childLvl offsetMax tbl offsetMax cur st with
        | none => none
        | some (res, cur, st) =>
          if res < 0 then some (res, cur, physpageClose st pg)
          else if tblEmpty st childLvl offsetMax tbl then
            let st := physpageClose st pg
            let st := st.setPme entry (st.pme entry &&& ~~~PME_PRESENT)
            some (0, cur, physpageFree st pg)
          else some (0, cur, physpageClose st pg)
termination_by 4 - lvl
decreasing_by
  have hlt : lvl + 1 < 4 := Nat.lt_of_not_le fun hge => _h (pmLvl_isPage_of_le hge)
  omega

def SIZE_MAX : BitVec 32 := 0xffffffff#32

/-- `addrspc_unmap(space, vaddr, size)`. -/
def addrspcUnmap (st : PmState) (space : Nat) (vaddr size : BitVec 32) : Option (Int × PmState) :=
  let vaddrVal := alignDown vaddr PAGESZ
  let size := if size < SIZE_MAX - PAGESZ then alignUp size PAGESZ else size
  match addrspcUnmapRecursive 0 (.root space) ⟨pmOffsets vaddrVal, size⟩ st with
  | none => none
  | some (res, _, st) => some (res, st)

def KMAP_MIN : BitVec 32 := 0#32
def KMAP_MAX : BitVec 32 := 0x400000#32

def addrspcInit (st : PmState) (space : Nat) : Option (Int × PmState) :=
  addrspcMap st space KMAP_MIN KMAP_MIN (KMAP_MAX - KMAP_MIN) 0#32

def addrspcCleanup (st : PmState) (space : Nat) : Option (Int × PmState) :=
  addrspcUnmap st space 0#32 SIZE_MAX

-- ---------------------------------------------------------------------------
-- The hardware walk
-- ---------------------------------------------------------------------------

/-- User and write permission. -/
structure Perm where
  user  : Bool
  write : Bool
deriving Repr, DecidableEq

/-- The permission bits of a page-map entry. -/
def pmePerm (pme : Pme) : Perm where
  user  := pme &&& PME_USER != 0#32
  write := pme &&& PME_W != 0#32

/-- Permissions are the conjunction over the levels. -/
def Perm.and (p q : Perm) : Perm where
  user  := p.user && q.user
  write := p.write && q.write

/-- The page-directory and page-table entries on the walk of `va`. -/
def pdeAddr (root : Pme) (va : Addr) : Addr := tblEntry (pmePaddr root) (va.toNat / 2 ^ 22)
def pteAddr (pde : Pme) (va : Addr) : Addr := tblEntry (pmePaddr pde) (va.toNat / 2 ^ 12 % 1024)

/-- Two-level translation of `va` under `root`: the physical address and the
effective permission, if every level is present. A zero root has no page
directory and translates nothing. -/
def hwWalk (m : Mem) (root : Pme) (va : Addr) : Option (Addr × Perm) :=
  if pmeIspresent root 0 then
    let pde := load32 m (pdeAddr root va)
    if pmeIspresent pde 1 then
      let pte := load32 m (pteAddr pde va)
      if pmeIspresent pte 2 then
        some (pmePaddr pte ||| (va &&& 0xfff#32), (pmePerm pde).and (pmePerm pte))
      else none
    else none
  else none

/-- What address space `space` makes of `va`. -/
def PmState.translate (st : PmState) (space : Nat) (va : Addr) : Option (Addr × Perm) :=
  hwWalk st.mem (st.roots space) va

end Munix
