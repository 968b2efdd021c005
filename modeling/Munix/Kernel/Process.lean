import Munix.Kernel.Elf
import Munix.Kernel.Scheduler

/-!
# Munix — processes

The model of the process functions of `kernel/process.c`: what they do to what a
process owns apart from its threads (`Resources`), the process table, the page
maps with the active root (CR3), and the file system.

The address space of the process in slot `p` of the table is space `p`; the
kernel's own is `kernelSpace`.
-/

namespace Munix

open ByteMem

-- ---------------------------------------------------------------------------
-- State
-- ---------------------------------------------------------------------------

/-- `struct process`, without what only the log and `process_write` use; its
`threads` list head is among the scheduler's nodes and its address space among
the page maps. -/
structure Process where
  pid       : BitVec 32
  ustack    : BitVec 32
  kstack    : BitVec 32
  startAddr : BitVec 32
  execfile  : File FileOps
deriving DecidableEq

/-- `(struct process){}`. -/
def Process.zero : Process := ⟨0#32, 0#32, 0#32, 0#32, File.zero FileOps⟩

structure Resources where
  pm      : PmState
  cr3     : Pme
  vfs     : Vfs
  pcb     : Fin PROCESS_MAX → Process
  nextPid : BitVec 32

/-- `kernel_addrspc`. -/
def kernelSpace : Nat := PROCESS_MAX

def Resources.setProcess (r : Resources) (p : Fin PROCESS_MAX) (f : Process → Process) : Resources :=
  { r with pcb := Function.update r.pcb p (f (r.pcb p)) }

def Resources.setMem (r : Resources) (m : Mem) : Resources :=
  { r with pm := { r.pm with mem := m } }

def Resources.setRoot (r : Resources) (space : Nat) (root : Pme) : Resources :=
  { r with pm := { r.pm with roots := Function.update r.pm.roots space root } }

def pmSetRoot (r : Resources) (root : Pme) : Resources := { r with cr3 := root }

/-- The active page map has all pages of the kernel, as it must have for the
kernel to go on running. -/
def Resources.kernelMapped (r : Resources) : Bool :=
  (List.range 1024).all fun x => (hwWalk r.pm.mem r.cr3 (BitVec.ofNat 32 (4096 * x))).isSome

/-- Run a page-map operation; it always returns. -/
def Resources.onPm (r : Resources) (op : PmState → Option (Int × PmState)) : Option (Int × Resources) :=
  (op r.pm).map fun (res, pm) => (res, { r with pm := pm })

-- ---------------------------------------------------------------------------
-- Loading
-- ---------------------------------------------------------------------------

def USTACK_DFLT : BitVec 32 := 0x500000#32
def THREAD_STACK_SIZE : BitVec 32 := 0x1000#32
def THREAD_STACK_TOTAL : BitVec 32 := BitVec.ofNat 32 THREAD_MAX * THREAD_STACK_SIZE

def processAlloc (r : Resources) : Option (Fin PROCESS_MAX) :=
  (List.finRange PROCESS_MAX).find? fun i => (r.pcb i).pid = 0#32

/-- What is on the kernel stack where the ELF headers are read to. -/
structure StackJunk where
  ehdr : Ehdr
  phdr : Nat → Phdr

/-- The pages of a segment: address and size of the mapping. -/
def segVaddr (phdr : Phdr) : BitVec 32 := alignDown (pVaddr phdr) PAGESZ
def segSize (phdr : Phdr) : BitVec 32 :=
  alignUp (pVaddr phdr + pMemsz phdr) PAGESZ - segVaddr phdr

def segFlags (phdr : Phdr) : Pme :=
  if pFlags phdr &&& PF_W ≠ 0#32 then PME_USER ||| PME_W else PME_USER

abbrev LoadResult := Option (Outcome Resources (Int × Resources))

/-- Map and load one segment. -/
def loadSegment (fuel : Nat) (p : Fin PROCESS_MAX) (r : Resources) (phdr : Phdr) : LoadResult :=
  match r.onPm fun pm =>
    addrspcMap pm p.val (segVaddr phdr) (segVaddr phdr) (segSize phdr) (segFlags phdr) with
  | none => none
  | some (res, r) =>
    if res < 0 then some (.ok (res, r))
    else
      match elfLoadSeg32 r.vfs.drivers fuel r.cr3 (r.pcb p).execfile r.pm.mem phdr with
      | none => none
      | some .clobber => some .clobber
      | some (.fault m) => some (.fault (r.setMem m))
      | some (.ok (res, f, m)) =>
        some (.ok (res, (r.setMem m).setProcess p fun pr => { pr with execfile := f }))

/-- The segment loop of `process_load_path`, for the `n` headers from `i` on.
The result is negative where the C code jumps to `error`. -/
def loadSegments (fuel : Nat) (p : Fin PROCESS_MAX) (ehdr : Ehdr) (junk : Nat → Phdr) :
    Nat → Nat → Resources → LoadResult
  | 0, _, r => some (.ok (0, r))
  | n + 1, i, r =>
    let (res, f, phdr) := elfReadPhdr32 r.vfs.drivers (r.pcb p).execfile ehdr i (junk i)
    let r := r.setProcess p fun pr => { pr with execfile := f }
    if res < 0 then some (.ok (res, r))
    else if pType phdr ≠ PT_LOAD then loadSegments fuel p ehdr junk n (i + 1) r
    else
      match loadSegment fuel p r phdr with
      | none => none
      | some .clobber => some .clobber
      | some (.fault r) => some (.fault r)
      | some (.ok (res, r)) =>
        if res < 0 then some (.ok (res, r)) else loadSegments fuel p ehdr junk n (i + 1) r

/-- `error:` in `process_load_path`. -/
def loadError (p : Fin PROCESS_MAX) (fileIsopen : Bool) (res : Int) (r : Resources) : LoadResult :=
  match r.onPm fun pm => addrspcCleanup pm p.val with
  | none => none
  | some (_, r) =>
    let r := if fileIsopen then
        { r with vfs := { r.vfs with drivers := fileClose r.vfs.drivers (r.pcb p).execfile } }
      else r
    some (.ok (res, r))

/-- `process_load_path` from the opening of the file on. -/
def loadFile (fuel : Nat) (junk : StackJunk) (r : Resources) (p : Fin PROCESS_MAX)
    (cwd path : List Byte) : LoadResult :=
  match fileOpenPath fuel r.vfs (r.pcb p).execfile cwd path with
  | none => none
  | some ⟨res, file, vfs⟩ =>
    let r := { r.setProcess p fun pr => { pr with execfile := file } with vfs := vfs }
    if res < 0 then loadError p false res r
    else
      let (res, f, ehdr) := elfReadEhdr32 r.vfs.drivers file junk.ehdr
      let r := r.setProcess p fun pr => { pr with execfile := f }
      if res < 0 then loadError p true res r
      else
        let r := r.setProcess p fun pr => { pr with startAddr := eEntry ehdr }
        match loadSegments fuel p ehdr junk.phdr (ePhnum ehdr).toNat 0 r with
        | none => none
        | some .clobber => some .clobber
        | some (.fault r) => some (.fault r)
        | some (.ok (res, r)) => if res < 0 then loadError p true res r else some (.ok (0, r))

/-- `*p = (struct process){.pid = next_pid++}` and the stack addresses. -/
def resetProcess (L : Layout) (r : Resources) (p : Fin PROCESS_MAX) : Resources :=
  { (r.setRoot p.val 0#32).setProcess p fun _ =>
      { Process.zero with
        pid := r.nextPid
        ustack := USTACK_DFLT
        kstack := L.kstacks + KSTACKSZ * BitVec.ofNat 32 p.val + KSTACKSZ } with
    nextPid := r.nextPid + 1#32 }

/-- `process_load_path(p, cwd, path)`. -/
def processLoadPath (L : Layout) (fuel : Nat) (junk : StackJunk) (r : Resources)
    (p : Fin PROCESS_MAX) (cwd path : List Byte) : LoadResult :=
  let r := resetProcess L r p
  match r.onPm fun pm => addrspcInit pm p.val with
  | none => none
  | some (res, r) =>
    if res < 0 then loadError p false res r
    else
      let r := pmSetRoot r (r.pm.roots p.val)
      let ustackLow := (r.pcb p).ustack - THREAD_STACK_TOTAL
      match r.onPm fun pm =>
        addrspcMap pm p.val ustackLow ustackLow THREAD_STACK_TOTAL (PME_USER ||| PME_W) with
      | none => none
      | some (res, r) =>
        if res < 0 then loadError p false res r else loadFile fuel junk r p cwd path

/-- What `process_close(p)` does to the resources. -/
def closeResources (r : Resources) (p : Fin PROCESS_MAX) : Option Resources :=
  let r := pmSetRoot r (r.pm.roots kernelSpace)
  match r.onPm fun pm => addrspcCleanup pm p.val with
  | none => none
  | some (_, r) =>
    let r := { r with vfs := { r.vfs with drivers := fileClose r.vfs.drivers (r.pcb p).execfile } }
    some ((r.setRoot p.val 0#32).setProcess p fun _ => .zero)

end Munix
