import Munix.Drivers.Vfs

/-!
# Munix — opening character devices

`file_open_dev` with the three drivers that register a major number, and the static
tables that their minor numbers index: `serials`, `ttys` and `ramdisks`. An open records
which elements of these tables it reads or writes; what lies behind a table is other
memory.

* `Reachable.registered` — every driver sits at its own major number.
* `fileOpenDev_ramdisk` — on ramdisks this is the `file_open_dev` of
  `Munix.Drivers.Vfs`.
* `openSafe_iff` — an open stays inside the tables exactly when it is not that of the
  terminal one past the last.
-/

namespace Munix

namespace Chrdev

/-- The drivers that register as character devices. -/
inductive Driver where
  | serial
  | tty
  | ramdisk
deriving DecidableEq

def MAJ_SERIAL : Nat := 2
def MAJ_TTY : Nat := 3

def TTY_CT : Nat := 2

/-- `PORT_NOS` -/
def PORT_NOS : List (BitVec 16) := [0x3f8#16, 0x2f8#16]

/-- The major number under which a driver registers itself. -/
def Driver.major : Driver → Nat
  | serial => MAJ_SERIAL
  | tty => MAJ_TTY
  | ramdisk => MAJ_RAMDISK

/-- The declared size of a driver's table. -/
def Driver.tableSize : Driver → Nat
  | serial => PORT_NOS.length
  | tty => TTY_CT
  | ramdisk => RAMDISKS_MAX

/-- `struct tty`, as far as opening goes. -/
structure TtyEntry where
  portdev     : File Driver
  initialized : Bool

/-- `struct ramdisk`, without its name. -/
structure RamdiskEntry where
  addr   : BitVec 32
  rdSize : BitVec 32

/-- The tables, with the memory behind them. -/
structure Tables where
  chrdevDrivers : Nat → Option Driver
  serials       : Nat → BitVec 16
  ttys          : Nat → TtyEntry
  ramdisks      : Nat → RamdiskEntry

/-- An element of a driver's table. -/
abbrev Element := Driver × Nat

def InTable (e : Element) : Prop := e.2 < e.1.tableSize

/-- Outcome of an open: the result, the file, the tables and the elements that have been
read or written. -/
structure Opened where
  ret      : Int
  file     : File Driver
  tables   : Tables
  accesses : List Element

-- ---------------------------------------------------------------------------
-- The drivers
-- ---------------------------------------------------------------------------

/-- `serial_open_dev(file, min)`, where `test` is what the loopback test reads back. -/
def serialOpenDev (test : Byte) (t : Tables) (file : File Driver) (min : Nat) : Opened :=
  if min < 1 ∨ PORT_NOS.length < min then ⟨-ENODEV, file, t, []⟩
  else
    let i := min - 1
    let file := { file with fDriverData := some i }
    if t.serials i ≠ 0#16 then ⟨0, file, t, [(.serial, i)]⟩
    else
      let t := { t with serials := Function.update t.serials i (PORT_NOS.getD i 0#16) }
      if test ≠ 0x0a#8 then ⟨- EIO, file, t, [(.serial, i)]⟩ else ⟨0, file, t, [(.serial, i)]⟩

/-- `ramdisk_open_dev(file, min)`. -/
def ramdiskOpenDev (t : Tables) (file : File Driver) (min : Nat) : Opened :=
  if RAMDISKS_MAX ≤ min then ⟨-ENODEV, file, t, []⟩
  else if (t.ramdisks min).addr = 0#32 then ⟨-ENODEV, file, t, [(.ramdisk, min)]⟩
  else
    ⟨0, { file with
      fDriverData := some min
      fStat := { file.fStat with fSize := (t.ramdisks min).rdSize } }, t, [(.ramdisk, min)]⟩

/-- `tty_open_dev(file, min)`; `fileOpenDev` opens the port. -/
def ttyOpenDev (fileOpenDev : Tables → BitVec 32 → Option Opened) (t : Tables) (file : File Driver)
    (min : Nat) : Option Opened :=
  if TTY_CT < min then some ⟨-ENODEV, file, t, []⟩
  else
    let file := { file with fDriverData := some min }
    if (t.ttys min).initialized then some ⟨0, file, t, [(.tty, min)]⟩
    else if min = 0 then some ⟨-ENODEV, file, t, [(.tty, min)]⟩
    else
      (fileOpenDev t (makedev (BitVec.ofNat 32 MAJ_SERIAL) (BitVec.ofNat 32 min))).map fun port =>
        let entry := { t.ttys min with portdev := port.file }
        let entry := if port.ret < 0 then entry else { entry with initialized := true }
        let tables := { port.tables with ttys := Function.update port.tables.ttys min entry }
        ⟨if port.ret < 0 then port.ret else 0, file, tables, (.tty, min) :: port.accesses⟩

/-- `file_open_dev(file, rdev)`, with at most `depth` opens one inside the other. -/
def fileOpenDev (test : Byte) : Nat → Tables → BitVec 32 → Option Opened
  | 0, _, _ => none
  | depth + 1, t, rdev =>
    let file := File.zero Driver
    let maj := (rdev >>> 8).toNat
    let min := (rdev &&& 0xff#32).toNat
    if maj = 0 ∨ MAJORS_MAX ≤ maj then some ⟨-ENODEV, file, t, []⟩
    else
      match t.chrdevDrivers maj with
      | none => some ⟨-ENODEV, file, t, []⟩
      | some op =>
        let file := { file with
          fStat := { file.fStat with fType := .chr, fRdev := rdev }
          fOp := some op }
        match op with
        | .serial => some (serialOpenDev test t file min)
        | .ramdisk => some (ramdiskOpenDev t file min)
        | .tty => ttyOpenDev (fileOpenDev test depth) t file min

-- ---------------------------------------------------------------------------
-- Registration and creation
-- ---------------------------------------------------------------------------

/-- `chrdev_register_inner(maj, fops)`. -/
def chrdevRegister (t : Tables) (maj : Nat) (fops : Driver) : Int × Tables :=
  if maj = 0 ∨ MAJORS_MAX ≤ maj then (-EINVAL, t)
  else
    match t.chrdevDrivers maj with
    | some op => (if op = fops then 0 else -EBUSY, t)
    | none => (0, { t with chrdevDrivers := Function.update t.chrdevDrivers maj (some fops) })

/-- `init_driver_serial`, `init_driver_tty` and `init_driver_ramdisk`. -/
def initDriver (t : Tables) (d : Driver) : Tables := (chrdevRegister t d.major d).2

/-- `ramdisk_create_inner(addr, size, name)`. -/
def ramdiskCreate (t : Tables) (addr size : BitVec 32) : Int × Tables :=
  if addr = 0#32 ∨ size = 0#32 then (-EINVAL, t)
  else
    match (List.range RAMDISKS_MAX).find? fun i => (t.ramdisks i).addr = 0#32 with
    | some i => (i, { t with ramdisks := Function.update t.ramdisks i ⟨addr, size⟩ })
    | none => (-ENOMEM, t)

/-- The tables as the kernel starts: nothing is registered, initialised or created. -/
structure Initial (t : Tables) : Prop where
  drivers  : ∀ maj, t.chrdevDrivers maj = none
  serials  : ∀ i < PORT_NOS.length, t.serials i = 0#16
  ttys     : ∀ i < TTY_CT, t.ttys i = ⟨File.zero Driver, false⟩
  ramdisks : ∀ i < RAMDISKS_MAX, t.ramdisks i = ⟨0#32, 0#32⟩

/-- The same tables; what lies behind them may differ. -/
structure SameTables (t t' : Tables) : Prop where
  drivers  : t'.chrdevDrivers = t.chrdevDrivers
  serials  : ∀ i < PORT_NOS.length, t'.serials i = t.serials i
  ttys     : ∀ i < TTY_CT, t'.ttys i = t.ttys i
  ramdisks : ∀ i < RAMDISKS_MAX, t'.ramdisks i = t.ramdisks i

/-- The states of the tables that calls of the drivers lead to, in any order and with any
arguments. -/
inductive Reachable : Tables → Prop where
  | initial {t : Tables} (h : Initial t) : Reachable t
  | initDriver {t : Tables} (d : Driver) (h : Reachable t) : Reachable (initDriver t d)
  | ramdiskCreate {t : Tables} (addr size : BitVec 32) (h : Reachable t) :
      Reachable (ramdiskCreate t addr size).2
  | fileOpenDev {t : Tables} {depth : Nat} {test : Byte} {rdev : BitVec 32} {r : Opened}
      (h : Reachable t) (hopen : fileOpenDev test depth t rdev = some r) : Reachable r.tables
  | other {t t' : Tables} (h : Reachable t) (hsame : SameTables t t') : Reachable t'

-- ---------------------------------------------------------------------------
-- Every driver at its own number
-- ---------------------------------------------------------------------------

/-- A driver is registered under its own major number only. -/
def Registered (t : Tables) : Prop := ∀ maj d, t.chrdevDrivers maj = some d → maj = d.major

/-- What opening a serial port can do. -/
theorem serialOpenDev_cases (test : Byte) (t : Tables) (file : File Driver) (min : Nat) :
    serialOpenDev test t file min = ⟨-ENODEV, file, t, []⟩ ∨
      (InTable (.serial, min - 1) ∧
        (serialOpenDev test t file min).file = { file with fDriverData := some (min - 1) } ∧
        (serialOpenDev test t file min).tables.chrdevDrivers = t.chrdevDrivers ∧
        (serialOpenDev test t file min).accesses = [(.serial, min - 1)]) := by
  unfold serialOpenDev
  by_cases hmin : min < 1 ∨ PORT_NOS.length < min
  · exact .inl (if_pos hmin)
  · have hin : InTable (.serial, min - 1) := by
      change min - 1 < PORT_NOS.length
      omega
    rw [if_neg hmin]
    dsimp only
    split_ifs <;> exact .inr ⟨hin, rfl, rfl, rfl⟩

theorem serialOpenDev_drivers (test : Byte) (t : Tables) (file : File Driver) (min : Nat) :
    (serialOpenDev test t file min).tables.chrdevDrivers = t.chrdevDrivers := by
  rcases serialOpenDev_cases test t file min with h | ⟨-, -, h, -⟩
  · rw [h]
  · exact h

theorem ramdiskOpenDev_tables (t : Tables) (file : File Driver) (min : Nat) :
    (ramdiskOpenDev t file min).tables = t := by
  unfold ramdiskOpenDev
  split_ifs <;> rfl

/-- No open changes what is registered. -/
theorem fileOpenDev_drivers {test : Byte} {depth : Nat} {t : Tables} {rdev : BitVec 32} {r : Opened}
    (h : fileOpenDev test depth t rdev = some r) : r.tables.chrdevDrivers = t.chrdevDrivers := by
  induction depth generalizing t rdev r with
  | zero => cases h
  | succ depth ih =>
    rw [fileOpenDev] at h
    dsimp only at h
    split at h
    · cases h
      rfl
    cases hop : t.chrdevDrivers (rdev >>> 8).toNat with
    | none =>
      rw [hop] at h
      cases h
      rfl
    | some op =>
      rw [hop] at h
      cases op with
      | serial =>
        cases h
        exact serialOpenDev_drivers ..
      | ramdisk =>
        cases h
        exact congrArg Tables.chrdevDrivers (ramdiskOpenDev_tables ..)
      | tty =>
        dsimp only [ttyOpenDev] at h
        split_ifs at h
        · cases h
          rfl
        · cases h
          rfl
        · cases h
          rfl
        · obtain ⟨port, hport, rfl⟩ := Option.map_eq_some_iff.mp h
          have hdrivers := ih hport
          exact hdrivers

theorem ramdiskCreate_drivers (t : Tables) (addr size : BitVec 32) :
    (ramdiskCreate t addr size).2.chrdevDrivers = t.chrdevDrivers := by
  unfold ramdiskCreate
  split
  · rfl
  · split <;> rfl

theorem Registered.initDriver {t : Tables} (h : Registered t) (d : Driver) :
    Registered (initDriver t d) := by
  unfold Chrdev.initDriver chrdevRegister
  split
  · exact h
  cases t.chrdevDrivers d.major with
  | some op => exact h
  | none =>
    intro maj e he
    by_cases hmaj : maj = d.major
    · subst hmaj
      have he : some d = some e := by simpa using he
      rw [Option.some.inj he]
    · exact h maj e (by simpa [Function.update_of_ne hmaj] using he)

theorem Reachable.registered {t : Tables} (h : Reachable t) : Registered t := by
  induction h with
  | initial h =>
    intro maj d hd
    rw [h.drivers] at hd
    cases hd
  | initDriver d _ ih => exact ih.initDriver d
  | ramdiskCreate addr size _ ih =>
    intro maj d hd
    rw [ramdiskCreate_drivers] at hd
    exact ih maj d hd
  | fileOpenDev _ hopen ih =>
    intro maj d hd
    rw [fileOpenDev_drivers hopen] at hd
    exact ih maj d hd
  | other _ hsame ih =>
    intro maj d hd
    rw [hsame.drivers] at hd
    exact ih maj d hd

-- ---------------------------------------------------------------------------
-- Staying inside the tables
-- ---------------------------------------------------------------------------

/-- The driver data of a file is an element of the table of its driver, and a ramdisk
that has been created. -/
def Designates (t : Tables) (file : File Driver) : Prop :=
  ∃ d i, file.fOp = some d ∧ file.fDriverData = some i ∧ InTable (d, i) ∧
    (d = .ramdisk → (t.ramdisks i).addr ≠ 0#32)

/-- What an open promises: on success an element of the driver's table, and else no access
outside a table. -/
def OpenSafe (r : Opened) : Prop :=
  (r.ret = 0 → Designates r.tables r.file) ∧ (r.ret ≠ 0 → ∀ e ∈ r.accesses, InTable e)

theorem enodev_ne_zero : (-ENODEV : Int) ≠ 0 := by decide

/-- An open that fails before it touches a table. -/
theorem openSafe_failed {r : Opened} (hret : r.ret ≠ 0) (haccess : r.accesses = []) : OpenSafe r :=
  ⟨fun h => absurd h hret, fun _ e he => by simp [haccess] at he⟩

theorem serialOpenDev_accesses (test : Byte) (t : Tables) (file : File Driver) (min : Nat) :
    ∀ e ∈ (serialOpenDev test t file min).accesses, InTable e := by
  intro e he
  rcases serialOpenDev_cases test t file min with h | ⟨hin, -, -, h⟩
  · simp [h] at he
  · rw [h, List.mem_singleton] at he
    rw [he]
    exact hin

theorem serialOpenDev_safe (test : Byte) (t : Tables) {file : File Driver} (hop : file.fOp = some .serial)
    (min : Nat) : OpenSafe (serialOpenDev test t file min) := by
  rcases serialOpenDev_cases test t file min with h | ⟨hin, hfile, -, -⟩
  · rw [h]
    exact openSafe_failed enodev_ne_zero rfl
  · refine ⟨fun _ => ⟨.serial, min - 1, ?_, ?_, hin, fun h => by cases h⟩, fun _ =>
      serialOpenDev_accesses test t file min⟩
    · rw [hfile]
      exact hop
    · rw [hfile]

theorem ramdiskOpenDev_safe (t : Tables) {file : File Driver} (hop : file.fOp = some .ramdisk)
    (min : Nat) : OpenSafe (ramdiskOpenDev t file min) := by
  unfold ramdiskOpenDev
  split_ifs with hmin haddr
  · exact openSafe_failed enodev_ne_zero rfl
  · refine ⟨fun h => absurd h enodev_ne_zero, fun _ e he => ?_⟩
    obtain rfl : e = (.ramdisk, min) := by simpa using he
    exact Nat.lt_of_not_le hmin
  · exact ⟨fun _ => ⟨.ramdisk, min, hop, rfl, Nat.lt_of_not_le hmin, fun _ => haddr⟩,
      fun h => absurd rfl h⟩

/-- The port of a terminal: a serial port, or no device. -/
theorem portOpen {t : Tables} (hreg : Registered t) (test : Byte) (depth : Nat) {min : Nat}
    (hmin : min ≤ TTY_CT) :
    ∃ port, fileOpenDev test (depth + 1) t
        (makedev (BitVec.ofNat 32 MAJ_SERIAL) (BitVec.ofNat 32 min)) = some port ∧
      ∀ e ∈ port.accesses, InTable e := by
  have hmaj : (makedev (BitVec.ofNat 32 MAJ_SERIAL) (BitVec.ofNat 32 min) >>> 8).toNat = MAJ_SERIAL := by
    have hall : ∀ min ≤ TTY_CT,
        (makedev (BitVec.ofNat 32 MAJ_SERIAL) (BitVec.ofNat 32 min) >>> 8).toNat = MAJ_SERIAL := by decide
    exact hall min hmin
  rw [fileOpenDev]
  dsimp only
  rw [hmaj, if_neg (by decide)]
  cases hop : t.chrdevDrivers MAJ_SERIAL with
  | none => exact ⟨_, rfl, by simp⟩
  | some op =>
    have hserial : op = .serial := by
      have := hreg _ _ hop
      cases op with
      | serial => rfl
      | tty | ramdisk => exact absurd this (by decide)
    subst hserial
    exact ⟨_, rfl, serialOpenDev_accesses _ _ _ _⟩

/-- What opening a terminal can do, when its minor number passes the check. -/
theorem ttyOpenDev_cases {t : Tables} (hreg : Registered t) (test : Byte) (depth : Nat)
    (file : File Driver) {min : Nat} (hmin : min ≤ TTY_CT) :
    ∃ r, ttyOpenDev (fileOpenDev test (depth + 1)) t file min = some r ∧
      r.file = { file with fDriverData := some min } ∧ (.tty, min) ∈ r.accesses ∧
      ∀ e ∈ r.accesses, e = (.tty, min) ∨ InTable e := by
  rw [ttyOpenDev, if_neg (Nat.not_lt.mpr hmin)]
  dsimp only
  split_ifs with hinit hzero
  · exact ⟨_, rfl, rfl, List.mem_singleton_self _, fun e he => .inl (List.mem_singleton.mp he)⟩
  · exact ⟨_, rfl, rfl, List.mem_singleton_self _, fun e he => .inl (List.mem_singleton.mp he)⟩
  · obtain ⟨port, hport, haccess⟩ := portOpen hreg test depth hmin
    rw [hport]
    refine ⟨_, rfl, rfl, List.mem_cons_self, fun e he => ?_⟩
    exact (List.mem_cons.mp he).imp_right (haccess e)

/-- A terminal is opened safely exactly when it is in the table. -/
theorem ttyOpenDev_safe_iff {t : Tables} (hreg : Registered t) (test : Byte) (depth : Nat)
    {file : File Driver} (hop : file.fOp = some .tty) (min : Nat) :
    ∃ r, ttyOpenDev (fileOpenDev test (depth + 1)) t file min = some r ∧
      (OpenSafe r ↔ min ≠ TTY_CT) := by
  by_cases hmin : TTY_CT < min
  · refine ⟨⟨-ENODEV, file, t, []⟩, if_pos hmin, ?_⟩
    exact iff_of_true (openSafe_failed enodev_ne_zero rfl) hmin.ne'
  obtain ⟨r, hopen, hfile, hmem, haccess⟩ :=
    ttyOpenDev_cases hreg test depth file (Nat.le_of_not_lt hmin)
  have hdriver : r.file.fOp = some .tty := by rw [hfile]; exact hop
  have hdata : r.file.fDriverData = some min := by rw [hfile]
  refine ⟨r, hopen, ?_, ?_⟩
  · -- Whatever the result is, the element has been looked at and is the driver data.
    rintro hsafe rfl
    have hout : ¬ InTable (.tty, TTY_CT) := Nat.lt_irrefl TTY_CT
    by_cases hret : r.ret = 0
    · obtain ⟨d, i, hd, hi, hin, -⟩ := hsafe.1 hret
      obtain rfl : d = .tty := Option.some.inj (hd.symm.trans hdriver)
      obtain rfl : i = TTY_CT := Option.some.inj (hi.symm.trans hdata)
      exact hout hin
    · exact hout (hsafe.2 hret _ hmem)
  · intro hne
    have hin : InTable (.tty, min) := by
      change min < TTY_CT
      omega
    refine ⟨fun _ => ⟨.tty, min, hdriver, hdata, hin, fun h => by cases h⟩, fun _ e he => ?_⟩
    rcases haccess e he with rfl | h
    · exact hin
    · exact h

/-- **When opening a device is safe.** In every reachable state of the tables and for every
device number, `file_open_dev` comes back, and it either fails inside the tables or hands
out an element of the table of its driver (a ramdisk that has been created), exactly when
it is not asked for the terminal one past the last while the driver of terminals is
registered. -/
theorem openSafe_iff {t : Tables} (h : Reachable t) (test : Byte) (depth : Nat) (rdev : BitVec 32) :
    ∃ r, fileOpenDev test (depth + 2) t rdev = some r ∧
      (OpenSafe r ↔ ¬ ((rdev >>> 8).toNat = MAJ_TTY ∧ t.chrdevDrivers MAJ_TTY ≠ none ∧
        (rdev &&& 0xff#32).toNat = TTY_CT)) := by
  have hreg := h.registered
  rw [fileOpenDev]
  dsimp only
  by_cases hmaj : (rdev >>> 8).toNat = 0 ∨ MAJORS_MAX ≤ (rdev >>> 8).toNat
  · rw [if_pos hmaj]
    refine ⟨_, rfl, iff_of_true (openSafe_failed enodev_ne_zero rfl) ?_⟩
    rintro ⟨hmaj', -⟩
    rw [hmaj'] at hmaj
    exact absurd hmaj (by decide)
  rw [if_neg hmaj]
  cases hop : t.chrdevDrivers (rdev >>> 8).toNat with
  | none =>
    refine ⟨_, rfl, iff_of_true (openSafe_failed enodev_ne_zero rfl) ?_⟩
    rintro ⟨hmaj', hsome, -⟩
    rw [hmaj'] at hop
    exact hsome hop
  | some op =>
    have hown := hreg _ _ hop
    cases op with
    | serial =>
      refine ⟨_, rfl, iff_of_true (serialOpenDev_safe test t rfl _) ?_⟩
      rintro ⟨hmaj', -⟩
      exact absurd (hown.symm.trans hmaj') (by decide)
    | ramdisk =>
      refine ⟨_, rfl, iff_of_true (ramdiskOpenDev_safe t rfl _) ?_⟩
      rintro ⟨hmaj', -⟩
      exact absurd (hown.symm.trans hmaj') (by decide)
    | tty =>
      obtain ⟨r, hopen, hsafe⟩ := @ttyOpenDev_safe_iff t hreg test depth
        { File.zero Driver with
          fStat := { (File.zero Driver).fStat with fType := .chr, fRdev := rdev }
          fOp := some .tty } rfl (rdev &&& 0xff#32).toNat
      have hmaj' : (rdev >>> 8).toNat = MAJ_TTY := hown
      have hsome : t.chrdevDrivers MAJ_TTY ≠ none := by
        rw [← hmaj', hop]
        exact Option.some_ne_none _
      refine ⟨r, hopen, ?_⟩
      rw [hsafe]
      simp only [hmaj', hsome, ne_eq, not_false_eq_true, true_and]

/-- The ramdisks of `Munix.Drivers.Vfs`, where only their driver counts. -/
structure Tables.SameDisks (t : Tables) (dev : Devices) : Prop where
  drivers : ∀ maj, dev.chrdevDrivers maj = if t.chrdevDrivers maj = some .ramdisk then some .ramdisk else none
  none    : ∀ i < RAMDISKS_MAX, dev.ramdisks i = none → (t.ramdisks i).addr = 0#32
  some    : ∀ i < RAMDISKS_MAX, ∀ data, dev.ramdisks i = some data →
    (t.ramdisks i).addr ≠ 0#32 ∧ (t.ramdisks i).rdSize = BitVec.ofNat 32 data.length

/-- On the ramdisks, this is the `file_open_dev` of the file system. -/
theorem fileOpenDev_ramdisk {t : Tables} {dev : Devices} (h : t.SameDisks dev) (test : Byte)
    (depth : Nat) {rdev : BitVec 32} (hop : t.chrdevDrivers (rdev >>> 8).toNat = some .ramdisk) :
    ∃ r, fileOpenDev test (depth + 1) t rdev = some r ∧ r.ret = (Munix.fileOpenDev dev rdev).1 ∧
      r.file.fDriverData = (Munix.fileOpenDev dev rdev).2.fDriverData ∧
      r.file.fStat = (Munix.fileOpenDev dev rdev).2.fStat := by
  rw [fileOpenDev, Munix.fileOpenDev]
  dsimp only
  split_ifs with hmaj
  · exact ⟨_, rfl, rfl, rfl, rfl⟩
  rw [h.drivers, hop, if_pos rfl]
  refine ⟨_, rfl, ?_⟩
  dsimp only [Devices.openDev, ramdiskOpenDev, Munix.ramdiskOpenDev]
  split_ifs with hmin haddr
  · exact ⟨rfl, rfl, rfl⟩
  · cases hdisk : dev.ramdisks (rdev &&& 0xff#32).toNat with
    | none => exact ⟨rfl, rfl, rfl⟩
    | some data => exact absurd haddr (h.some _ (Nat.lt_of_not_le hmin) data hdisk).1
  · cases hdisk : dev.ramdisks (rdev &&& 0xff#32).toNat with
    | none => exact absurd (h.none _ (Nat.lt_of_not_le hmin) hdisk) haddr
    | some data =>
      refine ⟨rfl, rfl, ?_⟩
      rw [(h.some _ (Nat.lt_of_not_le hmin) data hdisk).2]
      rfl

/-- The tables as the kernel starts, with zeros behind them. -/
def zeroTables : Tables where
  chrdevDrivers _ := none
  serials _ := 0#16
  ttys _ := ⟨File.zero Driver, false⟩
  ramdisks _ := ⟨0#32, 0#32⟩

theorem zeroTables_initial : Initial zeroTables :=
  ⟨fun _ => rfl, fun _ _ => rfl, fun _ _ => rfl, fun _ _ => rfl⟩

/-- The kernel's drivers, and a first terminal. -/
theorem openSafe_iff_tty1 :
    ∃ r, fileOpenDev 0x0a#8 2 (initDriver (initDriver zeroTables .serial) .tty) 0x301#32 = some r ∧
      OpenSafe r := by
  obtain ⟨r, hopen, hsafe⟩ := openSafe_iff
    ((Reachable.initial zeroTables_initial).initDriver .serial |>.initDriver .tty) 0x0a#8 0 0x301#32
  exact ⟨r, hopen, hsafe.mpr (by decide)⟩

/-- The minor number of the second serial port passes the check of the terminals, of which
there are two, with the numbers 0 and 1. -/
theorem openSafe_fails :
    ¬ ∀ t, Reachable t → ∀ (test : Byte) (rdev : BitVec 32) (r : Opened),
      fileOpenDev test 2 t rdev = some r → OpenSafe r := by
  intro h
  have hreach : Reachable (initDriver (initDriver zeroTables .serial) .tty) :=
    (Reachable.initial zeroTables_initial).initDriver .serial |>.initDriver .tty
  have hout : ¬ InTable (.tty, 2) := by
    change ¬ 2 < TTY_CT
    decide
  obtain ⟨d, i, hd, hi, hin, -⟩ := (h _ hreach 0x0a#8 0x302#32 _ rfl).1 rfl
  cases hd
  cases hi
  exact hout hin

end Chrdev

end Munix
