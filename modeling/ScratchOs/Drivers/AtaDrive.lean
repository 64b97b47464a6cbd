import Mathlib.Logic.Function.Basic
import Mathlib.Logic.Relation
import ScratchOs.Drivers.Ata

/-!
# The ATA drives and the machine they are in

A `Drive` is a PIO drive: what it does when a register is written, when its data port is used,
and by itself. It stores what it is given, and ends a read at a sector it cannot read. A
`Machine` has four of them, the two interrupt lines and the two flag bytes of the driver; the
driver, the interrupt handlers and the drives take their steps in any order.

Proofs about one transfer do not want four drives. `Line` is the machine as the driver of one
device sees it, and `Machine.Step.line` says that the machine moves as that line does, or not
where the line can see.

## What is proved of a run

A run is any sequence of steps, so the two kinds of statement about it need two arguments. That
something holds of every state of a run is an invariant of the line (`Polite.steps`), and the
invariants of the transfers say where the call is, what the drive is doing meanwhile, and whose
interrupt is about. That a call comes to its end is not about every run: a scheduler that never
lets the drive move is a run as well. `Polite.reaches` says that it can always come to its end, and
the reason is a weight that every step makes smaller. So no assumption about fairness is needed, and
no run is infinite.

The interrupt carries what the drive means with it. Hardware has one line and no such information,
and nothing that is executed looks at it; it is there so that a driver that takes the interrupt for
one sector as the one for another can be told from a driver that does not.
-/

set_option autoImplicit false

namespace ScratchOs.Drivers

/-! ## One drive -/

/-- Where a drive is in a command: its first sector, the number of sectors, the sector it is at
and the words of that sector that have gone through the data port. -/
inductive DrivePhase
  | idle
  | writePrep (lba n k : Nat)
  | writeReady (lba n k : Nat) (got : List UInt16)
  | writeBusy (lba n k : Nat) (got : List UInt16)
  | readBusy (lba n k : Nat)
  | readReady (lba n k j : Nat)
  | flushBusy
  | failed (k : Nat)

structure Drive where
  phase : DrivePhase
  disk : Nat → Nat → UInt16
  unreadable : Nat → Bool

def Drive.status (v : Drive) : UInt8 :=
  match v.phase with
  | .idle => 0x40
  | .failed _ => 0x41
  | .writeReady .. => 0x48
  | .readReady .. => 0x48
  | _ => 0x80

/-- No command is in progress. -/
def DrivePhase.rests : DrivePhase → Bool
  | .idle => true
  | .failed _ => true
  | _ => false

def Drive.command (tf : TaskFile) (value : UInt8) (v : Drive) : Drive :=
  if v.phase.rests then
    if value = 0x20 then { v with phase := .readBusy tf.lba tf.sectors 0 }
    else if value = 0x30 then { v with phase := .writePrep tf.lba tf.sectors 0 }
    else if value = 0xE7 then { v with phase := .flushBusy }
    else v
  else v

/-- A word comes in at the data port. -/
def Drive.accept (word : UInt16) (v : Drive) : Drive :=
  match v.phase with
  | .writeReady lba n k got =>
    { v with
      phase := if got.length = 255 then .writeBusy lba n k (got ++ [word])
        else .writeReady lba n k (got ++ [word]) }
  | _ => v

/-- A word goes out at the data port. -/
def Drive.supply (v : Drive) : UInt16 × Drive :=
  match v.phase with
  | .readReady lba n k j =>
    (v.disk (lba + k) j,
      { v with
        phase := if j ≠ 255 then .readReady lba n k (j + 1)
          else if k + 1 = n then .idle else .readBusy lba n (k + 1) })
  | _ => (0xFFFF, v)

def storeSector (disk : Nat → Nat → UInt16) (sector : Nat) (words : List UInt16) :
    Nat → Nat → UInt16 :=
  Function.update disk sector fun j => words.getD j 0

/-- What a drive does by itself, and the interrupt it raises with it. -/
def Drive.work (v : Drive) : Option (Drive × Option Irq) :=
  match v.phase with
  | .writePrep lba n k => some ({ v with phase := .writeReady lba n k [] }, none)
  | .writeBusy lba n k got =>
    some ({ v with
        phase := if k + 1 = n then .idle else .writePrep lba n (k + 1)
        disk := storeSector v.disk (lba + k) got }, some (.stored k))
  | .readBusy lba n k =>
    some ({ v with
        phase := if v.unreadable (lba + k) then .failed k else .readReady lba n k 0 },
      some (.ready k))
  | .flushBusy => some ({ v with phase := .idle }, some .flushed)
  | _ => none

/-- Without a command a drive does nothing by itself. -/
theorem Drive.work_eq_none {v : Drive} (h : v.phase.rests) : v.work = none := by
  obtain ⟨phase, disk, unreadable⟩ := v
  cases phase with
  | idle => rfl
  | failed k => rfl
  | _ => cases h

/-! ## The machine -/

/-- `pending` is the interrupt of a cable that has been raised and not yet handled; `flag` is
`ata_primary_irq` and `ata_secondary_irq`, `none` where the byte is 0, and otherwise also which
interrupt has set it. `ops` is what is left of the call in progress, `out` the buffer it reads
into, and `log` has an entry for each wait that has ended: the interrupt it was for and the one
it got. -/
structure Machine where
  ops : List Op
  out : Nat → UInt16
  log : List (Irq × Irq)
  taskFile : Cable → TaskFile
  drive : Cable × Bool → Drive
  pending : Cable → Option Irq
  flag : Cable → Option Irq

namespace Machine

/-- The drive of a cable that its registers select. -/
def selected (s : Machine) (c : Cable) : Cable × Bool := (c, (s.taskFile c).slaveBit)

def setDrive (s : Machine) (x : Cable × Bool) (v : Drive) : Machine :=
  { s with drive := Function.update s.drive x v }

/-- A port that no cable answers reads as all ones. -/
def status (s : Machine) (port : UInt16) : UInt8 :=
  match portOf port with
  | some (c, reg) => if reg = 7 then (s.drive (s.selected c)).status else 0xFF
  | none => 0xFF

/-- The command register is the selected drive's; the others are kept for both drives of the cable,
whichever is selected. -/
def outb (s : Machine) (port : UInt16) (value : UInt8) : Machine :=
  match portOf port with
  | some (c, reg) =>
    if reg = 7 then
      s.setDrive (s.selected c) ((s.drive (s.selected c)).command (s.taskFile c) value)
    else { s with taskFile := Function.update s.taskFile c ((s.taskFile c).write reg value) }
  | none => s

def outw (s : Machine) (port word : UInt16) : Machine :=
  match portOf port with
  | some (c, reg) =>
    if reg = 0 then s.setDrive (s.selected c) ((s.drive (s.selected c)).accept word) else s
  | none => s

/-- Reading the data port changes the drive: the next word is offered. -/
def inw (s : Machine) (port : UInt16) : UInt16 × Machine :=
  match portOf port with
  | some (c, reg) =>
    if reg = 0 then
      let (word, v) := (s.drive (s.selected c)).supply
      (word, s.setDrive (s.selected c) v)
    else (0xFFFF, s)
  | none => (0xFFFF, s)

/-- One operation of the driver; `none` where it has to go on waiting. -/
def exec (s : Machine) : Op → Option Machine
  | .outb port value => some (s.outb port value)
  | .outw port word => some (s.outw port word)
  | .inw port index =>
    let (word, s) := s.inw port
    some { s with out := Function.update s.out index word }
  | .waitNotBusy port => if s.status port &&& 0x80 ≠ 0 then none else some s
  | .waitDataRequest port =>
    if s.status port &&& 0x01 ≠ 0 then some { s with ops := [] }
    else if s.status port &&& 0x80 = 0 ∧ s.status port &&& 0x08 ≠ 0 then some s
    else none
  | .clearFlag c => some { s with flag := Function.update s.flag c none }
  | .waitFlag c irq => (s.flag c).map fun got => { s with log := s.log ++ [(irq, got)] }

/-- The driver, one of `ata_primary_irq_handler` and `ata_secondary_irq_handler`, or a drive. Which
of those that can move does so next is open. -/
inductive Step : Machine → Machine → Prop
  | driver {s s' : Machine} {op : Op} {rest : List Op} (hops : s.ops = op :: rest)
      (hexec : exec { s with ops := rest } op = some s') : Step s s'
  | handler {s : Machine} {irq : Irq} (c : Cable) (hpending : s.pending c = some irq) :
      Step s { s with
        pending := Function.update s.pending c none
        flag := Function.update s.flag c (some irq) }
  | drive {s : Machine} {v : Drive} {irq : Option Irq} (x : Cable × Bool)
      (hwork : (s.drive x).work = some (v, irq)) :
      Step s { s.setDrive x v with
        pending := Function.update s.pending x.1 (irq.or (s.pending x.1)) }

abbrev Steps : Machine → Machine → Prop := Relation.ReflTransGen Step

end Machine

/-! ## One device -/

/-- The drive a device stands for. -/
def AtaDevice.unit (d : AtaDevice) : Cable × Bool := (d.cable, decide (d.slave = 1))

/-- The machine from the side of one device: its cable and its drive. -/
structure Line where
  ops : List Op
  out : Nat → UInt16
  log : List (Irq × Irq)
  taskFile : TaskFile
  drive : Drive
  pending : Option Irq
  flag : Option Irq

def Machine.line (s : Machine) (d : AtaDevice) : Line where
  ops := s.ops
  out := s.out
  log := s.log
  taskFile := s.taskFile d.cable
  drive := s.drive d.unit
  pending := s.pending d.cable
  flag := s.flag d.cable

/-- One of the registers that both drives of the cable have is written. -/
def RegisterOp (d : AtaDevice) (op : Op) : Prop :=
  ∃ reg ∈ ([2, 3, 4, 5, 6] : List UInt16), ∃ value, op = .outb (d.base + reg) value

/-- What a transfer of the device does with its ports and its flag. -/
inductive LineOp (d : AtaDevice) : Op → Prop
  | register {op : Op} (h : RegisterOp d op) : LineOp d op
  | command (value : UInt8) : LineOp d (.outb (d.base + 7) value)
  | outw (word : UInt16) : LineOp d (.outw d.base word)
  | inw (index : Nat) : LineOp d (.inw d.base index)
  | waitNotBusy : LineOp d (.waitNotBusy (d.base + 7))
  | waitDataRequest : LineOp d (.waitDataRequest (d.base + 7))
  | clearFlag : LineOp d (.clearFlag d.cable)
  | waitFlag (irq : Irq) : LineOp d (.waitFlag d.cable irq)

namespace Line

/-- One operation, where it is a `LineOp`. -/
def exec (d : AtaDevice) (l : Line) : Op → Option Line
  | .outb port value =>
    some (if port = d.base + 7 then { l with drive := l.drive.command l.taskFile value }
      else { l with taskFile := l.taskFile.write (port - d.base) value })
  | .outw _ word => some { l with drive := l.drive.accept word }
  | .inw _ index =>
    some { l with out := Function.update l.out index l.drive.supply.1, drive := l.drive.supply.2 }
  | .waitNotBusy _ => if l.drive.status &&& 0x80 ≠ 0 then none else some l
  | .waitDataRequest _ =>
    if l.drive.status &&& 0x01 ≠ 0 then some { l with ops := [] }
    else if l.drive.status &&& 0x80 = 0 ∧ l.drive.status &&& 0x08 ≠ 0 then some l
    else none
  | .clearFlag _ => some { l with flag := none }
  | .waitFlag _ irq => l.flag.map fun got => { l with log := l.log ++ [(irq, got)] }

/-- The steps of the machine that the line can see. -/
inductive Step (d : AtaDevice) : Line → Line → Prop
  | driver {l l' : Line} {op : Op} {rest : List Op} (hops : l.ops = op :: rest)
      (hexec : exec d { l with ops := rest } op = some l') : Step d l l'
  | handler {l : Line} {irq : Irq} (hpending : l.pending = some irq) :
      Step d l { l with pending := none, flag := some irq }
  | drive {l : Line} {v : Drive} {irq : Option Irq} (hwork : l.drive.work = some (v, irq)) :
      Step d l { l with drive := v, pending := irq.or l.pending }

/-- The drive is the selected one, or the next thing is to write a register. -/
def Talks (d : AtaDevice) (l : Line) : Prop :=
  l.taskFile.slaveBit = decide (d.slave = 1) ∨ ∀ op ∈ l.ops.head?, RegisterOp d op

/-- Before anything but a register the drive is selected. -/
theorem Talks.selected {d : AtaDevice} {l : Line} (h : l.Talks d) {op : Op} {rest : List Op}
    (hops : l.ops = op :: rest) (hop : ¬ RegisterOp d op) :
    l.taskFile.slaveBit = decide (d.slave = 1) := by
  refine h.resolve_right fun hreg => hop (hreg op ?_)
  rw [hops, List.head?_cons]
  rfl

end Line

/-- The data port is the base itself. -/
theorem portOf_base {d : AtaDevice} (h : d.Wired) : portOf d.base = some (d.cable, 0) := by
  have h₀ := h.portOf (show (0 : UInt16) ∈ _ by decide)
  rwa [add_zero] at h₀

/-- Why the command and the data ports are not what `RegisterOp` means. -/
theorem register_ne_command {d : AtaDevice} {reg : UInt16}
    (hreg : reg ∈ ([2, 3, 4, 5, 6] : List UInt16)) :
    reg ≠ 7 ∧ d.base + reg ≠ d.base + 7 ∧ reg ∈ ([0, 1, 2, 3, 4, 5, 6, 7] : List UInt16) := by
  have hall : ∀ reg ∈ ([2, 3, 4, 5, 6] : List UInt16), reg ≠ 7 ∧
      reg ∈ ([0, 1, 2, 3, 4, 5, 6, 7] : List UInt16) := by
    intro reg hreg
    simp only [List.mem_cons, List.not_mem_nil, or_false] at hreg
    rcases hreg with rfl | rfl | rfl | rfl | rfl <;> decide
  obtain ⟨hne, hmem⟩ := hall reg hreg
  exact ⟨hne, fun h => hne (add_left_cancel h), hmem⟩

namespace Machine

variable {d : AtaDevice} {s s' : Machine}

theorem setDrive_line (v : Drive) :
    (s.setDrive d.unit v).line d = { s.line d with drive := v } := by
  simp [line, setDrive]

theorem outb_register (hd : d.Wired) {reg : UInt16}
    (hreg : reg ∈ ([2, 3, 4, 5, 6] : List UInt16)) (value : UInt8) :
    s.outb (d.base + reg) value = { s with
      taskFile := Function.update s.taskFile d.cable ((s.taskFile d.cable).write reg value) } := by
  obtain ⟨hne, _, hmem⟩ := register_ne_command (d := d) hreg
  simp only [outb, hd.portOf hmem, if_neg hne]

theorem outb_command (hd : d.Wired) (hunit : s.selected d.cable = d.unit) (value : UInt8) :
    s.outb (d.base + 7) value =
      s.setDrive d.unit ((s.drive d.unit).command (s.taskFile d.cable) value) := by
  simp only [outb, hd.portOf (show (7 : UInt16) ∈ _ by decide), if_pos, hunit]

theorem outw_unit (hd : d.Wired) (hunit : s.selected d.cable = d.unit) (word : UInt16) :
    s.outw d.base word = s.setDrive d.unit ((s.drive d.unit).accept word) := by
  simp only [outw, portOf_base hd, if_pos, hunit]

theorem inw_unit (hd : d.Wired) (hunit : s.selected d.cable = d.unit) :
    s.inw d.base = ((s.drive d.unit).supply.1, s.setDrive d.unit (s.drive d.unit).supply.2) := by
  simp only [inw, portOf_base hd, if_pos, hunit]

theorem status_unit (hd : d.Wired) (hunit : s.selected d.cable = d.unit) :
    s.status (d.base + 7) = (s.drive d.unit).status := by
  simp only [status, hd.portOf (show (7 : UInt16) ∈ _ by decide), if_pos, hunit]

theorem setDrive_of_ne {x : Cable × Bool} (hx : x ≠ d.unit) (v : Drive) :
    (s.setDrive d.unit v).drive x = s.drive x := Function.update_of_ne hx ..

/-- Of an operation on the device: what the line sees of it, and that no other drive does. -/
theorem exec_line (hd : d.Wired) {op : Op} (hop : LineOp d op)
    (hsel : ¬ RegisterOp d op → (s.taskFile d.cable).slaveBit = decide (d.slave = 1)) :
    (s.exec op).map (·.line d) = (s.line d).exec d op ∧
      ∀ s', s.exec op = some s' → ∀ x ≠ d.unit, s'.drive x = s.drive x := by
  have hunit : ¬ RegisterOp d op → s.selected d.cable = d.unit := by
    intro hne
    rw [selected, hsel hne, AtaDevice.unit]
  cases hop with
  | register h =>
    obtain ⟨reg, hreg, value, rfl⟩ := h
    rw [exec, outb_register hd hreg]
    constructor
    · rw [Line.exec, if_neg (register_ne_command hreg).2.1, add_sub_cancel_left]
      simp [line]
    · intro s' hs' x _
      cases hs'
      rfl
  | command value =>
    have hne : ¬ RegisterOp d (.outb (d.base + 7) value) := by
      rintro ⟨reg, hreg, _, heq⟩
      exact (register_ne_command hreg).2.1 (Op.outb.inj heq).1.symm
    rw [exec, outb_command hd (hunit hne)]
    constructor
    · rw [Option.map_some, setDrive_line, Line.exec, if_pos rfl]
      rfl
    · intro s' hs' x hx
      cases hs'
      exact setDrive_of_ne hx _
  | outw word =>
    have hne : ¬ RegisterOp d (.outw d.base word) := by rintro ⟨_, _, _, heq⟩; cases heq
    rw [exec, outw_unit hd (hunit hne)]
    constructor
    · rw [Option.map_some, setDrive_line]
      rfl
    · intro s' hs' x hx
      cases hs'
      exact setDrive_of_ne hx _
  | inw index =>
    have hne : ¬ RegisterOp d (.inw d.base index) := by rintro ⟨_, _, _, heq⟩; cases heq
    rw [exec, inw_unit hd (hunit hne)]
    constructor
    · rw [Option.map_some]
      simp [Line.exec, line, setDrive]
    · intro s' hs' x hx
      cases hs'
      exact setDrive_of_ne hx _
  | waitNotBusy =>
    have hne : ¬ RegisterOp d (.waitNotBusy (d.base + 7)) := by rintro ⟨_, _, _, heq⟩; cases heq
    rw [exec, status_unit hd (hunit hne)]
    constructor
    · rw [Line.exec, line]
      split_ifs <;> rfl
    · intro s' hs' x _
      split_ifs at hs'
      cases hs'
      rfl
  | waitDataRequest =>
    have hne : ¬ RegisterOp d (.waitDataRequest (d.base + 7)) := by
      rintro ⟨_, _, _, heq⟩
      cases heq
    rw [exec, status_unit hd (hunit hne)]
    constructor
    · rw [Line.exec, line]
      split_ifs <;> rfl
    · intro s' hs' x _
      split_ifs at hs'
      · cases hs'
        rfl
      · cases hs'
        rfl
  | clearFlag =>
    constructor
    · simp [exec, Line.exec, line]
    · intro s' hs' x _
      cases hs'
      rfl
  | waitFlag irq =>
    constructor
    · rw [exec, Line.exec, Option.map_map, line]
      rfl
    · intro s' hs' x _
      obtain ⟨got, _, rfl⟩ := Option.map_eq_some_iff.mp hs'
      rfl

/-- Every step of the machine is a step of the line, or the line does not see it. What it does not
see is a handler of the other cable. -/
theorem Step.line (hd : d.Wired) (hops : ∀ op ∈ s.ops, LineOp d op)
    (htalks : (s.line d).Talks d) (hrest : ∀ x ≠ d.unit, (s.drive x).phase.rests)
    (h : Step s s') :
    (Line.Step d (s.line d) (s'.line d) ∨ s'.line d = s.line d) ∧
      ∀ x ≠ d.unit, s'.drive x = s.drive x := by
  cases h with
  | @driver _ op rest heq hexec =>
    have hop := hops op (by rw [heq]; exact List.mem_cons_self)
    obtain ⟨hmap, hframe⟩ := exec_line (s := { s with ops := rest }) hd hop (htalks.selected heq)
    rw [hexec, Option.map_some] at hmap
    exact ⟨Or.inl (.driver heq hmap.symm), hframe s' hexec⟩
  | @handler irq c hpending =>
    refine ⟨?_, fun x _ => rfl⟩
    rcases eq_or_ne c d.cable with rfl | hne
    · refine Or.inl ?_
      have hstep := Line.Step.handler (d := d) (l := s.line d) hpending
      simpa [Machine.line] using hstep
    · refine Or.inr ?_
      simp [Machine.line, Function.update_of_ne hne.symm]
  | @drive v irq x hwork =>
    rcases eq_or_ne x d.unit with rfl | hne
    · refine ⟨Or.inl ?_, fun y hy => setDrive_of_ne hy v⟩
      have hstep := Line.Step.drive (d := d) (l := s.line d) hwork
      simpa [Machine.line, setDrive, AtaDevice.unit] using hstep
    · -- The other drives of the machine rest.
      rw [Drive.work_eq_none (hrest x hne)] at hwork
      cases hwork

/-- The machine can make every step of the line. -/
theorem step_of_line (hd : d.Wired) (hops : ∀ op ∈ s.ops, LineOp d op)
    (htalks : (s.line d).Talks d) {l : Line} (h : Line.Step d (s.line d) l) :
    ∃ s', Step s s' ∧ s'.line d = l := by
  generalize hl : s.line d = l₀ at h
  cases h with
  | @driver _ op rest heq hexec =>
    subst hl
    have hop := hops op (by rw [show s.ops = _ from heq]; exact List.mem_cons_self)
    have hmap := (exec_line (s := { s with ops := rest }) hd hop (htalks.selected heq)).1
    rw [show (Machine.line { s with ops := rest } d).exec d op = some l from hexec] at hmap
    obtain ⟨s', hs', rfl⟩ := Option.map_eq_some_iff.mp hmap
    exact ⟨s', .driver heq hs', rfl⟩
  | handler hpending =>
    subst hl
    refine ⟨_, .handler d.cable hpending, ?_⟩
    simp [line]
  | drive hwork =>
    subst hl
    refine ⟨_, .drive d.unit hwork, ?_⟩
    simp [line, setDrive, AtaDevice.unit]

end Machine

/-! ## A transfer as an invariant of the line -/

/-- While `inv` holds of the line the driver talks to its own drive. -/
structure Polite (d : AtaDevice) (inv : Line → Prop) : Prop where
  ops : ∀ l, inv l → ∀ op ∈ l.ops, LineOp d op
  talks : ∀ l, inv l → l.Talks d

section Runs

variable {d : AtaDevice} {inv : Line → Prop} {s s' : Machine}

/-- One step of the machine from the side of a polite call. -/
theorem Polite.step (h : Polite d inv) (hd : d.Wired)
    (hrest : ∀ x ≠ d.unit, (s.drive x).phase.rests) (hinv : inv (s.line d))
    (hs : Machine.Step s s') :
    (Line.Step d (s.line d) (s'.line d) ∨ s'.line d = s.line d) ∧
      ∀ x ≠ d.unit, s'.drive x = s.drive x :=
  hs.line hd (h.ops _ hinv) (h.talks _ hinv) hrest

/-- **The invariant over whole runs**, whatever order the driver, the handlers and the drives
take; and the other drives are left alone. -/
theorem Polite.steps (h : Polite d inv) (hd : d.Wired)
    (hstep : ∀ l l', inv l → Line.Step d l l' → inv l')
    (hrest : ∀ x ≠ d.unit, (s.drive x).phase.rests) (hinv : inv (s.line d))
    (hs : Machine.Steps s s') :
    inv (s'.line d) ∧ ∀ x ≠ d.unit, s'.drive x = s.drive x := by
  induction hs with
  | refl => exact ⟨hinv, fun x _ => rfl⟩
  | tail _ hlast ih =>
    obtain ⟨hinv', hothers⟩ := ih
    obtain ⟨hline, hframe⟩ := h.step hd (fun x hx => by rw [hothers x hx]; exact hrest x hx)
      hinv' hlast
    refine ⟨?_, fun x hx => (hframe x hx).trans (hothers x hx)⟩
    rcases hline with hline | heq
    · exact hstep _ _ hinv' hline
    · rw [heq]
      exact hinv'

end Runs

/-! ### Every run ends

An operation counts for four. It can make the drive busy, which is worth three at most, and a drive
that works loses more than the interrupt it raises adds. So the weight goes down with every step,
whoever takes it. -/

/-- The steps the drive can take by itself, and the interrupts they bring. -/
def DrivePhase.weight : DrivePhase → Nat
  | .writePrep .. => 1
  | .writeBusy .. => 3
  | .readBusy .. => 2
  | .flushBusy => 2
  | _ => 0

/-- Bounds the steps that are left. -/
def Line.weight (l : Line) : Nat :=
  4 * l.ops.length + l.drive.phase.weight + l.pending.toList.length

theorem Drive.command_weight (tf : TaskFile) (value : UInt8) (v : Drive) :
    (v.command tf value).phase.weight ≤ v.phase.weight + 2 := by
  unfold Drive.command
  split_ifs with hrest
  · exact Nat.le_add_left _ _
  · exact Nat.le_trans (Nat.le_succ _) (Nat.le_add_left _ _)
  · exact Nat.le_add_left _ _
  · exact Nat.le_add_right _ _
  · exact Nat.le_add_right _ _

theorem Drive.accept_weight (word : UInt16) (v : Drive) :
    (v.accept word).phase.weight ≤ v.phase.weight + 3 := by
  obtain ⟨phase, disk, unreadable⟩ := v
  cases phase with
  | writeReady lba n k got =>
    show DrivePhase.weight (if got.length = 255 then .writeBusy lba n k (got ++ [word])
      else .writeReady lba n k (got ++ [word])) ≤ 0 + 3
    split_ifs with hfull
    · -- The last word: the drive is busy with the sector.
      exact Nat.le_refl 3
    · exact Nat.zero_le _
  | idle | writePrep | writeBusy | readBusy | readReady | flushBusy | failed =>
    exact Nat.le_add_right _ _

theorem Drive.supply_weight (v : Drive) :
    v.supply.2.phase.weight ≤ v.phase.weight + 2 := by
  obtain ⟨phase, disk, unreadable⟩ := v
  cases phase with
  | readReady lba n k j =>
    show DrivePhase.weight (if j ≠ 255 then .readReady lba n k (j + 1)
      else if k + 1 = n then .idle else .readBusy lba n (k + 1)) ≤ 0 + 2
    split_ifs with hmore hlast
    · exact Nat.zero_le _
    · exact Nat.zero_le _
    · -- The last word of a sector that is not the last: the drive is busy with the next.
      exact Nat.le_refl 2
  | idle | writePrep | writeReady | writeBusy | readBusy | flushBusy | failed =>
    exact Nat.le_add_right _ _

theorem Drive.work_weight {v v' : Drive} {irq : Option Irq} (h : v.work = some (v', irq)) :
    v'.phase.weight + irq.toList.length < v.phase.weight := by
  obtain ⟨phase, disk, unreadable⟩ := v
  cases phase with
  | writePrep lba n k =>
    cases h
    exact Nat.zero_lt_one
  | writeBusy lba n k got =>
    cases h
    show DrivePhase.weight (if k + 1 = n then .idle else .writePrep lba n (k + 1)) + 1 < 3
    split_ifs with hlast
    · exact (by decide : 0 + 1 < 3)
    · exact (by decide : 1 + 1 < 3)
  | readBusy lba n k =>
    cases h
    show DrivePhase.weight (if unreadable (lba + k) then .failed k else .readReady lba n k 0) + 1 < 2
    split_ifs with hbad
    · exact Nat.one_lt_two
    · exact Nat.one_lt_two
  | flushBusy =>
    cases h
    exact Nat.one_lt_two
  | idle | writeReady | readReady | failed => cases h

/-- What the driver leaves of an operation it has begun. -/
theorem Line.exec_weight {d : AtaDevice} {l l' : Line} {op : Op} (h : l.exec d op = some l') :
    l'.weight ≤ l.weight + 3 := by
  unfold Line.weight
  cases op with
  | outb port value =>
    rw [Line.exec, Option.some.injEq] at h
    subst h
    have := l.drive.command_weight l.taskFile value
    split_ifs
    · simp only
      omega
    · simp only
      omega
  | outw port word =>
    cases h
    have := l.drive.accept_weight word
    simp only
    omega
  | inw port index =>
    cases h
    have := l.drive.supply_weight
    simp only
    omega
  | waitNotBusy port =>
    rw [Line.exec] at h
    split_ifs at h
    cases h
    omega
  | waitDataRequest port =>
    rw [Line.exec] at h
    split_ifs at h
    · cases h
      simp only [List.length_nil]
      omega
    · cases h
      omega
  | clearFlag c =>
    cases h
    simp only
    omega
  | waitFlag c irq =>
    obtain ⟨got, _, rfl⟩ := Option.map_eq_some_iff.mp h
    simp only
    omega

theorem Line.Step.weight_lt {d : AtaDevice} {l l' : Line} (h : Line.Step d l l') :
    l'.weight < l.weight := by
  cases h with
  | @driver _ op rest hops hexec =>
    have hle := Line.exec_weight hexec
    unfold Line.weight at hle ⊢
    rw [hops, List.length_cons]
    simp only at hle
    omega
  | handler hpending => simp [Line.weight, hpending]
  | @drive v irq hwork =>
    have hlt := Drive.work_weight hwork
    have hor : (irq.or l.pending).toList.length ≤ irq.toList.length + l.pending.toList.length := by
      cases irq <;> simp
    unfold Line.weight
    simp only
    omega

/-- **What the line can always go on to do happens in some run.** No fairness is needed: every
step makes the line lighter. -/
theorem Polite.reaches {d : AtaDevice} {inv : Line → Prop} (h : Polite d inv)
    (goal : Line → Prop) (hd : d.Wired)
    (hnext : ∀ l, inv l → goal l ∨ ∃ l', Line.Step d l l' ∧ (inv l' ∨ goal l')) {s : Machine}
    (hrest : ∀ x ≠ d.unit, (s.drive x).phase.rests) (hinv : inv (s.line d)) :
    ∃ s', Machine.Steps s s' ∧ goal (s'.line d) := by
  induction hw : (s.line d).weight using Nat.strong_induction_on generalizing s with
  | _ w ih =>
    rcases hnext _ hinv with hgoal | ⟨l, hl, hthen⟩
    · exact ⟨s, .refl, hgoal⟩
    obtain ⟨s₁, hstep, rfl⟩ := Machine.step_of_line hd (h.ops _ hinv) (h.talks _ hinv) hl
    rcases hthen with hinv₁ | hgoal
    · have hframe := (h.step hd hrest hinv hstep).2
      obtain ⟨s₂, hs₂, hdone⟩ := ih _ (hw ▸ hl.weight_lt)
        (fun x hx => by rw [hframe x hx]; exact hrest x hx) hinv₁ rfl
      exact ⟨s₂, .head hstep hs₂, hdone⟩
    · exact ⟨s₁, .single hstep, hgoal⟩

end ScratchOs.Drivers
