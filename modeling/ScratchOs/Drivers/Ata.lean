import Mathlib.Data.List.Basic
import ScratchOs.Drivers.Ports

/-!
# The ATA driver

`drivers/blocks/ata/ata_pio.c` and `drivers/blocks/block_device.c`. There are two cables of two
drives, the four of them behind ports at `ATA_PRIMARY_BASE` and `ATA_SECONDARY_BASE`.

`ataInit` talks to the ports directly (`IoPorts`). The transfer functions share the machine with
an interrupt handler and a drive, so they are given as what they do, one port access or one
wait after the other (`Op`); `AtaDrive` runs them.

A drive knows the sector from its registers. They hold 28 bits of address, however many sectors
`ataIdentify` has found, and `blocksInPlace_iff` says what comes of it.

## Functions as lists of operations

`ata_read_lba28` waits in a loop for a byte that an interrupt handler sets. A function from states
to states cannot say that; it would have to know when the handler runs. So the transfers are what
they do, an `Op` at a time, with the wait as one operation that can be stuck. The loops over
sectors and words are unrolled by `flatMap`, since how many rounds they make depends on the
arguments; an operation that returns from the function on an error ends the list where it stands.

`ata_identify` polls, and there nothing else comes into it but the drive. It is a function, with a
bound on how often each loop looks; the drive behind the ports is a parameter and may answer
anything at all.
-/

set_option autoImplicit false

namespace ScratchOs.Drivers

/-! ## Devices -/

def ataPrimaryBase : UInt16 := 0x1F0

def ataSecondaryBase : UInt16 := 0x170

def ataPrimaryControl : UInt16 := 0x3F6

def ataSecondaryControl : UInt16 := 0x376

/-- `ata_device_t`. Of `model`, what has been written. -/
structure AtaDevice where
  base : UInt16
  control : UInt16
  slave : UInt8
  channel : UInt8
  flags : UInt8
  sectorSize : UInt32
  sectorCount : UInt64
  model : List UInt8
deriving DecidableEq

def ataInitDevice (base control : UInt16) (slave : UInt8) : AtaDevice where
  base := base
  control := control
  slave := slave
  channel := 0
  flags := 0
  sectorSize := 512
  sectorCount := 0
  model := [0]

inductive Cable
  | primary
  | secondary
deriving DecidableEq

/-- How the transfer functions choose between the two interrupt flags. -/
def AtaDevice.cable (d : AtaDevice) : Cable :=
  if d.base = ataPrimaryBase then .primary else .secondary

/-- The device is one of the four there can be. -/
structure AtaDevice.Wired (d : AtaDevice) : Prop where
  base : d.base = ataPrimaryBase ∨ d.base = ataSecondaryBase
  slave : d.slave = 0 ∨ d.slave = 1

/-! ## Transfers -/

/-- The interrupts a transfer waits for, by what the drive means with them. The hardware has one
line, and no bit of the machine says which of them has come; a transfer that takes one for another
goes on too early, and it is to see that it does not that they are told apart here. -/
inductive Irq
  | stored (sector : Nat)
  | ready (sector : Nat)
  | flushed
deriving DecidableEq

inductive Op
  | outb (port : UInt16) (value : UInt8)
  | outw (port value : UInt16)
  /-- `buffer[index] = inw(port)` -/
  | inw (port : UInt16) (index : Nat)
  /-- `while (status & ATA_STATUS_BSY) {}` -/
  | waitNotBusy (port : UInt16)
  /-- The loop before a sector is written; it returns from the function on an error. -/
  | waitDataRequest (port : UInt16)
  /-- `*irq_flag = 0` -/
  | clearFlag (flag : Cable)
  /-- `while (*irq_flag == 0) arch_halt()`, and what the wait is for. -/
  | waitFlag (flag : Cable) (irq : Irq)
deriving DecidableEq

/-- What `ata_select_drive` writes to the head register. -/
def selectCommand (d : AtaDevice) : UInt8 := if d.slave ≠ 0 then 0xB0 else 0xA0

def driveHead (d : AtaDevice) (lba : UInt64) : UInt8 :=
  ((0xE0 : UInt64) ||| (d.slave.toUInt64 <<< 4) ||| ((lba >>> 24) &&& 0x0F)).toUInt8

/-- How both transfers begin. -/
def lba28Setup (d : AtaDevice) (lba : UInt64) (sectorCount : UInt32) : List Op :=
  [.outb (d.base + 6) (selectCommand d), .waitNotBusy (d.base + 7),
    .outb (d.base + 6) (driveHead d lba), .outb (d.base + 2) sectorCount.toUInt8,
    .outb (d.base + 3) lba.toUInt8, .outb (d.base + 4) (lba >>> 8).toUInt8,
    .outb (d.base + 5) (lba >>> 16).toUInt8, .clearFlag d.cable]

def sectorsIn (size : UInt32) : UInt32 := (size + 511) / 512

/-- The loop of `ata_read_lba28` over one sector. -/
def readSector (d : AtaDevice) (i : Nat) : List Op :=
  .waitFlag d.cable (.ready i) :: .clearFlag d.cable ::
    (List.range 256).map fun j => .inw d.base (i * 256 + j)

/-- `void ata_read_lba28(ata_device_t* device, uint64_t lba, void* buffer, uint32_t size)` -/
def ataReadLba28 (d : AtaDevice) (lba : UInt64) (size : UInt32) : List Op :=
  lba28Setup d lba (sectorsIn size) ++ .outb (d.base + 7) 0x20 :: .waitNotBusy (d.base + 7) ::
    (List.range (sectorsIn size).toNat).flatMap (readSector d)

/-- The loop of `ata_write_lba28` over one sector. -/
def writeSector (d : AtaDevice) (buffer : Nat → UInt16) (i : Nat) : List Op :=
  .waitDataRequest (d.base + 7) ::
    ((List.range 256).map fun j => .outw d.base (buffer (i * 256 + j))) ++
      [.waitFlag d.cable (.stored i), .clearFlag d.cable]

def flushCache (d : AtaDevice) : List Op :=
  [.outb (d.base + 7) 0xE7, .waitFlag d.cable .flushed, .clearFlag d.cable]

/-- `void ata_write_lba28(ata_device_t* device, uint64_t lba, void* buffer, uint32_t size)` -/
def ataWriteLba28 (d : AtaDevice) (lba : UInt64) (buffer : Nat → UInt16) (size : UInt32) :
    List Op :=
  lba28Setup d lba (sectorsIn size) ++ .outb (d.base + 7) 0x30 ::
    ((List.range (sectorsIn size).toNat).flatMap (writeSector d buffer) ++ flushCache d)

/-! ## Block devices -/

/-- `block_device_t`; `data` is the index of the device it points to, and `read` and `write`
are always the two functions below. -/
structure BlockDevice where
  blockCount : UInt64
  blockSize : UInt32
  data : Nat
deriving DecidableEq

def ataReadBlock (devices : List AtaDevice) (b : BlockDevice) (lba : UInt64) (size : UInt32) :
    Option (List Op) :=
  devices[b.data]?.map fun d => ataReadLba28 d lba size

def ataWriteBlock (devices : List AtaDevice) (b : BlockDevice) (lba : UInt64)
    (buffer : Nat → UInt16) (size : UInt32) : Option (List Op) :=
  devices[b.data]?.map fun d => ataWriteLba28 d lba buffer size

/-- `void block_device_register(block_device_t* device)` -/
def blockDeviceRegister (registry : List BlockDevice) (b : BlockDevice) : List BlockDevice :=
  if 16 ≤ registry.length then registry else registry ++ [b]

/-! ## Identification -/

section Identify

variable {σ : Type} [IoPorts σ]

open IoPorts

def ataReadStatus (d : AtaDevice) (s : σ) : UInt8 × σ := inb s (d.base + 7)

/-- `while (status & ATA_STATUS_BSY) {}`; `none` when it has not ended by then. -/
def waitBusyClear (d : AtaDevice) : Nat → σ → Option σ
  | 0, _ => none
  | fuel + 1, s =>
    let (status, s) := ataReadStatus d s
    if status &&& 0x80 ≠ 0 then waitBusyClear d fuel s else some s

/-- `while (!(status & ATA_STATUS_DRQ) && !(status & ATA_STATUS_ERR)) {}`, which reads the
status again for its second half. -/
def waitRequestOrError (d : AtaDevice) : Nat → σ → Option σ
  | 0, _ => none
  | fuel + 1, s =>
    let (status, s) := ataReadStatus d s
    if status &&& 0x08 ≠ 0 then some s
    else
      let (status, s) := ataReadStatus d s
      if status &&& 0x01 ≠ 0 then some s else waitRequestOrError d fuel s

def readWords (port : UInt16) : Nat → σ → List UInt16 × σ
  | 0, s => ([], s)
  | n + 1, s =>
    let (word, s) := inw s port
    let (words, s) := readWords port n s
    (word :: words, s)

/-- What `ata_identify` takes from the 256 words. The terminating 0 it stores one past the end
of `model` is in the padding of the structure. -/
def parseIdentify (d : AtaDevice) (buffer : List UInt16) : AtaDevice :=
  let word i := buffer.getD i 0
  let model := (List.range 20).flatMap fun i =>
    [(word (27 + i) >>> 8).toUInt8, (word (27 + i)).toUInt8]
  if word 83 &&& 0x400 ≠ 0 then
    { d with
      model
      flags := d.flags ||| 0x02 ||| 0x01
      sectorCount := (word 100).toUInt64 ||| ((word 101).toUInt64 <<< 16) |||
        ((word 102).toUInt64 <<< 32) ||| ((word 103).toUInt64 <<< 48) }
  else
    { d with
      model
      flags := d.flags ||| 0x04 ||| 0x01
      sectorCount := (word 60).toUInt64 ||| ((word 61).toUInt64 <<< 16) }

/-- `void ata_identify(ata_device_t* device)` -/
def ataIdentify (fuel : Nat) (d : AtaDevice) (s : σ) : Option (AtaDevice × σ) :=
  let s := outb s (d.base + 6) (selectCommand d)
  let (status, s) := ataReadStatus d s
  if status = 0xFF then some (d, s)
  else
    let s := outb s (d.base + 2) 0
    let s := outb s (d.base + 3) 0
    let s := outb s (d.base + 4) 0
    let s := outb s (d.base + 5) 0
    let s := outb s (d.base + 7) 0xEC
    let (status, s) := ataReadStatus d s
    if status = 0 then some (d, s)
    else do
      let s ← waitBusyClear d fuel s
      let (mid, s) := inb s (d.base + 4)
      if mid ≠ 0 then some (d, s)
      else
        let (high, s) := inb s (d.base + 5)
        if high ≠ 0 then some (d, s)
        else
          let s ← waitRequestOrError d fuel s
          let (status, s) := ataReadStatus d s
          if status &&& 0x01 ≠ 0 then some (d, s)
          else
            let (buffer, s) := readWords d.base 256 s
            some (parseIdentify d buffer, s)

/-- The loop of `ata_init`, from device `i` on. -/
def identifyFrom (fuel : Nat) : Nat → List AtaDevice → List BlockDevice → σ →
    Option (List AtaDevice × List BlockDevice × σ)
  | _, [], registry, s => some ([], registry, s)
  | i, d :: ds, registry, s => do
    let (d, s) ← ataIdentify fuel d s
    let registry :=
      if d.flags &&& 0x01 ≠ 0 then
        blockDeviceRegister registry ⟨d.sectorCount, d.sectorSize, i⟩
      else registry
    let (ds, registry, s) ← identifyFrom fuel (i + 1) ds registry s
    some (d :: ds, registry, s)

def ataDevices : List AtaDevice :=
  [ataInitDevice ataPrimaryBase ataPrimaryControl 0,
    ataInitDevice ataPrimaryBase ataPrimaryControl 1,
    ataInitDevice ataSecondaryBase ataSecondaryControl 0,
    ataInitDevice ataSecondaryBase ataSecondaryControl 1]

/-- `void ata_init()`: the devices, and the block devices registered. -/
def ataInit (fuel : Nat) (registry : List BlockDevice) (s : σ) :
    Option (List AtaDevice × List BlockDevice × σ) :=
  identifyFrom fuel 0 ataDevices registry s

end Identify

/-! ## What a drive reads in its registers -/

/-- The registers of a cable that say what a command is about. Both drives of the cable get
what is written. -/
structure TaskFile where
  count : UInt8
  low : UInt8
  mid : UInt8
  high : UInt8
  driveHead : UInt8

def TaskFile.write (tf : TaskFile) (reg : UInt16) (value : UInt8) : TaskFile :=
  if reg = 2 then { tf with count := value }
  else if reg = 3 then { tf with low := value }
  else if reg = 4 then { tf with mid := value }
  else if reg = 5 then { tf with high := value }
  else if reg = 6 then { tf with driveHead := value }
  else tf

def TaskFile.lba (tf : TaskFile) : Nat :=
  tf.low.toNat + tf.mid.toNat * 256 + tf.high.toNat * 65536 +
    (tf.driveHead &&& 0x0F).toNat * 16777216

def TaskFile.slaveBit (tf : TaskFile) : Bool := tf.driveHead &&& 0x10 != 0

/-- A count of 0 means 256. -/
def TaskFile.sectors (tf : TaskFile) : Nat := if tf.count = 0 then 256 else tf.count.toNat

/-- The cable and the register behind a port. -/
def portOf (port : UInt16) : Option (Cable × UInt16) :=
  if 0x1F0 ≤ port ∧ port ≤ 0x1F7 then some (.primary, port - 0x1F0)
  else if 0x170 ≤ port ∧ port ≤ 0x177 then some (.secondary, port - 0x170)
  else none

/-- The first command that is sent on cable `c`, and the registers at that moment. -/
def firstCommand (c : Cable) : TaskFile → List Op → Option (UInt8 × TaskFile)
  | _, [] => none
  | tf, .outb port value :: ops =>
    if portOf port = some (c, 7) then some (value, tf)
    else
      match portOf port with
      | some (c', reg) => firstCommand c (if c' = c then tf.write reg value else tf) ops
      | none => firstCommand c tf ops
  | tf, _ :: ops => firstCommand c tf ops

/-- The registers `lba28Setup` leaves. -/
def setupFile (d : AtaDevice) (lba : UInt64) (sectorCount : UInt32) : TaskFile where
  count := sectorCount.toUInt8
  low := lba.toUInt8
  mid := (lba >>> 8).toUInt8
  high := (lba >>> 16).toUInt8
  driveHead := driveHead d lba

theorem AtaDevice.Wired.portOf {d : AtaDevice} (h : d.Wired) {reg : UInt16}
    (hreg : reg ∈ ([0, 1, 2, 3, 4, 5, 6, 7] : List UInt16)) :
    portOf (d.base + reg) = some (d.cable, reg) := by
  simp only [List.mem_cons, List.not_mem_nil, or_false] at hreg
  rcases h.base with hb | hb
  · rw [AtaDevice.cable, hb, if_pos rfl]
    rcases hreg with rfl | rfl | rfl | rfl | rfl | rfl | rfl | rfl <;> rfl
  · rw [AtaDevice.cable, hb, if_neg (by decide)]
    rcases hreg with rfl | rfl | rfl | rfl | rfl | rfl | rfl | rfl <;> rfl

theorem firstCommand_setup {d : AtaDevice} (h : d.Wired) (tf : TaskFile) (lba : UInt64)
    (sectorCount : UInt32) (command : UInt8) (rest : List Op) :
    firstCommand d.cable tf (lba28Setup d lba sectorCount ++ .outb (d.base + 7) command :: rest) =
      some (command, setupFile d lba sectorCount) := by
  have h₂ := h.portOf (show (2 : UInt16) ∈ _ by decide)
  have h₃ := h.portOf (show (3 : UInt16) ∈ _ by decide)
  have h₄ := h.portOf (show (4 : UInt16) ∈ _ by decide)
  have h₅ := h.portOf (show (5 : UInt16) ∈ _ by decide)
  have h₆ := h.portOf (show (6 : UInt16) ∈ _ by decide)
  have h₇ := h.portOf (show (7 : UInt16) ∈ _ by decide)
  simp [lba28Setup, firstCommand, h₂, h₃, h₄, h₅, h₆, h₇, TaskFile.write,
    setupFile]

theorem headByte (slave : UInt8) (hs : slave = 0 ∨ slave = 1) : ∀ n < 16,
    ((((0xE0 : UInt64) ||| (slave.toUInt64 <<< 4) ||| UInt64.ofNat n).toUInt8 &&&
      0x0F).toNat = n) ∧
    ((((0xE0 : UInt64) ||| (slave.toUInt64 <<< 4) ||| UInt64.ofNat n).toUInt8 &&& 0x10 != 0) =
      decide (slave = 1)) := by
  rcases hs with rfl | rfl
  · decide
  · decide

/-- The head register in two halves: the top of the address, and the drive. -/
theorem driveHead_eq {d : AtaDevice} (h : d.Wired) (lba : UInt64) :
    (driveHead d lba &&& 0x0F).toNat = lba.toNat / 16777216 % 16 ∧
      ((driveHead d lba &&& 0x10 != 0) = decide (d.slave = 1)) := by
  have hnib : (lba >>> 24 &&& 0x0F).toNat = lba.toNat / 16777216 % 16 := by
    rw [UInt64.toNat_and, UInt64.toNat_shiftRight, Nat.shiftRight_eq_div_pow]
    exact Nat.and_two_pow_sub_one_eq_mod _ 4
  have hof : lba >>> 24 &&& 0x0F = UInt64.ofNat (lba.toNat / 16777216 % 16) := by
    rw [← hnib, UInt64.ofNat_toNat]
  rw [driveHead, hof]
  exact headByte d.slave h.slave _ (Nat.mod_lt _ (by decide))

theorem lba_setupFile {d : AtaDevice} (h : d.Wired) (lba : UInt64) (sectorCount : UInt32) :
    (setupFile d lba sectorCount).lba = lba.toNat % 268435456 := by
  have hlow : lba.toUInt8.toNat = lba.toNat % 256 := UInt64.toNat_toUInt8 lba
  have hmid : (lba >>> 8).toUInt8.toNat = lba.toNat / 256 % 256 := by
    rw [UInt64.toNat_toUInt8, UInt64.toNat_shiftRight, Nat.shiftRight_eq_div_pow]
    rfl
  have hhigh : (lba >>> 16).toUInt8.toNat = lba.toNat / 65536 % 256 := by
    rw [UInt64.toNat_toUInt8, UInt64.toNat_shiftRight, Nat.shiftRight_eq_div_pow]
    rfl
  simp only [TaskFile.lba, setupFile, hlow, hmid, hhigh, (driveHead_eq h lba).1]
  omega

theorem slaveBit_setupFile {d : AtaDevice} (h : d.Wired) (lba : UInt64) (sectorCount : UInt32) :
    (setupFile d lba sectorCount).slaveBit = decide (d.slave = 1) := (driveHead_eq h lba).2

/-! ## The devices of `ata_init` -/

section Init

variable {σ : Type} [IoPorts σ]

/-- Either the drive is not there or the 256 words have been read. -/
theorem ataIdentify_cases {fuel : Nat} {d d' : AtaDevice} {s s' : σ}
    (hrun : ataIdentify fuel d s = some (d', s')) :
    d' = d ∨ ∃ buffer, d' = parseIdentify d buffer := by
  unfold ataIdentify at hrun
  dsimp only at hrun
  split at hrun
  · cases hrun
    exact Or.inl rfl
  split at hrun
  · cases hrun
    exact Or.inl rfl
  obtain ⟨s₁, _, hrun⟩ := Option.bind_eq_some_iff.mp hrun
  split at hrun
  · cases hrun
    exact Or.inl rfl
  split at hrun
  · cases hrun
    exact Or.inl rfl
  obtain ⟨s₂, _, hrun⟩ := Option.bind_eq_some_iff.mp hrun
  split at hrun
  · cases hrun
    exact Or.inl rfl
  · cases hrun
    exact Or.inr ⟨_, rfl⟩

/-- Identifying a device does not change where it is. -/
theorem ataIdentify_wired {fuel : Nat} {d d' : AtaDevice} {s s' : σ} (h : d.Wired)
    (hrun : ataIdentify fuel d s = some (d', s')) : d'.Wired := by
  rcases ataIdentify_cases hrun with rfl | ⟨buffer, rfl⟩
  · exact h
  · unfold parseIdentify
    simp only
    split
    · exact ⟨h.base, h.slave⟩
    · exact ⟨h.base, h.slave⟩

/-- What is registered belongs to a device, and has as many blocks as that has sectors. -/
theorem identifyFrom_registered {fuel : Nat} {ds ds' : List AtaDevice} :
    ∀ {i : Nat} {registry registry' : List BlockDevice} {s s' : σ},
      identifyFrom fuel i ds registry s = some (ds', registry', s') → (∀ d ∈ ds, d.Wired) →
      ds'.length = ds.length ∧ ∃ new, registry' = registry ++ new ∧ ∀ b ∈ new, ∃ j d,
        b.data = i + j ∧ ds'[j]? = some d ∧ d.Wired ∧ b.blockCount = d.sectorCount := by
  induction ds generalizing ds' with
  | nil =>
    intro i registry registry' s s' hrun _
    cases hrun
    exact ⟨rfl, [], (List.append_nil _).symm, fun b hb => absurd hb (by simp)⟩
  | cons d ds ih =>
    intro i registry registry' s s' hrun hwired
    obtain ⟨⟨d₁, s₁⟩, hid, hrun⟩ := Option.bind_eq_some_iff.mp hrun
    obtain ⟨⟨ds₂, registry₂, s₂⟩, hrest, hrun⟩ := Option.bind_eq_some_iff.mp hrun
    cases hrun
    have hd := ataIdentify_wired (hwired d List.mem_cons_self) hid
    obtain ⟨hlen, new, rfl, hnew⟩ := ih hrest fun d hd => hwired d (List.mem_cons_of_mem _ hd)
    have hlater : ∀ b ∈ new, ∃ j e, b.data = i + j ∧ (d₁ :: ds₂)[j]? = some e ∧ e.Wired ∧
        b.blockCount = e.sectorCount := by
      intro b hb
      obtain ⟨j, e, hdata, hget, he, hcount⟩ := hnew b hb
      exact ⟨j + 1, e, by omega, hget, he, hcount⟩
    refine ⟨congrArg (· + 1) hlen, ?_⟩
    unfold blockDeviceRegister
    split_ifs
    · exact ⟨new, rfl, hlater⟩
    · refine ⟨_ :: new, by rw [List.append_assoc]; rfl, fun b hb => ?_⟩
      rcases List.mem_cons.mp hb with rfl | hb
      · exact ⟨0, d₁, rfl, rfl, hd, rfl⟩
      · exact hlater b hb
    · exact ⟨new, rfl, hlater⟩

theorem ataDevices_wired : ∀ d ∈ ataDevices, d.Wired := by
  intro d hd
  simp only [ataDevices, List.mem_cons, List.not_mem_nil, or_false] at hd
  rcases hd with rfl | rfl | rfl | rfl
  · exact ⟨Or.inl rfl, Or.inl rfl⟩
  · exact ⟨Or.inl rfl, Or.inr rfl⟩
  · exact ⟨Or.inr rfl, Or.inl rfl⟩
  · exact ⟨Or.inr rfl, Or.inr rfl⟩

/-- The command is sent with the registers holding the address of block `lba` and selecting
device `d`, whatever they held before. -/
def Addresses (d : AtaDevice) (lba : UInt64) (command : UInt8) (ops : List Op) : Prop :=
  ∀ tf, ∃ tf', firstCommand d.cable tf ops = some (command, tf') ∧ tf'.lba = lba.toNat ∧
    tf'.slaveBit = decide (d.slave = 1)

/-- Reading and writing a block of the device reads and writes the block with that number. -/
def BlocksInPlace (devices : List AtaDevice) (b : BlockDevice) : Prop :=
  ∀ lba < b.blockCount, ∀ size buffer, ∃ d r w, devices[b.data]? = some d ∧
    ataReadBlock devices b lba size = some r ∧ Addresses d lba 0x20 r ∧
    ataWriteBlock devices b lba buffer size = some w ∧ Addresses d lba 0x30 w

theorem addresses_setup {d : AtaDevice} (h : d.Wired) (lba : UInt64) (sectorCount : UInt32)
    (command : UInt8) (rest : List Op) :
    Addresses d lba command (lba28Setup d lba sectorCount ++ .outb (d.base + 7) command :: rest) ↔
      lba.toNat < 268435456 := by
  have hlba := lba_setupFile h lba sectorCount
  constructor
  · intro haddr
    obtain ⟨tf', hfirst, heq, _⟩ := haddr ⟨0, 0, 0, 0, 0⟩
    rw [firstCommand_setup h] at hfirst
    cases hfirst
    omega
  · intro hlt tf
    refine ⟨_, firstCommand_setup h .., ?_, slaveBit_setupFile h ..⟩
    omega

/-- **When a block device reads and writes the sector it was asked for**: when it has no more
blocks than 28 bits can number. -/
theorem blocksInPlace_iff {fuel : Nat} {registry new : List BlockDevice} {s s' : σ}
    {devices : List AtaDevice} (h : ataInit fuel registry s = some (devices, registry ++ new, s'))
    (b : BlockDevice) (hb : b ∈ new) :
    BlocksInPlace devices b ↔ b.blockCount.toNat ≤ 268435456 := by
  obtain ⟨_, new', heq, hnew⟩ := identifyFrom_registered h ataDevices_wired
  obtain rfl := List.append_cancel_left heq
  obtain ⟨j, d, hdata, hget, hd, _⟩ := hnew b hb
  rw [Nat.zero_add] at hdata
  rw [← hdata] at hget
  have hread : ∀ lba size, ataReadBlock devices b lba size = some (ataReadLba28 d lba size) :=
    fun lba size => by rw [ataReadBlock, hget, Option.map_some]
  have hwrite : ∀ lba buffer size,
      ataWriteBlock devices b lba buffer size = some (ataWriteLba28 d lba buffer size) :=
    fun lba buffer size => by rw [ataWriteBlock, hget, Option.map_some]
  constructor
  · intro hall
    by_contra hbig
    -- The first block that 28 bits cannot number.
    have hlt : (0x10000000 : UInt64) < b.blockCount := by
      rw [UInt64.lt_iff_toNat_lt]
      have : (0x10000000 : UInt64).toNat = 268435456 := rfl
      omega
    obtain ⟨d', r, w, hd', hr, haddr, _⟩ := hall _ hlt 0 fun _ => 0
    rw [hget] at hd'
    cases hd'
    rw [hread] at hr
    cases hr
    have := (addresses_setup hd _ _ _ _).mp haddr
    exact absurd this (by decide)
  · intro hle lba hlba size buffer
    rw [UInt64.lt_iff_toNat_lt] at hlba
    have hlt : lba.toNat < 268435456 := by omega
    exact ⟨d, _, _, hget, hread lba size, (addresses_setup hd lba _ _ _).mpr hlt,
      hwrite lba buffer size, (addresses_setup hd lba _ _ _).mpr hlt⟩

end Init

/-! ### A large disk

One drive is enough, and it need not do more than be identified: the divergence is in what the
driver writes to the registers, before any drive reads them. -/

/-- One drive, the primary master, that announces LBA48 and `count` sectors. `next` is the word
it hands out next. -/
structure OneDrive where
  count : UInt64
  slave : Bool
  next : Nat

def OneDrive.word (s : OneDrive) : UInt16 :=
  if s.next = 83 then 0x400
  else if s.next = 100 then s.count.toUInt16
  else if s.next = 101 then (s.count >>> 16).toUInt16
  else if s.next = 102 then (s.count >>> 32).toUInt16
  else if s.next = 103 then (s.count >>> 48).toUInt16
  else 0

instance : IoPorts OneDrive where
  inb s port :=
    (if port = 0x1F7 ∧ s.slave = false then 0x58
      else if port = 0x1F4 ∨ port = 0x1F5 then 0
      else 0xFF, s)
  inw s _ := (s.word, { s with next := s.next + 1 })
  outb s port value := if port = 0x1F6 then { s with slave := value &&& 0x10 != 0 } else s

theorem readWords_oneDrive (port : UInt16) (count : UInt64) (slave : Bool) : ∀ (n next : Nat),
    readWords port n (⟨count, slave, next⟩ : OneDrive) =
      ((List.range' next n).map fun i => OneDrive.word ⟨count, slave, i⟩,
        ⟨count, slave, next + n⟩)
  | 0, next => rfl
  | n + 1, next => by
    have ih := readWords_oneDrive port count slave n (next + 1)
    rw [readWords]
    show (_ :: (readWords port n (⟨count, slave, next + 1⟩ : OneDrive)).1,
      (readWords port n (⟨count, slave, next + 1⟩ : OneDrive)).2) = _
    rw [ih, List.range'_succ, List.map_cons, Nat.add_assoc, Nat.add_comm 1 n]

/-- The number of sectors the driver makes of the four words it comes in. -/
def OneDrive.announced (count : UInt64) : UInt64 :=
  count.toUInt16.toUInt64 ||| ((count >>> 16).toUInt16.toUInt64 <<< 16) |||
    ((count >>> 32).toUInt16.toUInt64 <<< 32) ||| ((count >>> 48).toUInt16.toUInt64 <<< 48)

theorem parseIdentify_oneDrive (d : AtaDevice) (count : UInt64) :
    let d' := parseIdentify d (readWords 0x1F0 256 (⟨count, false, 0⟩ : OneDrive)).1
    d'.flags = d.flags ||| 0x02 ||| 0x01 ∧ d'.sectorSize = d.sectorSize ∧
      d'.sectorCount = OneDrive.announced count := by
  have hword : ∀ i < 256, (readWords 0x1F0 256 (⟨count, false, 0⟩ : OneDrive)).1.getD i 0 =
      OneDrive.word ⟨count, false, i⟩ := by
    intro i hi
    rw [readWords_oneDrive, List.getD_eq_getElem?_getD, List.getElem?_map,
      List.getElem?_range' hi]
    simp
  have hlba48 : OneDrive.word ⟨count, false, 83⟩ = 0x400 := rfl
  unfold parseIdentify
  simp only
  rw [hword 83 (by decide), hword 100 (by decide), hword 101 (by decide), hword 102 (by decide),
    hword 103 (by decide), hlba48, if_pos (by decide)]
  exact ⟨rfl, rfl, rfl⟩

/-- The status 0x58 the drive shows: there, not busy, with data and without an error. -/
theorem ataIdentify_master (count : UInt64) :
    ataIdentify 1 (ataInitDevice ataPrimaryBase ataPrimaryControl 0)
      (⟨count, false, 0⟩ : OneDrive) =
    some (parseIdentify (ataInitDevice ataPrimaryBase ataPrimaryControl 0)
      (readWords 0x1F0 256 (⟨count, false, 0⟩ : OneDrive)).1,
      (readWords 0x1F0 256 (⟨count, false, 0⟩ : OneDrive)).2) := by
  have hmaster : (0xA0 : UInt8) &&& 0x10 = 0 := by decide
  have hbusy : (0x58 : UInt8) &&& 0x80 = 0 := by decide
  have hrequest : (0x58 : UInt8) &&& 0x08 = 8 := by decide
  have herror : (0x58 : UInt8) &&& 0x01 = 0 := by decide
  simp [ataIdentify, ataReadStatus, waitBusyClear, waitRequestOrError, IoPorts.inb, IoPorts.outb,
    ataInitDevice, ataPrimaryBase, selectCommand, hmaster, hbusy, hrequest, herror]

theorem ataIdentify_absent (s : OneDrive) : ∀ d ∈ ataDevices.tail,
    d.flags = 0 ∧ ∃ s', ataIdentify 1 d s = some (d, s') := by
  intro d hd
  simp only [ataDevices, List.tail_cons, List.mem_cons, List.not_mem_nil, or_false] at hd
  rcases hd with rfl | rfl | rfl
  · exact ⟨rfl, _, rfl⟩
  · exact ⟨rfl, _, rfl⟩
  · exact ⟨rfl, _, rfl⟩

/-- Where no drive answers nothing is registered. -/
theorem identifyFrom_absent : ∀ (ds : List AtaDevice), (∀ d ∈ ds, d ∈ ataDevices.tail) →
    ∀ (i : Nat) (registry : List BlockDevice) (s : OneDrive),
      ∃ s', identifyFrom 1 i ds registry s = some (ds, registry, s')
  | [], _, _, _, s => ⟨s, rfl⟩
  | d :: ds, hmem, i, registry, s => by
    obtain ⟨hflags, s₁, hid⟩ := ataIdentify_absent s d (hmem d List.mem_cons_self)
    obtain ⟨s₂, hrest⟩ := identifyFrom_absent ds
      (fun e he => hmem e (List.mem_cons_of_mem _ he)) (i + 1) registry s₁
    have habsent : ¬ d.flags &&& 0x01 ≠ 0 := by
      rw [hflags]
      decide
    refine ⟨s₂, ?_⟩
    rw [identifyFrom, hid, Option.bind_eq_bind, Option.bind_some]
    dsimp only
    rw [if_neg habsent, hrest]
    rfl

/-- **What `ata_init` makes of the large disk**: a block device with all of its sectors. -/
theorem ataInit_oneDrive (count : UInt64) : ∃ d rest s',
    ataInit 1 [] (⟨count, false, 0⟩ : OneDrive) =
      some (d :: rest, [] ++ [⟨OneDrive.announced count, 512, 0⟩], s') ∧ d.Wired := by
  obtain ⟨s₁, hrest⟩ := identifyFrom_absent ataDevices.tail (fun _ h => h) 1
    [⟨OneDrive.announced count, 512, 0⟩] (readWords 0x1F0 256 (⟨count, false, 0⟩ : OneDrive)).2
  have hid := ataIdentify_master count
  have hparse := parseIdentify_oneDrive (ataInitDevice ataPrimaryBase ataPrimaryControl 0) count
  generalize parseIdentify _ _ = d at hid hparse
  obtain ⟨hflags, hsize, hcount⟩ := hparse
  have hpresent : d.flags &&& 0x01 ≠ 0 := by
    rw [hflags]
    decide
  refine ⟨d, ataDevices.tail, s₁, ?_, ataIdentify_wired ⟨Or.inl rfl, Or.inl rfl⟩ hid⟩
  rw [ataInit, ataDevices, identifyFrom, hid, Option.bind_eq_bind, Option.bind_some]
  dsimp only
  rw [if_pos hpresent, hcount, hsize]
  exact congrArg (· >>= _) hrest

theorem blocksInPlace_million : ∃ devices s',
    ataInit 1 [] (⟨0x100000, false, 0⟩ : OneDrive) =
      some (devices, [] ++ [⟨0x100000, 512, 0⟩], s') ∧
    BlocksInPlace devices ⟨0x100000, 512, 0⟩ := by
  obtain ⟨d, rest, s', hinit, _⟩ := ataInit_oneDrive 0x100000
  rw [show OneDrive.announced 0x100000 = 0x100000 by decide] at hinit
  exact ⟨_, s', hinit, (blocksInPlace_iff hinit _ List.mem_cons_self).mpr (by decide)⟩

/-- A disk of 2^28 + 1 sectors: for its last block the registers hold the address of block 0. -/
theorem last_block_misplaced : ∃ d rest s',
    ataInit 1 [] (⟨0x10000001, false, 0⟩ : OneDrive) =
      some (d :: rest, [] ++ [⟨0x10000001, 512, 0⟩], s') ∧
    ¬ BlocksInPlace (d :: rest) ⟨0x10000001, 512, 0⟩ ∧
    ∃ r tf, ataReadBlock (d :: rest) ⟨0x10000001, 512, 0⟩ 0x10000000 512 = some r ∧
      firstCommand d.cable ⟨0, 0, 0, 0, 0⟩ r = some (0x20, tf) ∧ tf.lba = 0 := by
  obtain ⟨d, rest, s', hinit, hd⟩ := ataInit_oneDrive 0x10000001
  rw [show OneDrive.announced 0x10000001 = 0x10000001 by decide] at hinit
  refine ⟨d, rest, s', hinit, ?_, _, _, rfl, firstCommand_setup hd .., lba_setupFile hd ..⟩
  intro hall
  obtain ⟨d', r, w, hget, hread, haddr, _⟩ := hall 0x10000000 (by decide) 512 fun _ => 0
  cases hget
  cases hread
  exact absurd ((addresses_setup hd ..).mp haddr) (by decide)

end ScratchOs.Drivers
