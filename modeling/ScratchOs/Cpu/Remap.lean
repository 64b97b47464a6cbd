import ScratchOs.Cpu.Idt
import ScratchOs.Cpu.Interrupts
import ScratchOs.Cpu.Stubs
import ScratchOs.Drivers.Ports

/-!
# The interrupt controllers

`arch/x86/interrupts/pic.c` on the ports of the two 8259A, and from there the way of an interrupt:
its line, the vector the controllers make of it, the gate, the stub, and the number the handler
gives back to the controllers.

`Cpu/Interrupts.lean` begins where this ends, with lines that lead to `irq_handler`.

The chips are small state machines: a byte to the command port with bit 4 set begins an
initialization, and the bytes to the data port after it are taken for what the initialization is
waiting for, and for the mask when it is waiting for nothing. The model needs that much because boot
does not begin with chips at rest. A loader may have left them anywhere, and that the first command
word puts them into a known state is what the statement over all states is about.

Delays between the bytes (`io_wait`) are not there: the chips of the model are as fast as the code.
-/

set_option autoImplicit false

namespace ScratchOs.Cpu

open Drivers IoPorts X86 Bytes

section

variable {σ : Type} [IoPorts σ]

/-- `void arch_irq_controller_init(uint8_t master_offset, uint8_t slave_offset)` -/
def archIrqControllerInit (masterOffset slaveOffset : UInt8) (s : σ) : σ :=
  let (a1, s) := inb s 0x21
  let (a2, s) := inb s 0xA1
  let s := outb s 0x20 (0x10 ||| 0x01)
  let s := outb s 0xA0 (0x10 ||| 0x01)
  let s := outb s 0x21 masterOffset
  let s := outb s 0xA1 slaveOffset
  let s := outb s 0x21 4
  let s := outb s 0xA1 2
  let s := outb s 0x21 0x01
  let s := outb s 0xA1 0x01
  let s := outb s 0x21 a1
  outb s 0xA1 a2

/-- `void arch_irq_send_eoi(uint8_t irq)` -/
def archIrqSendEoi (irq : UInt8) (s : σ) : σ :=
  let s := if 8 ≤ irq then outb s 0xA0 0x20 else s
  outb s 0x20 0x20

/-- `void arch_irq_enable(uint8_t irq)`. From 32 on the shift is not defined. -/
def archIrqEnable (irq : UInt8) (s : σ) : σ :=
  let port := if irq < 8 then 0x21 else 0xA1
  let irq := if irq < 8 then irq else irq - 8
  let (value, s) := inb s port
  outb s port (value.toUInt32 &&& ~~~(1 <<< irq.toUInt32)).toUInt8

/-- `void arch_irq_disable(uint8_t irq)` -/
def archIrqDisable (irq : UInt8) (s : σ) : σ :=
  let port := if irq < 8 then 0x21 else 0xA1
  let irq := if irq < 8 then irq else irq - 8
  let (value, s) := inb s port
  outb s port (value.toUInt32 ||| 1 <<< irq.toUInt32).toUInt8

end

/-! ## The chips -/

/-- The command word that comes next. -/
inductive Icw
  | none | icw2 | icw3 | icw4
deriving DecidableEq

structure I8259 where
  imr : UInt8
  base : UInt8
  cascade : UInt8
  mode8086 : Bool
  single : Bool
  needsIcw4 : Bool
  awaits : Icw

/-- A byte to the command port. Of the others than ICW1, only an EOI is of interest here, and it
changes no register of these. -/
def I8259.command (c : I8259) (value : UInt8) : I8259 :=
  if value &&& 0x10 = 0 then c
  else
    { c with
      imr := 0
      mode8086 := false
      single := value &&& 0x02 ≠ 0
      needsIcw4 := value &&& 0x01 ≠ 0
      awaits := .icw2 }

def I8259.data (c : I8259) (value : UInt8) : I8259 :=
  match c.awaits with
  | .icw2 =>
    { c with
      base := value &&& 0xF8
      awaits := if c.single then (if c.needsIcw4 then .icw4 else .none) else .icw3 }
  | .icw3 => { c with cascade := value, awaits := if c.needsIcw4 then .icw4 else .none }
  | .icw4 => { c with mode8086 := value &&& 0x01 ≠ 0, awaits := .none }
  | .none => { c with imr := value }

/-- Both chips, and the EOIs they have got. -/
structure Controllers where
  master : I8259
  slave : I8259
  eois : List Chip

def Controllers.out (s : Controllers) (port : UInt16) (value : UInt8) : Controllers :=
  if port = 0x20 then
    { s with
      master := s.master.command value
      eois := if value = 0x20 then s.eois ++ [.master] else s.eois }
  else if port = 0xA0 then
    { s with
      slave := s.slave.command value
      eois := if value = 0x20 then s.eois ++ [.slave] else s.eois }
  else if port = 0x21 then { s with master := s.master.data value }
  else if port = 0xA1 then { s with slave := s.slave.data value }
  else s

instance : IoPorts Controllers where
  inb s port := (if port = 0x21 then s.master.imr else if port = 0xA1 then s.slave.imr else 0xFF, s)
  inw s _ := (0xFFFF, s)
  outb := Controllers.out

/-- Whether a line is masked. -/
def Controllers.masked (s : Controllers) (irq : Fin 16) : Bool :=
  if irq.val < 8 then s.master.imr.toNat.testBit irq
  else s.slave.imr.toNat.testBit (irq - 8)

/-- The vector of a line, from the chip it is on: the slave answers when the master and it agree
about the line it is on. No device is on line 2. -/
def Controllers.vector (s : Controllers) (irq : Fin 16) : Option UInt8 :=
  if irq.val = 2 then none
  else if irq.val < 8 then
    if s.master.mode8086 ∧ s.master.awaits = .none then
      some (s.master.base ||| UInt8.ofNat irq)
    else none
  else if s.master.mode8086 ∧ s.master.awaits = .none ∧ s.slave.mode8086 ∧ s.slave.awaits = .none ∧
      s.master.cascade.toNat.testBit (s.slave.cascade &&& 7).toNat ∧ s.slave.cascade &&& 7 = 2 then
    some (s.slave.base ||| UInt8.ofNat (irq - 8))
  else none

/-! ## Initialization -/

/-- **From any state of the chips**, in the middle of an initialization or not: the offsets are
taken, the chips know of each other, and the masks are as they were. -/
theorem archIrqControllerInit_eq (masterOffset slaveOffset : UInt8) (s : Controllers) :
    archIrqControllerInit masterOffset slaveOffset s =
      { master := ⟨s.master.imr, masterOffset &&& 0xF8, 4, true, false, true, .none⟩
        slave := ⟨s.slave.imr, slaveOffset &&& 0xF8, 2, true, false, true, .none⟩
        eois := s.eois } := rfl

/-! ## Lines

Sixteen lines in two registers of eight. `arch_irq_enable` reads a register, clears a bit and writes
it back, so what has to be shown of each call is that it is about the one line and that the other
fifteen are as they were. From 16 on there is no line, and the shift moves the bit out of the byte;
from 32 on the shift itself is undefined, and calls with such a number are left out. -/

/-- What the drivers call. -/
inductive LineCall
  | enable (irq : UInt8)
  | disable (irq : UInt8)
  | sendEoi (irq : UInt8)

/-- The shift is by less than 32. -/
def LineCall.Defined : LineCall → Prop
  | .enable irq => irq.toNat < 40
  | .disable irq => irq.toNat < 40
  | .sendEoi _ => True

def LineCall.run (s : Controllers) : LineCall → Controllers
  | .enable irq => archIrqEnable irq s
  | .disable irq => archIrqDisable irq s
  | .sendEoi irq => archIrqSendEoi irq s

/-- What a call is for: a line is set or cleared, and there is none from 16 on. -/
def LineCall.mask (masked : Fin 16 → Bool) : LineCall → Fin 16 → Bool
  | .enable irq => fun i => if i.val = irq.toNat then false else masked i
  | .disable irq => fun i => if i.val = irq.toNat then true else masked i
  | .sendEoi _ => masked

def LineCall.eois : LineCall → List Chip
  | .sendEoi irq => Code.sendEoi irq.toNat
  | _ => []

section

variable {value k : UInt8} {j : Nat}

theorem one_shiftLeft_toNat (hk : k.toNat < 32) :
    ((1 : UInt32) <<< k.toUInt32).toNat = 2 ^ k.toNat := by
  rw [UInt32.toNat_shiftLeft, UInt8.toNat_toUInt32, Nat.mod_eq_of_lt hk]
  show 1 <<< k.toNat % 2 ^ 32 = _
  rw [Nat.one_shiftLeft, Nat.mod_eq_of_lt (Nat.pow_lt_pow_right (by omega) hk)]

theorem testBit_clear (hk : k.toNat < 32) (hj : j < 8) :
    (value.toUInt32 &&& ~~~(1 <<< k.toUInt32)).toUInt8.toNat.testBit j =
      if j = k.toNat then false else value.toNat.testBit j := by
  have hlt : ((1 : UInt32) <<< k.toUInt32).toNat < 2 ^ 32 := UInt32.toNat_lt _
  rw [UInt32.toNat_toUInt8, Nat.testBit_mod_two_pow, UInt32.toNat_and, Nat.testBit_and,
    UInt8.toNat_toUInt32, UInt32.toNat_not]
  show (decide (j < 8) && (value.toNat.testBit j &&
    (2 ^ 32 - 1 - ((1 : UInt32) <<< k.toUInt32).toNat).testBit j)) = _
  rw [Nat.sub_sub, Nat.add_comm 1, Nat.testBit_two_pow_sub_succ hlt, one_shiftLeft_toNat hk,
    Nat.testBit_two_pow]
  by_cases h : j = k.toNat
  · simp [h]
  · simp [h, hj, Ne.symm h, show j < 32 by omega]

theorem testBit_set (hk : k.toNat < 32) (hj : j < 8) :
    (value.toUInt32 ||| 1 <<< k.toUInt32).toUInt8.toNat.testBit j =
      if j = k.toNat then true else value.toNat.testBit j := by
  rw [UInt32.toNat_toUInt8, Nat.testBit_mod_two_pow, UInt32.toNat_or, Nat.testBit_or,
    UInt8.toNat_toUInt32, one_shiftLeft_toNat hk, Nat.testBit_two_pow]
  by_cases h : j = k.toNat
  · subst h
    simp [hj]
  · simp [h, hj, Ne.symm h]

end

/-- Both chips take a byte to the data port for the mask. -/
def Controllers.Ready (s : Controllers) : Prop := s.master.awaits = .none ∧ s.slave.awaits = .none

/-- The mask of the chip that has line `irq`, changed there. -/
def Controllers.onLine (s : Controllers) (irq : UInt8) (f : UInt8 → UInt8 → UInt8) : Controllers :=
  if irq < 8 then { s with master := { s.master with imr := f s.master.imr irq } }
  else { s with slave := { s.slave with imr := f s.slave.imr (irq - 8) } }

section

variable {s : Controllers}

theorem I8259.data_of_ready {c : I8259} (h : c.awaits = .none) (value : UInt8) :
    c.data value = { c with imr := value } := by
  rw [I8259.data, h]

theorem archIrqEnable_eq (hready : s.Ready) (irq : UInt8) :
    archIrqEnable irq s =
      s.onLine irq fun value k => (value.toUInt32 &&& ~~~(1 <<< k.toUInt32)).toUInt8 := by
  unfold archIrqEnable Controllers.onLine
  by_cases h : irq < 8
  · rw [if_pos h, if_pos h, if_pos h]
    exact congrArg (fun c => { s with master := c }) (I8259.data_of_ready hready.1 _)
  · rw [if_neg h, if_neg h, if_neg h]
    exact congrArg (fun c => { s with slave := c }) (I8259.data_of_ready hready.2 _)

theorem archIrqDisable_eq (hready : s.Ready) (irq : UInt8) :
    archIrqDisable irq s =
      s.onLine irq fun value k => (value.toUInt32 ||| 1 <<< k.toUInt32).toUInt8 := by
  unfold archIrqDisable Controllers.onLine
  by_cases h : irq < 8
  · rw [if_pos h, if_pos h, if_pos h]
    exact congrArg (fun c => { s with master := c }) (I8259.data_of_ready hready.1 _)
  · rw [if_neg h, if_neg h, if_neg h]
    exact congrArg (fun c => { s with slave := c }) (I8259.data_of_ready hready.2 _)

/-- One bit of one of the two masks is one line. -/
theorem masked_onLine {f : UInt8 → UInt8 → UInt8} {b : Bool}
    (hf : ∀ (value k : UInt8) (j : Nat), k.toNat < 32 → j < 8 →
      (f value k).toNat.testBit j = if j = k.toNat then b else value.toNat.testBit j)
    {irq : UInt8} (hirq : irq.toNat < 40) (i : Fin 16) :
    (s.onLine irq f).masked i = if i.val = irq.toNat then b else s.masked i := by
  unfold Controllers.onLine Controllers.masked
  by_cases h : irq < 8
  · have hlt : irq.toNat < 8 := UInt8.lt_iff_toNat_lt.mp h
    rw [if_pos h]
    by_cases hi : i.val < 8
    · rw [if_pos hi, if_pos hi, hf _ _ _ (by omega) hi]
    · rw [if_neg hi, if_neg hi, if_neg (by omega)]
  · have hle : 8 ≤ irq.toNat := by
      have hnot := UInt8.lt_iff_toNat_lt.not.mp h
      exact Nat.le_of_not_lt hnot
    have hsub : (irq - 8).toNat = irq.toNat - 8 :=
      UInt8.toNat_sub_of_le irq 8 (UInt8.le_iff_toNat_le.mpr hle)
    rw [if_neg h]
    by_cases hi : i.val < 8
    · rw [if_pos hi, if_pos hi, if_neg (by omega)]
    · rw [if_neg hi, if_neg hi, hf _ _ _ (by omega) (by omega), hsub]
      exact if_congr (by omega) rfl rfl

/-- What no call changes. -/
structure SameVectors (s t : Controllers) : Prop where
  ready : t.Ready ↔ s.Ready
  vector : t.vector = s.vector

theorem SameVectors.trans {s t u : Controllers} (hst : SameVectors s t) (htu : SameVectors t u) :
    SameVectors s u :=
  ⟨htu.ready.trans hst.ready, htu.vector.trans hst.vector⟩

theorem onLine_vectors (irq : UInt8) (f : UInt8 → UInt8 → UInt8) :
    SameVectors s (s.onLine irq f) ∧ (s.onLine irq f).eois = s.eois := by
  unfold Controllers.onLine
  by_cases h : irq < 8
  · rw [if_pos h]
    exact ⟨⟨.rfl, rfl⟩, rfl⟩
  · rw [if_neg h]
    exact ⟨⟨.rfl, rfl⟩, rfl⟩

theorem archIrqSendEoi_eq (irq : UInt8) :
    archIrqSendEoi irq s = { s with eois := s.eois ++ Code.sendEoi irq.toNat } := by
  unfold archIrqSendEoi Code.sendEoi
  by_cases h : 8 ≤ irq
  · have hle : 8 ≤ irq.toNat := UInt8.le_iff_toNat_le.mp h
    rw [if_pos h, if_pos hle]
    show Controllers.mk s.master s.slave (s.eois ++ [Chip.slave] ++ [Chip.master]) = _
    rw [List.append_assoc]
    rfl
  · have hlt : ¬ 8 ≤ irq.toNat := UInt8.le_iff_toNat_le.not.mp h
    rw [if_neg h, if_neg hlt]
    rfl

/-- One call. -/
theorem lineCall_run (hready : s.Ready) {call : LineCall} (hdefined : call.Defined) :
    (call.run s).masked = call.mask s.masked ∧ (call.run s).eois = s.eois ++ call.eois ∧
      SameVectors s (call.run s) := by
  cases call with
  | enable irq =>
    obtain ⟨hsame, heois⟩ := onLine_vectors (s := s) irq
      fun value k => (value.toUInt32 &&& ~~~(1 <<< k.toUInt32)).toUInt8
    rw [← archIrqEnable_eq hready] at hsame heois
    refine ⟨funext fun i => ?_, heois.trans (List.append_nil _).symm, hsame⟩
    show (archIrqEnable irq s).masked i = _
    rw [archIrqEnable_eq hready]
    exact masked_onLine (fun _ _ _ hk hj => testBit_clear hk hj) hdefined i
  | disable irq =>
    obtain ⟨hsame, heois⟩ := onLine_vectors (s := s) irq
      fun value k => (value.toUInt32 ||| 1 <<< k.toUInt32).toUInt8
    rw [← archIrqDisable_eq hready] at hsame heois
    refine ⟨funext fun i => ?_, heois.trans (List.append_nil _).symm, hsame⟩
    show (archIrqDisable irq s).masked i = _
    rw [archIrqDisable_eq hready]
    exact masked_onLine (fun _ _ _ hk hj => testBit_set hk hj) hdefined i
  | sendEoi irq =>
    have hrun : LineCall.run s (.sendEoi irq) = _ := archIrqSendEoi_eq irq
    rw [hrun]
    exact ⟨rfl, rfl, ⟨.rfl, rfl⟩⟩

/-- Any number of them, in any order. -/
theorem lineCalls_run {calls : List LineCall} (hready : s.Ready)
    (hdefined : ∀ call ∈ calls, call.Defined) :
    (calls.foldl LineCall.run s).masked = calls.foldl LineCall.mask s.masked ∧
      (calls.foldl LineCall.run s).eois = s.eois ++ calls.flatMap LineCall.eois ∧
      SameVectors s (calls.foldl LineCall.run s) := by
  induction calls generalizing s with
  | nil => exact ⟨rfl, (List.append_nil _).symm, ⟨.rfl, rfl⟩⟩
  | cons call calls ih =>
    obtain ⟨hcall, hcalls⟩ := List.forall_mem_cons.mp hdefined
    obtain ⟨hmasked, heois, hsame⟩ := lineCall_run hready hcall
    obtain ⟨hmasked', heois', hsame'⟩ := ih (hsame.ready.mpr hready) hcalls
    refine ⟨?_, ?_, hsame.trans hsame'⟩
    · rw [List.foldl_cons, List.foldl_cons, hmasked', hmasked]
    · rw [List.foldl_cons, heois', heois, List.flatMap_cons, List.append_assoc]

end

/-! ## From the line to the handler and back -/

section

variable (masterOffset slaveOffset : UInt8) (s : Controllers)

theorem archIrqControllerInit_ready : (archIrqControllerInit masterOffset slaveOffset s).Ready :=
  ⟨rfl, rfl⟩

/-- The slave takes itself to be where the master has it. -/
theorem cascade_agrees :
    (4 : UInt8).toNat.testBit ((2 : UInt8) &&& 7).toNat = true ∧ (2 : UInt8) &&& 7 = 2 := by decide

/-- Line `irq` of a chip has the vector `irq` behind the offset, whose low bits do not count. -/
theorem archIrqControllerInit_vector (irq : Fin 16) (hirq : irq ≠ 2) :
    (archIrqControllerInit masterOffset slaveOffset s).vector irq =
      some (if irq.val < 8 then (masterOffset &&& 0xF8) ||| UInt8.ofNat irq
        else (slaveOffset &&& 0xF8) ||| UInt8.ofNat (irq - 8)) := by
  have hval : irq.val ≠ 2 := fun h => hirq (Fin.ext h)
  rw [archIrqControllerInit_eq, Controllers.vector, if_neg hval]
  by_cases h : irq.val < 8
  · rw [if_pos h, if_pos h, if_pos ⟨rfl, rfl⟩]
  · rw [if_neg h, if_neg h, if_pos ⟨rfl, rfl, rfl, rfl, cascade_agrees⟩]

/-- **The masks through boot**: from any state of the chips, the initialization and every later
call of the drivers leave the lines as a set of sixteen lines would be left, the EOIs go to the
chips a line is on, and the vectors stay those of the two offsets. -/
theorem lines_refined {calls : List LineCall} (hdefined : ∀ call ∈ calls, call.Defined) :
    let t := calls.foldl LineCall.run (archIrqControllerInit masterOffset slaveOffset s)
    t.masked = calls.foldl LineCall.mask s.masked ∧
      t.eois = s.eois ++ calls.flatMap LineCall.eois ∧
      ∀ irq : Fin 16, irq ≠ 2 → t.vector irq =
        some (if irq.val < 8 then (masterOffset &&& 0xF8) ||| UInt8.ofNat irq
          else (slaveOffset &&& 0xF8) ||| UInt8.ofNat (irq - 8)) := by
  obtain ⟨hmasked, heois, hsame⟩ :=
    lineCalls_run (archIrqControllerInit_ready masterOffset slaveOffset s) hdefined
  refine ⟨hmasked, heois, fun irq hne => ?_⟩
  rw [hsame.vector, archIrqControllerInit_vector masterOffset slaveOffset s irq hne]

end

/-- Chips of which the slave waits for its ICW3, and the calls of the keyboard, of the clock and of
a drive's handler. -/
def firmware : Controllers :=
  ⟨⟨0xB8, 8, 4, true, false, true, .none⟩, ⟨0x8E, 0x70, 2, false, false, true, .icw3⟩, []⟩

def drivers : List LineCall := [.enable 1, .enable 0, .sendEoi 46, .disable 12]

theorem drivers_defined : ∀ call ∈ drivers, call.Defined := by
  intro call hcall
  simp only [drivers, List.mem_cons, List.not_mem_nil, or_false] at hcall
  rcases hcall with rfl | rfl | rfl | rfl
  · exact (by decide : 1 < 40)
  · exact (by decide : 0 < 40)
  · trivial
  · exact (by decide : 12 < 40)

theorem lines_refined_drivers :
    (drivers.foldl LineCall.run (archIrqControllerInit 32 40 firmware)).masked =
      drivers.foldl LineCall.mask firmware.masked ∧
    (drivers.foldl LineCall.run (archIrqControllerInit 32 40 firmware)).eois =
      [.slave, .master] :=
  ⟨(lines_refined 32 40 firmware drivers_defined).1,
    (lines_refined 32 40 firmware drivers_defined).2.1⟩

/-- The vector of a line after `arch_irq_controller_init(32, 40)`. -/
theorem vector_number : ∀ irq : Fin 16,
    (if irq.val < 8 then ((32 : UInt8) &&& 0xF8) ||| UInt8.ofNat irq
      else ((40 : UInt8) &&& 0xF8) ||| UInt8.ofNat (irq - 8)) = UInt8.ofNat (32 + irq) := by
  decide

/-- The number the stub pushes, as `irq_handler` takes it. -/
theorem irq_number : ∀ irq : Fin 16,
    (UInt32.ofNat (32 + irq.val) - 32).toUInt8 = UInt8.ofNat irq ∧
      (UInt8.ofNat irq.val).toNat = irq.val := by decide

theorem irq_stub : ∀ irq : Fin 16, (UInt8.ofNat (32 + irq.val)).toNat = 32 + irq.val ∧
    hasErrStub ⟨32 + irq, by omega⟩ = false := by decide

/-- **The way of an interrupt**, after `set_idt` and whatever the drivers have done since. A line's
vector has an interrupt gate to the line's stub, behind which `irq_handler` is called with what has
been interrupted and with the number of that line, and its EOI goes to the chips the line is on. -/
theorem irq_dispatched (T : Tables) (I : Image) (m : Mem) (handlers : List (UInt8 × UInt32))
    (chips : Controllers) {calls : List LineCall} (hcalls : ∀ call ∈ calls, call.Defined)
    (irq : Fin 16) (hirq : irq ≠ 2) (s : X86.Machine) (hroom : 64 ≤ s.esp.toNat) :
    let chips' := calls.foldl LineCall.run (archIrqControllerInit 32 40 chips)
    let m' := registerAll T (T.setIdt I.stub m) handlers
    let v : Fin 48 := ⟨32 + irq, by omega⟩
    let regs := Registers.parameter (I.enter v none s)
    (∃ vector, chips'.vector irq = some vector ∧
      gateAt m' T.idtr vector = some ⟨I.stub v, 8, true⟩) ∧
    (I.enter v none s).eip = I.irqHandler ∧
    (regs.eip = s.eip ∧ regs.cs = (s.seg .cs).toUInt32 ∧ regs.eflags = s.eflags) ∧
    (archIrqSendEoi (regs.intNo - 32).toUInt8 chips').eois =
      chips'.eois ++ Code.sendEoi irq := by
  intro chips' m' v regs
  obtain ⟨hnumber, herr⟩ := irq_stub irq
  obtain ⟨hirqNo, hback⟩ := irq_number irq
  have hagree : (none : Option UInt32).isSome = hasErrStub v := herr.symm
  have hregs : regs = _ := enter_registers hroom hagree
  obtain ⟨-, -, hsame⟩ := lineCalls_run (archIrqControllerInit_ready 32 40 chips) hcalls
  have hvector : chips'.vector irq = some (UInt8.ofNat (32 + irq)) := by
    rw [hsame.vector, archIrqControllerInit_vector 32 40 chips irq hirq, vector_number]
  refine ⟨⟨_, hvector, ?_⟩, ?_, ?_, ?_⟩
  · have hlt : (UInt8.ofNat (32 + irq.val)).toNat < 48 := by omega
    rw [gateAt_registerAll, gateAt_setIdt, dif_pos hlt]
    exact congrArg (fun v => some (Gate.mk (I.stub v) 8 true)) (Fin.ext hnumber)
  · rw [enter_eq]
    exact if_neg (by show ¬ 32 + irq.val < 32; omega)
  · rw [hregs]
    exact ⟨rfl, rfl, rfl⟩
  · rw [archIrqSendEoi_eq, hregs]
    show chips'.eois ++ Code.sendEoi (UInt32.ofNat (32 + irq.val) - 32).toUInt8.toNat = _
    rw [hirqNo, hback]

/-- The keyboard's line, with the code of `idle` interrupted. -/
theorem irq_dispatched_keyboard :
    (archIrqSendEoi
        ((Registers.parameter (enabling.enter 33 none idle)).intNo - 32).toUInt8
        (drivers.foldl LineCall.run (archIrqControllerInit 32 40 firmware))).eois =
      [.slave, .master, .master] :=
  (irq_dispatched ⟨0x10000, 0x20000, by decide⟩ enabling (fun _ => 0) [] firmware
    drivers_defined 1 (by decide) idle (by decide)).2.2.2

end ScratchOs.Cpu
