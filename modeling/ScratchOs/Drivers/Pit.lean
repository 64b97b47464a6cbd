import ScratchOs.Drivers.Ports
import ScratchOs.Lib.Bits

/-!
# The timer chip

`arch/x86/time/pit.cpp`. The chip divides its own frequency by a number of 16 bits, which it takes
byte by byte. Which frequencies can be had is written down twice, in the guard of
`arch_timer_init` and in `arch_timer_get_caps`, and the 16 bits are a third bound:
`programmedFaithfully_iff` says where the three agree.

The chip is modelled as far as it decides the divisor: the access mode of the last command, the
half of the value that has come, the value. It starts in any state, since a loader may have
programmed it, and it may have been left between two bytes. That the command word puts an end to
this is part of what is proved, and not an assumption.

Faithful is a matter of rounding too. The divisor is a whole number, so a frequency that does not
divide the chip's own is met by the nearest below; what is asked is that the chip divides by that
quotient, not that the frequency comes out.
-/

set_option autoImplicit false

namespace ScratchOs.Drivers

open IoPorts

/-- `PIT_BASE_FREQ` -/
abbrev pitBaseFreq : UInt32 := 1193182

/-- `int arch_timer_init(uint32_t hz)` -/
def archTimerInit {σ : Type} [IoPorts σ] (hz : UInt32) (s : σ) : Int × σ :=
  if hz = 0 ∨ 596591 < hz then (-1, s)
  else
    let divisor := pitBaseFreq / hz
    let s := outb s 0x43 0x36
    let s := outb s 0x40 (divisor &&& 0xFF).toUInt8
    let s := outb s 0x40 (divisor >>> 8).toUInt8
    (0, s)

/-- `arch_timer_caps_t` -/
structure ArchTimerCaps where
  maxFrequency : UInt32
  minFrequency : UInt32
  supportsOneShot : Bool
  hasHighResCounter : Bool

/-- `void arch_timer_get_caps(arch_timer_caps_t* caps)` -/
def archTimerGetCaps : ArchTimerCaps where
  maxFrequency := 596591
  minFrequency := 18
  supportsOneShot := false
  hasHighResCounter := false

/-! ## The chip -/

/-- Channel 0: the access mode of the last command for it, the low byte when the high one is still
to come, and the reload value; and what has been written to any port. -/
structure Pit where
  access : UInt8
  low : Option UInt8
  reload : UInt16
  writes : List (UInt16 × UInt8)

/-- A byte for the reload value, which is of two bytes where the access mode is 3. -/
def Pit.data (s : Pit) (value : UInt8) : Pit :=
  if s.access = 1 then { s with reload := value.toUInt16 }
  else if s.access = 2 then { s with reload := value.toUInt16 <<< 8 }
  else
    match s.low with
    | none => { s with low := some value }
    | some low => { s with low := none, reload := low.toUInt16 ||| (value.toUInt16 <<< 8) }

/-- A command. Those for the other channels, and those that latch the count, change nothing that
is modelled. -/
def Pit.command (s : Pit) (value : UInt8) : Pit :=
  if value >>> 6 = 0 ∧ (value >>> 4) &&& 3 ≠ 0 then
    { s with access := (value >>> 4) &&& 3, low := none }
  else s

instance : IoPorts Pit where
  inb s _ := (0xFF, s)
  inw s _ := (0xFFFF, s)
  outb s port value :=
    let s := { s with writes := s.writes ++ [(port, value)] }
    if port = 0x43 then s.command value else if port = 0x40 then s.data value else s

/-- What the chip divides by: 0 stands for 65536. -/
def Pit.divisor (s : Pit) : Nat := if s.reload = 0 then 65536 else s.reload.toNat

/-- The frequency is refused or else programmed as it is, and the capabilities say which. -/
structure ProgrammedFaithfully (hz : UInt32) (s : Pit) : Prop where
  accepted : (archTimerInit hz s).1 = 0 ↔
    archTimerGetCaps.minFrequency ≤ hz ∧ hz ≤ archTimerGetCaps.maxFrequency
  divisor : (archTimerInit hz s).1 = 0 → (archTimerInit hz s).2.divisor = 1193182 / hz.toNat
  refused : (archTimerInit hz s).1 = -1 → (archTimerInit hz s).2.writes = s.writes

section Init

variable {hz : UInt32} (s : Pit)

theorem archTimerInit_refused (h : hz = 0 ∨ 596591 < hz) : archTimerInit hz s = (-1, s) := if_pos h

/-- `0x36`: channel 0, both bytes. -/
theorem Pit.command_bothBytes : s.command 0x36 = { s with access := 3, low := none } := if_pos (by decide)

theorem Pit.data_low (h : s.access = 3) (hlow : s.low = none) (value : UInt8) :
    s.data value = { s with low := some value } := by
  rw [Pit.data, if_neg (by rw [h]; decide), if_neg (by rw [h]; decide), hlow]

theorem Pit.data_high {low : UInt8} (h : s.access = 3) (hlow : s.low = some low) (value : UInt8) :
    s.data value =
      { s with low := none, reload := low.toUInt16 ||| (value.toUInt16 <<< 8) } := by
  rw [Pit.data, if_neg (by rw [h]; decide), if_neg (by rw [h]; decide), hlow]

/-- The three bytes that `arch_timer_init` writes. -/
theorem Pit.programmed (low high : UInt8) :
    outb (outb (outb s 0x43 0x36) 0x40 low) 0x40 high =
      ⟨3, none, low.toUInt16 ||| (high.toUInt16 <<< 8),
        s.writes ++ [(0x43, 0x36)] ++ [(0x40, low)] ++ [(0x40, high)]⟩ := by
  have hcommand : outb s 0x43 0x36 = (⟨3, none, s.reload, s.writes ++ [(0x43, 0x36)]⟩ : Pit) :=
    Pit.command_bothBytes _
  have hlow (s : Pit) (h : s.access = 3) (hnone : s.low = none) : outb s 0x40 low =
      { s with low := some low, writes := s.writes ++ [(0x40, low)] } :=
    Pit.data_low { s with writes := s.writes ++ [(0x40, low)] } h hnone low
  have hhigh (s : Pit) (h : s.access = 3) (hsome : s.low = some low) : outb s 0x40 high =
      { s with
        low := none
        reload := low.toUInt16 ||| (high.toUInt16 <<< 8)
        writes := s.writes ++ [(0x40, high)] } :=
    Pit.data_high { s with writes := s.writes ++ [(0x40, high)] } h hsome high
  rw [hcommand, hlow _ rfl rfl, hhigh _ rfl rfl]

/-- Two bytes, put together again. -/
theorem reload_toNat (n : UInt32) :
    ((n &&& 0xFF).toUInt8.toUInt16 ||| ((n >>> 8).toUInt8.toUInt16 <<< 8)).toNat =
      n.toNat % 65536 := by
  have hlow : (n &&& 0xFF).toUInt8.toUInt16.toNat = n.toNat % 256 := by
    rw [UInt8.toNat_toUInt16, UInt32.toNat_toUInt8, UInt32.toNat_and]
    show (n.toNat &&& (2 ^ 8 - 1)) % 256 = _
    rw [Nat.and_two_pow_sub_one_eq_mod, Nat.mod_mod]
  have hhigh : ((n >>> 8).toUInt8.toUInt16 <<< 8).toNat = n.toNat / 256 % 256 * 256 := by
    rw [UInt16.toNat_shiftLeft, UInt8.toNat_toUInt16, UInt32.toNat_toUInt8, UInt32.toNat_shiftRight]
    show ((n.toNat >>> 8) % 256) <<< 8 % 65536 = _
    rw [Nat.shiftRight_eq_div_pow, Nat.shiftLeft_eq]
    omega
  have hadd : n.toNat / 256 % 256 * 256 ||| n.toNat % 256 =
      n.toNat / 256 % 256 * 256 + n.toNat % 256 :=
    Bits.or_low (k := 8) (Nat.mul_mod_left _ _) (Nat.mod_lt _ (by decide))
  rw [UInt16.toNat_or, hlow, hhigh, Nat.or_comm, hadd]
  omega

/-- What is programmed is the quotient, up to 16 bits. -/
theorem archTimerInit_accepted (h : ¬ (hz = 0 ∨ 596591 < hz)) :
    (archTimerInit hz s).1 = 0 ∧
      (archTimerInit hz s).2.reload.toNat = 1193182 / hz.toNat % 65536 := by
  unfold archTimerInit
  rw [if_neg h]
  refine ⟨rfl, ?_⟩
  simp only
  rw [Pit.programmed, reload_toNat, UInt32.toNat_div]
  rfl

theorem Pit.divisor_eq :
    s.divisor = if s.reload.toNat = 0 then 65536 else s.reload.toNat :=
  if_congr UInt16.toNat_inj.symm rfl rfl

/-- The range of the capabilities. -/
theorem inCaps_iff : (archTimerGetCaps.minFrequency ≤ hz ∧ hz ≤ archTimerGetCaps.maxFrequency) ↔
    18 ≤ hz.toNat ∧ hz.toNat ≤ 596591 := by
  rw [UInt32.le_iff_toNat_le, UInt32.le_iff_toNat_le]
  rfl

/-- **When the chip is programmed as asked**: for the frequencies from 19 on, where the quotient is
a number of 16 bits, and for 0, which is refused. -/
theorem programmedFaithfully_iff (hz : UInt32) (s : Pit) :
    ProgrammedFaithfully hz s ↔ hz = 0 ∨ 19 ≤ hz := by
  have hzero : hz = 0 ↔ hz.toNat = 0 := UInt32.toNat_inj.symm
  have hover : 596591 < hz ↔ 596591 < hz.toNat := UInt32.lt_iff_toNat_lt
  have hnineteen : 19 ≤ hz ↔ 19 ≤ hz.toNat := UInt32.le_iff_toNat_le
  by_cases hguard : hz = 0 ∨ 596591 < hz
  · -- Refused, and out of range.
    have hrun := archTimerInit_refused s hguard
    rw [hzero, hover] at hguard
    rw [hzero, hnineteen]
    refine iff_of_true ⟨?_, fun h => ?_, fun _ => ?_⟩ (by omega)
    · rw [hrun, inCaps_iff]
      exact iff_of_false (Int.neg_ne_zero.mpr Int.one_ne_zero) (by omega)
    · rw [hrun] at h
      exact absurd h (Int.neg_ne_zero.mpr Int.one_ne_zero)
    · rw [hrun]
  · obtain ⟨haccepted, hreload⟩ := archTimerInit_accepted s hguard
    rw [hzero, hover] at hguard
    rw [hzero, hnineteen]
    constructor
    · intro h
      have hdivisor := h.divisor haccepted
      have hrange := inCaps_iff.mp (h.accepted.mp haccepted)
      by_contra hlow
      -- Only 18 is left, and its quotient does not fit.
      have heighteen : hz.toNat = 18 := by omega
      rw [Pit.divisor_eq, hreload, heighteen] at hdivisor
      exact absurd hdivisor (by decide)
    · intro h
      have hle : 1193182 / hz.toNat ≤ 1193182 / 19 := Nat.div_le_div_left (by omega) (by decide)
      have hpos : 0 < 1193182 / hz.toNat := Nat.div_pos (by omega) (by omega)
      rw [Nat.mod_eq_of_lt (Nat.lt_of_le_of_lt hle (by decide))] at hreload
      refine ⟨iff_of_true haccepted (inCaps_iff.mpr (by omega)), fun _ => ?_, fun h => ?_⟩
      · rw [Pit.divisor_eq, hreload, if_neg (Nat.ne_of_gt hpos)]
      · rw [haccepted] at h
        exact absurd h (by decide)

end Init

/-- 18 is within the capabilities, but its quotient is 66287, of which 751 is left. -/
theorem eighteen_misprogrammed :
    ¬ ProgrammedFaithfully 18 ⟨0, none, 0, []⟩ ∧
      (archTimerInit 18 (⟨0, none, 0, []⟩ : Pit)).2.divisor = 751 := by
  have hdivisor : (archTimerInit 18 (⟨0, none, 0, []⟩ : Pit)).2.divisor = 751 := by decide
  refine ⟨fun h => ?_, hdivisor⟩
  have hquotient := h.divisor (by decide)
  rw [hdivisor] at hquotient
  exact absurd hquotient (by decide)

end ScratchOs.Drivers
