import ScratchOs.Drivers.Ports

/-!
# The real-time clock

`arch/x86/time/rtc.cpp`. The time is in registers of the CMOS, which are reached through two
ports: one takes the number of a register, and the other is that register.

Status register B says in which of two ways the CMOS writes its numbers. `arch_rtc_get_time`
looks at it, `arch_rtc_set_time` does not, and `roundTrips_iff` says for which times that makes
no difference.

In this module the clock stands still: between two port accesses no second passes. The round trip is
a question about encodings, and a running clock would answer it with no even where the encodings
agree. What becomes of a reading while the clock runs is the subject of `RtcUpdates`, where in turn
the encoding is not in question.

Polling for the end of an update has a bound on the number of looks. A clock at rest needs one.
-/

set_option autoImplicit false

namespace ScratchOs.Drivers

open IoPorts

/-- `struct rtc_time_t` -/
structure RtcTime where
  second : UInt8
  minute : UInt8
  hour : UInt8
  day : UInt8
  month : UInt8
  year : UInt16
deriving DecidableEq

/-- `BCD_TO_BINARY(bcd)` -/
def bcdToBinary (bcd : UInt8) : UInt8 := (bcd >>> 4) * 10 + (bcd &&& 0x0F)

section Ports

variable {σ : Type} [IoPorts σ]

/-- `uint8_t rtc_read_register(uint8_t reg)` -/
def rtcReadRegister (reg : UInt8) (s : σ) : UInt8 × σ :=
  inb (outb s 0x70 reg) 0x71

/-- `uint8_t rtc_write_register(uint8_t reg, uint8_t value)` -/
def rtcWriteRegister (reg value : UInt8) (s : σ) : σ :=
  outb (outb s 0x70 reg) 0x71 value

/-- `while (arch_rtc_is_updating());`; `none` when it has not ended by then. -/
def waitUpdated : Nat → σ → Option σ
  | 0, _ => none
  | fuel + 1, s =>
    let (status, s) := rtcReadRegister 0x0A s
    if status &&& 0x80 ≠ 0 then waitUpdated fuel s else some s

/-- `void arch_rtc_get_time(rtc_time_t* time)` -/
def archRtcGetTime (fuel : Nat) (s : σ) : Option (RtcTime × σ) := do
  let s ← waitUpdated fuel s
  let (second, s) := rtcReadRegister 0x00 s
  let (minute, s) := rtcReadRegister 0x02 s
  let (hour, s) := rtcReadRegister 0x04 s
  let (day, s) := rtcReadRegister 0x07 s
  let (month, s) := rtcReadRegister 0x08 s
  let (year, s) := rtcReadRegister 0x09 s
  let (statusB, s) := rtcReadRegister 0x0B s
  if statusB &&& 0x04 = 0 then
    some (⟨bcdToBinary second, bcdToBinary minute, bcdToBinary hour, bcdToBinary day,
      bcdToBinary month, (bcdToBinary year).toUInt16⟩, s)
  else some (⟨second, minute, hour, day, month, year.toUInt16⟩, s)

/-- `void arch_rtc_set_time(rtc_time_t* time)` -/
def archRtcSetTime (fuel : Nat) (time : RtcTime) (s : σ) : Option σ := do
  let s ← waitUpdated fuel s
  let s := rtcWriteRegister 0x00 time.second s
  let s := rtcWriteRegister 0x02 time.minute s
  let s := rtcWriteRegister 0x04 time.hour s
  let s := rtcWriteRegister 0x07 time.day s
  let s := rtcWriteRegister 0x08 time.month s
  let s := rtcWriteRegister 0x09 time.year.toUInt8 s
  some s

end Ports

/-! ## The CMOS -/

/-- The registers of the CMOS, and the number of the one that the second port is. -/
structure Cmos where
  index : UInt8
  register : UInt8 → UInt8

instance : IoPorts Cmos where
  inb s port := (if port = 0x71 then s.register s.index else 0xFF, s)
  inw s _ := (0xFFFF, s)
  outb s port value :=
    if port = 0x70 then { s with index := value &&& 0x7F }
    else if port = 0x71 then { s with register := Function.update s.register s.index value }
    else s

/-- No update is in progress. -/
def Cmos.Rests (s : Cmos) : Prop := s.register 0x0A &&& 0x80 = 0

/-- The data-mode bit. -/
def Cmos.binary (s : Cmos) : Bool := s.register 0x0B &&& 0x04 != 0

structure RtcTime.Valid (t : RtcTime) : Prop where
  second : t.second < 60
  minute : t.minute < 60
  hour : t.hour < 24
  day : 1 ≤ t.day ∧ t.day ≤ 31
  month : 1 ≤ t.month ∧ t.month ≤ 12
  year : t.year < 100

/-- No field has come to 16. To `BCD_TO_BINARY` the bytes `0x0A` to `0x0F`, which are not
decimal, are 10 to 15. -/
structure RtcTime.Small (t : RtcTime) : Prop where
  second : t.second < 16
  minute : t.minute < 16
  hour : t.hour < 16
  day : t.day < 16
  month : t.month < 16
  year : t.year < 16

/-- What has been set is what is read. -/
def RoundTrips (s : Cmos) (t : RtcTime) : Prop :=
  ∃ s₁ s₂, archRtcSetTime 1 t s = some s₁ ∧ archRtcGetTime 1 s₁ = some (t, s₂)

theorem bcdToBinary_eq_iff (n : UInt8) : bcdToBinary n = n ↔ n < 16 := by
  have hlt := n.toNat_lt
  have hhigh : (n >>> 4).toNat = n.toNat / 16 := by
    rw [UInt8.toNat_shiftRight]
    exact Nat.shiftRight_eq_div_pow n.toNat 4
  have hlow : (n &&& 0x0F).toNat = n.toNat % 16 := by
    rw [UInt8.toNat_and]
    exact Nat.and_two_pow_sub_one_eq_mod n.toNat 4
  have hten : (10 : UInt8).toNat = 10 := rfl
  have hsixteen : (16 : UInt8).toNat = 16 := rfl
  rw [← UInt8.toNat_inj, UInt8.lt_iff_toNat_lt, bcdToBinary, UInt8.toNat_add, UInt8.toNat_mul,
    hhigh, hlow, hten, hsixteen]
  omega

section Cmos

variable (s : Cmos) (t : RtcTime)

@[simp] theorem rtcReadRegister_cmos (reg : UInt8) :
    rtcReadRegister reg s = (s.register (reg &&& 0x7F), { s with index := reg &&& 0x7F }) := rfl

@[simp] theorem rtcWriteRegister_cmos (reg value : UInt8) :
    rtcWriteRegister reg value s =
      ⟨reg &&& 0x7F, Function.update s.register (reg &&& 0x7F) value⟩ := rfl

theorem waitUpdated_cmos {s : Cmos} (h : s.Rests) :
    waitUpdated 1 s = some { s with index := 0x0A } := by
  rw [waitUpdated, rtcReadRegister_cmos]
  exact if_neg fun hne => hne h

/-- The registers with a time in them. -/
def Cmos.hold : Cmos where
  index := 0x09
  register r :=
    if r = 0x09 then t.year.toUInt8
    else if r = 0x08 then t.month
    else if r = 0x07 then t.day
    else if r = 0x04 then t.hour
    else if r = 0x02 then t.minute
    else if r = 0x00 then t.second
    else s.register r

theorem archRtcSetTime_cmos {s : Cmos} (h : s.Rests) :
    archRtcSetTime 1 t s = some (s.hold t) := by
  rw [archRtcSetTime, waitUpdated_cmos h, Option.bind_eq_bind, Option.bind_some]
  simp only [rtcWriteRegister_cmos]
  refine congrArg some (congrArg (Cmos.mk 0x09) (funext fun r => ?_))
  simp only [Function.update_apply]
  rfl

/-- The six fields as `arch_rtc_get_time` returns them. -/
def RtcTime.read (binary : Bool) (t : RtcTime) : RtcTime :=
  if binary then { t with year := t.year.toUInt8.toUInt16 }
  else ⟨bcdToBinary t.second, bcdToBinary t.minute, bcdToBinary t.hour, bcdToBinary t.day,
    bcdToBinary t.month, (bcdToBinary t.year.toUInt8).toUInt16⟩

theorem archRtcGetTime_cmos {s : Cmos} (h : s.Rests) :
    archRtcGetTime 1 (s.hold t) = some (t.read s.binary, { s.hold t with index := 0x0B }) := by
  have hrests : (s.hold t).Rests := h
  have hstatus : (s.hold t).register 0x0B = s.register 0x0B := rfl
  rw [archRtcGetTime, waitUpdated_cmos hrests, Option.bind_eq_bind, Option.bind_some]
  simp only [rtcReadRegister_cmos]
  show (if (s.hold t).register 0x0B &&& 0x04 = 0 then _ else _) = _
  rw [hstatus, RtcTime.read, Cmos.binary]
  by_cases hmode : s.register 0x0B &&& 0x04 = 0
  · rw [if_pos hmode, hmode]
    rfl
  · rw [if_neg hmode, if_pos (by simpa using hmode)]
    rfl

/-- A year below 100 fits the register. -/
theorem year_register {year : UInt16} (h : year < 100) : year.toUInt8.toUInt16 = year := by
  have hlt : year.toNat < 100 := UInt16.lt_iff_toNat_lt.mp h
  rw [← UInt16.toNat_inj, UInt8.toNat_toUInt16, UInt16.toNat_toUInt8]
  exact Nat.mod_eq_of_lt (by omega)

theorem bcd_year_iff {year : UInt16} (h : year < 100) :
    (bcdToBinary year.toUInt8).toUInt16 = year ↔ year < 16 := by
  have hsame := year_register h
  have hlt : year.toNat < 100 := UInt16.lt_iff_toNat_lt.mp h
  have hbyte : year.toUInt8 < 16 ↔ year < 16 := by
    rw [UInt8.lt_iff_toNat_lt, UInt16.lt_iff_toNat_lt, UInt16.toNat_toUInt8,
      Nat.mod_eq_of_lt (by omega)]
    rfl
  rw [← hbyte, ← bcdToBinary_eq_iff]
  constructor
  · intro heq
    rw [← UInt8.toNat_inj, ← UInt8.toNat_toUInt16, heq, UInt16.toNat_toUInt8,
      Nat.mod_eq_of_lt (by omega)]
  · intro heq
    rw [heq, hsame]

theorem RtcTime.read_eq_iff {t : RtcTime} (hyear : t.year < 100) (binary : Bool) :
    t.read binary = t ↔ binary = true ∨ t.Small := by
  obtain ⟨second, minute, hour, day, month, year⟩ := t
  cases binary with
  | true =>
    rw [RtcTime.read, if_pos rfl, year_register hyear]
    exact ⟨fun _ => Or.inl rfl, fun _ => rfl⟩
  | false =>
    rw [RtcTime.read, if_neg Bool.false_ne_true, RtcTime.mk.injEq, bcdToBinary_eq_iff,
      bcdToBinary_eq_iff, bcdToBinary_eq_iff, bcdToBinary_eq_iff, bcdToBinary_eq_iff,
      bcd_year_iff hyear]
    constructor
    · rintro ⟨hs, hm, hh, hd, hmo, hy⟩
      exact Or.inr ⟨hs, hm, hh, hd, hmo, hy⟩
    · rintro (h | ⟨hs, hm, hh, hd, hmo, hy⟩)
      · cases h
      · exact ⟨hs, hm, hh, hd, hmo, hy⟩

/-- **When setting and reading the clock round-trips**: when the CMOS counts in binary, or no
field has come to 16. -/
theorem roundTrips_iff {s : Cmos} {t : RtcTime} (hs : s.Rests) (ht : t.Valid) :
    RoundTrips s t ↔ s.binary = true ∨ t.Small := by
  rw [← RtcTime.read_eq_iff ht.year]
  constructor
  · rintro ⟨s₁, s₂, hset, hget⟩
    rw [archRtcSetTime_cmos t hs] at hset
    cases hset
    rw [archRtcGetTime_cmos t hs] at hget
    exact congrArg Prod.fst (Option.some.inj hget)
  · intro hread
    have hget := archRtcGetTime_cmos t hs
    rw [hread] at hget
    exact ⟨_, _, archRtcSetTime_cmos t hs, hget⟩

end Cmos

/-- A quarter past three on the ninth of May 2012, in decimal. -/
theorem roundTrips_small :
    RoundTrips ⟨0, fun r => if r = 0x0B then 0x02 else 0⟩ ⟨7, 15, 3, 9, 5, 12⟩ :=
  (roundTrips_iff (show _ = _ by decide)
    ⟨by decide, by decide, by decide, by decide, by decide, by decide⟩).mpr
    (Or.inr ⟨by decide, by decide, by decide, by decide, by decide, by decide⟩)

/-- 45 seconds come back as 33 where the CMOS counts in decimal. -/
theorem seconds_misread :
    ¬ RoundTrips ⟨0, fun r => if r = 0x0B then 0x02 else 0⟩ ⟨45, 0, 0, 1, 1, 24⟩ ∧
      ((archRtcSetTime 1 ⟨45, 0, 0, 1, 1, 24⟩
        (⟨0, fun r => if r = 0x0B then 0x02 else 0⟩ : Cmos)).bind (archRtcGetTime 1)).map
          (fun r => r.1.second) = some 33 := by
  refine ⟨?_, by decide⟩
  rintro ⟨s₁, s₂, hset, hget⟩
  have hrests : Cmos.Rests ⟨0, fun r => if r = 0x0B then 0x02 else 0⟩ := show _ = _ by decide
  rw [archRtcSetTime_cmos _ hrests] at hset
  cases hset
  rw [archRtcGetTime_cmos _ hrests] at hget
  have hsecond : (33 : UInt8) = 45 := congrArg (fun r => r.1.second) (Option.some.inj hget)
  exact absurd hsecond (by decide)

end ScratchOs.Drivers
