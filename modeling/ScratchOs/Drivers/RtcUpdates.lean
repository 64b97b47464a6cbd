import Mathlib.Logic.Function.Iterate
import Mathlib.Order.Monotone.Basic
import ScratchOs.Drivers.Rtc

/-!
# Reading a clock that runs

In `Rtc` the CMOS rests while it is read. Here its six registers may advance by a second, and by
any number of them, before every port access: the code looks at the update flag once, and reads
one register after the other.

What `archRtcGetTime` returns is pieced together from six moments (`archRtcGetTime_running`).
`showed_iff` says when that is a time the clock has shown.

The device is a schedule: for every port access, how many updates have come before it. That is all
that "at any time" can mean to a driver, and it leaves the updates' distance in seconds out; a
schedule with an hour between two accesses is slow code, not an impossible clock. The update flag is
part of the schedule as well, since the code looks at it once and the time it has then left before
the next update is not in the register.

A mixture of six moments can be right. When seconds and minutes were read before and after an update
that changed only the seconds, the result is the earlier time. When whole minutes lie between the
two readings, it is the later one. So the condition is not that no update came but that there is one
moment at which every register is as it was read.
-/

set_option autoImplicit false

namespace ScratchOs.Drivers

open IoPorts

/-! ## The calendar of the clock -/

/-- Every fourth year is a leap year to it, also the year 00. -/
def daysIn (month : UInt8) (year : UInt16) : UInt8 :=
  if month = 2 then if year % 4 = 0 then 29 else 28
  else if month = 4 ∨ month = 6 ∨ month = 9 ∨ month = 11 then 30
  else 31

/-- Two decimal digits in a byte. -/
def toBcd (n : UInt8) : UInt8 := n / 10 * 16 + n % 10

namespace RtcTime

def nextYear (t : RtcTime) : RtcTime :=
  { t with year := if t.year < 99 then t.year + 1 else 0 }

def nextMonth (t : RtcTime) : RtcTime :=
  if t.month < 12 then { t with month := t.month + 1 } else { t with month := 1 }.nextYear

def nextDay (t : RtcTime) : RtcTime :=
  if t.day < daysIn t.month t.year then { t with day := t.day + 1 }
  else { t with day := 1 }.nextMonth

def nextHour (t : RtcTime) : RtcTime :=
  if t.hour < 23 then { t with hour := t.hour + 1 } else { t with hour := 0 }.nextDay

def nextMinute (t : RtcTime) : RtcTime :=
  if t.minute < 59 then { t with minute := t.minute + 1 } else { t with minute := 0 }.nextHour

/-- One update. -/
def nextSecond (t : RtcTime) : RtcTime :=
  if t.second < 59 then { t with second := t.second + 1 } else { t with second := 0 }.nextMinute

/-- How the registers have it. `RtcTime.read` is how the driver takes that. -/
def written (binary : Bool) (t : RtcTime) : RtcTime :=
  if binary then t
  else ⟨toBcd t.second, toBcd t.minute, toBcd t.hour, toBcd t.day, toBcd t.month,
    (toBcd t.year.toUInt8).toUInt16⟩

end RtcTime

/-! ## The device -/

/-- A CMOS whose time goes on while it is read, port access by port access: how many updates have
come before each, and whether status register A announces one there. -/
structure RunningCmos where
  start : RtcTime
  valid : start.Valid
  statusB : UInt8
  updates : Nat → Nat
  monotone : Monotone updates
  announced : Nat → Bool

namespace RunningCmos

variable (r : RunningCmos)

/-- The time after `m` updates. -/
def clock (m : Nat) : RtcTime := RtcTime.nextSecond^[m] r.start

/-- The time at a port access. -/
def shows (access : Nat) : RtcTime := r.clock (r.updates access)

def binary : Bool := r.statusB &&& 0x04 != 0

/-- The registers at a port access. -/
def cmos (access : Nat) (index : UInt8) : Cmos :=
  { Cmos.hold
      ⟨0, fun reg =>
        if reg = 0x0A then if r.announced access then 0x80 else 0
        else if reg = 0x0B then r.statusB
        else 0⟩
      ((r.shows access).written r.binary) with
    index := index }

end RunningCmos

/-- Such a CMOS before the port access of that number. -/
structure CmosAt (r : RunningCmos) where
  index : UInt8
  access : Nat
deriving DecidableEq

/-- Nothing that is written to the registers stays there: they are only read here. -/
instance (r : RunningCmos) : IoPorts (CmosAt r) where
  inb s port := ((inb (r.cmos s.access s.index) port).1, ⟨s.index, s.access + 1⟩)
  inw s _ := (0xFFFF, ⟨s.index, s.access + 1⟩)
  outb s port value := ⟨(outb (r.cmos s.access s.index) port value).index, s.access + 1⟩

namespace RunningCmos

variable (r : RunningCmos)

/-- The moments of a call, counted in updates: from its first port access to its last. -/
def During (s s' : CmosAt r) (m : Nat) : Prop :=
  r.updates s.access ≤ m ∧ m ≤ r.updates (s'.access - 1)

/-- The clock showed this time at one moment of the call. -/
def Showed (s s' : CmosAt r) (time : RtcTime) : Prop :=
  ∃ m, r.During s s' m ∧ time = r.clock m

/-- What is read where the first of the reads begins with this port access. -/
def pieced (access : Nat) : RtcTime where
  second := (r.shows (access + 1)).second
  minute := (r.shows (access + 3)).minute
  hour := (r.shows (access + 5)).hour
  day := (r.shows (access + 7)).day
  month := (r.shows (access + 9)).month
  year := (r.shows (access + 11)).year

/-- Whole minutes lie between the reading of the seconds and moment `m`, and no other register is
at its own reading what it is not at that moment. -/
structure SettledAt (access m : Nat) : Prop where
  second : r.updates (access + 1) % 60 = m % 60
  minute : (r.shows (access + 3)).minute = (r.clock m).minute
  hour : (r.shows (access + 5)).hour = (r.clock m).hour
  day : (r.shows (access + 7)).day = (r.clock m).day
  month : (r.shows (access + 9)).month = (r.clock m).month
  year : (r.shows (access + 11)).year = (r.clock m).year

/-- Every register is read as it was when the seconds were read. -/
def Settled (access : Nat) : Prop := r.SettledAt access (r.updates (access + 1))

end RunningCmos

/-! ## What an update does -/

theorem daysIn_le (month : UInt8) (year : UInt16) : daysIn month year ≤ 31 := by
  unfold daysIn
  split_ifs
  all_goals decide

theorem succ_bounds {n bound : UInt8} (h : n < bound) : 1 ≤ n + 1 ∧ n + 1 ≤ bound := by
  have hbound := bound.toNat_lt
  have hsucc : (n + 1).toNat = (n.toNat + 1) % 2 ^ 8 := UInt8.toNat_add ..
  have hone : (1 : UInt8).toNat = 1 := rfl
  rw [UInt8.lt_iff_toNat_lt] at h
  rw [UInt8.le_iff_toNat_le, UInt8.le_iff_toNat_le, hsucc, hone]
  omega

namespace RtcTime

variable {t : RtcTime}

theorem Valid.nextYear (h : t.Valid) : t.nextYear.Valid := by
  refine { h with year := ?_ }
  show (if t.year < 99 then t.year + 1 else 0) < 100
  split_ifs with hlt
  · have hone : (1 : UInt16).toNat = 1 := rfl
    have hbound : (99 : UInt16).toNat = 99 := rfl
    have hhundred : (100 : UInt16).toNat = 100 := rfl
    rw [UInt16.lt_iff_toNat_lt] at hlt ⊢
    rw [UInt16.toNat_add]
    omega
  · decide

theorem Valid.nextMonth (h : t.Valid) : t.nextMonth.Valid := by
  unfold RtcTime.nextMonth
  split_ifs with hlt
  · exact { h with month := succ_bounds hlt }
  · have hfirst : (1 : UInt8) ≤ 12 := by decide
    exact Valid.nextYear { h with month := ⟨UInt8.le_refl 1, hfirst⟩ }

theorem Valid.nextDay (h : t.Valid) : t.nextDay.Valid := by
  unfold RtcTime.nextDay
  split_ifs with hlt
  · obtain ⟨hone, hle⟩ := succ_bounds hlt
    exact { h with day := ⟨hone, UInt8.le_trans hle (daysIn_le _ _)⟩ }
  · have hfirst : (1 : UInt8) ≤ 31 := by decide
    exact Valid.nextMonth { h with day := ⟨UInt8.le_refl 1, hfirst⟩ }

theorem Valid.nextHour (h : t.Valid) : t.nextHour.Valid := by
  unfold RtcTime.nextHour
  split_ifs with hlt
  · have hlast : (23 : UInt8) < 24 := by decide
    exact { h with hour := UInt8.lt_of_le_of_lt (succ_bounds hlt).2 hlast }
  · have hfirst : (0 : UInt8) < 24 := by decide
    exact Valid.nextDay { h with hour := hfirst }

theorem Valid.nextMinute (h : t.Valid) : t.nextMinute.Valid := by
  unfold RtcTime.nextMinute
  split_ifs with hlt
  · have hlast : (59 : UInt8) < 60 := by decide
    exact { h with minute := UInt8.lt_of_le_of_lt (succ_bounds hlt).2 hlast }
  · have hfirst : (0 : UInt8) < 60 := by decide
    exact Valid.nextHour { h with minute := hfirst }

theorem Valid.nextSecond (h : t.Valid) : t.nextSecond.Valid := by
  unfold RtcTime.nextSecond
  split_ifs with hlt
  · have hlast : (59 : UInt8) < 60 := by decide
    exact { h with second := UInt8.lt_of_le_of_lt (succ_bounds hlt).2 hlast }
  · have hfirst : (0 : UInt8) < 60 := by decide
    exact Valid.nextMinute { h with second := hfirst }

/-! An update of the minutes, and of what is behind them, is none of the seconds'. -/

theorem nextMonth_second (t : RtcTime) : t.nextMonth.second = t.second := by
  unfold nextMonth
  split_ifs
  · rfl
  · rfl

theorem nextDay_second (t : RtcTime) : t.nextDay.second = t.second := by
  unfold nextDay
  split_ifs
  · rfl
  · exact nextMonth_second _

theorem nextHour_second (t : RtcTime) : t.nextHour.second = t.second := by
  unfold nextHour
  split_ifs
  · rfl
  · exact nextDay_second _

theorem nextMinute_second (t : RtcTime) : t.nextMinute.second = t.second := by
  unfold nextMinute
  split_ifs
  · rfl
  · exact nextHour_second _

theorem Valid.nextSecond_second (h : t.Valid) :
    t.nextSecond.second.toNat = (t.second.toNat + 1) % 60 := by
  have hsixty : t.second.toNat < 60 := UInt8.lt_iff_toNat_lt.mp h.second
  have hbound : (59 : UInt8).toNat = 59 := rfl
  unfold RtcTime.nextSecond
  split_ifs with hlt
  · have hsucc : (t.second + 1).toNat = (t.second.toNat + 1) % 2 ^ 8 := UInt8.toNat_add ..
    rw [UInt8.lt_iff_toNat_lt] at hlt
    show (t.second + 1).toNat = _
    omega
  · rw [UInt8.lt_iff_toNat_lt] at hlt
    rw [nextMinute_second]
    show 0 = _
    omega

end RtcTime

theorem bcdToBinary_toBcd {n : UInt8} (h : n < 100) : bcdToBinary (toBcd n) = n := by
  have hall : ∀ d < 100, bcdToBinary (toBcd (UInt8.ofNat d)) = UInt8.ofNat d := by decide
  have hn := hall n.toNat (UInt8.lt_iff_toNat_lt.mp h)
  rwa [UInt8.ofNat_toNat] at hn

theorem year_byte {year : UInt16} (h : year < 100) : year.toUInt8 < 100 := by
  have hlt : year.toNat < 100 := UInt16.lt_iff_toNat_lt.mp h
  rw [UInt8.lt_iff_toNat_lt, UInt16.toNat_toUInt8, Nat.mod_eq_of_lt (by omega)]
  exact hlt

/-- The driver takes what the registers have as the clock means it. -/
theorem RtcTime.Valid.read_written {t : RtcTime} (h : t.Valid) (binary : Bool) :
    (t.written binary).read binary = t := by
  cases binary with
  | true => exact (RtcTime.read_eq_iff h.year true).mpr (Or.inl rfl)
  | false =>
    have hsecond : t.second < 100 := UInt8.lt_trans h.second (by decide)
    have hminute : t.minute < 100 := UInt8.lt_trans h.minute (by decide)
    have hhour : t.hour < 100 := UInt8.lt_trans h.hour (by decide)
    have hday : t.day < 100 := UInt8.lt_of_le_of_lt h.day.2 (by decide)
    have hmonth : t.month < 100 := UInt8.lt_of_le_of_lt h.month.2 (by decide)
    show RtcTime.mk _ _ _ _ _ (bcdToBinary (toBcd t.year.toUInt8).toUInt16.toUInt8).toUInt16 = t
    rw [UInt8.toUInt8_toUInt16, bcdToBinary_toBcd (year_byte h.year), year_register h.year]
    show RtcTime.mk (bcdToBinary (toBcd t.second)) (bcdToBinary (toBcd t.minute))
      (bcdToBinary (toBcd t.hour)) (bcdToBinary (toBcd t.day)) (bcdToBinary (toBcd t.month)) _ = t
    rw [bcdToBinary_toBcd hsecond, bcdToBinary_toBcd hminute, bcdToBinary_toBcd hhour,
      bcdToBinary_toBcd hday, bcdToBinary_toBcd hmonth]

namespace RunningCmos

variable {r : RunningCmos}

theorem valid_clock (m : Nat) : (r.clock m).Valid := by
  induction m with
  | zero => exact r.valid
  | succ m ih =>
    rw [clock, Function.iterate_succ_apply']
    exact RtcTime.Valid.nextSecond ih

theorem valid_shows (access : Nat) : (r.shows access).Valid := r.valid_clock _

theorem clock_second (m : Nat) :
    (r.clock m).second.toNat = (r.start.second.toNat + m) % 60 := by
  induction m with
  | zero => exact (Nat.mod_eq_of_lt (UInt8.lt_iff_toNat_lt.mp r.valid.second)).symm
  | succ m ih =>
    have hnext : r.clock (m + 1) = (r.clock m).nextSecond := Function.iterate_succ_apply' ..
    rw [hnext, (r.valid_clock m).nextSecond_second, ih]
    omega

/-! ## The call -/

theorem rtcReadRegister_running (reg : UInt8) (s : CmosAt r) :
    rtcReadRegister reg s =
      ((r.cmos (s.access + 1) (reg &&& 0x7F)).register (reg &&& 0x7F),
        ⟨reg &&& 0x7F, s.access + 2⟩) := rfl

/-- Polling goes on, port access by port access. -/
theorem waitUpdated_access {fuel : Nat} : ∀ {s s₁ : CmosAt r}, waitUpdated fuel s = some s₁ →
    s.access + 2 ≤ s₁.access := by
  induction fuel with
  | zero =>
    intro s s₁ h
    cases h
  | succ fuel ih =>
    intro s s₁ h
    rw [waitUpdated, rtcReadRegister_running] at h
    simp only at h
    split_ifs at h with hflag
    · have hle := ih h
      simp only at hle
      omega
    · cases h
      exact Nat.le_refl _

/-- **What is read**: one register of each of six moments. -/
theorem archRtcGetTime_running {fuel : Nat} {s s₁ : CmosAt r} (h : waitUpdated fuel s = some s₁) :
    archRtcGetTime fuel s = some (r.pieced s₁.access, ⟨0x0B, s₁.access + 14⟩) := by
  have htaken : ∀ access, ((r.shows access).written r.binary).read r.binary = r.shows access :=
    fun access => (r.valid_shows access).read_written r.binary
  have hpieced : r.pieced s₁.access =
      ⟨(((r.shows (s₁.access + 1)).written r.binary).read r.binary).second,
        (((r.shows (s₁.access + 3)).written r.binary).read r.binary).minute,
        (((r.shows (s₁.access + 5)).written r.binary).read r.binary).hour,
        (((r.shows (s₁.access + 7)).written r.binary).read r.binary).day,
        (((r.shows (s₁.access + 9)).written r.binary).read r.binary).month,
        (((r.shows (s₁.access + 11)).written r.binary).read r.binary).year⟩ := by
    simp only [htaken]
    rfl
  rw [archRtcGetTime, h, Option.bind_eq_bind, Option.bind_some, hpieced]
  simp only [rtcReadRegister_running]
  show (if r.statusB &&& 0x04 = 0 then _ else _) = _
  by_cases hmode : r.statusB &&& 0x04 = 0
  · have hbinary : r.binary = false := by rw [binary, hmode]; rfl
    have hread : ∀ t : RtcTime, t.read r.binary = t.read false := fun t => by rw [hbinary]
    rw [if_pos hmode]
    simp only [hread]
    rfl
  · have hbinary : r.binary = true := bne_iff_ne.mpr hmode
    have hread : ∀ t : RtcTime, t.read r.binary = t.read true := fun t => by rw [hbinary]
    rw [if_neg hmode]
    simp only [hread]
    rfl

/-! ## When the pieces fit -/

theorem pieced_eq_iff (access m : Nat) :
    r.pieced access = r.clock m ↔ r.SettledAt access m := by
  have hsecond : (r.shows (access + 1)).second = (r.clock m).second ↔
      r.updates (access + 1) % 60 = m % 60 := by
    rw [← UInt8.toNat_inj, shows, clock_second, clock_second]
    omega
  constructor
  · intro h
    have hfield {α : Type} (f : RtcTime → α) : f (r.pieced access) = f (r.clock m) :=
      congrArg f h
    exact ⟨hsecond.mp (hfield RtcTime.second), hfield RtcTime.minute, hfield RtcTime.hour,
      hfield RtcTime.day, hfield RtcTime.month, hfield RtcTime.year⟩
  · intro h
    rw [pieced, hsecond.mpr h.second, h.minute, h.hour, h.day, h.month, h.year]

/-- As long as no minute is full nothing moves but the seconds. -/
theorem clock_add {m k : Nat} (h : (r.clock m).second.toNat + k < 60) :
    r.clock (m + k) = { r.clock m with second := (r.clock m).second + UInt8.ofNat k } := by
  induction k with
  | zero =>
    have hzero : (r.clock m).second + UInt8.ofNat 0 = (r.clock m).second := UInt8.add_zero _
    rw [Nat.add_zero, hzero]
  | succ k ih =>
    have hlt : (r.clock m).second + UInt8.ofNat k < 59 := by
      have hbound : (59 : UInt8).toNat = 59 := rfl
      rw [UInt8.lt_iff_toNat_lt, UInt8.toNat_add, UInt8.toNat_ofNat']
      omega
    have hnext : r.clock (m + (k + 1)) = (r.clock (m + k)).nextSecond :=
      Function.iterate_succ_apply' ..
    rw [hnext, ih (Nat.lt_of_succ_lt h), RtcTime.nextSecond, if_pos hlt, UInt8.ofNat_add,
      ← UInt8.add_assoc]
    rfl

/-- The registers have settled where no minute ends between the first reading and the last. -/
theorem settled_of_no_carry {access : Nat}
    (h : (r.shows (access + 1)).second.toNat + r.updates (access + 11) <
      r.updates (access + 1) + 60) : r.Settled access := by
  have hkept (later : Nat) (hfirst : access + 1 ≤ later) (hlast : later ≤ access + 11)
      {α : Type} (f : RtcTime → α) (hf : ∀ t second, f { t with second := second } = f t) :
      f (r.shows later) = f (r.clock (r.updates (access + 1))) := by
    have hle := r.monotone hfirst
    have hle' := r.monotone hlast
    obtain ⟨k, hk⟩ := Nat.exists_eq_add_of_le hle
    rw [shows, hk, clock_add (by rw [← shows]; omega), hf]
  exact ⟨rfl, hkept (access + 3) (by omega) (by omega) RtcTime.minute fun _ _ => rfl,
    hkept (access + 5) (by omega) (by omega) RtcTime.hour fun _ _ => rfl,
    hkept (access + 7) (by omega) (by omega) RtcTime.day fun _ _ => rfl,
    hkept (access + 9) (by omega) (by omega) RtcTime.month fun _ _ => rfl,
    hkept (access + 11) (by omega) (by omega) RtcTime.year fun _ _ => rfl⟩

/-- **When the time that is read is one the clock has shown**: at a moment that lies whole minutes
from the reading of the seconds, where every other register is at its own reading what it is at
that moment. The reading of the seconds itself is such a moment when the registers have settled,
and in less than a minute there is no other. -/
theorem showed_iff {fuel : Nat} {s s₁ : CmosAt r} (h : waitUpdated fuel s = some s₁) :
    ∃ time s', archRtcGetTime fuel s = some (time, s') ∧
      (r.Showed s s' time ↔ ∃ m, r.During s s' m ∧ r.SettledAt s₁.access m) ∧
      (r.Settled s₁.access → r.Showed s s' time) ∧
      (r.updates (s'.access - 1) < r.updates s.access + 60 → r.Showed s s' time →
        r.Settled s₁.access) := by
  have hpolled := waitUpdated_access h
  have hfirst : r.updates s.access ≤ r.updates (s₁.access + 1) := r.monotone (by omega)
  have hlast : r.updates (s₁.access + 1) ≤ r.updates (s₁.access + 14 - 1) :=
    r.monotone (by omega)
  have hshowed : r.Showed s ⟨0x0B, s₁.access + 14⟩ (r.pieced s₁.access) ↔
      ∃ m, r.During s ⟨0x0B, s₁.access + 14⟩ m ∧ r.SettledAt s₁.access m :=
    exists_congr fun m => and_congr_right fun _ => pieced_eq_iff s₁.access m
  refine ⟨_, _, archRtcGetTime_running h, hshowed, fun hsettled => ?_, fun hshort hseen => ?_⟩
  · exact hshowed.mpr ⟨_, ⟨hfirst, hlast⟩, hsettled⟩
  · obtain ⟨m, ⟨hfrom, hto⟩, hsettled⟩ := hshowed.mp hseen
    have hwhole := hsettled.second
    simp only at hto hshort
    obtain rfl : m = r.updates (s₁.access + 1) := by omega
    exact hsettled

/-- At midnight, with an update before every port access. -/
def midnight : RunningCmos where
  start := ⟨0, 0, 0, 1, 1, 24⟩
  valid := ⟨by decide, by decide, by decide, by decide, by decide, by decide⟩
  statusB := 0x02
  updates := id
  monotone := monotone_id
  announced _ := false

theorem showed_midnight : ∃ time s',
    archRtcGetTime 1 (⟨0, 0⟩ : CmosAt midnight) = some (time, s') ∧
      midnight.Showed ⟨0, 0⟩ s' time := by
  have hpolled : waitUpdated 1 (⟨0, 0⟩ : CmosAt midnight) = some ⟨0x0A, 2⟩ := rfl
  obtain ⟨time, s', hget, _, hshowed, _⟩ := showed_iff hpolled
  exact ⟨time, s', hget, hshowed (settled_of_no_carry (by decide))⟩

/-- A second before eleven o'clock, with one update, behind the reading of the seconds. -/
def beforeEleven : RunningCmos where
  start := ⟨59, 59, 10, 1, 1, 24⟩
  valid := ⟨by decide, by decide, by decide, by decide, by decide, by decide⟩
  statusB := 0x02
  updates access := if access < 4 then 0 else 1
  monotone access later h := by
    simp only
    split_ifs
    all_goals omega
  announced _ := false

/-- What is read is 11:00:59. The clock shows 10:59:59, and then 11:00:00. -/
theorem minute_ahead :
    archRtcGetTime 1 (⟨0, 0⟩ : CmosAt beforeEleven) = some (⟨59, 0, 11, 1, 1, 24⟩, ⟨0x0B, 16⟩) ∧
      ¬ beforeEleven.Showed ⟨0, 0⟩ ⟨0x0B, 16⟩ ⟨59, 0, 11, 1, 1, 24⟩ := by
  refine ⟨by decide, ?_⟩
  rintro ⟨m, ⟨_, hlast⟩, htime⟩
  have hle : m ≤ 1 := hlast
  obtain rfl | rfl : m = 0 ∨ m = 1 := by omega
  · exact absurd htime (by decide)
  · exact absurd htime (by decide)

end RunningCmos

end ScratchOs.Drivers
