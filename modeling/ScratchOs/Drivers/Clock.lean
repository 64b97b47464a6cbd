import Mathlib.Data.List.FinRange
import Mathlib.Data.UInt
import Mathlib.Logic.Relation

/-!
# The clock and its ten timers

`drivers/clock/clock.cpp`. A callback may create and destroy timers, also in the very slot that
`generic_timer_handler` has just emptied, in one that its scan has passed or in one still to come.
So the handler is a machine of small steps here, one for each slot, with calls between them.

What each timer has been through is written down in `made`, which the code does not have:
`clockCreateTimer` adds a record and puts its number in the slot, and whatever happens to the slot
afterwards goes into that record.

A record is only as good as what is written into it, and it is the slots that decide what runs.
So the statements are not about the records alone. `Clock.Creates` ties the answer of
`clock_create_timer` to the slot that was taken. `Timer.Follows` ties a record to what the code
does: it is marked as fired in the step that calls the timer's own callback, and as destroyed in
a `clock_destroy_timer` of the timer's own id, and in no other. And that call ends the timer,
whatever runs afterwards. A `clock_destroy_timer` that did nothing, or emptied another slot, would
keep its records straight and fail there.
-/

set_option autoImplicit false

namespace ScratchOs.Drivers

/-- `timer_callback_t`, as the address of the function. -/
abbrev TimerCallback := UInt32

/-- `MAX_TIMERS` -/
abbrev maxTimers : Nat := 10

/-- `struct timer_event_t`, and the number of the timer in it. -/
structure TimerEvent where
  delay : UInt64
  active : Bool
  callback : TimerCallback
  serial : Nat

/-- One invocation of a callback. -/
structure Firing where
  tick : Nat
  callback : TimerCallback
deriving DecidableEq

/-- What has become of a timer. The tick it was made at is counted from the start of the kernel,
without end. -/
structure Timer where
  id : Fin maxTimers
  ms : UInt32
  callback : TimerCallback
  madeAt : Nat
  fired : List Firing
  destroyed : Bool

/-- Where `generic_timer_handler` is, and which function it has called for slot `i`. Nothing but
what it calls runs until it returns. -/
inductive ClockPhase
  | idle
  | userCallback
  | scanning (i : Nat)
  | callback (i : Fin maxTimers) (callback : TimerCallback)

structure Clock where
  gTicks : UInt64
  gSeconds : UInt64
  gFrequency : UInt32
  tickDivider : UInt32
  gUserCallback : TimerCallback
  gTimers : Fin maxTimers → TimerEvent
  phase : ClockPhase
  ticks : Nat
  made : List Timer

/-- The static variables before anything has run. -/
def Clock.start : Clock where
  gTicks := 0
  gSeconds := 0
  gFrequency := 0
  tickDivider := 0
  gUserCallback := 0
  gTimers := fun _ => ⟨0, false, 0, 0⟩
  phase := .idle
  ticks := 0
  made := []

/-! ## The calls -/

/-- `void init_clock()`, less the hardware. -/
def initClock (c : Clock) : Clock :=
  { c with gFrequency := 1000 }

/-- `void clock_set_handler(timer_callback_t handler)` -/
def clockSetHandler (c : Clock) (handler : TimerCallback) : Clock :=
  { c with gUserCallback := handler }

/-- `void clock_get_time(uint64_t* time_ms)`, with nothing in between its two loads. That is so in
a callback. In a thread a tick may come between them, which is a matter of `ClockSleep`. -/
def clockGetTime (c : Clock) : UInt64 :=
  c.gTicks

/-- The loop of `clock_create_timer`, up to the slot it takes. -/
def freeSlot (c : Clock) : Option (Fin maxTimers) :=
  (List.finRange maxTimers).find? fun i => !(c.gTimers i).active

/-- The rest of it, in slot `i`. -/
def takeSlot (c : Clock) (ms : UInt32) (callback : TimerCallback) (i : Fin maxTimers) : Clock :=
  { c with
    gTimers := Function.update c.gTimers i
      ⟨clockGetTime c + ms.toUInt64, true, callback, c.made.length⟩
    made := c.made ++ [⟨i, ms, callback, c.ticks, [], false⟩] }

/-- `timer_id_t clock_create_timer(uint32_t ms, timer_callback_t callback)` -/
def clockCreateTimer (c : Clock) (ms : UInt32) (callback : TimerCallback) : Clock × Int :=
  match freeSlot c with
  | some i => (takeSlot c ms callback i, i.val)
  | none => (c, -1)

/-- Slot `i` is emptied, and `f` says what that means for the timer in it. -/
def Clock.vacate (c : Clock) (i : Fin maxTimers) (f : Timer → Timer) : Clock :=
  { c with
    gTimers := Function.update c.gTimers i { c.gTimers i with active := false }
    made := if (c.gTimers i).active then c.made.modify (c.gTimers i).serial f else c.made }

/-- `void clock_destroy_timer(timer_id_t timer_id)` -/
def clockDestroyTimer (c : Clock) (timerId : Int) : Clock :=
  if h : 0 ≤ timerId ∧ timerId < maxTimers then
    c.vacate ⟨timerId.toNat, by omega⟩ fun timer => { timer with destroyed := true }
  else c

/-! ## `generic_timer_handler` -/

/-- Up to the loop, `g_user_callback` included. -/
def Clock.tick (c : Clock) : Clock :=
  let divided := c.tickDivider + 1
  let second := c.gFrequency == divided
  { c with
    gTicks := c.gTicks + 1
    ticks := c.ticks + 1
    gSeconds := if second then c.gSeconds + 1 else c.gSeconds
    tickDivider := if second then 0 else divided
    phase := if c.gUserCallback ≠ 0 then .userCallback else .scanning 0 }

def Timer.fire (timer : Timer) (firing : Firing) : Timer :=
  { timer with fired := timer.fired ++ [firing] }

/-- The body of the loop. -/
def Clock.scan (c : Clock) (i : Fin maxTimers) : Clock :=
  if (c.gTimers i).active ∧ (c.gTimers i).delay ≤ c.gTicks then
    { c.vacate i fun timer => timer.fire ⟨c.ticks, (c.gTimers i).callback⟩ with
      phase := .callback i (c.gTimers i).callback }
  else { c with phase := .scanning (i + 1) }

/-- Timers are created and destroyed between two ticks, and by callbacks. -/
def ClockPhase.calls : ClockPhase → Prop
  | .idle => True
  | .userCallback => True
  | .scanning _ => False
  | .callback _ _ => True

/-- The calls, where there can be one, and the handler, statement by statement. -/
inductive Clock.Step : Clock → Clock → Prop
  | init {c : Clock} (h : c.phase.calls) : Step c (initClock c)
  | setHandler {c : Clock} (h : c.phase.calls) (handler : TimerCallback) :
      Step c (clockSetHandler c handler)
  | create {c : Clock} (h : c.phase.calls) (ms : UInt32) (callback : TimerCallback) :
      Step c (clockCreateTimer c ms callback).1
  | destroy {c : Clock} (h : c.phase.calls) (timerId : Int) : Step c (clockDestroyTimer c timerId)
  | tick {c : Clock} (h : c.phase = .idle) : Step c c.tick
  | userReturns {c : Clock} (h : c.phase = .userCallback) : Step c { c with phase := .scanning 0 }
  | scan {c : Clock} {i : Fin maxTimers} (h : c.phase = .scanning i) : Step c (c.scan i)
  | returns {c : Clock} {i : Fin maxTimers} {callback : TimerCallback}
      (h : c.phase = .callback i callback) : Step c { c with phase := .scanning (i + 1) }
  | done {c : Clock} (h : c.phase = .scanning maxTimers) : Step c { c with phase := .idle }

abbrev Clock.Steps : Clock → Clock → Prop :=
  Relation.ReflTransGen Clock.Step

def Clock.Reachable (c : Clock) : Prop :=
  Clock.Steps Clock.start c

/-! ## Where a timer stands -/

/-- The tick by the end of which the timer has fired, where nobody destroys it. -/
def Timer.due (timer : Timer) : Nat :=
  max (timer.madeAt + timer.ms.toNat) (timer.madeAt + 1)

/-- `g_ticks` does not start again from 0 before that. -/
def Timer.Fits (timer : Timer) : Prop :=
  timer.madeAt % 2 ^ 64 + max timer.ms.toNat 1 < 2 ^ 64

/-- The scan is past slot `i`, or there is no scan. -/
def ClockPhase.Passed : ClockPhase → Fin maxTimers → Prop
  | .idle, _ => True
  | .userCallback, _ => False
  | .scanning j, i => i.val < j
  | .callback j _, i => i ≤ j

/-- The timer is in its slot, and it has not missed its tick. -/
structure Timer.Pending (c : Clock) (k : Nat) (timer : Timer) : Prop where
  fired : timer.fired = []
  destroyed : timer.destroyed = false
  slot : c.gTimers timer.id =
    ⟨UInt64.ofNat timer.madeAt + timer.ms.toUInt64, true, timer.callback, k⟩
  due : timer.Fits → c.ticks ≤ timer.due
  passed : timer.Fits → c.phase.Passed timer.id → c.ticks < timer.due

/-- It has fired once, and not early where it fits, or it has been destroyed before it could. -/
inductive Timer.Ended (timer : Timer) : Prop
  | fired (tick : Nat) (h : timer.fired = [⟨tick, timer.callback⟩])
      (hdestroyed : timer.destroyed = false)
      (hearly : timer.Fits → timer.madeAt + timer.ms.toNat ≤ tick)
  | destroyed (h : timer.destroyed = true) (hfired : timer.fired = [])

/-- What holds in every state, also in the middle of a scan. -/
structure Clock.Good (c : Clock) : Prop where
  gTicks : c.gTicks = UInt64.ofNat c.ticks
  made : ∀ k (timer : Timer), c.made[k]? = some timer →
    timer.madeAt ≤ c.ticks ∧ (timer.Pending c k ∨ timer.Ended)
  slots : ∀ i, (c.gTimers i).active = true →
    ∃ timer : Timer, c.made[(c.gTimers i).serial]? = some timer ∧ timer.id = i ∧
      timer.Pending c (c.gTimers i).serial

/-- The time moves on, or the scan does. -/
theorem Clock.Good.move {c c' : Clock} (h : c.Good) (hticks : c'.gTicks = UInt64.ofNat c'.ticks)
    (hle : c.ticks ≤ c'.ticks) (hslots : c'.gTimers = c.gTimers) (hmade : c'.made = c.made)
    (hdue : ∀ k (timer : Timer), timer.Pending c k → timer.Fits → timer.madeAt ≤ c.ticks →
      c'.ticks ≤ timer.due ∧ (c'.phase.Passed timer.id → c'.ticks < timer.due)) :
    c'.Good := by
  have hpending : ∀ k (timer : Timer), timer.madeAt ≤ c.ticks → timer.Pending c k → timer.Pending c' k :=
    fun k timer hmadeAt hp => ⟨hp.fired, hp.destroyed, by rw [hslots, hp.slot],
      fun hfits => (hdue k timer hp hfits hmadeAt).1,
      fun hfits => (hdue k timer hp hfits hmadeAt).2⟩
  refine ⟨hticks, fun k timer hk => ?_, fun i hi => ?_⟩
  · rw [hmade] at hk
    obtain ⟨hmadeAt, hstands⟩ := h.made k timer hk
    exact ⟨hmadeAt.trans hle, hstands.imp (hpending k timer hmadeAt) id⟩
  · rw [hslots] at hi ⊢
    obtain ⟨timer, hk, hid, hp⟩ := h.slots i hi
    rw [hmade]
    exact ⟨timer, hk, hid, hpending _ timer (h.made _ timer hk).1 hp⟩

theorem vacate_of_ne (c : Clock) {i j : Fin maxTimers} (f : Timer → Timer) (h : j ≠ i) :
    (c.vacate i f).gTimers j = c.gTimers j :=
  Function.update_of_ne h ..

theorem vacate_self (c : Clock) (i : Fin maxTimers) (f : Timer → Timer) :
    ((c.vacate i f).gTimers i).active = false := by
  simp only [Clock.vacate, Function.update_self]

/-- Of the records the one of the slot's timer changes, if there is one. -/
theorem vacate_made (c : Clock) (i : Fin maxTimers) (f : Timer → Timer) (k : Nat) :
    (c.vacate i f).made[k]? =
      if (c.gTimers i).active = true ∧ (c.gTimers i).serial = k then c.made[k]?.map f
      else c.made[k]? := by
  simp only [Clock.vacate]
  by_cases hactive : (c.gTimers i).active = true
  · rw [if_pos hactive, List.getElem?_modify]
    by_cases hkey : (c.gTimers i).serial = k
    · simp only [hactive, hkey, if_true, and_self]
      rfl
    · simp only [hkey, if_false, and_false]
      exact Option.map_id'
  · rw [if_neg hactive, if_neg fun h => hactive h.1]

/-- A slot is emptied, and its timer, if there is one, has come to its end. -/
theorem Clock.Good.vacate {c : Clock} (h : c.Good) (i : Fin maxTimers) {f : Timer → Timer}
    (hf : ∀ k (timer : Timer), timer.Pending c k → timer.id = i → timer.madeAt ≤ c.ticks →
      (f timer).Ended ∧ (f timer).madeAt = timer.madeAt) :
    (c.vacate i f).Good := by
  -- Another slot's timer does not see it.
  have hpending : ∀ k (timer : Timer), timer.id ≠ i → timer.Pending c k →
      timer.Pending (c.vacate i f) k := fun k timer hid hp =>
    ⟨hp.fired, hp.destroyed, by rw [vacate_of_ne c f hid, hp.slot], hp.due, hp.passed⟩
  refine ⟨h.gTicks, fun k timer hk => ?_, fun j hj => ?_⟩
  · rw [vacate_made] at hk
    split_ifs at hk with hin
    · obtain ⟨hactive, rfl⟩ := hin
      obtain ⟨held, hheld, hid, hp⟩ := h.slots i hactive
      have hmadeAt := (h.made _ held hheld).1
      obtain ⟨hended, hsame⟩ := hf _ held hp hid hmadeAt
      rw [hheld] at hk
      cases hk
      exact ⟨hsame ▸ hmadeAt, Or.inr hended⟩
    · obtain ⟨hmadeAt, hstands⟩ := h.made k timer hk
      refine ⟨hmadeAt, hstands.imp_left fun hp => hpending k timer (fun hid => hin ?_) hp⟩
      rw [← hid, hp.slot]
      exact ⟨rfl, rfl⟩
  · have hji : j ≠ i := by
      rintro rfl
      rw [vacate_self] at hj
      cases hj
    rw [vacate_of_ne c f hji] at hj ⊢
    obtain ⟨timer, hk, hid, hp⟩ := h.slots j hj
    refine ⟨timer, ?_, hid, hpending _ timer (hid ▸ hji) hp⟩
    rw [vacate_made, if_neg]
    · exact hk
    · -- Two slots with one timer would be one slot.
      rintro ⟨hactive, hkey⟩
      obtain ⟨held, hheld, hid', _⟩ := h.slots i hactive
      rw [hkey, hk] at hheld
      cases hheld
      exact hji (hid.symm.trans hid')

/-- There is no free slot when all are taken. -/
theorem freeSlot_eq_none {c : Clock} :
    freeSlot c = none ↔ ∀ i, (c.gTimers i).active = true := by
  unfold freeSlot
  rw [List.find?_eq_none]
  constructor
  · intro h i
    have hi := h i (List.mem_finRange i)
    rwa [Bool.not_eq_true', Bool.not_eq_false] at hi
  · intro h i _
    rw [h i]
    decide

theorem inactive_of_freeSlot {c : Clock} {i : Fin maxTimers} (h : freeSlot c = some i) :
    (c.gTimers i).active = false := by
  have hi := List.find?_some h
  rwa [Bool.not_eq_true'] at hi

theorem recorded_iff {made : List Timer} {new timer : Timer} {k : Nat} :
    (made ++ [new])[k]? = some timer ↔
      made[k]? = some timer ∨ k = made.length ∧ new = timer := by
  rcases Nat.lt_trichotomy k made.length with hlt | rfl | hgt
  · rw [List.getElem?_append_left hlt]
    exact ⟨Or.inl, fun h => h.resolve_right fun h => absurd h.1 (Nat.ne_of_lt hlt)⟩
  · rw [List.getElem?_concat_length, List.getElem?_eq_none (Nat.le_refl _)]
    exact ⟨fun h => Or.inr ⟨rfl, Option.some.inj h⟩,
      fun h => h.elim (fun h => nomatch h) fun h => congrArg some h.2⟩
  · rw [List.getElem?_eq_none (by rw [List.length_append]; exact hgt),
      List.getElem?_eq_none (Nat.le_of_lt hgt)]
    exact ⟨Or.inl, fun h => h.resolve_right fun h => absurd h.1 (Nat.ne_of_gt hgt)⟩

theorem takeSlot_of_ne (c : Clock) (ms : UInt32) (callback : TimerCallback) {i j : Fin maxTimers}
    (h : j ≠ i) : (takeSlot c ms callback i).gTimers j = c.gTimers j :=
  Function.update_of_ne h ..

theorem takeSlot_self (c : Clock) (ms : UInt32) (callback : TimerCallback) (i : Fin maxTimers) :
    (takeSlot c ms callback i).gTimers i =
      ⟨c.gTicks + ms.toUInt64, true, callback, c.made.length⟩ :=
  Function.update_self ..

/-- A new timer, in a slot that was free. It is due later than now, so that a scan in progress has
not missed it, wherever its slot is. -/
theorem Clock.Good.takeSlot {c : Clock} (h : c.Good) {i : Fin maxTimers}
    (hinactive : (c.gTimers i).active = false) (ms : UInt32) (callback : TimerCallback) :
    (takeSlot c ms callback i).Good := by
  have hpending : ∀ k (timer : Timer), timer.Pending c k →
      timer.id ≠ i ∧ timer.Pending (Drivers.takeSlot c ms callback i) k := by
    intro k timer hp
    have hid : timer.id ≠ i := by
      rintro rfl
      rw [hp.slot] at hinactive
      cases hinactive
    exact ⟨hid, hp.fired, hp.destroyed, by rw [takeSlot_of_ne c ms callback hid, hp.slot],
      hp.due, hp.passed⟩
  -- A new timer has not been passed over by this scan, even where its slot has.
  have hnew : Timer.Pending (Drivers.takeSlot c ms callback i) c.made.length
      ⟨i, ms, callback, c.ticks, [], false⟩ := by
    have hlt : c.ticks < max (c.ticks + ms.toNat) (c.ticks + 1) :=
      lt_max_of_lt_right (Nat.lt_succ_self _)
    refine ⟨rfl, rfl, ?_, fun _ => Nat.le_of_lt hlt, fun _ _ => hlt⟩
    rw [takeSlot_self, h.gTicks]
  refine ⟨h.gTicks, fun k timer hk => ?_, fun j hj => ?_⟩
  · rcases recorded_iff.mp hk with hk | ⟨rfl, rfl⟩
    · obtain ⟨hmadeAt, hstands⟩ := h.made k timer hk
      exact ⟨hmadeAt, hstands.imp_left fun hp => (hpending k timer hp).2⟩
    · exact ⟨Nat.le_refl _, Or.inl hnew⟩
  · by_cases hji : j = i
    · subst hji
      rw [takeSlot_self]
      exact ⟨_, recorded_iff.mpr (Or.inr ⟨rfl, rfl⟩), rfl, hnew⟩
    · rw [takeSlot_of_ne c ms callback hji] at hj ⊢
      obtain ⟨timer, hk, hid, hp⟩ := h.slots j hj
      exact ⟨timer, recorded_iff.mpr (Or.inl hk), hid, (hpending _ timer hp).2⟩

/-- Any number may be passed; only those of a slot do something. -/
theorem Clock.Good.destroy {c : Clock} (h : c.Good) (timerId : Int) :
    (clockDestroyTimer c timerId).Good := by
  unfold clockDestroyTimer
  split_ifs
  · exact h.vacate _ fun k timer hp _ _ => ⟨.destroyed rfl hp.fired, rfl⟩
  · exact h

/-! ## The scan -/

/-- What the comparison of `current_ms` with the delay says of a timer that fits. -/
theorem Timer.Pending.compare {c : Clock} {k : Nat} {timer : Timer} (h : timer.Pending c k)
    (hticks : c.gTicks = UInt64.ofNat c.ticks) (hmadeAt : timer.madeAt ≤ c.ticks)
    (hfits : timer.Fits) :
    (c.gTimers timer.id).delay ≤ c.gTicks ↔ timer.madeAt + timer.ms.toNat ≤ c.ticks := by
  have hdue := h.due hfits
  unfold Timer.Fits at hfits
  unfold Timer.due at hdue
  rw [h.slot, hticks, UInt64.le_iff_toNat_le, UInt64.toNat_add, UInt64.toNat_ofNat',
    UInt64.toNat_ofNat', UInt32.toNat_toUInt64]
  omega

/-- One slot of the scan: a timer in it is due, and fires, or it is not, and stays. -/
theorem Clock.Good.scan {c : Clock} (h : c.Good) {i : Fin maxTimers}
    (hphase : c.phase = .scanning i) : (c.scan i).Good := by
  unfold Clock.scan
  split_ifs with hfires
  · have hvacate := h.vacate i (f := fun timer => timer.fire ⟨c.ticks, (c.gTimers i).callback⟩)
      fun k timer hp hid hmadeAt => by
        refine ⟨.fired c.ticks ?_ hp.destroyed fun hfits => ?_, rfl⟩
        · rw [Timer.fire, hp.fired, ← hid, hp.slot]
          rfl
        · rw [← hid] at hfires
          exact (hp.compare h.gTicks hmadeAt hfits).mp hfires.2
    refine hvacate.move hvacate.gTicks (Nat.le_refl _) rfl rfl fun k timer hp hfits _ =>
      ⟨hp.due hfits, fun hpassed => hp.passed hfits ?_⟩
    -- Slot `i` itself is empty.
    have hne : timer.id ≠ i := by
      rintro rfl
      have := vacate_self c timer.id fun timer' =>
        timer'.fire ⟨c.ticks, (c.gTimers timer.id).callback⟩
      rw [hp.slot] at this
      cases this
    show c.phase.Passed timer.id
    rw [hphase]
    exact Nat.lt_of_le_of_ne hpassed fun heq => hne (Fin.ext heq)
  · refine h.move h.gTicks (Nat.le_refl _) rfl rfl fun k timer hp hfits hmadeAt =>
      ⟨hp.due hfits, fun hpassed => ?_⟩
    by_cases hid : timer.id = i
    · -- It was not due yet, or it would have fired.
      rw [← hid, hp.compare h.gTicks hmadeAt hfits, hp.slot] at hfires
      exact lt_max_of_lt_left (Nat.lt_of_not_le fun hle => hfires ⟨rfl, hle⟩)
    · refine hp.passed hfits ?_
      rw [hphase]
      exact Nat.lt_of_le_of_ne (Nat.le_of_lt_succ hpassed) fun heq => hid (Fin.ext heq)

/-- A tick comes when no scan is in progress: every pending timer was looked at in the last one,
or is newer than it. -/
theorem Clock.Good.tick {c : Clock} (h : c.Good) (hphase : c.phase = .idle) : c.tick.Good := by
  have hticks : c.tick.gTicks = UInt64.ofNat (c.ticks + 1) := by
    show c.gTicks + 1 = _
    rw [h.gTicks, UInt64.ofNat_add]
    rfl
  refine h.move hticks (Nat.le_succ _) rfl rfl fun k timer hp hfits _ => ?_
  have hbefore : c.ticks < timer.due := hp.passed hfits (by rw [hphase]; trivial)
  refine ⟨hbefore, fun hpassed => absurd hpassed ?_⟩
  -- No slot has been looked at.
  simp only [Clock.tick]
  split_ifs
  · exact id
  · exact Nat.not_lt_zero _

/-- Where nothing but the phase changes. -/
theorem Clock.Good.goOn {c : Clock} (h : c.Good) {phase : ClockPhase}
    (hphase : ∀ i, phase.Passed i → c.phase.Passed i) : Clock.Good { c with phase := phase } :=
  h.move h.gTicks (Nat.le_refl _) rfl rfl fun _ timer hp hfits _ =>
    ⟨hp.due hfits, fun hpassed => hp.passed hfits (hphase timer.id hpassed)⟩

/-- The invariant is kept by every step. -/
theorem Clock.Good.step {c c' : Clock} (h : c.Good) (hstep : c.Step c') : c'.Good := by
  cases hstep with
  | init => exact h.move h.gTicks (Nat.le_refl _) rfl rfl fun _ _ hp hfits _ =>
      ⟨hp.due hfits, hp.passed hfits⟩
  | setHandler => exact h.move h.gTicks (Nat.le_refl _) rfl rfl fun _ _ hp hfits _ =>
      ⟨hp.due hfits, hp.passed hfits⟩
  | create _ ms callback =>
    unfold clockCreateTimer
    cases hslot : freeSlot c with
    | none => exact h
    | some i => exact h.takeSlot (inactive_of_freeSlot hslot) ms callback
  | destroy _ timerId => exact h.destroy timerId
  | tick hphase => exact h.tick hphase
  | userReturns hphase => exact h.goOn fun i hpassed => absurd hpassed (Nat.not_lt_zero _)
  | scan hphase => exact h.scan hphase
  | returns hphase =>
    refine h.goOn fun i hpassed => ?_
    rw [hphase]
    exact Nat.le_of_lt_succ hpassed
  | done hphase =>
    refine h.goOn fun i _ => ?_
    rw [hphase]
    exact i.isLt

theorem Clock.Reachable.good {c : Clock} (h : c.Reachable) : c.Good := by
  induction h with
  | refl =>
    refine ⟨rfl, fun k timer hk => ?_, fun i hi => ?_⟩
    · cases hk
    · cases hi
  | tail _ hstep ih => exact ih.step hstep

/-! ## Once, and on time -/

structure Timer.OnTime (c : Clock) (timer : Timer) : Prop where
  once : timer.fired.length ≤ 1
  called : ∀ firing ∈ timer.fired, firing.callback = timer.callback
  early : timer.Fits → ∀ firing ∈ timer.fired, timer.madeAt + timer.ms.toNat ≤ firing.tick
  destroyed : timer.destroyed = true → timer.fired = []
  late : timer.Fits → c.phase = .idle →
    max (timer.madeAt + timer.ms.toNat) (timer.madeAt + 1) ≤ c.ticks →
    timer.destroyed = true ∨ timer.fired ≠ []

/-- What `clock_create_timer` answers. -/
structure Clock.Creates (c : Clock) (ms : UInt32) (callback : TimerCallback) : Prop where
  full : (clockCreateTimer c ms callback).2 = -1 ↔ ∀ i, (c.gTimers i).active = true
  unchanged : (clockCreateTimer c ms callback).2 = -1 → (clockCreateTimer c ms callback).1 = c
  fresh : (clockCreateTimer c ms callback).2 ≠ -1 → ∃ i : Fin maxTimers,
    (clockCreateTimer c ms callback).2 = i.val ∧ (c.gTimers i).active = false ∧
      (clockCreateTimer c ms callback).1.made = c.made ++ [⟨i, ms, callback, c.ticks, [], false⟩]

theorem Clock.creates (c : Clock) (ms : UInt32) (callback : TimerCallback) :
    c.Creates ms callback := by
  cases hslot : freeSlot c with
  | none =>
    have hanswer : clockCreateTimer c ms callback = (c, -1) := by rw [clockCreateTimer, hslot]
    refine ⟨?_, fun _ => ?_, fun hid => ?_⟩
    · rw [hanswer]
      exact ⟨fun _ => freeSlot_eq_none.mp hslot, fun _ => rfl⟩
    · rw [hanswer]
    · rw [hanswer] at hid
      exact absurd rfl hid
  | some j =>
    have hanswer : clockCreateTimer c ms callback = (Drivers.takeSlot c ms callback j, (j.val : Int)) := by
      rw [clockCreateTimer, hslot]
    have hinactive := inactive_of_freeSlot hslot
    refine ⟨?_, fun hneg => ?_, fun _ => ?_⟩
    · rw [hanswer]
      constructor
      · intro hneg
        simp only at hneg
        omega
      · intro hall
        rw [hall j] at hinactive
        cases hinactive
    · rw [hanswer] at hneg
      simp only at hneg
      omega
    · rw [hanswer]
      exact ⟨j, rfl, hinactive, rfl⟩

/-! ## What a record says -/

/-- Record `k` after a step: as it was, or the step has destroyed the timer by its id, or it has
called its callback. -/
def Timer.After (c c' : Clock) (k : Nat) (timer : Timer) : Prop :=
  c'.made[k]? = some timer ∨
    (c' = clockDestroyTimer c timer.id.val ∧
      c'.made[k]? = some { timer with destroyed := true }) ∨
    (c'.phase = .callback timer.id timer.callback ∧
      c'.made[k]? = some (timer.fire ⟨c.ticks, timer.callback⟩))

/-- Record `k` follows what is done to the timer. -/
structure Timer.Follows (c : Clock) (k : Nat) (timer : Timer) : Prop where
  step : ∀ c', c.Step c' → timer.After c c' k
  own : timer.fired = [] → ∀ c', (clockDestroyTimer c timer.id.val).Steps c' →
    ∃ timer' : Timer, c'.made[k]? = some timer' ∧ timer'.id = timer.id ∧ timer'.fired = []
  other : ∀ timerId : Int, timerId ≠ timer.id.val →
    (clockDestroyTimer c timerId).made[k]? = some timer

/-- The callback that runs has been written down. -/
def Clock.Logged (c : Clock) : Prop :=
  ∀ i callback, c.phase = .callback i callback →
    ∃ timer ∈ c.made, timer.id = i ∧ timer.callback = callback ∧ ⟨c.ticks, callback⟩ ∈ timer.fired

/-- Emptying a slot that the timer is not in leaves its record alone. -/
theorem vacate_made_of_not_in {c : Clock} {i : Fin maxTimers} {f : Timer → Timer} {k : Nat}
    (h : (c.gTimers i).active = true → (c.gTimers i).serial ≠ k) :
    (c.vacate i f).made[k]? = c.made[k]? := by
  rw [vacate_made, if_neg fun hin => h hin.1 hin.2]

theorem Timer.Pending.not_ended {c : Clock} {k : Nat} {timer : Timer} (h : timer.Pending c k) :
    ¬ timer.Ended := by
  rintro (⟨tick, hfired, _, _⟩ | ⟨hdestroyed, _⟩)
  · rw [h.fired] at hfired
    cases hfired
  · cases h.destroyed.symm.trans hdestroyed

section Records

variable {c c' : Clock} {k : Nat} {timer : Timer}

/-- A slot holds a timer of its own id. -/
theorem Clock.Good.id_of_slot (h : c.Good) (hk : c.made[k]? = some timer) {i : Fin maxTimers}
    (hactive : (c.gTimers i).active = true) (hserial : (c.gTimers i).serial = k) :
    timer.id = i ∧ timer.Pending c k := by
  obtain ⟨held, hheld, hid, hp⟩ := h.slots i hactive
  rw [hserial] at hheld hp
  obtain rfl := Option.some.inj (hheld.symm.trans hk)
  exact ⟨hid, hp⟩

theorem clockDestroyTimer_id (c : Clock) (i : Fin maxTimers) :
    clockDestroyTimer c i.val = c.vacate i fun timer => { timer with destroyed := true } :=
  dif_pos ⟨Int.natCast_nonneg _, Int.ofNat_lt.mpr i.isLt⟩

/-- A destroy with another id. -/
theorem Clock.Good.other (h : c.Good) (hk : c.made[k]? = some timer) {timerId : Int}
    (hne : timerId ≠ timer.id.val) : (clockDestroyTimer c timerId).made[k]? = some timer := by
  unfold clockDestroyTimer
  split_ifs with hin
  · refine (vacate_made_of_not_in fun hactive hserial => hne ?_).trans hk
    rw [(h.id_of_slot hk hactive hserial).1]
    exact (Int.toNat_of_nonneg hin.1).symm
  · exact hk

/-- A destroy with its own id: it was pending, or there was nothing left to destroy. -/
theorem Clock.Good.own (h : c.Good) (hk : c.made[k]? = some timer) :
    (timer.Pending c k ∧
        (clockDestroyTimer c timer.id.val).made[k]? = some { timer with destroyed := true }) ∨
      timer.Ended ∧ (clockDestroyTimer c timer.id.val).made[k]? = some timer := by
  rw [clockDestroyTimer_id]
  rcases (h.made k timer hk).2 with hp | hended
  · rw [vacate_made, hp.slot, if_pos ⟨rfl, rfl⟩, hk]
    exact Or.inl ⟨hp, rfl⟩
  · refine Or.inr ⟨hended, (vacate_made_of_not_in fun hactive hserial => ?_).trans hk⟩
    exact (h.id_of_slot hk hactive hserial).2.not_ended hended

/-- The scan: the timer is in the slot, and fires if it is due, or it is not there. -/
theorem Clock.Good.scanned (h : c.Good) (hk : c.made[k]? = some timer) (i : Fin maxTimers) :
    (c.scan i).made[k]? = some timer ∨
      timer.Pending c k ∧ (c.scan i).phase = .callback timer.id timer.callback ∧
        (c.scan i).made[k]? = some (timer.fire ⟨c.ticks, timer.callback⟩) := by
  unfold Clock.scan
  split_ifs with hfires
  · show (c.vacate i fun timer => timer.fire ⟨c.ticks, (c.gTimers i).callback⟩).made[k]? = _ ∨ _ ∧
      ClockPhase.callback i (c.gTimers i).callback = _ ∧
        (c.vacate i fun timer => timer.fire ⟨c.ticks, (c.gTimers i).callback⟩).made[k]? = _
    by_cases hserial : (c.gTimers i).serial = k
    · obtain ⟨rfl, hp⟩ := h.id_of_slot hk hfires.1 hserial
      have hcallback : (c.gTimers timer.id).callback = timer.callback := by rw [hp.slot]
      rw [vacate_made, if_pos ⟨hfires.1, hserial⟩, hk, hcallback]
      exact Or.inr ⟨hp, rfl, rfl⟩
    · exact Or.inl ((vacate_made_of_not_in fun _ => hserial).trans hk)
  · exact Or.inl hk

/-- What a step does to a record. Only a pending timer's is written to. -/
theorem Clock.Good.after (h : c.Good) (hk : c.made[k]? = some timer) (hstep : c.Step c') :
    timer.After c c' k ∧ (timer.Ended → c'.made[k]? = some timer) := by
  cases hstep with
  | create _ ms callback =>
    have hkept : (clockCreateTimer c ms callback).1.made[k]? = some timer := by
      unfold clockCreateTimer
      cases freeSlot c with
      | none => exact hk
      | some i => exact recorded_iff.mpr (Or.inl hk)
    exact ⟨Or.inl hkept, fun _ => hkept⟩
  | destroy _ timerId =>
    by_cases hown : timerId = timer.id.val
    · subst hown
      rcases h.own hk with ⟨hp, hmarked⟩ | ⟨_, hkept⟩
      · exact ⟨Or.inr (Or.inl ⟨rfl, hmarked⟩), fun hended => absurd hended hp.not_ended⟩
      · exact ⟨Or.inl hkept, fun _ => hkept⟩
    · exact ⟨Or.inl (h.other hk hown), fun _ => h.other hk hown⟩
  | @scan i _ =>
    rcases h.scanned hk i with hkept | ⟨hp, hphase, hfired⟩
    · exact ⟨Or.inl hkept, fun _ => hkept⟩
    · exact ⟨Or.inr (Or.inr ⟨hphase, hfired⟩), fun hended => absurd hended hp.not_ended⟩
  | init | setHandler | tick | userReturns | returns | done => exact ⟨Or.inl hk, fun _ => hk⟩

/-- The record of a timer that has come to its end is closed. -/
theorem Clock.Good.keeps_ended (h : c.Good) (hk : c.made[k]? = some timer) (hended : timer.Ended)
    (hsteps : c.Steps c') : c'.Good ∧ c'.made[k]? = some timer := by
  induction hsteps with
  | refl => exact ⟨h, hk⟩
  | tail _ hstep ih => exact ⟨ih.1.step hstep, (ih.1.after ih.2 hstep).2 hended⟩

theorem Clock.Good.follows (h : c.Good) (hk : c.made[k]? = some timer) : timer.Follows c k := by
  refine ⟨fun c' hstep => (h.after hk hstep).1, fun hfired c' hsteps => ?_,
    fun timerId hne => h.other hk hne⟩
  have hdestroyed := h.destroy timer.id.val
  rcases h.own hk with ⟨_, hmarked⟩ | ⟨hended, hkept⟩
  · exact ⟨_, (hdestroyed.keeps_ended hmarked (.destroyed rfl hfired) hsteps).2, rfl, hfired⟩
  · exact ⟨_, (hdestroyed.keeps_ended hkept hended hsteps).2, rfl, hfired⟩

end Records

theorem Clock.Logged.step {c c' : Clock} (hgood : c.Good) (h : c.Logged) (hstep : c.Step c') :
    c'.Logged := by
  intro i callback hphase
  cases hstep with
  | init | setHandler => exact h i callback hphase
  | create _ ms callback' =>
    unfold clockCreateTimer at hphase ⊢
    cases hslot : freeSlot c with
    | none =>
      rw [hslot] at hphase
      exact h i callback hphase
    | some j =>
      rw [hslot] at hphase
      obtain ⟨timer, hmem, hrest⟩ := h i callback hphase
      exact ⟨timer, List.mem_append_left _ hmem, hrest⟩
  | destroy hcalls timerId =>
    have hsame : (clockDestroyTimer c timerId).phase = c.phase := by
      unfold clockDestroyTimer
      split_ifs <;> rfl
    obtain ⟨timer, hmem, hid, hcallback, hfired⟩ := h i callback (hsame.symm.trans hphase)
    obtain ⟨k, hk⟩ := List.mem_iff_getElem?.mp hmem
    refine ⟨timer, List.mem_of_getElem? ((hgood.after hk (.destroy hcalls timerId)).2 ?_), hid,
      hcallback, ?_⟩
    · rcases (hgood.made k timer hk).2 with hp | hended
      · rw [hp.fired] at hfired
        cases hfired
      · exact hended
    · have hticks : (clockDestroyTimer c timerId).ticks = c.ticks := by
        unfold clockDestroyTimer
        split_ifs <;> rfl
      rw [hticks]
      exact hfired
  | tick hidle =>
    simp only [Clock.tick] at hphase
    split_ifs at hphase
  | @scan j hscanning =>
    unfold Clock.scan at hphase ⊢
    split_ifs at hphase ⊢ with hfires
    · obtain ⟨rfl, rfl⟩ := ClockPhase.callback.inj hphase
      obtain ⟨timer, hk, hid, hp⟩ := hgood.slots j hfires.1
      have hcallback : (c.gTimers j).callback = timer.callback := by rw [← hid, hp.slot]
      refine ⟨timer.fire ⟨c.ticks, (c.gTimers j).callback⟩, List.mem_of_getElem?
        (i := (c.gTimers j).serial) ?_, hid, hcallback.symm, List.mem_append_right _ ?_⟩
      · show (c.vacate j _).made[(c.gTimers j).serial]? = _
        rw [vacate_made, if_pos ⟨hfires.1, rfl⟩, hk]
        rfl
      · exact List.mem_singleton.mpr rfl
  | userReturns | returns | done => cases hphase

theorem Clock.Reachable.logged {c : Clock} (h : c.Reachable) : c.Logged := by
  induction h with
  | refl => exact fun _ _ hphase => nomatch hphase
  | tail hsteps hstep ih => exact ih.step (Clock.Reachable.good hsteps) hstep

/-- **Timers fire once, and on time**, whatever the callbacks do, and not at all once they are
destroyed. -/
theorem timers_fire_once_on_time {c : Clock} (h : c.Reachable) :
    c.gTicks = UInt64.ofNat c.ticks ∧
      (∀ k (timer : Timer), c.made[k]? = some timer → timer.OnTime c ∧ timer.Follows c k) ∧
      c.Logged ∧ ∀ ms callback, c.Creates ms callback := by
  have hgood := h.good
  refine ⟨hgood.gTicks, fun k timer hk => ⟨?_, hgood.follows hk⟩, h.logged, c.creates⟩
  rcases (hgood.made k timer hk).2 with hp | ⟨tick, hfired, hdestroyed, hearly⟩ | ⟨hdestroyed, hfired⟩
  · refine ⟨?_, ?_, fun _ => ?_, fun _ => hp.fired, fun hfits hidle hdue => ?_⟩
    · rw [hp.fired]
      exact Nat.zero_le _
    · rw [hp.fired]
      exact fun _ hmem => nomatch hmem
    · rw [hp.fired]
      exact fun _ hmem => nomatch hmem
    · exact absurd hdue (Nat.not_le_of_lt (hp.passed hfits (by rw [hidle]; trivial)))
  · refine ⟨?_, ?_, fun hfits => ?_, fun h => ?_, fun _ _ _ => Or.inr ?_⟩
    · rw [hfired]
      exact Nat.le_refl _
    · rw [hfired]
      exact fun firing hmem => by rw [List.mem_singleton.mp hmem]
    · rw [hfired]
      exact fun firing hmem => by rw [List.mem_singleton.mp hmem]; exact hearly hfits
    · rw [hdestroyed] at h
      cases h
    · rw [hfired]
      exact List.cons_ne_nil _ _
  · refine ⟨?_, ?_, fun _ => ?_, fun _ => hfired, fun _ _ _ => Or.inl hdestroyed⟩
    · rw [hfired]
      exact Nat.zero_le _
    · rw [hfired]
      exact fun _ hmem => nomatch hmem
    · rw [hfired]
      exact fun _ hmem => nomatch hmem

theorem fires_at_once : Timer.OnTime (((clockCreateTimer Clock.start 0 7).1.tick).scan 0)
    ⟨0, 0, 7, 0, [⟨1, 7⟩], false⟩ := by
  have hreach : Clock.Reachable (((clockCreateTimer Clock.start 0 7).1.tick).scan 0) :=
    ((Relation.ReflTransGen.single (.create (c := Clock.start) trivial 0 7)).tail
      (.tick rfl)).tail (.scan rfl)
  exact ((timers_fire_once_on_time hreach).2.1 0 _ rfl).1

/-! ## After 2^64 ticks -/

/-- A scan finds nothing where nothing is pending. -/
theorem Clock.scan_quiet {c : Clock} (hquiet : ∀ i, (c.gTimers i).active = false) {j : Nat}
    (hj : j ≤ maxTimers) : Clock.Steps { c with phase := .scanning 0 }
      { c with phase := .scanning j } := by
  induction j with
  | zero => exact .refl
  | succ j ih =>
    refine (ih (Nat.le_of_succ_le hj)).tail ?_
    have hstep := Clock.Step.scan (c := { c with phase := .scanning j }) (i := ⟨j, hj⟩) rfl
    rw [Clock.scan, if_neg fun h => by rw [hquiet] at h; exact absurd h.1 (by decide)] at hstep
    exact hstep

theorem Clock.quiet_after (n : Nat) : ∃ c : Clock, c.Reachable ∧ c.phase = .idle ∧
    c.gUserCallback = 0 ∧ (∀ i, (c.gTimers i).active = false) ∧ c.made = [] ∧ c.ticks = n := by
  induction n with
  | zero => exact ⟨Clock.start, .refl, rfl, rfl, fun _ => rfl, rfl, rfl⟩
  | succ n ih =>
    obtain ⟨c, hreach, hidle, hhandler, hquiet, hmade, hticks⟩ := ih
    have htick : c.tick = { c.tick with phase := .scanning 0 } := by
      simp only [Clock.tick, hhandler, ne_eq, not_true, if_false]
    have hscan := Clock.scan_quiet (c := c.tick) hquiet (Nat.le_refl _)
    rw [← htick] at hscan
    exact ⟨{ c.tick with phase := .idle },
      ((hreach.tail (.tick hidle)).trans hscan).tail (.done rfl), rfl, hhandler, hquiet, hmade,
      congrArg (· + 1) hticks⟩

/-- A timer of 5 ms made three ticks before `g_ticks` starts again from 0: its delay has started
again too, and it fires with the next tick. -/
theorem timer_fires_early : ∃ (c : Clock) (timer : Timer) (firing : Firing), c.Reachable ∧
    timer ∈ c.made ∧ firing ∈ timer.fired ∧ firing.tick < timer.madeAt + timer.ms.toNat := by
  obtain ⟨c, hreach, hidle, hhandler, hquiet, hmade, hticks⟩ := Clock.quiet_after (2 ^ 64 - 3)
  have hfree : freeSlot c = some 0 :=
    List.find?_cons_of_pos (by rw [hquiet]; rfl)
  have hcreate : (clockCreateTimer c 5 1).1 = takeSlot c 5 1 0 := by rw [clockCreateTimer, hfree]
  have hstep : Clock.Step c (takeSlot c 5 1 0) := by
    rw [← hcreate]
    exact .create (by rw [hidle]; trivial) 5 1
  have hphase : (takeSlot c 5 1 0).tick.phase = .scanning ((0 : Fin maxTimers) : Nat) := by
    simp only [Clock.tick, takeSlot, hhandler, ne_eq, not_true, if_false]
    rfl
  have hreach' := ((hreach.tail hstep).tail (.tick hidle)).tail (.scan hphase)
  have hdue : ((takeSlot c 5 1 0).tick.gTimers 0).delay ≤ (takeSlot c 5 1 0).tick.gTicks := by
    show c.gTicks + 5 ≤ c.gTicks + 1
    rw [hreach.good.gTicks, hticks]
    decide
  refine ⟨_, ⟨0, 5, 1, 2 ^ 64 - 3, [⟨2 ^ 64 - 2, 1⟩], false⟩, ⟨2 ^ 64 - 2, 1⟩, hreach', ?_,
    List.mem_singleton.mpr rfl, by decide⟩
  rw [Clock.scan, if_pos ⟨rfl, hdue⟩]
  refine List.mem_iff_getElem?.mpr ⟨0, ?_⟩
  rw [vacate_made, if_pos ⟨rfl, congrArg List.length hmade⟩]
  simp [takeSlot, Clock.tick, Timer.fire, hmade, hticks]

/-! ## A late destroy -/

/-- Timer `k` is pending in slot `i`. -/
def Clock.Holds (c : Clock) (i : Fin maxTimers) (k : Nat) : Prop :=
  (c.gTimers i).active = true ∧ (c.gTimers i).serial = k

theorem holds_of_vacate {c : Clock} {i j : Fin maxTimers} {f : Timer → Timer} {k : Nat}
    (h : (c.vacate j f).Holds i k) : i ≠ j ∧ c.Holds i k := by
  have hne : i ≠ j := by
    rintro rfl
    cases (vacate_self c i f).symm.trans h.1
  unfold Clock.Holds at h
  rw [vacate_of_ne c f hne] at h
  exact ⟨hne, h⟩

theorem vacate_length (c : Clock) (i : Fin maxTimers) (f : Timer → Timer) :
    (c.vacate i f).made.length = c.made.length := by
  simp only [Clock.vacate]
  split_ifs
  · exact List.length_modify ..
  · rfl

/-- No record is lost. -/
theorem Clock.Step.length_le {c c' : Clock} (hstep : c.Step c') :
    c.made.length ≤ c'.made.length := by
  cases hstep with
  | create _ ms callback =>
    unfold clockCreateTimer
    cases freeSlot c with
    | none => exact Nat.le_refl _
    | some j =>
      show _ ≤ (c.made ++ [_]).length
      rw [List.length_append]
      exact Nat.le_add_right ..
  | destroy _ timerId =>
    unfold clockDestroyTimer
    split_ifs
    · exact Nat.le_of_eq (vacate_length ..).symm
    · exact Nat.le_refl _
  | scan =>
    unfold Clock.scan
    split_ifs
    · exact Nat.le_of_eq (vacate_length ..).symm
    · exact Nat.le_refl _
  | init | setHandler | tick | userReturns | returns | done => exact Nat.le_refl _

/-- No timer comes back into a slot. -/
theorem Clock.Step.holds {c c' : Clock} (hstep : c.Step c') {i : Fin maxTimers} {k : Nat}
    (hk : k < c.made.length) (h : c'.Holds i k) : c.Holds i k := by
  cases hstep with
  | create _ ms callback =>
    unfold clockCreateTimer at h
    cases hslot : freeSlot c with
    | none =>
      rw [hslot] at h
      exact h
    | some j =>
      rw [hslot] at h
      by_cases hij : i = j
      · -- The timer that has just been made has a number of its own.
        subst hij
        have hnew := h.2
        rw [takeSlot_self] at hnew
        exact absurd hnew (Nat.ne_of_gt hk)
      · unfold Clock.Holds at h
        rw [takeSlot_of_ne c ms callback hij] at h
        exact h
  | destroy _ timerId =>
    unfold clockDestroyTimer at h
    split_ifs at h
    · exact (holds_of_vacate h).2
    · exact h
  | @scan j hphase =>
    unfold Clock.scan at h
    split_ifs at h
    · exact (holds_of_vacate (f := fun timer => timer.fire ⟨c.ticks, (c.gTimers j).callback⟩) h).2
    · exact h
  | init | setHandler | tick | userReturns | returns | done => exact h

theorem Clock.Steps.holds {c c' : Clock} (hsteps : c.Steps c') {i : Fin maxTimers} {k : Nat}
    (hk : k < c.made.length) (h : c'.Holds i k) : c.Holds i k := by
  induction hsteps using Relation.ReflTransGen.head_induction_on with
  | refl => exact h
  | head hstep _ ih => exact hstep.holds hk (ih (Nat.lt_of_lt_of_le hk hstep.length_le))

/-- **What a late destroy can reach.** Timer `a` was pending in `before`, and has fired or been
destroyed since. Destroying its id once more leaves every pending timer in its slot, with its
deadline and its callback, but for one that was made after `before` and given that id again. -/
theorem late_destroy {before c : Clock} (hbefore : before.Reachable) (hsteps : before.Steps c)
    {timer : Timer} {a : Nat} (ha : before.Holds timer.id a) (hrecord : c.made[a]? = some timer)
    (hended : timer.fired ≠ [] ∨ timer.destroyed = true) {j : Fin maxTimers} {b : Nat}
    (hb : c.Holds j b) :
    (clockDestroyTimer c timer.id.val).gTimers j = c.gTimers j ∨
      j = timer.id ∧ before.made.length ≤ b := by
  by_cases hji : j = timer.id
  · subst hji
    refine Or.inr ⟨rfl, Nat.le_of_not_lt fun hlt => ?_⟩
    -- A timer of that time in this slot would be `a`, and pending.
    obtain rfl : b = a := (hsteps.holds hlt hb).2.symm.trans ha.2
    have hgood : c.Good := Clock.Reachable.good (hbefore.trans hsteps)
    obtain ⟨held, hheld, _, hp⟩ := hgood.slots _ hb.1
    rw [hb.2, hrecord] at hheld
    cases hheld
    rcases hended with hfired | hdestroyed
    · exact hfired hp.fired
    · cases hp.destroyed.symm.trans hdestroyed
  · rw [clockDestroyTimer, dif_pos ⟨Int.natCast_nonneg _, Int.ofNat_lt.mpr timer.id.isLt⟩]
    exact Or.inl (vacate_of_ne c _ hji)

/-- A timer of 0 ms fires, and its callback makes another one, which gets the slot back. -/
def recycled : Clock :=
  (clockCreateTimer ((((clockCreateTimer Clock.start 0 1).1.tick).scan 0)) 100 2).1

theorem recycled_steps : (clockCreateTimer Clock.start 0 1).1.Steps recycled :=
  ((Relation.ReflTransGen.single (.tick rfl)).tail (.scan rfl)).tail
    (.create (c := ((clockCreateTimer Clock.start 0 1).1.tick).scan 0) trivial 100 2)

theorem late_destroy_recycled :
    (clockDestroyTimer recycled 0).gTimers 0 = recycled.gTimers 0 ∨
      (0 : Fin maxTimers) = 0 ∧ 1 ≤ 1 :=
  @late_destroy _ _ (Relation.ReflTransGen.single (.create (c := Clock.start) trivial 0 1))
    recycled_steps ⟨0, 0, 1, 0, [⟨1, 1⟩], false⟩ 0 ⟨rfl, rfl⟩ rfl (Or.inl (by decide)) 0 1
    ⟨rfl, rfl⟩

/-- The first timer has fired, and destroying its id takes the second one away. -/
theorem late_destroy_hits_another : ∃ (c : Clock) (timer : Timer) (b : Nat), c.Reachable ∧
    c.made[0]? = some timer ∧ timer.fired ≠ [] ∧ b ≠ 0 ∧ c.Holds timer.id b ∧
      ¬ (clockDestroyTimer c timer.id.val).Holds timer.id b := by
  refine ⟨recycled, ⟨0, 0, 1, 0, [⟨1, 1⟩], false⟩, 1,
    (Relation.ReflTransGen.single (.create (c := Clock.start) trivial 0 1)).trans recycled_steps,
    rfl, by decide, by decide, ⟨rfl, rfl⟩, fun h => ?_⟩
  cases h.1

end ScratchOs.Drivers
