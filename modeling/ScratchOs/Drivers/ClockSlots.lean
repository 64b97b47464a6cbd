import ScratchOs.Drivers.Clock

/-!
# `clock_create_timer`, statement by statement

In `Clock` a timer is made at once. Here the kernel's thread goes through the statements of
`clock_create_timer` one by one, and a tick may come before any of them. The handler is the one of
`Clock`, and so is what its callbacks do: nothing interrupts those, and a timer they make is made
at once.

A slot is published in three stores, `delay`, `active` and `callback`, and the handler believes
`active`. `slots_observed_right` says which runs that is good enough for; without a tick in
between the statements are `clockCreateTimer` (`statements_create`).

Good enough has three parts, and none of them follows from the others. What the handler *finds* in
an active slot is what the call that activated it was given. What it *calls* there is the function
that call was given, which is a statement about `Clock.scan` and not about the slot before it. And
no timer is *lost*: from the store of `active` on it is in its slot until it is called or destroyed
by its id, whichever statement, tick or callback comes next. The first is an invariant of the run
(`Thread.Sound`); the other two are read off it, one step at a time.
-/

set_option autoImplicit false

namespace ScratchOs.Drivers

/-- What a call has got after `clock_get_time`; `madeAt` is the tick that was at. Ticks may pass
before it is used, and the delay is counted from then. -/
structure CreateCall where
  ms : UInt32
  callback : TimerCallback
  currentMs : UInt64
  madeAt : Nat

def CreateCall.delay (call : CreateCall) : UInt64 := call.currentMs + call.ms.toUInt64

/-- Where the thread is in `clock_create_timer`, by the statement that is next. -/
inductive Creating
  | outside
  | entered (ms : UInt32) (callback : TimerCallback)
  | looking (call : CreateCall) (i : Nat)
  | found (call : CreateCall) (i : Fin maxTimers)
  | delayed (call : CreateCall) (i : Fin maxTimers)
  | activated (call : CreateCall) (i : Fin maxTimers)

/-- The slot the call has found free and not yet filled. -/
def Creating.slot : Creating → Option (Fin maxTimers)
  | .outside => none
  | .entered _ _ => none
  | .looking _ _ => none
  | .found _ i => some i
  | .delayed _ i => some i
  | .activated _ i => some i

/-- The clock with the thread's place in the call: its own, and not the callbacks'. -/
structure Thread where
  clock : Clock
  creating : Creating

def Thread.start : Thread := ⟨Clock.start, .outside⟩

/-- `g_timers[i].delay = current_ms + ms` -/
def storeDelay (c : Clock) (call : CreateCall) (i : Fin maxTimers) : Clock :=
  { c with gTimers := Function.update c.gTimers i { c.gTimers i with delay := call.delay } }

/-- `g_timers[i].active = true`. From here on the slot is the call's. -/
def storeActive (c : Clock) (call : CreateCall) (i : Fin maxTimers) : Clock :=
  { c with
    gTimers := Function.update c.gTimers i
      { c.gTimers i with active := true, serial := c.made.length }
    made := c.made ++ [⟨i, call.ms, call.callback, call.madeAt, [], false⟩] }

/-- `g_timers[i].callback = callback` -/
def storeCallback (c : Clock) (call : CreateCall) (i : Fin maxTimers) : Clock :=
  { c with gTimers := Function.update c.gTimers i { c.gTimers i with callback := call.callback } }

inductive ClockAction
  /-- The thread enters `clock_create_timer`. -/
  | call (ms : UInt32) (callback : TimerCallback)
  | statement
  | tick
  | handler
  /-- A callback makes a timer. -/
  | create (ms : UInt32) (callback : TimerCallback)
  | destroy (timerId : Int)
  | setHandler (handler : TimerCallback)
  | init

/-- Calls other than `clock_create_timer` come from callbacks, or from the thread between two
calls. -/
def Thread.Calls (s : Thread) : Prop :=
  s.clock.phase.calls ∧ (s.clock.phase = .idle → s.creating = .outside)

/-- The thread moves while no handler runs, and the handler and its callbacks as in `Clock`. -/
inductive Thread.Step : Thread → ClockAction → Thread → Prop
  | call {s : Thread} (hphase : s.clock.phase = .idle) (h : s.creating = .outside) (ms : UInt32)
      (callback : TimerCallback) :
      Step s (.call ms callback) { s with creating := .entered ms callback }
  | getTime {s : Thread} {ms : UInt32} {callback : TimerCallback}
      (hphase : s.clock.phase = .idle) (h : s.creating = .entered ms callback) :
      Step s .statement
        { s with creating := .looking ⟨ms, callback, clockGetTime s.clock, s.clock.ticks⟩ 0 }
  | occupied {s : Thread} {call : CreateCall} {i : Fin maxTimers}
      (hphase : s.clock.phase = .idle) (h : s.creating = .looking call i)
      (hactive : (s.clock.gTimers i).active = true) :
      Step s .statement { s with creating := .looking call (i + 1) }
  | free {s : Thread} {call : CreateCall} {i : Fin maxTimers} (hphase : s.clock.phase = .idle)
      (h : s.creating = .looking call i) (hactive : (s.clock.gTimers i).active = false) :
      Step s .statement { s with creating := .found call i }
  | full {s : Thread} {call : CreateCall} (hphase : s.clock.phase = .idle)
      (h : s.creating = .looking call maxTimers) : Step s .statement { s with creating := .outside }
  | storeDelay {s : Thread} {call : CreateCall} {i : Fin maxTimers}
      (hphase : s.clock.phase = .idle) (h : s.creating = .found call i) :
      Step s .statement ⟨storeDelay s.clock call i, .delayed call i⟩
  | storeActive {s : Thread} {call : CreateCall} {i : Fin maxTimers}
      (hphase : s.clock.phase = .idle) (h : s.creating = .delayed call i) :
      Step s .statement ⟨storeActive s.clock call i, .activated call i⟩
  | storeCallback {s : Thread} {call : CreateCall} {i : Fin maxTimers}
      (hphase : s.clock.phase = .idle) (h : s.creating = .activated call i) :
      Step s .statement ⟨storeCallback s.clock call i, .outside⟩
  | tick {s : Thread} (hphase : s.clock.phase = .idle) : Step s .tick { s with clock := s.clock.tick }
  | userReturns {s : Thread} (hphase : s.clock.phase = .userCallback) :
      Step s .handler { s with clock := { s.clock with phase := .scanning 0 } }
  | scan {s : Thread} {i : Fin maxTimers} (hphase : s.clock.phase = .scanning i) :
      Step s .handler { s with clock := s.clock.scan i }
  | returns {s : Thread} {i : Fin maxTimers} {callback : TimerCallback}
      (hphase : s.clock.phase = .callback i callback) :
      Step s .handler { s with clock := { s.clock with phase := .scanning (i + 1) } }
  | done {s : Thread} (hphase : s.clock.phase = .scanning maxTimers) :
      Step s .handler { s with clock := { s.clock with phase := .idle } }
  | create {s : Thread} (hphase : s.clock.phase.calls) (hbusy : s.clock.phase ≠ .idle) (ms : UInt32)
      (callback : TimerCallback) :
      Step s (.create ms callback) { s with clock := (clockCreateTimer s.clock ms callback).1 }
  | destroy {s : Thread} (h : s.Calls) (timerId : Int) :
      Step s (.destroy timerId) { s with clock := clockDestroyTimer s.clock timerId }
  | setHandler {s : Thread} (h : s.Calls) (handler : TimerCallback) :
      Step s (.setHandler handler) { s with clock := clockSetHandler s.clock handler }
  | init {s : Thread} (h : s.Calls) : Step s .init { s with clock := initClock s.clock }

/-- A tick does not come between the stores of `active` and of `callback`, unless the slot holds
the callback already; and what callbacks make does not go to the slot that the thread has found.
Nothing else is asked of a step. -/
def Thread.Safe (s : Thread) : ClockAction → Prop
  | .tick => ∀ call i, s.creating = .activated call i →
      (s.clock.gTimers i).callback = call.callback
  | .create _ _ => ∀ i, s.creating.slot = some i → freeSlot s.clock ≠ some i
  | _ => True

inductive Thread.SafeRun : Thread → Prop
  | start : SafeRun Thread.start
  | step {s s' : Thread} {a : ClockAction} (h : SafeRun s) (hsafe : s.Safe a) (hstep : s.Step a s') :
      SafeRun s'

/-- Slot `i` has the delay that its last activation came with, and `callback` came with it. -/
def Clock.Asked (c : Clock) (i : Fin maxTimers) (callback : TimerCallback) : Prop :=
  ∃ timer : Timer, c.made[(c.gTimers i).serial]? = some timer ∧ timer.id = i ∧
    (c.gTimers i).delay = UInt64.ofNat timer.madeAt + timer.ms.toUInt64 ∧
    timer.callback = callback

/-- When the handler comes to an active slot, it finds there what the call that activated it was
given, and if the delay has passed it calls that function, and writes down that it has. -/
structure Thread.ObservesRight (s : Thread) : Prop where
  asked : ∀ i : Fin maxTimers, s.clock.phase = .scanning i → (s.clock.gTimers i).active = true →
    s.clock.Asked i (s.clock.gTimers i).callback
  calls : ∀ i : Fin maxTimers, s.clock.phase = .scanning i → (s.clock.gTimers i).active = true →
    (s.clock.gTimers i).delay ≤ s.clock.gTicks →
    ∃ timer : Timer, s.clock.made[(s.clock.gTimers i).serial]? = some timer ∧
      (s.clock.scan i).phase = .callback i timer.callback ∧
      (s.clock.scan i).made[(s.clock.gTimers i).serial]? =
        some (timer.fire ⟨s.clock.ticks, timer.callback⟩)

/-- Timer `k` in slot `i` is there after the step, or it has been destroyed by its id, or its
function has been called. -/
def Thread.KeptBy (s : Thread) (a : ClockAction) (s' : Thread) (i : Fin maxTimers) (k : Nat)
    (timer : Timer) : Prop :=
  s'.clock.Holds i k ∨ a = .destroy i.val ∨
    (s'.clock.phase = .callback i timer.callback ∧
      s'.clock.made[k]? = some (timer.fire ⟨s.clock.ticks, timer.callback⟩))

/-- The store of `active` puts the timer of the call into the slot, and no step takes a timer out of
its slot without calling or destroying it. -/
structure Thread.DropsNone (s : Thread) : Prop where
  stored : ∀ call i s', s.creating = .delayed call i → s.Step .statement s' →
    s'.clock.Holds i s.clock.made.length ∧
      (s'.clock.gTimers i).delay = call.delay ∧ s'.clock.made[s.clock.made.length]? =
        some ⟨i, call.ms, call.callback, call.madeAt, [], false⟩
  kept : ∀ a s', s.Step a s' → ∀ i k timer, s.clock.Holds i k →
    s.clock.made[k]? = some timer → s.KeptBy a s' i k timer

/-! ## What the statements build on

The thread has read something of the clock at each of its statements and has not looked since. What
it has read is still true as long as nobody else has touched the slot, and that is what
`Creating.Holds` says, statement by statement. It is kept by ticks and by callbacks for one reason
only: a slot that is free is not taken by them unless they make a timer in it, and that is what a
safe step leaves out. -/

/-- The call counts from the tick it was made at. -/
def CreateCall.Timed (call : CreateCall) : Prop := call.currentMs = UInt64.ofNat call.madeAt

/-- What is known of the slot in the middle of the call. -/
def Creating.Holds (c : Clock) : Creating → Prop
  | .outside => True
  | .entered _ _ => True
  | .looking call _ => call.Timed
  | .found call i => call.Timed ∧ (c.gTimers i).active = false
  | .delayed call i =>
    call.Timed ∧ (c.gTimers i).active = false ∧ (c.gTimers i).delay = call.delay
  | .activated call i =>
    (c.phase = .idle ∨ (c.gTimers i).callback = call.callback) ∧
      ((c.gTimers i).active = true → c.Asked i call.callback)

/-- The invariant of safe runs. The slot the thread has activated and not given its callback yet is
left out of `slots`; what is true of it is in `holds`. -/
structure Thread.Sound (s : Thread) : Prop where
  time : s.clock.gTicks = UInt64.ofNat s.clock.ticks
  slots : ∀ i, (s.clock.gTimers i).active = true → (∀ call, s.creating ≠ .activated call i) →
    s.clock.Asked i (s.clock.gTimers i).callback
  holds : s.creating.Holds s.clock

/-- What was asked for stays in the records. -/
def KeepsRecords (c c' : Clock) : Prop :=
  ∀ (k : Nat) (timer : Timer), c.made[k]? = some timer → ∃ timer' : Timer, c'.made[k]? = some timer' ∧
    timer'.id = timer.id ∧ timer'.ms = timer.ms ∧ timer'.callback = timer.callback ∧
    timer'.madeAt = timer.madeAt

theorem KeepsRecords.of_eq {c c' : Clock} (h : c'.made = c.made) : KeepsRecords c c' := by
  intro k timer hk
  rw [h]
  exact ⟨timer, hk, rfl, rfl, rfl, rfl⟩

theorem KeepsRecords.of_append {c c' : Clock} {timers : List Timer}
    (h : c'.made = c.made ++ timers) : KeepsRecords c c' := by
  intro k timer hk
  rw [h, List.getElem?_append_left (List.getElem?_eq_some_iff.mp hk).1]
  exact ⟨timer, hk, rfl, rfl, rfl, rfl⟩

/-- A slot that is left alone is as it was asked for. -/
theorem Clock.Asked.keep {c c' : Clock} {i : Fin maxTimers} {callback : TimerCallback}
    (h : c.Asked i callback) (hkeep : KeepsRecords c c')
    (hslot : c'.gTimers i = c.gTimers i) : c'.Asked i callback := by
  obtain ⟨timer, hk, hid, hdelay, hcallback⟩ := h
  obtain ⟨timer', hk', hid', hms, hcallback', hmadeAt⟩ := hkeep _ _ hk
  rw [← hslot] at hk' hdelay
  refine ⟨timer', hk', hid'.trans hid, ?_, hcallback'.trans hcallback⟩
  rw [hmadeAt, hms]
  exact hdelay

/-- A slot as it was, or free. -/
def Spared (c c' : Clock) (i : Fin maxTimers) : Prop :=
  c'.gTimers i = c.gTimers i ∨ c'.gTimers i = { c.gTimers i with active := false }

theorem Spared.of_active {c c' : Clock} {i : Fin maxTimers} (h : Spared c c' i)
    (hactive : (c'.gTimers i).active = true) : c'.gTimers i = c.gTimers i := by
  rcases h with heq | heq
  · exact heq
  · rw [heq] at hactive
    cases hactive

/-- Freeing a slot leaves its other fields. -/
theorem Spared.fields {c c' : Clock} {i : Fin maxTimers} (h : Spared c c' i) :
    ((c.gTimers i).active = false → (c'.gTimers i).active = false) ∧
      (c'.gTimers i).delay = (c.gTimers i).delay ∧
      (c'.gTimers i).callback = (c.gTimers i).callback := by
  rcases h with heq | heq
  · rw [heq]
    exact ⟨id, rfl, rfl⟩
  · rw [heq]
    exact ⟨fun _ => rfl, rfl, rfl⟩

/-- The thread's own slot has been spared. -/
theorem Creating.Holds.keep {c c' : Clock} {creating : Creating} (h : creating.Holds c)
    (hkeep : KeepsRecords c c') (hslot : ∀ i, creating.slot = some i → Spared c c' i)
    (hphase : ∀ call i, creating = .activated call i →
      c'.phase = .idle ∨ (c.gTimers i).callback = call.callback) : creating.Holds c' := by
  cases creating with
  | outside => trivial
  | entered ms callback => trivial
  | looking call i => exact h
  | found call i => exact ⟨h.1, (hslot i rfl).fields.1 h.2⟩
  | delayed call i =>
    obtain ⟨hfree, hdelay, _⟩ := (hslot i rfl).fields
    exact ⟨h.1, hfree h.2.1, hdelay.trans h.2.2⟩
  | activated call i =>
    refine ⟨?_, fun hactive => ?_⟩
    · rw [(hslot i rfl).fields.2.2]
      exact hphase call i rfl
    · have heq := (hslot i rfl).of_active hactive
      exact (h.2 (heq ▸ hactive)).keep hkeep heq

section Moves

variable {s : Thread}

/-- A slot that has been spared, and not by the thread's next store. -/
theorem Thread.Sound.asked (h : s.Sound) {c : Clock} {i : Fin maxTimers}
    (hkeep : KeepsRecords s.clock c) (hslot : Spared s.clock c i)
    (hactive : (c.gTimers i).active = true) (hnot : ∀ call, s.creating ≠ .activated call i) :
    c.Asked i (c.gTimers i).callback := by
  have heq := hslot.of_active hactive
  rw [heq] at hactive ⊢
  exact (h.slots i hactive hnot).keep hkeep heq

/-- The clock moves on, and slots at most become free. -/
theorem Thread.Sound.move (h : s.Sound) {c : Clock} (htime : c.gTicks = UInt64.ofNat c.ticks)
    (hkeep : KeepsRecords s.clock c) (hslots : ∀ i, Spared s.clock c i)
    (hphase : ∀ call i, s.creating = .activated call i →
      c.phase = .idle ∨ (s.clock.gTimers i).callback = call.callback) :
    Thread.Sound { s with clock := c } :=
  ⟨htime, fun i hactive hnot => h.asked hkeep (hslots i) hactive hnot,
    h.holds.keep hkeep (fun i _ => hslots i) hphase⟩

/-- In the handler the slot holds the callback already. -/
theorem Thread.Sound.callback (h : s.Sound) (hbusy : s.clock.phase ≠ .idle) {call : CreateCall}
    {i : Fin maxTimers} (hcreating : s.creating = .activated call i) :
    (s.clock.gTimers i).callback = call.callback := by
  have hholds := h.holds
  rw [hcreating] at hholds
  exact hholds.1.resolve_left hbusy

/-- Where the thread or a callback may call something. -/
theorem Thread.Sound.calls (h : s.Sound) (hcalls : s.Calls) {call : CreateCall}
    {i : Fin maxTimers} (hcreating : s.creating = .activated call i) :
    (s.clock.gTimers i).callback = call.callback := by
  apply h.callback ?_ hcreating
  intro hidle
  have houtside := hcalls.2 hidle
  rw [hcreating] at houtside
  cases houtside

theorem keepsRecords_vacate (c : Clock) (i : Fin maxTimers) {f : Timer → Timer}
    (hf : ∀ timer, (f timer).id = timer.id ∧ (f timer).ms = timer.ms ∧
      (f timer).callback = timer.callback ∧ (f timer).madeAt = timer.madeAt) :
    KeepsRecords c (c.vacate i f) := by
  intro k timer hk
  rw [vacate_made]
  split_ifs
  · rw [hk]
    exact ⟨f timer, rfl, hf timer⟩
  · exact ⟨timer, hk, rfl, rfl, rfl, rfl⟩

theorem vacate_slots (c : Clock) (i : Fin maxTimers) (f : Timer → Timer) (j : Fin maxTimers) :
    Spared c (c.vacate i f) j := by
  by_cases hji : j = i
  · right
    rw [hji]
    exact Function.update_self ..
  · exact Or.inl (vacate_of_ne c f hji)

/-- A timer that is made at once, in a slot that the thread has no eye on. -/
theorem Thread.Sound.takeSlot (h : s.Sound) {i : Fin maxTimers} (ms : UInt32)
    (callback : TimerCallback) (hnot : ∀ j, s.creating.slot = some j → j ≠ i) :
    Thread.Sound { s with clock := takeSlot s.clock ms callback i } := by
  have hkeep : KeepsRecords s.clock (Drivers.takeSlot s.clock ms callback i) :=
    KeepsRecords.of_append rfl
  have hother {j : Fin maxTimers} (hj : j ≠ i) :
      Spared s.clock (Drivers.takeSlot s.clock ms callback i) j :=
    Or.inl (takeSlot_of_ne s.clock ms callback hj)
  refine ⟨h.time, fun j hactive hcreating => ?_,
    h.holds.keep hkeep (fun j hj => hother (hnot j hj)) fun call j hcreating => ?_⟩
  · by_cases hji : j = i
    · subst hji
      show Clock.Asked (Drivers.takeSlot s.clock ms callback j) j
        ((Drivers.takeSlot s.clock ms callback j).gTimers j).callback
      unfold Clock.Asked
      rw [takeSlot_self, h.time]
      exact ⟨_, List.getElem?_concat_length, rfl, rfl, rfl⟩
    · exact h.asked hkeep (hother hji) hactive hcreating
  · have hholds := h.holds
    rw [hcreating] at hholds
    exact hholds.1

/-- The thread goes on without a store. -/
theorem Thread.Sound.goOn (h : s.Sound) {creating : Creating} (hholds : creating.Holds s.clock)
    (hsame : ∀ call i, s.creating ≠ .activated call i) :
    Thread.Sound { s with creating := creating } :=
  ⟨h.time, fun i hactive _ => h.slots i hactive fun call => hsame call i, hholds⟩

/-- A store to the slot that the thread has found. -/
theorem Thread.Sound.store (h : s.Sound) {c : Clock} {creating : Creating} {i : Fin maxTimers}
    (htime : c.gTicks = UInt64.ofNat c.ticks) (hkeep : KeepsRecords s.clock c)
    (hother : ∀ j, j ≠ i → c.gTimers j = s.clock.gTimers j)
    (hsame : ∀ call j, s.creating = .activated call j → j = i)
    (hslot : (c.gTimers i).active = true → (∀ call, creating ≠ .activated call i) →
      c.Asked i (c.gTimers i).callback)
    (hholds : creating.Holds c) : Thread.Sound ⟨c, creating⟩ := by
  refine ⟨htime, fun j hactive hnot => ?_, hholds⟩
  by_cases hji : j = i
  · subst hji
    exact hslot hactive hnot
  · exact h.asked hkeep (Or.inl (hother j hji)) hactive fun call hcreating =>
      hji (hsame call j hcreating)

theorem Thread.Sound.step {s' : Thread} {a : ClockAction} (h : s.Sound) (hsafe : s.Safe a)
    (hstep : s.Step a s') : s'.Sound := by
  have hholds := h.holds
  cases hstep with
  | call hphase hcreating ms callback =>
    exact h.goOn trivial fun call i => by rw [hcreating]; exact nofun
  | getTime hphase hcreating =>
    exact h.goOn h.time fun call i => by rw [hcreating]; exact nofun
  | occupied hphase hcreating hactive =>
    rw [hcreating] at hholds
    exact h.goOn hholds fun call i => by rw [hcreating]; exact nofun
  | free hphase hcreating hactive =>
    rw [hcreating] at hholds
    exact h.goOn ⟨hholds, hactive⟩ fun call i => by rw [hcreating]; exact nofun
  | full hphase hcreating =>
    exact h.goOn trivial fun call i => by rw [hcreating]; exact nofun
  | @storeDelay call i hphase hcreating =>
    rw [hcreating] at hholds
    obtain ⟨htimed, hfree⟩ := hholds
    have hslot : (storeDelay s.clock call i).gTimers i =
        { s.clock.gTimers i with delay := call.delay } := Function.update_self ..
    refine h.store h.time (KeepsRecords.of_eq rfl) (fun j hj => Function.update_of_ne hj _ _)
      (fun call' j hj => ?_) (fun hactive _ => ?_) ⟨htimed, ?_, ?_⟩
    · rw [hcreating] at hj
      cases hj
    · rw [hslot, hfree] at hactive
      cases hactive
    · rw [hslot]
      exact hfree
    · rw [hslot]
  | @storeActive call i hphase hcreating =>
    rw [hcreating] at hholds
    obtain ⟨htimed, _, hdelay⟩ := hholds
    have hslot : (storeActive s.clock call i).gTimers i =
        { s.clock.gTimers i with active := true, serial := s.clock.made.length } :=
      Function.update_self ..
    refine h.store h.time (KeepsRecords.of_append rfl) (fun j hj => Function.update_of_ne hj _ _)
      (fun call' j hj => ?_) (fun _ hnot => absurd rfl (hnot call))
      ⟨Or.inl hphase, fun _ =>
        ⟨⟨i, call.ms, call.callback, call.madeAt, [], false⟩, ?_, rfl, ?_, rfl⟩⟩
    · rw [hcreating] at hj
      cases hj
    · rw [hslot]
      exact List.getElem?_concat_length
    · rw [hslot]
      dsimp only
      rw [hdelay, CreateCall.delay, htimed]
  | @storeCallback call i hphase hcreating =>
    rw [hcreating] at hholds
    have hslot : (storeCallback s.clock call i).gTimers i =
        { s.clock.gTimers i with callback := call.callback } := Function.update_self ..
    refine h.store h.time (KeepsRecords.of_eq rfl) (fun j hj => Function.update_of_ne hj _ _)
      (fun call' j hj => ?_) (fun hactive _ => ?_) trivial
    · rw [hcreating] at hj
      cases hj
      rfl
    · -- What was true of the slot but for its callback is true of the slot.
      rw [hslot] at hactive
      obtain ⟨timer, hk, hid, hdelay, hcallback⟩ := hholds.2 hactive
      unfold Clock.Asked
      rw [hslot]
      exact ⟨timer, hk, hid, hdelay, hcallback⟩
  | tick hphase =>
    have htime : s.clock.tick.gTicks = UInt64.ofNat (s.clock.ticks + 1) := by
      show s.clock.gTicks + 1 = _
      rw [h.time, UInt64.ofNat_add]
      rfl
    exact h.move htime (KeepsRecords.of_eq rfl) (fun i => Or.inl rfl) fun call i hcreating =>
      Or.inr (hsafe call i hcreating)
  | userReturns hphase =>
    exact h.move h.time (KeepsRecords.of_eq rfl) (fun i => Or.inl rfl) fun call i hcreating =>
      Or.inr (h.callback (by rw [hphase]; exact nofun) hcreating)
  | @scan i hphase =>
    have hbusy : s.clock.phase ≠ .idle := by
      rw [hphase]
      exact nofun
    unfold Clock.scan
    split_ifs
    · exact h.move h.time (keepsRecords_vacate s.clock i fun timer => ⟨rfl, rfl, rfl, rfl⟩)
        (vacate_slots s.clock i fun timer =>
          timer.fire ⟨s.clock.ticks, (s.clock.gTimers i).callback⟩)
        fun call j hcreating => Or.inr (h.callback hbusy hcreating)
    · exact h.move h.time (KeepsRecords.of_eq rfl) (fun i => Or.inl rfl) fun call j hcreating =>
        Or.inr (h.callback hbusy hcreating)
  | returns hphase =>
    exact h.move h.time (KeepsRecords.of_eq rfl) (fun i => Or.inl rfl) fun call i hcreating =>
      Or.inr (h.callback (by rw [hphase]; exact nofun) hcreating)
  | done hphase =>
    exact h.move h.time (KeepsRecords.of_eq rfl) (fun i => Or.inl rfl) fun call i _ => Or.inl rfl
  | create hphase hbusy ms callback =>
    unfold clockCreateTimer
    cases hslot : freeSlot s.clock with
    | none => exact h
    | some i =>
      exact h.takeSlot ms callback fun j hj hji => hsafe j hj (hji ▸ hslot)
  | destroy hcalls timerId =>
    unfold clockDestroyTimer
    split_ifs
    · exact h.move h.time (keepsRecords_vacate s.clock _ fun timer => ⟨rfl, rfl, rfl, rfl⟩)
        (vacate_slots s.clock _ _) fun call j hcreating => Or.inr (h.calls hcalls hcreating)
    · exact h
  | setHandler hcalls handler =>
    exact h.move h.time (KeepsRecords.of_eq rfl) (fun i => Or.inl rfl) fun call i hcreating =>
      Or.inr (h.calls hcalls hcreating)
  | init hcalls =>
    exact h.move h.time (KeepsRecords.of_eq rfl) (fun i => Or.inl rfl) fun call i hcreating =>
      Or.inr (h.calls hcalls hcreating)

end Moves

/-- The invariant over whole runs. -/
theorem Thread.SafeRun.sound {s : Thread} (h : s.SafeRun) : s.Sound := by
  induction h with
  | start => exact ⟨rfl, nofun, trivial⟩
  | step _ hsafe hstep ih => exact ih.step hsafe hstep

section Observed

variable {s : Thread}

/-- What the handler finds. Where the slot is the thread's own, no tick has come before its callback
was there. -/
theorem Thread.Sound.asked_of_scanning (h : s.Sound) {i : Fin maxTimers}
    (hphase : s.clock.phase = .scanning i) (hactive : (s.clock.gTimers i).active = true) :
    s.clock.Asked i (s.clock.gTimers i).callback := by
  by_cases hnot : ∀ call, s.creating ≠ .activated call i
  · exact h.slots i hactive hnot
  · simp only [not_forall, not_not] at hnot
    obtain ⟨call, hcreating⟩ := hnot
    rw [h.callback (by rw [hphase]; exact nofun) hcreating]
    have hholds := h.holds
    rw [hcreating] at hholds
    exact hholds.2 hactive

/-- The call of the scan, out of what it finds. -/
theorem Thread.Sound.observes (h : s.Sound) : s.ObservesRight := by
  refine ⟨fun i hphase hactive => h.asked_of_scanning hphase hactive,
    fun i hphase hactive hdue => ?_⟩
  obtain ⟨timer, hk, _, _, hcallback⟩ := h.asked_of_scanning hphase hactive
  refine ⟨timer, hk, ?_, ?_⟩
  · rw [Clock.scan, if_pos ⟨hactive, hdue⟩, hcallback]
  · rw [Clock.scan, if_pos ⟨hactive, hdue⟩, hcallback]
    show (s.clock.vacate i _).made[(s.clock.gTimers i).serial]? = _
    rw [vacate_made, if_pos ⟨hactive, rfl⟩, hk]
    rfl

theorem Clock.Holds.of_eq {c c' : Clock} {i : Fin maxTimers} {k : Nat} (h : c.Holds i k)
    (hslot : c'.gTimers i = c.gTimers i) : c'.Holds i k := by
  unfold Clock.Holds
  rw [hslot]
  exact h

/-- A store to a slot that is free takes no timer out of another one. -/
theorem Clock.Holds.of_free {c c' : Clock} {i j : Fin maxTimers} {k : Nat} (h : c.Holds i k)
    (hfree : (c.gTimers j).active = false) (hother : ∀ x, x ≠ j → c'.gTimers x = c.gTimers x) :
    c'.Holds i k := by
  refine h.of_eq (hother i ?_)
  rintro rfl
  cases h.1.symm.trans hfree

/-- By the step. Only the scan and a destroy take a timer out of a slot; the stores of the thread go
to a slot that is free, but for the last one, which leaves `active` alone. -/
theorem Thread.Sound.kept (h : s.Sound) {a : ClockAction} {s' : Thread}
    (hstep : s.Step a s') {i : Fin maxTimers} {k : Nat} {timer : Timer}
    (hheld : s.clock.Holds i k) (hk : s.clock.made[k]? = some timer) : s.KeptBy a s' i k timer := by
  have hholds := h.holds
  cases hstep with
  | storeDelay hphase hcreating =>
    rw [hcreating] at hholds
    exact Or.inl (hheld.of_free hholds.2 fun x hx => Function.update_of_ne hx _ _)
  | storeActive hphase hcreating =>
    rw [hcreating] at hholds
    exact Or.inl (hheld.of_free hholds.2.1 fun x hx => Function.update_of_ne hx _ _)
  | @storeCallback call j hphase hcreating =>
    -- The slot is active, and stays so.
    refine Or.inl ?_
    by_cases hij : i = j
    · subst hij
      have hslot : (storeCallback s.clock call i).gTimers i =
          { s.clock.gTimers i with callback := call.callback } := Function.update_self ..
      unfold Clock.Holds
      rw [hslot]
      exact hheld
    · exact hheld.of_eq (Function.update_of_ne hij _ _)
  | @scan j hphase =>
    by_cases hfires : (s.clock.gTimers j).active = true ∧
        (s.clock.gTimers j).delay ≤ s.clock.gTicks
    · by_cases hij : i = j
      · subst hij
        obtain ⟨timer', hk', hcall, hfired⟩ := h.observes.calls i hphase hfires.1 hfires.2
        rw [hheld.2] at hk' hfired
        obtain rfl := Option.some.inj (hk'.symm.trans hk)
        exact Or.inr (Or.inr ⟨hcall, hfired⟩)
      · refine Or.inl (hheld.of_eq ?_)
        rw [Clock.scan, if_pos hfires]
        exact vacate_of_ne _ (fun timer => timer.fire ⟨s.clock.ticks, (s.clock.gTimers j).callback⟩)
          hij
    · refine Or.inl (hheld.of_eq ?_)
      rw [Clock.scan, if_neg hfires]
  | create hphase hbusy ms callback =>
    refine Or.inl ?_
    unfold clockCreateTimer
    cases hslot : freeSlot s.clock with
    | none => exact hheld
    | some j =>
      exact hheld.of_free (inactive_of_freeSlot hslot) fun x hx =>
        takeSlot_of_ne s.clock ms callback hx
  | destroy hcalls timerId =>
    by_cases hown : timerId = i.val
    · exact Or.inr (Or.inl (by rw [hown]))
    · refine Or.inl (hheld.of_eq ?_)
      unfold clockDestroyTimer
      split_ifs with hin
      · refine vacate_of_ne s.clock _ fun hi => hown ?_
        rw [hi]
        exact (Int.toNat_of_nonneg hin.1).symm
      · rfl
  | call | getTime | occupied | free | full | tick | userReturns | returns | done | setHandler
  | init => exact Or.inl hheld

/-- From the store of `active` on the timer is in its slot. -/
theorem Thread.Sound.stored (h : s.Sound) {call : CreateCall} {i : Fin maxTimers} {s' : Thread}
    (hcreating : s.creating = .delayed call i) (hstep : s.Step .statement s') :
    s'.clock.Holds i s.clock.made.length ∧ (s'.clock.gTimers i).delay = call.delay ∧
      s'.clock.made[s.clock.made.length]? =
        some ⟨i, call.ms, call.callback, call.madeAt, [], false⟩ := by
  have hholds := h.holds
  rw [hcreating] at hholds
  cases hstep with
  | @storeActive call' j _ hcreating' =>
    obtain ⟨rfl, rfl⟩ := Creating.delayed.inj (hcreating.symm.trans hcreating')
    have hslot : (storeActive s.clock call i).gTimers i =
        { s.clock.gTimers i with active := true, serial := s.clock.made.length } :=
      Function.update_self ..
    refine ⟨?_, ?_, List.getElem?_concat_length⟩
    · unfold Clock.Holds
      rw [hslot]
      exact ⟨rfl, rfl⟩
    · rw [hslot]
      exact hholds.2.2
  | getTime _ hcreating' => cases hcreating.symm.trans hcreating'
  | occupied _ hcreating' => cases hcreating.symm.trans hcreating'
  | free _ hcreating' => cases hcreating.symm.trans hcreating'
  | full _ hcreating' => cases hcreating.symm.trans hcreating'
  | storeDelay _ hcreating' => cases hcreating.symm.trans hcreating'
  | storeCallback _ hcreating' => cases hcreating.symm.trans hcreating'

end Observed

/-- **No slot is seen active with another's callback, no other function is called, and no timer is
lost**, in any run whose steps are safe. -/
theorem slots_observed_right {s : Thread} (h : s.SafeRun) : s.ObservesRight ∧ s.DropsNone :=
  ⟨h.sound.observes, fun _ _ _ hcreating hstep => h.sound.stored hcreating hstep,
    fun _ _ hstep _ _ _ hheld hk => h.sound.kept hstep hheld hk⟩

/-- A timer of 5 ms; the tick comes when it is made. -/
theorem created_observed_right : ∃ s : Thread, s.clock.phase = .scanning 0 ∧
    (s.clock.gTimers 0).active = true ∧ s.ObservesRight ∧ s.DropsNone := by
  have hrun₁ := Thread.SafeRun.start.step (a := .call 5 0x1000) trivial (.call rfl rfl 5 0x1000)
  have hrun₂ := hrun₁.step (a := .statement) trivial (.getTime rfl rfl)
  have hrun₃ := hrun₂.step (a := .statement) trivial (.free (i := 0) rfl rfl rfl)
  have hrun₄ := hrun₃.step (a := .statement) trivial (.storeDelay rfl rfl)
  have hrun₅ := hrun₄.step (a := .statement) trivial (.storeActive rfl rfl)
  have hrun₆ := hrun₅.step (a := .statement) trivial (.storeCallback rfl rfl)
  have hrun₇ := hrun₆.step (a := .tick) nofun (.tick rfl)
  exact ⟨_, rfl, rfl, slots_observed_right hrun₇⟩

abbrev Thread.Steps : Thread → Thread → Prop :=
  Relation.ReflTransGen fun s s' => ∃ a, s.Step a s'

/-- A timer of 0 ms, and a tick after its slot has become active: the handler calls a null
pointer, and the slot is free again. -/
theorem null_callback_called : ∃ s s' : Thread, Thread.Steps Thread.start s ∧ ¬ s.ObservesRight ∧
    s.Step .handler s' ∧ (s'.clock.gTimers 0).active = false ∧
      s'.clock.made = [⟨0, 0, 0x1000, 0, [⟨1, 0⟩], false⟩] := by
  have hrun₁ : Thread.Steps Thread.start _ := .single ⟨_, .call rfl rfl 0 0x1000⟩
  have hrun₂ := hrun₁.tail ⟨_, .getTime rfl rfl⟩
  have hrun₃ := hrun₂.tail ⟨_, .free (i := 0) rfl rfl rfl⟩
  have hrun₄ := hrun₃.tail ⟨_, .storeDelay rfl rfl⟩
  have hrun₅ := hrun₄.tail ⟨_, .storeActive rfl rfl⟩
  have hrun₆ := hrun₅.tail ⟨_, .tick rfl⟩
  refine ⟨_, _, hrun₆, fun h => ?_, .scan (i := 0) rfl, rfl, rfl⟩
  obtain ⟨timer, hk, _, _, hcallback⟩ := h.asked 0 rfl rfl
  cases hk
  exact absurd hcallback (by decide)

/-! ## Without a tick -/

/-- The statements of the thread, and nothing else. -/
abbrev Thread.Statements : Thread → Thread → Prop :=
  Relation.ReflTransGen fun s s' => s.Step .statement s'

theorem storeCallback_storeActive_storeDelay (c : Clock) (ms : UInt32) (callback : TimerCallback)
    (i : Fin maxTimers) :
    let call : CreateCall := ⟨ms, callback, clockGetTime c, c.ticks⟩
    storeCallback (storeActive (storeDelay c call i) call i) call i = takeSlot c ms callback i := by
  simp [storeCallback, storeActive, storeDelay, takeSlot, CreateCall.delay, Function.update_idem]

/-- The slot the loop stops at. -/
theorem freeSlot_eq_some {c : Clock} {i : Fin maxTimers} (hfree : (c.gTimers i).active = false)
    (hbefore : ∀ j < i, (c.gTimers j).active = true) : freeSlot c = some i := by
  cases hslot : freeSlot c with
  | none =>
    rw [freeSlot_eq_none.mp hslot i] at hfree
    cases hfree
  | some k =>
    obtain ⟨_, n, hn, hget, hskipped⟩ := List.find?_eq_some_iff_getElem.mp hslot
    rw [List.getElem_finRange] at hget
    subst hget
    rcases Nat.lt_trichotomy i.val n with hlt | heq | hgt
    · have hskip := hskipped i hlt
      rw [List.getElem_finRange, Bool.not_not] at hskip
      exact absurd (hskip.symm.trans hfree) Bool.true_eq_false.mp
    · exact congrArg some (Fin.ext heq.symm)
    · have hactive := hbefore ⟨n, hgt.trans i.isLt⟩ hgt
      exact absurd (hactive.symm.trans (inactive_of_freeSlot hslot)) Bool.true_eq_false.mp

/-- The loop from slot `i` on, when the earlier ones are taken. -/
theorem Thread.looking {s : Thread} (hphase : s.clock.phase = .idle) (ms : UInt32)
    (callback : TimerCallback) : ∀ n i, i + n = maxTimers →
    (∀ j : Fin maxTimers, j.val < i → (s.clock.gTimers j).active = true) →
    Thread.Statements
      { s with creating := .looking ⟨ms, callback, clockGetTime s.clock, s.clock.ticks⟩ i }
      ⟨(clockCreateTimer s.clock ms callback).1, .outside⟩ := by
  intro n
  induction n with
  | zero =>
    intro i hi hbefore
    obtain rfl : i = maxTimers := hi
    rw [clockCreateTimer, freeSlot_eq_none.mpr fun j => hbefore j j.isLt]
    exact .single (.full hphase rfl)
  | succ n ih =>
    intro i hi hbefore
    have hlt : i < maxTimers := by omega
    cases hactive : (s.clock.gTimers ⟨i, hlt⟩).active with
    | true =>
      have hnext := ih (i + 1) (by omega) fun j hj => by
        rcases Nat.lt_succ_iff_lt_or_eq.mp hj with hj | hj
        · exact hbefore j hj
        · rw [show j = ⟨i, hlt⟩ from Fin.ext hj]
          exact hactive
      exact .head (.occupied (i := ⟨i, hlt⟩) hphase rfl hactive) hnext
    | false =>
      rw [clockCreateTimer, freeSlot_eq_some hactive fun j hj => hbefore j hj]
      dsimp only
      rw [← storeCallback_storeActive_storeDelay]
      exact .head (.free (i := ⟨i, hlt⟩) hphase rfl hactive) (.head (.storeDelay hphase rfl)
        (.head (.storeActive hphase rfl) (.single (.storeCallback hphase rfl))))

/-- **Uninterrupted, the statements are the call.** -/
theorem statements_create {s : Thread} (hphase : s.clock.phase = .idle)
    (houtside : s.creating = .outside) (ms : UInt32) (callback : TimerCallback) :
    ∃ s₁, s.Step (.call ms callback) s₁ ∧
      s₁.Statements ⟨(clockCreateTimer s.clock ms callback).1, .outside⟩ :=
  ⟨_, .call hphase houtside ms callback, .head (.getTime hphase rfl)
    (Thread.looking hphase ms callback maxTimers 0 (Nat.zero_add _) fun _ hj =>
      absurd hj (Nat.not_lt_zero _))⟩

end ScratchOs.Drivers
