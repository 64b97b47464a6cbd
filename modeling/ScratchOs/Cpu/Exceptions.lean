import ScratchOs.Cpu.Interrupts

/-!
# Exceptions

`isr_handler` and what `init_exceptions` registers: all of it prints and then loops for ever, so
what the exception came into never goes on. `exception_handler` prints to the text screen, with
interrupts off for good. `isr14_handler` prints with `printk`, that is with `console_put_char`,
which switches them on again.

An exception is a frame that no `iret` takes away. That is how "never goes on" is stated: what is
below such a frame is the same list of frames for ever, whatever happens above it
(`State.Buries`). It has to be said with other exceptions allowed on top, since a handler that
prints may fault as well.

The keyboard's line is followed too, because it is the one thing a later interrupt could still take
from the code that has stopped. `kernel_main` is below the frame, so nobody reads the line; keys may
come, after a page fault, and a line that has been entered is not theirs to change.
-/

set_option autoImplicit false

namespace ScratchOs.Cpu

open Drivers (Keyboard)

inductive Isr
  | isr0
  | isr13
  | isr14

/-- `void init_exceptions()`, as the `interrupt_handlers` it leaves. -/
def initExceptions (intNo : Nat) : Option Isr :=
  if intNo = 0 then some .isr0
  else if intNo = 13 then some .isr13
  else if intNo = 14 then some .isr14
  else none

namespace Code

/-- `void exception_handler(registers_t regs, const char* msg)`, up to its loop. -/
def exceptionHandler : List Instr := List.replicate 8 .step

/-- `isr0_handler`, `isr13_handler` and `isr14_handler`, up to their loops. -/
def isr : Isr → List Instr
  | .isr0 => exceptionHandler
  | .isr13 => exceptionHandler
  | .isr14 => [.printk]

/-- `void isr_handler(registers_t regs)`: without a handler, two calls of `print_string`. -/
def isrHandler (handlers : Nat → Option Isr) (intNo : Nat) : List Instr :=
  match handlers intNo with
  | some handler => isr handler
  | none => [.step, .step]

end Code

/-- Exception `intNo`, after `init_exceptions` or before. The frame is none that an `iret` takes
away, and where its code ends it loops. -/
def State.raise (s : State) (registered : Bool) (intNo : Nat) : State :=
  { s with
    flag := false
    frames := ⟨Code.isrHandler (if registered then initExceptions else fun _ => none) intNo,
      none, 0⟩ :: s.frames }

/-- Exceptions come from any instruction, but not from an endless loop. -/
inductive State.FaultStep : State → State → Prop
  | step {s s' : State} (h : s.Step s') : FaultStep s s'
  | raise {s : State} {f : Frame} {rest : List Frame} (hframes : s.frames = f :: rest)
      (hcode : f.code ≠ [] ∨ f.irq.isSome = true) (registered : Bool) (intNo : Nat) :
      FaultStep s (s.raise registered intNo)

abbrev State.FaultSteps : State → State → Prop := Relation.ReflTransGen State.FaultStep

/-! ## What they leave alone -/

/-- Takes no line, and clears none. -/
def Instr.Quiet : Instr → Prop
  | .getInputBuffer => False
  | .resetKeyboard => False
  | .loop => False
  | _ => True

theorem quiet_putChars {n : Nat} : ∀ i ∈ List.replicate n Instr.putChar, i.Quiet := by
  intro i hi
  rw [List.eq_of_mem_replicate hi]
  trivial

theorem quiet_append {pre post : List Instr} (hpre : ∀ i ∈ pre, i.Quiet)
    (hpost : ∀ i ∈ post, i.Quiet) : ∀ i ∈ pre ++ post, i.Quiet :=
  fun i hi => (List.mem_append.mp hi).elim (hpre i) (hpost i)

theorem quiet_eois (irq : Nat) : ∀ i ∈ (Code.sendEoi irq).map Instr.eoi, i.Quiet := by
  intro i hi
  obtain ⟨chip, _, rfl⟩ := List.mem_map.mp hi
  trivial

theorem quiet_consolePutChar (pixels : List Nat) : ∀ i ∈ Code.consolePutChar pixels, i.Quiet := by
  have hpixels : ∀ i ∈ pixels.flatMap Code.vbePutPixel, i.Quiet := by
    intro i hi
    obtain ⟨message, _, hi⟩ := List.mem_flatMap.mp hi
    exact List.forall_mem_cons.mpr ⟨trivial, quiet_putChars⟩ i hi
  exact quiet_append (List.forall_mem_cons.mpr ⟨trivial, hpixels⟩)
    (List.forall_mem_singleton.mpr trivial)

theorem quiet_pressKey (k : Keyboard) (scancode : UInt8) :
    ∀ i ∈ (Code.pressKey k scancode).2, i.Quiet := by
  unfold Code.pressKey
  cases Drivers.keyOf scancode with
  | nothing => simp
  | enter => simp [Instr.Quiet]
  | erase =>
    simp only
    split_ifs <;> simp [Instr.Quiet]
  | char c =>
    simp only
    split_ifs <;> simp [Instr.Quiet]

theorem Handler.Code.quiet {handler : Option Handler} {code : List Instr}
    (h : Handler.Code handler code) : ∀ i ∈ code, i.Quiet := by
  cases h with
  | none => simp
  | genericTimer callbacks h =>
    have hcallbacks : ∀ i ∈ callbacks, i.Quiet := by
      intro i hi
      rcases h i hi with rfl | rfl
      · trivial
      · trivial
    exact quiet_append (List.forall_mem_cons.mpr ⟨trivial, hcallbacks⟩) (quiet_eois 0)
  | ataPrimary => exact quiet_append (by simp [Instr.Quiet]) (quiet_eois 46)
  | ataSecondary => exact quiet_append (by simp [Instr.Quiet]) (quiet_eois 47)

/-- One case for each call. -/
theorem Instr.Calls.quiet {s : State} {i : Instr} {calls : List Instr} (h : i.Calls s calls)
    (hi : i.Quiet) : ∀ j ∈ calls, j.Quiet := by
  cases h with
  | plain => simp
  | putChar pixels => exact quiet_consolePutChar pixels
  | printk n => exact quiet_putChars
  | log n => exact quiet_putChars
  | callHandler irq h scancode =>
    refine quiet_append h.quiet ?_
    split
    · exact quiet_append (by simp [Instr.Quiet]) (quiet_eois 1)
    · simp
  | key scancode => exact quiet_pressKey s.keyboard scancode
  | loop => exact hi.elim

theorem quiet_irqHandler (irq : Fin 16) : ∀ i ∈ Code.irqHandler irq, i.Quiet :=
  quiet_append (quiet_eois irq) (by simp [Instr.Quiet])

theorem quiet_isrHandler (handlers : Nat → Option Isr) (intNo : Nat) :
    ∀ i ∈ Code.isrHandler handlers intNo, i.Quiet := by
  have hreport : ∀ i ∈ Code.exceptionHandler, i.Quiet := by
    intro i hi
    rw [List.eq_of_mem_replicate hi]
    trivial
  unfold Code.isrHandler
  cases handlers intNo with
  | none => simp [Instr.Quiet]
  | some handler =>
    cases handler with
    | isr0 => exact hreport
    | isr13 => exact hreport
    | isr14 => exact List.forall_mem_singleton.mpr trivial

/-- Once entered, a line stays as it was typed. -/
def KeepsLine (k k' : Keyboard) : Prop :=
  k.lineReady = true → k'.lineReady = true ∧ k'.keyBuffer = k.keyBuffer

theorem pressKey_keepsLine (k : Keyboard) (scancode : UInt8) :
    KeepsLine k (Code.pressKey k scancode).1 := by
  intro hready
  unfold Code.pressKey
  cases Drivers.keyOf scancode with
  | nothing => exact ⟨hready, rfl⟩
  | enter => exact ⟨hready, rfl⟩
  | erase =>
    simp only
    split
    · exact ⟨hready, rfl⟩
    · exact ⟨hready, rfl⟩
  | char c =>
    simp only
    rw [if_neg fun h => by simp [hready] at h]
    exact ⟨hready, rfl⟩

theorem Instr.Quiet.keepsLine {i : Instr} (hi : i.Quiet) (s : State) :
    KeepsLine s.keyboard (i.effect s).keyboard := by
  cases i with
  | key scancode => exact pressKey_keepsLine s.keyboard scancode
  | lineReady => exact fun _ => ⟨rfl, rfl⟩
  | getInputBuffer => exact hi.elim
  | resetKeyboard => exact hi.elim
  | _ => exact fun hready => ⟨hready, rfl⟩

/-! ## What was interrupted stays where it was -/

/-- The invariant: `below` is under a frame that nothing takes away, and what is above it is
quiet. -/
structure State.Buries (below : List Frame) (k : Keyboard) (s : State) : Prop where
  frames : ∃ above e, s.frames = above ++ e :: below ∧ e.irq = none ∧
    ∀ f ∈ above ++ [e], ∀ i ∈ f.code, i.Quiet
  line : KeepsLine k s.keyboard

section Buries

variable {s s' : State} {below : List Frame} {k : Keyboard}

theorem KeepsLine.trans {k k' k'' : Keyboard} (h : KeepsLine k k') (h' : KeepsLine k' k'') :
    KeepsLine k k'' := by
  intro hready
  obtain ⟨hready', hbuffer⟩ := h hready
  obtain ⟨hready'', hbuffer'⟩ := h' hready'
  exact ⟨hready'', hbuffer'.trans hbuffer⟩

theorem State.Buries.push {f : Frame} (h : s.Buries below k) (hf : ∀ i ∈ f.code, i.Quiet)
    (hframes : s'.frames = f :: s.frames) (hkeyboard : s'.keyboard = s.keyboard) :
    s'.Buries below k := by
  obtain ⟨above, e, hs, he, hquiet⟩ := h.frames
  refine ⟨⟨f :: above, e, ?_, he, List.forall_mem_cons.mpr ⟨hf, hquiet⟩⟩, ?_⟩
  · rw [hframes, hs]
    rfl
  · rw [hkeyboard]
    exact h.line

/-- What runs is above the frame, or the frame itself. -/
theorem State.Buries.exec {i : Instr} {calls code : List Instr} {irq : Option Nat} {sections : Nat}
    {rest : List Frame} (h : s.Buries below k)
    (hframes : s.frames = ⟨i :: code, irq, sections⟩ :: rest) (hcalls : i.Calls s calls) :
    State.Buries below k
      { i.effect s with frames := ⟨calls ++ code, irq, i.sections sections⟩ :: rest } := by
  obtain ⟨above, e, hs, he, hquiet⟩ := h.frames
  rw [hframes] at hs
  cases above with
  | nil =>
    obtain ⟨rfl, rfl⟩ := List.cons.inj hs
    obtain ⟨hi, hcode⟩ := List.forall_mem_cons.mp (hquiet _ List.mem_cons_self)
    refine ⟨⟨[], _, rfl, he, List.forall_mem_singleton.mpr ?_⟩, h.line.trans (hi.keepsLine s)⟩
    exact quiet_append (hcalls.quiet hi) hcode
  | cons f above =>
    obtain ⟨rfl, rfl⟩ := List.cons.inj hs
    obtain ⟨hf, hrest⟩ := List.forall_mem_cons.mp hquiet
    obtain ⟨hi, hcode⟩ := List.forall_mem_cons.mp hf
    refine ⟨⟨_ :: above, e, rfl, he, List.forall_mem_cons.mpr ⟨?_, hrest⟩⟩,
      h.line.trans (hi.keepsLine s)⟩
    exact quiet_append (hcalls.quiet hi) hcode

/-- The step lemma. -/
theorem State.Buries.step (h : s.Buries below k) (hstep : s.FaultStep s') :
    s'.Buries below k := by
  cases hstep with
  | raise _ _ registered intNo => exact h.push (quiet_isrHandler _ intNo) rfl rfl
  | step hstep =>
    cases hstep with
    | exec hframes hcalls => exact h.exec hframes hcalls
    | accept irq spurious _ _ => exact h.push (quiet_irqHandler irq) rfl rfl
    | iret hframes =>
      obtain ⟨above, e, hs, he, hquiet⟩ := h.frames
      rw [hframes] at hs
      cases above with
      | nil =>
        obtain ⟨rfl, _⟩ := List.cons.inj hs
        exact absurd he (Option.some_ne_none _)
      | cons f above =>
        obtain ⟨_, rfl⟩ := List.cons.inj hs
        exact ⟨⟨above, e, rfl, he, (List.forall_mem_cons.mp hquiet).2⟩, h.line⟩

end Buries

/-- The run lemma. -/
theorem State.FaultSteps.buries {s s' : State} {below : List Frame} {k : Keyboard}
    (hsteps : s.FaultSteps s') (h : s.Buries below k) : s'.Buries below k := by
  induction hsteps with
  | refl => exact h
  | tail _ hstep ih => exact ih.step hstep

theorem State.raise_buries (s : State) (registered : Bool) (intNo : Nat) :
    (s.raise registered intNo).Buries s.frames s.keyboard :=
  ⟨⟨[], _, rfl, rfl, List.forall_mem_singleton.mpr (quiet_isrHandler _ intNo)⟩,
    fun hready => ⟨hready, rfl⟩⟩

/-! ## Silence -/

/-- Interrupts are off, and what is left to do is to print to the text screen. -/
structure State.Silent (s₀ s : State) : Prop where
  flag : s.flag = false
  accepted : s.accepted = s₀.accepted
  keyboard : s.keyboard = s₀.keyboard
  frames : ∃ n, s.frames = ⟨List.replicate n .step, none, 0⟩ :: s₀.frames

theorem State.Silent.step {s₀ s s' : State} (h : s₀.Silent s) (hstep : s.Step s') :
    s₀.Silent s' := by
  obtain ⟨n, hs⟩ := h.frames
  cases hstep with
  | @exec i calls code irq sections rest hframes hcalls =>
    rw [hs] at hframes
    obtain ⟨hframe, rfl⟩ := List.cons.inj hframes
    cases n with
    | zero => exact absurd (congrArg Frame.code hframe) (List.cons_ne_nil _ _).symm
    | succ n =>
      obtain ⟨rfl, rfl⟩ := List.cons.inj (congrArg Frame.code hframe)
      obtain rfl : none = irq := congrArg Frame.irq hframe
      obtain rfl : 0 = sections := congrArg Frame.sections hframe
      cases hcalls with
      | plain => exact ⟨h.flag, h.accepted, h.keyboard, n, rfl⟩
  | accept irq spurious hflag _ => exact absurd (h.flag.symm.trans hflag) Bool.false_ne_true
  | iret hframes =>
    rw [hs] at hframes
    exact absurd (congrArg Frame.irq (List.cons.inj hframes).1) (Option.some_ne_none _).symm

theorem State.Silent.steps {s₀ s s' : State} (h : s₀.Silent s) (hsteps : s.Steps s') :
    s₀.Silent s' := by
  induction hsteps with
  | refl => exact h
  | tail _ hstep ih => exact ih.step hstep

theorem State.raise_silent (s : State) {registered : Bool} {intNo : Nat}
    (h : ¬ (registered = true ∧ intNo = 14)) : s.Silent (s.raise registered intNo) := by
  refine ⟨rfl, rfl, rfl, ?_⟩
  unfold State.raise Code.isrHandler
  cases registered with
  | false => exact ⟨2, rfl⟩
  | true =>
    have hne : intNo ≠ 14 := fun heq => h ⟨rfl, heq⟩
    simp only [if_true, initExceptions]
    split_ifs
    · exact ⟨8, rfl⟩
    · exact ⟨8, rfl⟩
    · exact ⟨2, rfl⟩

/-- The first character `printk` prints. -/
theorem State.pageFault_enables (s : State) :
    ∃ s', (s.raise true 14).Steps s' ∧ s'.flag = true := by
  have hprintk : (s.raise true 14).Step _ := .exec rfl (.printk 1)
  have hputChar := Relation.ReflTransGen.tail (.single hprintk) (.exec rfl (.putChar []))
  have hcli := hputChar.tail (.exec rfl (.plain rfl))
  exact ⟨_, hcli.tail (.exec rfl (.plain rfl)), rfl⟩

/-- **Exceptions are final**: whatever follows, more exceptions included, what was running never
goes on, and a line that was entered is never taken. All is silent from there on, unless it is a
page fault after `init_exceptions`: that one switches interrupts on. -/
theorem exceptions_final (s : State) (registered : Bool) (intNo : Nat) :
    (∀ s', (s.raise registered intNo).FaultSteps s' →
      (∃ above e, s'.frames = above ++ e :: s.frames ∧ e.irq = none) ∧
      (s.keyboard.lineReady = true →
        s'.keyboard.lineReady = true ∧ s'.keyboard.keyBuffer = s.keyboard.keyBuffer)) ∧
    ((∀ s', (s.raise registered intNo).Steps s' →
      s'.flag = false ∧ s'.accepted = s.accepted ∧ s'.keyboard = s.keyboard) ↔
        ¬ (registered = true ∧ intNo = 14)) := by
  refine ⟨fun s' hsteps => ?_, ?_, fun h s' hsteps => ?_⟩
  · have hburies := hsteps.buries (s.raise_buries registered intNo)
    obtain ⟨above, e, hs, he, _⟩ := hburies.frames
    exact ⟨⟨above, e, hs, he⟩, hburies.line⟩
  · rintro hsilent ⟨rfl, rfl⟩
    obtain ⟨s', hsteps, hflag⟩ := s.pageFault_enables
    exact Bool.false_ne_true ((hsilent s' hsteps).1.symm.trans hflag)
  · have hsilent := (s.raise_silent h).steps hsteps
    exact ⟨hsilent.flag, hsilent.accepted, hsilent.keyboard⟩

end ScratchOs.Cpu
