import ScratchOs.Cpu.Interrupts

/-!
# The console before `console_init`

The keyboard is at work from `init_keyboard` on, or from `set_idt` on where the firmware has left
its line unmasked, and `vbe.cpp` has no buffer before `console_init`. What is pressed in between
decides.

Nothing in the code makes a key wait; the condition is on the environment. It is as weak as that can
be: releasing a key, a modifier, and a backspace on an empty line print nothing, and may come at any
time. The disks and the clock come into it because their handlers print as well, and for those it is
the order of boot that keeps them away: they are registered after `console_init`.
-/

set_option autoImplicit false

namespace ScratchOs.Cpu

/-- `console_put_char` and `vbe_put_pixel` find what `vbe_init` sets. -/
def State.ConsoleExists (s : State) : Prop :=
  ∀ i code irq sections rest, s.frames = ⟨i :: code, irq, sections⟩ :: rest →
    i = .putChar ∨ i = .putPixel → s.vbeReady = true

/-- Enter and the keys that stand for a character wait for `vbe_init`. -/
def State.KeysWait (s : State) : Prop :=
  ∀ scancode code irq sections rest, s.frames = ⟨.key scancode :: code, irq, sections⟩ :: rest →
    (Drivers.keyOf scancode = .enter ∨ ∃ c, Drivers.keyOf scancode = .char c) →
      s.vbeReady = true

/-! ## What runs before `vbe_init` is through -/

def Instr.Early : Instr → Prop
  | .step => True
  | .sti => True
  | .eoi _ => True
  | .unmask _ => True
  | .resetKeyboard => True
  | .callHandler _ => True
  | .key _ => True
  | _ => False

/-- Nothing of the console, up to the end or up to `vbe_init`. -/
def EarlyCode : List Instr → Prop
  | [] => True
  | i :: code => i = .vbeReady ∨ i.Early ∧ EarlyCode code

theorem earlyCode_append {pre code : List Instr} (hpre : ∀ i ∈ pre, i.Early)
    (hcode : EarlyCode code) : EarlyCode (pre ++ code) := by
  induction pre with
  | nil => exact hcode
  | cons i pre ih =>
    obtain ⟨hi, hpre⟩ := List.forall_mem_cons.mp hpre
    exact Or.inr ⟨hi, ih hpre⟩

theorem early_sendEoi (irq : Nat) : ∀ i ∈ (Code.sendEoi irq).map Instr.eoi, i.Early := by
  intro i hi
  obtain ⟨chip, _, rfl⟩ := List.mem_map.mp hi
  trivial

theorem earlyCode_kernelMain (drives : Fin 4 → Code.Probe) :
    EarlyCode (Code.kernelMain drives) := by
  simp [Code.kernelMain, Code.beforeConsole, Code.setIdt, Code.initKeyboard, Code.consoleInit,
    EarlyCode, Instr.Early]

/-- The handlers of the clock and of the disks are registered later, and there is nothing in the
line to erase. -/
structure State.Early (s : State) : Prop where
  handlers : ∀ irq, s.handlers irq = none
  bufferPos : s.keyboard.bufferPos = 0
  frames : ∀ f ∈ s.frames, EarlyCode f.code

/-- A key that does not wait is not echoed. -/
theorem pressKey_early {k : Drivers.Keyboard} {scancode : UInt8} (hpos : k.bufferPos = 0)
    (hkey : ¬ (Drivers.keyOf scancode = .enter ∨ ∃ c, Drivers.keyOf scancode = .char c)) :
    Code.pressKey k scancode = (k, []) := by
  unfold Code.pressKey
  cases h : Drivers.keyOf scancode with
  | nothing => rfl
  | enter => exact absurd (Or.inl h) hkey
  | erase =>
    simp only
    rw [hpos, if_neg (lt_irrefl 0)]
  | char c => exact absurd (Or.inr ⟨c, h⟩) hkey

theorem Instr.Calls.early {s : State} {i : Instr} {calls : List Instr} (h : i.Calls s calls)
    (hi : i.Early) (hs : s.Early)
    (hkey : ∀ scancode, i = .key scancode →
      ¬ (Drivers.keyOf scancode = .enter ∨ ∃ c, Drivers.keyOf scancode = .char c)) :
    ∀ j ∈ calls, j.Early := by
  cases h with
  | plain => exact fun _ hj => nomatch hj
  | putChar => exact hi.elim
  | printk => exact hi.elim
  | log => exact hi.elim
  | loop => exact hi.elim
  | key scancode =>
    rw [pressKey_early hs.bufferPos (hkey scancode rfl)]
    exact fun _ hj => nomatch hj
  | callHandler irq h scancode =>
    rw [hs.handlers irq] at h
    cases h
    split_ifs
    · simp [Code.keyboardHandler, Code.sendEoi, Instr.Early]
    · simp

theorem Instr.effect_early {s : State} {i : Instr} (hi : i.Early) (hs : s.Early)
    (hkey : ∀ scancode, i = .key scancode →
      ¬ (Drivers.keyOf scancode = .enter ∨ ∃ c, Drivers.keyOf scancode = .char c)) :
    (i.effect s).handlers = s.handlers ∧ (i.effect s).keyboard.bufferPos = 0 := by
  cases i with
  | resetKeyboard => exact ⟨rfl, rfl⟩
  | key scancode =>
    refine ⟨rfl, ?_⟩
    show (Code.pressKey s.keyboard scancode).1.bufferPos = 0
    rw [pressKey_early hs.bufferPos (hkey scancode rfl)]
    exact hs.bufferPos
  | step | sti | eoi | unmask | callHandler => exact ⟨rfl, hs.bufferPos⟩
  | _ => exact hi.elim

theorem State.Early.step {s s' : State} (h : s.Early) (hno : s.vbeReady = false)
    (hkeys : s.KeysWait) (hstep : s.Step s') : s'.vbeReady = true ∨ s'.Early := by
  cases hstep with
  | @exec i calls code irq sections rest hframes hcalls =>
    have htop := h.frames _ (by rw [hframes]; exact List.mem_cons_self ..)
    rcases htop with rfl | ⟨hi, hcode⟩
    · exact Or.inl rfl
    have hkey : ∀ scancode, i = .key scancode →
        ¬ (Drivers.keyOf scancode = .enter ∨ ∃ c, Drivers.keyOf scancode = .char c) := by
      rintro scancode rfl hecho
      cases hno.symm.trans (hkeys _ _ _ _ _ hframes hecho)
    obtain ⟨hhandlers, hpos⟩ := i.effect_early hi h hkey
    refine Or.inr ⟨fun line => (congrFun hhandlers line).trans (h.handlers line), hpos, ?_⟩
    refine List.forall_mem_cons.mpr ⟨earlyCode_append (hcalls.early hi h hkey) hcode, fun f hf => ?_⟩
    exact h.frames f (by rw [hframes]; exact List.mem_cons_of_mem _ hf)
  | accept irq spurious =>
    refine Or.inr ⟨h.handlers, h.bufferPos, List.forall_mem_cons.mpr ⟨?_, h.frames⟩⟩
    exact earlyCode_append (early_sendEoi irq) (Or.inr ⟨trivial, trivial⟩)
  | iret hframes =>
    refine Or.inr ⟨h.handlers, h.bufferPos, fun f hf => h.frames f ?_⟩
    rw [hframes]
    exact List.mem_cons_of_mem _ hf

/-- A screen that is ready stays so. -/
theorem State.Step.vbeReady {s s' : State} (hstep : s.Step s') (h : s.vbeReady = true) :
    s'.vbeReady = true := by
  cases hstep with
  | @exec i => cases i <;> first | exact h | rfl
  | accept => exact h
  | iret => exact h

/-- **No interrupt uses the console before it exists**, along every run in which Enter and the
keys that stand for a character wait. -/
theorem console_exists {drives : Fin 4 → Code.Probe} {mask : Fin 16 → Bool} {s : State}
    (h : Relation.ReflTransGen (fun s s' => s.KeysWait ∧ s.Step s') (.boot drives mask) s) :
    s.ConsoleExists := by
  have hearly : s.vbeReady = true ∨ s.Early := by
    induction h with
    | refl =>
      refine Or.inr ⟨fun _ => rfl, rfl, fun f hf => ?_⟩
      rw [List.mem_singleton.mp hf]
      exact earlyCode_kernelMain drives
    | @tail s s' _ hstep ih =>
      cases hready : s.vbeReady with
      | true => exact Or.inl (hstep.2.vbeReady hready)
      | false =>
        have hs := ih.resolve_left fun hyes => nomatch hready.symm.trans hyes
        exact hs.step hready hstep.1 hstep.2
  intro i code irq sections rest hframes hi
  refine hearly.resolve_right fun hs => ?_
  have htop := hs.frames _ (by rw [hframes]; exact List.mem_cons_self ..)
  rcases hi with rfl | rfl
  · exact htop.elim (fun heq => nomatch heq) fun hearly => hearly.1
  · exact htop.elim (fun heq => nomatch heq) fun hearly => hearly.1

theorem keysWait_of_ne {s : State} {i : Instr} {code : List Instr} {irq : Option Nat}
    {sections : Nat} {rest : List Frame} (hs : s.frames = ⟨i :: code, irq, sections⟩ :: rest)
    (hi : ∀ scancode, i ≠ .key scancode) : s.KeysWait := by
  intro scancode _ _ _ _ hframes _
  rw [hs] at hframes
  cases hframes
  exact absurd rfl (hi scancode)

/-- Releasing a key, right after `set_idt`. -/
theorem console_exists_release : ∃ s : State,
    (∃ code rest, s.frames = ⟨.key 0x9E :: code, some 0, 0⟩ :: rest) ∧ s.ConsoleExists := by
  have hstart : Relation.ReflTransGen (fun s s' : State => s.KeysWait ∧ s.Step s')
      (.boot (fun _ => .silent) fun _ => false) _ :=
    (((Relation.ReflTransGen.single
      ⟨keysWait_of_ne rfl (by rintro _ ⟨⟩), .exec rfl (.plain rfl)⟩).tail
      ⟨keysWait_of_ne rfl (by rintro _ ⟨⟩), .exec rfl (.plain rfl)⟩).tail
      ⟨keysWait_of_ne rfl (by rintro _ ⟨⟩), .exec rfl (.plain rfl)⟩).tail
      ⟨keysWait_of_ne rfl (by rintro _ ⟨⟩), .exec rfl (.plain rfl)⟩
  exact ⟨_, ⟨_, _, rfl⟩, console_exists (((hstart.tail
    ⟨keysWait_of_ne rfl (by rintro _ ⟨⟩), .accept 1 false rfl ⟨rfl, fun _ => rfl⟩⟩).tail
    ⟨keysWait_of_ne rfl (by rintro _ ⟨⟩), .exec rfl (.plain rfl)⟩).tail
    ⟨keysWait_of_ne rfl (by rintro _ ⟨⟩), .exec rfl (.callHandler 1 .none 0x9E)⟩)⟩

/-- A key pressed during boot, right after `init_keyboard`. -/
theorem early_key_echoed : ∃ s : State,
    s.Reachable (fun _ => .silent) (fun _ => true) ∧ ¬ s.ConsoleExists := by
  have hstart : State.Reachable (fun _ => .silent) (fun _ => true) _ :=
    (((((((Relation.ReflTransGen.single (.exec rfl (.plain rfl))).tail
      (.exec rfl (.plain rfl))).tail (.exec rfl (.plain rfl))).tail
      (.exec rfl (.plain rfl))).tail (.exec rfl (.plain rfl))).tail
      (.exec rfl (.plain rfl))).tail (.exec rfl (.plain rfl))).tail (.exec rfl (.plain rfl))
  have hkey := (((hstart.tail (.accept 1 false rfl ⟨rfl, fun h => absurd h (by decide)⟩)).tail
    (.exec rfl (.plain rfl))).tail (.exec rfl (.callHandler 1 .none 0x1E))).tail
    (.exec rfl (.key 0x1E))
  refine ⟨_, hkey, fun hexists => ?_⟩
  cases hexists .putChar _ _ _ _ rfl (Or.inl rfl)

end ScratchOs.Cpu
