import ScratchOs.Cpu.EndOfInterrupt

/-!
# Interrupts inside interrupts

`console_put_char` ends with `arch_enable_interrupts`, also when it is `keyboard_handler` that
echoes a key. By then the interrupt has been acknowledged, so the next key comes into the handler
of the first, and nothing says how often: the frames grow without bound, on a stack of 16 KiB.

The stack of the model has no end, so this module cannot say that the kernel crashes. It says that
nothing in the code bounds the depth, which is the half that can be read off the code. The steps are
those of the machine and each is possible where it is taken; how fast somebody would have to type is
not a question about the code.
-/

set_option autoImplicit false

namespace ScratchOs.Cpu

/-- How many handlers have been called and have not come back. -/
def State.depth (s : State) : Nat := s.frames.countP fun f => f.irq.isSome

/-- The console is up, no interrupt is in service, and the keyboard can interrupt. -/
structure State.Open (s : State) : Prop where
  console : s.vbeReady = true
  flag : s.flag = true
  keyboard : s.pic.mask 1 = false
  clear : s.pic.Clear
  unregistered : s.handlers 1 = none

theorem Instr.effect_frames (i : Instr) (s : State) (frames : List Frame) :
    i.effect { s with frames := frames } = { i.effect s with frames := frames } := by
  cases i <;> rfl

/-- What code does that calls nothing, whatever is on the stack. -/
def effects (pre : List Instr) (s : State) : State := pre.foldl (fun s i => i.effect s) s

theorem effects_frames (pre : List Instr) (s : State) (frames : List Frame) :
    effects pre { s with frames := frames } = { effects pre s with frames := frames } := by
  induction pre generalizing s with
  | nil => rfl
  | cons i pre ih =>
    show effects pre (i.effect { s with frames := frames }) = _
    rw [Instr.effect_frames, ih]
    rfl

theorem State.steps_effects {pre : List Instr} (code : List Instr)
    (hplain : ∀ i ∈ pre, i.plain = true) {s : State} {irq : Option Nat} {sections : Nat}
    {rest : List Frame} (hframes : s.frames = ⟨pre ++ code, irq, sections⟩ :: rest) :
    s.Steps { effects pre s with
      frames := ⟨code, irq, pre.foldl (fun n i => i.sections n) sections⟩ :: rest } := by
  induction pre generalizing s sections with
  | nil =>
    have hs : { s with frames := ⟨code, irq, sections⟩ :: rest } = s := by
      cases s
      exact congrArg _ hframes.symm
    exact hs ▸ .refl
  | cons i pre ih =>
    obtain ⟨hi, hpre⟩ := List.forall_mem_cons.mp hplain
    have hsteps := ih hpre
      (s := { i.effect s with frames := ⟨pre ++ code, irq, i.sections sections⟩ :: rest }) rfl
    rw [effects_frames] at hsteps
    exact .head (.exec hframes (.plain hi)) hsteps

/-! ## One key more -/

/-- The keyboard interrupts, `irq_handler` acknowledges it, and `keyboard_handler` echoes an Enter:
with `arch_enable_interrupts` everything is as before, one frame deeper. -/
theorem State.Open.deeper {s : State} (h : s.Open) :
    ∃ s', s.Steps s' ∧ s'.Open ∧ s'.depth = s.depth + 1 := by
  have haccept : s.Step _ := .accept 1 false h.flag ⟨h.keyboard, fun h8 => absurd h8 (by decide)⟩
  have heoi := Relation.ReflTransGen.tail (.single haccept) (.exec rfl (.plain rfl))
  have hcall := heoi.tail (.exec rfl (.callHandler 1 (by
    show Handler.Code (s.handlers 1) []
    rw [h.unregistered]
    exact .none) 0x1C))
  have hecho := ((hcall.tail (.exec rfl (.key 0x1C))).tail (.exec rfl (.putChar []))).tail
    (.exec rfl (.plain rfl))
  have hopen := hecho.tail (.exec rfl (.plain rfl))
  have hclear := (congrArg Pic.Clear (h.clear.acknowledged 1 false s.accepted)).mpr h.clear
  exact ⟨_, hopen, ⟨h.console, rfl, h.keyboard, hclear, h.unregistered⟩,
    List.countP_cons_of_pos rfl⟩

theorem State.Open.deep {s : State} (h : s.Open) (n : Nat) :
    ∃ s', s.Steps s' ∧ s'.Open ∧ s'.depth = s.depth + n := by
  induction n with
  | zero => exact ⟨s, .refl, h, rfl⟩
  | succ n ih =>
    obtain ⟨s', hsteps, hopen, hdepth⟩ := ih
    obtain ⟨s'', hsteps', hopen', hdepth'⟩ := hopen.deeper
    exact ⟨s'', hsteps.trans hsteps', hopen', by rw [hdepth', hdepth, Nat.add_assoc]⟩

/-- **No bound on the depth**: for every `n` the kernel can come to be in `n` handlers at once, with
its console up, each interrupt acknowledged and the next one possible. -/
theorem nesting_unbounded (drives : Fin 4 → Code.Probe) (mask : Fin 16 → Bool) (n : Nat) :
    ∃ s : State, s.Reachable drives mask ∧ s.Open ∧ s.depth = n := by
  have hplain : ∀ i ∈ Code.beforeConsole ++ Code.consoleInit, i.plain = true := by decide
  have hboot := State.steps_effects (Code.initClock ++ Code.ataInit drives ++ [.step, .loop])
    hplain (s := .boot drives mask) rfl
  have hkeyboard : Function.update mask 1 false 1 = false := Function.update_self ..
  obtain ⟨s, hsteps, hopen, hdepth⟩ := State.Open.deep (s := { effects
      (Code.beforeConsole ++ Code.consoleInit) (.boot drives mask) with frames := [_] })
    ⟨rfl, rfl, hkeyboard, fun _ _ => rfl, rfl⟩ n
  exact ⟨s, hboot.trans hsteps, hopen, hdepth.trans (Nat.zero_add n)⟩

end ScratchOs.Cpu
