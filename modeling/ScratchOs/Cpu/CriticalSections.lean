import ScratchOs.Cpu.Interrupts

/-!
# Critical sections

`arch_disable_interrupts` and `arch_enable_interrupts` do not nest: the second sets the flag,
whoever else still waits for it to be clear. All goes well as long as `console_put_char`, the only
function that is called where interrupts are off already, is not.

`sections` of a frame counts the calls of `arch_disable_interrupts` that wait for their
counterparts, and it is a count the machine does not have. A section is held when the flag is clear
wherever the count is not 0, or a handler runs. So the property is that the flag does what a count
would do, and the condition is the one that makes the difference invisible.

That condition is about every character that is printed, and not about who prints it. It is checked
where `console_put_char` is called, in the state of that moment; `putChar_ends_section` is the other
side, that one such call is enough.
-/

set_option autoImplicit false

namespace ScratchOs.Cpu

/-- In a handler, or between the two calls of one function. -/
def Frame.Critical (f : Frame) : Prop :=
  f.irq ≠ none ∨ 0 < f.sections

/-- The property: while anybody is in a section interrupts are off, and no two handlers run. -/
structure State.SectionsHold (s : State) : Prop where
  flag : (∃ f ∈ s.frames, f.Critical) → s.flag = false
  handlers : (s.frames.countP fun f => f.irq.isSome) ≤ 1

/-- If it is `console_put_char` that is called next, nobody has switched interrupts off. -/
def State.PrintsOutside (s : State) : Prop :=
  ∀ code irq sections rest, s.frames = ⟨.putChar :: code, irq, sections⟩ :: rest →
    ∀ f ∈ s.frames, ¬ f.Critical

/-! ## Code that switches the flag -/

/-- The two that write the flag. -/
def Instr.Switches : Instr → Prop
  | .cli => True
  | .sti => True
  | _ => False

/-- With `n` sections open now, `code` never opens a second one. -/
def Paired : Nat → List Instr → Prop
  | _, [] => True
  | n, .cli :: code => n = 0 ∧ Paired 1 code
  | n, .sti :: code => n ≤ 1 ∧ Paired 0 code
  | n, _ :: code => Paired n code

theorem paired_cons {n : Nat} {i : Instr} {code : List Instr} (h : ¬ i.Switches) :
    Paired n (i :: code) ↔ Paired n code := by
  cases i with
  | cli => exact absurd trivial h
  | sti => exact absurd trivial h
  | _ => exact Iff.rfl

/-- Code without switches in front of paired code leaves it paired. -/
theorem paired_append {n : Nat} {pre code : List Instr} (h : ∀ i ∈ pre, ¬ i.Switches) :
    Paired n (pre ++ code) ↔ Paired n code := by
  induction pre with
  | nil => exact Iff.rfl
  | cons i pre ih =>
    rw [List.cons_append, paired_cons (h i (List.mem_cons_self ..))]
    exact ih fun j hj => h j (List.mem_cons_of_mem _ hj)

theorem not_switches_replicate {n : Nat} :
    ∀ i ∈ List.replicate n Instr.putChar, ¬ i.Switches := by
  intro i hi
  rw [List.eq_of_mem_replicate hi]
  exact id

theorem not_switches_append {pre post : List Instr} (hpre : ∀ i ∈ pre, ¬ i.Switches)
    (hpost : ∀ i ∈ post, ¬ i.Switches) : ∀ i ∈ pre ++ post, ¬ i.Switches :=
  fun i hi => (List.mem_append.mp hi).elim (hpre i) (hpost i)

theorem not_switches_pressKey (k : Drivers.Keyboard) (scancode : UInt8) :
    ∀ i ∈ (Code.pressKey k scancode).2, ¬ i.Switches := by
  unfold Code.pressKey
  cases Drivers.keyOf scancode with
  | nothing => simp
  | enter => simp [Instr.Switches]
  | erase =>
    simp only
    split_ifs <;> simp [Instr.Switches]
  | char c =>
    simp only
    split_ifs <;> simp [Instr.Switches]

/-- No handler of the kernel switches the flag by itself. -/
theorem Handler.Code.not_switches {handler : Option Handler} {code : List Instr}
    (h : Handler.Code handler code) : ∀ i ∈ code, ¬ i.Switches := by
  cases h with
  | none => simp
  | genericTimer callbacks h =>
    have hcallbacks : ∀ i ∈ callbacks, ¬ i.Switches := by
      intro i hi
      rcases h i hi with rfl | rfl <;> exact id
    exact not_switches_append (List.forall_mem_cons.mpr ⟨id, hcallbacks⟩)
      (by simp [Code.sendEoi, Instr.Switches])
  | ataPrimary => simp [Code.ataIrqHandler, Code.sendEoi, Instr.Switches]
  | ataSecondary => simp [Code.ataIrqHandler, Code.sendEoi, Instr.Switches]

/-- Nothing but `console_put_char` brings switches with it. -/
theorem Instr.Calls.not_switches {s : State} {i : Instr} {calls : List Instr}
    (h : i.Calls s calls) (hi : i ≠ .putChar) : ∀ j ∈ calls, ¬ j.Switches := by
  cases h with
  | putChar => exact absurd rfl hi
  | printk n => exact not_switches_replicate
  | log n => exact not_switches_replicate
  | callHandler irq h scancode =>
    refine not_switches_append h.not_switches ?_
    split_ifs
    · simp [Code.keyboardHandler, Code.sendEoi, Instr.Switches]
    · simp
  | key scancode => exact not_switches_pressKey s.keyboard scancode
  | loop => simp [Code.shellRound, Instr.Switches]
  | plain => simp

/-- `console_put_char` is a section of its own, with the messages of the pixels it could not draw
inside. -/
theorem paired_consolePutChar {pixels : List Nat} {code : List Instr} (h : Paired 0 code) :
    Paired 0 (Code.consolePutChar pixels ++ code) := by
  simp only [Code.consolePutChar, List.cons_append, List.append_assoc]
  refine ⟨rfl, (paired_append fun i hi => ?_).mpr ⟨Nat.le_refl 1, h⟩⟩
  obtain ⟨message, _, hi⟩ := List.mem_flatMap.mp hi
  rcases List.mem_cons.mp hi with rfl | hi
  · exact id
  · exact not_switches_replicate i hi

theorem not_switches_ataIdentify (probe : Code.Probe) :
    ∀ i ∈ Code.ataIdentify probe, ¬ i.Switches := by
  cases probe <;> simp [Code.ataIdentify, Instr.Switches]

/-- `kernel_main` has one section that other functions are called in, that of `ata_init`. -/
theorem paired_kernelMain (drives : Fin 4 → Code.Probe) : Paired 0 (Code.kernelMain drives) := by
  have hprobes : ∀ i ∈ ((List.finRange 4).map drives).flatMap Code.ataIdentify, ¬ i.Switches := by
    intro i hi
    obtain ⟨probe, _, hi⟩ := List.mem_flatMap.mp hi
    exact not_switches_ataIdentify probe i hi
  have hata : Paired 0 (Code.ataInit drives ++ [.step, .loop]) := by
    simp only [Code.ataInit, List.cons_append, List.append_assoc]
    exact ⟨rfl, (paired_append hprobes).mpr ⟨Nat.le_refl 1, trivial⟩⟩
  rw [Code.kernelMain, List.append_assoc]
  exact ⟨Nat.zero_le 1, hata⟩

/-! ## The invariant -/

/-- `kernel_main`, outside or in a section, or one handler over it. -/
inductive State.Calm (s : State) : Prop
  | kernel {code : List Instr} {sections : Nat} (hframes : s.frames = [⟨code, none, sections⟩])
      (hpaired : Paired sections code) (hflag : 0 < sections → s.flag = false)
  | handler {code main : List Instr} {k : Nat}
      (hframes : s.frames = [⟨code, some k, 0⟩, ⟨main, none, 0⟩])
      (hcode : ∀ i ∈ code, ¬ i.Switches) (hpaired : Paired 0 main) (hflag : s.flag = false)

theorem Instr.effect_flag {i : Instr} (s : State) (h : ¬ i.Switches) :
    (i.effect s).flag = s.flag := by
  cases i with
  | cli => exact absurd trivial h
  | sti => exact absurd trivial h
  | _ => rfl

theorem Instr.sections_eq {i : Instr} (n : Nat) (h : ¬ i.Switches) : i.sections n = n := by
  cases i with
  | cli => exact absurd trivial h
  | sti => exact absurd trivial h
  | _ => rfl

theorem not_switches_irqHandler (irq : Fin 16) : ∀ i ∈ Code.irqHandler irq, ¬ i.Switches := by
  refine not_switches_append (fun i hi => ?_) (by simp [Instr.Switches])
  obtain ⟨chip, _, rfl⟩ := List.mem_map.mp hi
  exact id

/-- One step of the machine. Outside, `console_put_char` is unfolded into a section; in a section
and in a handler the condition rules it out; and an interrupt is accepted outside only, because
the flag is clear everywhere else. -/
theorem State.Calm.step {s s' : State} (h : s.Calm) (hprints : s.PrintsOutside)
    (hstep : s.Step s') : s'.Calm := by
  cases h with
  | @kernel code sections hframes hpaired hflag =>
    cases hstep with
    | @exec i calls _ _ _ _ hexec hcalls =>
      have htop := hexec
      rw [hframes] at hexec
      cases hexec
      by_cases hput : i = .putChar
      · -- It is called outside, so it is a section of its own.
        subst hput
        have houtside : sections = 0 := by
          have hf := hprints _ _ _ _ htop ⟨_, none, sections⟩ (by
            rw [hframes]
            exact List.mem_singleton.mpr rfl)
          exact Nat.eq_zero_of_not_pos fun hpos => hf (Or.inr hpos)
        subst houtside
        cases hcalls with
        | plain h => cases h
        | putChar pixels =>
          exact .kernel rfl (paired_consolePutChar hpaired) fun hpos => absurd hpos (lt_irrefl 0)
      have hquiet := hcalls.not_switches hput
      by_cases hi : i.Switches
      · cases i with
        | cli =>
          obtain ⟨rfl, hcode⟩ := hpaired
          exact .kernel rfl ((paired_append hquiet).mpr hcode) fun _ => rfl
        | sti =>
          have hzero : Instr.sti.sections sections = 0 := Nat.sub_eq_zero_of_le hpaired.1
          refine .kernel rfl ?_ fun hpos => absurd hpos (by rw [hzero]; exact lt_irrefl 0)
          rw [hzero]
          exact (paired_append hquiet).mpr hpaired.2
        | _ => exact hi.elim
      · refine .kernel rfl ?_ ?_
        · rw [i.sections_eq _ hi]
          exact (paired_append hquiet).mpr ((paired_cons hi).mp hpaired)
        · rw [i.sections_eq _ hi]
          exact fun hpos => (i.effect_flag s hi).trans (hflag hpos)
    | accept irq spurious hset =>
      have houtside : sections = 0 := by
        refine Nat.eq_zero_of_not_pos fun hpos => ?_
        cases (hflag hpos).symm.trans hset
      subst houtside
      exact .handler (k := s.accepted) (congrArg (_ :: ·) hframes) (not_switches_irqHandler irq)
        hpaired rfl
    | iret hexec =>
      rw [hframes] at hexec
      cases hexec
  | @handler code main k hframes hcode hpaired hflag =>
    cases hstep with
    | @exec i calls _ _ _ _ hexec hcalls =>
      have htop := hexec
      rw [hframes] at hexec
      cases hexec
      have hput : i ≠ .putChar := by
        rintro rfl
        exact hprints _ _ _ _ htop ⟨_, some k, 0⟩ (by
          rw [hframes]
          exact List.mem_cons_self ..) (Or.inl (fun hnone => nomatch hnone))
      obtain ⟨hi, hcode'⟩ := List.forall_mem_cons.mp hcode
      refine .handler (k := k) ?_ (not_switches_append (hcalls.not_switches hput) hcode') hpaired
        ((i.effect_flag s hi).trans hflag)
      rw [i.sections_eq 0 hi]
    | accept irq spurious hset => cases hflag.symm.trans hset
    | iret hexec =>
      rw [hframes] at hexec
      cases hexec
      exact .kernel rfl hpaired fun hpos => absurd hpos (lt_irrefl 0)

/-- The invariant is stronger than the property: it also says what the code will do. -/
theorem State.Calm.sectionsHold {s : State} (h : s.Calm) : s.SectionsHold := by
  cases h with
  | kernel hframes _ hflag =>
    refine ⟨?_, ?_⟩
    · rintro ⟨f, hf, hcritical⟩
      rw [hframes, List.mem_singleton] at hf
      subst hf
      exact hflag (hcritical.resolve_left fun hnone => hnone rfl)
    · rw [hframes]
      exact Nat.zero_le _
  | handler hframes _ _ hflag =>
    refine ⟨fun _ => hflag, ?_⟩
    rw [hframes]
    exact Nat.le_refl _

/-- **Critical sections stay critical** along every run in which `console_put_char` is called
outside of them. -/
theorem sections_hold {drives : Fin 4 → Code.Probe} {mask : Fin 16 → Bool} {s : State}
    (h : Relation.ReflTransGen (fun s s' => s.PrintsOutside ∧ s.Step s') (.boot drives mask) s) :
    s.SectionsHold := by
  refine State.Calm.sectionsHold ?_
  induction h with
  | refl => exact .kernel rfl (paired_kernelMain drives) fun _ => rfl
  | tail _ hstep ih => exact ih.step hstep.1 hstep.2

/-- Interrupt 5, right after `set_idt`. -/
theorem sections_hold_in_handler : ∃ s : State, s.accepted = 1 ∧ s.SectionsHold := by
  have hno : ∀ {s : State} {code}, s.frames = [⟨code, none, 0⟩] → s.PrintsOutside := by
    intro s code hs _ _ _ _ _ f hf
    rw [hs, List.mem_singleton] at hf
    rw [hf]
    exact fun hcritical => hcritical.elim (fun h => h rfl) (lt_irrefl 0)
  have hstart : Relation.ReflTransGen (fun s s' : State => s.PrintsOutside ∧ s.Step s')
      (.boot (fun _ => .silent) fun _ => false) _ :=
    (((Relation.ReflTransGen.single ⟨hno rfl, .exec rfl (.plain rfl)⟩).tail
      ⟨hno rfl, .exec rfl (.plain rfl)⟩).tail ⟨hno rfl, .exec rfl (.plain rfl)⟩).tail
      ⟨hno rfl, .exec rfl (.plain rfl)⟩
  exact ⟨_, rfl, sections_hold (hstart.tail
    ⟨hno rfl, .accept 5 false rfl ⟨rfl, fun _ => rfl⟩⟩)⟩

/-! ## A character in a section -/

/-- Where it is not outside, the section is over with the call. -/
theorem putChar_ends_section {s : State} (h : ¬ s.PrintsOutside) :
    ∃ s', s.Steps s' ∧ ¬ s'.SectionsHold := by
  unfold State.PrintsOutside at h
  push Not at h
  obtain ⟨code, irq, sections, rest, hframes, f, hf, hcritical⟩ := h
  have hsteps : s.Steps _ := ((Relation.ReflTransGen.single (.exec hframes (.putChar []))).tail
    (.exec rfl (.plain rfl))).tail (.exec rfl (.plain rfl))
  refine ⟨_, hsteps, fun hhold => ?_⟩
  have hstill : ∃ f ∈ ⟨code, irq, sections⟩ :: rest, f.Critical := by
    rw [hframes] at hf
    rcases List.mem_cons.mp hf with rfl | hf
    · exact ⟨_, List.mem_cons_self .., hcritical⟩
    · exact ⟨f, List.mem_cons_of_mem _ hf, hcritical⟩
  cases hhold.flag hstill

/-- No drive and no pull-down: `ata_identify` says so, and from the first character on
`ata_init` goes on with interrupts on. -/
theorem floating_bus_ends_section : ∃ s : State,
    s.Reachable (fun _ => .floating) (fun _ => false) ∧ ¬ s.SectionsHold := by
  have hplain : ∀ i ∈ Code.beforeConsole ++ Code.consoleInit ++ Code.initClock ++
      [.cli, .step, .step], i.plain = true := by decide
  obtain ⟨s, hsteps, hframes⟩ := State.steps_plain hplain
    (s := .boot (fun _ => .floating) fun _ => false) rfl
  have hlog : s.Step _ := .exec hframes (.log 0)
  obtain ⟨s', hsteps', hs'⟩ := putChar_ends_section
    (s := { s with frames := _ }) fun hprints =>
      hprints _ _ _ _ rfl _ (List.mem_cons_self ..) (Or.inr Nat.one_pos)
  exact ⟨s', (hsteps.tail hlog).trans hsteps', hs'⟩

end ScratchOs.Cpu
