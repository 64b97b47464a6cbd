import Mathlib.Logic.Function.Iterate
import ScratchOs.Kernel.Terminal

/-!
# The shell's runs

`Refines` ties the statements of the shell, and those of the handlers between them, to the
terminal. A line is taken where `buffer_pos` is cleared; until `line_ready` is, the terminal is
closed to keys.

What is entered and what is served differ in one way only, and it is the way the code has it: a
backspace between Enter and the taking of the line is still obeyed, so a line that is served is a
prefix of the one that was entered. Everything else that comes while a line waits is dropped, the
second Enter as well: it sets a flag that is set.

`shell_serves_lines` is about every run, `shell_catches_up` about what a run can go on to do. Only
the second one needs that printing and the commands return, which in this model they do
(`Shell.advance`) and on a real screen need not.
-/

set_option autoImplicit false

namespace ScratchOs.Kernel

open ScratchOs.Drivers ScratchOs.Libc

/-! ## The statics hold the line -/

/-- Characters of which there are no more than there is room for, none of them NUL. -/
def Fits (line : List UInt8) : Prop := line.length ≤ 255 ∧ 0 ∉ line

/-- The characters that have been taken back are still in `key_buffer`. -/
def Keeps (k : Keyboard) : Line → Prop
  | .typing line => k.lineReady = false ∧ Holds k line ∧ Fits line
  | .entered text left => k.lineReady = true ∧ k.bufferPos = left ∧ left ≤ text.length ∧
      (∀ (i : Nat) (h : i < text.length), k.keyBuffer i = text[i]) ∧ Fits text
  | .closed => k.lineReady = true ∧ k.bufferPos = 0

/-- What the first half of `keyboard_handler` does, by the meaning of the key and no longer by the
scancode. -/
theorem handlerPut_eq (k : Keyboard) (scancode : UInt8) :
    handlerPut k scancode =
      match keyOf scancode with
      | .nothing => (k, [])
      | .enter => (k, [newline])
      | .erase =>
        if 0 < k.bufferPos then ({ k with bufferPos := k.bufferPos - 1 }, [backspace])
        else (k, [])
      | .char c =>
        if k.bufferPos < 255 ∧ k.lineReady = false then
          ({ k with
            keyBuffer := Function.update k.keyBuffer k.bufferPos c
            bufferPos := k.bufferPos + 1 }, [c])
        else (k, []) := by
  unfold handlerPut keyOf
  by_cases hp : scancode &&& 0x80 = 0
  · simp only [if_pos hp]
    by_cases hn : scancodeToAscii scancode = newline
    · rw [if_pos hn, if_pos hn]
    · rw [if_neg hn, if_neg hn]
      by_cases hb : scancodeToAscii scancode = backspace
      · rw [if_pos hb, if_pos hb]
      · rw [if_neg hb, if_neg hb]
        by_cases ha : scancodeToAscii scancode ≠ 0
        · rw [if_pos ha, if_pos ha]
        · rw [if_neg ha, if_neg ha]
  · rw [if_neg hp, if_neg hp]

/-- The two halves of `keyboard_handler`. -/
theorem keyboardHandler_halves (k : Keyboard) (scancode : UInt8) :
    keyboardHandler k scancode =
      { (handlerPut k scancode).1 with
        lineReady := (decide (keyOf scancode = .enter) || k.lineReady)
        console := k.console ++ (handlerPut k scancode).2 } := by
  rw [keyboardHandler_eq, handlerPut_eq]
  cases keyOf scancode with
  | nothing => simp
  | enter => simp
  | erase =>
    simp only
    split_ifs
    · simp
    · simp
  | char c =>
    simp only
    split_ifs
    · simp
    · simp

/-- The statics follow the line through a key, and what is echoed is what the line echoes. A
backspace is the case with something to show: it moves `buffer_pos` and leaves `key_buffer`, so the
shorter line is a prefix of the longer one that is still there. -/
theorem Keeps.press {k : Keyboard} {line : Line} (h : Keeps k line) (scancode : UInt8) :
    Keeps (handlerPut k scancode).1 (line.press (keyOf scancode)).1 ∧
      (handlerPut k scancode).2 = (line.press (keyOf scancode)).2 := by
  rw [handlerPut_eq]
  cases hkey : keyOf scancode with
  | nothing => cases line <;> exact ⟨h, rfl⟩
  | enter => cases line <;> exact ⟨h, rfl⟩
  | erase =>
    cases line with
    | closed =>
      simp only
      rw [if_neg (by rw [h.2]; exact Int.lt_irrefl 0)]
      exact ⟨h, rfl⟩
    | typing line =>
      obtain ⟨hready, hholds, hlen, hzero⟩ := h
      have hpos := hholds.pos
      have hfits : Fits line.dropLast :=
        ⟨by rw [List.length_dropLast]; omega, fun hmem => hzero (List.dropLast_subset _ hmem)⟩
      simp only [Line.press]
      by_cases hnil : line = []
      · subst hnil
        rw [if_neg (by rw [hpos]; exact Int.lt_irrefl 0), if_pos rfl]
        exact ⟨⟨hready, hholds, hfits⟩, rfl⟩
      · have hsome := List.length_pos_iff.mpr hnil
        rw [if_pos (by omega), if_neg hnil]
        refine ⟨⟨hready, ?_, hfits⟩, rfl⟩
        rw [List.dropLast_eq_take]
        exact hholds.take (Nat.sub_le _ _) rfl (by show k.bufferPos - 1 = _; omega)
    | entered line left =>
      -- The handler does not look at `line_ready` here: what has been entered gets shorter.
      obtain ⟨hready, hpos, hle, hchars, hfits⟩ := h
      simp only [Line.press]
      by_cases hnone : left = 0
      · subst hnone
        rw [if_neg (by rw [hpos]; exact Int.lt_irrefl 0), if_pos rfl]
        exact ⟨⟨hready, hpos, hle, hchars, hfits⟩, rfl⟩
      · rw [if_pos (by omega), if_neg hnone]
        exact ⟨⟨hready, by show k.bufferPos - 1 = _; omega, by omega, hchars, hfits⟩, rfl⟩
  | char c =>
    cases line with
    | closed =>
      simp only
      rw [if_neg fun hc => by simp [h.1] at hc]
      exact ⟨h, rfl⟩
    | entered line left =>
      simp only
      rw [if_neg fun hc => by simp [h.1] at hc]
      exact ⟨h, rfl⟩
    | typing line =>
      obtain ⟨hready, hholds, hlen, hzero⟩ := h
      have hpos := hholds.pos
      simp only [Line.press]
      by_cases hroom : line.length < 255
      · rw [if_pos ⟨by omega, hready⟩, if_pos hroom]
        refine ⟨⟨hready, hholds.append c rfl rfl, ?_, ?_⟩, rfl⟩
        · rw [List.length_append, List.length_singleton]
          omega
        · intro hmem
          rcases List.mem_append.mp hmem with hmem | hmem
          · exact hzero hmem
          · exact keyOf_char hkey (List.mem_singleton.mp hmem).symm
      · rw [if_neg fun hc => hroom (by omega), if_neg hroom]
        exact ⟨⟨hready, hholds, hlen, hzero⟩, rfl⟩

/-! ## The simulation -/

/-- The loop of `get_input_buffer` has come to character `i`. -/
def Copied (buffer : Nat → UInt8) (text : List UInt8) (i : Nat) : Prop :=
  i ≤ text.length ∧ ∀ (j : Nat) (h : j < text.length), j < i → buffer j = text[j]

theorem Copied.store {buffer : Nat → UInt8} {text : List UInt8} {i : Nat}
    (h : Copied buffer text i) (hi : i < text.length) :
    Copied (Function.update buffer i text[i]) text (i + 1) := by
  refine ⟨hi, fun j hj hji => ?_⟩
  by_cases hlast : j = i
  · subst hlast
    rw [Function.update_self]
  · rw [Function.update_of_ne hlast]
    exact h.2 j hj (by omega)

theorem Copied.terminate {buffer : Nat → UInt8} {line : List UInt8} {i : Nat}
    (h : Copied buffer line i) (hzero : 0 ∉ line) :
    StringAt (Function.update buffer i 0) 0 (line.take i) := by
  have hi := h.1
  have hlen : (line.take i).length = i := List.length_take_of_le hi
  refine stringAt_of (fun j hj => ?_) ?_ fun hmem => hzero (List.mem_of_mem_take hmem)
  · rw [hlen] at hj
    rw [Nat.zero_add, Function.update_of_ne (by omega), List.getElem_take]
    exact h.2 j (by omega) hj
  · rw [Nat.zero_add, hlen, Function.update_self]

/-- Where the shell is, as the terminal sees it. -/
def Stage (buffer : Nat → UInt8) (t : Terminal) : Pc → Prop
  | .poll => t.line ≠ .closed ∧ t.todo = []
  | .test i => ∃ line left, t.line = .entered line left ∧ t.todo = [] ∧ Copied buffer line i
  | .store i => ∃ line left, t.line = .entered line left ∧ t.todo = [] ∧ Copied buffer line i ∧
      i < line.length
  | .terminate i => ∃ line left, t.line = .entered line left ∧ t.todo = [] ∧
      Copied buffer line i ∧ left ≤ i
  | .resetPos => ∃ line left m, t.line = .entered line left ∧ t.todo = [] ∧ left ≤ m ∧
      m ≤ line.length ∧ StringAt buffer 0 (line.take m)
  | .resetReady => t.line = .closed ∧ t.todo = commands buffer
  | .respond todo => t.line ≠ .closed ∧ t.todo = todo

structure Refines (s : Shell) (t : Terminal) : Prop where
  keeps : Keeps s.keyboard t.line
  stage : Stage s.buffer t s.pc
  trace : s.trace = t.trace

/-- What comes from the keyboard comes to both; `kernel_main` is left to take its turns. -/
def Event.action : Event → Option Action
  | .key scancode => some (.key scancode)
  | .ready => some .ready
  | .run => none

def Action.isInterrupt : Action → Bool
  | .key _ => true
  | .ready => true
  | _ => false

theorem Line.typing_ne_closed {line : List UInt8} : Line.typing line ≠ .closed := by
  intro h
  cases h

theorem Line.entered_ne_closed {line : List UInt8} {left : Nat} :
    Line.entered line left ≠ .closed := by
  intro h
  cases h

theorem Line.press_ne_closed {line : Line} {key : Key} (h : line ≠ .closed) :
    (line.press key).1 ≠ .closed := by
  intro hclosed
  cases line with
  | closed => exact h rfl
  | entered line left => cases key <;> cases hclosed
  | typing line =>
    cases key with
    | char c =>
      rw [Line.press] at hclosed
      split_ifs at hclosed
    | _ => cases hclosed

theorem Line.press_of_entered (line : List UInt8) (left : Nat) (key : Key) :
    ∃ left' ≤ left, (Line.press (.entered line left) key).1 = .entered line left' := by
  cases key with
  | erase => exact ⟨left - 1, Nat.sub_le _ _, rfl⟩
  | _ => exact ⟨left, Nat.le_refl _, rfl⟩

/-- A key does not put the shell anywhere else: what has been entered stays so. -/
theorem Stage.press {buffer : Nat → UInt8} {t t' : Terminal} {pc : Pc} (h : Stage buffer t pc)
    {key : Key} (hline : t'.line = (t.line.press key).1) (htodo : t'.todo = t.todo) :
    Stage buffer t' pc := by
  cases pc with
  | poll => exact ⟨hline ▸ Line.press_ne_closed h.1, htodo.trans h.2⟩
  | respond todo => exact ⟨hline ▸ Line.press_ne_closed h.1, htodo.trans h.2⟩
  | resetReady =>
    refine ⟨?_, htodo.trans h.2⟩
    rw [hline, h.1]
    cases key <;> rfl
  | test i =>
    obtain ⟨line, left, hentered, hrest⟩ := h
    obtain ⟨left', _, hpress⟩ := Line.press_of_entered line left key
    rw [hentered, hpress] at hline
    exact ⟨line, left', hline, htodo ▸ hrest⟩
  | store i =>
    obtain ⟨line, left, hentered, hrest⟩ := h
    obtain ⟨left', _, hpress⟩ := Line.press_of_entered line left key
    rw [hentered, hpress] at hline
    exact ⟨line, left', hline, htodo ▸ hrest⟩
  | terminate i =>
    obtain ⟨line, left, hentered, hnone, hcopied, hle⟩ := h
    obtain ⟨left', hle', hpress⟩ := Line.press_of_entered line left key
    rw [hentered, hpress] at hline
    exact ⟨line, left', hline, htodo.trans hnone, hcopied, Nat.le_trans hle' hle⟩
  | resetPos =>
    obtain ⟨line, left, m, hentered, hnone, hle, hrest⟩ := h
    obtain ⟨left', hle', hpress⟩ := Line.press_of_entered line left key
    rw [hentered, hpress] at hline
    exact ⟨line, left', m, hline, htodo.trans hnone, Nat.le_trans hle' hle, hrest⟩

/-! One lemma for each kind of event (`key`, `ready`, `advance`), the step from them, and the run
by induction on the events. -/

namespace Refines

variable {s s' : Shell} {t : Terminal}

/-- A key is one action of the terminal, wherever the shell is. -/
theorem key (h : Refines s t) (scancode : UInt8) (hstep : s.step (.key scancode) = some s') :
    ∃ t', t.run [.key scancode] = some t' ∧ Refines s' t' := by
  obtain ⟨hkeeps, hputs⟩ := h.keeps.press scancode
  cases hstep
  refine ⟨_, rfl, hkeeps, h.stage.press rfl rfl, ?_⟩
  show s.trace ++ _ = t.trace ++ _
  rw [hputs, h.trace]

/-- `line_ready = true`, in the handler of the key that came last. It enters the line that is being
typed, and does nothing when a line waits or is being taken. -/
theorem ready (h : Refines s t) (hstep : s.step .ready = some s') :
    ∃ t', t.run [.ready] = some t' ∧ Refines s' t' := by
  rw [Shell.step] at hstep
  split_ifs at hstep
  cases hstep
  have hkeeps := h.keeps
  have hstage := h.stage
  cases hline : t.line with
  | typing line =>
    -- The line is entered here, and the shell is not in the middle of another one.
    rw [hline] at hkeeps
    obtain ⟨_, hholds, hfits⟩ := hkeeps
    refine ⟨{ t with line := .entered line line.length, entered := t.entered ++ [line] }, ?_,
      ⟨rfl, hholds.pos, Nat.le_refl _, hholds.chars, hfits⟩, ?_, h.trace⟩
    · show (Terminal.step t .ready).bind some = _
      rw [Terminal.step, hline]
      rfl
    · show Stage s.buffer _ s.pc
      cases hpc : s.pc with
      | poll =>
        rw [hpc] at hstage
        exact ⟨Line.entered_ne_closed, hstage.2⟩
      | respond todo =>
        rw [hpc] at hstage
        exact ⟨Line.entered_ne_closed, hstage.2⟩
      | resetReady =>
        rw [hpc] at hstage
        cases hline.symm.trans hstage.1
      | test i =>
        rw [hpc] at hstage
        obtain ⟨_, _, hentered, _⟩ := hstage
        cases hline.symm.trans hentered
      | store i =>
        rw [hpc] at hstage
        obtain ⟨_, _, hentered, _⟩ := hstage
        cases hline.symm.trans hentered
      | terminate i =>
        rw [hpc] at hstage
        obtain ⟨_, _, hentered, _⟩ := hstage
        cases hline.symm.trans hentered
      | resetPos =>
        rw [hpc] at hstage
        obtain ⟨_, _, _, hentered, _⟩ := hstage
        cases hline.symm.trans hentered
  | entered line left =>
    -- A second Enter: the flag is set already.
    rw [hline] at hkeeps
    refine ⟨t, ?_, ?_, hstage, h.trace⟩
    · show (Terminal.step t .ready).bind some = _
      rw [Terminal.step, hline]
      rfl
    · rw [hline]
      exact ⟨rfl, hkeeps.2⟩
  | closed =>
    rw [hline] at hkeeps
    refine ⟨t, ?_, ?_, hstage, h.trace⟩
    · show (Terminal.step t .ready).bind some = _
      rw [Terminal.step, hline]
      rfl
    · rw [hline]
      exact ⟨rfl, hkeeps.2⟩

/-- A statement of `kernel_main` is one action of the terminal, or none. Most are none
(`hnothing`): the loop of `get_input_buffer` works in the caller's buffer, which the terminal does
not have. The line is taken by the statement that clears `buffer_pos`, with as many characters as
the loop has copied. -/
theorem advance (h : Refines s t) :
    ∃ as t', as.filter Action.isInterrupt = [] ∧ t.run as = some t' ∧ Refines s.advance t' := by
  have hkeeps := h.keeps
  have hstage := h.stage
  have hnothing {s' : Shell} (hk : s'.keyboard = s.keyboard) (htr : s'.trace = s.trace)
      (hst : Stage s'.buffer t s'.pc) :
      ∃ as t', as.filter Action.isInterrupt = [] ∧ t.run as = some t' ∧ Refines s' t' :=
    ⟨[], t, rfl, rfl, hk ▸ hkeeps, hst, htr.trans h.trace⟩
  rw [Shell.advance]
  cases hpc : s.pc with
  | poll =>
    rw [hpc] at hstage
    refine hnothing rfl rfl ?_
    show Stage s.buffer t (if s.keyboard.lineReady = true then .test 0 else .poll)
    split_ifs with hready
    -- `line_ready` is set, so the line is neither being typed nor being taken.
    · cases hline : t.line with
      | closed => exact absurd hline hstage.1
      | typing line =>
        rw [hline, Keeps, hready] at hkeeps
        cases hkeeps.1
      | entered line left =>
        exact ⟨line, left, hline, hstage.2, Nat.zero_le _,
          fun _ _ h => absurd h (Nat.not_lt_zero _)⟩
    · exact hstage
  | test i =>
    rw [hpc] at hstage
    obtain ⟨line, left, hline, htodo, hcopied⟩ := hstage
    rw [hline] at hkeeps
    obtain ⟨_, hpos, hle, _, hlen, _⟩ := hkeeps
    refine hnothing rfl rfl ?_
    show Stage s.buffer t
      (if (i : Int) < s.keyboard.bufferPos ∧ (i : Int) < 256 - 1 then .store i else .terminate i)
    split_ifs with hgo
    · exact ⟨line, left, hline, htodo, hcopied, by omega⟩
    · exact ⟨line, left, hline, htodo, hcopied, by omega⟩
  | store i =>
    rw [hpc] at hstage
    obtain ⟨line, left, hline, htodo, hcopied, hi⟩ := hstage
    rw [hline] at hkeeps
    obtain ⟨_, _, _, hchars, _⟩ := hkeeps
    refine hnothing rfl rfl ⟨line, left, hline, htodo, ?_⟩
    show Copied (Function.update s.buffer i (s.keyboard.keyBuffer i)) line (i + 1)
    rw [hchars i hi]
    exact hcopied.store hi
  | terminate i =>
    rw [hpc] at hstage
    obtain ⟨line, left, hline, htodo, hcopied, hle⟩ := hstage
    rw [hline] at hkeeps
    obtain ⟨_, _, _, _, _, hzero⟩ := hkeeps
    exact hnothing rfl rfl ⟨line, left, i, hline, htodo, hle, hcopied.1, hcopied.terminate hzero⟩
  | resetPos =>
    rw [hpc] at hstage
    obtain ⟨line, left, m, hline, htodo, hle, hm, hstring⟩ := hstage
    rw [hline] at hkeeps
    obtain ⟨hready, _, _, _, hlen, _⟩ := hkeeps
    have htaken : (line.take m).length ≤ 255 := by
      rw [List.length_take]
      omega
    refine ⟨[.take m], { t with
      line := .closed
      served := t.served ++ [line.take m]
      todo := respond (line.take m) }, rfl, ?_, ⟨hready, rfl⟩, ⟨rfl, ?_⟩, h.trace⟩
    · show (Terminal.step t (.take m)).bind some = _
      rw [Terminal.step, hline]
      simp only
      rw [if_pos ⟨hle, hm, htodo⟩]
      rfl
    -- The comparisons with the names of the commands are made on the copy in `input_buffer`.
    · exact (commands_eq hstring htaken).symm
  | resetReady =>
    rw [hpc] at hstage
    obtain ⟨hline, htodo⟩ := hstage
    rw [hline] at hkeeps
    refine ⟨[.reopen], { t with line := .typing [] }, rfl, ?_, ⟨rfl, ⟨hkeeps.2, fun i hi => ?_⟩,
      ⟨Nat.zero_le _, List.not_mem_nil⟩⟩, ⟨Line.typing_ne_closed, htodo⟩, h.trace⟩
    · show (Terminal.step t .reopen).bind some = _
      rw [Terminal.step, hline]
      rfl
    · exact absurd hi (Nat.not_lt_zero i)
  | respond todo =>
    rw [hpc] at hstage
    cases todo with
    | nil => exact hnothing rfl rfl hstage
    | cons o todo =>
      refine ⟨[.put], { t with trace := t.trace ++ [o], todo }, rfl, ?_, hkeeps, ⟨hstage.1, rfl⟩,
        congrArg (· ++ [o]) h.trace⟩
      show (Terminal.step t .put).bind some = _
      rw [Terminal.step, hstage.2]
      rfl

/-- One step: the actions it stands for are the interrupts of the event, and no others. -/
theorem step (h : Refines s t) {e : Event} (hstep : s.step e = some s') :
    ∃ as t', as.filter Action.isInterrupt = e.action.toList ∧ t.run as = some t' ∧
      Refines s' t' := by
  cases e with
  | key scancode =>
    obtain ⟨t', hrun, h'⟩ := h.key scancode hstep
    exact ⟨_, t', rfl, hrun, h'⟩
  | ready =>
    obtain ⟨t', hrun, h'⟩ := h.ready hstep
    exact ⟨_, t', rfl, hrun, h'⟩
  | run =>
    rw [Shell.step] at hstep
    split_ifs at hstep
    cases hstep
    exact h.advance

/-- A run: the terminal takes the keys in the order they came in. -/
theorem run {es : List Event} : ∀ {s : Shell} {t : Terminal}, Refines s t →
    s.run es = some s' → ∃ as t', as.filter Action.isInterrupt = es.filterMap Event.action ∧
      t.run as = some t' ∧ Refines s' t' := by
  induction es with
  | nil =>
    intro s t h hrun
    cases hrun
    exact ⟨[], t, rfl, rfl, h⟩
  | cons e es ih =>
    intro s t h hrun
    obtain ⟨s₁, hstep, hrun⟩ := Option.bind_eq_some_iff.mp hrun
    obtain ⟨as, t₁, has, hact, h₁⟩ := h.step hstep
    obtain ⟨as', t', has', hact', h'⟩ := ih h₁ hrun
    refine ⟨as ++ as', t', ?_, ?_, h'⟩
    · rw [List.filter_append, has, has', List.filterMap_cons]
      cases e.action with
      | none => rfl
      | some a => rfl
    · rw [Terminal.run_append, hact]
      exact hact'

theorem start (k : Keyboard) (buffer : Nat → UInt8) :
    Refines (Shell.start k buffer) Terminal.start :=
  ⟨⟨rfl, ⟨rfl, fun i hi => absurd hi (Nat.not_lt_zero i)⟩, Nat.zero_le _, List.not_mem_nil⟩,
    ⟨Line.typing_ne_closed, rfl⟩, rfl⟩

/-- What is still to be answered is in the program counter of the shell, and a field of the
terminal. -/
theorem todo (h : Refines s t) : t.todo = s.todo := by
  have hstage := h.stage
  unfold Shell.todo
  cases hpc : s.pc with
  | poll =>
    rw [hpc] at hstage
    exact hstage.2
  | test i =>
    rw [hpc] at hstage
    obtain ⟨_, _, _, htodo, _⟩ := hstage
    exact htodo
  | store i =>
    rw [hpc] at hstage
    obtain ⟨_, _, _, htodo, _⟩ := hstage
    exact htodo
  | terminate i =>
    rw [hpc] at hstage
    obtain ⟨_, _, _, htodo, _⟩ := hstage
    exact htodo
  | resetPos =>
    rw [hpc] at hstage
    obtain ⟨_, _, _, _, htodo, _⟩ := hstage
    exact htodo
  | resetReady =>
    rw [hpc] at hstage
    exact hstage.2
  | respond todo =>
    rw [hpc] at hstage
    exact hstage.2

end Refines

/-- What a run of the shell has to do with the lines entered at the terminal: the keys are the
same, so is what can be seen, and every line that was taken is the beginning of the one that was
entered then, and has been answered. Without a backspace that came too late it is all of it. Both
buffers have 256 bytes. -/
structure ServesLines (es : List Event) (s : Shell) (as : List Action) (t : Terminal) : Prop where
  run : Terminal.start.run as = some t
  interrupts : as.filter Action.isInterrupt = es.filterMap Event.action
  trace : s.trace = t.trace
  answers : s.trace.filter Output.isOwn ++ s.todo = t.served.flatMap respond
  lines : ∃ taken, t.entered = taken ++ t.line.waiting ∧
    List.Forall₂ (· <+: ·) t.served taken ∧ (t.late = 0 → t.served = taken)
  keyBuffer : 0 ≤ s.keyboard.bufferPos ∧ s.keyboard.bufferPos ≤ 255
  buffer : ∀ i, s.pc = .store i ∨ s.pc = .terminate i → i ≤ 255

namespace Refines

variable {s : Shell} {t : Terminal}

theorem bufferPos (h : Refines s t) : 0 ≤ s.keyboard.bufferPos ∧ s.keyboard.bufferPos ≤ 255 := by
  have hkeeps := h.keeps
  cases hline : t.line with
  | typing line =>
    rw [hline] at hkeeps
    have hpos := hkeeps.2.1.pos
    have hlen := hkeeps.2.2.1
    omega
  | entered line left =>
    rw [hline] at hkeeps
    obtain ⟨_, hpos, hle, _, hlen, _⟩ := hkeeps
    omega
  | closed =>
    rw [hline] at hkeeps
    have hpos := hkeeps.2
    omega

/-- The index of the loop in `get_input_buffer`, where it is used to store. -/
theorem index (h : Refines s t) {i : Nat} (hpc : s.pc = .store i ∨ s.pc = .terminate i) :
    i ≤ 255 := by
  have hkeeps := h.keeps
  have hstage := h.stage
  obtain ⟨line, left, hline, hi⟩ : ∃ line left, t.line = .entered line left ∧ i ≤ line.length := by
    rcases hpc with hpc | hpc
    · rw [hpc] at hstage
      obtain ⟨line, left, hline, _, hcopied, _⟩ := hstage
      exact ⟨line, left, hline, hcopied.1⟩
    · rw [hpc] at hstage
      obtain ⟨line, left, hline, _, hcopied, _⟩ := hstage
      exact ⟨line, left, hline, hcopied.1⟩
  rw [hline] at hkeeps
  obtain ⟨_, _, _, _, hlen, _⟩ := hkeeps
  exact Nat.le_trans hi hlen

theorem servesLines (h : Refines s t) {es : List Event} {as : List Action}
    (hrun : Terminal.start.run as = some t)
    (hes : as.filter Action.isInterrupt = es.filterMap Event.action) : ServesLines es s as t := by
  have hserves := Terminal.start_serves.run hrun
  refine ⟨hrun, hes, h.trace, ?_, hserves.lines, h.bufferPos, fun i => h.index⟩
  rw [h.trace, ← h.todo]
  exact hserves.own

end Refines

/-- **The shell is a terminal.** Wherever the keys come, between two statements of the shell or of
a handler that has not returned, the lines are answered in the order they are entered in, each of
them once. The terminal's run is the witness, and what it promises of itself (`Terminal.Serves`)
is carried over to the shell. -/
theorem shell_serves_lines (k : Keyboard) (buffer : Nat → UInt8) {es : List Event} {s : Shell}
    (hrun : (Shell.start k buffer).run es = some s) : ∃ as t, ServesLines es s as t := by
  obtain ⟨as, t, has, hact, h⟩ := (Refines.start k buffer).run hrun
  exact ⟨as, t, h.servesLines hact has⟩

/-- `a` and Enter, and `b` while the handler of Enter has yet to set `line_ready`. -/
def nestedKey : List Event :=
  [.key 0x1E, .key 0x1C, .key 0x30, .ready] ++ List.replicate 9 .run

/-- The `b` is part of the line: Enter has been echoed, but nothing holds the next key up until its
handler sets `line_ready`. -/
theorem shell_serves_lines_nested : ∃ s as t,
    (Shell.start ⟨fun _ => 0, 0, false, []⟩ fun _ => 0).run nestedKey = some s ∧
      ServesLines nestedKey s as t ∧ s.todo = respond [97, 98] := by
  obtain ⟨s, hrun⟩ : ∃ s,
    (Shell.start ⟨fun _ => 0, 0, false, []⟩ fun _ => 0).run nestedKey = some s := ⟨_, rfl⟩
  have htodo : ((Shell.start ⟨fun _ => 0, 0, false, []⟩ fun _ => 0).run nestedKey).map Shell.todo =
      some (respond [97, 98]) := by decide
  obtain ⟨as, t, h⟩ := shell_serves_lines _ _ hrun
  rw [hrun] at htodo
  exact ⟨s, as, t, hrun, h, Option.some.inj htodo⟩

/-! ## The shell catches up -/

namespace Shell

/-- Left alone, it comes back to polling, and no line is ready. The lemmas below go through the
loop backwards, from the place that is reached last. -/
def Settles (s : Shell) : Prop :=
  ∃ n, (advance^[n] s).pc = .poll ∧ (advance^[n] s).keyboard.lineReady = false

variable {s : Shell}

theorem Settles.of_advance (h : s.advance.Settles) : s.Settles := by
  obtain ⟨n, hn⟩ := h
  exact ⟨n + 1, hn⟩

theorem settles_idle (hpc : s.pc = .poll) (hready : s.keyboard.lineReady = false) : s.Settles :=
  ⟨0, hpc, hready⟩

/-- The answer is printed, and the loop begins again. -/
theorem settles_respond {ready : Bool}
    (hpoll : ∀ s : Shell, s.pc = .poll → s.keyboard.lineReady = ready → s.Settles)
    {todo : List Output} : ∀ {s : Shell}, s.pc = .respond todo → s.keyboard.lineReady = ready →
      s.Settles := by
  induction todo with
  | nil =>
    intro s hpc hready
    have hnext : s.advance = { s with pc := .poll } := by rw [advance, hpc]
    apply Settles.of_advance
    rw [hnext]
    exact hpoll _ rfl hready
  | cons o todo ih =>
    intro s hpc hready
    have hnext : s.advance = { s with trace := s.trace ++ [o], pc := .respond todo } := by
      rw [advance, hpc]
    apply Settles.of_advance
    rw [hnext]
    exact ih rfl hready

/-- With `line_ready` cleared there is no other line to take, once this one is answered. -/
theorem settles_resetReady (hpc : s.pc = .resetReady) : s.Settles := by
  apply Settles.of_advance
  rw [advance, hpc]
  exact settles_respond (fun _ => settles_idle) rfl rfl

theorem settles_terminate {i : Nat} (hpc : s.pc = .terminate i) : s.Settles := by
  have hnext : s.advance = { s with buffer := Function.update s.buffer i 0, pc := .resetPos } := by
    rw [advance, hpc]
  apply Settles.of_advance
  apply Settles.of_advance
  rw [hnext, advance]
  exact settles_resetReady rfl

/-- A line that has been found ready is taken: there is an end to what the loop copies. `m` bounds
the characters that are left. -/
theorem settles_test {m : Nat} : ∀ {s : Shell} {i : Nat}, s.pc = .test i → 255 ≤ i + m →
    s.Settles := by
  induction m with
  | zero =>
    intro s i hpc hm
    apply Settles.of_advance
    rw [advance, hpc]
    simp only
    rw [if_neg (by omega)]
    exact settles_terminate rfl
  | succ m ih =>
    intro s i hpc hm
    apply Settles.of_advance
    rw [advance, hpc]
    simp only
    split_ifs
    · apply Settles.of_advance
      rw [advance]
      exact ih rfl (by omega)
    · exact settles_terminate rfl

theorem settles_poll (hpc : s.pc = .poll) : s.Settles := by
  cases hready : s.keyboard.lineReady with
  | false => exact settles_idle hpc hready
  | true =>
    apply Settles.of_advance
    rw [advance, hpc, hready]
    exact settles_test (i := 0) (m := 255) rfl (by omega)

theorem settles (s : Shell) : s.Settles := by
  cases hpc : s.pc with
  | poll => exact settles_poll hpc
  | test i => exact settles_test hpc (Nat.le_add_left 255 i)
  | store i =>
    apply Settles.of_advance
    rw [advance, hpc]
    exact settles_test (i := i + 1) rfl (Nat.le_add_left 255 (i + 1))
  | terminate i => exact settles_terminate hpc
  | resetPos =>
    apply Settles.of_advance
    rw [advance, hpc]
    exact settles_resetReady rfl
  | resetReady => exact settles_resetReady hpc
  | respond todo =>
    exact settles_respond (fun s' hpc' _ => settles_poll hpc') hpc rfl

theorem run_append (s : Shell) (es es' : List Event) :
    s.run (es ++ es') = (s.run es).bind (·.run es') := List.foldlM_append

theorem advance_entering (s : Shell) : s.advance.entering = s.entering := by
  unfold advance
  split <;> rfl

theorem run_turns {n : Nat} : ∀ {s : Shell}, s.entering = 0 →
    s.run (List.replicate n .run) = some (advance^[n] s) := by
  induction n with
  | zero => exact fun _ => rfl
  | succ n ih =>
    intro s hentering
    have hstep : s.step .run = some s.advance := if_pos hentering
    have hrest := ih (s.advance_entering.trans hentering)
    show (s.step .run).bind (·.run (List.replicate n .run)) = _
    rw [hstep]
    exact hrest

/-- The handlers go on, the last one first. -/
theorem run_ready {n : Nat} : ∀ {s : Shell}, s.entering = n →
    ∃ s', s.run (List.replicate n .ready) = some s' ∧ s'.entering = 0 := by
  induction n with
  | zero => exact fun {s} hentering => ⟨s, rfl, hentering⟩
  | succ n ih =>
    intro s hentering
    have hstep : s.step .ready = some { s with
        keyboard := { s.keyboard with lineReady := true }, entering := s.entering - 1 } :=
      if_pos (by omega)
    obtain ⟨s', hrest, hzero⟩ := ih (s := { s with
      keyboard := { s.keyboard with lineReady := true }, entering := s.entering - 1 })
      (by show s.entering - 1 = n; omega)
    refine ⟨s', ?_, hzero⟩
    show (s.step .ready).bind (·.run (List.replicate n .ready)) = _
    rw [hstep]
    exact hrest

end Shell

/-- **The shell catches up**, with output and commands that return. From wherever a run has got to,
the handlers return, and `kernel_main` comes back to polling with every line that has been entered
taken and answered. The handlers have to return first: `kernel_main` is below them on the stack. -/
theorem shell_catches_up (k : Keyboard) (buffer : Nat → UInt8) {es : List Event} {s : Shell}
    (hrun : (Shell.start k buffer).run es = some s) : ∃ n s' as t,
      s.run (List.replicate s.entering .ready ++ List.replicate n .run) = some s' ∧
      s'.pc = .poll ∧ s'.entering = 0 ∧
      ServesLines (es ++ (List.replicate s.entering .ready ++ List.replicate n .run)) s' as t ∧
      s'.trace.filter Output.isOwn = t.served.flatMap respond ∧
      List.Forall₂ (· <+: ·) t.served t.entered := by
  obtain ⟨s₁, hready, hzero⟩ := Shell.run_ready (s := s) rfl
  obtain ⟨n, hpc, hidle⟩ := s₁.settles
  have hturns := Shell.run_turns (n := n) hzero
  have hentering : (Shell.advance^[n] s₁).entering = 0 := by
    clear hpc hidle hturns
    induction n with
    | zero => exact hzero
    | succ n ih => rw [Function.iterate_succ_apply', Shell.advance_entering, ih]
  have hmore : s.run (List.replicate s.entering .ready ++ List.replicate n .run) =
      some (Shell.advance^[n] s₁) := by
    rw [Shell.run_append, hready]
    exact hturns
  have hall : (Shell.start k buffer).run
      (es ++ (List.replicate s.entering .ready ++ List.replicate n .run)) =
        some (Shell.advance^[n] s₁) := by
    rw [Shell.run_append, hrun]
    exact hmore
  obtain ⟨as, t, has, hact, h⟩ := (Refines.start k buffer).run hall
  have hserves := h.servesLines hact has
  refine ⟨n, _, as, t, hmore, hpc, hentering, hserves, ?_, ?_⟩
  · have hanswers := hserves.answers
    rwa [Shell.todo, hpc, List.append_nil] at hanswers
  · obtain ⟨taken, hentered, hprefix, _⟩ := hserves.lines
    have hkeeps := h.keeps
    -- `line_ready` is clear, so no line waits.
    have hwaiting : t.line.waiting = [] := by
      cases hline : t.line with
      | typing line => rfl
      | closed => rfl
      | entered line left =>
        rw [hline, Keeps, hidle] at hkeeps
        exact nomatch hkeeps.1
    rw [hwaiting, List.append_nil] at hentered
    rw [hentered]
    exact hprefix

theorem shell_catches_up_nested : ∃ s n s' as t,
    (Shell.start ⟨fun _ => 0, 0, false, []⟩ fun _ => 0).run nestedKey = some s ∧
      s.run (List.replicate s.entering .ready ++ List.replicate n .run) = some s' ∧
      s'.pc = .poll ∧ s'.trace.filter Output.isOwn = t.served.flatMap respond ∧
      ServesLines (nestedKey ++ (List.replicate s.entering .ready ++ List.replicate n .run))
        s' as t := by
  obtain ⟨s, hrun⟩ : ∃ s,
    (Shell.start ⟨fun _ => 0, 0, false, []⟩ fun _ => 0).run nestedKey = some s := ⟨_, rfl⟩
  obtain ⟨n, s', as, t, hmore, hpc, _, hserves, hanswers, _⟩ := shell_catches_up _ _ hrun
  exact ⟨s, n, s', as, t, hrun, hmore, hpc, hanswers, hserves⟩

end ScratchOs.Kernel
