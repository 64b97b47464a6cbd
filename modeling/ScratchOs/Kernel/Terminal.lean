import Mathlib.Data.List.Forall2
import ScratchOs.Kernel.Shell

/-!
# The terminal behind the shell

What the user is promised: a line is taken in one step, and each line that is taken is answered
once. `Serves` is what holds of all its runs.

A line has three phases, and the middle one is where the kernel differs from what one would write
down first. It has been entered and waits, keys are not added to it, and a backspace still takes a
character away. The terminal has this as it is: `left` is what is left of the line, and `late`
counts such backspaces, so that what is served can be compared with what was entered. Where `late`
is 0 the two are the same.

Nothing in this module is about `kernel_main`, or about interrupts. There are five actions: a key is
pressed, a line is entered, a line is taken, the terminal takes keys again, a piece of the answer is
put. Only the phase of the line says which of them can come next.

`take m` leaves open how much of the line is taken, between what the backspaces have left and all of
it. A backspace can come while `kernel_main` copies the line, behind the character it takes back or
before it, and the terminal has no notion of how far the copy is.
-/

set_option autoImplicit false

namespace ScratchOs.Kernel

open ScratchOs.Drivers ScratchOs.Libc

/-! ## The terminal -/

/-- A line is typed, or it has been entered and `left` of its characters have not been taken back
since, or it has been taken. -/
inductive Line
  | typing (line : List UInt8)
  | entered (line : List UInt8) (left : Nat)
  | closed

/-- With what is echoed. -/
def Line.press : Line → Key → Line × List UInt8
  | line, .enter => (line, [newline])
  | .typing line, .char c =>
    if line.length < 255 then (.typing (line ++ [c]), [c]) else (.typing line, [])
  | .typing line, .erase => (.typing line.dropLast, if line = [] then [] else [backspace])
  | .entered line left, .erase =>
    (.entered line (left - 1), if left = 0 then [] else [backspace])
  | line, _ => (line, [])

/-- `late` counts the backspaces that were obeyed on a line that had been entered. -/
structure Terminal where
  line : Line
  todo : List Output
  trace : List Output
  entered : List (List UInt8)
  served : List (List UInt8)
  late : Nat

inductive Action
  | key (scancode : UInt8)
  | ready
  | take (m : Nat)
  | reopen
  | put

namespace Terminal

def start : Terminal := ⟨.typing [], [], [], [], [], 0⟩

def isLate (line : Line) (key : Key) : Bool :=
  match line, key with
  | .entered _ left, .erase => left ≠ 0
  | _, _ => false

def step (t : Terminal) : Action → Option Terminal
  | .key scancode =>
    some { t with
      line := (t.line.press (keyOf scancode)).1
      trace := t.trace ++ (t.line.press (keyOf scancode)).2.map .echo
      late := if isLate t.line (keyOf scancode) then t.late + 1 else t.late }
  | .ready =>
    match t.line with
    | .typing line =>
      some { t with line := .entered line line.length, entered := t.entered ++ [line] }
    | _ => some t
  | .take m =>
    match t.line with
    | .entered line left =>
      if left ≤ m ∧ m ≤ line.length ∧ t.todo = [] then
        some { t with
          line := .closed
          served := t.served ++ [line.take m]
          todo := respond (line.take m) }
      else none
    | _ => none
  | .reopen =>
    match t.line with
    | .closed => some { t with line := .typing [] }
    | _ => none
  | .put =>
    match t.todo with
    | [] => none
    | o :: todo => some { t with trace := t.trace ++ [o], todo }

def run (t : Terminal) (as : List Action) : Option Terminal := as.foldlM step t

end Terminal

/-! ## What the terminal serves -/

theorem filter_echo (echo : List UInt8) : (echo.map Output.echo).filter Output.isOwn = [] := by
  rw [List.filter_eq_nil_iff]
  intro o ho
  obtain ⟨c, _, rfl⟩ := List.mem_map.mp ho
  exact Bool.false_ne_true

/-- The line that has been entered and not been taken yet. -/
def Line.waiting : Line → List (List UInt8)
  | .entered line _ => [line]
  | _ => []

/-- Keys do not enter a line, and do not take it. -/
theorem Line.press_waiting (line : Line) (key : Key) :
    (line.press key).1.waiting = line.waiting := by
  cases line with
  | closed => cases key <;> rfl
  | entered line left => cases key <;> rfl
  | typing line =>
    cases key with
    | char c =>
      rw [Line.press]
      split_ifs <;> rfl
    | _ => rfl

/-- After a key that leaves a line entered, it was entered before, and unless the key was a late
backspace as much of it is left. -/
theorem Line.press_entered {line : Line} {key : Key} {l : List UInt8} {left : Nat}
    (h : (line.press key).1 = .entered l left) : ∃ left', line = .entered l left' ∧
      left ≤ left' ∧ (Terminal.isLate line key = false → left = left') := by
  cases line with
  | closed => cases key <;> cases h
  | typing line =>
    cases key with
    | char c =>
      rw [Line.press] at h
      split_ifs at h
    | _ => cases h
  | entered line left' =>
    cases key with
    | erase =>
      cases h
      refine ⟨left', rfl, Nat.sub_le _ _, fun hlate => ?_⟩
      have hzero : left' = 0 := by simpa [Terminal.isLate] using hlate
      omega
    | _ =>
      cases h
      exact ⟨left, rfl, Nat.le_refl _, fun _ => rfl⟩

namespace Terminal

/-- The invariant of its runs. `late` counts the backspaces that came to a line that had been
entered: while there is none, what has been served is what was entered, and not only a prefix of
each line. -/
structure Serves (t : Terminal) : Prop where
  own : t.trace.filter Output.isOwn ++ t.todo = t.served.flatMap respond
  todo : ∀ o ∈ t.todo, o.isOwn = true
  lines : ∃ taken, t.entered = taken ++ t.line.waiting ∧
    List.Forall₂ (· <+: ·) t.served taken ∧ (t.late = 0 → t.served = taken)
  left : ∀ line left, t.line = .entered line left →
    left ≤ line.length ∧ (t.late = 0 → left = line.length)

variable {t t' : Terminal}

theorem start_serves : Serves start :=
  ⟨rfl, fun _ ho => (nomatch ho), ⟨[], rfl, .nil, fun _ => rfl⟩, fun _ _ h => (nomatch h)⟩

/-- A key leaves what has been entered and what has been served; only a late backspace loosens what
is known of the line that waits. -/
theorem Serves.key (h : t.Serves) (scancode : UInt8) (hstep : t.step (.key scancode) = some t') :
    t'.Serves := by
  obtain ⟨taken, hentered, hprefix, hexact⟩ := h.lines
  cases hstep
  have hlate : (if isLate t.line (keyOf scancode) then t.late + 1 else t.late) = 0 →
      t.late = 0 ∧ isLate t.line (keyOf scancode) = false := by
    split_ifs with hcase
    · exact False.elim
    · exact fun hzero => ⟨hzero, Bool.eq_false_of_not_eq_true hcase⟩
  refine ⟨?_, h.todo, ⟨taken, ?_, hprefix, fun hzero => hexact (hlate hzero).1⟩, ?_⟩
  · show (t.trace ++ _).filter Output.isOwn ++ t.todo = _
    rw [List.filter_append, filter_echo, List.append_nil, h.own]
  · rw [Line.press_waiting]
    exact hentered
  · intro line left hcase
    obtain ⟨left', hline, hle, hsame⟩ := Line.press_entered hcase
    obtain ⟨hbound, hall⟩ := h.left line left' hline
    refine ⟨Nat.le_trans hle hbound, fun hzero => ?_⟩
    rw [hsame (hlate hzero).2]
    exact hall (hlate hzero).1

/-- One case for each action. A line moves from `entered` to `served` where it is taken, and its
answer from `todo` to the trace one output at a time. -/
theorem Serves.step (h : t.Serves) {a : Action} (hstep : t.step a = some t') : t'.Serves := by
  cases a with
  | key scancode => exact h.key scancode hstep
  | ready =>
    rw [Terminal.step] at hstep
    split at hstep
    next line hline =>
      cases hstep
      obtain ⟨taken, hentered, hprefix, hexact⟩ := h.lines
      rw [hline] at hentered
      have hnow : t.entered ++ [line] = taken ++ [line] := by
        rw [hentered]
        exact congrArg (· ++ [line]) (List.append_nil taken)
      refine ⟨h.own, h.todo, ⟨taken, hnow, hprefix, hexact⟩, ?_⟩
      intro line' left hcase
      cases hcase
      exact ⟨Nat.le_refl _, fun _ => rfl⟩
    next =>
      cases hstep
      exact h
  | take m =>
    rw [Terminal.step] at hstep
    split at hstep
    next line left hline =>
      split_ifs at hstep with hcond
      cases hstep
      obtain ⟨hleft, hm, htodo⟩ := hcond
      obtain ⟨taken, hentered, hprefix, hexact⟩ := h.lines
      obtain ⟨_, hall⟩ := h.left line left hline
      have hown := h.own
      rw [htodo, List.append_nil] at hown
      refine ⟨?_, respond_own _, ⟨taken ++ [line], ?_, ?_, fun hzero => ?_⟩, fun _ _ h => nomatch h⟩
      · show t.trace.filter Output.isOwn ++ respond (line.take m) = _
        rw [hown, List.flatMap_append, List.flatMap_singleton]
      · rw [hentered, hline]
        exact (List.append_nil _).symm
      · exact List.rel_append hprefix (.cons (List.take_prefix m line) .nil)
      -- No backspace has come, so `m` characters are all of them.
      · show t.served ++ [line.take m] = _
        rw [hexact hzero, List.take_of_length_le (by have := hall hzero; omega)]
    next => cases hstep
  | reopen =>
    rw [Terminal.step] at hstep
    split at hstep
    next hline =>
      cases hstep
      obtain ⟨taken, hentered, hrest⟩ := h.lines
      rw [hline] at hentered
      exact ⟨h.own, h.todo, ⟨taken, hentered, hrest⟩, fun _ _ h => nomatch h⟩
    next => cases hstep
  | put =>
    rw [Terminal.step] at hstep
    split at hstep
    next => cases hstep
    next o todo htodo =>
      cases hstep
      have hown := h.own
      have hall := h.todo
      rw [htodo] at hown hall
      refine ⟨?_, fun o ho => hall o (List.mem_cons_of_mem _ ho), h.lines, h.left⟩
      show (t.trace ++ [o]).filter Output.isOwn ++ todo = _
      rw [List.filter_append, List.filter_cons_of_pos (hall o List.mem_cons_self),
        List.append_assoc]
      exact hown

theorem run_append (t : Terminal) (as as' : List Action) :
    t.run (as ++ as') = (t.run as).bind (·.run as') := List.foldlM_append

theorem Serves.run {as : List Action} : ∀ {t : Terminal}, t.Serves → t.run as = some t' →
    t'.Serves := by
  induction as with
  | nil =>
    intro t h hrun
    cases hrun
    exact h
  | cons a as ih =>
    intro t h hrun
    obtain ⟨t₁, hstep, hrun⟩ := Option.bind_eq_some_iff.mp hrun
    exact ih (h.step hstep) hrun

end Terminal

end ScratchOs.Kernel
