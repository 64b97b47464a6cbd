import ScratchOs.Drivers.Keyboard
import ScratchOs.Libc.Strcmp
import ScratchOs.Libc.Strings

/-!
# The shell

The loop of `kernel_main`, with `get_input_buffer` taken apart: the keyboard's interrupts come
between any two statements of either. They come inside `keyboard_handler` too, since
`console_put_char` enables them before it returns, so that the handler of Enter is in two halves:
`line_ready = true` is behind its newline, and other keys are handled in between.

`commands_eq` says what a line is answered with. `vbe_swap_buffer`, which puts nothing on the
console, is left out.

## Output returns

The shell is taken at the level of its calls. A character it prints is one step (`Output.put`), a
function it calls is one step, and a key's echo is part of the step in which the key is handled;
each of these steps has an end. Of the code that is an assumption. `console_put_char` does not
return on every screen, for one thing (`Drivers.printing_hangs`: where the console's last line is
cut off by the end of the back buffer, a report about the pixels of a letter has pixels to be
reported itself), and what `clean_screen`, `print_memory_map` or the heap's listing do is not looked
at here at all.

For what the shell answers and in which order the assumption is harmless: a run in which something
does not return is, up to there, a run of this module. For what it comes back to it is not, and
`shell_catches_up` is to be read with it.
-/

set_option autoImplicit false

namespace ScratchOs.Kernel

open ScratchOs.Drivers ScratchOs.Libc

/-! ## What the loop does -/

/-- What can be seen: characters that the keyboard echoes, characters that `kernel_main` prints,
and the functions it calls. `time` is `clock_get_date_time` and the `printk` behind it. -/
inductive Output
  | echo (c : UInt8)
  | put (c : UInt8)
  | cleanScreen
  | printMemoryMap
  | runLibcTests
  | time
  | printHeapInfo
deriving DecidableEq

def Output.isOwn : Output → Bool
  | .echo _ => false
  | _ => true

/-- A call of `printk`. There are as many rounds as the format has characters. -/
def printkPuts (format : List UInt8) (args : List Arg) : List Output :=
  match printk (memoryOf format) (format.length + 1) args with
  | some st => st.out.map .put
  | none => []

/-- `strcmp(buffer, (char*)"...") == 0`. The buffer has 256 bytes. -/
def isCommand (buffer : Nat → UInt8) (name : String) : Bool :=
  (strcmp buffer (memoryOf (chars name)) 256).map Prod.fst = some 0

/-- The body of `if (get_input_buffer(buffer, 256))` -/
def commands (buffer : Nat → UInt8) : List Output :=
  (if isCommand buffer "help" then
    printkPuts (chars "Available commands:\n") [] ++
    printkPuts (chars "  help  - Show this help\n") [] ++
    printkPuts (chars "  clear - Clear screen\n") [] ++
    printkPuts (chars "  mem   - Show memory map\n") [] ++
    printkPuts (chars "  test  - Run libc tests\n") [] ++
    printkPuts (chars "  time  - display the time\n") [] ++
    printkPuts (chars "  heap  - display the heap\n") []
  else if isCommand buffer "clear" then [.cleanScreen]
  else if isCommand buffer "mem" then [.printMemoryMap]
  else if isCommand buffer "test" then [.runLibcTests]
  else if isCommand buffer "time" then [.time]
  else if isCommand buffer "heap" then [.printHeapInfo]
  else if 0 < len buffer 256 then
    printkPuts (chars "Unknown command: %s\n")
      [.str ⟨textFrom buffer 256 0, zero_not_mem_textFrom buffer 256 0⟩]
  else []) ++ printkPuts (chars "os > ") []

/-- The next statement of `kernel_main`, or of `get_input_buffer`. -/
inductive Pc
  | poll
  | test (i : Nat)
  | store (i : Nat)
  | terminate (i : Nat)
  | resetPos
  | resetReady
  | respond (todo : List Output)

/-- `keyboard_handler`, as far as `console_put_char` takes it, and what that puts. -/
def handlerPut (k : Keyboard) (scancode : UInt8) : Keyboard × List UInt8 :=
  if scancode &&& 0x80 = 0 then
    let ascii := scancodeToAscii scancode
    if ascii = newline then (k, [newline])
    else if ascii = backspace then
      if 0 < k.bufferPos then ({ k with bufferPos := k.bufferPos - 1 }, [backspace])
      else (k, [])
    else if ascii ≠ 0 then
      if k.bufferPos < 255 ∧ k.lineReady = false then
        ({ k with
          keyBuffer := Function.update k.keyBuffer k.bufferPos ascii
          bufferPos := k.bufferPos + 1 }, [ascii])
      else (k, [])
    else (k, [])
  else (k, [])

/-- `entering` handlers have put their newline and have still to set `line_ready`. -/
structure Shell where
  keyboard : Keyboard
  entering : Nat
  buffer : Nat → UInt8
  pc : Pc
  trace : List Output

/-- A key comes, a handler goes on behind its newline, or `kernel_main` goes on, which it does not
before every handler has returned. -/
inductive Event
  | key (scancode : UInt8)
  | ready
  | run
deriving DecidableEq

namespace Shell

/-- One statement of `kernel_main` or `get_input_buffer`. In `respond` it is a whole call, of
`console_put_char` or of a command's function, and one that returns. -/
def advance (s : Shell) : Shell :=
  match s.pc with
  | .poll => { s with pc := if s.keyboard.lineReady then .test 0 else .poll }
  | .test i =>
    { s with pc := if i < s.keyboard.bufferPos ∧ (i : Int) < 256 - 1 then .store i else .terminate i }
  | .store i =>
    { s with buffer := Function.update s.buffer i (s.keyboard.keyBuffer i), pc := .test (i + 1) }
  | .terminate i => { s with buffer := Function.update s.buffer i 0, pc := .resetPos }
  | .resetPos => { s with keyboard := { s.keyboard with bufferPos := 0 }, pc := .resetReady }
  | .resetReady =>
    { s with keyboard := { s.keyboard with lineReady := false }, pc := .respond (commands s.buffer) }
  | .respond [] => { s with pc := .poll }
  | .respond (o :: todo) => { s with trace := s.trace ++ [o], pc := .respond todo }

def step (s : Shell) : Event → Option Shell
  | .key scancode =>
    some { s with
      keyboard := (handlerPut s.keyboard scancode).1
      entering := if keyOf scancode = .enter then s.entering + 1 else s.entering
      trace := s.trace ++ (handlerPut s.keyboard scancode).2.map .echo }
  | .ready =>
    if 0 < s.entering then
      some { s with keyboard := { s.keyboard with lineReady := true }, entering := s.entering - 1 }
    else none
  | .run => if s.entering = 0 then some s.advance else none

def run (s : Shell) (es : List Event) : Option Shell := es.foldlM step s

/-- `init_keyboard` has been called, and what is in the buffers does not matter. -/
def start (k : Keyboard) (buffer : Nat → UInt8) : Shell :=
  ⟨initKeyboard k, 0, buffer, .poll, []⟩

/-- What the line that has been taken is still to be answered with. -/
def todo (s : Shell) : List Output :=
  match s.pc with
  | .resetReady => commands s.buffer
  | .respond todo => todo
  | _ => []

end Shell

/-! ## The commands answer the line -/

def helpText : List UInt8 :=
  chars "Available commands:\n" ++ chars "  help  - Show this help\n" ++
    chars "  clear - Clear screen\n" ++ chars "  mem   - Show memory map\n" ++
    chars "  test  - Run libc tests\n" ++ chars "  time  - display the time\n" ++
    chars "  heap  - display the heap\n"

/-- What a line is answered with, the prompt behind it. -/
def respond (line : List UInt8) : List Output :=
  (if line = chars "help" then helpText.map .put
  else if line = chars "clear" then [.cleanScreen]
  else if line = chars "mem" then [.printMemoryMap]
  else if line = chars "test" then [.runLibcTests]
  else if line = chars "time" then [.time]
  else if line = chars "heap" then [.printHeapInfo]
  else if line ≠ [] then (chars "Unknown command: " ++ line ++ chars "\n").map .put
  else []) ++ (chars "os > ").map .put

theorem printkPuts_eq {format text : List UInt8} {args : List Arg} (hzero : 0 ∉ format)
    (hlone : loneEnd format = false) (htext : expand format args = some text) :
    printkPuts format args = text.map .put := by
  obtain ⟨st, hrun, hout, _⟩ := @printkLoop_expand _ format _ 0 args [] text []
    (Nat.lt_succ_self _) (stringAt_memoryOf hzero) htext hlone
  rw [List.nil_append] at hout
  rw [printkPuts, printk, hrun, ← hout]

/-- Without a conversion the text is printed as it is. -/
theorem printkPuts_text (text : List UInt8) (hzero : 0 ∉ text) (hpercent : percent ∉ text) :
    printkPuts text [] = text.map .put := by
  have hlone := loneEnd_append hpercent []
  have hexpand := expand_append hpercent [] []
  rw [List.append_nil] at hlone hexpand
  have htext := printkPuts_eq hzero hlone hexpand
  simp only [List.append_nil] at htext
  exact htext

/-- The one format with a conversion. `%s` takes the line as it is, percent signs included. -/
theorem printkPuts_unknown (line : CString) :
    printkPuts (chars "Unknown command: %s\n") [.str line] =
      (chars "Unknown command: " ++ line.val ++ chars "\n").map .put := by
  have hformat : chars "Unknown command: %s\n" =
      chars "Unknown command: " ++ (percent :: 115 :: chars "\n") := by decide
  have hrest : expand (percent :: 115 :: chars "\n") [.str line] =
      some (line.val ++ chars "\n") := rfl
  have hexpand := expand_append (show percent ∉ chars "Unknown command: " by decide)
    (percent :: 115 :: chars "\n") [.str line]
  rw [hrest, Option.map_some, ← List.append_assoc, ← hformat] at hexpand
  refine printkPuts_eq (by decide) ?_ hexpand
  rw [hformat, loneEnd_append (by decide), loneEnd_percent, chars]
  exact loneEnd_lit (by decide) []

section

variable {buffer : Nat → UInt8} {line : List UInt8} (hline : StringAt buffer 0 line)
  (hlen : line.length ≤ 255)

include hline hlen

/-- A comparison of the chain in `kernel_main`. A line of 255 characters at most is compared to its
end, since `strcmp` stops at the first NUL. -/
theorem isCommand_eq {name : String} (hname : 0 ∉ chars name) :
    isCommand buffer name = decide (line = chars name) := by
  obtain ⟨v, ⟨st, hrun, _⟩, horders⟩ := strcmp_compares hline (stringAt_memoryOf hname)
  rw [isCommand, hrun 256 (by omega), Option.map_some, decide_eq_decide, ← horders.equal]
  exact Option.some_inj

/-- `strcmp` tells the commands apart, and `%s` prints the line. -/
theorem commands_eq : commands buffer = respond line := by
  rw [commands, respond, isCommand_eq hline hlen (by decide),
    isCommand_eq hline hlen (by decide), isCommand_eq hline hlen (by decide),
    isCommand_eq hline hlen (by decide), isCommand_eq hline hlen (by decide),
    isCommand_eq hline hlen (by decide), len, lenFrom_eq hline (by omega), Nat.zero_add,
    printkPuts_text (chars "os > ") (by decide) (by decide), printkPuts_unknown,
    printkPuts_text (chars "Available commands:\n") (by decide) (by decide),
    printkPuts_text (chars "  help  - Show this help\n") (by decide) (by decide),
    printkPuts_text (chars "  clear - Clear screen\n") (by decide) (by decide),
    printkPuts_text (chars "  mem   - Show memory map\n") (by decide) (by decide),
    printkPuts_text (chars "  test  - Run libc tests\n") (by decide) (by decide),
    printkPuts_text (chars "  time  - display the time\n") (by decide) (by decide),
    printkPuts_text (chars "  heap  - display the heap\n") (by decide) (by decide)]
  simp only [decide_eq_true_eq, List.length_pos_iff, helpText, List.map_append,
    textFrom_eq hline (Nat.lt_succ_of_le hlen)]

end

/-- Nothing that answers a line is an echo. -/
theorem respond_own (line : List UInt8) : ∀ o ∈ respond line, o.isOwn = true := by
  have hput (text : List UInt8) : ∀ o ∈ text.map Output.put, o.isOwn = true := by
    intro o ho
    obtain ⟨c, _, rfl⟩ := List.mem_map.mp ho
    rfl
  have hcall {o o' : Output} (hown : o'.isOwn = true) (ho : o ∈ [o']) : o.isOwn = true := by
    rw [List.mem_singleton.mp ho]
    exact hown
  intro o ho
  rcases List.mem_append.mp ho with ho | ho
  · split_ifs at ho
    · exact hput _ o ho
    · exact hcall rfl ho
    · exact hcall rfl ho
    · exact hcall rfl ho
    · exact hcall rfl ho
    · exact hcall rfl ho
    · exact hput _ o ho
    · cases ho
  · exact hput _ o ho

end ScratchOs.Kernel
