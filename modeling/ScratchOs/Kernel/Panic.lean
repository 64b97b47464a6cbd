import ScratchOs.Drivers.TextGrid
import ScratchOs.Libc.Strings

/-!
# Panics

`kernel/panic.cpp`, and `print` of `libc/string.cpp`, which is what it reports with. `cli` comes
first and a loop that nothing leads out of last, so that what is on the screen then stays there.

A panic is printed by the code that is left when the rest is not to be trusted, so the result is for
any state of the screen: any cursor, the one behind the last cell included, and any bytes. It begins
with clearing the screen, and the clearing is what makes this possible, since it sets the cursor to
the first cell before anything is printed.

What is assumed is about the texts. They have no control characters, and they end above the last
row, so that nothing scrolls; every message in the source is of that kind.
-/

set_option autoImplicit false

namespace ScratchOs.Kernel

open ScratchOs.Drivers ScratchOs.Libc

section

variable {σ : Type} [IoPorts σ]

/-- `void print(const char string[])` -/
def print (text : List UInt8) (s : TextScreen σ) : TextScreen σ :=
  printString (memoryOf text) (len (memoryOf text) (text.length + 1)) s

/-- `void panic(const char* message)` -/
def panic (message : CString) (s : TextScreen σ) : TextScreen σ :=
  let s := cleanScreen s
  let s := print (chars "PANIC: ") s
  let s := print message.val s
  print (chars "\n") s

/-- `void panic_at(uint32_t line, const char* file, const char* message)` -/
def panicAt (line : UInt32) (file message : CString) (s : TextScreen σ) : TextScreen σ :=
  let s := cleanScreen s
  let s := print (chars "PANIC AT: ") s
  let s := print file.val s
  let s := print (chars ":") s
  let s := print (int2String line.toInt32) s
  let s := print (chars "\n") s
  let s := print message.val s
  print (chars "\n") s

/-- `print` measures its string and prints as many characters, so it prints the string. -/
theorem print_eq {text : List UInt8} (hzero : 0 ∉ text) (s : TextScreen σ) :
    print text s = printChars text s := by
  have hlen : len (memoryOf text) (text.length + 1) = text.length := by
    rw [len, lenFrom_eq (stringAt_memoryOf hzero) (Nat.lt_succ_self _), Nat.zero_add]
  have htext : (List.range text.length).map (memoryOf text) = text := by
    apply List.ext_getElem
    · rw [List.length_map, List.length_range]
    · intro i _ hi
      rw [List.getElem_map, List.getElem_range, memoryOf, List.getD_eq_getElem _ _ hi]
  have hcall := printStrings_eq [(memoryOf text, (text.length : Int))] s
  rw [textOf, List.flatMap_singleton, Int.toNat_natCast, htext] at hcall
  rw [print, hlen]
  exact hcall

theorem printChars_append (text text' : List UInt8) (s : TextScreen σ) :
    printChars text' (printChars text s) = printChars (text ++ text') s := List.foldl_append.symm

end

/-- The string is one of the conversions of `printk`, of which it is known already. -/
theorem zero_not_mem_int2String (a : Int32) : 0 ∉ int2String a :=
  convert_no_nul (show (100 : UInt8) ≠ 0 by decide) (show convert 100 [.int a] = _ from rfl)

/-! ## The reports -/

/-- The first line of `panic_at`. -/
def headLine (line : UInt32) (file : CString) : List UInt8 :=
  chars "PANIC AT: " ++ file.val ++ chars ":" ++ int2String line.toInt32

theorem panic_eq {σ : Type} [IoPorts σ] (message : CString) (s : TextScreen σ) :
    panic message s = printChars (chars "PANIC: " ++ message.val ++ [10]) (cleanScreen s) := by
  rw [panic, print_eq (by decide), print_eq message.property, print_eq (by decide),
    printChars_append, printChars_append]
  rfl

theorem panicAt_eq {σ : Type} [IoPorts σ] (line : UInt32) (file message : CString)
    (s : TextScreen σ) : panicAt line file message s =
      printChars (headLine line file ++ 10 :: (message.val ++ [10])) (cleanScreen s) := by
  rw [panicAt, print_eq (by decide), print_eq message.property, print_eq (by decide),
    print_eq (zero_not_mem_int2String _), print_eq (by decide), print_eq file.property,
    print_eq (by decide), printChars_append, printChars_append, printChars_append,
    printChars_append, printChars_append, printChars_append]
  have hfeed : chars "\n" = [10] := by decide
  rw [hfeed, headLine]
  simp only [List.append_assoc, List.singleton_append]

/-! ## What is left on the screen -/

/-- The cell that the line after one of `n` characters begins in. -/
def rowBelow (n : Nat) : Nat := (n / 80 + 1) * 80

/-- A line, and what comes after it. -/
theorem textFits_line {text rest : List UInt8} : ∀ {cell : Nat}, Grid.Plain text →
    cell + text.length < 1920 → TextFits (rowBelow (cell + text.length)) rest →
      TextFits cell (text ++ 10 :: rest) := by
  induction text with
  | nil =>
    intro cell _ hroom hrest
    rw [List.length_nil] at hroom hrest
    exact ⟨⟨fun _ => hroom, fun h => absurd h (by decide), fun h => absurd rfl h⟩, hrest⟩
  | cons c text ih =>
    intro cell hplain hroom hrest
    obtain ⟨⟨hfeed, htab, hback⟩, hplain⟩ := List.forall_mem_cons.mp hplain
    have hnext : nextCell cell c = cell + 1 := by
      rw [nextCell, if_neg hfeed, if_neg htab, if_neg hback]
    rw [List.length_cons] at hroom hrest
    refine ⟨⟨fun h => absurd h hfeed, fun h => absurd h htab, fun _ _ _ => by omega⟩, ?_⟩
    rw [hnext]
    apply ih hplain (by omega)
    rwa [show cell + 1 + text.length = cell + (text.length + 1) by omega]

/-- A line of plain characters is written into the cells from the cursor on, and the rest begins in
the row below. -/
theorem puts_line {g : Grid} {text : List UInt8} (hplain : Grid.Plain text) (rest : List UInt8) :
    g.puts (text ++ 10 :: rest) =
      Grid.puts ⟨Grid.written g.cells g.cursor text, rowBelow (g.cursor + text.length)⟩ rest := by
  rw [Grid.puts_append, Grid.puts_plain hplain]
  show Grid.puts (Grid.put _ 10) rest = _
  rw [Grid.put_newline]
  rfl

/-- By induction on the fuel of the digit loop, the digits so far being plain. A negative number has
none, so a line from 2^31 on is not printed at all. -/
theorem plain_int2String (a : Int32) : Grid.Plain (int2String a) := by
  have hdigit (digit : Nat) (hdigit : digit < 10) :
      48 + UInt8.ofNat digit ≠ 10 ∧ 48 + UInt8.ofNat digit ≠ 9 ∧ 48 + UInt8.ofNat digit ≠ 8 := by
    revert digit
    decide
  have hloop : ∀ (fuel : Nat) (a : Int) {text : List UInt8}, Grid.Plain text →
      Grid.Plain (digitsFrom fuel a text) := by
    intro fuel
    induction fuel with
    | zero => exact fun _ _ h => h
    | succ fuel ih =>
      intro a text h
      rw [digitsFrom]
      split_ifs
      · exact ih _ (List.forall_mem_cons.mpr ⟨hdigit _ (by omega), h⟩)
      · exact h
  rw [int2String]
  split_ifs
  · exact (by decide : Grid.Plain [48])
  · exact hloop 10 a.toInt (List.forall_mem_nil _)

theorem plain_headLine (line : UInt32) {file : CString} (h : Grid.Plain file.val) :
    Grid.Plain (headLine line file) :=
  (((show Grid.Plain (chars "PANIC AT: ") by decide).append h).append
    (show Grid.Plain (chars ":") by decide)).append (plain_int2String _)

/-- **A panic can be read**, wherever the cursor was and whatever was on the screen: the report is
on it from the first cell on, in white on black, the rest of it is blank, and memory outside the
text buffer is as it was. The messages have no control characters, and fit above the last row.

`clean_screen` comes first and leaves a grid of blanks with the cursor home, so nothing of what was
there before, a cursor behind the last cell included, plays a part. -/
theorem panic_readable (before : Int → UInt8) {s : TextScreen Vga} (hs : s.stores = []) :
    (∀ message : CString, Grid.Plain message.val → message.val.length < 1913 →
      ShowsGrid before (panic message s)
        ⟨Grid.written Grid.blank.cells 0 (chars "PANIC: " ++ message.val),
          rowBelow (7 + message.val.length)⟩) ∧
    ∀ (line : UInt32) (file message : CString), Grid.Plain file.val → Grid.Plain message.val →
      (headLine line file).length < 1920 →
      rowBelow (headLine line file).length + message.val.length < 1920 →
        ShowsGrid before (panicAt line file message s)
          ⟨Grid.written (Grid.written Grid.blank.cells 0 (headLine line file))
              (rowBelow (headLine line file).length) message.val,
            rowBelow (rowBelow (headLine line file).length + message.val.length)⟩ := by
  have hclean := cleanScreen_shows before hs
  have hhome : Grid.blank.cursor < 2000 := by decide
  constructor
  · intro message hmessage hlen
    have hplain : Grid.Plain (chars "PANIC: " ++ message.val) :=
      (show Grid.Plain (chars "PANIC: ") by decide).append hmessage
    -- One line from the first cell on.
    have htotal : (chars "PANIC: " ++ message.val).length = 7 + message.val.length :=
      List.length_append
    obtain ⟨hshows, _⟩ := printChars_shows (chars "PANIC: " ++ message.val ++ [10]) hclean
      hhome (textFits_line hplain (by rw [htotal]; show 0 + _ < _; omega) trivial)
    rw [puts_line hplain, htotal, ← panic_eq, show Grid.blank.cursor = 0 from rfl,
      Nat.zero_add] at hshows
    exact hshows
  · intro line file message hfile hmessage hhead hroom
    have hplain := plain_headLine line hfile
    -- The message has a line of its own, below as many rows as the head takes.
    have hrow : rowBelow (Grid.blank.cursor + (headLine line file).length) =
        rowBelow (headLine line file).length := congrArg rowBelow (Nat.zero_add _)
    obtain ⟨hshows, _⟩ := printChars_shows
      (headLine line file ++ 10 :: (message.val ++ [10])) hclean hhome
      (textFits_line hplain (by show 0 + _ < _; omega) (by
        rw [hrow]
        exact textFits_line hmessage hroom trivial))
    rw [puts_line hplain, puts_line hmessage, ← panicAt_eq, hrow] at hshows
    exact hshows

/-- With the cursor in the last cell, where one more character would be stored behind the buffer. -/
theorem panic_readable_last_cell :
    ShowsGrid (fun _ => 0x41) (panic ⟨chars "mb_info is null", by decide⟩ ⟨⟨0x0F, 7, 207⟩, []⟩)
      ⟨Grid.written Grid.blank.cells 0 (chars "PANIC: " ++ chars "mb_info is null"),
        rowBelow (7 + (chars "mb_info is null").length)⟩ :=
  (panic_readable (fun _ => 0x41) rfl).1 _ (by decide) (by decide)

end ScratchOs.Kernel
