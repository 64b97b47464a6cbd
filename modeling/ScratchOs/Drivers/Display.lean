import ScratchOs.Drivers.Console
import ScratchOs.Drivers.Font
import ScratchOs.Drivers.Vbe
import ScratchOs.Libc.Printk

/-!
# What is on the screen

`console_put_char` once more, with what it draws. A pixel that `vbe_put_pixel` refuses is reported
with `LOG_ERROR`, which is `printk`, which is `console_put_char` again: the report begins where the
cursor still is.

`printing_returns` says when this ends, and `returns_iff_drawn` when it does not.

The recursion is bounded by a depth, the number of calls of `console_put_char` that there may be at
a time. A call that returns does so within some depth, and `Returns` says that there is one; to say
that a call does not return is to say it for every depth, and that is what is proved of the bad
case (`Display.bracket_hangs`), by induction on the depth. Nothing is concluded from a bound that
was too small.

The report is text, and its text matters: every report begins with the same bracket, so if that
bracket cannot be drawn where the cursor is, the report on it begins with the same bracket in the
same place. Where the bracket can be drawn, the cursor moves, and the rest of the report may come to
where nothing is refused. Both happen, on screens whose heights differ by one row.
-/

set_option autoImplicit false

namespace ScratchOs.Drivers

open ScratchOs.Bytes
open ScratchOs.Libc

/-- The statics of `console.cpp`, and the memory with the back buffer in it. -/
@[ext]
structure Display where
  console : Console
  mem : Mem

/-! ## The report -/

/-- `"[%s:%d] ERROR: %s\n"` -/
def logErrorFormat : List UInt8 :=
  [91, 37, 115, 58, 37, 100, 93, 32, 69, 82, 82, 79, 82, 58, 32, 37, 115, 10]

/-- `"vbe_put_pixel: addr out of bounds"` -/
def addrOutOfBounds : List UInt8 :=
  [118, 98, 101, 95, 112, 117, 116, 95, 112, 105, 120, 101, 108, 58, 32, 97, 100, 100, 114, 32,
   111, 117, 116, 32, 111, 102, 32, 98, 111, 117, 110, 100, 115]

theorem zero_not_mem_addrOutOfBounds : 0 ∉ addrOutOfBounds := by decide

/-- `LOG_ERROR("vbe_put_pixel: addr out of bounds")`, in line 30 of `file`. -/
def logError (file : CString) : List UInt8 :=
  (expand logErrorFormat
    [.str file, .int 30, .str ⟨addrOutOfBounds, zero_not_mem_addrOutOfBounds⟩]).getD []

/-! ## Drawing -/

section Draw

variable (v : Vbe) (report : Display → Option Display)

/-- `vbe_put_pixel`, and what it does about a pixel that it refuses. -/
def Display.putPixel (d : Display) (color : UInt32) (p : Pixel) : Option Display :=
  match vbePutPixel v d.mem p.1 p.2 color with
  | some mem => some { d with mem := mem }
  | none => report d

def Display.draw (d : Display) (color : UInt32) (ps : List Pixel) : Option Display :=
  ps.foldlM (fun d p => d.putPixel v report color p) d

/-- The first half of `console_put_char`. The cursor is read for what is drawn, and again for
where to go from there. -/
def Display.putGlyph (d : Display) (c : UInt8) : Option Display :=
  let s := d.console
  if 32 ≤ c ∧ c ≤ 126 then do
    let d ← d.draw v report s.cursorColor (glyphPixels c s.cursorX s.cursorY)
    some { d with console := { d.console with cursorX := d.console.cursorX + 8 } }
  else if c = 10 then
    some { d with console := { s with cursorX := consoleMargin, cursorY := s.cursorY + 10 } }
  else if c = 9 then some { d with console := { s with cursorX := s.cursorX + 32 } }
  else if c = 8 ∧ consoleMargin < s.cursorX then
    ({ d with console := { s with cursorX := s.cursorX - 8 } } : Display).draw v report s.bgColor
      (cellPixels (s.cursorX - 8) s.cursorY)
  else some d

/-- The second half: the end of a line, and of the screen. -/
def Display.endLine (d : Display) : Display :=
  let s := wrapLine d.console
  if s.screenUsableHeight ≤ s.cursorY then
    ⟨(consoleScroll s).1, vbeScrollUp v d.mem 1 s.bgColor⟩
  else ⟨s, d.mem⟩

end Draw

/-- `void console_put_char(char c)`, with no more than `depth` calls of it at a time. -/
def Display.putChar (v : Vbe) (file : CString) : Nat → Display → UInt8 → Option Display
  | 0, _, _ => none
  | depth + 1, d, c => do
    let d ← d.putGlyph v (fun d => (logError file).foldlM (Display.putChar v file depth) d) c
    some (d.endLine v)

/-- `console_put_char` returns: there are never more than so many calls of it at a time. -/
def Returns (v : Vbe) (file : CString) (d : Display) (c : UInt8) : Prop :=
  ∃ depth d', d.putChar v file depth c = some d'

/-! ## What is refused -/

/-- The console when a character is drawn: for a backspace the cursor has been taken back. -/
def drawingStart (s : Console) (c : UInt8) : Console :=
  if c = 8 ∧ consoleMargin < s.cursorX then { s with cursorX := s.cursorX - 8 } else s

/-- The pixels of a character, at the cursor. -/
def drawing (s : Console) (c : UInt8) : List Pixel :=
  if 32 ≤ c ∧ c ≤ 126 then glyphPixels c s.cursorX s.cursorY
  else if c = 8 ∧ consoleMargin < s.cursorX then cellPixels (s.cursorX - 8) s.cursorY
  else []

def drawingColor (s : Console) (c : UInt8) : UInt32 :=
  if 32 ≤ c ∧ c ≤ 126 then s.cursorColor else s.bgColor

/-- Where the cursor goes when a character has been drawn. -/
def advance (s : Console) (c : UInt8) : Console :=
  if 32 ≤ c ∧ c ≤ 126 then { s with cursorX := s.cursorX + 8 }
  else if c = 10 then { s with cursorX := consoleMargin, cursorY := s.cursorY + 10 }
  else if c = 9 then { s with cursorX := s.cursorX + 32 }
  else s

def lineEnd (s : Console) : Console :=
  let s := wrapLine s
  if s.screenUsableHeight ≤ s.cursorY then (consoleScroll s).1 else s

def Vbe.refused (v : Vbe) (ps : List Pixel) : List Pixel := ps.filter fun p => !v.accepts p.1 p.2

/-- Every pixel of the character is drawn. -/
def Drawn (v : Vbe) (s : Console) (c : UInt8) : Prop := v.refused (drawing s c) = []

instance (v : Vbe) (s : Console) (c : UInt8) : Decidable (Drawn v s c) :=
  inferInstanceAs (Decidable (_ = _))

/-- Every pixel of the text is drawn. -/
def TextDrawn (v : Vbe) : Console → List UInt8 → Prop
  | _, [] => True
  | s, c :: cs => Drawn v s c ∧ TextDrawn v (consolePutChar s c).1 cs

instance decidableTextDrawn (v : Vbe) : ∀ (s : Console) (cs : List UInt8),
    Decidable (TextDrawn v s cs)
  | _, [] => inferInstanceAs (Decidable True)
  | s, c :: cs =>
    have := decidableTextDrawn v (consolePutChar s c).1 cs
    inferInstanceAs (Decidable (_ ∧ _))

/-- The reports on a character, each printed where the one before has ended. -/
def reports (v : Vbe) (file : CString) (s : Console) (c : UInt8) : List UInt8 :=
  (List.replicate (v.refused (drawing s c)).length (logError file)).flatten

/-- Every pixel is drawn, of the character or else of the reports on it. -/
def ReportsDrawn (v : Vbe) (file : CString) (s : Console) (c : UInt8) : Prop :=
  TextDrawn v (drawingStart s c) (reports v file s c)

instance (v : Vbe) (file : CString) (s : Console) (c : UInt8) : Decidable (ReportsDrawn v file s c) :=
  inferInstanceAs (Decidable (TextDrawn ..))

/-- The console after a character and the reports on it. -/
def afterChar (v : Vbe) (file : CString) (s : Console) (c : UInt8) : Console :=
  lineEnd (advance ((drawingStart s c).putString (reports v file s c)) c)

/-- `ReportsDrawn` for every character, at the moment it is printed. -/
def TextReportsDrawn (v : Vbe) (file : CString) : Console → List UInt8 → Prop
  | _, [] => True
  | s, c :: cs => ReportsDrawn v file s c ∧ TextReportsDrawn v file (afterChar v file s c) cs

instance decidableTextReportsDrawn (v : Vbe) (file : CString) : ∀ (s : Console) (cs : List UInt8),
    Decidable (TextReportsDrawn v file s cs)
  | _, [] => inferInstanceAs (Decidable True)
  | s, c :: cs =>
    have := decidableTextReportsDrawn v file (afterChar v file s c) cs
    inferInstanceAs (Decidable (_ ∧ _))

theorem Console.putString_add (s : Console) (xs ys : List UInt8) :
    s.putString (xs ++ ys) = (s.putString xs).putString ys :=
  List.foldl_append

theorem Display.endLine_console (v : Vbe) (s : Console) (mem : Mem) :
    ((⟨s, mem⟩ : Display).endLine v).console = lineEnd s := by
  unfold Display.endLine lineEnd
  simp only
  split_ifs <;> rfl

theorem textDrawn_append (v : Vbe) : ∀ (s : Console) (xs ys : List UInt8),
    TextDrawn v s (xs ++ ys) ↔ TextDrawn v s xs ∧ TextDrawn v (s.putString xs) ys
  | _, [], _ => (iff_of_eq (true_and _)).symm
  | s, c :: xs, ys => by
    rw [List.cons_append, TextDrawn, TextDrawn, textDrawn_append v _ xs ys, and_assoc]
    rfl

theorem reports_drawn {v : Vbe} {file : CString} {s : Console} {c : UInt8} (h : Drawn v s c) :
    reports v file s c = [] := by
  rw [Drawn] at h
  rw [reports, h]
  rfl

theorem advance_drawingStart (s : Console) (c : UInt8) :
    advance (drawingStart s c) c = (putGlyph s c).1 := by
  unfold advance drawingStart putGlyph
  by_cases hback : c = 8 ∧ consoleMargin < s.cursorX
  · obtain ⟨rfl, hmargin⟩ := hback
    simp [hmargin]
  · rw [if_neg hback]
    split_ifs <;> rfl

/-- The console is the one of `consolePutChar`, where nothing is reported. -/
theorem lineEnd_advance (s : Console) (c : UInt8) :
    lineEnd (advance (drawingStart s c) c) = (consolePutChar s c).1 := by
  rw [advance_drawingStart]
  unfold lineEnd consolePutChar
  simp only
  split_ifs <;> rfl

theorem afterChar_drawn {v : Vbe} {file : CString} {s : Console} {c : UInt8} (h : Drawn v s c) :
    afterChar v file s c = (consolePutChar s c).1 := by
  rw [afterChar, reports_drawn h, ← lineEnd_advance]
  rfl

/-! ## One character -/

section PutChar

variable {v : Vbe} {file : CString} {report : Display → Option Display}

/-- A character is drawn between two moves of the cursor. -/
theorem Display.putGlyph_eq (s : Console) (mem : Mem) (c : UInt8) :
    (⟨s, mem⟩ : Display).putGlyph v report c =
      ((⟨drawingStart s c, mem⟩ : Display).draw v report (drawingColor s c) (drawing s c)).map
        fun d => { d with console := advance d.console c } := by
  unfold Display.putGlyph drawingStart drawing drawingColor advance
  by_cases hglyph : 32 ≤ c ∧ c ≤ 126
  · have hback : ¬ (c = 8 ∧ consoleMargin < s.cursorX) := by
      rintro ⟨rfl, _⟩
      exact absurd hglyph.1 (by decide)
    simp only [if_pos hglyph, if_neg hback]
    exact (Option.map_eq_bind ..).symm
  · simp only [if_neg hglyph]
    by_cases hback : c = 8 ∧ consoleMargin < s.cursorX
    · obtain ⟨rfl, hmargin⟩ := hback
      simp [hmargin]
    · simp only [if_neg hback]
      split_ifs <;> rfl

theorem Display.putPixel_accepted (s : Console) (mem : Mem) (color : UInt32) {p : Pixel}
    (h : v.accepts p.1 p.2 = true) :
    ∃ mem', (⟨s, mem⟩ : Display).putPixel v report color p = some ⟨s, mem'⟩ := by
  rw [Display.putPixel, vbePutPixel, if_pos h]
  exact ⟨_, rfl⟩

theorem Display.putPixel_refused {d : Display} {color : UInt32} {p : Pixel}
    (h : v.accepts p.1 p.2 = false) : d.putPixel v report color p = report d := by
  rw [Display.putPixel, vbePutPixel, if_neg (by rw [h]; decide)]

theorem Vbe.refused_cons_accepted {p : Pixel} {ps : List Pixel} (h : v.accepts p.1 p.2 = true) :
    v.refused (p :: ps) = v.refused ps :=
  List.filter_cons_of_neg (by rw [h]; decide)

theorem Vbe.refused_cons_refused {p : Pixel} {ps : List Pixel} (h : v.accepts p.1 p.2 = false) :
    v.refused (p :: ps) = p :: v.refused ps :=
  List.filter_cons_of_pos (by rw [h]; rfl)

/-- Every pixel that is refused moves the cursor by one report. -/
theorem Display.draw_reports {text : List UInt8} (color : UInt32) : ∀ {ps : List Pixel}
    {s : Console} (mem : Mem), (v.refused ps ≠ [] → ∀ s mem, TextDrawn v s text →
      ∃ mem', report ⟨s, mem⟩ = some ⟨s.putString text, mem'⟩) →
    TextDrawn v s (List.replicate (v.refused ps).length text).flatten →
    ∃ mem', (⟨s, mem⟩ : Display).draw v report color ps =
      some ⟨s.putString (List.replicate (v.refused ps).length text).flatten, mem'⟩ := by
  intro ps
  induction ps with
  | nil =>
    intro s mem _ _
    exact ⟨mem, rfl⟩
  | cons p ps ih =>
    intro s mem hreport hdrawn
    rw [Display.draw, List.foldlM_cons]
    cases haccepts : v.accepts p.1 p.2 with
    | true =>
      rw [Vbe.refused_cons_accepted haccepts] at hreport hdrawn ⊢
      obtain ⟨mem₁, hpixel⟩ : ∃ mem', (⟨s, mem⟩ : Display).putPixel v report color p =
          some ⟨s, mem'⟩ := Display.putPixel_accepted s mem color haccepts
      obtain ⟨mem₂, hrest⟩ := ih mem₁ hreport hdrawn
      exact ⟨mem₂, by rw [hpixel]; exact hrest⟩
    | false =>
      rw [Vbe.refused_cons_refused haccepts] at hreport hdrawn ⊢
      rw [List.length_cons, List.replicate_succ, List.flatten_cons] at hdrawn ⊢
      rw [textDrawn_append] at hdrawn
      have hreport := hreport (List.cons_ne_nil _ _)
      obtain ⟨mem₁, hpixel⟩ := hreport s mem hdrawn.1
      obtain ⟨mem₂, hrest⟩ := ih mem₁ (fun _ => hreport) hdrawn.2
      refine ⟨mem₂, ?_⟩
      rw [Display.putPixel_refused haccepts, hpixel, Console.putString_add]
      exact hrest

/-- A character returns when the reports on it do. -/
theorem Display.putChar_reports {s : Console} (mem : Mem) {c : UInt8} {depth : Nat}
    (hreport : ¬ Drawn v s c → ∀ s mem, TextDrawn v s (logError file) →
      ∃ mem', (logError file).foldlM (Display.putChar v file depth) ⟨s, mem⟩ =
        some ⟨s.putString (logError file), mem'⟩)
    (hdrawn : ReportsDrawn v file s c) :
    ∃ mem', (⟨s, mem⟩ : Display).putChar v file (depth + 1) c =
      some ⟨afterChar v file s c, mem'⟩ := by
  obtain ⟨mem', hdraw⟩ : ∃ mem', (⟨drawingStart s c, mem⟩ : Display).draw v
      (fun d => (logError file).foldlM (Display.putChar v file depth) d) (drawingColor s c)
      (drawing s c) = some ⟨(drawingStart s c).putString (reports v file s c), mem'⟩ := by
    apply Display.draw_reports _ mem
    · exact hreport
    · exact hdrawn
  rw [Display.putChar, Display.putGlyph_eq, hdraw]
  refine ⟨((⟨advance ((drawingStart s c).putString (reports v file s c)) c, mem'⟩ :
    Display).endLine v).mem, ?_⟩
  rw [afterChar, ← Display.endLine_console v _ mem']
  rfl

/-- A text that is drawn without a report. -/
theorem Display.putText_drawn {depth : Nat} {cs : List UInt8} : ∀ {s : Console} (mem : Mem),
    TextDrawn v s cs → ∃ mem', cs.foldlM (Display.putChar v file (depth + 1)) ⟨s, mem⟩ =
      some ⟨s.putString cs, mem'⟩ := by
  induction cs with
  | nil =>
    intro s mem _
    exact ⟨mem, rfl⟩
  | cons c cs ih =>
    intro s mem hdrawn
    obtain ⟨hc, hcs⟩ := hdrawn
    obtain ⟨mem₁, hchar⟩ : ∃ mem', (⟨s, mem⟩ : Display).putChar v file (depth + 1) c =
        some ⟨afterChar v file s c, mem'⟩ := by
      apply Display.putChar_reports mem
      · intro h
        exact absurd hc h
      · rw [ReportsDrawn, reports_drawn hc]
        trivial
    rw [afterChar_drawn hc] at hchar
    obtain ⟨mem₂, hrest⟩ := ih mem₁ hcs
    refine ⟨mem₂, ?_⟩
    rw [List.foldlM_cons, hchar]
    exact hrest

/-! ## Reports without end -/

/-- Every report begins with a bracket. -/
theorem logError_cons (file : CString) : ∃ rest, logError file = 91 :: rest := by
  refine ⟨file.val ++ 58 :: (int2String 30 ++ [93, 32, 69, 82, 82, 79, 82, 58, 32] ++
    addrOutOfBounds ++ [10]), ?_⟩
  simp [logError, logErrorFormat, expand, convert, percent]

/-- Up to the first pixel that is refused the cursor stays. -/
theorem Display.draw_hangs {s : Console} {color : UInt32} (hreport : ∀ mem, report ⟨s, mem⟩ = none) :
    ∀ {ps : List Pixel}, v.refused ps ≠ [] → ∀ mem,
      (⟨s, mem⟩ : Display).draw v report color ps = none := by
  intro ps
  induction ps with
  | nil =>
    intro h
    exact absurd rfl h
  | cons p ps ih =>
    intro h mem
    rw [Display.draw, List.foldlM_cons]
    cases haccepts : v.accepts p.1 p.2 with
    | true =>
      rw [Vbe.refused_cons_accepted haccepts] at h
      obtain ⟨mem₁, hpixel⟩ : ∃ mem', (⟨s, mem⟩ : Display).putPixel v report color p =
          some ⟨s, mem'⟩ := Display.putPixel_accepted s mem color haccepts
      rw [hpixel]
      exact ih h mem₁
    | false =>
      rw [Display.putPixel_refused haccepts, hreport]
      rfl

theorem Display.putChar_hangs_succ {s : Console} {c : UInt8} {depth : Nat} (hc : ¬ Drawn v s c)
    (hbracket : ∀ mem, (⟨drawingStart s c, mem⟩ : Display).putChar v file depth 91 = none)
    (mem : Mem) : (⟨s, mem⟩ : Display).putChar v file (depth + 1) c = none := by
  obtain ⟨rest, htext⟩ := logError_cons file
  rw [Display.putChar, Display.putGlyph_eq, Display.draw_hangs ?_ hc mem]
  · rfl
  · intro mem
    rw [htext, List.foldlM_cons, hbracket]
    rfl

/-- A bracket that is not drawn is reported where it stands. -/
theorem Display.bracket_hangs {s : Console} (h : ¬ Drawn v s 91) (depth : Nat) :
    ∀ mem, (⟨s, mem⟩ : Display).putChar v file depth 91 = none := by
  induction depth with
  | zero =>
    intro mem
    rfl
  | succ depth ih =>
    intro mem
    apply Display.putChar_hangs_succ h
    exact ih

theorem Display.putChar_hangs {s : Console} {c : UInt8} (hc : ¬ Drawn v s c)
    (hbracket : ¬ Drawn v (drawingStart s c) 91) (depth : Nat) (mem : Mem) :
    (⟨s, mem⟩ : Display).putChar v file depth c = none := by
  cases depth with
  | zero => rfl
  | succ depth =>
    apply Display.putChar_hangs_succ hc
    exact Display.bracket_hangs hbracket depth

/-- **Where no report can begin, a character returns only if there is none.** -/
theorem returns_iff_drawn {s : Console} {c : UInt8} (hbracket : ¬ Drawn v (drawingStart s c) 91)
    (mem : Mem) : Returns v file ⟨s, mem⟩ c ↔ Drawn v s c := by
  constructor
  · rintro ⟨depth, d', hreturn⟩
    by_contra hc
    rw [Display.putChar_hangs hc hbracket] at hreturn
    cases hreturn
  · intro hc
    obtain ⟨mem', htext⟩ : ∃ mem', [c].foldlM (Display.putChar v file 1) ⟨s, mem⟩ =
        some ⟨s.putString [c], mem'⟩ := Display.putText_drawn mem ⟨hc, trivial⟩
    exact ⟨1, _, by simpa using htext⟩

end PutChar

/-! ## Whole texts -/

/-- Every character of the text returns. -/
def TextReturns (v : Vbe) (file : CString) (d : Display) (cs : List UInt8) : Prop :=
  ∃ depth d', cs.foldlM (Display.putChar v file depth) d = some d'

theorem textReturns_of_reportsDrawn {v : Vbe} {file : CString} {cs : List UInt8} :
    ∀ {s : Console} (mem : Mem), TextReportsDrawn v file s cs →
      ∃ d', cs.foldlM (Display.putChar v file 2) ⟨s, mem⟩ = some d' := by
  induction cs with
  | nil =>
    intro s mem _
    exact ⟨_, rfl⟩
  | cons c cs ih =>
    intro s mem hdrawn
    obtain ⟨hc, hcs⟩ := hdrawn
    -- One call for the character, and one for each character of a report.
    obtain ⟨mem₁, hchar⟩ : ∃ mem', (⟨s, mem⟩ : Display).putChar v file 2 c =
        some ⟨afterChar v file s c, mem'⟩ := by
      apply Display.putChar_reports mem
      · intro _ s mem htext
        exact Display.putText_drawn mem htext
      · exact hc
    rw [List.foldlM_cons, hchar]
    exact ih mem₁ hcs

/-- **Printing returns**, on every screen, as long as every pixel is drawn, of a character or else
of the reports on it. -/
theorem printing_returns (info : Framebuffer) (buffer : UInt32) (file : CString) (mem : Mem)
    (cs : List UInt8)
    (hdrawn : TextReportsDrawn (Vbe.init info buffer) file (consoleInit ⟨info.width, info.height⟩) cs) :
    TextReturns (Vbe.init info buffer) file ⟨consoleInit ⟨info.width, info.height⟩, mem⟩ cs :=
  ⟨2, textReturns_of_reportsDrawn mem hdrawn⟩

/-- After a text that is drawn, a character on which no report can begin. -/
theorem not_textReturns_concat {v : Vbe} {file : CString} {s : Console} {cs : List UInt8} {c : UInt8}
    (hcs : TextDrawn v s cs) (hc : ¬ Drawn v (s.putString cs) c)
    (hbracket : ¬ Drawn v (drawingStart (s.putString cs) c) 91) (mem : Mem) :
    ¬ TextReturns v file ⟨s, mem⟩ (cs ++ [c]) := by
  rintro ⟨depth, d', hrun⟩
  cases depth with
  | zero =>
    cases cs with
    | nil => cases hrun
    | cons c cs => cases hrun
  | succ depth =>
    obtain ⟨mem', htext⟩ : ∃ mem', cs.foldlM (Display.putChar v file (depth + 1)) ⟨s, mem⟩ =
        some ⟨s.putString cs, mem'⟩ := Display.putText_drawn mem hcs
    have hchar := @Display.putChar_hangs v file _ c hc hbracket (depth + 1) mem'
    rw [List.foldlM_append, htext] at hrun
    obtain ⟨d, hd, _⟩ := Option.bind_eq_some_iff.mp (show [c].foldlM _ _ = some d' from hrun)
    rw [hchar] at hd
    cases hd

/-- `"drivers/display/vbe.cpp"` -/
def vbeFile : List UInt8 :=
  [100, 114, 105, 118, 101, 114, 115, 47, 100, 105, 115, 112, 108, 97, 121, 47, 118, 98, 101,
   46, 99, 112, 112]

theorem zero_not_mem_vbeFile : 0 ∉ vbeFile := by decide

/-- A screen of 63 rows, and a comma in row 56: its last row of pixels is reported twice. -/
theorem printing_returns_comma :
    TextReturns (Vbe.init ⟨256, 64, 63, 32⟩ 0xC0300000) ⟨vbeFile, zero_not_mem_vbeFile⟩
      ⟨consoleInit ⟨64, 63⟩, fun _ => 0⟩ (List.replicate 7 10 ++ [44]) :=
  printing_returns ⟨256, 64, 63, 32⟩ 0xC0300000 ⟨vbeFile, zero_not_mem_vbeFile⟩ (fun _ => 0)
    (List.replicate 7 10 ++ [44]) (by decide +kernel)

/-- A screen of 64 rows, and the `A` in row 58. The report on its last row of pixels begins with a
bracket that needs a report. -/
theorem printing_hangs :
    ¬ TextReturns (Vbe.init ⟨256, 64, 64, 32⟩ 0xC0300000) ⟨vbeFile, zero_not_mem_vbeFile⟩
      ⟨consoleInit ⟨64, 64⟩, fun _ => 0⟩ (List.replicate 8 10 ++ [65]) :=
  not_textReturns_concat (by decide) (by decide) (by decide) _

end ScratchOs.Drivers
