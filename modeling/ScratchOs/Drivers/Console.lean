import Mathlib.Data.List.Basic
import Mathlib.Data.UInt

/-!
# The console

`drivers/display/console.cpp`. The cursor is the corner of an 8 by 8 cell. A line feed moves it
down by 10 pixels, and scrolling, once for each character, takes it back up by 8.

The arithmetic is that of 32 bits throughout, and `consoleStays_iff` says for which strings the
cell stays on the screen.

The two numbers, 10 down and 8 back, are the reason that there is a condition at all. A line feed in
the last line moves the cell over the edge by up to ten pixels, the scroll takes back eight, and the
next line feed is two pixels further down than the one before. Where that comes out of the screen
depends on the height, so the condition is on each character and the state it comes to, and the
strings are those along which it holds (`Fits`).

Drawing is a list of requests here (`Draw`), not stores. What is asked of `font.cpp` and `vbe.cpp`
is a matter of the cursor alone, and whether it can be drawn is for `Display`, which has the pixels.
-/

set_option autoImplicit false

namespace ScratchOs.Drivers

def consoleMargin : UInt32 := 10

/-- What the console reads of the multiboot information: the size of the screen in pixels. -/
structure Screen where
  width : UInt32
  height : UInt32

/-- What `console_put_char` asks of `font.cpp` and `vbe.cpp`. -/
inductive Draw
  | drawChar (x y color : UInt32) (c : UInt8)
  | eraseChar (x y color : UInt32)
  | scrollUp (lines color : UInt32)
deriving DecidableEq

structure Console where
  cursorX : UInt32
  cursorY : UInt32
  cursorColor : UInt32
  bgColor : UInt32
  screenUsableHeight : UInt32
  screenUsableWidth : UInt32
deriving DecidableEq

def vbeRgb (r g b : UInt8) : UInt32 :=
  (r.toUInt32 <<< 16) ||| (g.toUInt32 <<< 8) ||| b.toUInt32

/-- `void console_init(multiboot_info_t* mb_info)`, after `vbe_init`. -/
def consoleInit (screen : Screen) : Console where
  cursorX := consoleMargin
  cursorY := consoleMargin
  cursorColor := vbeRgb 255 255 255
  bgColor := vbeRgb 0 0 0
  screenUsableHeight := screen.height - consoleMargin
  screenUsableWidth := screen.width - consoleMargin

/-- `void console_scroll()` -/
def consoleScroll (s : Console) : Console × List Draw :=
  ({ s with cursorY := s.cursorY - 8 }, [.scrollUp 1 s.bgColor])

/-- The first half of `console_put_char`: the character itself. -/
def putGlyph (s : Console) (c : UInt8) : Console × List Draw :=
  if 32 ≤ c ∧ c ≤ 126 then
    ({ s with cursorX := s.cursorX + 8 }, [.drawChar s.cursorX s.cursorY s.cursorColor c])
  else if c = 10 then
    ({ s with cursorX := consoleMargin, cursorY := s.cursorY + 10 }, [])
  else if c = 9 then ({ s with cursorX := s.cursorX + 32 }, [])
  else if c = 8 ∧ consoleMargin < s.cursorX then
    ({ s with cursorX := s.cursorX - 8 }, [.eraseChar (s.cursorX - 8) s.cursorY s.bgColor])
  else (s, [])

/-- The end of a line. -/
def wrapLine (s : Console) : Console :=
  if s.screenUsableWidth ≤ s.cursorX then
    { s with cursorX := consoleMargin, cursorY := s.cursorY + 10 }
  else s

/-- `void console_put_char(char c)`, and what it draws. The four tests of `c` exclude each
other. -/
def consolePutChar (s : Console) (c : UInt8) : Console × List Draw :=
  let (s, drawn) := putGlyph s c
  let s := wrapLine s
  if s.screenUsableHeight ≤ s.cursorY then
    let (s, scrolled) := consoleScroll s
    (s, drawn ++ scrolled)
  else (s, drawn)

def Console.putString (s : Console) (cs : List UInt8) : Console :=
  cs.foldl (fun s c => (consolePutChar s c).1) s

/-! ## The cell at the cursor -/

/-- The 8 by 8 pixels something is drawn to. -/
def Draw.Inside (screen : Screen) : Draw → Prop
  | .drawChar x y _ _ => x.toNat + 8 ≤ screen.width.toNat ∧ y.toNat + 8 ≤ screen.height.toNat
  | .eraseChar x y _ => x.toNat + 8 ≤ screen.width.toNat ∧ y.toNat + 8 ≤ screen.height.toNat
  | .scrollUp _ _ => True

structure OnScreen (screen : Screen) (s : Console) : Prop where
  margin : consoleMargin ≤ s.cursorX
  right : s.cursorX.toNat + 8 ≤ screen.width.toNat
  bottom : s.cursorY.toNat + 8 ≤ screen.height.toNat
  drawn : ∀ c, ∀ draw ∈ (consolePutChar s c).2, draw.Inside screen

/-- The character takes the cursor to the next line. -/
def BreaksLine (s : Console) (c : UInt8) : Prop :=
  c = 10 ∨ (32 ≤ c ∧ c ≤ 126) ∧ s.screenUsableWidth ≤ s.cursorX + 8 ∨
    c = 9 ∧ s.screenUsableWidth ≤ s.cursorX + 32

/-- There is room for the character: ten more pixels below the cursor's line when it ends, and
a tab that does not wrap round to the left of the margin. -/
structure Fits (screen : Screen) (s : Console) (c : UInt8) : Prop where
  line : BreaksLine s c → s.cursorY + 10 ≤ screen.height
  tab : c = 9 → consoleMargin ≤ s.cursorX + 32

/-- What every call keeps, where there is room. -/
structure Steady (screen : Screen) (s : Console) : Prop where
  height : s.screenUsableHeight = screen.height - consoleMargin
  width : s.screenUsableWidth = screen.width - consoleMargin
  margin : 10 ≤ s.cursorX.toNat
  right : s.cursorX.toNat < s.screenUsableWidth.toNat
  column : s.cursorX.toNat % 8 = 2
  bottom : s.cursorY.toNat + 8 ≤ screen.height.toNat

section Step

variable {screen : Screen} {s : Console}

theorem usable_toNat {n : UInt32} (h : 64 ≤ n.toNat) :
    (n - consoleMargin).toNat = n.toNat - 10 := by
  have hle : consoleMargin ≤ n := by
    rw [UInt32.le_iff_toNat_le]
    exact Nat.le_trans (by decide) h
  rw [UInt32.toNat_sub_of_le _ _ hle]
  rfl

theorem putGlyph_usable (s : Console) (c : UInt8) :
    (putGlyph s c).1.screenUsableHeight = s.screenUsableHeight ∧
      (putGlyph s c).1.screenUsableWidth = s.screenUsableWidth := by
  unfold putGlyph
  split_ifs <;> exact ⟨rfl, rfl⟩

theorem wrapLine_usable (s : Console) :
    (wrapLine s).screenUsableHeight = s.screenUsableHeight := by
  unfold wrapLine
  split_ifs <;> rfl

theorem putGlyph_y (s : Console) (c : UInt8) :
    (putGlyph s c).1.cursorY = if c = 10 then s.cursorY + 10 else s.cursorY := by
  unfold putGlyph
  split_ifs with h₁ h₂
  · rw [h₂] at h₁
    exact absurd h₁.1 (by decide)
  all_goals rfl

theorem Steady.usable_ge (h : Steady screen s) (hw : 64 ≤ screen.width.toNat) :
    54 ≤ s.screenUsableWidth.toNat := by
  rw [h.width, usable_toNat hw]
  omega

/-- The characters, one by one: where the cell is, and whether the line ends. -/
theorem Steady.glyph (h : Steady screen s) (hw : 64 ≤ screen.width.toNat) (c : UInt8) :
    (BreaksLine s c ↔ c = 10 ∨ s.screenUsableWidth ≤ (putGlyph s c).1.cursorX) ∧
      ¬ (c = 10 ∧ s.screenUsableWidth ≤ (putGlyph s c).1.cursorX) ∧
      (putGlyph s c).1.cursorX.toNat % 8 = 2 ∧
      ((c = 9 → consoleMargin ≤ s.cursorX + 32) ↔ 10 ≤ (putGlyph s c).1.cursorX.toNat) := by
  have husable := h.usable_ge hw
  have hwidth : s.screenUsableWidth.toNat + 10 < 4294967296 := by
    rw [h.width, usable_toNat hw]
    have := screen.width.toNat_lt
    omega
  have hright := h.right
  have hmargin := h.margin
  have hcolumn := h.column
  have hleft : (s.cursorX - 8).toNat = s.cursorX.toNat - 8 :=
    UInt32.toNat_sub_of_le _ _ (UInt32.le_iff_toNat_le.mpr (Nat.le_trans (by decide) hmargin))
  unfold BreaksLine putGlyph consoleMargin
  simp only [UInt32.le_iff_toNat_le, UInt32.lt_iff_toNat_lt, UInt8.le_iff_toNat_le,
    ← UInt8.toNat_inj, UInt32.toNat_add]
  -- A glyph, a line feed, a tab, a backspace, and whatever else there is.
  split_ifs with hglyph hfeed htab hback
  · simp at *
    omega
  · simp at *
    omega
  · simp at *
    omega
  · simp at *
    omega
  · simp at *
    omega

theorem consolePutChar_x (s : Console) (c : UInt8) :
    (consolePutChar s c).1.cursorX = (wrapLine (putGlyph s c).1).cursorX := by
  unfold consolePutChar
  simp only
  split_ifs <;> rfl

theorem consolePutChar_usable (s : Console) (c : UInt8) :
    (consolePutChar s c).1.screenUsableHeight = s.screenUsableHeight ∧
      (consolePutChar s c).1.screenUsableWidth = s.screenUsableWidth := by
  have h := putGlyph_usable s c
  unfold consolePutChar wrapLine consoleScroll
  simp only
  split_ifs <;> exact h

/-- Where the line of the cursor is after a character. -/
theorem Steady.nextLine (h : Steady screen s) (hw : 64 ≤ screen.width.toNat) (c : UInt8)
    [Decidable (BreaksLine s c)] {y : UInt32}
    (hy : y = if BreaksLine s c then s.cursorY + 10 else s.cursorY) :
    (consolePutChar s c).1.cursorY = if s.screenUsableHeight ≤ y then y - 8 else y := by
  obtain ⟨hbreak, hone, _⟩ := h.glyph hw c
  have hwrap : (wrapLine (putGlyph s c).1).cursorY = y := by
    rw [hy, wrapLine, (putGlyph_usable s c).2]
    split_ifs with hend hline hline
    · rw [putGlyph_y, if_neg fun hc => hone ⟨hc, hend⟩]
    · exact absurd (hbreak.mpr (Or.inr hend)) hline
    · rw [putGlyph_y, if_pos ((hbreak.mp hline).resolve_right hend)]
    · rw [putGlyph_y, if_neg fun hc => hline (Or.inl hc)]
  rw [← hwrap, ← (putGlyph_usable s c).1, ← wrapLine_usable]
  unfold consolePutChar
  simp only
  split_ifs <;> rfl

/-- A line below the usable part of the screen is scrolled back by 8 pixels. -/
theorem Steady.scrolls (h : Steady screen s) (hh : 64 ≤ screen.height.toNat) (y : UInt32) :
    (s.screenUsableHeight ≤ y → (y - 8).toNat = y.toNat - 8 ∧ 54 ≤ y.toNat) ∧
      (¬ s.screenUsableHeight ≤ y → y.toNat + 10 < screen.height.toNat) := by
  have husable : s.screenUsableHeight.toNat = screen.height.toNat - 10 := by
    rw [h.height, usable_toNat hh]
  rw [UInt32.le_iff_toNat_le, husable]
  refine ⟨fun hend => ?_, fun hend => by omega⟩
  have hlow : 54 ≤ y.toNat := by omega
  exact ⟨UInt32.toNat_sub_of_le _ _ (UInt32.le_iff_toNat_le.mpr
    (Nat.le_trans (by decide) hlow)), hlow⟩

open Classical in
/-- **A character that there is room for keeps the cell on the screen.** -/
theorem Steady.next (h : Steady screen s) (hw : 64 ≤ screen.width.toNat)
    (hh : 64 ≤ screen.height.toNat) {c : UInt8} (hfits : Fits screen s c) :
    Steady screen (consolePutChar s c).1 := by
  obtain ⟨_, _, hcolumn, htab⟩ := h.glyph hw c
  have husable := h.usable_ge hw
  obtain ⟨hheight, hwidth⟩ := consolePutChar_usable s c
  refine ⟨hheight.trans h.height, hwidth.trans h.width, ?_, ?_, ?_, ?_⟩
  · rw [consolePutChar_x, wrapLine]
    split_ifs
    · exact Nat.le_refl 10
    · exact htab.mp hfits.tab
  · rw [consolePutChar_x, hwidth, wrapLine, (putGlyph_usable s c).2]
    split_ifs with hend
    · exact Nat.lt_of_lt_of_le (by decide : (10 : Nat) < 54) husable
    · rw [UInt32.le_iff_toNat_le] at hend
      exact Nat.lt_of_not_le hend
  · rw [consolePutChar_x, wrapLine]
    split_ifs
    · show (10 : UInt32).toNat % 8 = 2
      rfl
    · exact hcolumn
  · have hbottom := h.bottom
    have hscroll := h.scrolls hh
    rw [h.nextLine hw c rfl]
    by_cases hline : BreaksLine s c
    · rw [if_pos hline]
      have hroom := UInt32.le_iff_toNat_le.mp (hfits.line hline)
      -- At the bottom the line goes 10 pixels down and 8 back up.
      split_ifs with hend
      · rw [((hscroll _).1 hend).1]
        omega
      · have := (hscroll _).2 hend
        omega
    · rw [if_neg hline]
      split_ifs with hend
      · rw [((hscroll _).1 hend).1]
        omega
      · exact hbottom

open Classical in
/-- Only a character that fits leaves the cursor on the screen. -/
theorem Steady.fits_of_next (h : Steady screen s) (hw : 64 ≤ screen.width.toNat)
    (hh : 64 ≤ screen.height.toNat) {c : UInt8} (hnext : OnScreen screen (consolePutChar s c).1) :
    Fits screen s c := by
  obtain ⟨_, _, _, htab⟩ := h.glyph hw c
  have husable := h.usable_ge hw
  refine ⟨fun hline => ?_, htab.mpr ?_⟩
  · have hbottom := hnext.bottom
    have hscroll := h.scrolls hh
    rw [h.nextLine hw c rfl, if_pos hline] at hbottom
    rw [UInt32.le_iff_toNat_le]
    split_ifs at hbottom with hend
    · rw [((hscroll _).1 hend).1] at hbottom
      omega
    · have := (hscroll _).2 hend
      omega
  · have hmargin := hnext.margin
    rw [UInt32.le_iff_toNat_le, consolePutChar_x, wrapLine, (putGlyph_usable s c).2] at hmargin
    split_ifs at hmargin with hend
    · rw [UInt32.le_iff_toNat_le] at hend
      omega
    · exact hmargin

theorem Steady.onScreen (h : Steady screen s) (hw : 64 ≤ screen.width.toNat) :
    OnScreen screen s := by
  have hright := h.right
  have hmargin := h.margin
  have hbottom := h.bottom
  rw [h.width, usable_toNat hw] at hright
  refine ⟨UInt32.le_iff_toNat_le.mpr hmargin, by omega, hbottom, fun c draw hdraw => ?_⟩
  have hmem : draw ∈ (putGlyph s c).2 ∨ ∃ lines color, draw = .scrollUp lines color := by
    unfold consolePutChar consoleScroll at hdraw
    simp only at hdraw
    split_ifs at hdraw
    · exact (List.mem_append.mp hdraw).imp id fun h => ⟨_, _, List.mem_singleton.mp h⟩
    · exact Or.inl hdraw
  rcases hmem with hmem | ⟨lines, color, rfl⟩
  · have hleft : (s.cursorX - 8).toNat = s.cursorX.toNat - 8 :=
      UInt32.toNat_sub_of_le _ _ (UInt32.le_iff_toNat_le.mpr (Nat.le_trans (by decide) hmargin))
    unfold putGlyph at hmem
    split_ifs at hmem
    · rw [List.mem_singleton.mp hmem]
      exact ⟨by omega, hbottom⟩
    · cases hmem
    · cases hmem
    · rw [List.mem_singleton.mp hmem]
      exact ⟨by omega, hbottom⟩
    · cases hmem
  · trivial

theorem steady_init (hw : 64 ≤ screen.width.toNat) (hh : 64 ≤ screen.height.toNat) :
    Steady screen (consoleInit screen) := by
  refine ⟨rfl, rfl, Nat.le_refl 10, ?_, ?_, ?_⟩
  · show 10 < (screen.width - consoleMargin).toNat
    rw [usable_toNat hw]
    omega
  · show (10 : UInt32).toNat % 8 = 2
    rfl
  · show 10 + 8 ≤ _
    omega

end Step

/-! ## Whole strings -/

/-- In every state of the console while `cs` is printed the cell is on the screen. -/
def ConsoleStays (screen : Screen) (cs : List UInt8) : Prop :=
  ∀ pre, pre <+: cs → OnScreen screen ((consoleInit screen).putString pre)

theorem putString_append (s : Console) (cs : List UInt8) (c : UInt8) :
    s.putString (cs ++ [c]) = (consolePutChar (s.putString cs) c).1 :=
  List.foldl_concat ..

/-- **When the cursor never leaves the screen**: when there is room for every character, at the
moment it is printed. -/
theorem consoleStays_iff (screen : Screen) (hw : 64 ≤ screen.width.toNat)
    (hh : 64 ≤ screen.height.toNat) (cs : List UInt8) :
    ConsoleStays screen cs ↔
      ∀ pre c, pre ++ [c] <+: cs → Fits screen ((consoleInit screen).putString pre) c := by
  constructor
  · intro hall
    -- Up to here there was room, and the next state shows that there still is.
    have hsteady : ∀ pre, pre <+: cs → Steady screen ((consoleInit screen).putString pre) := by
      intro pre
      induction pre using List.reverseRecOn with
      | nil => exact fun _ => steady_init hw hh
      | append_singleton pre c ih =>
        intro hpre
        have hbefore := ih ((List.prefix_append pre [c]).trans hpre)
        rw [putString_append]
        have hnext := hall _ hpre
        rw [putString_append] at hnext
        exact hbefore.next hw hh (hbefore.fits_of_next hw hh hnext)
    intro pre c hpre
    have hnext := hall _ hpre
    rw [putString_append] at hnext
    exact (hsteady pre ((List.prefix_append pre [c]).trans hpre)).fits_of_next hw hh hnext
  · intro hfits pre
    have hsteady : pre <+: cs → Steady screen ((consoleInit screen).putString pre) := by
      induction pre using List.reverseRecOn with
      | nil => exact fun _ => steady_init hw hh
      | append_singleton pre c ih =>
        intro hpre
        rw [putString_append]
        exact (ih ((List.prefix_append pre [c]).trans hpre)).next hw hh (hfits pre c hpre)
    exact fun hpre => (hsteady hpre).onScreen hw

theorem consoleStays_hi : ConsoleStays ⟨64, 64⟩ [104, 105, 10] := by
  refine (consoleStays_iff ⟨64, 64⟩ (by decide) (by decide) _).mpr fun pre c hpre => ?_
  rcases pre with _ | ⟨a, _ | ⟨b, _ | ⟨d, pre⟩⟩⟩ <;> simp at hpre
  · rw [hpre]
    exact ⟨fun _ => by decide, fun h => absurd h (by decide)⟩
  · rw [hpre.1, hpre.2]
    exact ⟨fun _ => by decide, fun h => absurd h (by decide)⟩
  · rw [hpre.1, hpre.2.1, hpre.2.2]
    exact ⟨fun _ => by decide, fun h => absurd h (by decide)⟩

/-- Eight line feeds on a screen of 64 by 64 pixels: the cell reaches two pixels below it. -/
theorem lineFeeds_leave_screen : ¬ ConsoleStays ⟨64, 64⟩ (List.replicate 8 10) := by
  intro hall
  have hbottom := (hall _ (List.prefix_refl _)).bottom
  exact absurd hbottom (by decide)

end ScratchOs.Drivers
