import ScratchOs.Drivers.Paint

/-!
# A backspace on the screen

Printing a backspace moves the cursor back by one cell and blackens it, whatever has been printed
before. `painted_backspace_iff` says for which characters that undoes the character: it depends on
how the character has moved the cursor, and on what was in its cell.

The two conditions are independent. A tab moves the cursor by four cells, and a backspace takes back
one: the picture is right and the cursor is not. A character that was drawn over others leaves the
cursor right, and the backspace blackens what had been there before. While a line is typed the
second cannot happen, as what is ahead of the cursor is black; that is the invariant of the second
section, and at 16 bits it has an exception, the ink of the character to the left.
-/

set_option autoImplicit false

namespace ScratchOs.Drivers

open ScratchOs.Bytes
open ScratchOs.Libc

/-! ## The cursor -/

/-- The character does not scroll the screen. -/
def NoScroll (s : Console) (c : UInt8) : Prop :=
  (wrapLine (putGlyph s c).1).cursorY < s.screenUsableHeight

instance (s : Console) (c : UInt8) : Decidable (NoScroll s c) := inferInstanceAs (Decidable (_ < _))

/-- How far a character moves the cursor. -/
def charWidth (c : UInt8) : UInt32 := if 32 ≤ c ∧ c ≤ 126 then 8 else if c = 9 then 32 else 0

section Cursor

variable {s : Console} {c : UInt8}

/-- The test of `console_put_char` for the last line fails. -/
theorem NoScroll.not_le (h : NoScroll s c) :
    ¬ (wrapLine (putGlyph s c).1).screenUsableHeight ≤ (wrapLine (putGlyph s c).1).cursorY := by
  rw [wrapLine_usable, (putGlyph_usable s c).1]
  exact UInt32.not_le.mpr h

/-- The last step of `console_put_char` is then left out. -/
theorem NoScroll.console (h : NoScroll s c) :
    (consolePutChar s c).1 = wrapLine (putGlyph s c).1 := by
  unfold consolePutChar
  simp only
  rw [if_neg h.not_le]

/-- What a key can do to the cursor, but for Enter and backspace. -/
theorem NoScroll.cases (h : NoScroll s c) (hfeed : c ≠ 10) (hback : c ≠ 8) :
    ((consolePutChar s c).1 = { s with cursorX := s.cursorX + charWidth c } ∧
        s.cursorX + charWidth c < s.screenUsableWidth ∧ s.cursorY < s.screenUsableHeight) ∨
      (consolePutChar s c).1 = { s with cursorX := consoleMargin, cursorY := s.cursorY + 10 } ∧
        s.screenUsableWidth ≤ s.cursorX + charWidth c := by
  have hglyph : (putGlyph s c).1 = { s with cursorX := s.cursorX + charWidth c } := by
    have hno : ¬ (c = 8 ∧ consoleMargin < s.cursorX) := fun hc => hback hc.1
    simp only [putGlyph, charWidth, if_neg hfeed, if_neg hno]
    split_ifs
    · rfl
    · rfl
    · rw [UInt32.add_zero]
  rw [h.console]
  rw [NoScroll, hglyph] at h
  rw [hglyph]
  unfold wrapLine at h ⊢
  by_cases hend : s.screenUsableWidth ≤ s.cursorX + charWidth c
  · rw [if_pos hend]
    exact Or.inr ⟨rfl, hend⟩
  · rw [if_neg hend] at h ⊢
    exact Or.inl ⟨rfl, UInt32.not_le.mp hend, h⟩

/-- A character after which the cursor is on a line that has room. -/
theorem consolePutChar_inside {s' : Console} (hglyph : (putGlyph s c).1 = s')
    (hwidth : s'.cursorX < s'.screenUsableWidth) (hheight : s'.cursorY < s'.screenUsableHeight) :
    NoScroll s c ∧ (consolePutChar s c).1 = s' := by
  have hwrap : wrapLine s' = s' := if_neg (UInt32.not_le.mpr hwidth)
  have hscroll : NoScroll s c := by
    rw [NoScroll, ← (putGlyph_usable s c).1, hglyph, hwrap]
    exact hheight
  refine ⟨hscroll, ?_⟩
  rw [hscroll.console, hglyph, hwrap]

/-- A backspace takes the cursor back over a cell right of the margin. -/
theorem putGlyph_backspace (hmargin : consoleMargin < s.cursorX + 8) :
    (putGlyph { s with cursorX := s.cursorX + 8 } 8).1 = s := by
  simp [putGlyph, hmargin]

/-- And at the margin it does nothing. -/
theorem putGlyph_backspace_margin (hmargin : s.cursorX ≤ consoleMargin) :
    (putGlyph s 8).1 = s := by
  simp [putGlyph, UInt32.not_lt.mpr hmargin]

/-- The cursor stays on its line only if the character neither wraps nor scrolls. -/
theorem consolePutChar_stays (hfeed : c ≠ 10) (h : (consolePutChar s c).1.cursorY = s.cursorY) :
    (consolePutChar s c).1 = (putGlyph s c).1 ∧ (putGlyph s c).1.cursorX < s.screenUsableWidth := by
  have hy := putGlyph_y s c
  rw [if_neg hfeed] at hy
  revert h
  unfold consolePutChar wrapLine consoleScroll
  simp only
  rw [(putGlyph_usable s c).2]
  split_ifs with hwrap hscroll hscroll
  · intro h
    simp only [hy] at h
    grind
  · intro h
    simp [hy] at h
  · intro h
    simp [hy] at h
  · intro _
    exact ⟨rfl, UInt32.not_le.mp hwrap⟩

/-- A backspace takes the cursor back to where it was before `c`: a character that is drawn has to
end right of the margin and before the end of the line. Of the others it is only those that stay
at the margin. -/
def TakenBack (s : Console) (c : UInt8) : Prop :=
  if 32 ≤ c ∧ c ≤ 126 then consoleMargin < s.cursorX + 8 ∧ s.cursorX + 8 < s.screenUsableWidth
  else c ≠ 9 ∧ s.cursorX ≤ consoleMargin ∧ s.cursorX < s.screenUsableWidth

/-- A backspace moves the cursor, and nothing else of the console. -/
theorem putGlyph_eight (s : Console) :
    (putGlyph s 8).1 =
      { s with cursorX := if consoleMargin < s.cursorX then s.cursorX - 8 else s.cursorX } := by
  by_cases hmargin : consoleMargin < s.cursorX
  · simp [putGlyph, hmargin]
  · simp [putGlyph, hmargin]

/-- Which line a character leaves the cursor on. -/
theorem consolePutChar_line (hfeed : c ≠ 10) :
    (consolePutChar s c).1.cursorY = s.cursorY ∨ (consolePutChar s c).1.cursorY = s.cursorY - 8 ∨
      (consolePutChar s c).1.cursorY = s.cursorY + 10 ∨
      (consolePutChar s c).1.cursorY = s.cursorY + 10 - 8 := by
  have hy := putGlyph_y s c
  rw [if_neg hfeed] at hy
  unfold consolePutChar wrapLine consoleScroll
  simp only
  split_ifs <;> simp [hy]

/-- **When a backspace takes the cursor back.** Never over the end of a line: no backspace goes up
by the ten rows of a line. -/
theorem takenBack_iff (h : NoScroll s c) (hfeed : c ≠ 10) (hback : c ≠ 8)
    (hsmall : s.cursorX.toNat + 8 < 4294967296) :
    (consolePutChar (consolePutChar s c).1 8).1 = s ↔ TakenBack s c := by
  unfold TakenBack
  rcases h.cases hfeed hback with ⟨hmoved, hroom, hheight⟩ | ⟨hmoved, hend⟩
  · rw [hmoved]
    constructor
    · intro heq
      obtain ⟨hglyph, _⟩ := @consolePutChar_stays { s with cursorX := s.cursorX + charWidth c } 8
        (by decide) (by rw [heq])
      rw [putGlyph_eight] at hglyph
      have hx := congrArg Console.cursorX (heq.symm.trans hglyph)
      unfold charWidth at hx hroom
      dsimp only at hx
      split_ifs at hx hroom ⊢ with hglyph hmargin htab hmargin hmargin
      · exact ⟨hmargin, hroom⟩
      · exact absurd hx (by simp)
      · exact absurd hx (by grind)
      · exact absurd hx (by simp)
      · exact absurd hx (by grind)
      · rw [UInt32.add_zero] at hmargin hroom
        exact ⟨htab, UInt32.not_lt.mp hmargin, hroom⟩
    · intro htaken
      split_ifs at htaken with hglyph
      · obtain ⟨hmargin, hwidth⟩ := htaken
        rw [charWidth, if_pos hglyph]
        have hx : (s.cursorX + 8).toNat = s.cursorX.toNat + 8 := Bits.toNat_add_of_lt hsmall
        have hleft : s.cursorX < s.screenUsableWidth := by
          rw [UInt32.lt_iff_toNat_lt, hx] at hwidth
          rw [UInt32.lt_iff_toNat_lt]
          omega
        exact (consolePutChar_inside (putGlyph_backspace hmargin) hleft hheight).2
      · obtain ⟨htab, hmargin, hwidth⟩ := htaken
        rw [charWidth, if_neg hglyph, if_neg htab, UInt32.add_zero]
        exact (consolePutChar_inside (putGlyph_backspace_margin hmargin) hwidth hheight).2
  · rw [hmoved]
    constructor
    · intro heq
      have hline := @consolePutChar_line
        { s with cursorX := consoleMargin, cursorY := s.cursorY + 10 } 8 (by decide)
      rw [heq] at hline
      grind
    · intro htaken
      unfold charWidth at hend
      split_ifs at htaken hend with hglyph htab
      · exact absurd htaken.2 (UInt32.not_lt.mpr hend)
      · exact absurd htab htaken.1
      · rw [UInt32.add_zero] at hend
        exact absurd htaken.2.2 (UInt32.not_lt.mpr hend)

end Cursor

/-! ## The area ahead of the cursor -/

/-- The bytes of the screen from the cursor on: the rest of its line, and the lines below. -/
structure Vbe.Ahead (v : Vbe) (s : Console) (row q : Nat) : Prop where
  bottom : row < v.info.height.toNat
  right : q < v.info.width.toNat * v.pixelBytes
  after : (s.cursorY.toNat ≤ row ∧ row < s.cursorY.toNat + 8 ∧
    s.cursorX.toNat * v.pixelBytes ≤ q) ∨ s.cursorY.toNat + 10 ≤ row

/-- The bytes ahead are black. With `ink` the first column is not, where the character left of the
cursor has run over into it. -/
def Clear (v : Vbe) (ink : Prop) (s : Console) (mem : Mem) : Prop :=
  ∀ row q, v.Ahead s row q → mem (v.byteAt row q) = 0 ∨
    ink ∧ v.info.bpp = 16 ∧ row < s.cursorY.toNat + 8 ∧
      q < (s.cursorX.toNat + 1) * v.pixelBytes

/-- The character fills the last column of its cell. -/
def Wide (c : UInt8) : Prop := ∃ i < 8, fontBit c i 7 = true

instance (c : UInt8) : Decidable (Wide c) := inferInstanceAs (Decidable (∃ i < 8, _))

section Area

variable {v : Vbe} {s : Console} {mem : Mem} {c : UInt8}

/-- Numbers on a screen with room for a cell are far from 32 bits. -/
theorem Vbe.Ready.small (hv : v.Ready) (h : v.Shows s) :
    v.info.width.toNat < 268435456 ∧ v.info.height.toNat ≤ 268435456 := by
  have hbuffer := hv.buffer
  have hpitch := hv.pitch
  obtain ⟨_, hlow, _⟩ := hv.bpp
  have hright := h.right
  have hbottom := h.bottom
  have hwide := Nat.mul_le_mul (Nat.le_refl v.info.width.toNat) hlow
  have hrows := Nat.mul_le_mul_right v.info.pitch.toNat (show 8 ≤ v.info.height.toNat by omega)
  have hcolumns := Nat.mul_le_mul_left v.info.height.toNat (show 16 ≤ v.info.pitch.toNat by omega)
  omega

/-- White, byte by byte. -/
theorem byteOf_white {i : Nat} (hlow : 2 ≤ i) (hhigh : i < 4) :
    byteOf (vbeRgb 255 255 255).toNat i = 0 ∨ i = 2 := by
  obtain rfl | rfl : i = 2 ∨ i = 3 := by omega
  · exact Or.inr rfl
  · exact Or.inl (by decide)

/-- Where a glyph can change a byte of the screen: in its cell, in the column right of it, and at
the beginning of the rows below. -/
theorem paint_glyph_apply (hv : v.Ready) (h : v.Shows s) {row q : Nat}
    (hq : q < v.info.width.toNat * v.pixelBytes) :
    paint v mem (vbeRgb 255 255 255) (glyphPixels c s.cursorX s.cursorY) (v.byteAt row q) =
        mem (v.byteAt row q) ∨
      (row < s.cursorY.toNat + 8 ∧ q < (s.cursorX.toNat + 8) * v.pixelBytes) ∨
      (row < s.cursorY.toNat + 8 ∧ (paint v mem (vbeRgb 255 255 255)
          (glyphPixels c s.cursorX s.cursorY) (v.byteAt row q) = 0 ∨
        Wide c ∧ v.info.bpp = 16 ∧ q < (s.cursorX.toNat + 8 + 1) * v.pixelBytes)) ∨
      (row ≤ s.cursorY.toNat + 8 ∧ q < 2) := by
  by_cases htouched : ∃ a ∈ (glyphPixels c s.cursorX s.cursorY).map
      fun p => (v.pixelAddr p.1 p.2).toNat, a ≤ v.byteAt row q ∧ v.byteAt row q < a + 4
  · obtain ⟨a, ha, ⟨hfrom, hto⟩, hvalue⟩ :=
      storeWords_of_exists (m := mem) (vbeRgb 255 255 255).toNat htouched
    obtain ⟨p, hp, rfl⟩ := List.mem_map.mp ha
    obtain ⟨i, hi, j, hj, hbit, rfl⟩ := mem_glyphPixels.mp hp
    rw [(hv.cellAddr h hi hj).2] at hfrom hto hvalue
    obtain ⟨hbpp, hlow, hhigh⟩ := hv.bpp
    rcases hv.cell_touches h hj hfrom hto hq with ⟨hrow, hleft, hright⟩ | ⟨hrow, hnext⟩
    · by_cases hcell : q < (s.cursorX.toNat + 8) * v.pixelBytes
      · exact Or.inr (Or.inl ⟨by omega, hcell⟩)
      · -- Only the last column reaches this far.
        refine Or.inr (Or.inr (Or.inl ⟨by omega, ?_⟩))
        have hlast : j = 7 := by
          by_contra hne
          have hcolumn := Nat.mul_le_mul_right v.pixelBytes
            (show s.cursorX.toNat + j + 2 ≤ s.cursorX.toNat + 8 by omega)
          rw [Nat.add_mul _ 2] at hcolumn
          omega
        subst hlast
        rw [show s.cursorX.toNat + 8 = s.cursorX.toNat + 7 + 1 by omega, Nat.succ_mul] at hcell
        have hbyte : v.byteAt row q - v.byteAt (s.cursorY.toNat + i)
            ((s.cursorX.toNat + 7) * v.pixelBytes) = q - (s.cursorX.toNat + 7) * v.pixelBytes := by
          rw [hrow, Vbe.byteAt, Vbe.byteAt]
          omega
        rw [hbyte] at hvalue
        rcases byteOf_white (i := q - (s.cursorX.toNat + 7) * v.pixelBytes) (by omega) (by omega)
          with hzero | htwo
        · exact Or.inl (hvalue.trans hzero)
        · have htwo : v.pixelBytes = 2 := by omega
          refine Or.inr ⟨⟨i, hi, hbit⟩, ?_, ?_⟩
          · rw [← UInt8.toNat_inj, hbpp, htwo]
            rfl
          · rw [htwo] at hright ⊢
            omega
    · exact Or.inr (Or.inr (Or.inr ⟨by omega, hnext⟩))
  · left
    exact storeWords_of_forall _ fun a ha hin => htouched ⟨a, ha, hin⟩

/-- Which bytes a character of a key can change. -/
theorem paint_char_apply (hv : v.Ready) (h : v.Shows s)
    (hwhite : s.cursorColor = vbeRgb 255 255 255) (hback : c ≠ 8) (row : Nat) {q : Nat}
    (hq : q < v.info.width.toNat * v.pixelBytes) :
    paint v mem (drawingColor s c) (drawing s c) (v.byteAt row q) = mem (v.byteAt row q) ∨
      (32 ≤ c ∧ c ≤ 126) ∧
        ((row < s.cursorY.toNat + 8 ∧ q < (s.cursorX.toNat + 8) * v.pixelBytes) ∨
        (row < s.cursorY.toNat + 8 ∧
          (paint v mem (drawingColor s c) (drawing s c) (v.byteAt row q) = 0 ∨
          Wide c ∧ v.info.bpp = 16 ∧ q < (s.cursorX.toNat + 8 + 1) * v.pixelBytes)) ∨
        (row ≤ s.cursorY.toNat + 8 ∧ q < 2)) := by
  unfold drawing drawingColor
  by_cases hglyph : 32 ≤ c ∧ c ≤ 126
  · rw [if_pos hglyph, if_pos hglyph, hwhite]
    exact (paint_glyph_apply hv h hq).imp id fun hchanged => ⟨hglyph, hchanged⟩
  · have hno : ¬ (c = 8 ∧ consoleMargin < s.cursorX) := fun hc => hback hc.1
    rw [if_neg hglyph, if_neg hglyph, if_neg hno]
    exact Or.inl rfl

/-- A character moves the cursor by four cells at most, by one at least if at all, and by exactly
one if it is drawn. -/
theorem charWidth_toNat (c : UInt8) :
    (charWidth c).toNat ≤ 32 ∧ (charWidth c = 0 ∨ 8 ≤ (charWidth c).toNat) ∧
      (32 ≤ c ∧ c ≤ 126 → charWidth c = 8 ∧ (charWidth c).toNat = 8) := by
  unfold charWidth
  split_ifs with hglyph
  · exact ⟨by decide, Or.inr (by decide), fun _ => ⟨rfl, rfl⟩⟩
  · exact ⟨by decide, Or.inr (by decide), fun hc => absurd hc hglyph⟩
  · exact ⟨by decide, Or.inl rfl, fun hc => absurd hc hglyph⟩

/-- **The area ahead stays black** when a character is echoed, up to the ink in its first column. -/
theorem Clear.next {ink ink' : Prop} (hv : v.Ready) (h : v.Shows s) (hclear : Clear v ink s mem)
    (hwhite : s.cursorColor = vbeRgb 255 255 255) (hscroll : NoScroll s c) (hfeed : c ≠ 10)
    (hback : c ≠ 8) (hkeep : ink → (consolePutChar s c).1 = s → ink')
    (hwide : 32 ≤ c ∧ c ≤ 126 → Wide c →
      (consolePutChar s c).1 = { s with cursorX := s.cursorX + 8 } → ink') :
    Clear v ink' (consolePutChar s c).1 (paint v mem (drawingColor s c) (drawing s c)) := by
  obtain ⟨hwidth, hheight⟩ := hv.small h
  obtain ⟨_, hlow, _⟩ := hv.bpp
  obtain ⟨hspan, hstep, hglyph⟩ := charWidth_toNat c
  have hright := h.right
  have hbottom := h.bottom
  intro row q hahead
  have hafter := hahead.after
  have hchange := @paint_char_apply v s mem c hv h hwhite hback row q hahead.right
  rcases hscroll.cases hfeed hback with ⟨hs', _, _⟩ | ⟨hs', _⟩
  · -- On the same line.
    have hx : (s.cursorX + charWidth c).toNat = s.cursorX.toNat + (charWidth c).toNat :=
      Bits.toNat_add_of_lt (by omega)
    have hleft := Nat.mul_le_mul_right v.pixelBytes
      (show s.cursorX.toNat ≤ s.cursorX.toNat + (charWidth c).toNat by omega)
    rw [hs'] at hafter hkeep hwide ⊢
    simp only [hx] at hafter ⊢
    have hold := hclear row q ⟨hahead.bottom, hahead.right, by omega⟩
    rcases hchange with hsame | ⟨hc, hcell | ⟨hrow, hzero | ⟨hfull, hdeep, hq⟩⟩ | hnext⟩
    · rw [hsame]
      rcases hold with hzero | ⟨hyes, hdeep, hrow, hq⟩
      · exact Or.inl hzero
      · -- The first column is still the first.
        rcases hstep with hstay | hmoved
        · rw [hstay] at hkeep ⊢
          exact Or.inr ⟨hkeep hyes (by rw [UInt32.add_zero]), hdeep, hrow, hq⟩
        · have hbeyond := Nat.mul_le_mul_right v.pixelBytes
            (show s.cursorX.toNat + 1 ≤ s.cursorX.toNat + (charWidth c).toNat by omega)
          omega
    · rw [(hglyph hc).2] at hafter
      omega
    · exact Or.inl hzero
    · rw [(hglyph hc).1] at hwide
      rw [(hglyph hc).2]
      exact Or.inr ⟨hwide hc hfull rfl, hdeep, hrow, hq⟩
    · rw [(hglyph hc).2] at hafter
      have hcolumns := Nat.mul_le_mul (show 8 ≤ s.cursorX.toNat + 8 by omega) hlow
      omega
  · -- On the next one, below all that has changed.
    have hy : (s.cursorY + 10).toNat = s.cursorY.toNat + 10 :=
      Bits.toNat_add_of_lt (by show s.cursorY.toNat + 10 < _; omega)
    rw [hs'] at hafter
    simp only [hy] at hafter
    have hold := hclear row q ⟨hahead.bottom, hahead.right, Or.inr (by omega)⟩
    rcases hchange with hsame | ⟨_, hcell | hnext | hrow⟩
    · rw [hsame]
      rcases hold with hzero | ⟨_, _, hrow, _⟩
      · exact Or.inl hzero
      · omega
    · omega
    · omega
    · omega

/-- **Erasing undoes drawing** where the cell was black. -/
theorem Clear.erase {ink : Prop} (hv : v.Ready) (h : v.Shows s) (hclear : Clear v ink s mem)
    (hroom : s.cursorX.toNat + 9 ≤ v.info.width.toNat) (hink : v.info.bpp = 16 → ¬ ink)
    (color : UInt32) :
    paint v (paint v mem color (glyphPixels c s.cursorX s.cursorY)) (vbeRgb 0 0 0)
      (cellPixels s.cursorX s.cursorY) = mem := by
  apply storeWords_clear
  · exact List.map_subset _ (glyphPixels_subset c s.cursorX s.cursorY)
  · intro a ha b hb
    obtain ⟨p, hp, rfl⟩ := List.mem_map.mp ha
    obtain ⟨i, hi, j, hj, rfl⟩ := mem_cellPixels.mp hp
    rw [(hv.cellAddr h hi hj).2] at hb
    obtain ⟨_, hlow, _⟩ := hv.bpp
    have hbottom := h.bottom
    have hcolumn := Nat.mul_le_mul_right v.pixelBytes
      (show s.cursorX.toNat + j + 2 ≤ v.info.width.toNat by omega)
    have hstart := Nat.mul_le_mul_right v.pixelBytes
      (show s.cursorX.toNat ≤ s.cursorX.toNat + j by omega)
    rw [Nat.add_mul _ 2] at hcolumn
    obtain ⟨t, ht⟩ := Nat.exists_eq_add_of_le hb.1
    have hbyte : b = v.byteAt (s.cursorY.toNat + i)
        ((s.cursorX.toNat + j) * v.pixelBytes + t) := by
      rw [ht, Vbe.byteAt, Vbe.byteAt]
      omega
    rw [hbyte]
    rcases hclear (s.cursorY.toNat + i) ((s.cursorX.toNat + j) * v.pixelBytes + t)
      ⟨by omega, by omega, Or.inl ⟨by omega, by omega, by omega⟩⟩ with hzero | ⟨hyes, hdeep, _⟩
    · exact hzero
    · exact absurd hyes (hink hdeep)

end Area

/-! ## Backspace -/

/-- The display after a character that is drawn and does not scroll. -/
def Display.painted (v : Vbe) (d : Display) (c : UInt8) : Display :=
  ⟨(consolePutChar d.console c).1, paint v d.mem (drawingColor d.console c) (drawing d.console c)⟩

@[simp] theorem Display.painted_console (v : Vbe) (d : Display) (c : UInt8) :
    (d.painted v c).console = (consolePutChar d.console c).1 := rfl

@[simp] theorem Display.painted_mem (v : Vbe) (d : Display) (c : UInt8) :
    (d.painted v c).mem = paint v d.mem (drawingColor d.console c) (drawing d.console c) := rfl

/-- A character that is drawn and does not scroll. -/
theorem Display.putChar_painted {v : Vbe} (file : CString) {d : Display} {c : UInt8} (depth : Nat)
    (hdrawn : Drawn v d.console c) (hscroll : NoScroll d.console c) :
    d.putChar v file (depth + 1) c = some (d.painted v c) := by
  have haccepted : ∀ p ∈ drawing d.console c, v.accepts p.1 p.2 = true := by
    intro p hp
    simpa using List.filter_eq_nil_iff.mp hdrawn p hp
  rw [Display.putChar, Display.putGlyph_eq, Display.draw_accepted haccepted]
  show some (Display.endLine v ⟨advance (drawingStart d.console c) c, _⟩) = _
  rw [advance_drawingStart, Display.painted, hscroll.console, Display.endLine]
  simp only
  rw [if_neg hscroll.not_le]

/-- The first column of the cell at the cursor is not all black. -/
def Inked (v : Vbe) (s : Console) (mem : Mem) : Prop :=
  ∃ i < 8, mem (v.byteAt (s.cursorY.toNat + i) (s.cursorX.toNat * v.pixelBytes)) ≠ 0

section Erase

variable {v : Vbe} {s : Console} {mem : Mem} {c : UInt8}

/-- A character that is drawn, and the cell that a backspace blackens behind it. -/
theorem TakenBack.glyph (htaken : TakenBack s c) (hglyph : 32 ≤ c ∧ c ≤ 126) (h : NoScroll s c)
    (hfeed : c ≠ 10) (hback : c ≠ 8) :
    (consolePutChar s c).1 = { s with cursorX := s.cursorX + 8 } ∧
      drawing { s with cursorX := s.cursorX + 8 } 8 = cellPixels s.cursorX s.cursorY := by
  unfold TakenBack at htaken
  rw [if_pos hglyph] at htaken
  obtain ⟨hmargin, hroom⟩ := htaken
  have hcases := h.cases hfeed hback
  rw [charWidth, if_pos hglyph] at hcases
  refine ⟨?_, by simp [drawing, hmargin]⟩
  rcases hcases with ⟨hmoved, _⟩ | ⟨_, hend⟩
  · exact hmoved
  · exact absurd hroom (UInt32.not_lt.mpr hend)

/-- A character that is not drawn, and a backspace that does nothing. -/
theorem TakenBack.nothing (htaken : TakenBack s c) (hglyph : ¬ (32 ≤ c ∧ c ≤ 126))
    (h : NoScroll s c) (hfeed : c ≠ 10) (hback : c ≠ 8) :
    (consolePutChar s c).1 = s ∧ drawing s c = [] ∧ drawing s 8 = [] := by
  unfold TakenBack at htaken
  rw [if_neg hglyph] at htaken
  obtain ⟨htab, hmargin, hroom⟩ := htaken
  have hcases := h.cases hfeed hback
  rw [charWidth, if_neg hglyph, if_neg htab, UInt32.add_zero] at hcases
  have hno : ¬ (c = 8 ∧ consoleMargin < s.cursorX) := fun hc => hback hc.1
  refine ⟨?_, by rw [drawing, if_neg hglyph, if_neg hno], ?_⟩
  · rcases hcases with ⟨hstayed, _⟩ | ⟨_, hend⟩
    · exact hstayed
    · exact absurd hroom (UInt32.not_lt.mpr hend)
  · simp [drawing, UInt32.not_lt.mpr hmargin]

/-- Where the cursor stays nothing is drawn. -/
theorem NoScroll.drawing_nil (h : NoScroll s c) (hfeed : c ≠ 10) (hback : c ≠ 8)
    (hstayed : (consolePutChar s c).1 = s) : drawing s c = [] := by
  have hno : ¬ (c = 8 ∧ consoleMargin < s.cursorX) := fun hc => hback hc.1
  rcases h.cases hfeed hback with ⟨hmoved, _⟩ | ⟨hmoved, _⟩
  · have hx := congrArg Console.cursorX (hmoved.symm.trans hstayed)
    unfold charWidth at hx
    unfold drawing
    split_ifs at hx ⊢ with hglyph
    · exact absurd hx (by simp)
    · rfl
    · rfl
  · have hy := congrArg Console.cursorY (hmoved.symm.trans hstayed)
    exact absurd hy (by simp)

/-- The end of the line is ten columns before that of the screen. -/
theorem Vbe.Shows.columns (h : v.Shows s) (hsmall : v.info.width.toNat < 268435456)
    (husable : s.screenUsableWidth = v.info.width - consoleMargin)
    (hmargin : consoleMargin < s.cursorX + 8) (hroom : s.cursorX + 8 < s.screenUsableWidth) :
    s.cursorX.toNat + 9 ≤ v.info.width.toNat := by
  have hright := h.right
  have hx : (s.cursorX + 8).toNat = s.cursorX.toNat + 8 :=
    Bits.toNat_add_of_lt (by show s.cursorX.toNat + 8 < _; omega)
  rw [husable, UInt32.lt_iff_toNat_lt, hx] at hroom
  rw [UInt32.lt_iff_toNat_lt, hx] at hmargin
  have hten : consoleMargin.toNat = 10 := rfl
  rw [UInt32.toNat_sub_of_le _ _ (UInt32.le_iff_toNat_le.mpr (by omega))] at hroom
  omega

/-- A cell that has been blackened. -/
theorem paint_cell_black (hv : v.Ready) (h : v.Shows s) (mem : Mem) {i : Nat} (hi : i < 8) :
    paint v mem (vbeRgb 0 0 0) (cellPixels s.cursorX s.cursorY)
      (v.byteAt (s.cursorY.toNat + i) (s.cursorX.toNat * v.pixelBytes)) = 0 := by
  have hcell : ∃ a ∈ (cellPixels s.cursorX s.cursorY).map fun p => (v.pixelAddr p.1 p.2).toNat,
      a ≤ v.byteAt (s.cursorY.toNat + i) (s.cursorX.toNat * v.pixelBytes) ∧
        v.byteAt (s.cursorY.toNat + i) (s.cursorX.toNat * v.pixelBytes) < a + 4 := by
    refine ⟨_, List.mem_map.mpr ⟨_, mem_cellPixels.mpr ⟨i, hi, 0, by decide, rfl⟩, rfl⟩, ?_⟩
    rw [(hv.cellAddr h hi (by decide)).2]
    exact ⟨Nat.le_refl _, Nat.lt_add_of_pos_right (by decide)⟩
  obtain ⟨_, _, _, hvalue⟩ := storeWords_of_exists (m := mem) 0 hcell
  exact hvalue.trans (byteOf_zero _)

/-- At 16 bits the last column of a cell runs over into the next one. -/
theorem paint_wide (hv : v.Ready) (h : v.Shows s) (hdeep : v.info.bpp = 16)
    (hnext : s.cursorX.toNat + 8 < v.info.width.toNat) (hwide : Wide c) (mem : Mem) :
    Inked v { s with cursorX := s.cursorX + 8 }
      (paint v mem (vbeRgb 255 255 255) (glyphPixels c s.cursorX s.cursorY)) := by
  obtain ⟨i, hi, hbit⟩ := hwide
  have hx : (s.cursorX + 8).toNat = s.cursorX.toNat + 8 :=
    Bits.toNat_add_of_lt (by have := v.info.width.toNat_lt; show s.cursorX.toNat + 8 < _; omega)
  have htwo : v.pixelBytes = 2 := by rw [Vbe.pixelBytes, hdeep]; rfl
  refine ⟨i, hi, ?_⟩
  simp only [hx]
  have hink : ∃ a ∈ (glyphPixels c s.cursorX s.cursorY).map fun p => (v.pixelAddr p.1 p.2).toNat,
      a ≤ v.byteAt (s.cursorY.toNat + i) ((s.cursorX.toNat + 8) * v.pixelBytes) ∧
        v.byteAt (s.cursorY.toNat + i) ((s.cursorX.toNat + 8) * v.pixelBytes) < a + 4 := by
    refine ⟨_, List.mem_map.mpr ⟨_, mem_glyphPixels.mpr ⟨i, hi, 7, by decide, hbit, rfl⟩, rfl⟩, ?_⟩
    rw [(hv.cellAddr h hi (by decide)).2, Vbe.byteAt, Vbe.byteAt, htwo]
    omega
  obtain ⟨a, ha, ⟨hfrom, hto⟩, hvalue⟩ :=
    storeWords_of_exists (m := mem) (vbeRgb 255 255 255).toNat hink
  obtain ⟨p, hp, rfl⟩ := List.mem_map.mp ha
  obtain ⟨i', hi', j, hj, _, rfl⟩ := mem_glyphPixels.mp hp
  rw [(hv.cellAddr h hi' hj).2] at hfrom hto hvalue
  have hrow := hv.cell_touches h hj hfrom hto (by rw [htwo]; omega)
  rw [htwo] at hrow
  -- The only pixel that far right is the seventh of this row.
  obtain ⟨rfl, rfl⟩ : i' = i ∧ j = 7 := by omega
  have hthird : v.byteAt (s.cursorY.toNat + i') ((s.cursorX.toNat + 8) * v.pixelBytes) -
      v.byteAt (s.cursorY.toNat + i') ((s.cursorX.toNat + 7) * v.pixelBytes) = 2 := by
    rw [Vbe.byteAt, Vbe.byteAt, htwo]
    omega
  rw [hthird] at hvalue
  show storeWords _ _ _ _ ≠ 0
  rw [hvalue]
  decide

/-- **When a backspace undoes a character**: it takes the cursor back, and the cell it blackens was
black before. `hinked` is what makes the second condition necessary: where there is ink it can be
seen, and the backspace takes it away. -/
theorem painted_backspace_iff {ink : Prop} (hv : v.Ready) (h : v.Shows s)
    (hblack : s.bgColor = vbeRgb 0 0 0)
    (husable : s.screenUsableWidth = v.info.width - consoleMargin) (hscroll : NoScroll s c)
    (hfeed : c ≠ 10) (hback : c ≠ 8) (hclear : Clear v ink s mem)
    (hinked : v.info.bpp = 16 → ink → Inked v s mem) :
    ((⟨s, mem⟩ : Display).painted v c).painted v 8 = ⟨s, mem⟩ ↔
      TakenBack s c ∧ (32 ≤ c ∧ c ≤ 126 → v.info.bpp = 16 → ¬ ink) := by
  obtain ⟨hsmall, _⟩ := hv.small h
  have hright := h.right
  have htaken := takenBack_iff hscroll hfeed hback (by omega)
  have hcolor (s' : Console) : drawingColor s' 8 = s'.bgColor := rfl
  constructor
  · intro heq
    have hconsole := congrArg Display.console heq
    have hmem := congrArg Display.mem heq
    simp only [Display.painted_console, Display.painted_mem] at hconsole hmem
    have hcursor := htaken.mp hconsole
    refine ⟨hcursor, fun hglyph hdeep hyes => ?_⟩
    obtain ⟨i, hi, hbyte⟩ := hinked hdeep hyes
    obtain ⟨hmoved, hcell⟩ := hcursor.glyph hglyph hscroll hfeed hback
    apply hbyte
    rw [← hmem, hmoved, hcell, hcolor]
    show paint v _ s.bgColor _ _ = 0
    rw [hblack]
    exact paint_cell_black hv h _ hi
  · rintro ⟨hcursor, hink⟩
    have hmem : ((⟨s, mem⟩ : Display).painted v c |>.painted v 8).mem = mem := by
      simp only [Display.painted_console, Display.painted_mem]
      by_cases hglyph : 32 ≤ c ∧ c ≤ 126
      · obtain ⟨hmoved, hcell⟩ := hcursor.glyph hglyph hscroll hfeed hback
        unfold TakenBack at hcursor
        rw [if_pos hglyph] at hcursor
        rw [hmoved, hcell, hcolor, drawing, if_pos hglyph]
        show paint v _ s.bgColor _ = mem
        rw [hblack]
        exact hclear.erase hv h (h.columns hsmall husable hcursor.1 hcursor.2) (hink hglyph) _
      · obtain ⟨hstayed, hnone, hnothing⟩ := hcursor.nothing hglyph hscroll hfeed hback
        rw [hstayed, hnone, hnothing]
        rfl
    have hconsole : ((⟨s, mem⟩ : Display).painted v c |>.painted v 8).console = s := by
      simp only [Display.painted_console]
      exact htaken.mpr hcursor
    exact Display.ext hconsole hmem

end Erase

end ScratchOs.Drivers
