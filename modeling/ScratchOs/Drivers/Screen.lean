import ScratchOs.Drivers.Ports

/-!
# The text screen

`drivers/screen.cpp`: 25 rows of 80 cells, two bytes each. The cursor is nowhere but in two
registers of the VGA, as the number of a cell; the driver turns it into an offset in bytes and
back. No `int` here comes near its bounds.

Nothing scrolls. `staysInBuffer_iff` says what can be printed, and `offsets_invert_iff` for which
cells the two functions between offsets and columns belong together.

Stores are kept as a list of addresses and bytes, and the addresses are integers. A store outside
the text buffer is then a store like any other, to be found in the list, and the statement that
there is none is about the list. Whether it would hit the memory behind the buffer or wrap
somewhere else is not asked.

The cursor registers have 16 bits and `set_cursor` writes all of them, so a cell that is off the
screen is remembered as such, and the next character is stored there. That is why the condition is
on where each character leaves the cursor, and why the last cell cannot be used.
-/

set_option autoImplicit false

namespace ScratchOs.Drivers

open IoPorts

/-- `VIDEO_ADDRESS` -/
abbrev videoAddress : Int := 0xb8000

/-- `MAX_ROW` -/
abbrev maxRow : Int := 25

/-- `MAX_COL` -/
abbrev maxCol : Int := 80

/-- `WHITE_ON_BLACK` -/
abbrev whiteOnBlack : UInt8 := 0x0f

/-- `int get_offset(int col, int row)` -/
def getOffset (col row : Int) : Int := (row * maxCol + col) * 2

/-- `void parse_offset(int& col, int& row, int offset)`, the column first. -/
def parseOffset (offset : Int) : Int × Int :=
  ((offset.tmod maxCol).tdiv 2, offset.tdiv (2 * maxCol))

section Ports

variable {σ : Type} [IoPorts σ]

/-- `int get_cursor()` -/
def getCursor (s : σ) : Int × σ :=
  let s := outb s 0x3D4 0x0E
  let (high, s) := inb s 0x3D5
  let s := outb s 0x3D4 0x0F
  let (low, s) := inb s 0x3D5
  (((high.toNat <<< 8 : Nat) + low.toNat) * 2, s)

/-- `void set_cursor(int offset)` -/
def setCursor (offset : Int) (s : σ) : σ :=
  let offset := offset.tdiv 2
  let s := outb s 0x3D4 0x0E
  let s := outb s 0x3D5 (UInt8.ofInt (offset >>> (8 : Nat)))
  let s := outb s 0x3D4 0x0F
  outb s 0x3D5 (UInt8.ofInt (offset % 256))

end Ports

/-- The ports, and what has been stored to the text buffer: addresses and bytes. -/
structure TextScreen (σ : Type) where
  ports : σ
  stores : List (Int × UInt8)

section Print

variable {σ : Type} [IoPorts σ]

/-- `video_address[offset] = value` -/
def TextScreen.store (s : TextScreen σ) (offset : Int) (value : UInt8) : TextScreen σ :=
  { s with stores := s.stores ++ [(videoAddress + offset, value)] }

def TextScreen.setCursor (s : TextScreen σ) (offset : Int) : TextScreen σ :=
  { s with ports := Drivers.setCursor offset s.ports }

/-- `void print_char(char attribute, int col, int row, char character)` -/
def printChar (attr : UInt8) (col row : Int) (character : UInt8) (s : TextScreen σ) :
    TextScreen σ :=
  let attr := if attr = 0 then whiteOnBlack else attr
  let (offset, ports) :=
    if 0 ≤ col ∧ 0 ≤ row then (getOffset col row, s.ports) else getCursor s.ports
  let s := { s with ports := ports }
  if character = 10 then
    let (offset, ports) := getCursor s.ports
    ({ s with ports := ports } : TextScreen σ).setCursor (getOffset 0 ((parseOffset offset).2 + 1))
  else if character = 9 then s.setCursor (offset + 4)
  else if character = 8 then
    if 0 < offset then
      let offset := offset - 2
      ((s.store offset 32).store (offset + 1) attr).setCursor offset
    else s
  else ((s.store offset character).store (offset + 1) attr).setCursor (offset + 2)

/-- `void print_string(const char string[], int len)` -/
def printString (string : Nat → UInt8) (len : Int) (s : TextScreen σ) : TextScreen σ :=
  (List.range len.toNat).foldl (fun s i => printChar whiteOnBlack (-1) (-1) (string i) s) s

/-- `void clean_screen()` -/
def cleanScreen (s : TextScreen σ) : TextScreen σ :=
  ((List.range (maxRow * maxCol).toNat).foldl
    (fun s i => (s.store (2 * i) 32).store (2 * i + 1) whiteOnBlack) s).setCursor 0

end Print

/-! ## The VGA -/

/-- The index register, and the two that hold the cursor. -/
structure Vga where
  index : UInt8
  high : UInt8
  low : UInt8

instance : IoPorts Vga where
  inb s port :=
    (if port = 0x3D5 ∧ s.index = 0x0E then s.high
      else if port = 0x3D5 ∧ s.index = 0x0F then s.low else 0xFF, s)
  inw s _ := (0xFFFF, s)
  outb s port value :=
    if port = 0x3D4 then { s with index := value }
    else if port = 0x3D5 ∧ s.index = 0x0E then { s with high := value }
    else if port = 0x3D5 ∧ s.index = 0x0F then { s with low := value }
    else s

/-- The cell the cursor is at. -/
def Vga.cell (s : Vga) : Nat := s.high.toNat * 256 + s.low.toNat

theorem getCursor_vga (s : Vga) :
    getCursor s = (2 * (s.cell : Int), { s with index := 0x0F }) := by
  refine Prod.ext ?_ rfl
  show (((s.high.toNat <<< 8 : Nat) : Int) + s.low.toNat) * 2 = 2 * s.cell
  rw [Nat.shiftLeft_eq, Vga.cell]
  omega

theorem setCursor_vga {cell : Nat} (h : cell < 65536) (s : Vga) :
    (setCursor (2 * cell) s).cell = cell := by
  have hhalf : (2 * (cell : Int)).tdiv 2 = cell := Int.mul_tdiv_cancel_left _ (by decide)
  show (UInt8.ofInt ((2 * (cell : Int)).tdiv 2 >>> (8 : Nat))).toNat * 256 +
    (UInt8.ofInt ((2 * (cell : Int)).tdiv 2 % 256)).toNat = cell
  rw [hhalf, Int.shiftRight_eq_div_pow]
  simp only [UInt8.ofInt, UInt8.toNat_ofNat']
  omega

/-! ## What can be printed -/

/-- Where a character takes the cursor. -/
def nextCell (cell : Nat) (c : UInt8) : Nat :=
  if c = 10 then (cell / 80 + 1) * 80
  else if c = 9 then cell + 2
  else if c = 8 then cell - 1
  else cell + 1

/-- The character leaves the cursor on the screen: a line feed only above the last row, and what
moves to the right only before the last cells. -/
structure LeavesRoom (cell : Nat) (c : UInt8) : Prop where
  line : c = 10 → cell < 1920
  tab : c = 9 → cell < 1998
  glyph : c ≠ 10 → c ≠ 9 → c ≠ 8 → cell < 1999

/-- Every character of the text does, at the moment it is printed. -/
def TextFits : Nat → List UInt8 → Prop
  | _, [] => True
  | cell, c :: cs => LeavesRoom cell c ∧ TextFits (nextCell cell c) cs

/-- The characters that `print_string` prints, one after the other. -/
def printChars {σ : Type} [IoPorts σ] (text : List UInt8) (s : TextScreen σ) : TextScreen σ :=
  text.foldl (fun s c => printChar whiteOnBlack (-1) (-1) c s) s

/-- Calls of `print_string`, each with its string in memory and a length. -/
def printStrings {σ : Type} [IoPorts σ] (calls : List ((Nat → UInt8) × Int)) (s : TextScreen σ) :
    TextScreen σ :=
  calls.foldl (fun s call => printString call.1 call.2 s) s

def textOf (calls : List ((Nat → UInt8) × Int)) : List UInt8 :=
  calls.flatMap fun call => (List.range call.2.toNat).map call.1

/-- An address of the text buffer. -/
def InText (a : Int) : Prop := videoAddress ≤ a ∧ a < videoAddress + 2 * maxCol * maxRow

/-- All that has been stored is in the text buffer, and the cursor is on the screen. -/
structure TextScreen.Sound (s : TextScreen Vga) : Prop where
  stores : ∀ store ∈ s.stores, InText store.1
  even : (getCursor s.ports).1 % 2 = 0
  cursor : 0 ≤ (getCursor s.ports).1 ∧ (getCursor s.ports).1 < 2 * maxCol * maxRow

/-- The text screen is sound after every character of the calls, and after the calls. -/
structure StaysInBuffer (s : TextScreen Vga) (calls : List ((Nat → UInt8) × Int)) : Prop where
  characters : ∀ text, text <+: textOf calls → (printChars text s).Sound
  calls : (printStrings calls s).Sound

theorem printStrings_eq {σ : Type} [IoPorts σ] (calls : List ((Nat → UInt8) × Int)) :
    ∀ s : TextScreen σ, printStrings calls s = printChars (textOf calls) s := by
  induction calls with
  | nil =>
    intro s
    rfl
  | cons call calls ih =>
    intro s
    rw [textOf, List.flatMap_cons, printChars, List.foldl_append, List.foldl_map]
    exact ih (printString call.1 call.2 s)

section Step

variable (s : TextScreen Vga) (c : UInt8)

theorem nextCell_lt_iff {cell : Nat} (h : cell < 2000) : nextCell cell c < 2000 ↔ LeavesRoom cell c := by
  unfold nextCell
  constructor
  · intro hlt
    refine ⟨fun hc => ?_, fun hc => ?_, fun hfeed htab hback => ?_⟩
    · rw [if_pos hc] at hlt
      omega
    · rw [if_neg (by rw [hc]; decide), if_pos hc] at hlt
      omega
    · rw [if_neg hfeed, if_neg htab, if_neg hback] at hlt
      omega
  · intro hroom
    split_ifs with hfeed htab hback
    · have := hroom.line hfeed
      omega
    · have := hroom.tab htab
      omega
    · omega
    · have := hroom.glyph hfeed htab hback
      omega

theorem nextCell_le {cell : Nat} (h : cell < 2000) : nextCell cell c ≤ 2000 + 80 := by
  unfold nextCell
  split_ifs <;> omega

/-- The bytes of a cell. -/
theorem cell_inText {cell : Nat} (h : cell < 2000) (value attr : UInt8) :
    ∀ store ∈ [(videoAddress + 2 * (cell : Int), value), (videoAddress + (2 * (cell : Int) + 1), attr)],
      InText store.1 := by
  intro store hmem
  simp only [List.mem_cons, List.not_mem_nil, or_false] at hmem
  rcases hmem with rfl | rfl
  · simp only [InText, videoAddress, maxCol, maxRow]
    omega
  · simp only [InText, videoAddress, maxCol, maxRow]
    omega

/-- Both bytes of a cell are stored, and the cursor is set behind it or in front. -/
theorem store_setCursor {cell next : Nat} (hnext : next < 65536) (h : cell < 2000) (value attr : UInt8) :
    (((s.store (2 * cell) value).store (2 * cell + 1) attr).setCursor (2 * next)).ports.cell = next ∧
      ∃ stores, (((s.store (2 * cell) value).store (2 * cell + 1) attr).setCursor
          (2 * next)).stores = s.stores ++ stores ∧ ∀ store ∈ stores, InText store.1 :=
  ⟨setCursor_vga hnext _, _, List.append_assoc .., cell_inText h value attr⟩

/-- Nothing is stored. -/
theorem moves_setCursor {next : Nat} (hnext : next < 65536) :
    (s.setCursor (2 * next)).ports.cell = next ∧
      ∃ stores, (s.setCursor (2 * next)).stores = s.stores ++ stores ∧
        ∀ store ∈ stores, InText store.1 :=
  ⟨setCursor_vga hnext _, [], (List.append_nil _).symm, fun _ hmem => absurd hmem List.not_mem_nil⟩

/-- The row below, in bytes. -/
theorem nextRow_offset (cell : Nat) :
    getOffset 0 ((parseOffset (2 * cell)).2 + 1) = 2 * ((cell / 80 + 1) * 80 : Nat) := by
  have hrow : (2 * (cell : Int)).tdiv (2 * maxCol) = 2 * cell / 160 :=
    Int.tdiv_eq_ediv_of_nonneg (by omega)
  simp only [getOffset, parseOffset, hrow, maxCol]
  omega

/-- **One character**: the cursor goes where `nextCell` says, and what is stored is one cell or
nothing. -/
theorem printChar_step {s : TextScreen Vga} (h : s.ports.cell < 2000) (c : UInt8) :
    (printChar whiteOnBlack (-1) (-1) c s).ports.cell = nextCell s.ports.cell c ∧
      ∃ stores, (printChar whiteOnBlack (-1) (-1) c s).stores = s.stores ++ stores ∧
        ∀ store ∈ stores, InText store.1 := by
  have hnext := nextCell_le c h
  have hcursor : ¬ ((0 : Int) ≤ -1 ∧ (0 : Int) ≤ -1) := by decide
  have hattr : whiteOnBlack ≠ 0 := by decide
  unfold nextCell at hnext
  unfold printChar nextCell
  simp only [if_neg hcursor, if_neg hattr, getCursor_vga]
  split_ifs at hnext ⊢ with hfeed htab hback hpos
  · rw [show ({ s.ports with index := 0x0F } : Vga).cell = s.ports.cell from rfl, nextRow_offset]
    exact moves_setCursor _ (by omega)
  · rw [show 2 * (s.ports.cell : Int) + 4 = 2 * (s.ports.cell + 2 : Nat) by omega]
    exact moves_setCursor _ (by omega)
  · rw [show 2 * (s.ports.cell : Int) - 2 = 2 * (s.ports.cell - 1 : Nat) by omega]
    exact store_setCursor _ (by omega) (by omega) _ _
  · refine ⟨?_, [], (List.append_nil _).symm, fun _ hmem => absurd hmem List.not_mem_nil⟩
    show s.ports.cell = s.ports.cell - 1
    omega
  · rw [show 2 * (s.ports.cell : Int) + 2 = 2 * (s.ports.cell + 1 : Nat) by omega]
    exact store_setCursor _ (by omega) h _ _

theorem TextScreen.sound_iff :
    s.Sound ↔ (∀ store ∈ s.stores, InText store.1) ∧ s.ports.cell < 2000 := by
  have hcursor : (getCursor s.ports).1 = 2 * (s.ports.cell : Int) :=
    congrArg Prod.fst (getCursor_vga s.ports)
  constructor
  · intro h
    have hlt := h.cursor.2
    rw [hcursor] at hlt
    simp only [maxCol, maxRow] at hlt
    exact ⟨h.stores, by omega⟩
  · rintro ⟨hstores, hcell⟩
    refine ⟨hstores, ?_, ?_⟩
    · rw [hcursor]
      omega
    · rw [hcursor]
      simp only [maxCol, maxRow]
      omega

theorem TextScreen.Sound.char {s : TextScreen Vga} (h : s.Sound) (c : UInt8) :
    (printChar whiteOnBlack (-1) (-1) c s).Sound ↔ LeavesRoom s.ports.cell c := by
  obtain ⟨hstores, hcell⟩ := (sound_iff s).mp h
  obtain ⟨hnext, stores, happend, hnew⟩ := printChar_step hcell c
  rw [sound_iff, hnext, nextCell_lt_iff c hcell, happend]
  refine and_iff_right fun store hmem => ?_
  rcases List.mem_append.mp hmem with hmem | hmem
  · exact hstores store hmem
  · exact hnew store hmem

/-- A run of characters. -/
theorem printChars_sound_iff {text : List UInt8} : ∀ {s : TextScreen Vga}, s.Sound →
    ((∀ done, done <+: text → (printChars done s).Sound) ↔ TextFits s.ports.cell text) := by
  induction text with
  | nil =>
    intro s hs
    refine iff_of_true (fun done hdone => ?_) trivial
    rw [List.prefix_nil.mp hdone]
    exact hs
  | cons c text ih =>
    intro s hs
    have hnext := (printChar_step ((TextScreen.sound_iff s).mp hs).2 c).1
    rw [TextFits, ← hnext]
    constructor
    · intro hall
      have hchar : (printChar whiteOnBlack (-1) (-1) c s).Sound :=
        hall [c] ⟨text, rfl⟩
      refine ⟨(hs.char c).mp hchar, (ih hchar).mp fun done hdone => ?_⟩
      exact hall (c :: done) (List.cons_prefix_cons.mpr ⟨rfl, hdone⟩)
    · rintro ⟨hroom, hfits⟩ done hdone
      have hchar := (hs.char c).mpr hroom
      cases done with
      | nil => exact hs
      | cons c' done =>
        obtain ⟨rfl, hrest⟩ := List.cons_prefix_cons.mp hdone
        exact (ih hchar).mpr hfits done hrest

/-- The cells that are blanked. -/
theorem blank_sound {cells : List Nat} : ∀ {s : TextScreen Vga}, (∀ cell ∈ cells, cell < 2000) →
    (∀ store ∈ s.stores, InText store.1) →
    ∀ store ∈ (cells.foldl (fun s i => (s.store (2 * i) 32).store (2 * i + 1) whiteOnBlack) s).stores,
      InText store.1 := by
  induction cells with
  | nil =>
    intro s _ hs
    exact hs
  | cons cell cells ih =>
    intro s hcells hs
    obtain ⟨hcell, hcells⟩ := List.forall_mem_cons.mp hcells
    have happend : ((s.store (2 * cell) 32).store (2 * cell + 1) whiteOnBlack).stores =
        s.stores ++ [(videoAddress + 2 * cell, 32), (videoAddress + (2 * cell + 1), whiteOnBlack)] :=
      List.append_assoc ..
    apply ih hcells
    intro store hmem
    rw [happend] at hmem
    rcases List.mem_append.mp hmem with hmem | hmem
    · exact hs store hmem
    · exact cell_inText hcell 32 whiteOnBlack store hmem

/-- `clean_screen` leaves a sound screen, with the cursor in the first cell. -/
theorem cleanScreen_sound (hs : ∀ store ∈ s.stores, InText store.1) :
    (cleanScreen s).Sound ∧ (cleanScreen s).ports.cell = 0 := by
  have hhome (s : TextScreen Vga) : (s.setCursor 0).ports.cell = 0 :=
    @setCursor_vga 0 (by decide) s.ports
  have hstay (s : TextScreen Vga) : (s.setCursor 0).stores = s.stores := rfl
  have hcells : ∀ cell ∈ List.range (maxRow * maxCol).toNat, cell < 2000 :=
    fun cell hmem => List.mem_range.mp hmem
  have hcell : (cleanScreen s).ports.cell = 0 := hhome _
  refine ⟨(TextScreen.sound_iff _).mpr ⟨?_, ?_⟩, hcell⟩
  · rw [cleanScreen, hstay]
    exact blank_sound hcells hs
  · rw [hcell]
    decide

end Step

/-- **When text-mode output stays in the text buffer**: when every character leaves the cursor
room. -/
theorem staysInBuffer_iff (s : TextScreen Vga) (hstores : s.stores = [])
    (hcell : s.ports.cell < 2000) (calls : List ((Nat → UInt8) × Int)) :
    StaysInBuffer s calls ↔ TextFits s.ports.cell (textOf calls) := by
  have hs : s.Sound := by
    rw [TextScreen.sound_iff, hstores]
    exact ⟨fun store hmem => absurd hmem List.not_mem_nil, hcell⟩
  rw [← printChars_sound_iff hs]
  constructor
  · exact StaysInBuffer.characters
  · intro hall
    refine ⟨hall, ?_⟩
    rw [printStrings_eq]
    exact hall _ List.prefix_rfl

/-- `"a\n"`, from the first cell on. -/
theorem staysInBuffer_a :
    StaysInBuffer ⟨⟨0, 0, 0⟩, []⟩ [(fun i => [97, 10].getD i 0, 2)] :=
  (staysInBuffer_iff ⟨⟨0, 0, 0⟩, []⟩ rfl (by decide) [(fun i => [97, 10].getD i 0, 2)]).mpr
    ⟨⟨by decide, by decide, by decide⟩, ⟨by decide, by decide, by decide⟩, trivial⟩

/-- `"ab"` in the last cell of the screen: the `b` is stored behind the buffer. -/
theorem last_cell_overrun :
    Vga.cell ⟨0, 7, 207⟩ = 1999 ∧ ¬ StaysInBuffer ⟨⟨0, 7, 207⟩, []⟩ [(fun i => [97, 98].getD i 0, 2)] ∧
      (0xb8000 + 4000, 98) ∈ (printStrings [(fun i => [97, 98].getD i 0, 2)]
        (⟨⟨0, 7, 207⟩, []⟩ : TextScreen Vga)).stores := by
  refine ⟨rfl, fun h => ?_, by decide⟩
  have hsound := h.characters [97] ⟨[98], rfl⟩
  exact absurd hsound.cursor.2 (by decide)

/-! ## Offsets and columns -/

theorem parseOffset_eq {offset : Int} (h : 0 ≤ offset) :
    parseOffset offset = (offset % 80 / 2, offset / 160) := by
  have hcol : (offset.tmod maxCol).tdiv 2 = offset % 80 / 2 := by
    rw [Int.tmod_eq_emod_of_nonneg h]
    exact Int.tdiv_eq_ediv_of_nonneg (Int.emod_nonneg offset (by decide))
  have hrow : offset.tdiv (2 * maxCol) = offset / 160 := Int.tdiv_eq_ediv_of_nonneg h
  rw [parseOffset, hcol, hrow]

/-- **When offsets and columns belong together**: in the left half of a row. `parse_offset` takes
the column modulo 80, where a row has 160 bytes. -/
theorem offsets_invert_iff {col row offset : Int} (hcol : 0 ≤ col ∧ col < maxCol) (hrow : 0 ≤ row)
    (hoffset : 0 ≤ offset ∧ offset % 2 = 0) :
    (parseOffset (getOffset col row) = (col, row) ↔ col < 40) ∧
      (getOffset (parseOffset offset).1 (parseOffset offset).2 = offset ↔ offset % 160 < 80) := by
  obtain ⟨hleft, hright⟩ := hcol
  obtain ⟨hpos, heven⟩ := hoffset
  simp only [maxCol] at hright
  constructor
  · rw [parseOffset_eq (by simp only [getOffset, maxCol]; omega), Prod.mk.injEq]
    simp only [getOffset, maxCol]
    omega
  · rw [parseOffset_eq hpos]
    simp only [getOffset, maxCol]
    omega

/-- Column 3 of row 2. -/
theorem offsets_invert_small :
    (parseOffset (getOffset 3 2) = (3, 2) ↔ (3 : Int) < 40) ∧
      (getOffset (parseOffset 326).1 (parseOffset 326).2 = 326 ↔ (326 : Int) % 160 < 80) :=
  offsets_invert_iff (by decide) (by decide) (by decide)

/-- Column 40 comes back as column 0. -/
theorem column_forty_lost :
    parseOffset (getOffset 40 0) ≠ (40, 0) ∧ getOffset (parseOffset 80).1 (parseOffset 80).2 ≠ 80 := by
  decide

end ScratchOs.Drivers
