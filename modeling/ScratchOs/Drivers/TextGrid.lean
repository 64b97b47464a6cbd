import Mathlib.Logic.Function.Basic
import ScratchOs.Drivers.Screen

/-!
# What the text screen shows

`Screen` has the text buffer as a list of stores. Here it is memory again, and a `Grid`: cells with
a cursor, on which a text is put character by character. `cleanScreen_shows` and
`printChars_shows` are what the two have to do with each other, as long as the text fits.

The list of stores is the right thing to have while the question is where they go, and the wrong one
for what can be read afterwards: of two stores to a cell the later one counts. `TextScreen.memory`
turns the first into the second, once, and a grid is then compared with memory cell by cell.
-/

set_option autoImplicit false

namespace ScratchOs.Drivers

/-- A character with its attribute in every cell, row by row. -/
structure Grid where
  cells : Nat → UInt8 × UInt8
  cursor : Nat

namespace Grid

def blank : Grid := ⟨fun _ => (32, whiteOnBlack), 0⟩

/-- A tab or a line feed puts nothing, and a backspace a space, before the cursor. At the first cell
a backspace has nothing to go back over. -/
def put (g : Grid) (c : UInt8) : Grid where
  cells :=
    if c = 10 ∨ c = 9 ∨ c = 8 ∧ g.cursor = 0 then g.cells
    else if c = 8 then Function.update g.cells (g.cursor - 1) (32, whiteOnBlack)
    else Function.update g.cells g.cursor (c, whiteOnBlack)
  cursor := nextCell g.cursor c

def puts (g : Grid) (text : List UInt8) : Grid := text.foldl put g

theorem puts_append (g : Grid) (text text' : List UInt8) :
    g.puts (text ++ text') = (g.puts text).puts text' := List.foldl_append

/-- Characters that take a cell each. -/
def Plain (text : List UInt8) : Prop := ∀ c ∈ text, c ≠ 10 ∧ c ≠ 9 ∧ c ≠ 8

instance (text : List UInt8) : Decidable (Plain text) :=
  List.decidableBAll (fun c => c ≠ 10 ∧ c ≠ 9 ∧ c ≠ 8) text

theorem Plain.append {text text' : List UInt8} (h : Plain text) (h' : Plain text') :
    Plain (text ++ text') := fun c hc =>
  (List.mem_append.mp hc).elim (h c) (h' c)

/-- The cells from `start` on hold the text, and the others what they held. -/
def written (cells : Nat → UInt8 × UInt8) (start : Nat) (text : List UInt8) : Nat → UInt8 × UInt8 :=
  fun i =>
    if start ≤ i ∧ i < start + text.length then (text.getD (i - start) 0, whiteOnBlack) else cells i

/-- A text of such characters is laid down in one piece, from the cursor on. -/
theorem puts_plain {text : List UInt8} : ∀ {g : Grid}, Plain text →
    g.puts text = ⟨written g.cells g.cursor text, g.cursor + text.length⟩ := by
  induction text with
  | nil =>
    intro g _
    have hnone : written g.cells g.cursor [] = g.cells := by
      funext i
      exact if_neg (by rw [List.length_nil]; omega)
    rw [hnone]
    rfl
  | cons c text ih =>
    intro g hplain
    obtain ⟨⟨hfeed, htab, hback⟩, hplain⟩ := List.forall_mem_cons.mp hplain
    have hput : g.put c = ⟨Function.update g.cells g.cursor (c, whiteOnBlack), g.cursor + 1⟩ := by
      rw [put, nextCell, if_neg (by tauto), if_neg hback, if_neg hfeed, if_neg htab, if_neg hback]
    show (g.put c).puts text = _
    rw [ih hplain, hput]
    congr 1
    · funext i
      simp only [written, List.length_cons]
      by_cases hfirst : i = g.cursor
      · subst hfirst
        rw [if_neg (by omega), if_pos (by omega), Function.update_self, Nat.sub_self]
        rfl
      · rw [Function.update_of_ne hfirst]
        by_cases hin : g.cursor + 1 ≤ i ∧ i < g.cursor + 1 + text.length
        · rw [if_pos hin, if_pos (by omega), show i - g.cursor = i - (g.cursor + 1) + 1 by omega,
            List.getD_cons_succ]
        · rw [if_neg hin, if_neg (by omega)]
    · simp only [List.length_cons]
      omega

@[simp] theorem put_newline (g : Grid) : g.put 10 = ⟨g.cells, (g.cursor / 80 + 1) * 80⟩ := by
  rw [put, if_pos (Or.inl rfl)]
  rfl

end Grid

/-! ## The text buffer -/

/-- Memory, from what it held before. -/
def TextScreen.memory {σ : Type} (before : Int → UInt8) (s : TextScreen σ) : Int → UInt8 :=
  s.stores.foldl (fun m store => Function.update m store.1 store.2) before

/-- The grid is on the screen, and nothing else has been stored to. -/
structure ShowsGrid (before : Int → UInt8) (s : TextScreen Vga) (g : Grid) : Prop where
  cursor : s.ports.cell = g.cursor
  chars : ∀ cell : Nat, cell < 2000 →
    s.memory before (videoAddress + 2 * cell) = (g.cells cell).1
  attrs : ∀ cell : Nat, cell < 2000 →
    s.memory before (videoAddress + (2 * cell + 1)) = (g.cells cell).2
  outside : ∀ a, ¬ InText a → s.memory before a = before a

/-- The bytes of a cell, as they are stored. -/
def cellStores (cell : Nat) (c : UInt8) : List (Int × UInt8) :=
  [(videoAddress + 2 * cell, c), (videoAddress + (2 * cell + 1), whiteOnBlack)]

/-- Of two stores to a cell the later one is read. -/
theorem memory_cellStores {σ : Type} (before : Int → UInt8) {s s' : TextScreen σ} {cell : Nat}
    {c : UInt8} (h : s'.stores = s.stores ++ cellStores cell c) (a : Int) :
    s'.memory before a =
      if a = videoAddress + (2 * cell + 1) then whiteOnBlack
      else if a = videoAddress + 2 * cell then c else s.memory before a := by
  rw [TextScreen.memory, h, List.foldl_append]
  show Function.update (Function.update (s.memory before) _ _) _ _ a = _
  rw [Function.update_apply, Function.update_apply]

/-- What a character stores: both bytes of one cell, or nothing. -/
theorem printChar_stores (s : TextScreen Vga) (c : UInt8) :
    (printChar whiteOnBlack (-1) (-1) c s).stores = s.stores ++
      if c = 10 ∨ c = 9 ∨ c = 8 ∧ s.ports.cell = 0 then []
      else if c = 8 then cellStores (s.ports.cell - 1) 32
      else cellStores s.ports.cell c := by
  have hcursor : ¬ ((0 : Int) ≤ -1 ∧ (0 : Int) ≤ -1) := by decide
  have hattr : whiteOnBlack ≠ 0 := by decide
  unfold printChar
  simp only [if_neg hcursor, if_neg hattr, getCursor_vga]
  by_cases hfeed : c = 10
  · rw [if_pos hfeed, if_pos (Or.inl hfeed), List.append_nil]
    rfl
  rw [if_neg hfeed]
  by_cases htab : c = 9
  · rw [if_pos htab, if_pos (Or.inr (Or.inl htab)), List.append_nil]
    rfl
  rw [if_neg htab]
  by_cases hback : c = 8
  · rw [if_pos hback]
    by_cases hhome : s.ports.cell = 0
    · rw [if_neg (by omega), if_pos (Or.inr (Or.inr ⟨hback, hhome⟩)), List.append_nil]
    · have hplace : 2 * (s.ports.cell : Int) - 2 = 2 * (s.ports.cell - 1 : Nat) := by omega
      have hmoves : ¬ (c = 10 ∨ c = 9 ∨ c = 8 ∧ s.ports.cell = 0) := by
        rintro (h | h | h)
        · exact hfeed h
        · exact htab h
        · exact hhome h.2
      rw [if_pos (by omega), if_neg hmoves, if_pos hback, hplace]
      exact List.append_assoc ..
  · have hmoves : ¬ (c = 10 ∨ c = 9 ∨ c = 8 ∧ s.ports.cell = 0) := by
      rintro (h | h | h)
      · exact hfeed h
      · exact htab h
      · exact hback h.1
    rw [if_neg hback, if_neg hmoves, if_neg hback]
    exact List.append_assoc ..

section

variable {before : Int → UInt8} {s : TextScreen Vga} {g : Grid}

/-- A cell of the screen is stored to. -/
theorem ShowsGrid.write (h : ShowsGrid before s g) {s' : TextScreen Vga} {cell cursor : Nat}
    {c : UInt8} (hcell : cell < 2000) (hstores : s'.stores = s.stores ++ cellStores cell c)
    (hcursor : s'.ports.cell = cursor) :
    ShowsGrid before s' ⟨Function.update g.cells cell (c, whiteOnBlack), cursor⟩ := by
  have hmem := memory_cellStores before hstores
  refine ⟨hcursor, fun i hi => ?_, fun i hi => ?_, fun a ha => ?_⟩
  · rw [hmem, if_neg (by omega)]
    by_cases hsame : i = cell
    · subst hsame
      rw [if_pos rfl]
      simp only [Function.update_self]
    · rw [if_neg (by omega), h.chars i hi]
      simp only [Function.update_of_ne hsame]
  · rw [hmem]
    by_cases hsame : i = cell
    · subst hsame
      rw [if_pos rfl]
      simp only [Function.update_self]
    · rw [if_neg (by omega), if_neg (by omega), h.attrs i hi]
      simp only [Function.update_of_ne hsame]
  · have hin := ha
    simp only [InText, videoAddress, maxCol, maxRow] at hin
    rw [hmem, if_neg (by simp only [videoAddress]; omega),
      if_neg (by simp only [videoAddress]; omega)]
    exact h.outside a ha

/-- Only the cursor moves. -/
theorem ShowsGrid.move (h : ShowsGrid before s g) {s' : TextScreen Vga} {cursor : Nat}
    (hstores : s'.stores = s.stores ++ []) (hcursor : s'.ports.cell = cursor) :
    ShowsGrid before s' ⟨g.cells, cursor⟩ := by
  have hmem : s'.memory before = s.memory before := by
    rw [TextScreen.memory, hstores, List.append_nil]
    rfl
  exact ⟨hcursor, hmem ▸ h.chars, hmem ▸ h.attrs, hmem ▸ h.outside⟩

/-- **One character.** -/
theorem ShowsGrid.char (h : ShowsGrid before s g) (hcell : g.cursor < 2000) (c : UInt8) :
    ShowsGrid before (printChar whiteOnBlack (-1) (-1) c s) (g.put c) := by
  have hat : s.ports.cell = g.cursor := h.cursor
  have hnext := (printChar_step (s := s) (by rw [hat]; exact hcell) c).1
  have hstores := printChar_stores s c
  rw [hat] at hnext hstores
  rw [Grid.put]
  split_ifs at hstores ⊢
  · exact h.move hstores hnext
  · exact h.write (by omega) hstores hnext
  · exact h.write hcell hstores hnext

/-- **A text that fits** is put on the grid, character by character. -/
theorem printChars_shows (text : List UInt8) : ∀ {s : TextScreen Vga} {g : Grid},
    ShowsGrid before s g → g.cursor < 2000 → TextFits g.cursor text →
      ShowsGrid before (printChars text s) (g.puts text) ∧ (g.puts text).cursor < 2000 := by
  induction text with
  | nil => exact fun h hcell _ => ⟨h, hcell⟩
  | cons c text ih =>
    rintro s g h hcell ⟨hroom, hfits⟩
    exact ih (h.char hcell c) ((nextCell_lt_iff c hcell).mpr hroom) hfits

/-- The first cells, blanked. -/
def blankCells (n : Nat) (s : TextScreen Vga) : TextScreen Vga :=
  (List.range n).foldl
    (fun s (i : Nat) => (s.store (2 * i) 32).store (2 * i + 1) whiteOnBlack) s

/-- The loop of `clean_screen`, by induction on the cells that are done. -/
theorem blankCells_memory (before : Int → UInt8) (s : TextScreen Vga) {n : Nat} (hn : n ≤ 2000) :
    (∀ cell : Nat, cell < n → (blankCells n s).memory before (videoAddress + 2 * cell) = 32 ∧
      (blankCells n s).memory before (videoAddress + (2 * cell + 1)) = whiteOnBlack) ∧
    ∀ a, ¬ InText a → (blankCells n s).memory before a = s.memory before a := by
  induction n with
  | zero => exact ⟨fun cell h => absurd h (Nat.not_lt_zero cell), fun _ _ => rfl⟩
  | succ n ih =>
    obtain ⟨hcells, houtside⟩ := ih (by omega)
    have hstores : (blankCells (n + 1) s).stores =
        (blankCells n s).stores ++ cellStores n 32 := by
      rw [blankCells, List.range_succ, List.foldl_append]
      exact List.append_assoc ..
    have hmem := memory_cellStores before hstores
    refine ⟨fun cell hcell => ?_, fun a ha => ?_⟩
    · rw [hmem, hmem]
      rcases Nat.lt_succ_iff_lt_or_eq.mp hcell with hlt | rfl
      · rw [if_neg (by omega), if_neg (by omega), if_neg (by omega), if_neg (by omega)]
        exact hcells cell hlt
      · rw [if_neg (by omega), if_pos rfl, if_pos rfl]
        exact ⟨rfl, rfl⟩
    · have hin := ha
      simp only [InText, videoAddress, maxCol, maxRow] at hin
      rw [hmem, if_neg (by simp only [videoAddress]; omega),
        if_neg (by simp only [videoAddress]; omega)]
      exact houtside a ha

/-- **`clean_screen`**, whatever was on the screen. -/
theorem cleanScreen_shows (before : Int → UInt8) {s : TextScreen Vga} (hs : s.stores = []) :
    ShowsGrid before (cleanScreen s) Grid.blank := by
  obtain ⟨hcells, houtside⟩ := blankCells_memory before s (Nat.le_refl 2000)
  have hcell : (cleanScreen s).ports.cell = 0 :=
    (cleanScreen_sound s (by rw [hs]; exact fun _ h => nomatch h)).2
  have hstay (s : TextScreen Vga) : (s.setCursor 0).stores = s.stores := rfl
  have hmem : (cleanScreen s).memory before = (blankCells 2000 s).memory before := by
    rw [TextScreen.memory, cleanScreen, hstay, show (maxRow * maxCol).toNat = 2000 from rfl,
      TextScreen.memory, blankCells]
  refine ⟨hcell, fun cell hlt => ?_, fun cell hlt => ?_, fun a ha => ?_⟩
  · rw [hmem]
    exact (hcells cell hlt).1
  · rw [hmem]
    exact (hcells cell hlt).2
  · rw [hmem, houtside a ha, TextScreen.memory, hs, List.foldl_nil]

end

end ScratchOs.Drivers
