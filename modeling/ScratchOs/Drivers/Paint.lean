import ScratchOs.Drivers.Display

/-!
# Characters in memory

Which bytes of the back buffer a character is drawn to, on a screen as boot loaders set them up.
A pixel has two, three or four bytes and is stored as four, so that the last column of a cell
reaches into the next one.

What that does depends on the depth. At 32 bits nothing is too many. At 24 bits it is the highest
byte of the color, which is 0, and black on black is not seen. At 16 bits it is two bytes, and the
lower one of them is white. A row of the screen is therefore looked at by bytes (`Vbe.byteAt`),
and the cell of a character is a range of them, with two more.
-/

set_option autoImplicit false

namespace ScratchOs.Drivers

open ScratchOs.Bytes
open ScratchOs.Libc

/-- The pixels of the list, all of them drawn. -/
def paint (v : Vbe) (mem : Mem) (color : UInt32) (ps : List Pixel) : Mem :=
  storeWords mem color.toNat (ps.map fun p => (v.pixelAddr p.1 p.2).toNat)

/-- Pixels that are accepted are drawn and nothing is reported. -/
theorem Display.draw_accepted {v : Vbe} {report : Display → Option Display} {s : Console}
    {color : UInt32} {ps : List Pixel} : ∀ {mem : Mem}, (∀ p ∈ ps, v.accepts p.1 p.2 = true) →
      (⟨s, mem⟩ : Display).draw v report color ps = some ⟨s, paint v mem color ps⟩ := by
  induction ps with
  | nil =>
    intro mem _
    rfl
  | cons p ps ih =>
    intro mem h
    obtain ⟨hp, hps⟩ := List.forall_mem_cons.mp h
    rw [Display.draw, List.foldlM_cons, Display.putPixel, vbePutPixel, if_pos hp]
    exact ih hps

/-- A screen as boot loaders set them up, with a buffer for it. -/
structure Vbe.Ready (v : Vbe) : Prop where
  wellFormed : v.WellFormed
  buffer : v.videoBuffer.toNat + v.info.height.toNat * v.info.pitch.toNat < 4294967296

/-- The cell at the cursor is on the screen. -/
structure Vbe.Shows (v : Vbe) (s : Console) : Prop where
  right : s.cursorX.toNat + 8 ≤ v.info.width.toNat
  bottom : s.cursorY.toNat + 8 ≤ v.info.height.toNat

def Vbe.pixelBytes (v : Vbe) : Nat := v.info.bpp.toNat / 8

/-- Byte `q` of a row. -/
def Vbe.byteAt (v : Vbe) (row q : Nat) : Nat :=
  v.videoBuffer.toNat + row * v.info.pitch.toNat + q

section Ready

variable {v : Vbe}

theorem Vbe.Ready.bpp (hv : v.Ready) :
    v.info.bpp.toNat = 8 * v.pixelBytes ∧ 2 ≤ v.pixelBytes ∧ v.pixelBytes ≤ 4 := by
  unfold Vbe.pixelBytes
  rcases hv.wellFormed.bpp with hbpp | hbpp | hbpp
  all_goals
    rw [hbpp]
    decide

/-- A row of pixels fits in a row of memory. -/
theorem Vbe.Ready.pitch (hv : v.Ready) : v.info.width.toNat * v.pixelBytes ≤ v.info.pitch.toNat := by
  have hpitch := hv.wellFormed.pitch
  rw [hv.bpp.1, Nat.mul_left_comm, Nat.mul_div_cancel_left _ (by decide)] at hpitch
  exact hpitch

/-- The size of the buffer is what 32 bits make of it, and they make nothing else of it. -/
theorem Vbe.Ready.size (hv : v.Ready) :
    v.size.toNat = v.info.height.toNat * v.info.pitch.toNat := by
  have hbuffer := hv.buffer
  rw [hv.wellFormed.init]
  show (v.info.pitch * v.info.height).toNat = _
  rw [Bits.toNat_mul_of_lt (by rw [Nat.mul_comm]; omega), Nat.mul_comm]
  rfl

/-- Eight rows or more leave room for the arithmetic on columns. -/
theorem Vbe.Ready.pixelOffset (hv : v.Ready) (hheight : 8 ≤ v.info.height.toNat) {x y : UInt32}
    (hx : x.toNat < v.info.width.toNat) (hy : y.toNat < v.info.height.toNat) :
    (v.pixelOffset x y).toNat = y.toNat * v.info.pitch.toNat + x.toNat * v.pixelBytes ∧
      (v.pixelOffset x y).toNat < v.info.height.toNat * v.info.pitch.toNat := by
  have hbuffer := hv.buffer
  have hpitch := hv.pitch
  obtain ⟨hbpp, hlow, hhigh⟩ := hv.bpp
  have hrows := Nat.mul_le_mul_right v.info.pitch.toNat hheight
  have hrow := Nat.mul_le_mul_right v.info.pitch.toNat (Nat.succ_le_of_lt hy)
  have hcolumn := Nat.mul_le_mul_right v.pixelBytes (Nat.succ_le_of_lt hx)
  rw [Nat.succ_mul] at hrow hcolumn
  have hproduct : x.toNat * v.info.bpp.toUInt32.toNat = x.toNat * v.pixelBytes * 8 := by
    rw [UInt8.toNat_toUInt32, hbpp, Nat.mul_comm 8, ← Nat.mul_assoc]
  have hbits : (x * v.info.bpp.toUInt32).toNat = x.toNat * v.pixelBytes * 8 := by
    rw [Bits.toNat_mul_of_lt (by rw [hproduct]; omega), hproduct]
  have hbytes : (x * v.info.bpp.toUInt32 / 8).toNat = x.toNat * v.pixelBytes := by
    rw [UInt32.toNat_div, hbits]
    exact Nat.mul_div_cancel _ (by decide)
  have hoffset : (v.pixelOffset x y).toNat =
      y.toNat * v.info.pitch.toNat + x.toNat * v.pixelBytes := by
    have hup : (y * v.info.pitch).toNat = y.toNat * v.info.pitch.toNat :=
      Bits.toNat_mul_of_lt (by omega)
    rw [Vbe.pixelOffset, Bits.toNat_add_of_lt (by rw [hup, hbytes]; omega), hup, hbytes]
  exact ⟨hoffset, by omega⟩

/-- A pixel on the screen is accepted, and stored at its place in its row. -/
theorem Vbe.Ready.pixelAddr (hv : v.Ready) (hheight : 8 ≤ v.info.height.toNat) {x y : UInt32}
    (hx : x.toNat < v.info.width.toNat) (hy : y.toNat < v.info.height.toNat) :
    v.accepts x y = true ∧ (v.pixelAddr x y).toNat = v.byteAt y.toNat (x.toNat * v.pixelBytes) := by
  have hbuffer := hv.buffer
  obtain ⟨hoffset, hroom⟩ := hv.pixelOffset hheight hx hy
  have haddr : (v.pixelAddr x y).toNat = v.videoBuffer.toNat + (v.pixelOffset x y).toNat := by
    exact Bits.toNat_add_of_lt (by omega)
  have hend : (v.videoBuffer + v.size).toNat =
      v.videoBuffer.toNat + v.info.height.toNat * v.info.pitch.toNat := by
    rw [Bits.toNat_add_of_lt (by rw [hv.size]; exact hv.buffer), hv.size]
  constructor
  · simp only [Vbe.accepts, Bool.not_eq_true', Bool.or_eq_false_iff, decide_eq_false_iff_not,
      UInt32.lt_iff_toNat_lt, UInt32.le_iff_toNat_le]
    rw [haddr, hend]
    omega
  · rw [haddr, hoffset, Vbe.byteAt, Nat.add_assoc]

/-- The pixels of a cell on the screen. -/
theorem Vbe.Shows.pixelAt {s : Console} (h : v.Shows s) {i j : Nat} (hi : i < 8) (hj : j < 8) :
    (pixelAt s.cursorX s.cursorY i j).1.toNat = s.cursorX.toNat + j ∧
      (pixelAt s.cursorX s.cursorY i j).2.toNat = s.cursorY.toNat + i := by
  have hright := h.right
  have hbottom := h.bottom
  have hwidth := v.info.width.toNat_lt
  have hheight := v.info.height.toNat_lt
  exact ⟨add_ofNat_toNat hj (by omega), add_ofNat_toNat hi (by omega)⟩

/-- Pixel `j` of row `i` of the cell at the cursor. -/
theorem Vbe.Ready.cellAddr (hv : v.Ready) {s : Console} (h : v.Shows s) {i j : Nat} (hi : i < 8)
    (hj : j < 8) :
    v.accepts (pixelAt s.cursorX s.cursorY i j).1 (pixelAt s.cursorX s.cursorY i j).2 = true ∧
      (v.pixelAddr (pixelAt s.cursorX s.cursorY i j).1
        (pixelAt s.cursorX s.cursorY i j).2).toNat =
          v.byteAt (s.cursorY.toNat + i) ((s.cursorX.toNat + j) * v.pixelBytes) := by
  have hright := h.right
  have hbottom := h.bottom
  obtain ⟨hx, hy⟩ := h.pixelAt hi hj
  have haddr := hv.pixelAddr (show 8 ≤ v.info.height.toNat by omega)
    (show (pixelAt s.cursorX s.cursorY i j).1.toNat < v.info.width.toNat by omega)
    (show (pixelAt s.cursorX s.cursorY i j).2.toNat < v.info.height.toNat by omega)
  rw [hx, hy] at haddr
  exact haddr

theorem Vbe.Ready.cell_accepted (hv : v.Ready) {s : Console} (h : v.Shows s) :
    ∀ p ∈ cellPixels s.cursorX s.cursorY, v.accepts p.1 p.2 = true := by
  intro p hp
  obtain ⟨i, hi, j, hj, rfl⟩ := mem_cellPixels.mp hp
  exact (hv.cellAddr h hi hj).1

/-- The bytes of a pixel are in its row, or else the first two of the next. -/
theorem Vbe.Ready.cell_touches (hv : v.Ready) {s : Console} (h : v.Shows s) {i j : Nat} (hj : j < 8)
    {row q : Nat}
    (hfrom : v.byteAt (s.cursorY.toNat + i) ((s.cursorX.toNat + j) * v.pixelBytes) ≤ v.byteAt row q)
    (hto : v.byteAt row q <
      v.byteAt (s.cursorY.toNat + i) ((s.cursorX.toNat + j) * v.pixelBytes) + 4)
    (hq : q < v.info.width.toNat * v.pixelBytes) :
    (row = s.cursorY.toNat + i ∧ (s.cursorX.toNat + j) * v.pixelBytes ≤ q ∧
        q < (s.cursorX.toNat + j) * v.pixelBytes + 4) ∨
      (row = s.cursorY.toNat + i + 1 ∧ q < 2) := by
  have hpitch := hv.pitch
  obtain ⟨_, hlow, _⟩ := hv.bpp
  have hright := h.right
  have hcolumn := Nat.mul_le_mul_right v.pixelBytes
    (show s.cursorX.toNat + j + 1 ≤ v.info.width.toNat by omega)
  rw [Nat.succ_mul] at hcolumn
  unfold Vbe.byteAt at hfrom hto
  rcases Nat.lt_trichotomy row (s.cursorY.toNat + i) with hrow | hrow | hrow
  · have hup := Nat.mul_le_mul_right v.info.pitch.toNat (Nat.succ_le_of_lt hrow)
    rw [Nat.succ_mul] at hup
    omega
  · rw [hrow] at hfrom hto
    exact Or.inl ⟨hrow, by omega, by omega⟩
  · have hdown := Nat.mul_le_mul_right v.info.pitch.toNat (Nat.succ_le_of_lt hrow)
    rw [Nat.succ_mul] at hdown
    by_cases hnext : row = s.cursorY.toNat + i + 1
    · exact Or.inr ⟨hnext, by omega⟩
    · have htwo := Nat.mul_le_mul_right v.info.pitch.toNat
        (show s.cursorY.toNat + i + 1 + 1 ≤ row by omega)
      rw [Nat.succ_mul, Nat.succ_mul] at htwo
      have hwide := Nat.mul_le_mul hright hlow
      omega

end Ready

end ScratchOs.Drivers
