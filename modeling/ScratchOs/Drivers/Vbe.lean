import Mathlib.Data.UInt
import ScratchOs.Lib.Bits
import ScratchOs.Lib.Bytes

/-!
# The back buffer

`drivers/display/vbe.cpp`, with `memcpy` of `libc/mem.cpp`. Pixels are drawn to a buffer from
`kmalloc` that has the layout of the frame buffer. All addresses are of 32 bits, and so is the
arithmetic on them.

A pixel is stored as a word of four bytes whatever the depth of the screen, and only the first
byte is checked: `putPixelConfined_iff` says where that is enough. Scrolling copies the picture
down in memory over itself, and `vbeScrollUp_shifts` says that it arrives.

"Touches only its pixel" has to be said of all colors and all memories. A store that writes the byte
that was there already has touched it and cannot be seen to, so for a single color the statement
would be weaker than it reads.

`memcpy` goes up from the first byte, and source and destination overlap. That direction is right
when the destination is below the source: each byte is read before the copy comes to it
(`memcpy_down`). The loop invariant has both halves of that, what has arrived and what is still
unread. It is the same `memcpy` that swaps the buffers, where nothing overlaps and page tables come
into it instead.
-/

set_option autoImplicit false

namespace ScratchOs.Drivers

open ScratchOs.Bytes

/-- What `vbe.cpp` reads of the multiboot information, less the address. -/
structure Framebuffer where
  pitch : UInt32
  width : UInt32
  height : UInt32
  bpp : UInt8
deriving DecidableEq

/-- The statics of `vbe.cpp`. -/
structure Vbe where
  videoBuffer : UInt32
  size : UInt32
  info : Framebuffer
deriving DecidableEq

/-- `void vbe_init(multiboot_info_t* mb_info)`, less the mapping of the frame buffer; `buffer` is
what `kmalloc(size)` has returned. -/
def Vbe.init (info : Framebuffer) (buffer : UInt32) : Vbe where
  videoBuffer := buffer
  size := info.pitch * info.height
  info := info

/-! ## Pixels -/

def Vbe.pixelOffset (v : Vbe) (x y : UInt32) : UInt32 :=
  y * v.info.pitch + x * v.info.bpp.toUInt32 / 8

def Vbe.pixelAddr (v : Vbe) (x y : UInt32) : UInt32 := v.videoBuffer + v.pixelOffset x y

/-- The check of `vbe_put_pixel`. -/
def Vbe.accepts (v : Vbe) (x y : UInt32) : Bool :=
  !(v.pixelAddr x y < v.videoBuffer || v.videoBuffer + v.size ≤ v.pixelAddr x y)

/-- `void vbe_put_pixel(uint32_t x, uint32_t y, uint32_t color)`. Without a value it stores
nothing and calls `LOG_ERROR`. -/
def vbePutPixel (v : Vbe) (mem : Mem) (x y color : UInt32) : Option Mem :=
  if v.accepts x y then some (store32 mem (v.pixelAddr x y).toNat color.toNat) else none

/-- After `vbe_init`, with a screen as boot loaders set them up, and a block of memory or none. -/
structure Vbe.WellFormed (v : Vbe) : Prop where
  init : v = Vbe.init v.info v.videoBuffer
  bpp : v.info.bpp = 16 ∨ v.info.bpp = 24 ∨ v.info.bpp = 32
  pitch : v.info.width.toNat * v.info.bpp.toNat / 8 ≤ v.info.pitch.toNat
  block : v.videoBuffer = 0 ∨ v.videoBuffer.toNat + v.size.toNat ≤ 4294967296

/-- The bytes of pixel `(x, y)`. -/
def Vbe.PixelByte (v : Vbe) (x y : UInt32) (a : Nat) : Prop :=
  ∃ k < v.info.bpp.toNat / 8, a = v.videoBuffer.toNat + y.toNat * v.info.pitch.toNat +
    x.toNat * v.info.bpp.toNat / 8 + k

def Vbe.InBuffer (v : Vbe) (a : Nat) : Prop :=
  v.videoBuffer.toNat ≤ a ∧ a < v.videoBuffer.toNat + v.size.toNat

/-- There is a buffer, and the pixel is on the screen. -/
def Vbe.OnScreen (v : Vbe) (x y : UInt32) : Prop :=
  v.videoBuffer ≠ 0 ∧ x < v.info.width ∧ y < v.info.height

instance (v : Vbe) (x y : UInt32) : Decidable (v.OnScreen x y) :=
  inferInstanceAs (Decidable (_ ∧ _ ∧ _))

/-- Whatever the color and the memory: a pixel of the screen changes no more than its own bytes,
in the buffer, and any other changes nothing. -/
def PutPixelConfined (v : Vbe) (x y : UInt32) : Prop :=
  ∀ (mem : Mem) (color : UInt32),
    if v.OnScreen x y then
      ∀ a, (vbePutPixel v mem x y color).getD mem a ≠ mem a → v.PixelByte x y a ∧ v.InBuffer a
    else (vbePutPixel v mem x y color).getD mem = mem

/-- The four bytes of the store are the pixel: it is on the screen and 32 bits deep, its offset
is the one computed, and they end in the buffer. -/
structure Vbe.Fits (v : Vbe) (x y : UInt32) : Prop where
  onScreen : v.OnScreen x y
  bpp : v.info.bpp = 32
  offset : (v.pixelOffset x y).toNat = y.toNat * v.info.pitch.toNat + x.toNat * 4
  room : (v.pixelOffset x y).toNat + 4 ≤ v.size.toNat

section PutPixel

variable {v : Vbe} {x y : UInt32}

/-- An address that is accepted has not wrapped. -/
theorem Vbe.pixelAddr_toNat (h : v.accepts x y = true) :
    (v.pixelAddr x y).toNat = v.videoBuffer.toNat + (v.pixelOffset x y).toNat := by
  have hoffset := (v.pixelOffset x y).toNat_lt
  have hbuffer := v.videoBuffer.toNat_lt
  simp only [Vbe.accepts, Bool.not_eq_true', Bool.or_eq_false_iff, decide_eq_false_iff_not,
    UInt32.lt_iff_toNat_lt, UInt32.le_iff_toNat_le] at h
  rw [Vbe.pixelAddr, UInt32.toNat_add] at h ⊢
  omega

theorem vbePutPixel_accepted (h : v.accepts x y = true) (mem : Mem) (color : UInt32) :
    (vbePutPixel v mem x y color).getD mem =
      store32 mem (v.videoBuffer.toNat + (v.pixelOffset x y).toNat) color.toNat := by
  rw [vbePutPixel, if_pos h, v.pixelAddr_toNat h]
  rfl

theorem vbePutPixel_refused (h : v.accepts x y = false) (mem : Mem) (color : UInt32) :
    (vbePutPixel v mem x y color).getD mem = mem := by
  rw [vbePutPixel, h]
  rfl

/-- White on black changes all four bytes. -/
theorem white_changes (a i : Nat) (hi : i < 4) :
    store32 (fun _ => 0) a (0xFFFFFFFF : UInt32).toNat (a + i) ≠ 0 := by
  have hbytes : ∀ i < 4, byteOf (0xFFFFFFFF : UInt32).toNat i ≠ 0 := by decide
  rw [store32_apply, if_pos (by omega), Nat.add_sub_cancel_left]
  exact hbytes i hi

/-- Four bytes in a row are one pixel only where a pixel has as many. -/
theorem PutPixelConfined.fits (h : PutPixelConfined v x y) (hv : v.WellFormed)
    (haccepts : v.accepts x y = true) : v.Fits x y := by
  have hwhite := h (fun _ => 0) 0xFFFFFFFF
  rw [vbePutPixel_accepted haccepts] at hwhite
  by_cases hscreen : v.OnScreen x y
  · rw [if_pos hscreen] at hwhite
    obtain ⟨⟨k₀, hk₀, hfirst⟩, _⟩ := hwhite _ (white_changes _ 0 (by decide))
    obtain ⟨⟨k₃, hk₃, hlast⟩, _, hroom⟩ := hwhite _ (white_changes _ 3 (by decide))
    have hbpp : v.info.bpp = 32 := by
      rcases hv.bpp with hbpp | hbpp | hbpp
      · rw [hbpp, show (16 : UInt8).toNat / 8 = 2 from rfl] at hk₀ hk₃
        omega
      · rw [hbpp, show (24 : UInt8).toNat / 8 = 3 from rfl] at hk₀ hk₃
        omega
      · exact hbpp
    rw [hbpp, show (32 : UInt8).toNat = 32 from rfl] at hk₀ hk₃ hfirst hlast
    exact ⟨hscreen, hbpp, by omega, by omega⟩
  · rw [if_neg hscreen] at hwhite
    have hsame := congrFun hwhite (v.videoBuffer.toNat + (v.pixelOffset x y).toNat + 0)
    exact absurd hsame (white_changes _ 0 (by decide))

theorem Vbe.Fits.confined (hfits : v.Fits x y) : PutPixelConfined v x y := by
  intro mem color
  rw [if_pos hfits.onScreen]
  intro a ha
  cases haccepts : v.accepts x y with
  | false =>
    rw [vbePutPixel_refused haccepts] at ha
    exact absurd rfl ha
  | true =>
    rw [vbePutPixel_accepted haccepts, store32_apply] at ha
    split_ifs at ha with hin
    · have hoffset := hfits.offset
      have hroom := hfits.room
      rw [Vbe.PixelByte, Vbe.InBuffer, hfits.bpp, show (32 : UInt8).toNat = 32 from rfl]
      exact ⟨⟨a - (v.videoBuffer.toNat + (v.pixelOffset x y).toNat), by omega, by omega⟩,
        by omega, by omega⟩
    · exact absurd rfl ha

/-- **When a pixel write touches only its pixel**: when it is refused, or the pixel is one of four
bytes. -/
theorem putPixelConfined_iff (hv : v.WellFormed) (x y : UInt32) :
    PutPixelConfined v x y ↔ v.accepts x y = false ∨ v.Fits x y := by
  constructor
  · intro h
    cases haccepts : v.accepts x y with
    | false => exact Or.inl rfl
    | true => exact Or.inr (h.fits hv haccepts)
  · rintro (hrefused | hfits)
    · intro mem color
      rw [vbePutPixel_refused hrefused]
      split_ifs
      · exact fun a ha => absurd rfl ha
      · rfl
    · exact hfits.confined

end PutPixel

/-- The last pixel of a screen of 1024 by 768, 32 bits deep. -/
theorem putPixelConfined_last :
    PutPixelConfined (Vbe.init ⟨4096, 1024, 768, 32⟩ 0xC0300000) 1023 767 :=
  (putPixelConfined_iff ⟨rfl, by decide, by decide, by decide⟩ 1023 767).mpr
    (Or.inr ⟨by decide, by decide, by decide, by decide⟩)

/-- On a screen that is 24 bits deep; right of the screen, which is the row below; and without a
buffer, at address 0. -/
theorem pixels_spill :
    ¬ PutPixelConfined (Vbe.init ⟨3072, 1024, 768, 24⟩ 0xC0300000) 0 0 ∧
      ¬ PutPixelConfined (Vbe.init ⟨4096, 1024, 768, 32⟩ 0xC0300000) 1024 0 ∧
      ¬ PutPixelConfined (Vbe.init ⟨4096, 1024, 768, 32⟩ 0) 0 0 := by
  refine ⟨fun h => ?_, fun h => ?_, fun h => ?_⟩
  · exact absurd (h.fits ⟨rfl, by decide, by decide, by decide⟩ (by decide)).bpp (by decide)
  · exact absurd (h.fits ⟨rfl, by decide, by decide, by decide⟩ (by decide)).onScreen (by decide)
  · exact absurd (h.fits ⟨rfl, by decide, by decide, by decide⟩ (by decide)).onScreen (by decide)

/-! ## Scrolling -/

/-- `void* memcpy(void* dest, const void* src, uint32_t size)`, from the first byte to the last. -/
def memcpy (mem : Mem) (dest src size : UInt32) : Mem :=
  (List.range size.toNat).foldl (fun mem i =>
    store8 mem (dest + UInt32.ofNat i).toNat (mem (src + UInt32.ofNat i).toNat)) mem

/-- `for (uint32_t i = 0; i < count; i++) ptr[i] = word`, for words of four bytes. -/
def fillWords (mem : Mem) (ptr count word : UInt32) : Mem :=
  (List.range count.toNat).foldl (fun mem i =>
    store32 mem (ptr + UInt32.ofNat (4 * i)).toNat word.toNat) mem

/-- `void vbe_scroll_up(uint32_t lines, uint32_t bg_color)` -/
def vbeScrollUp (v : Vbe) (mem : Mem) (lines bgColor : UInt32) : Mem :=
  let stride := v.info.pitch
  let blockSize := lines * 8 * stride
  let screenSize := v.info.height * stride
  let pixelCount := blockSize / 4
  let bufferPtr := v.videoBuffer + screenSize - blockSize
  fillWords (memcpy mem v.videoBuffer (v.videoBuffer + blockSize) (screenSize - blockSize))
    bufferPtr pixelCount bgColor

theorem add_ofNat_toNat {a : UInt32} {i n : Nat} (hi : i < n) (h : a.toNat + n ≤ 4294967296) :
    (a + UInt32.ofNat i).toNat = a.toNat + i := by
  have hof : (UInt32.ofNat i).toNat = i := UInt32.toNat_ofNat_of_lt' (show i < 4294967296 by omega)
  rw [Bits.toNat_add_of_lt (by rw [hof]; omega), hof]

/-- **Copying down over itself.** What a byte is copied from has not been copied to before. -/
theorem memcpy_down {dest src size : UInt32} (hdown : dest ≤ src)
    (hsrc : src.toNat + size.toNat ≤ 4294967296) (mem : Mem) (a : Nat) :
    memcpy mem dest src size a =
      if dest.toNat ≤ a ∧ a < dest.toNat + size.toNat then mem (a - dest.toNat + src.toNat)
      else mem a := by
  rw [UInt32.le_iff_toNat_le] at hdown
  have hloop : ∀ n ≤ size.toNat, ∀ a, (List.range n).foldl (fun mem i =>
      store8 mem (dest + UInt32.ofNat i).toNat (mem (src + UInt32.ofNat i).toNat)) mem a =
        if dest.toNat ≤ a ∧ a < dest.toNat + n then mem (a - dest.toNat + src.toNat)
        else mem a := by
    intro n
    induction n with
    | zero =>
      intro _ a
      rw [if_neg (by omega)]
      rfl
    | succ n ih =>
      intro hn a
      have hd : (dest + UInt32.ofNat n).toNat = dest.toNat + n := add_ofNat_toNat hn (by omega)
      have hs : (src + UInt32.ofNat n).toNat = src.toNat + n := add_ofNat_toNat hn hsrc
      rw [List.range_succ, List.foldl_append, List.foldl_cons, List.foldl_nil, store8_apply, hd, hs,
        ih (by omega), ih (by omega)]
      by_cases ha : a = dest.toNat + n
      · rw [if_pos ha, if_neg (by omega), if_pos (by omega), ha, Nat.add_sub_cancel_left,
          Nat.add_comm]
      · rw [if_neg ha]
        exact if_congr (by omega) rfl rfl
  exact hloop size.toNat (Nat.le_refl _) a

/-- The words follow each other without a gap. -/
theorem fillWords_apply {ptr count : UInt32} (hptr : ptr.toNat + 4 * count.toNat ≤ 4294967296)
    (mem : Mem) (word : UInt32) (a : Nat) :
    fillWords mem ptr count word a =
      if ptr.toNat ≤ a ∧ a < ptr.toNat + 4 * count.toNat then
        byteOf word.toNat ((a - ptr.toNat) % 4)
      else mem a := by
  have hloop : ∀ n ≤ count.toNat, ∀ a, (List.range n).foldl (fun mem i =>
      store32 mem (ptr + UInt32.ofNat (4 * i)).toNat word.toNat) mem a =
        if ptr.toNat ≤ a ∧ a < ptr.toNat + 4 * n then byteOf word.toNat ((a - ptr.toNat) % 4)
        else mem a := by
    intro n
    induction n with
    | zero =>
      intro _ a
      rw [if_neg (by omega)]
      rfl
    | succ n ih =>
      intro hn a
      have hp : (ptr + UInt32.ofNat (4 * n)).toNat = ptr.toNat + 4 * n :=
        add_ofNat_toNat (show 4 * n < 4 * count.toNat by omega) hptr
      rw [List.range_succ, List.foldl_append, List.foldl_cons, List.foldl_nil, store32_apply, hp,
        ih (by omega)]
      by_cases hlast : ptr.toNat + 4 * n ≤ a ∧ a < ptr.toNat + 4 * n + 4
      · rw [if_pos hlast, if_pos (by omega),
          show (a - ptr.toNat) % 4 = a - (ptr.toNat + 4 * n) by omega]
      · rw [if_neg hlast]
        exact if_congr (by omega) rfl rfl
  exact hloop count.toNat (Nat.le_refl _) a

/-- The numbers of `vbe_scroll_up`, without 32 bits. -/
structure ScrollSizes (v : Vbe) (lines : UInt32) : Prop where
  block : (lines * 8 * v.info.pitch).toNat = 8 * lines.toNat * v.info.pitch.toNat
  screen : (v.info.height * v.info.pitch).toNat = v.info.height.toNat * v.info.pitch.toNat
  le : 8 * lines.toNat * v.info.pitch.toNat ≤ v.info.height.toNat * v.info.pitch.toNat

theorem scrollSizes {v : Vbe} {lines : UInt32}
    (hsize : v.info.height.toNat * v.info.pitch.toNat < 4294967296)
    (hlines : 8 * lines.toNat ≤ v.info.height.toNat) : ScrollSizes v lines := by
  have hheight := v.info.height.toNat_lt
  have hle := Nat.mul_le_mul_right v.info.pitch.toNat hlines
  have height : (lines * 8).toNat = 8 * lines.toNat := by
    rw [Bits.toNat_mul_of_lt (by show lines.toNat * 8 < _; omega), Nat.mul_comm]
    rfl
  refine ⟨?_, ?_, hle⟩
  · rw [Bits.toNat_mul_of_lt (by rw [height]; omega), height]
  · exact Bits.toNat_mul_of_lt hsize

/-- The first half: the picture below the lines goes to the top. -/
theorem scroll_copy {v : Vbe} {lines : UInt32} (h : ScrollSizes v lines)
    (hblock : v.videoBuffer.toNat + v.info.height.toNat * v.info.pitch.toNat ≤ 4294967296)
    (mem : Mem) (a : Nat) :
    memcpy mem v.videoBuffer (v.videoBuffer + lines * 8 * v.info.pitch)
        (v.info.height * v.info.pitch - lines * 8 * v.info.pitch) a =
      if v.videoBuffer.toNat ≤ a ∧ a < v.videoBuffer.toNat +
          (v.info.height.toNat * v.info.pitch.toNat - 8 * lines.toNat * v.info.pitch.toNat) then
        mem (a + 8 * lines.toNat * v.info.pitch.toNat)
      else mem a := by
  have hle := h.le
  have hsize : (v.info.height * v.info.pitch - lines * 8 * v.info.pitch).toNat =
      v.info.height.toNat * v.info.pitch.toNat - 8 * lines.toNat * v.info.pitch.toNat := by
    rw [UInt32.toNat_sub_of_le _ _ (by rw [UInt32.le_iff_toNat_le, h.block, h.screen]; exact hle),
      h.block, h.screen]
  rcases Nat.eq_or_lt_of_le hle with hall | hpart
  · -- Nothing is left to copy, and `src` may have wrapped.
    have hzero : v.info.height * v.info.pitch - lines * 8 * v.info.pitch = 0 := by
      rw [← UInt32.toNat_inj, hsize, hall]
      exact Nat.sub_self _
    rw [hzero, if_neg (by omega)]
    rfl
  · have hsrc : (v.videoBuffer + lines * 8 * v.info.pitch).toNat =
        v.videoBuffer.toNat + 8 * lines.toNat * v.info.pitch.toNat := by
      rw [Bits.toNat_add_of_lt (by rw [h.block]; omega), h.block]
    rw [memcpy_down (by rw [UInt32.le_iff_toNat_le, hsrc]; omega) (by rw [hsrc, hsize]; omega),
      hsize, hsrc]
    by_cases hin : v.videoBuffer.toNat ≤ a ∧ a < v.videoBuffer.toNat +
        (v.info.height.toNat * v.info.pitch.toNat - 8 * lines.toNat * v.info.pitch.toNat)
    · rw [if_pos hin, if_pos hin]
      exact congrArg mem (by omega)
    · rw [if_neg hin, if_neg hin]

/-- The second half: words of the background from there to the end. -/
theorem scroll_fill {v : Vbe} {lines : UInt32} (h : ScrollSizes v lines)
    (hblock : v.videoBuffer.toNat + v.info.height.toNat * v.info.pitch.toNat ≤ 4294967296)
    (mem : Mem) (bgColor : UInt32) (a : Nat) :
    fillWords mem (v.videoBuffer + v.info.height * v.info.pitch - lines * 8 * v.info.pitch)
        (lines * 8 * v.info.pitch / 4) bgColor a =
      if v.videoBuffer.toNat + (v.info.height.toNat * v.info.pitch.toNat -
            8 * lines.toNat * v.info.pitch.toNat) ≤ a ∧
          a < v.videoBuffer.toNat + v.info.height.toNat * v.info.pitch.toNat then
        byteOf bgColor.toNat ((a - (v.videoBuffer.toNat + (v.info.height.toNat *
          v.info.pitch.toNat - 8 * lines.toNat * v.info.pitch.toNat))) % 4)
      else mem a := by
  have hle := h.le
  have hfour : 8 * lines.toNat * v.info.pitch.toNat = 4 * (2 * lines.toNat * v.info.pitch.toNat) := by
    rw [show 8 * lines.toNat = 4 * (2 * lines.toNat) by omega, Nat.mul_assoc 4]
  have hcount : (lines * 8 * v.info.pitch / 4).toNat = 2 * lines.toNat * v.info.pitch.toNat := by
    rw [UInt32.toNat_div, h.block, hfour]
    exact Nat.mul_div_cancel_left _ (by decide)
  rcases Nat.eq_zero_or_pos (8 * lines.toNat * v.info.pitch.toNat) with hzero | hpos
  · have hnone : lines * 8 * v.info.pitch / 4 = 0 := by
      rw [← UInt32.toNat_inj, hcount]
      show 2 * lines.toNat * v.info.pitch.toNat = 0
      omega
    rw [hnone, if_neg (by omega)]
    rfl
  · have hptr : (v.videoBuffer + v.info.height * v.info.pitch - lines * 8 * v.info.pitch).toNat =
        v.videoBuffer.toNat + (v.info.height.toNat * v.info.pitch.toNat -
          8 * lines.toNat * v.info.pitch.toNat) := by
      rw [UInt32.toNat_sub, UInt32.toNat_add, h.block, h.screen]
      omega
    rw [fillWords_apply (by rw [hptr, hcount]; omega), hptr, hcount]
    exact if_congr (by omega) rfl rfl

/-- **Scrolling shifts the picture exactly**, for every pitch: `8 * lines` rows up, with words of
the background below it, and nothing outside the buffer. -/
theorem vbeScrollUp_shifts (v : Vbe) (mem : Mem) (lines bgColor : UInt32)
    (hsize : v.info.height.toNat * v.info.pitch.toNat < 4294967296)
    (hblock : v.videoBuffer.toNat + v.info.height.toNat * v.info.pitch.toNat ≤ 4294967296)
    (hlines : 8 * lines.toNat ≤ v.info.height.toNat) :
    (∀ i < (v.info.height.toNat - 8 * lines.toNat) * v.info.pitch.toNat,
      vbeScrollUp v mem lines bgColor (v.videoBuffer.toNat + i) =
        mem (v.videoBuffer.toNat + (i + 8 * lines.toNat * v.info.pitch.toNat))) ∧
    (∀ i < 8 * lines.toNat * v.info.pitch.toNat,
      vbeScrollUp v mem lines bgColor (v.videoBuffer.toNat +
          ((v.info.height.toNat - 8 * lines.toNat) * v.info.pitch.toNat + i)) =
        byteOf bgColor.toNat (i % 4)) ∧
    ∀ a, ¬ (v.videoBuffer.toNat ≤ a ∧
        a < v.videoBuffer.toNat + v.info.height.toNat * v.info.pitch.toNat) →
      vbeScrollUp v mem lines bgColor a = mem a := by
  have hsizes := scrollSizes hsize hlines
  have hle := hsizes.le
  rw [Nat.sub_mul]
  refine ⟨fun i hi => ?_, fun i hi => ?_, fun a ha => ?_⟩
  · rw [vbeScrollUp, scroll_fill hsizes hblock, if_neg (by omega), scroll_copy hsizes hblock,
      if_pos (by omega), Nat.add_assoc]
  · rw [vbeScrollUp, scroll_fill hsizes hblock, if_pos (by omega)]
    exact congrArg (byteOf bgColor.toNat) (by omega)
  · rw [vbeScrollUp, scroll_fill hsizes hblock, if_neg (by omega), scroll_copy hsizes hblock,
      if_neg (by omega)]

/-- A screen of 16 rows of 12 bytes, up by one line: row 3 comes from row 11, and row 8 is
background. -/
theorem vbeScrollUp_small :
    vbeScrollUp (Vbe.init ⟨12, 4, 16, 24⟩ 0xC0300000) (fun a => UInt8.ofNat a) 1 0 (0xC0300000 + 36) =
        132 ∧
      vbeScrollUp (Vbe.init ⟨12, 4, 16, 24⟩ 0xC0300000) (fun a => UInt8.ofNat a) 1 0
        (0xC0300000 + 96) = 0 := by
  obtain ⟨hcopied, hfilled, _⟩ := vbeScrollUp_shifts (Vbe.init ⟨12, 4, 16, 24⟩ 0xC0300000)
    (fun a => UInt8.ofNat a) 1 0 (by decide) (by decide) (by decide)
  exact ⟨hcopied 36 (by decide), hfilled 0 (by decide)⟩

end ScratchOs.Drivers
