import ScratchOs.Mem.DeviceFrames
import ScratchOs.Mem.VideoWindow

/-!
# The screen and the buffer behind it

`video_buffer` is memory of the heap's, the frame buffer is the card's, and `vbe_swap_buffer`
copies the one to the other. What the two make together is a `DoubleBuffer`: the screen shows
what was in the buffer at the last swap, and whatever else the kernel does with its memory, neither
changes.

The abstract side is two functions from offsets to bytes and two operations on them. What it hides
is everything that could go wrong: that the buffer is an allocation among others, that the screen is
reached through page tables which lie in memory that the kernel writes to, and that a copy of some
megabytes goes through both. `Displays` is the relation, and `Screen` is what has to be kept so that
it can be kept.

Drawing is byte by byte here although the code draws words as well: a word is four bytes drawn one
after the other (`drawWord`), since nothing comes in between that could see the difference. Where
something does come in between, in `SwapRaces`, the bytes are what there is.
-/

set_option autoImplicit false

namespace ScratchOs.Mem

open AddressSpace Bits FreeList Boot

/-! ## What it is for

Nothing here knows of memory. -/

/-- What is on the screen and what is going to be, by the offset. -/
structure DoubleBuffer where
  front : Nat → UInt8
  back : Nat → UInt8

inductive Drawing
  | draw (i : Nat) (v : UInt8)
  | swap

def DoubleBuffer.after (b : DoubleBuffer) : Drawing → DoubleBuffer
  | .draw i v => { b with back := Function.update b.back i v }
  | .swap => { b with front := b.back }

/-! ## What it is -/

/-- `void vbe_swap_buffer()` -/
def vbeSwapBuffer (videoBuffer size : Nat) (k : Kernel) : Option Kernel :=
  copy size videoVrtAddr videoBuffer k

/-- The bytes of a word. -/
def drawWord (i w : Nat) : List Drawing :=
  [.draw i (Bytes.byteOf w 0), .draw (i + 1) (Bytes.byteOf w 1), .draw (i + 2) (Bytes.byteOf w 2),
    .draw (i + 3) (Bytes.byteOf w 3)]

/-- What the kernel can do from `h₀` on, with the buffer live: requests that stay under the window,
memory given back or written to, bytes drawn in the buffer as `vbe_scroll_up` moves them, words as
`vbe_put_pixel` stores them, swaps. -/
inductive ScreenRun (videoBuffer size : Nat) (h₀ : Heap Kernel) (live₀ : List (Nat × Nat)) :
    List Drawing → Heap Kernel → List (Nat × Nat) → Prop
  | start : ScreenRun videoBuffer size h₀ live₀ [] h₀ live₀
  | kmalloc {ds : List Drawing} {h h' : Heap Kernel} {live : List (Nat × Nat)} {n p : Nat}
      (hrun : ScreenRun videoBuffer size h₀ live₀ ds h live) (hstay : StaysUnder h n)
      (hcall : kmalloc kernelPager h n = some (p, h')) :
      ScreenRun videoBuffer size h₀ live₀ ds h' (if p = 0 then live else (p, n) :: live)
  | kfree {ds : List Drawing} {h h' : Heap Kernel} {live : List (Nat × Nat)} {x : Nat × Nat}
      (hrun : ScreenRun videoBuffer size h₀ live₀ ds h live) (hx : x ∈ live)
      (hother : x ≠ (videoBuffer, size)) (hcall : kfree h x.1 = some h') :
      ScreenRun videoBuffer size h₀ live₀ ds h' (live.erase x)
  | write {ds : List Drawing} {h : Heap Kernel} {live : List (Nat × Nat)} {x : Nat × Nat}
      {a : Nat} {v : UInt8} {k : Kernel}
      (hrun : ScreenRun videoBuffer size h₀ live₀ ds h live) (hx : x ∈ live)
      (hother : x ≠ (videoBuffer, size)) (hlo : x.1 ≤ a) (hhi : a < x.1 + x.2)
      (hstore : store8 h.machine a v = some k) :
      ScreenRun videoBuffer size h₀ live₀ ds { h with machine := k } live
  | draw {ds : List Drawing} {h : Heap Kernel} {live : List (Nat × Nat)} {i : Nat} {v : UInt8}
      {k : Kernel} (hrun : ScreenRun videoBuffer size h₀ live₀ ds h live) (hi : i < size)
      (hstore : store8 h.machine (videoBuffer + i) v = some k) :
      ScreenRun videoBuffer size h₀ live₀ (ds ++ [.draw i v]) { h with machine := k } live
  | word {ds : List Drawing} {h : Heap Kernel} {live : List (Nat × Nat)} {i w : Nat}
      {k : Kernel} (hrun : ScreenRun videoBuffer size h₀ live₀ ds h live) (hi : i + 4 ≤ size)
      (hstore : store32 h.machine (videoBuffer + i) w = some k) :
      ScreenRun videoBuffer size h₀ live₀ (ds ++ drawWord i w) { h with machine := k } live
  | swap {ds : List Drawing} {h : Heap Kernel} {live : List (Nat × Nat)} {k : Kernel}
      (hrun : ScreenRun videoBuffer size h₀ live₀ ds h live)
      (hcall : vbeSwapBuffer videoBuffer size h.machine = some k) :
      ScreenRun videoBuffer size h₀ live₀ (ds ++ [.swap]) { h with machine := k } live

/-- The frames behind the window. -/
def ScreenFrame (fb size f : Nat) : Prop :=
  ∃ i < size, windowAddr fb (videoVrtAddr + i) / 4096 = f

/-- The card's memory and the heap's are those of `b`. -/
structure Displays (fb videoBuffer size : Nat) (k : Kernel) (b : DoubleBuffer) : Prop where
  front : ∀ i < size, k.mem (windowAddr fb (videoVrtAddr + i)) = b.front i
  back : ∀ i < size, load8 k (videoBuffer + i) = some (b.back i)

section

variable {fb videoBuffer size : Nat} {F : Nat → Option Nat} {h : Heap Kernel}
  {live : List (Nat × Nat)} {b : DoubleBuffer}

/-- The invariant: the heap keeps away from the screen, and the window is where it was put. -/
structure Screen (fb videoBuffer size : Nat) (F : Nat → Option Nat) (b : DoubleBuffer)
    (h : Heap Kernel) (live : List (Nat × Nat)) : Prop where
  heap : BesideOk (ScreenFrame fb size) videoVrtAddr (WindowFrames F) h live
  buffer : (videoBuffer, size) ∈ live
  displays : Displays fb videoBuffer size h.machine b

/-- The laws as far as the window, beside the screen. -/
theorem screenLaws (fb size : Nat) (F : Nat → Option Nat) (m₀ : Bytes.Mem) :
    PagerLaws guardedPager videoVrtAddr
      (Kernel.Beside (ScreenFrame fb size) m₀ (WindowFrames F)) :=
  (windowFrames_stable F).besideLaws (by decide)

/-- A step that leaves the card's memory and the buffer alone leaves what is displayed. -/
theorem Displays.of_kept {k k' : Kernel} (hd : Displays fb videoBuffer size k b)
    (hfront : ∀ a, ScreenFrame fb size (a / 4096) → k'.mem a = k.mem a)
    (hback : ∀ i < size, load8 k' (videoBuffer + i) = load8 k (videoBuffer + i)) :
    Displays fb videoBuffer size k' b :=
  ⟨fun i hi => (hfront _ ⟨i, hi, rfl⟩).trans (hd.front i hi),
    fun i hi => (hback i hi).trans (hd.back i hi)⟩

/-- The buffer is an allocation, and what the heap does leaves the payloads alone. -/
theorem PayloadsKept.buffer {h' : Heap Kernel} (hkept : PayloadsKept h h' live)
    (hx : (videoBuffer, size) ∈ live) {i : Nat} (hi : i < size) :
    load8 h'.machine (videoBuffer + i) = load8 h.machine (videoBuffer + i) := by
  obtain ⟨n, _, hle, hbytes⟩ := hkept _ hx
  obtain ⟨v, hv, hv'⟩ := hbytes (videoBuffer + i) (Nat.le_add_right _ _) (by
    have hle : size ≤ n := hle
    show videoBuffer + i < videoBuffer + n
    omega)
  rw [hv, hv']

/-- What a request that stays under the window does to the limit. -/
theorem BesideOk.request {D : Nat → Prop} {h' : Heap Kernel} {n p : Nat}
    (hok : BesideOk D videoVrtAddr (WindowFrames F) h live) (hstay : StaysUnder h n)
    (hcall : Mem.kmalloc kernelPager h n = some (p, h')) :
    Mem.kmalloc guardedPager h n = some (p, h') ∧
      h.heapLimit ≤ h'.heapLimit ∧ h'.heapLimit ≤ videoVrtAddr := by
  have laws : PagerLaws guardedPager videoVrtAddr
      (Kernel.Beside D h.machine.mem (WindowFrames F)) :=
    (windowFrames_stable F).besideLaws (by decide)
  have hguard := (kmalloc_guarded hstay.reasonable hstay.keeps).trans hcall
  obtain ⟨_, τ, m, bs, hinv, _⟩ := hok
  refine ⟨hguard, kmalloc_stays laws hinv hstay.reasonable hguard fun hnone => hstay.room ?_⟩
  exact (hinv.needsPages_iff laws hstay.reasonable).mpr hnone

/-! One lemma for each step. Those of the heap leave `b` as it is. -/

theorem Screen.kmalloc {h' : Heap Kernel} {n p : Nat} (hs : Screen fb videoBuffer size F b h live)
    (hstay : StaysUnder h n) (hcall : Mem.kmalloc kernelPager h n = some (p, h')) :
    Screen fb videoBuffer size F b h' (if p = 0 then live else (p, n) :: live) := by
  have laws := screenLaws fb size F h.machine.mem
  obtain ⟨hguard, hlim⟩ := hs.heap.request hstay hcall
  obtain ⟨hheap, hmem⟩ := (HeapOk.kmalloc laws hs.heap hstay.reasonable hguard hlim).besideOk
  have hkept := HeapOk.kmalloc_keeps laws hs.heap hstay.reasonable hguard hlim
  refine ⟨hheap, ?_, hs.displays.of_kept hmem fun i hi => hkept.buffer hs.buffer hi⟩
  split
  · exact hs.buffer
  · exact List.mem_cons_of_mem _ hs.buffer

theorem Screen.kfree {h' : Heap Kernel} {x : Nat × Nat}
    (hs : Screen fb videoBuffer size F b h live) (hx : x ∈ live)
    (hother : x ≠ (videoBuffer, size)) (hcall : Mem.kfree h x.1 = some h') :
    Screen fb videoBuffer size F b h' (live.erase x) := by
  have laws := screenLaws fb size F h.machine.mem
  obtain ⟨hheap, hmem⟩ := (HeapOk.kfree laws hs.heap hx hcall).besideOk
  obtain ⟨h'', hcall', hkept⟩ := HeapOk.kfree_keeps laws hs.heap hx
  obtain rfl := Option.some.inj (hcall.symm.trans hcall')
  exact ⟨hheap, (List.mem_erase_of_ne hother.symm).mpr hs.buffer,
    hs.displays.of_kept hmem fun i hi => hkept.buffer hs.buffer hi⟩

/-- A byte of one allocation is written: what is read then in another one, or in the same. -/
theorem load8_of_write {top start : Nat} {Owns : Kernel → Nat → Nat → (Nat → Nat) → Prop}
    {pager : Pager Kernel} (laws : PagerLaws pager top Owns) (hok : HeapOk top Owns start h live)
    {x y : Nat × Nat} {a c : Nat} {v : UInt8} {k : Kernel} (hx : x ∈ live) (hlo : x.1 ≤ a)
    (hhi : a < x.1 + x.2) (hstore : store8 h.machine a v = some k) (hy : y ∈ live)
    (hloc : y.1 ≤ c) (hhic : c < y.1 + y.2) :
    load8 k c = if c = a then some v else load8 h.machine c := by
  obtain ⟨_, τ, m, bs, hinv, hlive⟩ := hok
  have hinside : ∀ z ∈ live, h.firstBlock ≤ z.1 ∧ z.1 + z.2 ≤ h.heapLimit := by
    intro z hz
    obtain ⟨b, hb, _, hptr, hsize⟩ := hlive.block z hz
    have hin := hinv.inside hb
    omega
  have hxin := hinside x hx
  have hyin := hinside y hy
  have hview := hinv.view laws
  obtain ⟨k', hk', hview'⟩ := hview.store8 (a := a) (by omega) (by omega) v
  obtain rfl := Option.some.inj (hstore.symm.trans hk')
  rw [hview'.shows.load8 (by omega) (by omega), hview.shows.load8 (by omega) (by omega),
    Bytes.store8_apply]
  split
  · rfl
  · rfl

/-- Two allocations have no byte in common. -/
theorem live_apart {top start : Nat} {Owns : Kernel → Nat → Nat → (Nat → Nat) → Prop}
    (hok : HeapOk top Owns start h live) {x y : Nat × Nat} (hx : x ∈ live) (hy : y ∈ live)
    (hne : x ≠ y) : x.1 + x.2 ≤ y.1 ∨ y.1 + y.2 ≤ x.1 := by
  obtain ⟨_, τ, m, bs, hinv, hlive⟩ := hok
  obtain ⟨b, hb, _, hptr, hsize⟩ := hlive.block x hx
  obtain ⟨c, hc, _, hptr', hsize'⟩ := hlive.block y hy
  have hbc : b ≠ c := by
    rintro rfl
    exact hne (List.inj_on_of_nodup_map hlive.nodup hx hy (hptr.trans hptr'.symm))
  have hdisjoint := hinv.laid.disjoint hb hc hbc
  unfold Block.stop at hdisjoint
  omega

/-- A caller writes into its own memory, which is not the buffer. -/
theorem Screen.write {x : Nat × Nat} {a : Nat} {v : UInt8} {k : Kernel}
    (hs : Screen fb videoBuffer size F b h live) (hx : x ∈ live)
    (hother : x ≠ (videoBuffer, size)) (hlo : x.1 ≤ a) (hhi : a < x.1 + x.2)
    (hstore : store8 h.machine a v = some k) :
    Screen fb videoBuffer size F b { h with machine := k } live := by
  have laws := screenLaws fb size F h.machine.mem
  obtain ⟨hheap, hmem⟩ := (HeapOk.write laws hs.heap hx hlo hhi hstore).besideOk
  refine ⟨hheap, hs.buffer, hs.displays.of_kept hmem fun i hi => ?_⟩
  have hapart := live_apart hs.heap hx hs.buffer hother
  rw [load8_of_write laws hs.heap hx hlo hhi hstore hs.buffer (Nat.le_add_right _ _)
    (Nat.add_lt_add_left hi _), if_neg (by omega)]

/-- A byte is drawn: the buffer is an allocation like any other, and this is a write to it. -/
theorem Screen.draw {i : Nat} {v : UInt8} {k : Kernel}
    (hs : Screen fb videoBuffer size F b h live) (hi : i < size)
    (hstore : store8 h.machine (videoBuffer + i) v = some k) :
    Screen fb videoBuffer size F (b.after (.draw i v)) { h with machine := k } live := by
  have laws := screenLaws fb size F h.machine.mem
  have hlo : (videoBuffer, size).1 ≤ videoBuffer + i := Nat.le_add_right _ _
  have hhi : videoBuffer + i < (videoBuffer, size).1 + (videoBuffer, size).2 :=
    Nat.add_lt_add_left hi _
  obtain ⟨hheap, hmem⟩ := (HeapOk.write laws hs.heap hs.buffer hlo hhi hstore).besideOk
  refine ⟨hheap, hs.buffer, fun j hj => (hmem _ ⟨j, hj, rfl⟩).trans (hs.displays.front j hj),
    fun j hj => ?_⟩
  have hload := load8_of_write laws hs.heap hs.buffer hlo hhi hstore hs.buffer
    (c := videoBuffer + j) (Nat.le_add_right _ _) (Nat.add_lt_add_left hj _)
  show load8 k (videoBuffer + j) = some (Function.update b.back i v j)
  rw [hload]
  by_cases hij : j = i
  · rw [if_pos (by rw [hij]), hij, Function.update_self]
  · rw [if_neg (by omega), Function.update_of_ne hij, hs.displays.back j hj]

/-- A word is drawn byte by byte. `store32` looks its four addresses up before it stores, which in a
window is no difference (`Shows.store32_eq`). -/
theorem Screen.word {i w : Nat} {k : Kernel} (hs : Screen fb videoBuffer size F b h live)
    (hi : i + 4 ≤ size) (hstore : store32 h.machine (videoBuffer + i) w = some k) :
    Screen fb videoBuffer size F ((drawWord i w).foldl DoubleBuffer.after b)
      { h with machine := k } live := by
  have laws := screenLaws fb size F h.machine.mem
  obtain ⟨_, τ, m, bs, hinv, hlive⟩ := hs.heap
  obtain ⟨c, hc, _, hptr, hfits⟩ := hlive.block _ hs.buffer
  have hin := hinv.inside hc
  have hptr : videoBuffer = c.addr + 16 := hptr
  have hfits : size ≤ c.size := hfits
  rw [(hinv.view laws).shows.store32_eq (by omega) (by omega)] at hstore
  obtain ⟨k₀, hk₀, hstore⟩ := Option.bind_eq_some_iff.mp hstore
  obtain ⟨k₁, hk₁, hstore⟩ := Option.bind_eq_some_iff.mp hstore
  obtain ⟨k₂, hk₂, hk₃⟩ := Option.bind_eq_some_iff.mp hstore
  rw [Nat.add_assoc] at hk₁ hk₂ hk₃
  have hs₀ := hs.draw (by omega : i < size) hk₀
  have hs₁ := hs₀.draw (by omega : i + 1 < size) hk₁
  have hs₂ := hs₁.draw (by omega : i + 2 < size) hk₂
  exact hs₂.draw (by omega : i + 3 < size) hk₃

/-- The pages of the window go where `map_region` has put them. -/
def WindowShows (fb size : Nat) (F : Nat → Option Nat) : Prop :=
  ∀ i < size, (F ((videoVrtAddr + i) / 4096)).map (· * 4096 + (videoVrtAddr + i) % 4096) =
    some (windowAddr fb (videoVrtAddr + i))

/-! Writes through the window. -/

theorem screenFrame_window {a : Nat} (hlo : videoVrtAddr ≤ a) (hhi : a < videoVrtAddr + size) :
    ScreenFrame fb size (windowAddr fb a / 4096) :=
  ⟨a - videoVrtAddr, by omega, by rw [Nat.add_sub_of_le hlo]⟩

/-- Whatever is written to the screen, the page tables say what they said. -/
theorem Screen.frames {k : Kernel} (hs : Screen fb videoBuffer size F b h live)
    (ht : Touches (windowAddr fb) videoVrtAddr (videoVrtAddr + size) h.machine k) :
    (∀ q < 1048576, k.frame q = h.machine.frame q) ∧ k.paging = true := by
  obtain ⟨hspares, _, τ, m, bs, hinv, _⟩ := besideOk_iff.mp hs.heap
  refine ⟨fun q hq => hspares.frame_touch (fun a hlo hhi => screenFrame_window hlo hhi) ht hq, ?_⟩
  obtain ⟨m', rfl, _⟩ := ht
  exact hinv.owns.tables.paging

/-- The window shows the card's memory. That it goes on to do so while it is written to needs the
page tables to be elsewhere. -/
theorem Screen.window (hs : Screen fb videoBuffer size F b h live)
    (hsize : videoVrtAddr + size < 4294967296) (hF : WindowShows fb size F) :
    Shows h.machine videoVrtAddr (videoVrtAddr + size) (windowAddr fb)
      fun a => mem h.machine (windowAddr fb a) := by
  obtain ⟨_, hframes, _⟩ := besideOk_iff.mp hs.heap
  have hwindow : ∀ k', Touches (windowAddr fb) videoVrtAddr (videoVrtAddr + size) h.machine k' →
      ∀ a, videoVrtAddr ≤ a → a < videoVrtAddr + size →
        translate k' a = some (windowAddr fb a) := by
    intro k' ht a hlo hhi
    obtain ⟨hframe, hpaging⟩ := hs.frames ht
    have hi := hF (a - videoVrtAddr) (by omega)
    rw [Nat.add_sub_of_le hlo] at hi
    rw [Kernel.translate_eq hpaging (by omega), hframe _ (by omega),
      hframes _ (Nat.div_le_div_right hlo) (by omega), hi]
  refine ⟨⟨hwindow _ (Touches.refl ..), fun a c hlo hhi hlo' hhi' heq => ?_, hwindow⟩,
    fun _ _ _ => rfl⟩
  unfold videoVrtAddr at hlo hhi hlo' hhi' hsize
  simp only [windowAddr, u32, videoVrtAddr] at heq
  omega

/-- The buffer is where it was, and not behind the window. -/
theorem Screen.source (hs : Screen fb videoBuffer size F b h live) :
    ∃ τ : Nat → Nat, (∀ k, Touches (windowAddr fb) videoVrtAddr (videoVrtAddr + size) h.machine k →
        ∀ a, videoBuffer ≤ a → a < videoBuffer + size → translate k a = some (τ a)) ∧
      (∀ a, videoBuffer ≤ a → a < videoBuffer + size →
        ¬ Behind (windowAddr fb) videoVrtAddr (videoVrtAddr + size) (τ a)) ∧
      ∀ i < size, mem h.machine (τ (videoBuffer + i)) = b.back i := by
  obtain ⟨_, _, τ, m, bs, hinv, hlive, hpages⟩ := besideOk_iff.mp hs.heap
  obtain ⟨c, hc, _, hptr, hfits⟩ := hlive.block _ hs.buffer
  have hin := hinv.inside hc
  have hptr : videoBuffer = c.addr + 16 := hptr
  have hfits : size ≤ c.size := hfits
  have hlim := hinv.owns.limit
  have hsource : ∀ k', Touches (windowAddr fb) videoVrtAddr (videoVrtAddr + size) h.machine k' →
      ∀ a, videoBuffer ≤ a → a < videoBuffer + size → translate k' a = some (τ a) := by
    intro k' ht a hlo hhi
    obtain ⟨hframe, hpaging⟩ := hs.frames ht
    obtain ⟨f, hf, hτ, _⟩ := hinv.owns.page a (by omega) (by omega)
    rw [Kernel.translate_eq hpaging (by omega), hframe _ (by omega), hf, hτ, Option.map_some]
  refine ⟨τ, hsource, ?_, fun i hi => ?_⟩
  · rintro a hlo hhi ⟨c, hloc, hhic, hc⟩
    exact hpages a (by omega) (by omega) (hc ▸ screenFrame_window hloc hhic)
  · have hload := hs.displays.back i hi
    rw [load8, hsource _ (Touches.refl ..) _ (Nat.le_add_right _ _) (Nat.add_lt_add_left hi _)]
      at hload
    exact Option.some.inj hload

/-- The screen is then what was written, and nothing else has changed. -/
theorem Screen.touch {k : Kernel} {front : Nat → UInt8}
    (hs : Screen fb videoBuffer size F b h live)
    (ht : Touches (windowAddr fb) videoVrtAddr (videoVrtAddr + size) h.machine k)
    (hfront : ∀ i < size, k.mem (windowAddr fb (videoVrtAddr + i)) = front i) :
    Screen fb videoBuffer size F { b with front := front } { h with machine := k } live := by
  obtain ⟨_, hframes, _⟩ := besideOk_iff.mp hs.heap
  obtain ⟨τ, hsource, hout, hback⟩ := hs.source
  refine ⟨hs.heap.paint (fun a hlo hhi => screenFrame_window hlo hhi) ht fun q hlo hq => ?_,
    hs.buffer, hfront, fun i hi => ?_⟩
  · exact ((hs.frames ht).1 q hq).trans (hframes q hlo hq)
  · have htranslate := hsource k ht (videoBuffer + i) (Nat.le_add_right _ _)
      (Nat.add_lt_add_left hi _)
    obtain ⟨m, rfl, hm⟩ := ht
    have hkept := hm _ (hout (videoBuffer + i) (Nat.le_add_right _ _) (Nat.add_lt_add_left hi _))
    rw [load8, htranslate, Option.map_some]
    exact congrArg some (hkept.trans (hback i hi))

/-- Bytes `i` to `i + n` of the loop of `memcpy`. The part is general because an interrupt may come
between any two bytes; here it is all of them. -/
theorem Screen.copy {i n : Nat} (hs : Screen fb videoBuffer size F b h live)
    (hsize : videoVrtAddr + size < 4294967296) (hF : WindowShows fb size F) (hi : i + n ≤ size) :
    ∃ k, AddressSpace.copy n (videoVrtAddr + i) (videoBuffer + i) h.machine = some k ∧
      ∀ front, (∀ j < size, front j = if i ≤ j ∧ j < i + n then b.back j else b.front j) →
        Screen fb videoBuffer size F { b with front := front } { h with machine := k } live := by
  obtain ⟨τ, hsource, hout, hback⟩ := hs.source
  obtain ⟨k, m, hcopy, hshows, ht, hcopied, hothers⟩ :=
    (hs.window hsize hF).copy (n := n) (a := videoBuffer + i) (Nat.le_add_right _ i) (by omega)
      (fun k' ht c hlo hhi => hsource k' ht c (by omega) (by omega))
      (fun c hlo hhi => hout c (by omega) (by omega))
  refine ⟨k, hcopy, fun front hfront => hs.touch ht fun j hj => ?_⟩
  have hshown := hshows.2 (videoVrtAddr + j) (Nat.le_add_right _ _) (Nat.add_lt_add_left hj _)
  refine hshown.trans ?_
  rw [hfront j hj]
  by_cases hin : i ≤ j ∧ j < i + n
  · have hbyte := hcopied (j - i) (by omega)
    rw [Nat.add_assoc, Nat.add_assoc, Nat.add_sub_of_le hin.1] at hbyte
    rw [if_pos hin, hbyte, hback j hj]
  · rw [if_neg hin, hothers _ (by omega)]
    exact hs.displays.front j hj

/-- **`vbe_swap_buffer` returns**, and the screen is what the buffer was. -/
theorem Screen.swap (hs : Screen fb videoBuffer size F b h live)
    (hsize : videoVrtAddr + size < 4294967296) (hF : WindowShows fb size F) :
    ∃ k, vbeSwapBuffer videoBuffer size h.machine = some k ∧
      Screen fb videoBuffer size F (b.after .swap) { h with machine := k } live := by
  obtain ⟨k, hcopy, hscreen⟩ := hs.copy hsize hF (i := 0) (n := size) (Nat.zero_add size).le
  exact ⟨k, hcopy, hscreen b.back fun j hj => (if_pos (by omega)).symm⟩

/-- The run lemma. The list of what has been drawn grows at its end, and the fold with it. -/
theorem ScreenRun.screen {h₀ : Heap Kernel} {live₀ : List (Nat × Nat)} {ds : List Drawing}
    (hs₀ : Screen fb videoBuffer size F b h₀ live₀) (hsize : videoVrtAddr + size < 4294967296)
    (hF : WindowShows fb size F) (hrun : ScreenRun videoBuffer size h₀ live₀ ds h live) :
    Screen fb videoBuffer size F (ds.foldl DoubleBuffer.after b) h live := by
  induction hrun with
  | start => exact hs₀
  | kmalloc _ hstay hcall ih => exact ih.kmalloc hstay hcall
  | kfree _ hx hother hcall ih => exact ih.kfree hx hother hcall
  | write _ hx hother hlo hhi hstore ih => exact ih.write hx hother hlo hhi hstore
  | draw _ hi hstore ih =>
    rw [List.foldl_concat]
    exact ih.draw hi hstore
  | word _ hi hstore ih =>
    rw [List.foldl_append]
    exact ih.word hi hstore
  | swap _ hcall ih =>
    obtain ⟨k, hswap, hscreen⟩ := ih.swap hsize hF
    obtain rfl := Option.some.inj (hcall.symm.trans hswap)
    rw [List.foldl_concat]
    exact hscreen

end

/-! ## From `vbe_init` on

`vbe_init` maps the window and then asks the heap for the buffer. So there is a moment at which
there is a screen and no buffer, and the run begins after it. If `kmalloc` has answered 0 there is
no buffer at all. The code draws and swaps all the same, from address 0 on, and nothing here is
about what it finds there. -/

/-- `vbe_init` leaves a screen and a buffer, whatever is on them. -/
theorem vbeInit_screen {k₁ : Kernel} (hk : TablesDirect k₁) {h₀ h : Heap Kernel}
    {live₀ : List (Nat × Nat)} {fb pitch height size p : Nat}
    (hleaves : k₁.Leaves (ScreenFrame fb size)) (hrun₀ : HeapReach k₁ h₀ live₀)
    (hlow : h₀.heapLimit ≤ videoVrtAddr) (hfb : fb < 4294967296)
    (hpitch : u32 (pitch * height) = size) (hsize : videoVrtAddr + size < 4294967296)
    (hkeep : MappingsKeepTables h₀.machine (regionMappings videoVrtAddr fb size))
    (hstay : ∀ k, mapRegion h₀.machine videoVrtAddr fb size = some k →
      StaysUnder { h₀ with machine := k } size)
    (hinit : vbeInit h₀ fb pitch height = some (p, h)) (hp : p ≠ 0) :
    ∃ F b₀, WindowShows fb size F ∧ Screen fb p size F b₀ h ((p, size) :: live₀) := by
  have hv : videoVrtAddr < 4294967296 := by decide
  rw [vbeInit, hpitch, u32_of_lt hfb] at hinit
  obtain ⟨k, hmap, hcall⟩ := Option.bind_eq_some_iff.mp hinit
  have hmiss : MissesHeap (some (h₀.firstBlock, h₀.heapLimit)) videoVrtAddr size := by
    rintro x ⟨⟩ a _ hhi hvis
    have hpage := hvis.1
    unfold videoVrtAddr at hlow hpage
    omega
  have hreach := hrun₀.beside hk hleaves
  have htables : TablesDirect h₀.machine := by
    obtain ⟨_, _, _, _, _, hinv, _⟩ := besideOk_iff.mp hreach
    exact hinv.owns.tables
  have hF : WindowShows fb size k.frame := by
    intro i hi
    have hpaging : k.paging = true := (htables.mapPages hkeep
      ((mapRegion_eq_some hv hfb).mp hmap).2).1.paging
    have hthen := window_of_mapRegion htables hfb hkeep hmap hsize (Nat.le_add_right _ i)
      (Nat.add_lt_add_left hi _)
    rw [Kernel.translate_eq hpaging (by omega)] at hthen
    exact hthen
  -- From here on the heap has to stay below the window.
  have hbeside : BesideOk (ScreenFrame fb size) videoVrtAddr (WindowFrames k.frame)
      { h₀ with machine := k } live₀ := by
    obtain ⟨hspares, _, τ, m, bs, hinv, hlive, hpages⟩ :=
      besideOk_iff.mp (hreach.mapRegion hv hfb hkeep hmiss hmap trivial).1
    refine besideOk_iff.mpr ⟨hspares, fun _ _ _ => rfl, τ, m, bs, ?_, hlive, hpages⟩
    exact ⟨hinv.owns, hinv.shows, hinv.chain, hinv.laid, hinv.pos, hlow, hinv.page⟩
  have laws := screenLaws fb size k.frame k.mem
  have hunder := hstay k hmap
  obtain ⟨hguard, hlim⟩ := hbeside.request hunder hcall
  have hok := HeapOk.kmalloc laws hbeside hunder.reasonable hguard hlim
  rw [if_neg hp] at hok
  obtain ⟨hheap, _⟩ := hok.besideOk
  refine ⟨k.frame, ⟨fun i => h.machine.mem (windowAddr fb (videoVrtAddr + i)),
    fun i => (load8 h.machine (p + i)).getD 0⟩, hF, hheap, List.mem_cons_self, fun _ _ => rfl,
    fun i hi => ?_⟩
  obtain ⟨_, τ, m, bs, hinv, hlive⟩ := hheap
  obtain ⟨c, hc, _, hptr, hfits⟩ := hlive.block (p, size) List.mem_cons_self
  have hin := hinv.inside hc
  have hptr : p = c.addr + 16 := hptr
  have hfits : size ≤ c.size := hfits
  have hload := (hinv.view (screenLaws fb size k.frame h.machine.mem)).shows.load8
    (a := p + i) (by omega) (by omega)
  exact hload.trans (congrArg (fun o => some (Option.getD o 0)) hload).symm

/-- **Double buffering**: from `vbe_init` on, through any requests, writes, drawing and swaps, the
card's memory is what the buffer was at the last swap, the buffer is what has been drawn, each
swap returns, and the heap stays in order. `b₀` is what there was on both of them at first, and is
nobody's promise. -/
theorem double_buffer_refined (k₁ : Kernel) (hk : TablesDirect k₁) {h₀ h : Heap Kernel}
    {live₀ : List (Nat × Nat)} {fb pitch height size p : Nat}
    (hleaves : k₁.Leaves (ScreenFrame fb size)) (hrun₀ : HeapReach k₁ h₀ live₀)
    (hlow : h₀.heapLimit ≤ videoVrtAddr) (hfb : fb < 4294967296)
    (hpitch : u32 (pitch * height) = size) (hsize : videoVrtAddr + size < 4294967296)
    (hkeep : MappingsKeepTables h₀.machine (regionMappings videoVrtAddr fb size))
    (hstay : ∀ k, mapRegion h₀.machine videoVrtAddr fb size = some k →
      StaysUnder { h₀ with machine := k } size)
    (hinit : vbeInit h₀ fb pitch height = some (p, h)) (hp : p ≠ 0) :
    ∃ b₀, Displays fb p size h.machine b₀ ∧
      ∀ ds h' live', ScreenRun p size h ((p, size) :: live₀) ds h' live' →
        Displays fb p size h'.machine (ds.foldl DoubleBuffer.after b₀) ∧
        (∃ k, vbeSwapBuffer p size h'.machine = some k) ∧ ∃ bs, HeapSafe h' live' bs := by
  obtain ⟨F, b₀, hF, hscreen⟩ :=
    vbeInit_screen hk hleaves hrun₀ hlow hfb hpitch hsize hkeep hstay hinit hp
  refine ⟨b₀, hscreen.displays, fun ds h' live' hrun => ?_⟩
  have hs := ScreenRun.screen hscreen hsize hF hrun
  obtain ⟨k, hswap, _⟩ := hs.swap hsize hF
  exact ⟨hs.displays, ⟨k, hswap⟩, HeapOk.safe (screenLaws fb size F h'.machine.mem) hs.heap⟩

/-! ### On a machine with a small screen -/

theorem screenFrame_high {f : Nat} (h : ScreenFrame 0xFD000000 8000 f) : 0xFD000 ≤ f := by
  obtain ⟨i, hi, rfl⟩ := h
  simp only [windowAddr, u32, videoVrtAddr]
  omega

/-- The card's memory is beyond the RAM. -/
theorem leaves_splitMap {s : Pmm} {k : Kernel}
    (hs : initPmm smallKernel splitMap.mem splitMap.infoAddr = some s)
    (hk : initVmm smallKernel splitMap.info (bootKernel splitMap s) = some k)
    (htables : ∀ f, k.TableFrame f → f < 1024)
    (hfree : k.pmm.freeFrames = List.range' 0x1FFFD 1027) :
    k.Leaves (ScreenFrame 0xFD000000 8000) := by
  have h₀ : BootState splitMap (bootKernel splitMap s) :=
    BootState.ofInitPmm mapFound_splitMap hs rfl fun _ _ _ => rfl
  refine ⟨⟨fun f hf hscreen => ?_, fun f hf hscreen => ?_⟩, fun q hq f hf hscreen => ?_⟩
  · rw [hfree] at hf
    have hhigh := screenFrame_high hscreen
    have hf := List.mem_range'_1.mp hf
    omega
  · have hhigh := screenFrame_high hscreen
    have hlow := htables f hf
    omega
  · have hhigh := screenFrame_high hscreen
    rw [initVmm_frame h₀ hk hq, lastFrame_bootMappings] at hf
    have hend : smallKernel.kernelEnd = 0x120000 := rfl
    simp only [directMapped_splitMap, Visits, directFrame, regionFrame, highMemoryBase, kernelStart,
      u32, hend] at hf
    split_ifs at hf
    all_goals
      simp only [Option.some.injEq] at hf
      omega

/-- A screen of 8000 bytes takes the two pages below the window for its buffer. -/
theorem vbeInit_splitMap : ∃ k₁ h₀ h, TablesDirect k₁ ∧
    k₁.Leaves (ScreenFrame 0xFD000000 8000) ∧ HeapReach k₁ h₀ [] ∧
    h₀.heapLimit = 0xDFFFE000 ∧
    MappingsKeepTables h₀.machine (regionMappings videoVrtAddr 0xFD000000 8000) ∧
    (∀ k, mapRegion h₀.machine videoVrtAddr 0xFD000000 8000 = some k →
      StaysUnder { h₀ with machine := k } 8000) ∧
    vbeInit h₀ 0xFD000000 80 100 = some (0xDFFFE010, h) := by
  obtain ⟨s, k₁, h, τ, m, hs, hk₁, hdirect, hlow, hcons, _, hbelow, hinit, hlimit, hrest, hpresent,
    hlow', hinv⟩ := initHeap_splitMap
  have hleaves := leaves_splitMap hs hk₁ hlow hcons
  have hv : videoVrtAddr < 4294967296 := by decide
  have hvis : ∀ c ∈ regionMappings videoVrtAddr 0xFD000000 8000,
      0xE0000 ≤ c.page ∧ c.page < 0xE0002 := by
    intro c hc
    have hvis := (exists_regionMappings hv).mp ⟨c, hc, rfl⟩
    simp only [Visits, videoVrtAddr, u32] at hvis
    omega
  obtain ⟨hkeep, k, hmaps, hsame, hold⟩ := mapPages_present hinv.owns.tables fun c hc => by
    obtain ⟨hlo, hhi⟩ := hvis c hc
    refine ⟨hpresent _ (by omega) (by omega), fun ht => ?_⟩
    have := hlow' _ ht
    omega
  have hmap : mapRegion h.machine videoVrtAddr 0xFD000000 8000 = some k :=
    (mapRegion_eq_some hv (by decide)).mpr ⟨by decide, hmaps⟩
  have hinv' := hinv.mapPages hkeep (fun a hlo hhi c hc heq => by
    have := (hvis c hc).1
    omega) hmaps
  have hfree' : k.pmm.freeFrames = List.range' 0x1FFFE 1026 := by
    rw [hsame]
    exact hrest
  have hz' : 0 ∉ k.pmm.freeFrames := by
    rw [hfree']
    exact zero_notMem_range' (by decide)
  have hthere : ∀ i < neededPages 8000, k.table ((h.heapLimit / 4096 + i) / 1024) ≠ none := by
    intro i hi
    have hi : i < 2 := hi
    rw [hold]
    exact hpresent _ (by omega) (by omega)
  have hbelow' : ∀ f, k.TableFrame f → f < h.heapLimit / 4096 := by
    rintro f ⟨d, hd, ht⟩
    have := hlow' f ⟨d, hd, (hold d).symm.trans ht⟩
    omega
  have henough : neededPages 8000 ≤ k.pmm.freeFrames.length := by
    rw [hfree', List.length_range']
    decide
  have hroom : h.heapLimit + neededPages 8000 * 4096 ≤ videoVrtAddr := by
    rw [hlimit]
    decide
  obtain ⟨hkeeps, h', hcall, _⟩ := kmalloc_present (h := { h with machine := k }) hinv' hz'
    (by unfold Reasonable; decide) (show 4080 < roundedUp 8000 by decide)
    (Nat.lt_of_le_of_lt hroom (by decide)) hthere hbelow' henough
  have hptr : h.heapLimit + 16 = 0xDFFFE010 := by omega
  refine ⟨k₁, h, h', hdirect, hleaves, .initHeap hbelow hinit, hlimit, hkeep, fun k' hk' => ?_, ?_⟩
  · obtain rfl := Option.some.inj (hmap.symm.trans hk')
    exact ⟨by unfold Reasonable; decide, hkeeps, fun _ => hroom⟩
  · have hsize : u32 (80 * 100) = 8000 := by decide
    have hfb : u32 0xFD000000 = 0xFD000000 := by decide
    simp only [vbeInit, hsize, hfb, hmap, Option.bind_eq_bind, Option.bind_some]
    exact hcall.trans (congrArg some (Prod.ext hptr rfl))

theorem double_buffer_refined_splitMap : ∃ h p b₀,
    Displays 0xFD000000 p 8000 h.machine b₀ ∧
      ∀ ds h' live', ScreenRun p 8000 h [(p, 8000)] ds h' live' →
        Displays 0xFD000000 p 8000 h'.machine (ds.foldl DoubleBuffer.after b₀) := by
  obtain ⟨k₁, h₀, h, hk, hleaves, hreach, hlimit, hkeep, hstay, hinit⟩ := vbeInit_splitMap
  obtain ⟨b₀, hd, hruns⟩ := double_buffer_refined k₁ hk hleaves hreach (by rw [hlimit]; decide)
    (by decide) (by decide) (by decide) hkeep hstay hinit (by decide)
  exact ⟨h, _, b₀, hd, fun ds h' live' hrun => (hruns ds h' live' hrun).1⟩

end ScratchOs.Mem
