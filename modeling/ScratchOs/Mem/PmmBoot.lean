import ScratchOs.Mem.PmmInit

/-!
# Which frames boot hands out, and where it writes

Two questions about `init_pmm` that its code leaves to the memory map.

*Are the frames it frees RAM?* `free_region` rounds a usable region outwards, as
`pmm_reserve_region` does; for freeing that is the wrong way. A page that a usable region
covers in part is freed whole, and the information structure, unlike the map it points to, is
reserved by nobody. `framesAreFreeRam_iff` says that these two are all that can go wrong.

*Does it stay inside the bitmap?* The bitmap is sized from `mem_lower + mem_upper` and indexed
by absolute frame number. `bitmapInBounds_iff` is the exact bound on the memory map.

Both answers are about a map that `init_pmm` gets to read, one that does not lie under the bitmap
(`MapBesideBitmap`). Beside the bitmap is not out of reach of it: a reservation that leaves the
bitmap can still hit `mb_info` before the map's address is read again. It does not change the
answers. The second is then no already; and for the first, a reservation of low memory or of the
kernel that leaves the bitmap has passed every frame there is, so none is free
(`MapBesideBitmap.mem_freeFrames`).

Under the bitmap there is no such argument. The clearest case has a name of its own,
`overwrittenInfo_out_of_bounds`: with both fields of `mb_info` overwritten, the reservation of
the map runs far past any bitmap.
-/

set_option autoImplicit false

namespace ScratchOs.Mem

open Bits Boot

/-! ## The frames handed out

Frames come out of the allocator lowest first, so the frames that some number of calls hands out are
the free ones, each at its turn (`mem_pmmAllocPages`). With that a statement about every number of
calls is one about a set, and the rest of the module is about the set. -/

/-- The answers of `n` successive calls of `pmm_alloc_page`. -/
def pmmAllocPages : Nat → Pmm → List Nat
  | 0, _ => []
  | n + 1, s => (pmmAllocPage s).1 :: pmmAllocPages n (pmmAllocPage s).2

/-- Page `f` has a byte in common with `[lo, hi)`. -/
def SharesByte (f lo hi : Nat) : Prop :=
  ∃ b, f * pageSize ≤ b ∧ b < (f + 1) * pageSize ∧ lo ≤ b ∧ b < hi

/-- Every byte of page `f` belongs to some type-1 entry. -/
def PageUsable (mm : MemoryMap) (f : Nat) : Prop :=
  ∀ b, f * pageSize ≤ b → b < (f + 1) * pageSize →
    ∃ e ∈ mm.usable, e.addr ≤ b ∧ b < e.addr + e.len

/-- Page `f` is RAM that nobody else uses. -/
structure FreeRam (image : KernelImage) (mm : MemoryMap) (f : Nat) : Prop where
  usable : PageUsable mm f
  low : ¬ SharesByte f 0 0x100000
  kernel : ¬ SharesByte f kernelStart image.kernelEnd
  map : ¬ SharesByte f mm.info.mmapAddr (mm.info.mmapAddr + mm.info.mmapLength)
  bitmap : ¬ SharesByte f (bitmapAddr image) (bitmapAddr image + bitmapSizeOf mm.info)
  info : ¬ SharesByte f mm.infoAddr (mm.infoAddr + multibootInfoSize)

/-- `init_pmm` returns, and every page allocated after it is free RAM. -/
def FramesAreFreeRam (image : KernelImage) (mm : MemoryMap) : Prop :=
  ∃ s, initPmm image mm.mem mm.infoAddr = some s ∧
    ∀ n, ∀ a ∈ pmmAllocPages n s, a ≠ 0 →
      a % pageSize = 0 ∧ FreeRam image mm (a / pageSize)

/-- The usable entries fit under `max_frames * 4096`. -/
def FitsUnderBitmap (mm : MemoryMap) : Prop :=
  ∀ e ∈ mm.usable, e.addr + e.len ≤ maxFramesOf mm.info * pageSize

/-- Page `f` holds one end of `e`, and that end is not a page boundary. -/
def PartialPage (e : MmapEntry) (f : Nat) : Prop :=
  (e.addr % pageSize ≠ 0 ∧ f = e.addr / pageSize) ∨
    ((e.addr + e.len) % pageSize ≠ 0 ∧ f = (e.addr + e.len) / pageSize)

/-- Page `f` is never handed out: the scan does not reach it, or it is reserved. -/
def Withheld (image : KernelImage) (mm : MemoryMap) (f : Nat) : Prop :=
  maxFramesOf mm.info / 32 * 32 ≤ f ∨ Reserved image mm f

/-- There are at most 32 type-1 entries; a page that one of them covers in part is withheld or
made whole by others; and a page of the information structure is withheld or not touched. -/
structure MapIsPageClean (image : KernelImage) (mm : MemoryMap) : Prop where
  count : mm.usable.length ≤ 32
  ends : ∀ e ∈ mm.usable, ∀ f, PartialPage e f → Withheld image mm f ∨ PageUsable mm f
  info : ∀ f, SharesByte f mm.infoAddr (mm.infoAddr + multibootInfoSize) →
    Withheld image mm f ∨ ¬ Touched mm f

theorem mem_pmmAllocPages {s : Pmm} {f : Nat} (hf : f ∈ s.freeFrames) :
    ∃ n, f * pageSize ∈ pmmAllocPages n s := by
  generalize hl : s.freeFrames = l at hf
  induction l generalizing s with
  | nil => exact absurd hf (by simp)
  | cons g rest ih =>
    have halloc : pmmAllocPage s = (g * pageSize, s.take g) := by rw [pmmAllocPage_eq, hl]
    rcases List.mem_cons.mp hf with rfl | htl
    · exact ⟨1, by simp [pmmAllocPages, halloc]⟩
    · obtain ⟨n, hn⟩ := ih (Pmm.freeFrames_take hl) htl
      exact ⟨n + 1, by simp [pmmAllocPages, halloc, hn]⟩

theorem mem_freeFrames_of_pmmAllocPages {s : Pmm} {a : Nat} (ha : a ≠ 0) :
    ∀ n, a ∈ pmmAllocPages n s → ∃ f ∈ s.freeFrames, a = f * pageSize := by
  intro n
  induction n generalizing s with
  | zero => intro h; exact absurd h (by simp [pmmAllocPages])
  | succ n ih =>
    intro h
    cases hl : s.freeFrames with
    | nil =>
      have halloc : pmmAllocPage s = (0, s) := by rw [pmmAllocPage_eq, hl]
      simp only [pmmAllocPages, halloc, List.mem_cons] at h
      rcases h with rfl | htl
      · exact absurd rfl ha
      · exact hl ▸ ih htl
    | cons g rest =>
      have halloc : pmmAllocPage s = (g * pageSize, s.take g) := by rw [pmmAllocPage_eq, hl]
      simp only [pmmAllocPages, halloc, List.mem_cons] at h
      rcases h with rfl | htl
      · exact ⟨g, List.mem_cons_self, rfl⟩
      · obtain ⟨f, hf, hfa⟩ := ih htl
        rw [Pmm.freeFrames_take hl] at hf
        exact ⟨f, List.mem_cons_of_mem _ hf, hfa⟩

/-! ## Pages and bytes -/

/-- A page that shares a byte with a region is one of the region's pages. -/
theorem mem_pagesOf_of_sharesByte {f addr size : Nat}
    (h : SharesByte f addr (addr + size)) (hlt : addr + size + 4095 < 18446744073709551616) :
    f ∈ pagesOf addr size := by
  obtain ⟨b, hb₁, hb₂, hb₃, hb₄⟩ := h
  rw [mem_pagesOf, u64_of_lt hlt]
  simp only [pageSize] at *
  omega

/-- A page that shares no byte with a region's end pages lies inside the region, if it is one
of the region's pages at all. -/
theorem inside_of_not_partial {e : MmapEntry} {f b : Nat} (hf : f ∈ pagesOf e.addr e.len)
    (hp : ¬ PartialPage e f) (hlt : e.addr + e.len + 4095 < 18446744073709551616)
    (hb₁ : f * pageSize ≤ b) (hb₂ : b < (f + 1) * pageSize) :
    e.addr ≤ b ∧ b < e.addr + e.len := by
  rw [mem_pagesOf, u64_of_lt hlt] at hf
  unfold PartialPage at hp
  simp only [pageSize] at *
  omega

/-- The page of a ragged end is touched by its entry. -/
theorem mem_pagesOf_of_partial {e : MmapEntry} {f : Nat} (h : PartialPage e f)
    (hlt : e.addr + e.len + 4095 < 18446744073709551616) : f ∈ pagesOf e.addr e.len := by
  rw [mem_pagesOf, u64_of_lt hlt]
  unfold PartialPage at h
  simp only [pageSize] at *
  omega

theorem FitsUnderBitmap.lt {mm : MemoryMap} (h : FitsUnderBitmap mm) {e : MmapEntry}
    (he : e ∈ mm.usable) : e.addr + e.len + 4095 < 18446744073709551616 := by
  have h₁ := h e he
  have h₂ := maxFramesOf_lt mm.info
  simp only [pageSize] at h₁
  omega

theorem bitmapAddr_lt (image : KernelImage) : bitmapAddr image < 4294967296 :=
  Nat.lt_of_le_of_lt Nat.and_le_left (u32_lt _)

/-- A page that is not reserved meets none of the four regions. -/
theorem not_sharesByte_of_not_reserved {image : KernelImage} {mm : MemoryMap} {f : Nat}
    (h : ¬ Reserved image mm f) :
    ¬ SharesByte f 0 0x100000 ∧ ¬ SharesByte f kernelStart image.kernelEnd ∧
      ¬ SharesByte f mm.info.mmapAddr (mm.info.mmapAddr + mm.info.mmapLength) ∧
      ¬ SharesByte f (bitmapAddr image) (bitmapAddr image + bitmapSizeOf mm.info) := by
  have hregion : ∀ r ∈ reservedRegions image mm.info,
      r.1 + r.2 + 4095 < 18446744073709551616 → ¬ SharesByte f r.1 (r.1 + r.2) :=
    fun r hr hlt hs => h ⟨r, hr, mem_pagesOf_of_sharesByte hs hlt⟩
  have hstart := image.start_le
  have hend := image.end_le
  have hbm := bitmapAddr_lt image
  have hmax := maxFramesOf_lt mm.info
  have hmap := mm.buffer_lt
  simp only [reservedRegions, List.forall_mem_cons] at hregion
  obtain ⟨hlow, hker, hbuf, hbit, -⟩ := hregion
  refine ⟨hlow (by decide), ?_, hbuf (by omega), hbit ?_⟩
  · have := hker (by simp only [kernelStart] at *; omega)
    rwa [show kernelStart + (image.kernelEnd - kernelStart) = image.kernelEnd by omega] at this
  · unfold bitmapSizeOf
    omega

/-! ## Regions and the bitmap

A region is walked by pages and fits when its last page does, or when it has no page: with
`addr + size + 4095` in 64 bits, a region at the very end of the address space rounds to nothing.
That is why `RegionFits` is not a bound on the end of the region alone. -/

/-- The region, rounded outwards, spans no page or ends within the frames the bitmap covers. -/
def RegionFits (mm : MemoryMap) (r : Nat × Nat) : Prop :=
  u64 (r.1 + r.2 + 4095) / pageSize ≤ r.1 / pageSize ∨
    u64 (r.1 + r.2 + 4095) / pageSize ≤ (maxFramesOf mm.info + 31) / 32 * 32

theorem regionFits_iff {mm : MemoryMap} {r : Nat × Nat} :
    RegionFits mm r ↔ ∀ f ∈ pagesOf r.1 r.2, f / 32 < bitmapSizeOf mm.info / 4 := by
  have hsize : bitmapSizeOf mm.info / 4 = (maxFramesOf mm.info + 31) / 32 := by
    unfold bitmapSizeOf
    omega
  simp only [hsize, mem_pagesOf, RegionFits]
  constructor
  · intro h f hf
    omega
  · intro h
    by_contra hc
    have := h (u64 (r.1 + r.2 + 4095) / pageSize - 1) (by omega)
    omega

/-- The frames that are free, beside the bitmap and under `max_frames`. When a reservation leaves
the bitmap, it is one that has passed all of them. -/
theorem MapBesideBitmap.mem_freeFrames {image : KernelImage} {mm : MemoryMap} {s : Pmm}
    (hbeside : MapBesideBitmap image mm) (hfit : FitsUnderBitmap mm)
    (h : initPmm image mm.mem mm.infoAddr = some s) (f : Nat) :
    f ∈ s.freeFrames ↔ f < maxFramesOf mm.info / 32 * 32 ∧ Touched mm f ∧
      ¬ Reserved image mm f := by
  have hmax := maxFramesOf_lt mm.info
  have hclears : ∀ e ∈ mm.usable, RegionFits mm (e.addr, e.len) := by
    intro e he
    have hend := hfit e he
    have hlt := hfit.lt he
    simp only [RegionFits, u64_of_lt hlt]
    simp only [pageSize] at hend ⊢
    omega
  by_cases hin : RegionFits mm (0, pageSize * 256) ∧
      RegionFits mm (kernelStart, image.kernelEnd - kernelStart)
  · refine mem_freeFrames_initPmm (hbeside.found_of_inBounds fun op hop => ?_)
      (fun e he => ?_) h f
    · rcases mem_mapOps_index hop with ⟨e, he, hf⟩ | hf | hf
      · exact regionFits_iff.mp (hclears e he) _ hf
      · exact regionFits_iff.mp hin.1 _ hf
      · exact regionFits_iff.mp hin.2 _ hf
    · have hend := hfit e he
      simp only [pageSize] at hend
      omega
  · -- The two regions lie back to back from frame 0 on.
    have hall : ∀ g < maxFramesOf mm.info / 32 * 32, g ∈ pagesOf 0 (pageSize * 256) ∨
        g ∈ pagesOf kernelStart (image.kernelEnd - kernelStart) := by
      intro g hg
      have hend := image.end_le
      rw [mem_pagesOf, mem_pagesOf]
      simp only [RegionFits, pageSize, kernelStart, u64] at hin ⊢
      omega
    have hscanned : s.scanned = maxFramesOf mm.info / 32 * 32 := by
      obtain ⟨ops, _, rfl⟩ := Option.map_eq_some_iff.mp h
      simp only [Pmm.scanned, mm.held]
    rw [Pmm.mem_freeFrames, hscanned]
    constructor
    · rintro ⟨hlt, hfree⟩
      rw [taken_initPmm h (hall f hlt)] at hfree
      exact absurd hfree (by simp)
    · rintro ⟨hlt, _, hreserved⟩
      refine absurd ?_ hreserved
      rcases hall f hlt with hlow | hkernel
      · exact ⟨_, List.mem_cons_self, hlow⟩
      · exact ⟨_, List.mem_cons_of_mem _ List.mem_cons_self, hkernel⟩

/-! ## Free RAM -/

/-- What `init_pmm` frees is free RAM, page by page, exactly when the map is clean. -/
theorem freeRam_iff {image : KernelImage} {mm : MemoryMap} (hfit : FitsUnderBitmap mm) :
    (∀ f, f < maxFramesOf mm.info / 32 * 32 → Touched mm f → ¬ Reserved image mm f →
        FreeRam image mm f) ↔
      (∀ e ∈ mm.usable, ∀ f, PartialPage e f → Withheld image mm f ∨ PageUsable mm f) ∧
      ∀ f, SharesByte f mm.infoAddr (mm.infoAddr + multibootInfoSize) →
        Withheld image mm f ∨ ¬ Touched mm f := by
  constructor
  · intro h
    refine ⟨fun e he f hp => ?_, fun f hs => ?_⟩
    · by_cases hw : Withheld image mm f
      · exact Or.inl hw
      · unfold Withheld at hw
        push Not at hw
        exact Or.inr
          (h f hw.1 ⟨e, he, mem_pagesOf_of_partial hp (hfit.lt he)⟩ hw.2).usable
    · by_cases hw : Withheld image mm f
      · exact Or.inl hw
      · unfold Withheld at hw
        push Not at hw
        exact Or.inr fun ht => (h f hw.1 ht hw.2).info hs
  · rintro ⟨hends, hinfo⟩ f hlt ht hr
    have hw : ¬ Withheld image mm f := by
      rintro (hge | hres)
      · omega
      · exact hr hres
    obtain ⟨hlow, hker, hbuf, hbit⟩ := not_sharesByte_of_not_reserved hr
    refine ⟨?_, hlow, hker, hbuf, hbit, fun hs => ?_⟩
    · obtain ⟨e, he, hpages⟩ := ht
      by_cases hp : PartialPage e f
      · exact (hends e he f hp).resolve_left hw
      · exact fun b hb₁ hb₂ => ⟨e, he, inside_of_not_partial hpages hp (hfit.lt he) hb₁ hb₂⟩
    · exact (hinfo f hs).elim hw fun hn => hn ht

theorem FramesAreFreeRam.clean {image : KernelImage} {mm : MemoryMap}
    (hbeside : MapBesideBitmap image mm) (hfit : FitsUnderBitmap mm)
    (h : FramesAreFreeRam image mm) : MapIsPageClean image mm := by
  obtain ⟨s, hs, hall⟩ := h
  obtain ⟨ops, hops, -⟩ := Option.map_eq_some_iff.mp hs
  have hram : ∀ f, f < maxFramesOf mm.info / 32 * 32 → Touched mm f → ¬ Reserved image mm f →
      FreeRam image mm f := by
    intro f hlt ht hr
    obtain ⟨n, hn⟩ := mem_pmmAllocPages ((hbeside.mem_freeFrames hfit hs f).mpr ⟨hlt, ht, hr⟩)
    have hf0 : f ≠ 0 := fun h0 => hr (h0 ▸ reserved_low image mm (by decide))
    have := (hall n _ hn (Nat.mul_ne_zero hf0 (by decide))).2
    rwa [Nat.mul_div_cancel _ (by decide : 0 < pageSize)] at this
  obtain ⟨hends, hinfo⟩ := (freeRam_iff hfit).mp hram
  exact ⟨(hbeside.read.mapOps_mem hops).1, hends, hinfo⟩

theorem MapIsPageClean.freeRam {image : KernelImage} {mm : MemoryMap}
    (hbeside : MapBesideBitmap image mm) (hfit : FitsUnderBitmap mm)
    (h : MapIsPageClean image mm) : FramesAreFreeRam image mm := by
  obtain ⟨s, hs⟩ := initPmm_returns hbeside.read h.count
  refine ⟨s, hs, fun n a ha ha0 => ?_⟩
  obtain ⟨f, hf, rfl⟩ := mem_freeFrames_of_pmmAllocPages ha0 n ha
  obtain ⟨hlt, ht, hr⟩ := (hbeside.mem_freeFrames hfit hs f).mp hf
  rw [Nat.mul_div_cancel _ (by decide : 0 < pageSize)]
  exact ⟨Nat.mul_mod_left _ _, (freeRam_iff hfit).mpr ⟨h.ends, h.info⟩ f hlt ht hr⟩

/-- **When boot hands out free RAM only.** For maps that fit under the bitmap and lie beside
it. -/
theorem framesAreFreeRam_iff (image : KernelImage) (mm : MemoryMap) (hfit : FitsUnderBitmap mm)
    (hbeside : MapBesideBitmap image mm) :
    FramesAreFreeRam image mm ↔ MapIsPageClean image mm :=
  ⟨fun h => h.clean hbeside hfit, fun h => h.freeRam hbeside hfit⟩

/-- A kernel that ends at 1.125 MiB. -/
def smallKernel : KernelImage := ⟨0x120000, by decide, by decide⟩

theorem maxFramesOf_pcMap {addr len : Nat} (h) :
    maxFramesOf (pcMap addr len h).info = 8096 := by
  show u32 (u32 (31744 + 640) * 1024) / 4096 = 8096
  decide

/-- The map of `pcMap` lies in low memory, out of the way of the bitmap. -/
theorem mapBesideBitmap_pcMap {addr len : Nat} (h) :
    MapBesideBitmap smallKernel (pcMap addr len h) := by
  refine mapBesideBitmap_of_below ?_ ?_ (by decide)
  · show 0x9500 + multibootInfoSize ≤ bitmapAddr smallKernel
    decide
  · show 0x9600 + 24 * 2 ≤ bitmapAddr smallKernel
    decide

/-- The condition is met by page-aligned memory. -/
theorem framesAreFreeRam_aligned :
    FramesAreFreeRam smallKernel (pcMap 0x100000 0x1E00000 (by decide)) := by
  refine (framesAreFreeRam_iff _ _ ?_ (mapBesideBitmap_pcMap _)).mpr ⟨by decide, ?_, ?_⟩
  · unfold FitsUnderBitmap
    rw [usable_pcMap, maxFramesOf_pcMap]
    decide
  · intro e he f hp
    rw [usable_pcMap, List.mem_cons, List.mem_singleton] at he
    rcases he with rfl | rfl <;> exact absurd hp (by simp [PartialPage, pageSize])
  · rintro f ⟨b, hb⟩
    refine Or.inl (Or.inr (reserved_low _ _ ?_))
    simp only [show (pcMap 0x100000 0x1E00000 (by decide)).infoAddr = 0x9500 from rfl,
      multibootInfoSize, pageSize] at hb
    omega

/-- Upper memory that starts in the middle of page `0x200`: the page is handed out, and its
first half is not RAM. -/
theorem raggedPage_handed_out :
    FitsUnderBitmap (pcMap 0x200800 0x100000 (by decide)) ∧
      ¬ FramesAreFreeRam smallKernel (pcMap 0x200800 0x100000 (by decide)) := by
  have hfit : FitsUnderBitmap (pcMap 0x200800 0x100000 (by decide)) := by
    unfold FitsUnderBitmap
    rw [usable_pcMap, maxFramesOf_pcMap]
    decide
  refine ⟨hfit, fun h => ?_⟩
  have hclean := h.clean (mapBesideBitmap_pcMap _) hfit
  have hpage := hclean.ends ⟨20, 0x200800, 0x100000, 1⟩ (by simp [usable_pcMap]) 0x200
    (Or.inl ⟨by decide, by decide⟩)
  rcases hpage with (hscan | ⟨r, hr, hf⟩) | hram
  · rw [maxFramesOf_pcMap] at hscan
    exact absurd hscan (by decide)
  · rw [mem_pagesOf] at hf
    revert r
    decide
  · obtain ⟨e, he, hlo, hhi⟩ := hram 0x200000 (by decide) (by decide)
    rw [usable_pcMap, List.mem_cons, List.mem_singleton] at he
    rcases he with rfl | rfl
    · exact absurd hhi (by decide)
    · exact absurd hlo (by decide)

/-! ## The bounds of the bitmap -/

/-- `init_pmm` runs, and every index it hands to `SET_BIT` or `CLEAR_BIT` is one of the bitmap
it initialised. -/
def BitmapInBounds (image : KernelImage) (mm : MemoryMap) : Prop :=
  ∃ ops, initPmmOps image mm.mem mm.infoAddr = some ops ∧
    ∀ op ∈ ops, op.index / 32 < bitmapSizeOf mm.info / 4

/-- The regions `init_pmm` walks: the usable ones, then the reserved ones. -/
def walkedRegions (image : KernelImage) (mm : MemoryMap) : List (Nat × Nat) :=
  mm.usable.map (fun e => (e.addr, e.len)) ++ reservedRegions image mm.info

theorem mem_initPmmOps_index {image : KernelImage} {mm : MemoryMap} {ops : List BitOp}
    (hfound : MapFound image mm) (h : initPmmOps image mm.mem mm.infoAddr = some ops) (f : Nat) :
    (∃ op ∈ ops, op.index = f) ↔ ∃ r ∈ walkedRegions image mm, f ∈ pagesOf r.1 r.2 := by
  rw [initPmmOps_eq hfound (hfound.mapOps_mem h).1, Option.some.injEq] at h
  subst h
  simp only [walkedRegions, freeRegion, pmmReserveRegion, List.mem_append, List.mem_flatMap,
    List.mem_map]
  constructor
  · rintro ⟨op, ⟨e, he, i, hi, rfl⟩ | ⟨r, hr, i, hi, rfl⟩, rfl⟩
    · exact ⟨(e.addr, e.len), Or.inl ⟨e, he, rfl⟩, hi⟩
    · exact ⟨r, Or.inr hr, hi⟩
  · rintro ⟨r, ⟨e, he, rfl⟩ | hr, hf⟩
    · exact ⟨.clear f, Or.inl ⟨e, he, f, hf, rfl⟩, rfl⟩
    · exact ⟨.set f, Or.inr ⟨r, hr, f, hf, rfl⟩, rfl⟩

theorem BitmapInBounds.fits {image : KernelImage} {mm : MemoryMap}
    (hbeside : MapBesideBitmap image mm) (h : BitmapInBounds image mm) :
    mm.usable.length ≤ 32 ∧ ∀ r ∈ walkedRegions image mm, RegionFits mm r := by
  obtain ⟨ops, hops, hall⟩ := h
  obtain ⟨hlen, hmem⟩ := hbeside.read.mapOps_mem hops
  have hfound := hbeside.found_of_inBounds fun op hop => hall op (hmem op hop)
  refine ⟨hlen, fun r hr => regionFits_iff.mpr fun f hf => ?_⟩
  obtain ⟨op, hop, rfl⟩ := (mem_initPmmOps_index hfound hops f).mpr ⟨r, hr, hf⟩
  exact hall op hop

/-- **When the bitmap is never accessed out of bounds.** For maps that lie beside it. -/
theorem bitmapInBounds_iff (image : KernelImage) (mm : MemoryMap)
    (hbeside : MapBesideBitmap image mm) : BitmapInBounds image mm ↔
      mm.usable.length ≤ 32 ∧ ∀ r ∈ walkedRegions image mm, RegionFits mm r := by
  refine ⟨fun h => h.fits hbeside, ?_⟩
  rintro ⟨hlen, hfit⟩
  have hfound : MapFound image mm := by
    refine hbeside.found_of_inBounds fun op hop => ?_
    rcases mem_mapOps_index hop with ⟨e, he, hf⟩ | hf | hf
    · exact regionFits_iff.mp
        (hfit _ (List.mem_append_left _ (List.mem_map_of_mem he))) _ hf
    · exact regionFits_iff.mp
        (hfit _ (List.mem_append_right _ List.mem_cons_self)) _ hf
    · exact regionFits_iff.mp
        (hfit _ (List.mem_append_right _ (List.mem_cons_of_mem _ List.mem_cons_self))) _ hf
  have hops := initPmmOps_eq hfound hlen
  refine ⟨_, hops, fun op hop => ?_⟩
  obtain ⟨r, hr, hf⟩ := (mem_initPmmOps_index hfound hops op.index).mp ⟨op, hop, rfl⟩
  exact regionFits_iff.mp (hfit r hr) _ hf

/-- Page-aligned memory stays inside: the last page of it has the last bit but 160. -/
theorem bitmapInBounds_aligned :
    BitmapInBounds smallKernel (pcMap 0x100000 0x1E00000 (by decide)) := by
  refine (bitmapInBounds_iff _ _ (mapBesideBitmap_pcMap _)).mpr ⟨by decide, ?_⟩
  unfold RegionFits walkedRegions
  rw [usable_pcMap, maxFramesOf_pcMap]
  decide

/-- With its bits set, a byte of the bitmap is full. -/
theorem byte_of_bits {image : KernelImage} {mb : MultibootInfo} {m : Bytes.Mem} {c : Nat}
    (hbits : ∀ f < bitmapSizeOf mb / 4 * 32, getBit (wordsAt (bitmapAddr image) m) f = true)
    (hc : UnderBitmap image mb c) : m c = 0xFF := by
  obtain ⟨j, hj, rfl⟩ := hc
  have hsize : bitmapSizeOf mb % 4 = 0 := Nat.mul_mod_left _ 4
  have halign := bitmapAddr_aligned_word image
  have hfull : ∀ k < 32, getBit (wordsAt (bitmapAddr image) m) (j / 4 * 32 + k) = true :=
    fun k hk => hbits _ (by omega)
  have hword := byte_of_full hfull (Nat.mod_lt j (by decide : 0 < 4))
  rwa [show wordAddr (bitmapAddr image) (j / 4) + j % 4 = u32 (bitmapAddr image + j) by
    simp only [wordAddr, u32]
    omega] at hword

/-- The map's address and length, when they lie under the bitmap. -/
theorem sameBuffer_of_full {image : KernelImage} {mm : MemoryMap} {m : Bytes.Mem}
    (hunder : ∀ c, mm.infoAddr + 44 ≤ c → c < mm.infoAddr + 52 → UnderBitmap image mm.info c)
    (hbits : ∀ f < bitmapSizeOf mm.info / 4 * 32,
      getBit (wordsAt (bitmapAddr image) m) f = true) :
    (readInfo m mm.infoAddr).mmapAddr = 0xFFFFFFFF ∧
      (readInfo m mm.infoAddr).mmapLength = 0xFFFFFFFF := by
  have hbyte : ∀ o, 44 ≤ o → o < 52 → m (mm.infoAddr + o) = 0xFF := fun o hlo hhi =>
    byte_of_bits hbits (hunder _ (Nat.add_le_add_left hlo _) (Nat.add_lt_add_left hhi _))
  constructor
  · simp only [readInfo, Bytes.load32, Nat.add_assoc, Nat.reduceAdd, hbyte 48 (by decide) (by decide),
      hbyte 49 (by decide) (by decide), hbyte 50 (by decide) (by decide),
      hbyte 51 (by decide) (by decide)]
    decide
  · simp only [readInfo, Bytes.load32, Nat.add_assoc, Nat.reduceAdd, hbyte 44 (by decide) (by decide),
      hbyte 45 (by decide) (by decide), hbyte 46 (by decide) (by decide),
      hbyte 47 (by decide) (by decide)]
    decide

/-- A map of `2 ^ 32 - 1` bytes at address `2 ^ 32 - 1` ends, in 32 bits, before it begins. -/
theorem usableRegions_of_full (mem : Bytes.Mem) {mb : MultibootInfo}
    (h : mb.mmapAddr = 0xFFFFFFFF ∧ mb.mmapLength = 0xFFFFFFFF) (n : Nat) :
    multibootGetUsableRegions mem mb n = some [] := by
  rw [multibootGetUsableRegions, multibootIterateMmap, h.1, h.2]
  exact iterateFrom_of_le (by decide) (by decide)

/-- With the map's address and length under the bitmap, what is reserved for the map runs past
every bitmap. -/
theorem overwrittenInfo_out_of_bounds {image : KernelImage} {mm : MemoryMap}
    (hunder : ∀ c, mm.infoAddr + 44 ≤ c → c < mm.infoAddr + 52 → UnderBitmap image mm.info c) :
    ¬ BitmapInBounds image mm := by
  rintro ⟨ops, hops, hall⟩
  have hfilled : ∀ f < bitmapSizeOf mm.info / 4 * 32, getBit (wordsAt (bitmapAddr image)
      (msetBitmap image mm.mem mm.info)) f = true :=
    fun f hf => getBit_msetBitmap image mm.mem mm.info hf
  have hregions := usableRegions_of_full (msetBitmap image mm.mem mm.info)
    (sameBuffer_of_full hunder hfilled) 32
  simp only [initPmmOps, mm.held, hregions, Option.bind_eq_bind, Option.bind_some, List.length_nil,
    Nat.not_lt_zero, if_false, Option.some.injEq] at hops
  -- Without regions the operations so far are reservations, and leave the bitmap full.
  have hagain : ∀ f < bitmapSizeOf mm.info / 4 * 32, getBit (wordsAt (bitmapAddr image)
      (runOps image (msetBitmap image mm.mem mm.info) (opsBeforeMap image []))) f = true := by
    intro f hf
    have hsize := bitmapSizeOf_le mm.info
    have hlt : f < 34359738368 := by omega
    rw [opsBeforeMap, List.filter_nil, List.flatMap_nil, List.nil_append, runOps_append]
    exact getBit_runOps_reserve hlt _ _
      (Or.inr (getBit_runOps_reserve hlt _ _ (Or.inr (hfilled f hf))))
  obtain ⟨haddr, hlength⟩ := sameBuffer_of_full hunder hagain
  have hlast : 2097151 ∈ pagesOf 0xFFFFFFFF 0xFFFFFFFF := by
    rw [mem_pagesOf]
    decide
  have hin := hall (.set 2097151) (by
    rw [← hops, haddr, hlength]
    exact List.mem_append_right _ (List.mem_append_left _ (List.mem_map_of_mem hlast)))
  have hsize := bitmapSizeOf_le mm.info
  simp only [BitOp.index] at hin
  omega

/-- The type-1 entries lie in the `mem_lower` KiB below 640 KiB and the `mem_upper` KiB from
1 MiB on. -/
def EntriesInRam (mm : MemoryMap) : Prop :=
  mm.info.memLower ≤ 640 ∧ ∀ e ∈ mm.usable,
    e.addr + e.len ≤ mm.info.memLower * 1024 ∨
      (0x100000 ≤ e.addr ∧ e.addr + e.len ≤ 0x100000 + mm.info.memUpper * 1024)

/-- A map that lists all of its upper memory: the hole below 1 MiB is not counted in
`mem_lower + mem_upper`, so the last frames have no bit. -/
theorem fullMap_out_of_bounds :
    EntriesInRam (pcMap 0x100000 0x1F00000 (by decide)) ∧
      ¬ BitmapInBounds smallKernel (pcMap 0x100000 0x1F00000 (by decide)) := by
  refine ⟨⟨by decide, ?_⟩, fun h => ?_⟩
  · rw [usable_pcMap]
    decide
  · have := (h.fits (mapBesideBitmap_pcMap _)).2 (0x100000, 0x1F00000)
      (by simp [walkedRegions, usable_pcMap])
    unfold RegionFits at this
    rw [maxFramesOf_pcMap] at this
    exact absurd this (by decide)

end ScratchOs.Mem
