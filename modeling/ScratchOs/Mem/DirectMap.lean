import ScratchOs.Mem.PmmBoot
import ScratchOs.Mem.VmmInit
import Mathlib.Data.List.Perm.Subperm

/-!
# The direct map

The kernel reaches a frame it has allocated at `PA_VA(f)`, so every frame that can still be
allocated after `init_vmm` should be mapped there. The allocator rounds a usable region
outwards, in 64 bits; `init_vmm` walks it from its unrounded start, in 32 bits. A last page
that the region covers in part, and every page of a region whose end wraps, is free and not
mapped.

`lastFrame_bootMappings` is where the page tables point after `init_vmm`. The rest compares it
with the frames that are left: `CoveredFrame` is what it takes for one frame.

Regions may overlap, and the last mapping of a page is the one that counts. What makes this
harmless among usable regions is that they all map with the same offset (`lastFrame_usable`): on a
page that two of them come to, they agree. The kernel's image is mapped with that offset as well.
Only the identity map and the VGA page have others, one at the beginning of the list and one at its
end, and these two are the cases in `lastFrame_bootMappings`.

The result has two directions with different hypotheses. That covered frames are reached needs
nothing more. The converse needs that no page table is disturbed by a mapping over its own page:
otherwise `get_physical_address` may read some other page as a table, and what it finds there can
even be right.
-/

set_option autoImplicit false

namespace ScratchOs.Mem

open Bits Boot

/-! ## Which pages the boot mappings reach -/

/-- The loop of `map_region` comes to page `q`. -/
def Visits (v size q : Nat) : Prop := v / 4096 ≤ q ∧ q * 4096 + v % 4096 < u32 (v + size)

instance (v size q : Nat) : Decidable (Visits v size q) := inferInstanceAs (Decidable (_ ∧ _))

/-- The frame `map_region` puts behind page `q`. -/
def regionFrame (v p q : Nat) : Nat := (p / 4096 + (q - v / 4096)) % 1048576

/-- The frame that `PA_VA` takes to page `q`. -/
def directFrame (q : Nat) : Nat := (q + 0x40000) % 1048576

theorem regionMappings_frame {v size : Nat} (hv : v < 4294967296) (p : Nat) :
    ∀ c ∈ regionMappings v p size, c.frame = regionFrame v p c.page := by
  intro c hc
  obtain ⟨j, hj, rfl⟩ := List.mem_map.mp hc
  have hj' := List.mem_range.mp hj
  have hb := u32_lt (v + size)
  simp only [Mapping.frame, Mapping.page, regionFrame, UInt32.toNat_ofNat', Nat.reducePow]
  omega

theorem exists_regionMappings {v p size q : Nat} (hv : v < 4294967296) :
    (∃ c ∈ regionMappings v p size, c.page = q) ↔ Visits v size q := by
  have hb := u32_lt (v + size)
  unfold Visits
  constructor
  · rintro ⟨c, hc, rfl⟩
    obtain ⟨j, hj, rfl⟩ := List.mem_map.mp hc
    have hj' := List.mem_range.mp hj
    simp only [Mapping.page, UInt32.toNat_ofNat', Nat.reducePow]
    omega
  · rintro ⟨hlo, hhi⟩
    refine ⟨_, List.mem_map.mpr ⟨q - v / 4096, List.mem_range.mpr (by omega), rfl⟩, ?_⟩
    simp only [Mapping.page, UInt32.toNat_ofNat', Nat.reducePow]
    omega

theorem lastFrame_regionMappings {v size : Nat} (hv : v < 4294967296) (p q : Nat) :
    lastFrame (regionMappings v p size) q =
      if Visits v size q then some (regionFrame v p q) else none := by
  split
  · next h =>
    exact lastFrame_of_mem _ (regionMappings_frame hv p) ((exists_regionMappings hv).mpr h)
  · next h =>
    exact lastFrame_of_notMem fun c hc hq => h ((exists_regionMappings hv).mp ⟨c, hc, hq⟩)

/-- A usable region is mapped at page `q`. -/
def DirectMapped (mm : MemoryMap) (q : Nat) : Prop :=
  ∃ e ∈ mm.usable, Visits (directRegion e).1 (directRegion e).2.2 q

instance (mm : MemoryMap) (q : Nat) : Decidable (DirectMapped mm q) :=
  inferInstanceAs (Decidable (∃ e ∈ mm.usable, _))

/-- However the regions overlap and wrap, they agree: page `q` goes to the frame `PA_VA` takes
there. -/
theorem lastFrame_usable (mm : MemoryMap) (q : Nat) :
    lastFrame (mappingsOf (mm.usable.map directRegion)) q =
      if DirectMapped mm q then some (directFrame q) else none := by
  have hmem : ∀ c, c ∈ mappingsOf (mm.usable.map directRegion) ↔
      ∃ e ∈ mm.usable, c ∈ regionMappings (directRegion e).1 (directRegion e).2.1
        (directRegion e).2.2 := by
    intro c
    simp [mappingsOf]
  have hv : ∀ e, (directRegion e).1 < 4294967296 := fun e => u32_lt _
  have hframe : ∀ c ∈ mappingsOf (mm.usable.map directRegion),
      c.frame = directFrame c.page := by
    intro c hc
    obtain ⟨e, _, hce⟩ := (hmem c).mp hc
    have hlo := ((exists_regionMappings (hv e)).mp ⟨c, hce, rfl⟩).1
    rw [regionMappings_frame (hv e) _ c hce]
    simp only [regionFrame, directFrame, directRegion, u32, u64, highMemoryBase] at hlo ⊢
    omega
  split
  · next h =>
    obtain ⟨e, he, hvis⟩ := h
    obtain ⟨c, hc, hq⟩ := (exists_regionMappings (p := (directRegion e).2.1) (hv e)).mpr hvis
    exact lastFrame_of_mem _ hframe ⟨c, (hmem c).mpr ⟨e, he, hc⟩, hq⟩
  · next h =>
    refine lastFrame_of_notMem fun c hc hq => h ?_
    obtain ⟨e, he, hce⟩ := (hmem c).mp hc
    exact ⟨e, he, (exists_regionMappings (hv e)).mp ⟨c, hce, hq⟩⟩

/-- Where page `q` goes after `init_vmm`: the VGA page last, the usable regions before it, the
kernel's high mapping and the identity map first. -/
theorem lastFrame_bootMappings (image : KernelImage) (mm : MemoryMap) (q : Nat) :
    lastFrame (bootMappings image mm) q =
      if q = 0xB8 then some 0xB8
      else if DirectMapped mm q then some (directFrame q)
      else if Visits highMemoryBase (image.kernelEnd - kernelStart) q then
        some (regionFrame highMemoryBase kernelStart q)
      else if q < 1024 then some q else none := by
  have hsplit : bootMappings image mm =
      regionMappings 0 0 (1024 * 1024 * 4) ++
        (regionMappings highMemoryBase kernelStart (image.kernelEnd - kernelStart) ++
          (mappingsOf (mm.usable.map directRegion) ++ regionMappings 0xB8000 0xB8000 4096)) := by
    simp [bootMappings, bootRegions, mappingsOf, List.flatMap_append]
  have hlow : Visits 0 (1024 * 1024 * 4) q ↔ q < 1024 := by
    simp only [Visits, u32]
    omega
  have hvga : Visits 0xB8000 4096 q ↔ q = 0xB8 := by
    simp only [Visits, u32]
    omega
  rw [hsplit, lastFrame_append, lastFrame_append, lastFrame_append,
    lastFrame_regionMappings (by decide), lastFrame_regionMappings (by decide),
    lastFrame_regionMappings (by decide), lastFrame_usable]
  simp only [hlow, hvga]
  by_cases h₁ : q = 0xB8
  · subst h₁
    simp only [if_true, Option.some_or]
    rfl
  · by_cases h₂ : DirectMapped mm q
    · simp only [h₁, h₂, if_true, if_false, Option.some_or, Option.none_or]
    · by_cases h₃ : Visits highMemoryBase (image.kernelEnd - kernelStart) q
      · simp only [h₁, h₂, h₃, if_true, if_false, Option.some_or, Option.none_or]
      · simp only [h₁, h₂, h₃, if_false, Option.none_or]
        by_cases h₄ : q < 1024
        · have hid : regionFrame 0 0 q = q := by
            unfold regionFrame
            omega
          rw [if_pos h₄, if_pos h₄, hid]
        · rw [if_neg h₄, if_neg h₄]

/-! ## The frames that are left -/

/-- The page `PA_VA` takes frame `f` to. -/
def directPage (f : Nat) : Nat := (f + 0xC0000) % 1048576

/-- Every byte of frame `f` is found at `PA_VA(f)`, by `get_physical_address` and by the
processor: what the header that `init_heap` writes there relies on. -/
def ReachedDirectly (k : Kernel) (f : Nat) : Prop :=
  ∀ o < 4096, getPhysicalAddress k (paVa (f * 4096) + o) = some (f * 4096 + o) ∧
    AddressSpace.translate k (paVa (f * 4096) + o) = some (f * 4096 + o)

/-- The frames `init_vmm` makes page tables of: the lowest, one for each directory index. -/
def tableFrames (image : KernelImage) (mm : MemoryMap) (s : Pmm) : List Nat :=
  s.freeFrames.take (directories (bootMappings image mm)).length

/-- The one for the directory index of page `q`. -/
def tableFrameOf (image : KernelImage) (mm : MemoryMap) (s : Pmm) (q : Nat) : Option Nat :=
  s.freeFrames[(directories (bootMappings image mm)).idxOf (q / 1024)]?

/-- The loop of some region comes to the direct-map page of frame `f`, that page is not the VGA
page, and its table is in the first 4 MiB, on a page that no region's loop comes to. -/
structure CoveredFrame (image : KernelImage) (mm : MemoryMap) (s : Pmm) (f : Nat) : Prop where
  mapped : DirectMapped mm (directPage f)
  vga : directPage f ≠ 0xB8
  table : ∀ t ∈ tableFrameOf image mm s (directPage f), t < 1024 ∧ ¬ DirectMapped mm t

theorem paVa_frame {f o : Nat} (ho : o < 4096) :
    (paVa (f * 4096) + o) / 4096 = directPage f ∧ (paVa (f * 4096) + o) % 4096 = o := by
  simp only [paVa, directPage, u32, highMemoryBase]
  omega

/-- Going back from the direct map is adding the rest of the address space. -/
theorem directFrame_directPage {f : Nat} (hf : f < 1048576) : directFrame (directPage f) = f := by
  simp only [directFrame, directPage]
  omega

/-- The loader's map is reserved by `init_pmm`, so `init_vmm` can read it between its
allocations. -/
theorem BootState.ofInitPmm {image : KernelImage} {mm : MemoryMap} {k : Kernel}
    (hfound : MapFound image mm) (hpmm : initPmm image mm.mem mm.infoAddr = some k.pmm)
    (hoff : k.paging = false) (hintact : mm.Intact k.mem) : BootState mm k := by
  refine ⟨hoff, hintact, fun a hlo hhi hfree => ?_⟩
  have hr := not_reserved_of_mem_freeFrames hfound hpmm hfree
  refine hr ⟨(mm.info.mmapAddr, mm.info.mmapLength),
    List.mem_cons_of_mem _ (List.mem_cons_of_mem _ List.mem_cons_self), ?_⟩
  have := mm.buffer_lt
  rw [mem_pagesOf]
  simp only [pageSize, u64]
  omega

section AfterInit

variable {image : KernelImage} {mm : MemoryMap} {k₀ k : Kernel}

/-- The state `init_vmm` leaves, from its list of mappings. -/
theorem initVmm_accounts (h₀ : BootState mm k₀) (h : initVmm image mm.info k₀ = some k) :
    ∃ k₁, Accounts k₀.blank (bootMappings image mm) k₁ ∧ k = { k₁ with paging := true } := by
  obtain ⟨_, _, k₁, hk₁, rfl⟩ := (initVmm_eq_some h₀).mp h
  exact ⟨k₁, Accounts.run k₀.blank_pageDirectory h₀.paging hk₁, rfl⟩

theorem initVmm_frame (h₀ : BootState mm k₀) (h : initVmm image mm.info k₀ = some k) {q : Nat}
    (hq : q < 1048576) : k.frame q = lastFrame (bootMappings image mm) q := by
  obtain ⟨k₁, hacc, rfl⟩ := initVmm_accounts h₀ h
  exact hacc.frame q hq

theorem initVmm_freeFrames (h₀ : BootState mm k₀) (h : initVmm image mm.info k₀ = some k) :
    k.pmm.freeFrames =
      k₀.pmm.freeFrames.drop (directories (bootMappings image mm)).length := by
  obtain ⟨k₁, hacc, rfl⟩ := initVmm_accounts h₀ h
  exact hacc.freeFrames

/-- The table of page `q` is where the accounts put it, if there is one. -/
theorem initVmm_table (h₀ : BootState mm k₀) (h : initVmm image mm.info k₀ = some k)
    {q t : Nat} (ht : k.table (q / 1024) = some t) :
    t ∈ tableFrameOf image mm k₀.pmm q ∧ t ∈ tableFrames image mm k₀.pmm := by
  obtain ⟨k₁, hacc, rfl⟩ := initVmm_accounts h₀ h
  have ht' := hacc.table (q / 1024)
  rw [show k₁.table (q / 1024) = some t from ht] at ht'
  split at ht'
  · next hmem =>
    refine ⟨ht'.symm, ?_⟩
    have hlt := List.idxOf_lt_length_of_mem hmem
    refine List.mem_of_getElem? (i := (directories (bootMappings image mm)).idxOf (q / 1024)) ?_
    rw [tableFrames, List.getElem?_take_of_lt hlt]
    exact ht'.symm
  · exact absurd ht' (by simp)

/-- For an allocatable frame: `PA_VA` reaches it through the tables exactly when a region does
and the VGA page does not get in the way. The other mappings go elsewhere. -/
theorem initVmm_frame_directPage (h₀ : BootState mm k₀) (h : initVmm image mm.info k₀ = some k)
    {f : Nat} (hf : f < 1048576) :
    k.frame (directPage f) = some f ↔ DirectMapped mm (directPage f) ∧ directPage f ≠ 0xB8 := by
  have hq : directPage f < 1048576 := Nat.mod_lt _ (by decide)
  rw [initVmm_frame h₀ h hq, lastFrame_bootMappings]
  by_cases hvga : directPage f = 0xB8
  · rw [if_pos hvga]
    refine ⟨fun he => ?_, fun he => absurd hvga he.2⟩
    rw [← Option.some.inj he] at hvga
    exact absurd hvga (by decide)
  · rw [if_neg hvga]
    by_cases hmap : DirectMapped mm (directPage f)
    · rw [if_pos hmap, directFrame_directPage hf]
      exact ⟨fun _ => ⟨hmap, hvga⟩, fun _ => rfl⟩
    · rw [if_neg hmap]
      refine ⟨fun he => ?_, fun he => absurd he.1 hmap⟩
      -- The kernel's high mapping and the identity map are off by a fixed distance.
      split at he
      · have hfr := Option.some.inj he
        simp only [regionFrame, directPage, kernelStart, highMemoryBase] at hfr
        omega
      · split at he
        · have hfr := Option.some.inj he
          simp only [directPage] at hfr
          omega
        · exact absurd he (by simp)

/-- The identity map of the first 4 MiB holds where no region is mapped over it. -/
theorem initVmm_identity (h₀ : BootState mm k₀) (h : initVmm image mm.info k₀ = some k)
    {t : Nat} (ht : t < 0xC0000) (hmap : ¬ DirectMapped mm t) :
    k.frame t = if t < 1024 then some t else none := by
  have hvis : ¬ Visits highMemoryBase (image.kernelEnd - kernelStart) t := by
    simp only [Visits, highMemoryBase]
    omega
  rw [initVmm_frame h₀ h (by omega), lastFrame_bootMappings, if_neg hmap, if_neg hvis]
  by_cases hvga : t = 0xB8
  · subst hvga
    rfl
  · rw [if_neg hvga]

theorem initVmm_paging (h₀ : BootState mm k₀) (h : initVmm image mm.info k₀ = some k) :
    k.paging = true := by
  obtain ⟨k₁, _, rfl⟩ := initVmm_accounts h₀ h
  rfl

/-- A covered frame is reached. -/
theorem CoveredFrame.reached (h₀ : BootState mm k₀) (h : initVmm image mm.info k₀ = some k)
    {f : Nat} (hf : f < 1048576) (hc : CoveredFrame image mm k₀.pmm f) : ReachedDirectly k f := by
  intro o ho
  obtain ⟨hpage, hoff⟩ := paVa_frame (f := f) ho
  have hframe := (initVmm_frame_directPage h₀ h hf).mpr ⟨hc.mapped, hc.vga⟩
  constructor
  · rw [getPhysicalAddress_eq, hpage, hoff, hframe]
    · rfl
    · intro t ht
      rw [hpage] at ht
      obtain ⟨hlow, hmap⟩ := hc.table t (initVmm_table h₀ h ht).1
      refine Or.inr ?_
      rw [initVmm_identity h₀ h (by omega) hmap, if_pos hlow]
  · have hlt : paVa (f * 4096) + o < 4294967296 := by
      simp only [paVa, u32, highMemoryBase]
      omega
    rw [Kernel.translate_eq (initVmm_paging h₀ h) hlt, hpage, hoff, hframe]
    rfl

end AfterInit

/-- The machine that boots with a map: whatever `init_pmm` leaves, and the map in memory. -/
def bootKernel (mm : MemoryMap) (s : Pmm) : Kernel := ⟨mm.mem, fun _ => 0, false, s⟩

/-- Elements of a sorted list with enough smaller ones before them survive a `drop`. -/
theorem mem_drop_of_sorted {l : List Nat} (hl : l.Pairwise (· < ·)) (small : List Nat) {x n : Nat}
    (hx : x ∈ l) (hnd : small.Nodup) (hsmall : ∀ y ∈ small, y ∈ l ∧ y < x)
    (hn : n ≤ small.length) : x ∈ l.drop n := by
  rw [← List.take_append_drop n l] at hx hl
  rcases List.mem_append.mp hx with htake | hdrop
  · have hsub : x :: small ⊆ l.take n := by
      intro y hy
      rcases List.mem_cons.mp hy with rfl | hy
      · exact htake
      · obtain ⟨hyl, hyx⟩ := hsmall y hy
        rw [← List.take_append_drop n l] at hyl
        rcases List.mem_append.mp hyl with h | h
        · exact h
        · have := (List.pairwise_append.mp hl).2.2 x htake y h
          omega
    have hnd' : (x :: small).Nodup :=
      List.nodup_cons.mpr ⟨fun h => Nat.lt_irrefl x (hsmall x h).2, hnd⟩
    have hlen := (List.subperm_of_subset hnd' hsub).length_le
    rw [List.length_cons, List.length_take] at hlen
    omega
  · exact hdrop

/-- The directory indices come from the regions alone. -/
theorem directories_length_le {image : KernelImage} {mm : MemoryMap} (ds : List Nat)
    (h : ∀ r ∈ bootRegions image mm, r.1 < 4294967296 ∧
      ∀ q, Visits r.1 r.2.2 q → q / 1024 ∈ ds) :
    (directories (bootMappings image mm)).length ≤ ds.length := by
  have hsub : directories (bootMappings image mm) ⊆ ds := by
    intro d hd
    obtain ⟨c, hc, rfl⟩ := mem_directories.mp hd
    obtain ⟨r, hr, hcr⟩ := List.mem_flatMap.mp hc
    obtain ⟨hv, hds⟩ := h r hr
    exact hds _ ((exists_regionMappings hv).mp ⟨c, hcr, rfl⟩)
  exact (List.subperm_of_subset (directories_nodup _) hsub).length_le

theorem mem_directories_of_visits {image : KernelImage} {mm : MemoryMap} {r : Nat × Nat × Nat}
    {q : Nat} (hr : r ∈ bootRegions image mm) (hv : r.1 < 4294967296) (hq : Visits r.1 r.2.2 q) :
    q / 1024 ∈ directories (bootMappings image mm) := by
  obtain ⟨c, hc, rfl⟩ := (exists_regionMappings (p := r.2.1) hv).mpr hq
  exact mem_directories.mpr ⟨c, List.mem_flatMap.mpr ⟨r, hr, hc⟩, rfl⟩

/-- `init_vmm` returns when every loop ends and there is a frame for each directory index. -/
theorem initVmm_returns {image : KernelImage} {mm : MemoryMap} {k₀ : Kernel}
    (h₀ : BootState mm k₀) (hcount : mm.usable.length ≤ 32)
    (hwraps : ∀ r ∈ bootRegions image mm, ¬ Wraps r.1 r.2.2) (hz : 0 ∉ k₀.pmm.freeFrames)
    (hlen : (directories (bootMappings image mm)).length ≤ k₀.pmm.freeFrames.length) :
    ∃ k, initVmm image mm.info k₀ = some k := by
  obtain ⟨k₁, hk₁⟩ := mapPages_succeeds k₀.blank_pageDirectory h₀.paging hz hlen
  exact ⟨_, (initVmm_eq_some h₀).mpr ⟨hcount, hwraps, k₁, hk₁, rfl⟩⟩

/-- On these machines the boot mappings need two page tables. -/
theorem directories_pcMap (addr len : Nat) (hb : addr + len ≤ 0x400000) (hlt) :
    (directories (bootMappings smallKernel (pcMap addr len hlt))).length ≤ 2 := by
  refine directories_length_le [0, 768] fun r hr => ?_
  simp only [bootRegions, usable_pcMap, List.map_cons, List.map_nil, List.cons_append,
    List.nil_append, List.mem_cons, List.not_mem_nil, or_false, directRegion, u32, u64,
    highMemoryBase, kernelStart, smallKernel] at hr
  simp only [Visits, u32, List.mem_cons, List.not_mem_nil, or_false]
  rcases hr with rfl | rfl | rfl | rfl | rfl
  all_goals
    refine ⟨by simp only; omega, fun q hq => ?_⟩
    simp only at hq
    omega

theorem entriesLow_pcMap {addr len : Nat} (hb : addr + len ≤ 0x400000) (hlt) :
    EntriesLow (pcMap addr len hlt) := by
  intro e he
  rw [usable_pcMap, List.mem_cons, List.mem_singleton] at he
  rcases he with rfl | rfl
  · decide
  · show addr + len ≤ _
    omega

theorem mapFound_pcMap {addr len : Nat} (hb : addr + len ≤ 0x400000) (hlt) :
    MapFound smallKernel (pcMap addr len hlt) := by
  refine mapFound_of_below ?_ ?_ (by decide) (entriesLow_pcMap hb hlt)
  · show 0x9500 + multibootInfoSize ≤ bitmapAddr smallKernel
    decide
  · show 0x9600 + 24 * 2 ≤ bitmapAddr smallKernel
    decide

/-- The free frames of a `pcMap` are those of upper memory beyond the kernel and its bitmap. -/
theorem mem_freeFrames_pcMap {addr len : Nat} (hb : 0x121000 ≤ addr ∧ addr + len ≤ 0x400000)
    (hlt) {s : Pmm}
    (hs : initPmm smallKernel (pcMap addr len hlt).mem (pcMap addr len hlt).infoAddr = some s)
    (f : Nat) : f ∈ s.freeFrames ↔ addr / 4096 ≤ f ∧ f < (addr + len + 4095) / 4096 := by
  have hbitmap : bitmapAddr smallKernel = 0x120000 := by decide
  have hend : smallKernel.kernelEnd = 0x120000 := rfl
  have hsize : bitmapSizeOf (pcMap addr len hlt).info = 1012 := by
    rw [bitmapSizeOf, maxFramesOf_pcMap]
  have hmap : (pcMap addr len hlt).info.mmapAddr = 0x9600 ∧
    (pcMap addr len hlt).info.mmapLength = 48 := ⟨rfl, rfl⟩
  have htouched : Touched (pcMap addr len hlt) f ↔
      f < 0xA0 ∨ addr / 4096 ≤ f ∧ f < (addr + len + 4095) / 4096 := by
    simp only [Touched, usable_pcMap, List.mem_cons, List.not_mem_nil, or_false,
      exists_eq_or_imp, exists_eq_left, mem_pagesOf, pageSize, u64]
    omega
  have hreserved : Reserved smallKernel (pcMap addr len hlt) f ↔ f < 0x121 := by
    simp only [Reserved, reservedRegions, hbitmap, hsize, hmap.1, hmap.2, List.mem_cons,
      List.not_mem_nil, or_false, exists_eq_or_imp, exists_eq_left, mem_pagesOf, pageSize, u64,
      kernelStart]
    omega
  rw [mem_freeFrames_initPmm (mapFound_pcMap hb.2 hlt) (entriesLow_pcMap hb.2 hlt) hs,
    maxFramesOf_pcMap, htouched, hreserved]
  omega

/-- The machines of `pcMap` boot. -/
theorem initVmm_pcMap (addr len : Nat) (hb : 0x121000 ≤ addr ∧ addr + len ≤ 0x400000)
    (h2 : 0x2000 ≤ len) (hlt) :
    ∃ s k, initPmm smallKernel (pcMap addr len hlt).mem (pcMap addr len hlt).infoAddr = some s ∧
      initVmm smallKernel (pcMap addr len hlt).info (bootKernel (pcMap addr len hlt) s) =
        some k := by
  have hcount : (pcMap addr len hlt).usable.length ≤ 32 := by
    rw [usable_pcMap]
    exact Nat.le_add_left 2 30
  have hfound := mapFound_pcMap hb.2 hlt
  obtain ⟨s, hs⟩ := initPmm_returns hfound.toMapRead hcount
  have hmem := mem_freeFrames_pcMap hb hlt hs
  have h₀ : BootState (pcMap addr len hlt) (bootKernel (pcMap addr len hlt) s) :=
    BootState.ofInitPmm hfound hs rfl fun _ _ _ => rfl
  have hlen : 2 ≤ s.freeFrames.length := by
    have hsub : [addr / 4096, addr / 4096 + 1] ⊆ s.freeFrames := by
      intro f hf
      simp only [List.mem_cons, List.not_mem_nil, or_false] at hf
      rw [hmem]
      omega
    exact (List.subperm_of_subset (by simp) hsub).length_le
  have hwraps : ∀ r ∈ bootRegions smallKernel (pcMap addr len hlt), ¬ Wraps r.1 r.2.2 := by
    intro r hr
    simp only [bootRegions, usable_pcMap, List.map_cons, List.map_nil, List.cons_append,
      List.nil_append, List.mem_cons, List.not_mem_nil, or_false, directRegion, u32, u64,
      highMemoryBase, kernelStart, smallKernel] at hr
    rcases hr with rfl | rfl | rfl | rfl | rfl <;> simp only [Wraps, u32] <;> omega
  obtain ⟨k, hk⟩ := initVmm_returns h₀ hcount hwraps (zero_notMem_freeFrames_initPmm hs)
    (Nat.le_trans (directories_pcMap addr len hb.2 hlt) hlen)
  exact ⟨s, k, hs, hk⟩

theorem directMapped_pcMap (addr len : Nat) (hb : 0x121000 ≤ addr ∧ addr + len ≤ 0x400000) (hlt)
    (q : Nat) : DirectMapped (pcMap addr len hlt) q ↔
      (0xC0000 ≤ q ∧ q < 0xC00A0) ∨
        (addr / 4096 + 0xC0000 ≤ q ∧ q * 4096 + addr % 4096 < 0xC0000000 + addr + len) := by
  simp only [DirectMapped, usable_pcMap, List.mem_cons, List.not_mem_nil, or_false,
    exists_eq_or_imp, exists_eq_left, directRegion, Visits, u32, u64, highMemoryBase]
  omega

end ScratchOs.Mem
