import ScratchOs.Mem.PmmInit
import ScratchOs.Mem.VmmMap
import Mathlib.Data.List.Induction

/-!
# `init_vmm`

`init_vmm` is a list of `map_page` calls: the identity map of the first 4 MiB, the kernel
image, every usable region at its direct-map address, the VGA page. `initVmm_eq_some` reads
that list, `bootMappings`, off the code, together with the ways the code fails to return: a
region whose loop never ends, more regions than the array on the stack holds, and a
`map_page` that finds no frame for a table.

What a list of mappings leaves behind is then a question about the list. `Accounts` answers it:
page `q` goes where the last mapping of `q` says, and the tables are the lowest free frames,
one for each directory index in order of first use.

The list is the point of the module. `init_vmm` interleaves three things that can be told apart: it
reads the memory map, it computes addresses in 32 bits, it writes tables. On the list the last one
has become a question about lists, and the second is in how the list is built; what remains is that
the map can still be read between two writes, and that is `BootState.intact_of_accounts`.

Addresses and lengths of a region are 64-bit numbers that are handed to 32-bit parameters. The list
keeps the narrowing where the call has it, so a region beyond 4 GiB is in the list, as the mapping
the code makes of it.
-/

set_option autoImplicit false

namespace ScratchOs.Mem

open Bits Boot

/-- The loop over `regions[]`. Address, length and `HIGH_MEMORY_BASE + addr` are 64-bit
numbers handed to 32-bit parameters. -/
def mapRegions : Kernel → List MemoryRegion → Option Kernel
  | k, [] => some k
  | k, r :: rs => do
    let k ← mapRegion k (u32 (u64 (highMemoryBase + r.addr))) (u32 r.addr) (u32 r.len)
    mapRegions k rs

/-- `void init_vmm(multiboot_info_t*)`. As in `init_pmm`, writing past `regions[32]` is the
end of what can be said. -/
def initVmm (image : KernelImage) (mb : MultibootInfo) (k : Kernel) : Option Kernel := do
  let k := { k with pageDirectory := fun _ => 0 }
  let k ← mapRegion k 0 0 (1024 * 1024 * 4)
  let k ← mapRegion k highMemoryBase kernelStart (image.kernelEnd - kernelStart)
  let regions ← multibootGetUsableRegions k.mem mb 32
  if 32 < regions.length then none
  else do
    let k ← mapRegions k regions
    let k ← mapRegion k 0xB8000 0xB8000 4096
    some { k with paging := true }

/-! ## Regions as lists of mappings -/

/-- The arguments of one `map_page` call, virtual address first. The call ignores the low 12 bits
of both. -/
abbrev Mapping := UInt32 × UInt32

def Mapping.page (c : Mapping) : Nat := c.1.toNat / 4096

def Mapping.frame (c : Mapping) : Nat := c.2.toNat / 4096

def Mapping.call (c : Mapping) : VmmCall := .mapPage c.1 c.2

def mapPages : Kernel → List Mapping → Option Kernel
  | k, [] => some k
  | k, c :: cs => (c.call.run k).bind fun k => mapPages k cs

/-- The calls `map_region` makes, when its loop ends. -/
def regionMappings (v p size : Nat) : List Mapping :=
  (List.range ((u32 (v + size) - v + 4095) / 4096)).map fun j =>
    (UInt32.ofNat (v + j * 4096), UInt32.ofNat (p + j * 4096))

/-- The loop of `map_region` never ends: its bound lies in the last page, past the last value
its counter takes. -/
def Wraps (v size : Nat) : Prop := 0xFFFFF000 + v % 4096 < u32 (v + size)

instance (v size : Nat) : Decidable (Wraps v size) := inferInstanceAs (Decidable (_ < _))

theorem mapPages_append (k : Kernel) (cs ds : List Mapping) :
    mapPages k (cs ++ ds) = (mapPages k cs).bind fun k => mapPages k ds := by
  induction cs generalizing k with
  | nil => rfl
  | cons c cs ih =>
    simp only [List.cons_append, mapPages]
    cases c.call.run k with
    | none => rfl
    | some k => exact ih k

/-- A loop whose bound lies in the last page never returns: the counter keeps its offset in the
page, so it goes from below the bound past the end of the address space and is below it again. -/
theorem mapRegionFrom_wraps {bound : Nat} : ∀ (fuel : Nat) (k : Kernel) (i p : Nat),
    i < 4294967296 → 0xFFFFF000 + i % 4096 < bound → mapRegionFrom bound fuel k i p = none
  | 0, _, _, _, _, _ => rfl
  | fuel + 1, k, i, p, hi, hb => by
    rw [mapRegionFrom, if_pos (by omega)]
    cases mapPage k i p with
    | none => rfl
    | some k =>
      have hmod : u32 (i + pageSize) % 4096 = i % 4096 := by
        simp only [u32, pageSize]
        omega
      exact mapRegionFrom_wraps fuel k _ _ (u32_lt _) (by rw [hmod]; exact hb)

theorem ofNat_u32_add (p j : Nat) :
    UInt32.ofNat (u32 (p + pageSize) + j * 4096) = UInt32.ofNat (p + (j + 1) * 4096) := by
  refine UInt32.toNat_inj.mp ?_
  simp only [UInt32.toNat_ofNat', u32, pageSize]
  omega

/-- A loop that ends is its list of calls. `n` is the number of steps still to make; the induction
is on it, and the bound's place in the last page is what keeps the counter from wrapping. -/
theorem mapRegionFrom_eq {bound : Nat} : ∀ (n fuel : Nat) (k : Kernel) (i p : Nat),
    i < 4294967296 → p < 4294967296 → bound ≤ 0xFFFFF000 + i % 4096 →
    n = (bound - i + 4095) / 4096 → n < fuel →
      mapRegionFrom bound fuel k i p =
        mapPages k ((List.range n).map fun j =>
          (UInt32.ofNat (i + j * 4096), UInt32.ofNat (p + j * 4096)))
  | 0, fuel + 1, k, i, p, _, _, _, hn, _ => by
    rw [mapRegionFrom, if_neg (by omega)]
    rfl
  | n + 1, fuel + 1, k, i, p, hi, hp, hb, hn, hfuel => by
    have hrun : VmmCall.run k (Mapping.call (UInt32.ofNat (i + 0 * 4096),
        UInt32.ofNat (p + 0 * 4096))) = mapPage k i p := by
      simp only [VmmCall.run, Mapping.call, UInt32.toNat_ofNat', Nat.reducePow, Nat.zero_mul,
        Nat.add_zero, Nat.mod_eq_of_lt hi, Nat.mod_eq_of_lt hp]
    rw [mapRegionFrom, if_pos (by omega), List.range_succ_eq_map, List.map_cons, mapPages, hrun,
      List.map_map]
    cases mapPage k i p with
    | none => rfl
    | some k =>
      have hlow : i < bound := by omega
      by_cases hlast : i + 4096 < 4294967296
      · have hnext : u32 (i + pageSize) = i + 4096 := u32_of_lt hlast
        have hb' : bound ≤ 0xFFFFF000 + u32 (i + pageSize) % 4096 := by
          rw [hnext]
          omega
        have hn' : n = (bound - u32 (i + pageSize) + 4095) / 4096 := by
          rw [hnext]
          omega
        have ih := mapRegionFrom_eq n fuel k (u32 (i + pageSize)) (u32 (p + pageSize))
          (u32_lt _) (u32_lt _) hb' hn' (by omega)
        simp only [Option.bind_eq_bind, Option.bind_some]
        rw [ih]
        refine congrArg (mapPages k) (List.map_congr_left fun j _ => ?_)
        simp only [Function.comp_apply, Nat.succ_eq_add_one, ofNat_u32_add]
      · -- The counter would wrap, but the loop has just made its last step.
        omega

/-- **`map_region` returns exactly when its loop ends and every `map_page` does.** -/
theorem mapRegion_eq_some {k k' : Kernel} {v p size : Nat} (hv : v < 4294967296)
    (hp : p < 4294967296) :
    mapRegion k v p size = some k' ↔
      ¬ Wraps v size ∧ mapPages k (regionMappings v p size) = some k' := by
  unfold mapRegion regionMappings
  have hb := u32_lt (v + size)
  by_cases hw : Wraps v size
  · rw [mapRegionFrom_wraps _ _ _ _ hv hw]
    simp [hw]
  · rw [mapRegionFrom_eq _ _ k v p hv hp (by unfold Wraps at hw; omega) rfl (by omega)]
    simp [hw]

/-! ## What a list of mappings leaves behind -/

/-- The frame page `q` has after a list of mappings made in blank tables. -/
def lastFrame (cs : List Mapping) (q : Nat) : Option Nat :=
  (lastCall (cs.map Mapping.call) q).bind VmmCall.frame

theorem lastFrame_concat (cs : List Mapping) (c : Mapping) (q : Nat) :
    lastFrame (cs ++ [c]) q = if q = c.page then some c.frame else lastFrame cs q := by
  have hpage : c.call.page = c.page := rfl
  unfold lastFrame
  rw [List.map_append, List.map_singleton, lastCall_append, hpage]
  by_cases h : c.page = q
  · rw [if_pos h, if_pos h.symm]
    rfl
  · rw [if_neg h, if_neg (Ne.symm h)]

/-- Later mappings come first: what `as` did to a page shows only where `bs` left it alone. -/
theorem lastFrame_append (as bs : List Mapping) (q : Nat) :
    lastFrame (as ++ bs) q = (lastFrame bs q).or (lastFrame as q) := by
  induction bs using List.reverseRecOn with
  | nil =>
    rw [List.append_nil]
    rfl
  | append_singleton bs c ih =>
    rw [← List.append_assoc, lastFrame_concat, lastFrame_concat, ih]
    split
    · rfl
    · rfl

theorem lastFrame_cons (c : Mapping) (cs : List Mapping) (q : Nat) :
    lastFrame (c :: cs) q =
      (lastFrame cs q).or (if q = c.page then some c.frame else none) := by
  have hone : lastFrame [c] q = if q = c.page then some c.frame else none :=
    lastFrame_concat [] c q
  rw [← hone, ← lastFrame_append]
  rfl

theorem lastFrame_of_notMem {cs : List Mapping} {q : Nat} (h : ∀ c ∈ cs, c.page ≠ q) :
    lastFrame cs q = none := by
  induction cs using List.reverseRecOn with
  | nil => rfl
  | append_singleton cs c ih =>
    have hc : q ≠ c.page := fun hq => h c (by simp) hq.symm
    rw [lastFrame_concat, if_neg hc, ih fun x hx => h x (List.mem_append_left _ hx)]

/-- When all mappings of a list agree on where a page goes, their order does not matter. -/
theorem lastFrame_of_mem {cs : List Mapping} (target : Nat → Nat)
    (h : ∀ c ∈ cs, c.frame = target c.page) {q : Nat} (hq : ∃ c ∈ cs, c.page = q) :
    lastFrame cs q = some (target q) := by
  induction cs using List.reverseRecOn with
  | nil =>
    obtain ⟨c, hc, _⟩ := hq
    exact absurd hc (by simp)
  | append_singleton cs c ih =>
    rw [lastFrame_concat]
    by_cases hqc : q = c.page
    · rw [if_pos hqc, h c (by simp), hqc]
    · rw [if_neg hqc]
      refine ih (fun x hx => h x (List.mem_append_left _ hx)) ?_
      obtain ⟨x, hx, hxq⟩ := hq
      rcases List.mem_append.mp hx with hx | hx
      · exact ⟨x, hx, hxq⟩
      · rw [List.mem_singleton.mp hx] at hxq
        exact absurd hxq.symm hqc

/-- The directory indices a list of mappings uses, in order of first use. -/
def directories (cs : List Mapping) : List Nat :=
  cs.foldl (fun ds c => if c.page / 1024 ∈ ds then ds else ds ++ [c.page / 1024]) []

theorem directories_concat (cs : List Mapping) (c : Mapping) :
    directories (cs ++ [c]) =
      if c.page / 1024 ∈ directories cs then directories cs
      else directories cs ++ [c.page / 1024] := by
  unfold directories
  rw [List.foldl_append]
  rfl

theorem mem_directories {cs : List Mapping} {d : Nat} :
    d ∈ directories cs ↔ ∃ c ∈ cs, c.page / 1024 = d := by
  induction cs using List.reverseRecOn with
  | nil => simp [directories]
  | append_singleton cs c ih =>
    rw [directories_concat]
    constructor
    · intro hd
      split at hd
      · obtain ⟨x, hx, hxd⟩ := ih.mp hd
        exact ⟨x, List.mem_append_left _ hx, hxd⟩
      · rcases List.mem_append.mp hd with hd | hd
        · obtain ⟨x, hx, hxd⟩ := ih.mp hd
          exact ⟨x, List.mem_append_left _ hx, hxd⟩
        · exact ⟨c, by simp, (List.mem_singleton.mp hd).symm⟩
    · rintro ⟨x, hx, hxd⟩
      rcases List.mem_append.mp hx with hx | hx
      · have := ih.mpr ⟨x, hx, hxd⟩
        split
        · exact this
        · exact List.mem_append_left _ this
      · obtain rfl := List.mem_singleton.mp hx
        split
        · next hmem => exact hxd ▸ hmem
        · simp [hxd]

/-- No index is listed twice: a table that exists is used again. -/
theorem directories_nodup (cs : List Mapping) : (directories cs).Nodup := by
  induction cs using List.reverseRecOn with
  | nil => exact List.nodup_nil
  | append_singleton cs c ih =>
    rw [directories_concat]
    split
    · exact ih
    · next hmem =>
      refine List.nodup_append.mpr ⟨ih, by simp, fun a ha b hb hab => ?_⟩
      rw [List.mem_singleton.mp hb] at hab
      exact hmem (hab ▸ ha)

/-- The state after a list of mappings made from `k₀`, whose tables are blank. Everything is said
in terms of the list and of the free frames at the start, nothing in terms of the states between. -/
structure Accounts (k₀ : Kernel) (cs : List Mapping) (k : Kernel) : Prop where
  inv : TablesInv k
  paging : k.paging = false
  frame : ∀ q < 1048576, k.frame q = lastFrame cs q
  enough : (directories cs).length ≤ k₀.pmm.freeFrames.length
  freeFrames : k.pmm.freeFrames = k₀.pmm.freeFrames.drop (directories cs).length
  table : ∀ d, k.table d =
    if d ∈ directories cs then k₀.pmm.freeFrames[(directories cs).idxOf d]? else none
  mem : ∀ a, a / 4096 ∉ k₀.pmm.freeFrames → k.mem a = k₀.mem a

/-- Before the first mapping the list is empty, and so are the tables. -/
theorem Accounts.start {k : Kernel} (hzero : ∀ d, k.pageDirectory d = 0)
    (hoff : k.paging = false) : Accounts k [] k := by
  have hinv := VmmInv.start hzero hoff
  refine ⟨hinv.inv, hoff, hinv.frame, Nat.zero_le _, rfl, fun d => ?_, fun a _ => rfl⟩
  rw [Kernel.table, hzero d]
  rfl

/-- A table the accounts know of is one of the frames that were free. -/
theorem Accounts.mem_freeFrames {k₀ k : Kernel} {cs : List Mapping} (h : Accounts k₀ cs k)
    {d t : Nat} (ht : k.table d = some t) : t ∈ k₀.pmm.freeFrames := by
  rw [h.table] at ht
  split at ht
  · exact List.mem_of_getElem? ht
  · exact absurd ht (by simp)

/-- While paging is off every table can be written where it is. -/
theorem Accounts.ready {k₀ k : Kernel} {cs : List Mapping} (h : Accounts k₀ cs k) (d : Nat) :
    k.Ready d := by
  unfold Kernel.Ready
  split
  · exact Or.inl h.paging
  · exact fun _ _ => Or.inl h.paging

/-- One more mapping. The split is on whether its directory index has been used: only a new index
takes a frame, and it takes the one the list of free frames has next. -/
theorem Accounts.step {k₀ k k' : Kernel} {cs : List Mapping} {c : Mapping}
    (h : Accounts k₀ cs k) (hc : c.call.run k = some k') : Accounts k₀ (cs ++ [c]) k' := by
  have hm : Mapped k k' c.page c.frame :=
    mapPage_spec h.inv c.1.toNat_lt c.2.toNat_lt (h.ready _) hc
  have hframe : ∀ q < 1048576, k'.frame q = lastFrame (cs ++ [c]) q := fun q hq => by
    rw [hm.frame q hq, lastFrame_concat, h.frame q hq]
  have hpaging := hm.paging.trans h.paging
  rcases hm.tables with ⟨⟨t, ht⟩, hpmm, htable⟩ | ⟨t, rest, hnone, hfree, _, hpmm, htable⟩
  · -- The directory entry is there already.
    have hmem : c.page / 1024 ∈ directories cs := by
      rw [h.table] at ht
      by_contra hc
      rw [if_neg hc] at ht
      exact absurd ht (by simp)
    have hdirs : directories (cs ++ [c]) = directories cs := by
      rw [directories_concat, if_pos hmem]
    refine ⟨hm.inv, hpaging, hframe, hdirs ▸ h.enough, ?_, fun d => ?_, fun a ha => ?_⟩
    · rw [hpmm, hdirs, h.freeFrames]
    · rw [htable, hdirs, h.table]
    · rw [hm.mem a ?_, h.mem a ha]
      rintro ⟨d, _, hd⟩
      exact ha (h.mem_freeFrames ((htable d).symm.trans hd))
  · -- A new table, in the lowest free frame.
    have hmem : c.page / 1024 ∉ directories cs := by
      intro hmem
      rw [h.table, if_pos hmem, List.getElem?_eq_none_iff] at hnone
      have := List.idxOf_lt_length_of_mem hmem
      have := h.enough
      omega
    have hdirs : directories (cs ++ [c]) = directories cs ++ [c.page / 1024] := by
      rw [directories_concat, if_neg hmem]
    rw [h.freeFrames] at hfree
    have hget : k₀.pmm.freeFrames[(directories cs).length]? = some t := by
      have := congrArg List.head? hfree
      rwa [List.head?_drop, List.head?_cons] at this
    have hlt : (directories cs).length < k₀.pmm.freeFrames.length :=
      (List.getElem?_eq_some_iff.mp hget).1
    have htable' : ∀ d, k'.table d =
        if d ∈ directories (cs ++ [c]) then
          k₀.pmm.freeFrames[(directories (cs ++ [c])).idxOf d]? else none := by
      intro d
      rw [htable, hdirs]
      by_cases hd : d = c.page / 1024
      · subst hd
        rw [if_pos rfl, if_pos (by simp), List.idxOf_append_of_notMem hmem]
        simp [hget]
      · rw [if_neg hd, h.table]
        by_cases hds : d ∈ directories cs
        · rw [if_pos hds, if_pos (List.mem_append_left _ hds), List.idxOf_append_of_mem hds]
        · rw [if_neg hds, if_neg (by simp [hds, hd])]
    refine ⟨hm.inv, hpaging, hframe, ?_, ?_, htable', fun a ha => ?_⟩
    · rw [hdirs, List.length_append, List.length_singleton]
      omega
    · rw [hpmm, Pmm.freeFrames_take (h.freeFrames.trans hfree), hdirs, List.length_append,
        List.length_singleton, ← List.drop_drop, hfree]
      rfl
    · rw [hm.mem a ?_, h.mem a ha]
      rintro ⟨d, _, hd⟩
      rw [htable'] at hd
      split at hd
      · exact ha (List.mem_of_getElem? hd)
      · exact absurd hd (by simp)

/-- What a list of mappings leaves behind, by induction from its end. -/
theorem Accounts.run {k₀ k : Kernel} (hzero : ∀ d, k₀.pageDirectory d = 0)
    (hoff : k₀.paging = false) {cs : List Mapping} (h : mapPages k₀ cs = some k) :
    Accounts k₀ cs k := by
  induction cs using List.reverseRecOn generalizing k with
  | nil =>
    obtain rfl := Option.some.inj h
    exact Accounts.start hzero hoff
  | append_singleton cs c ih =>
    rw [mapPages_append] at h
    obtain ⟨k₁, hk₁, hc⟩ := Option.bind_eq_some_iff.mp h
    obtain ⟨k₂, hk₂, hnil⟩ := Option.bind_eq_some_iff.mp hc
    obtain rfl := Option.some.inj hnil
    exact (ih hk₁).step hk₂

/-- Mappings succeed while there are frames for their tables. Frame 0 must not be one of them:
`alloc_page_table` takes the answer 0 for a failure. -/
theorem mapPages_succeeds {k₀ : Kernel} (hzero : ∀ d, k₀.pageDirectory d = 0)
    (hoff : k₀.paging = false) (hz : 0 ∉ k₀.pmm.freeFrames) {cs : List Mapping}
    (h : (directories cs).length ≤ k₀.pmm.freeFrames.length) :
    ∃ k, mapPages k₀ cs = some k := by
  induction cs using List.reverseRecOn with
  | nil => exact ⟨k₀, rfl⟩
  | append_singleton cs c ih =>
    rw [directories_concat] at h
    have hle : (directories cs).length ≤ k₀.pmm.freeFrames.length := by
      split at h
      · exact h
      · rw [List.length_append] at h
        omega
    obtain ⟨k, hk⟩ := ih hle
    have hacc := Accounts.run hzero hoff hk
    obtain ⟨k', hk'⟩ : ∃ k', mapPage k c.1.toNat c.2.toNat = some k' := by
      refine mapPage_succeeds hacc.inv c.2.toNat_lt (hacc.ready _) ?_
      by_cases hd : c.page / 1024 ∈ directories cs
      · refine Or.inl ?_
        have hidx := List.idxOf_lt_length_of_mem hd
        show k.table (c.page / 1024) ≠ none
        rw [hacc.table, if_pos hd, Ne, List.getElem?_eq_none_iff]
        omega
      · rw [if_neg hd, List.length_append, List.length_singleton] at h
        have hlt : (directories cs).length < k₀.pmm.freeFrames.length := by omega
        refine Or.inr ⟨_, _, hacc.freeFrames.trans (List.drop_eq_getElem_cons hlt), fun h0 => ?_⟩
        exact hz (h0 ▸ List.getElem_mem hlt)
    refine ⟨k', ?_⟩
    rw [mapPages_append, hk]
    show (mapPage k c.1.toNat c.2.toNat).bind _ = _
    rw [hk']
    rfl

/-! ## The list of `init_vmm` -/

/-- The arguments `init_vmm` calls `map_region` with for a usable region. -/
def directRegion (e : MmapEntry) : Nat × Nat × Nat :=
  (u32 (u64 (highMemoryBase + e.addr)), u32 e.addr, u32 e.len)

/-- The `map_region` calls of `init_vmm`: virtual address, physical address, size. -/
def bootRegions (image : KernelImage) (mm : MemoryMap) : List (Nat × Nat × Nat) :=
  (0, 0, 1024 * 1024 * 4) :: (highMemoryBase, kernelStart, image.kernelEnd - kernelStart) ::
    (mm.usable.map directRegion ++ [(0xB8000, 0xB8000, 4096)])

/-- The `map_page` calls of a list of `map_region` calls. -/
def mappingsOf (rs : List (Nat × Nat × Nat)) : List Mapping :=
  rs.flatMap fun r => regionMappings r.1 r.2.1 r.2.2

/-- Every `map_page` call of `init_vmm`, in order. -/
def bootMappings (image : KernelImage) (mm : MemoryMap) : List Mapping :=
  mappingsOf (bootRegions image mm)

/-- The loop over the regions returns when each of its `map_region` calls does. -/
theorem mapRegions_eq_some {k k' : Kernel} {es : List MmapEntry} :
    mapRegions k (es.map MmapEntry.toRegion) = some k' ↔
      (∀ e ∈ es, ¬ Wraps (directRegion e).1 (directRegion e).2.2) ∧
        mapPages k (mappingsOf (es.map directRegion)) = some k' := by
  induction es generalizing k with
  | nil => simp [mapRegions, mappingsOf, mapPages]
  | cons e es ih =>
    have hcons : mappingsOf ((e :: es).map directRegion) =
        regionMappings (directRegion e).1 (directRegion e).2.1 (directRegion e).2.2 ++
          mappingsOf (es.map directRegion) := rfl
    rw [hcons, mapPages_append]
    simp only [List.map_cons, mapRegions, Option.bind_eq_bind, Option.bind_eq_some_iff,
      List.forall_mem_cons]
    constructor
    · rintro ⟨k₁, hk₁, hrest⟩
      obtain ⟨hw, hrun⟩ := (mapRegion_eq_some (u32_lt _) (u32_lt _)).mp hk₁
      obtain ⟨hws, hruns⟩ := ih.mp hrest
      exact ⟨⟨hw, hws⟩, k₁, hrun, hruns⟩
    · rintro ⟨⟨hw, hws⟩, k₁, hrun, hruns⟩
      exact ⟨k₁, (mapRegion_eq_some (u32_lt _) (u32_lt _)).mpr ⟨hw, hrun⟩, ih.mpr ⟨hws, hruns⟩⟩

/-- The start of `init_vmm`: paging is off, and the map is where the loader put it, in frames
the allocator does not give away. -/
structure BootState (mm : MemoryMap) (k : Kernel) : Prop where
  paging : k.paging = false
  intact : mm.Intact k.mem
  buffer : ∀ a, mm.info.mmapAddr ≤ a → a < mm.info.mmapAddr + mm.info.mmapLength →
    a / 4096 ∉ k.pmm.freeFrames

/-- The machine `init_vmm` starts mapping from. -/
def Kernel.blank (k : Kernel) : Kernel := { k with pageDirectory := fun _ => 0 }

theorem Kernel.blank_pageDirectory (k : Kernel) (d : Nat) : k.blank.pageDirectory d = 0 := rfl

/-- Building page tables does not touch the map. -/
theorem BootState.intact_of_accounts {mm : MemoryMap} {k₀ k : Kernel} {cs : List Mapping}
    (h : BootState mm k₀) (hacc : Accounts k₀.blank cs k) : mm.Intact k.mem :=
  fun c hlo hhi => (hacc.mem c (h.buffer c hlo hhi)).trans (h.intact c hlo hhi)

/-- **`init_vmm` is `bootMappings`, then paging on.** -/
theorem initVmm_eq_some {image : KernelImage} {mm : MemoryMap} {k₀ k : Kernel}
    (h₀ : BootState mm k₀) :
    initVmm image mm.info k₀ = some k ↔
      mm.usable.length ≤ 32 ∧ (∀ r ∈ bootRegions image mm, ¬ Wraps r.1 r.2.2) ∧
        ∃ k₁, mapPages k₀.blank (bootMappings image mm) = some k₁ ∧
          k = { k₁ with paging := true } := by
  have hsplit : bootMappings image mm =
      (regionMappings 0 0 (1024 * 1024 * 4) ++
        regionMappings highMemoryBase kernelStart (image.kernelEnd - kernelStart)) ++
      (mappingsOf (mm.usable.map directRegion) ++ regionMappings 0xB8000 0xB8000 4096) := by
    simp [bootMappings, bootRegions, mappingsOf, List.flatMap_append]
  have hregions : (∀ r ∈ bootRegions image mm, ¬ Wraps r.1 r.2.2) ↔
      ¬ Wraps 0 (1024 * 1024 * 4) ∧ ¬ Wraps highMemoryBase (image.kernelEnd - kernelStart) ∧
        (∀ e ∈ mm.usable, ¬ Wraps (directRegion e).1 (directRegion e).2.2) ∧
        ¬ Wraps 0xB8000 4096 := by
    simp only [bootRegions, List.forall_mem_cons, List.forall_mem_append, List.forall_mem_map,
      List.not_mem_nil, false_implies, implies_true, and_true]
  -- The map is read after the first two regions are mapped, and is still what the loader left.
  have hread : ∀ k₂, mapPages k₀.blank (regionMappings 0 0 (1024 * 1024 * 4) ++
      regionMappings highMemoryBase kernelStart (image.kernelEnd - kernelStart)) = some k₂ →
      multibootGetUsableRegions k₂.mem mm.info 32 = some (mm.usable.map MmapEntry.toRegion) :=
    fun k₂ hk₂ => (h₀.intact_of_accounts
      (Accounts.run k₀.blank_pageDirectory h₀.paging hk₂)).usableRegions_eq 32
  rw [hregions, hsplit, mapPages_append]
  unfold initVmm
  simp only [Option.bind_eq_bind]
  constructor
  · intro h
    obtain ⟨k₁, hk₁, h⟩ := Option.bind_eq_some_iff.mp h
    obtain ⟨k₂, hk₂, h⟩ := Option.bind_eq_some_iff.mp h
    obtain ⟨hw₁, hk₁⟩ := (mapRegion_eq_some (by decide) (by decide)).mp hk₁
    obtain ⟨hw₂, hk₂⟩ := (mapRegion_eq_some (by decide) (by decide)).mp hk₂
    have h₁₂ : mapPages k₀.blank (regionMappings 0 0 (1024 * 1024 * 4) ++
        regionMappings highMemoryBase kernelStart (image.kernelEnd - kernelStart)) = some k₂ := by
      rw [mapPages_append]
      exact Option.bind_eq_some_iff.mpr ⟨k₁, hk₁, hk₂⟩
    rw [hread k₂ h₁₂, Option.bind_some, List.length_map] at h
    split at h
    · exact absurd h (by simp)
    · next hlen =>
      obtain ⟨k₃, hk₃, h⟩ := Option.bind_eq_some_iff.mp h
      obtain ⟨k₄, hk₄, h⟩ := Option.bind_eq_some_iff.mp h
      obtain ⟨hw₃, hk₃⟩ := mapRegions_eq_some.mp hk₃
      obtain ⟨hw₄, hk₄⟩ := (mapRegion_eq_some (by decide) (by decide)).mp hk₄
      refine ⟨by omega, ⟨hw₁, hw₂, hw₃, hw₄⟩, k₄, ?_, (Option.some.inj h).symm⟩
      rw [h₁₂, Option.bind_some, mapPages_append, hk₃, Option.bind_some, hk₄]
  · rintro ⟨hlen, ⟨hw₁, hw₂, hw₃, hw₄⟩, k₄, h, rfl⟩
    obtain ⟨k₂, h₁₂, h⟩ := Option.bind_eq_some_iff.mp h
    have hread₂ := hread k₂ h₁₂
    rw [mapPages_append] at h₁₂ h
    obtain ⟨k₁, hk₁, hk₂⟩ := Option.bind_eq_some_iff.mp h₁₂
    obtain ⟨k₃, hk₃, hk₄⟩ := Option.bind_eq_some_iff.mp h
    refine Option.bind_eq_some_iff.mpr
      ⟨k₁, (mapRegion_eq_some (by decide) (by decide)).mpr ⟨hw₁, hk₁⟩, ?_⟩
    refine Option.bind_eq_some_iff.mpr
      ⟨k₂, (mapRegion_eq_some (by decide) (by decide)).mpr ⟨hw₂, hk₂⟩, ?_⟩
    rw [hread₂, Option.bind_some, List.length_map, if_neg (by omega)]
    refine Option.bind_eq_some_iff.mpr ⟨k₃, mapRegions_eq_some.mpr ⟨hw₃, hk₃⟩, ?_⟩
    exact Option.bind_eq_some_iff.mpr
      ⟨k₄, (mapRegion_eq_some (by decide) (by decide)).mpr ⟨hw₄, hk₄⟩, rfl⟩

end ScratchOs.Mem
