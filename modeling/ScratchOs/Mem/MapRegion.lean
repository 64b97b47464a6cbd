import ScratchOs.Mem.GrowthCost

/-!
# Mapping a region

`map_region` goes up from its start, aligned or not, in steps of a page, and compares its
counter with the end of the region. So it comes to a page only if the end lies past the
counter's offset in it, and a region that ends at the top of the address space has 0 for its
end. What it leaves out is at most the last page, or everything.

`mapsRegion_iff` says when a region is mapped. The tables have to be in reach for it, which is
nothing with paging off and the subject of `TablesDirect` with paging on.

The statement is about addresses and not about pages. A caller asks for a region of bytes, and what
it wants is that each of them translates to its offset in the physical region and that nothing
outside has moved. That the pages are those the loop comes to is what has to be shown; and a page
the loop leaves out does no harm when it was mapped there before, which is why `RegionReached` has
a second alternative and why the result is an equivalence.
-/

set_option autoImplicit false

namespace ScratchOs.Mem

open Bits Boot

/-! ## Lists of calls that reach the tables -/

/-- The calls reach the tables they write: paging is off, or each table is mapped to itself and
the calls leave it so. -/
structure Kernel.TablesInReach (k : Kernel) (cs : List Mapping) : Prop where
  inv : TablesInv k
  zero : 0 ∉ k.pmm.freeFrames
  reach : k.paging = false ∨ TablesDirect k ∧ MappingsKeepTables k cs

section Reach

variable {k k' : Kernel} {c : Mapping} {cs : List Mapping}

theorem Kernel.TablesInReach.direct (h : k.TablesInReach cs) {d t : Nat} (hd : d < 1024)
    (ht : k.table d = some t) : k.Direct t := by
  rcases h.reach with hoff | ⟨hk, _⟩
  · exact Or.inl hoff
  · exact Or.inr (hk.direct t ⟨d, hd, ht⟩)

theorem Kernel.TablesInReach.ready (h : k.TablesInReach (c :: cs)) :
    k.Ready (c.page / 1024) := by
  rcases h.reach with hoff | ⟨hk, hkeep⟩
  · unfold Kernel.Ready
    split
    · exact Or.inl hoff
    · exact fun f _ => Or.inl hoff
  · exact (hkeep [] c cs rfl k rfl).ready hk c.1.toNat_lt

theorem Kernel.TablesInReach.step (h : k.TablesInReach (c :: cs))
    (hmap : mapPage k c.1.toNat c.2.toNat = some k') :
    k'.TablesInReach cs ∧ Mapped k k' c.page c.frame := by
  have hm : Mapped k k' c.page c.frame :=
    mapPage_spec h.inv c.1.toNat_lt c.2.toNat_lt h.ready hmap
  refine ⟨⟨hm.inv, fun hz => h.zero ((mapPage_frames hmap).2 hz), ?_⟩, hm⟩
  rcases h.reach with hoff | ⟨hk, hkeep⟩
  · exact Or.inl (hm.paging.trans hoff)
  · have hk' := hk.mapPage c.1.toNat_lt c.2.toNat_lt (hkeep [] c cs rfl k rfl) hmap
    exact Or.inr ⟨hk'.1, hkeep.tail hmap⟩

/-- Each page goes where the last call on it says; the others stay. -/
theorem Kernel.TablesInReach.mapPages : ∀ {cs : List Mapping} {k k' : Kernel},
    k.TablesInReach cs → Mem.mapPages k cs = some k' →
      k'.TablesInReach [] ∧ ∀ q < 1048576, k'.frame q = (lastFrame cs q).or (k.frame q)
  | [], k, k', h, hmaps => by
    obtain rfl := Option.some.inj hmaps
    exact ⟨h, fun _ _ => rfl⟩
  | c :: cs, k, k', h, hmaps => by
    obtain ⟨k₁, hmap, hrest⟩ := Option.bind_eq_some_iff.mp hmaps
    obtain ⟨h₁, hmapped⟩ := h.step hmap
    obtain ⟨h', hframe⟩ := h₁.mapPages hrest
    refine ⟨h', fun q hq => ?_⟩
    rw [hframe q hq, lastFrame_cons, Option.or_assoc, hmapped.frame q hq]
    by_cases hqc : q = c.page
    · rw [if_pos hqc, if_pos hqc, Option.some_or]
    · rw [if_neg hqc, if_neg hqc, Option.none_or]

/-- A call has taken the frame for its table, if that was missing. -/
theorem newTables_mapPage {c : Mapping} {k k₁ : Kernel} {q pages : Nat}
    (hmap : mapPage k c.1.toNat c.2.toNat = some k₁) (hq : c.page = q) :
    newTables k q (pages + 1) ≤ k.pmm.freeFrames.length ↔
      newTables k₁ (q + 1) pages ≤ k₁.pmm.freeFrames.length := by
  have hframes := (mapPage_frames hmap).1
  have htables := mapPage_no_table hmap
  change _ + (if k.table (c.page / 1024) = none then 1 else 0) = _ at hframes
  change ∀ d, k₁.table d = none ↔ d ≠ c.page / 1024 ∧ k.table d = none at htables
  rw [hq] at hframes htables
  rw [newTables_succ htables, ← hframes, Nat.add_comm]
  exact Nat.add_le_add_iff_right

/-- Calls for adjacent pages, from page `q` on, take a frame for each missing table. -/
theorem newTables_le_of_mapPages : ∀ {cs : List Mapping} {k k' : Kernel} {q : Nat},
    cs.map Mapping.page = List.range' q cs.length → mapPages k cs = some k' →
      newTables k q cs.length ≤ k.pmm.freeFrames.length
  | [], _, _, _, _, _ => Nat.zero_le _
  | c :: cs, k, k', q, hpages, hmaps => by
    obtain ⟨k₁, hmap, hrest⟩ := Option.bind_eq_some_iff.mp hmaps
    rw [List.map_cons, List.length_cons, List.range'_succ] at hpages
    obtain ⟨hq, hpages⟩ := List.cons.inj hpages
    rw [List.length_cons, newTables_mapPage hmap hq]
    exact newTables_le_of_mapPages hpages hrest

/-- With the tables in reach and a frame for each one that is missing, the calls go through. -/
theorem Kernel.TablesInReach.succeeds : ∀ {cs : List Mapping} {k : Kernel} {q : Nat},
    k.TablesInReach cs → cs.map Mapping.page = List.range' q cs.length →
    newTables k q cs.length ≤ k.pmm.freeFrames.length → ∃ k', Mem.mapPages k cs = some k'
  | [], k, _, _, _, _ => ⟨k, rfl⟩
  | c :: cs, k, q, h, hpages, henough => by
    rw [List.map_cons, List.length_cons, List.range'_succ] at hpages
    obtain ⟨hq, hpages⟩ := List.cons.inj hpages
    have hframe : k.table (c.page / 1024) ≠ none ∨
        ∃ t rest, k.pmm.freeFrames = t :: rest ∧ t ≠ 0 := by
      by_cases hnone : k.table (c.page / 1024) = none
      · right
        have hpos := newTables_pos (hq ▸ hnone) cs.length
        cases hfree : k.pmm.freeFrames with
        | nil =>
          rw [hfree] at henough
          exact absurd (Nat.lt_of_lt_of_le hpos henough) (Nat.lt_irrefl 0)
        | cons t rest =>
          refine ⟨t, rest, rfl, ?_⟩
          rintro rfl
          exact h.zero (hfree ▸ List.mem_cons_self)
      · exact Or.inl hnone
    obtain ⟨k₁, hmap⟩ := mapPage_succeeds h.inv c.2.toNat_lt h.ready hframe
    rw [List.length_cons, newTables_mapPage hmap hq] at henough
    obtain ⟨k', hrest⟩ := (h.step hmap).1.succeeds hpages henough
    exact ⟨k', Option.bind_eq_some_iff.mpr ⟨k₁, hmap, hrest⟩⟩

end Reach

/-! ## Regions -/

/-- How many calls of `map_page` the loop makes. -/
def regionPages (v size : Nat) : Nat := (u32 (v + size) - v + 4095) / 4096

theorem regionMappings_length (v p size : Nat) :
    (regionMappings v p size).length = regionPages v size := by
  rw [regionMappings, List.length_map, List.length_range, regionPages]

theorem regionMappings_pages {v size : Nat} (hv : v < 4294967296) (p : Nat) :
    (regionMappings v p size).map Mapping.page =
      List.range' (v / 4096) (regionMappings v p size).length := by
  have hb := u32_lt (v + size)
  rw [regionMappings_length, List.range'_eq_map_range, regionMappings, List.map_map]
  refine List.map_congr_left fun j hj => ?_
  have hj' := List.mem_range.mp hj
  simp only [Function.comp_apply, Mapping.page, UInt32.toNat_ofNat', Nat.reducePow]
  omega

/-- What `map_region(v, p, size)` is for: every address of the region translates to its offset
in the physical one, and pages that do not meet the region translate as before. -/
def MapsRegion (k : Kernel) (v p size : Nat) : Prop :=
  ∃ k', mapRegion k v p size = some k' ∧
    (∀ j < size, getPhysicalAddress k' (v + j) = some (u32 (p + j))) ∧
    ∀ w < 4294967296, (∀ j < size, (v + j) / 4096 ≠ w / 4096) →
      getPhysicalAddress k' w = getPhysicalAddress k w ∧ k'.walk w = k.walk w

/-- The loop comes to every page of the region, but for pages that are mapped as they should be
already. -/
def RegionReached (k : Kernel) (v p size : Nat) : Prop :=
  ∀ j < size, Visits v size ((v + j) / 4096) ∨ getPhysicalAddress k (v + j) = some (u32 (p + j))

section Region

variable {k k' : Kernel} {v p size : Nat}

theorem walk_region (hv : v < 4294967296) (hreach : k.TablesInReach (regionMappings v p size))
    (hmap : mapPages k (regionMappings v p size) = some k') {w : Nat} (hw : w < 4294967296)
    (hout : ¬ Visits v size (w / 4096)) : k'.walk w = k.walk w := by
  rw [walk_eq, walk_eq, (hreach.mapPages hmap).2 _ (by omega), lastFrame_regionMappings hv,
    if_neg hout, Option.none_or]

/-- The answers of `get_physical_address` after the loop. -/
theorem getPhysicalAddress_region (hv : v < 4294967296)
    (hreach : k.TablesInReach (regionMappings v p size))
    (hmap : mapPages k (regionMappings v p size) = some k') {w : Nat} (hw : w < 4294967296) :
    getPhysicalAddress k' w =
      if Visits v size (w / 4096) then some (regionFrame v p (w / 4096) * 4096 + w % 4096)
      else getPhysicalAddress k w := by
  obtain ⟨hreach', hframe⟩ := hreach.mapPages hmap
  have hd : w / 4096 / 1024 < 1024 := by omega
  rw [getPhysicalAddress_eq fun t ht => hreach'.direct hd ht,
    getPhysicalAddress_eq fun t ht => hreach.direct hd ht, hframe _ (by omega),
    lastFrame_regionMappings hv]
  split
  · rfl
  · rw [Option.none_or]

/-- Where start and target have the same offset in their pages, a page the loop comes to goes
where it should. -/
theorem regionFrame_offset (halign : v % 4096 = p % 4096) (j : Nat) :
    regionFrame v p ((v + j) / 4096) * 4096 + (v + j) % 4096 = u32 (p + j) := by
  simp only [regionFrame, u32]
  omega

/-- The loop comes to no page outside the region. -/
theorem not_visits_of_apart {w : Nat} (hout : ∀ j < size, (v + j) / 4096 ≠ w / 4096) :
    ¬ Visits v size (w / 4096) := by
  rintro ⟨hlo, hhi⟩
  have hle : u32 (v + size) ≤ v + size := Nat.mod_le _ _
  exact hout (w / 4096 * 4096 + v % 4096 - v) (by omega) (by omega)

theorem MapsRegion.reached (hv : v < 4294967296) (hp : p < 4294967296)
    (hsize : v + size ≤ 4294967296) (hreach : k.TablesInReach (regionMappings v p size))
    (h : MapsRegion k v p size) : RegionReached k v p size := by
  obtain ⟨k', hrun, hin, _⟩ := h
  obtain ⟨_, hmap⟩ := (mapRegion_eq_some hv hp).mp hrun
  intro j hj
  have hget := getPhysicalAddress_region hv hreach hmap (show v + j < 4294967296 by omega)
  rw [hin j hj] at hget
  split at hget
  · next hvis => exact Or.inl hvis
  · exact Or.inr hget.symm

end Region

/-- **`map_region` maps exactly its region if and only if** its loop ends, there are frames for
the page tables that are missing, and the loop comes to every page of the region that is not
mapped as it should be before. -/
theorem mapsRegion_iff (k : Kernel) {v p size : Nat} (hv : v < 4294967296)
    (hp : p < 4294967296) (halign : v % 4096 = p % 4096) (hsize : v + size ≤ 4294967296)
    (hreach : k.TablesInReach (regionMappings v p size)) :
    MapsRegion k v p size ↔ ¬ Wraps v size ∧
      newTables k (v / 4096) (regionPages v size) ≤ k.pmm.freeFrames.length ∧
      RegionReached k v p size := by
  have hpages := @regionMappings_pages v size hv p
  have hlen := regionMappings_length v p size
  constructor
  · intro h
    obtain ⟨k', hrun, _⟩ := id h
    obtain ⟨hends, hmap⟩ := (mapRegion_eq_some hv hp).mp hrun
    have hcost := newTables_le_of_mapPages hpages hmap
    rw [hlen] at hcost
    exact ⟨hends, hcost, h.reached hv hp hsize hreach⟩
  · rintro ⟨hends, henough, hcovers⟩
    rw [← hlen] at henough
    obtain ⟨k', hmap⟩ := hreach.succeeds hpages henough
    refine ⟨k', (mapRegion_eq_some hv hp).mpr ⟨hends, hmap⟩, fun j hj => ?_,
      fun w hw hout => ?_⟩
    · rw [getPhysicalAddress_region hv hreach hmap (by omega)]
      split
      · rw [regionFrame_offset halign]
      · next hmiss => exact (hcovers j hj).resolve_left hmiss
    · have hmiss := not_visits_of_apart hout
      refine ⟨?_, walk_region hv hreach hmap hw hmiss⟩
      rw [getPhysicalAddress_region hv hreach hmap hw, if_neg hmiss]

/-- Before `init_vmm` the tables are in reach. -/
theorem blankKernel_inReach (cs : List Mapping) : blankKernel.TablesInReach cs where
  inv := (VmmInv.start (k := blankKernel) (fun _ => rfl) rfl).inv
  zero hmem := absurd (Pmm.mem_freeFrames.mp hmem).2 (by decide)
  reach := Or.inl rfl

/-- Two pages behind 4 MiB, from page boundary to page boundary. -/
theorem mapsRegion_aligned : MapsRegion blankKernel 0x400000 0x5000 0x2000 := by
  refine (mapsRegion_iff blankKernel (by decide) (by decide) (by decide) (by decide)
    (blankKernel_inReach _)).mpr ⟨by decide, ?_, fun j hj => Or.inl ?_⟩
  · have hfree := Pmm.freeFrames_eq_cons (s := blankKernel.pmm) (f := 1) (by decide) (by decide)
      (by decide)
    rw [hfree, List.length_cons]
    exact Nat.le_trans (show newTables blankKernel _ _ ≤ 1 by decide) (Nat.le_add_left 1 _)
  · simp only [Visits, u32]
    omega

/-- Two bytes across a page boundary: the loop's second step goes past the end, and the second
page is left out. -/
theorem last_page_left_out : ¬ MapsRegion blankKernel 0x400FFF 0x5FFF 2 := by
  intro h
  have hreached := h.reached (by decide) (by decide) (by decide) (blankKernel_inReach _)
  rcases hreached 1 (by decide) with hvis | hget
  · exact absurd hvis (by decide)
  · exact absurd hget (by decide)

end ScratchOs.Mem
