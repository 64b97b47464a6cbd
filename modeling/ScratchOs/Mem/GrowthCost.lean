import ScratchOs.Mem.PageTables
import Mathlib.Data.Finset.Card

/-!
# What it costs to grow the heap

Every page of the growth takes a frame, and `map_page` takes one more for each page table that
is not there yet. `newTables` counts those beforehand, from the page directory alone, and
`growHeap_cost` says that a growth that went through has taken exactly so many frames. None of
this looks at the contents of memory: the directory and the bitmap are statics, and a store,
wherever it ends up, changes neither.

The other direction, that enough frames are enough, needs the tables in reach
(`growHeap_succeeds`).

The count is by directory index. Consecutive pages share a table, so `newTables` counts the
different indices among them that have none; and since the first page of a growth may make a table
that the rest then finds, the induction is on the pages with the directory changing under it
(`newTables_succ`). A bound by the number of pages would have been easier and is not exact: 1024
pages may need no table, or two.
-/

set_option autoImplicit false

namespace ScratchOs.Mem

open AddressSpace Bits FreeList

/-! ## One page -/

/-- What `map_page` does to the allocator and to the directory, whatever memory holds: nothing
if the page has a table, else the first free frame becomes one. It is enough that the call has
returned; where its stores have gone to does not change what it costs. -/
theorem mapPage_cost {k k' : Kernel} {v p : Nat} (h : mapPage k v p = some k') :
    ((∃ t, k.table (v / 4096 / 1024) = some t) ∧ k'.pmm = k.pmm ∧
      ∀ d, k'.table d = k.table d) ∨
    ∃ t rest, k.table (v / 4096 / 1024) = none ∧ k.pmm.freeFrames = t :: rest ∧
      k'.pmm = k.pmm.take t ∧
      ∀ d, k'.table d = if d = v / 4096 / 1024 then some t else k.table d := by
  obtain ⟨k₁, hens, hstore⟩ := Option.bind_eq_some_iff.mp h
  obtain ⟨m, rfl⟩ := store32_setMem hstore
  cases ht : k.table (v / 4096 / 1024) with
  | some t =>
    rw [ensureTable, if_pos (present_of_table ht)] at hens
    obtain rfl := Option.some.inj hens
    exact Or.inl ⟨⟨t, rfl⟩, rfl, fun _ => rfl⟩
  | none =>
    have hnot := not_present_of_table ht
    rw [ensureTable, hnot, if_neg Bool.false_ne_true] at hens
    obtain ⟨⟨a, k₂⟩, halloc, hrest⟩ := Option.bind_eq_some_iff.mp hens
    unfold allocPageTable at halloc
    rw [pmmAllocPage_eq] at halloc
    cases hfree : k.pmm.freeFrames with
    | nil =>
      rw [hfree] at halloc
      obtain ⟨rfl, rfl⟩ := Prod.mk.inj (Option.some.inj halloc)
      exact absurd hrest (by simp)
    | cons t rest =>
      rw [hfree] at halloc
      have hlt := (Pmm.mem_freeFrames.mp (hfree ▸ List.mem_cons_self : t ∈ k.pmm.freeFrames)).1
      have hscan := k.pmm.scanned_lt
      by_cases hz : t * pageSize = 0
      · simp only [if_pos hz] at halloc
        obtain ⟨rfl, rfl⟩ := Prod.mk.inj (Option.some.inj halloc)
        exact absurd hrest (by simp)
      · simp only [if_neg hz] at halloc
        obtain ⟨k₃, hfill, heq⟩ := Option.map_eq_some_iff.mp halloc
        obtain ⟨rfl, rfl⟩ := Prod.mk.inj heq
        obtain ⟨m₃, rfl⟩ := fill_setMem hfill
        simp only [if_neg hz] at hrest
        obtain rfl := Option.some.inj hrest
        refine Or.inr ⟨t, rest, rfl, rfl, rfl, fun d => ?_⟩
        have hor : t * pageSize ||| 0x3 = t * 4096 + 3 :=
          or_low (k := 12) (Nat.mul_mod_left _ _) (by decide)
        show entryFrame (Function.update k.pageDirectory (pageDirectoryIndex v)
          (UInt32.ofNat (t * pageSize ||| 0x3)) d).toNat = _
        rw [hor, pageDirectoryIndex_eq]
        exact Kernel.table_addTable (by omega) d

/-- The cost as a number, and that frames are only taken. -/
theorem mapPage_frames {k k' : Kernel} {v p : Nat} (h : mapPage k v p = some k') :
    k'.pmm.freeFrames.length + (if k.table (v / 4096 / 1024) = none then 1 else 0) =
      k.pmm.freeFrames.length ∧ k'.pmm.freeFrames ⊆ k.pmm.freeFrames := by
  rcases mapPage_cost h with ⟨⟨t, ht⟩, hpmm, _⟩ | ⟨t, rest, ht, hfree, hpmm, _⟩
  · rw [ht, if_neg (Option.some_ne_none t), hpmm]
    exact ⟨rfl, List.Subset.refl _⟩
  · rw [if_pos ht, hpmm, Pmm.freeFrames_take hfree, hfree]
    exact ⟨rfl, List.subset_cons_self t rest⟩

/-- The directory entries that are still missing. -/
theorem mapPage_no_table {k k' : Kernel} {v p : Nat} (h : mapPage k v p = some k') (d : Nat) :
    k'.table d = none ↔ d ≠ v / 4096 / 1024 ∧ k.table d = none := by
  rcases mapPage_cost h with ⟨⟨t, ht⟩, _, htable⟩ | ⟨t, rest, ht, _, _, htable⟩
  · rw [htable]
    constructor
    · intro hnone
      refine ⟨?_, hnone⟩
      rintro rfl
      exact Option.some_ne_none t (ht.symm.trans hnone)
    · exact And.right
  · rw [htable]
    split
    · next hd => exact ⟨fun h => absurd h (Option.some_ne_none t), fun h => absurd hd h.1⟩
    · next hd => exact ⟨fun h => ⟨hd, h⟩, And.right⟩

/-! ## Many pages -/

/-- The page tables missing for `pages` pages from page `q` on: one for each directory index
among theirs that has none. -/
def newTables (k : Kernel) (q pages : Nat) : Nat :=
  (((Finset.range pages).image fun i => (q + i) / 1024).filter fun d => k.table d = none).card

theorem newTables_zero (k : Kernel) (q : Nat) : newTables k q 0 = 0 := rfl

theorem newTables_pos {k : Kernel} {q : Nat} (h : k.table (q / 1024) = none) (pages : Nat) :
    0 < newTables k q (pages + 1) := by
  refine Finset.card_pos.mpr ⟨q / 1024, Finset.mem_filter.mpr ⟨?_, h⟩⟩
  exact Finset.mem_image.mpr ⟨0, Finset.mem_range.mpr (Nat.succ_pos _), rfl⟩

/-- The first page has its table made, if it is missing; the others find it. Counting goes by
directory indices and not by pages, so the index of the first page is either one more element of the
set, or was not missing. -/
theorem newTables_succ {k k' : Kernel} {q pages : Nat}
    (h : ∀ d, k'.table d = none ↔ d ≠ q / 1024 ∧ k.table d = none) :
    newTables k q (pages + 1) =
      (if k.table (q / 1024) = none then 1 else 0) + newTables k' (q + 1) pages := by
  have hmem : ∀ d, (∃ i < pages + 1, (q + i) / 1024 = d) ↔
      d = q / 1024 ∨ ∃ i < pages, (q + 1 + i) / 1024 = d := by
    intro d
    constructor
    · rintro ⟨i, hi, rfl⟩
      cases i with
      | zero => exact Or.inl rfl
      | succ i => exact Or.inr ⟨i, Nat.lt_of_succ_lt_succ hi, by rw [Nat.add_assoc, Nat.add_comm 1]⟩
    · rintro (rfl | ⟨i, hi, rfl⟩)
      · exact ⟨0, Nat.succ_pos _, rfl⟩
      · exact ⟨i + 1, Nat.succ_lt_succ hi, by rw [Nat.add_assoc, Nat.add_comm 1]⟩
  unfold newTables
  by_cases ht : k.table (q / 1024) = none
  · rw [if_pos ht, Nat.add_comm 1, ← Finset.card_insert_of_notMem]
    · congr 1
      ext d
      simp only [Finset.mem_filter, Finset.mem_image, Finset.mem_range, Finset.mem_insert, hmem, h]
      constructor
      · rintro ⟨hd, hnone⟩
        by_cases hdq : d = q / 1024
        · exact Or.inl hdq
        · exact Or.inr ⟨hd.resolve_left hdq, hdq, hnone⟩
      · rintro (rfl | ⟨hd, _, hnone⟩)
        · exact ⟨Or.inl rfl, ht⟩
        · exact ⟨Or.inr hd, hnone⟩
    · intro hin
      exact ((h _).mp (Finset.mem_filter.mp hin).2).1 rfl
  · rw [if_neg ht, Nat.zero_add]
    congr 1
    ext d
    simp only [Finset.mem_filter, Finset.mem_image, Finset.mem_range, hmem, h]
    constructor
    · rintro ⟨hd, hnone⟩
      have hdq : d ≠ q / 1024 := by
        rintro rfl
        exact ht hnone
      exact ⟨hd.resolve_left hdq, hdq, hnone⟩
    · rintro ⟨hd, _, hnone⟩
      exact ⟨Or.inr hd, hnone⟩

theorem alloc_table (k : Kernel) (d : Nat) :
    (kernelPager.pmmAllocPage k).2.table d = k.table d := rfl

/-- A page of a growth is the first free frame. -/
theorem kernelPager_alloc {k : Kernel} (h : (kernelPager.pmmAllocPage k).1 ≠ 0) :
    ∃ f rest, k.pmm.freeFrames = f :: rest ∧ f < 1048576 ∧
      (kernelPager.pmmAllocPage k).1 = f * 4096 ∧
      (kernelPager.pmmAllocPage k).2.pmm.freeFrames = rest := by
  have heq := pmmAllocPage_eq k.pmm
  change (pmmAllocPage k.pmm).1 ≠ 0 at h
  cases hfree : k.pmm.freeFrames with
  | nil =>
    rw [heq, hfree] at h
    exact absurd rfl h
  | cons f rest =>
    rw [hfree] at heq
    have hlt := (Pmm.mem_freeFrames.mp (hfree ▸ List.mem_cons_self : f ∈ k.pmm.freeFrames)).1
    have hscan := k.pmm.scanned_lt
    refine ⟨f, rest, rfl, by omega, congrArg Prod.fst heq, ?_⟩
    show (pmmAllocPage k.pmm).2.freeFrames = rest
    rw [heq]
    exact Pmm.freeFrames_take hfree

/-- Where a growth that went through leaves the limit. -/
theorem growHeap_limit {pager : Pager Kernel} : ∀ (pages : Nat) {h h' : Heap Kernel},
    growHeap pager pages h = some (true, h') → h.heapLimit < 4294967296 →
      h'.heapLimit = u32 (h.heapLimit + pages * 4096)
  | 0, h, h', hrun, hlt => by
    obtain ⟨_, rfl⟩ := Prod.mk.inj (Option.some.inj hrun)
    rw [Nat.zero_mul, Nat.add_zero, u32_of_lt hlt]
  | pages + 1, h, h', hrun, hlt => by
    obtain ⟨_, k, _, hrest⟩ := growHeap_grown hrun
    rw [growHeap_limit pages hrest (u32_lt _)]
    simp only [u32]
    omega

/-- **What a growth costs.** One that went through has taken a frame for each page and one for
each missing table, from the front. By recursion on the pages: one turn of the loop is one frame
and what `map_page` costs, and `newTables_succ` has the tables of the rest. -/
theorem growHeap_cost : ∀ (pages : Nat) {h h' : Heap Kernel},
    growHeap kernelPager pages h = some (true, h') → h.heapLimit % 4096 = 0 →
    h.heapLimit + pages * 4096 ≤ 4294967296 →
      pages + newTables h.machine (h.heapLimit / 4096) pages ≤ h.machine.pmm.freeFrames.length
  | 0, h, h', _, _, _ => Nat.zero_le _
  | pages + 1, h, h', hrun, hpage, hle => by
    obtain ⟨hnew, k, hmap, hrest⟩ := growHeap_grown hrun
    obtain ⟨f, rest, hfree, _, _, htail⟩ := kernelPager_alloc hnew
    have hframes := (mapPage_frames hmap).1
    have htables := mapPage_no_table hmap
    rw [htail, alloc_table] at hframes
    have hstep := @newTables_succ h.machine k (h.heapLimit / 4096) pages htables
    have hih := growHeap_cost pages hrest (by simp only [u32]; omega) (by simp only [u32]; omega)
    have hnext : newTables k (u32 (h.heapLimit + 4096) / 4096) pages =
        newTables k (h.heapLimit / 4096 + 1) pages := by
      -- The limit wraps only behind the last page.
      cases pages with
      | zero => rfl
      | succ pages =>
        rw [u32_of_lt (by omega)]
        congr 1
        omega
    change pages + newTables k (u32 (h.heapLimit + 4096) / 4096) pages ≤
      k.pmm.freeFrames.length at hih
    rw [hnext] at hih
    rw [hstep, hfree, List.length_cons]
    by_cases hnone : h.machine.table (h.heapLimit / 4096 / 1024) = none
    · rw [if_pos hnone] at hframes ⊢
      omega
    · rw [if_neg hnone] at hframes ⊢
      omega

/-! ## Room for the pages -/

/-- Whether it comes to its end or not, a growth has gone through as far as it got. So what is known
of those that go through can be used of the others, for fewer pages. -/
theorem growHeap_got : ∀ (pages : Nat) {h h' : Heap Kernel} {ok : Bool},
    growHeap kernelPager pages h = some (ok, h') → h.heapLimit < 4294967296 →
      ∃ j ≤ pages, (∀ i ≤ j, ∃ h₁, growHeap kernelPager i h = some (true, h₁)) ∧
        h'.heapLimit = u32 (h.heapLimit + j * 4096)
  | 0, h, h', ok, hrun, hlt => by
    obtain ⟨_, rfl⟩ := Prod.mk.inj (Option.some.inj hrun)
    refine ⟨0, Nat.le_refl 0, fun i hi => ?_, ?_⟩
    · obtain rfl := Nat.le_zero.mp hi
      exact ⟨h, rfl⟩
    · rw [Nat.zero_mul, Nat.add_zero, u32_of_lt hlt]
  | pages + 1, h, h', ok, hrun, hlt => by
    rw [growHeap_succ] at hrun
    by_cases hnew : (kernelPager.pmmAllocPage h.machine).1 = 0
    · rw [if_pos hnew] at hrun
      obtain ⟨_, rfl⟩ := Prod.mk.inj (Option.some.inj hrun)
      refine ⟨0, Nat.zero_le _, fun i hi => ?_, ?_⟩
      · obtain rfl := Nat.le_zero.mp hi
        exact ⟨h, rfl⟩
      · rw [Nat.zero_mul, Nat.add_zero, u32_of_lt hlt]
    · rw [if_neg hnew] at hrun
      obtain ⟨k, hmap, hrest⟩ := Option.bind_eq_some_iff.mp hrun
      obtain ⟨j, hj, hgot, hlimit⟩ := growHeap_got pages hrest (u32_lt _)
      refine ⟨j + 1, Nat.succ_le_succ hj, fun i hi => ?_, ?_⟩
      · cases i with
        | zero => exact ⟨h, rfl⟩
        | succ i =>
          obtain ⟨h₁, hi⟩ := hgot i (Nat.le_of_succ_le_succ hi)
          refine ⟨h₁, ?_⟩
          rw [growHeap_succ, if_neg hnew]
          exact Option.bind_eq_some_iff.mpr ⟨k, hmap, hi⟩
      · rw [hlimit]
        simp only [u32]
        omega

/-- As many of the pages as there are frames for end below 4 GiB. A growth that runs out of frames
stops there, so no more is needed. -/
def RoomForPages (h : Heap Kernel) (pages : Nat) : Prop :=
  ∀ j ≤ pages, j + newTables h.machine (h.heapLimit / 4096) j ≤ h.machine.pmm.freeFrames.length →
    h.heapLimit + j * 4096 < 4294967296

/-- A growth that has room does not wrap the limit. -/
theorem RoomForPages.le {h h' : Heap Kernel} {pages : Nat} {ok : Bool}
    (hroom : RoomForPages h pages) (hrun : growHeap kernelPager pages h = some (ok, h'))
    (hpage : h.heapLimit % 4096 = 0) (hlt : h.heapLimit < 4294967296) :
    h.heapLimit ≤ h'.heapLimit := by
  obtain ⟨j, hj, hgot, hlimit⟩ := growHeap_got pages hrun hlt
  have hbelow : h.heapLimit + j * 4096 < 4294967296 := by
    by_contra hover
    -- The pages up to the last one have been paid for.
    have htop : (4294967296 - h.heapLimit) / 4096 ≤ j := by omega
    obtain ⟨h₁, hwhole⟩ := hgot _ htop
    have hcost := growHeap_cost _ hwhole hpage (by omega)
    have := hroom _ (htop.trans hj) hcost
    omega
  rw [hlimit, u32_of_lt hbelow]
  exact Nat.le_add_right _ _

/-- Frames are only ever taken; if there is one and a page is needed, one is. Nothing is put back by
a growth that does not come to its end. -/
theorem growHeap_shrinks : ∀ (pages : Nat) {h h' : Heap Kernel} {ok : Bool},
    growHeap kernelPager pages h = some (ok, h') →
      h'.machine.pmm.freeFrames.length ≤ h.machine.pmm.freeFrames.length ∧
      (pages ≠ 0 → h.machine.pmm.freeFrames ≠ [] →
        h'.machine.pmm.freeFrames.length < h.machine.pmm.freeFrames.length)
  | 0, h, h', ok, hrun => by
    obtain ⟨_, rfl⟩ := Prod.mk.inj (Option.some.inj hrun)
    exact ⟨Nat.le_refl _, fun hne => absurd rfl hne⟩
  | pages + 1, h, h', ok, hrun => by
    have halloc : (kernelPager.pmmAllocPage h.machine).2.pmm.freeFrames =
        h.machine.pmm.freeFrames.tail := by
      show (pmmAllocPage h.machine.pmm).2.freeFrames = _
      rw [pmmAllocPage_eq]
      cases hfree : h.machine.pmm.freeFrames with
      | nil => exact hfree
      | cons f rest => exact Pmm.freeFrames_take hfree
    have hrest : h'.machine.pmm.freeFrames.length ≤ h.machine.pmm.freeFrames.tail.length := by
      rw [← halloc]
      rw [growHeap_succ] at hrun
      split at hrun
      · obtain ⟨_, rfl⟩ := Prod.mk.inj (Option.some.inj hrun)
        exact Nat.le_refl _
      · obtain ⟨k, hmap, hrest⟩ := Option.bind_eq_some_iff.mp hrun
        refine Nat.le_trans (growHeap_shrinks pages hrest).1 ?_
        have hframes := (mapPage_frames hmap).1
        show k.pmm.freeFrames.length ≤ _
        omega
    rw [List.length_tail] at hrest
    refine ⟨by omega, fun _ hne => ?_⟩
    have := List.length_pos_of_ne_nil hne
    omega

/-! ## Enough frames -/

/-- The first page is mapped, to a frame that was free; and there is enough left for the others. -/
theorem growPage_succeeds {h : Heap Kernel} {pages : Nat} (hk : TablesDirect h.machine)
    (hz : 0 ∉ h.machine.pmm.freeFrames) (hkeep : GrowthKeepsTables h (pages + 1))
    (hle : h.heapLimit + (pages + 1) * 4096 ≤ 4294967296)
    (henough : pages + 1 + newTables h.machine (h.heapLimit / 4096) (pages + 1) ≤
      h.machine.pmm.freeFrames.length) :
    ∃ k, (kernelPager.pmmAllocPage h.machine).1 ≠ 0 ∧
      Mem.mapPage (kernelPager.pmmAllocPage h.machine).2 h.heapLimit
        (kernelPager.pmmAllocPage h.machine).1 = some k ∧
      TablesDirect k ∧ k.pmm.freeFrames ⊆ h.machine.pmm.freeFrames ∧
      pages + newTables k (h.heapLimit / 4096 + 1) pages ≤ k.pmm.freeFrames.length ∧
      (∃ f ∈ h.machine.pmm.freeFrames, k.frame (h.heapLimit / 4096) = some f) ∧
      ∀ q < 1048576, q ≠ h.heapLimit / 4096 → k.frame q = h.machine.frame q := by
  have hne : h.machine.pmm.freeFrames ≠ [] := by
    intro hnil
    rw [hnil] at henough
    exact absurd henough (by simp)
  have hnew : (kernelPager.pmmAllocPage h.machine).1 ≠ 0 := by
    show (pmmAllocPage h.machine.pmm).1 ≠ 0
    rw [pmmAllocPage_eq]
    cases hfree : h.machine.pmm.freeFrames with
    | nil => exact absurd hfree hne
    | cons f rest =>
      rintro (hzero : f * 4096 = 0)
      rw [hfree] at hz
      exact hz (List.mem_cons.mpr (Or.inl (by omega)))
  obtain ⟨f, rest, hfree, hlt, hval, htail⟩ := kernelPager_alloc hnew
  have hkeep₀ := hkeep 0 (Nat.succ_pos _) h rfl hnew
  have hsub : rest ⊆ h.machine.pmm.freeFrames := hfree ▸ List.subset_cons_self f rest
  have hv : h.heapLimit < 4294967296 := by omega
  have hp : (kernelPager.pmmAllocPage h.machine).1 < 4294967296 := by omega
  -- There is a frame for its table, should it need one.
  have hframe : h.machine.table (h.heapLimit / 4096 / 1024) ≠ none ∨
      ∃ t rest', rest = t :: rest' ∧ t ≠ 0 := by
    by_cases hnone : h.machine.table (h.heapLimit / 4096 / 1024) = none
    · cases rest with
      | nil =>
        have hpos := newTables_pos hnone pages
        rw [hfree, List.length_singleton] at henough
        omega
      | cons t rest =>
        refine Or.inr ⟨t, rest, rfl, ?_⟩
        rintro rfl
        exact hz (hsub List.mem_cons_self)
    · exact Or.inl hnone
  rw [← alloc_table, ← htail] at hframe
  obtain ⟨k, hmap⟩ := mapPage_succeeds hk.alloc.inv hp (hkeep₀.ready hk.alloc hv) hframe
  obtain ⟨hk', hmapped⟩ := hk.alloc.mapPage hv hp hkeep₀ hmap
  obtain ⟨hlen, hless⟩ := mapPage_frames hmap
  rw [htail] at hlen hless
  rw [alloc_table] at hlen
  have htables := mapPage_no_table hmap
  simp only [alloc_table] at htables
  have hstep := @newTables_succ h.machine k (h.heapLimit / 4096) pages htables
  rw [hstep, hfree, List.length_cons] at henough
  have hone : k.frame (h.heapLimit / 4096) = some f := by
    rw [hmapped.frame _ (by omega), if_pos rfl, hval, Nat.mul_div_cancel f (by decide)]
  refine ⟨k, hnew, hmap, hk', fun g hg => hsub (hless hg), by omega,
    ⟨f, hfree ▸ List.mem_cons_self, hone⟩, fun q hq hother => ?_⟩
  rw [hmapped.frame q hq, if_neg hother]
  rfl

/-- **Enough frames are enough.** With the tables in reach, the growth goes through. Its pages go
to frames that were free, the others stay where they are. One page at a time, and each of them
leaves the same hypotheses for one page less. -/
theorem growHeap_succeeds : ∀ (pages : Nat) {h : Heap Kernel}, TablesDirect h.machine →
    0 ∉ h.machine.pmm.freeFrames → GrowthKeepsTables h pages → h.heapLimit % 4096 = 0 →
    h.heapLimit + pages * 4096 ≤ 4294967296 →
    pages + newTables h.machine (h.heapLimit / 4096) pages ≤ h.machine.pmm.freeFrames.length →
      ∃ h', growHeap kernelPager pages h = some (true, h') ∧
        ∀ q < 1048576,
          (h.heapLimit / 4096 ≤ q ∧ q < h.heapLimit / 4096 + pages →
            ∃ f ∈ h.machine.pmm.freeFrames, h'.machine.frame q = some f) ∧
          (¬ (h.heapLimit / 4096 ≤ q ∧ q < h.heapLimit / 4096 + pages) →
            h'.machine.frame q = h.machine.frame q)
  | 0, h, _, _, _, _, _, _ => by
    refine ⟨h, rfl, fun q _ => ⟨fun hin => ?_, fun _ => rfl⟩⟩
    omega
  | pages + 1, h, hk, hz, hkeep, hpage, hle, henough => by
    obtain ⟨k, hnew, hmap, hk', hsub, hleft, ⟨f, hf, hone⟩, hother⟩ :=
      growPage_succeeds hk hz hkeep hle henough
    -- The limit wraps only behind the last page.
    have hnext : pages = 0 ∨ u32 (h.heapLimit + 4096) = h.heapLimit + 4096 := by
      simp only [u32]
      omega
    have henough' : pages + newTables k (u32 (h.heapLimit + 4096) / 4096) pages ≤
        k.pmm.freeFrames.length := by
      rcases hnext with rfl | hnext
      · rw [newTables_zero]
        omega
      · rw [hnext, Nat.add_div_right _ (by decide : 0 < 4096)]
        exact hleft
    obtain ⟨h', hrun, hframes⟩ := @growHeap_succeeds pages
      { h with machine := k, heapLimit := u32 (h.heapLimit + 4096) } hk'
      (fun hmem => hz (hsub hmem)) (hkeep.tail hnew hmap)
      (by simp only [u32]; omega) (by rcases hnext with rfl | hnext <;> simp only [u32] <;> omega)
      henough'
    refine ⟨h', ?_, fun q hq => ?_⟩
    · rw [growHeap_succ, if_neg hnew]
      exact Option.bind_eq_some_iff.mpr ⟨k, hmap, hrun⟩
    · obtain ⟨hin, hout⟩ := hframes q hq
      have hrange : (u32 (h.heapLimit + 4096) / 4096 ≤ q ∧
          q < u32 (h.heapLimit + 4096) / 4096 + pages) ↔
          (h.heapLimit / 4096 + 1 ≤ q ∧ q < h.heapLimit / 4096 + 1 + pages) := by
        rcases hnext with rfl | hnext
        · omega
        · rw [hnext]
          omega
      rw [hrange] at hin hout
      constructor
      · intro hmem
        rcases eq_or_ne q (h.heapLimit / 4096) with rfl | hne
        · exact ⟨f, hf, (hout (by omega)).trans hone⟩
        · obtain ⟨g, hg, hgq⟩ := hin (by omega)
          exact ⟨g, hsub hg, hgq⟩
      · intro hnot
        exact (hout (by omega)).trans (hother q hq (by omega))

/-! ## Growth without new tables -/

/-- Nothing is missing where every page has its table. -/
theorem newTables_eq_zero {k : Kernel} {q pages : Nat}
    (h : ∀ i < pages, k.table ((q + i) / 1024) ≠ none) : newTables k q pages = 0 := by
  refine Finset.card_eq_zero.mpr (Finset.filter_eq_empty_iff.mpr fun d hd => ?_)
  obtain ⟨i, hi, rfl⟩ := Finset.mem_image.mp hd
  exact h i (Finset.mem_range.mp hi)

theorem table_of_newTables {k : Kernel} {q pages : Nat} (h : newTables k q pages = 0) {i : Nat}
    (hi : i < pages) : k.table ((q + i) / 1024) ≠ none := by
  intro hnone
  have hmem : (q + i) / 1024 ∈
      ((Finset.range pages).image fun i => (q + i) / 1024).filter fun d => k.table d = none :=
    Finset.mem_filter.mpr ⟨Finset.mem_image.mpr ⟨i, Finset.mem_range.mpr hi, rfl⟩, hnone⟩
  rw [Finset.card_eq_zero.mp h] at hmem
  exact absurd hmem (Finset.notMem_empty _)

/-- Where every page has its table, and none of the pages is a table's own, the growth keeps
the tables. `hapart` is about page numbers, because the tables are written to at their physical
addresses: a page at such an address would take a table out of reach. -/
theorem growthKeepsTables_of_present : ∀ (pages : Nat) {h : Heap Kernel},
    TablesDirect h.machine → h.heapLimit % 4096 = 0 →
    h.heapLimit + pages * 4096 ≤ 4294967296 →
    newTables h.machine (h.heapLimit / 4096) pages = 0 →
    (∀ f, h.machine.TableFrame f → f < h.heapLimit / 4096 ∨ h.heapLimit / 4096 + pages ≤ f) →
      GrowthKeepsTables h pages
  | 0, h, _, _, _, _, _ => fun i hi => absurd hi (Nat.not_lt_zero i)
  | pages + 1, h, hk, hpage, hle, hnone, hapart => by
    have hhere : (kernelPager.pmmAllocPage h.machine).2.KeepsTables h.heapLimit
        (kernelPager.pmmAllocPage h.machine).1 := by
      have htable := table_of_newTables hnone (Nat.succ_pos pages)
      refine ⟨fun hno => absurd hno htable, fun f hfor heq => ?_⟩
      rcases hfor with hold | ⟨hno, _⟩
      · have hne := hapart f hold
        omega
      · exact absurd hno htable
    intro i hi h' hrun hnew'
    cases i with
    | zero =>
      obtain ⟨_, rfl⟩ := Prod.mk.inj (Option.some.inj hrun)
      exact hhere
    | succ i =>
      obtain ⟨hnew, k, hmap, hrest⟩ := growHeap_grown hrun
      obtain ⟨f, _, _, hlt, hval, _⟩ := kernelPager_alloc hnew
      have htables := mapPage_no_table hmap
      simp only [alloc_table] at htables
      have hstep := @newTables_succ h.machine k (h.heapLimit / 4096) pages htables
      have hlast : u32 (h.heapLimit + 4096) = h.heapLimit + 4096 := u32_of_lt (by omega)
      have hdiv : u32 (h.heapLimit + 4096) / 4096 = h.heapLimit / 4096 + 1 := by
        rw [hlast]
        omega
      have hk' := (hk.alloc.mapPage (by omega) (by omega) hhere hmap).1
      refine growthKeepsTables_of_present pages
        (h := { h with machine := k, heapLimit := u32 (h.heapLimit + 4096) }) hk' (by
        simp only [hlast]; omega) (by simp only [hlast]; omega) ?_ ?_ i
        (Nat.lt_of_succ_lt_succ hi) h' hrest hnew'
      · simp only [hdiv]
        omega
      · rintro g ⟨d, hd, hg⟩
        have hold : h.machine.TableFrame g := by
          rcases mapPage_cost hmap with ⟨_, _, hsame⟩ | ⟨t, _, hno, _⟩
          · exact ⟨d, hd, (hsame d).symm.trans hg⟩
          · exact absurd hno (table_of_newTables hnone (Nat.succ_pos pages))
        have := hapart g hold
        simp only [hdiv]
        omega

end ScratchOs.Mem
