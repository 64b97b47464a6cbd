import ScratchOs.Mem.DirectMap
import ScratchOs.Mem.HeapSafety
import ScratchOs.Mem.PmmOwners

/-!
# Page tables after paging is on

`map_page` writes page tables through their physical addresses. With paging on that works for a
table in a frame that is mapped to itself, and nothing in the code asks for such a frame: the
identity map is 4 MiB and `pmm_alloc_page` returns whatever is lowest.

`Kernel.KeepsTables` is what a call of `map_page` must meet for the tables to stay where they can
be reached: a new one comes from a frame mapped to itself, and the page mapped is not one of
theirs. The heap is a client like any other, except that it also writes memory: its pages must
not be page tables. That is `Kernel.OwnsHeap`, and with it the results about the heap hold of
this machine too.

## What is a condition and what is kept

`TablesDirect` is an invariant and `KeepsTables` a condition on a call. The code checks neither. So
the invariant is the weakest one under which a further `map_page` reads the table it means to read,
and the condition is read off the state before the call: whether the frame that is going to become a
table is mapped to itself can be seen there, since the allocator says which frame it will be.

A table's own page may be mapped again to where it is. That is why `KeepsTables.apart` ends in an
equation of frames and does not just keep the page out.
-/

set_option autoImplicit false

namespace ScratchOs.Mem

open AddressSpace Bits FreeList Boot

/-- The calls of `heap.cpp`, answered by `pmm.cpp` and `vmm.cpp`. -/
def kernelPager : Pager Kernel where
  pmmAllocPage k := ((Mem.pmmAllocPage k.pmm).1, { k with pmm := (Mem.pmmAllocPage k.pmm).2 })
  mapPage := Mem.mapPage

/-! ## Keeping the tables in reach -/

/-- Paging is on, and every page table is mapped to itself. -/
structure TablesDirect (k : Kernel) : Prop where
  paging : k.paging = true
  inv : TablesInv k
  direct : ∀ f, k.TableFrame f → k.frame f = some f

/-- Frame `f` holds a table, or will once page `v` has one. -/
def Kernel.TableFor (k : Kernel) (v f : Nat) : Prop :=
  k.TableFrame f ∨ k.table (v / 4096 / 1024) = none ∧ k.pmm.freeFrames.head? = some f

/-- `map_page(v, p)` can be done: if it takes a frame for a table, that frame is mapped to
itself; and `v` is not in the page of a table, unless it is mapped to where it is. -/
structure Kernel.KeepsTables (k : Kernel) (v p : Nat) : Prop where
  fresh : k.table (v / 4096 / 1024) = none → ∀ f ∈ k.pmm.freeFrames.head?, k.frame f = some f
  apart : ∀ f, k.TableFor v f → v / 4096 = f → p / 4096 = f

/-- With the tables in reach this is what `mapPage_spec` asks for. -/
theorem Kernel.KeepsTables.ready {k : Kernel} (hk : TablesDirect k) {v p : Nat}
    (h : k.KeepsTables v p) (hv : v < 4294967296) : k.Ready (v / 4096 / 1024) := by
  unfold Kernel.Ready
  cases ht : k.table (v / 4096 / 1024) with
  | some t => exact Or.inr (hk.direct t ⟨_, by omega, ht⟩)
  | none => exact fun f hf => Or.inr (h.fresh ht f hf)

/-- The tables after a `map_page` are those there were, and the new one. -/
theorem Mapped.tableFor {k k' : Kernel} {v f : Nat} (hm : Mapped k k' (v / 4096) f) {t : Nat}
    (ht : k'.TableFrame t) : k.TableFor v t := by
  obtain ⟨d, hd, ht⟩ := ht
  rcases hm.tables with ⟨_, _, htable⟩ | ⟨t', rest, hnone, hfree, _, _, htable⟩
  · exact Or.inl ⟨d, hd, (htable d).symm.trans ht⟩
  · rw [htable] at ht
    split at ht
    · obtain rfl := Option.some.inj ht
      exact Or.inr ⟨hnone, by rw [hfree]; rfl⟩
    · exact Or.inl ⟨d, hd, ht⟩

/-- A mapping takes frames and frees none. -/
theorem Mapped.taken {k k' : Kernel} {q f : Nat} (hm : Mapped k k' q f) {g : Nat}
    (hg : k.pmm.taken g = true) : k'.pmm.taken g = true := by
  rcases hm.tables with ⟨_, hpmm, _⟩ | ⟨t, _, _, _, _, hpmm, _⟩
  · rw [hpmm, hg]
  · rw [hpmm, Pmm.taken_take, hg, Bool.or_true]

/-- A new table is in a frame that was free. -/
theorem Mapped.not_table {k k' : Kernel} {v f : Nat} (hm : Mapped k k' (v / 4096) f) {g : Nat}
    (hg : k.pmm.taken g = true) (hnt : ¬ k.TableFrame g) : ¬ k'.TableFrame g := by
  intro ht
  rcases hm.tableFor ht with hold | ⟨_, hnew⟩
  · exact hnt hold
  · have hfree := (Pmm.mem_freeFrames.mp (List.mem_of_mem_head? hnew)).2
    rw [hg] at hfree
    exact absurd hfree (by simp)

/-- **One `map_page`.** Whatever it maps, if it keeps the tables they are all in reach after it.
Only two pages matter: that of the mapping itself, which may be a table's address, and that of a
table that is made. -/
theorem TablesDirect.mapPage {k k' : Kernel} (hk : TablesDirect k) {v p : Nat}
    (hv : v < 4294967296) (hp : p < 4294967296) (hkeep : k.KeepsTables v p)
    (h : mapPage k v p = some k') : TablesDirect k' ∧ Mapped k k' (v / 4096) (p / 4096) := by
  have hm := mapPage_spec hk.inv hv hp (hkeep.ready hk hv) h
  refine ⟨⟨hm.paging.trans hk.paging, hm.inv, fun f hf => ?_⟩, hm⟩
  have hfor := hm.tableFor hf
  rw [hm.frame f hf.lt]
  split
  · next heq => rw [hkeep.apart f hfor heq.symm]
  · rcases hfor with hold | ⟨hnone, hnew⟩
    · exact hk.direct f hold
    · exact hkeep.fresh hnone f hnew

/-! ## The heap's pages -/

/-- The pages of the heap are frames that were handed out, one for each page, and none of them
holds a table. -/
structure Kernel.OwnsHeap (k : Kernel) (lo hi : Nat) (τ : Nat → Nat) : Prop where
  tables : TablesDirect k
  limit : hi < 4294967296
  page : ∀ a, lo ≤ a → a < hi → ∃ f, k.frame (a / 4096) = some f ∧ τ a = f * 4096 + a % 4096 ∧
    k.pmm.taken f = true ∧ ¬ k.TableFrame f
  inj : ∀ a b, lo ≤ a → a < hi → lo ≤ b → b < hi → τ a = τ b → a = b

section Owns

variable {k k' : Kernel} {lo hi : Nat} {τ : Nat → Nat}

/-- An address of the heap goes where `τ` says. -/
theorem Kernel.OwnsHeap.translate (h : k.OwnsHeap lo hi τ) {a : Nat} (hlo : lo ≤ a)
    (hhi : a < hi) : AddressSpace.translate k a = some (τ a) := by
  have hlim := h.limit
  obtain ⟨f, hf, hτ, _⟩ := h.page a hlo hhi
  rw [Kernel.translate_eq h.tables.paging (by omega), hf, Option.map_some, hτ]

/-- What is written behind the heap's window is in no table. -/
theorem Kernel.OwnsHeap.frame_touch (h : k.OwnsHeap lo hi τ) (ht : Touches τ lo hi k k') {q : Nat}
    (hq : q < 1048576) : k'.frame q = k.frame q := by
  obtain ⟨m, rfl, hm⟩ := ht
  have hsame : ∀ a, k.TableFrame (a / 4096) → m a = k.mem a := by
    intro a ha
    refine hm a ?_
    rintro ⟨c, hlo, hhi, rfl⟩
    obtain ⟨f, _, hτ, _, hnt⟩ := h.page c hlo hhi
    refine hnt ?_
    rwa [hτ, show (f * 4096 + c % 4096) / 4096 = f by omega] at ha
  have htable : ∀ d, (AddressSpace.setMem k m).table d = k.table d := fun d => rfl
  exact Kernel.frame_congr htable hsame hq

/-- So stores to the heap leave all of it as it was, as far as translation goes. -/
theorem Kernel.OwnsHeap.touch (h : k.OwnsHeap lo hi τ) (ht : Touches τ lo hi k k') :
    k'.OwnsHeap lo hi τ := by
  have hframe : ∀ q < 1048576, k'.frame q = k.frame q := fun q hq => h.frame_touch ht hq
  obtain ⟨m, rfl, hm⟩ := ht
  have hlim := h.limit
  refine ⟨⟨h.tables.paging, ⟨h.tables.inv.owned, h.tables.inv.inj⟩, fun f hf => ?_⟩, h.limit,
    fun a hlo hhi => ?_, h.inj⟩
  · exact (hframe f hf.lt).trans (h.tables.direct f hf)
  · obtain ⟨f, hf, hrest⟩ := h.page a hlo hhi
    exact ⟨f, (hframe _ (by omega)).trans hf, hrest⟩

/-- The heap is a window, and everything that is proved of windows holds for it. -/
theorem Kernel.OwnsHeap.window (h : k.OwnsHeap lo hi τ) : Window k lo hi τ :=
  ⟨fun _ hlo hhi => h.translate hlo hhi, h.inj, fun _ ht _ hlo hhi =>
    (h.touch ht).translate hlo hhi⟩

/-- What was taken stays so. -/
theorem taken_pmmAllocPage {s : Pmm} {f : Nat} (h : s.taken f = true) :
    (pmmAllocPage s).2.taken f = true := by
  rw [pmmAllocPage_eq]
  split
  · exact h
  · rw [Pmm.taken_take, h, Bool.or_true]

/-- Handing out a page changes no table and takes nothing back. -/
theorem TablesDirect.alloc (h : TablesDirect k) : TablesDirect (kernelPager.pmmAllocPage k).2 := by
  refine ⟨h.paging, ⟨fun f hf => ?_, h.inv.inj⟩, h.direct⟩
  exact taken_pmmAllocPage (h.inv.owned f hf)

/-- Between `pmm_alloc_page` and `map_page` the page is taken and nowhere mapped. -/
theorem Kernel.OwnsHeap.alloc (h : k.OwnsHeap lo hi τ) :
    (kernelPager.pmmAllocPage k).2.OwnsHeap lo hi τ := by
  refine ⟨h.tables.alloc, h.limit, fun a hlo hhi => ?_, h.inj⟩
  obtain ⟨f, hf, hτ, htaken, hnt⟩ := h.page a hlo hhi
  exact ⟨f, hf, hτ, taken_pmmAllocPage htaken, hnt⟩

/-- A `map_page` elsewhere leaves the heap's window as it is, and the bytes behind it. -/
theorem Kernel.OwnsHeap.mapPage (h : k.OwnsHeap lo hi τ) {v p : Nat} (hv : v < 4294967296)
    (hp : p < 4294967296) (hkeep : k.KeepsTables v p)
    (hout : ∀ a, lo ≤ a → a < hi → a / 4096 ≠ v / 4096) (hmap : Mem.mapPage k v p = some k') :
    k'.OwnsHeap lo hi τ ∧ ∀ a, lo ≤ a → a < hi → mem k' (τ a) = mem k (τ a) := by
  obtain ⟨htables, hm⟩ := h.tables.mapPage hv hp hkeep hmap
  have hlim := h.limit
  refine ⟨⟨htables, h.limit, fun a hlo hhi => ?_, h.inj⟩, fun a hlo hhi => ?_⟩
  · obtain ⟨f, hf, hτ, hft, hfn⟩ := h.page a hlo hhi
    refine ⟨f, ?_, hτ, hm.taken hft, hm.not_table hft hfn⟩
    rw [hm.frame _ (by omega), if_neg (hout a hlo hhi), hf]
  · obtain ⟨f, _, hτ, hft, hfn⟩ := h.page a hlo hhi
    refine hm.mem _ ?_
    rw [hτ, show (f * 4096 + a % 4096) / 4096 = f by omega]
    exact hm.not_table hft hfn

/-- The window one page further. The frame was free, so it is behind no page of the heap and holds
no table, and the mapping of the new page is elsewhere than the old ones. -/
theorem Kernel.OwnsHeap.grow (h : k.OwnsHeap lo hi τ) (hpage : hi % 4096 = 0)
    (hle : hi + 4096 < 4294967296) (hnew : (kernelPager.pmmAllocPage k).1 ≠ 0)
    (hkeep : (kernelPager.pmmAllocPage k).2.KeepsTables hi (kernelPager.pmmAllocPage k).1)
    (hmap : Mem.mapPage (kernelPager.pmmAllocPage k).2 hi (kernelPager.pmmAllocPage k).1 =
      some k') :
    ∃ τ', k'.OwnsHeap lo (hi + 4096) τ' ∧
      ∀ a, lo ≤ a → a < hi → τ' a = τ a ∧ mem k' (τ a) = mem k (τ a) := by
  obtain ⟨f, _, hlt, hclear, halloc⟩ := pmmAllocPage_succeeded hnew
  have hscan := k.pmm.scanned_lt
  have hval : (kernelPager.pmmAllocPage k).1 = f * 4096 := congrArg Prod.fst halloc
  have hpmm : (kernelPager.pmmAllocPage k).2.pmm = k.pmm.take f := congrArg Prod.snd halloc
  have hnt : ¬ (kernelPager.pmmAllocPage k).2.TableFrame f := fun ht => by
    rw [h.tables.inv.owned f ht] at hclear
    exact absurd hclear (by simp)
  have halloced := h.alloc
  have hmem : (kernelPager.pmmAllocPage k).2.mem = k.mem := rfl
  rw [hval] at hkeep hmap
  generalize (kernelPager.pmmAllocPage k).2 = k₁ at hpmm hkeep hmap halloced hmem hnt
  have htaken : k₁.pmm.taken f = true := by
    rw [hpmm, Pmm.taken_take, decide_eq_true rfl, Bool.true_or]
  have hp : f * 4096 < 4294967296 := by omega
  obtain ⟨_, hm⟩ := halloced.tables.mapPage (by omega) hp hkeep hmap
  obtain ⟨howns, hsame⟩ := halloced.mapPage (by omega) hp hkeep (fun a _ hhi => by omega) hmap
  refine ⟨addPage τ hi (f * 4096), ⟨howns.tables, hle, fun a hlo hhi => ?_,
    addPage_inj hpage h.inj ?_⟩, fun a hlo hhi =>
      ⟨if_pos hhi, by rw [hsame a hlo hhi]; exact congrFun hmem _⟩⟩
  · by_cases ha : a < hi
    · obtain ⟨g, hg, hτ, hrest⟩ := howns.page a hlo ha
      exact ⟨g, hg, by rw [addPage, if_pos ha, hτ], hrest⟩
    · have hdiv : a / 4096 = hi / 4096 := by omega
      refine ⟨f, ?_, if_neg ha, hm.taken htaken, hm.not_table htaken hnt⟩
      rw [hm.frame _ (by omega), if_pos hdiv, Nat.mul_div_cancel f (by decide)]
  · -- The pages of the old window were taken before this one was.
    intro a b hlo hhi heq
    obtain ⟨g, _, hτ, hg, _⟩ := h.page a hlo hhi
    have hgf : g = f := by omega
    rw [hgf, hclear] at hg
    exact absurd hg (by simp)

end Owns

/-! ## The heap on this machine

The heap's own calls of `map_page` must keep the tables too. `guardedPager` refuses the others;
as long as there are none it is the pager the heap has. -/

open Classical in
noncomputable def guardedPager : Pager Kernel where
  pmmAllocPage := kernelPager.pmmAllocPage
  mapPage k v p := if k.KeepsTables v p then Mem.mapPage k v p else none

/-- The laws hold of it whatever it is asked for: where the tables would be disturbed it does not
return. -/
theorem guardedPager_laws {top : Nat} (htop : top < 4294967296) :
    PagerLaws guardedPager top Kernel.OwnsHeap where
  top_lt := htop
  window h := h.window
  touches h ht := h.touch ht
  fail h _ := ⟨h.alloc, fun _ _ _ => rfl⟩
  grow {k _ _ hi _} h hpage hle hnew hmap := by
    by_cases hkeep : (kernelPager.pmmAllocPage k).2.KeepsTables hi (kernelPager.pmmAllocPage k).1
    · exact h.grow hpage (Nat.lt_of_le_of_lt hle htop) hnew hkeep ((if_pos hkeep).symm.trans hmap)
    · exact absurd ((if_neg hkeep).symm.trans hmap) (by simp)

/-- The laws as far as the frame buffer. -/
theorem guardedLaws : PagerLaws guardedPager videoVrtAddr Kernel.OwnsHeap :=
  guardedPager_laws (by decide)

/-- Each `map_page` of the growth keeps the tables, in the state it is called in. -/
def GrowthKeepsTables (h : Heap Kernel) (pages : Nat) : Prop :=
  ∀ i < pages, ∀ h', growHeap kernelPager i h = some (true, h') →
    (kernelPager.pmmAllocPage h'.machine).1 ≠ 0 →
      (kernelPager.pmmAllocPage h'.machine).2.KeepsTables h'.heapLimit
        (kernelPager.pmmAllocPage h'.machine).1

/-- What is left of it after the first page. -/
theorem GrowthKeepsTables.tail {h : Heap Kernel} {pages : Nat} {k : Kernel}
    (hkeep : GrowthKeepsTables h (pages + 1)) (hpage : (kernelPager.pmmAllocPage h.machine).1 ≠ 0)
    (hmap : Mem.mapPage (kernelPager.pmmAllocPage h.machine).2 h.heapLimit
      (kernelPager.pmmAllocPage h.machine).1 = some k) :
    GrowthKeepsTables { h with machine := k, heapLimit := u32 (h.heapLimit + 4096) } pages := by
  intro i hi h' hrun
  refine hkeep (i + 1) (Nat.succ_lt_succ hi) h' ?_
  rw [growHeap_succ, if_neg hpage]
  exact Option.bind_eq_some_iff.mpr ⟨k, hmap, hrun⟩

/-- A growth that has nothing to be refused is the growth of the kernel's own pager, by recursion on
the pages. -/
theorem growHeap_guarded : ∀ (pages : Nat) {h : Heap Kernel}, GrowthKeepsTables h pages →
    growHeap guardedPager pages h = growHeap kernelPager pages h
  | 0, _, _ => rfl
  | pages + 1, h, hkeep => by
    rw [growHeap_succ, growHeap_succ]
    show (if (kernelPager.pmmAllocPage h.machine).1 = 0 then _ else _) = _
    by_cases hpage : (kernelPager.pmmAllocPage h.machine).1 = 0
    · rw [if_pos hpage, if_pos hpage]
      rfl
    · rw [if_neg hpage, if_neg hpage]
      have hguard : guardedPager.mapPage (guardedPager.pmmAllocPage h.machine).2 h.heapLimit
          (guardedPager.pmmAllocPage h.machine).1 =
          kernelPager.mapPage (kernelPager.pmmAllocPage h.machine).2 h.heapLimit
            (kernelPager.pmmAllocPage h.machine).1 :=
        if_pos (hkeep 0 (Nat.succ_pos _) h rfl hpage)
      rw [hguard]
      exact Option.bind_congr fun k hk => growHeap_guarded pages (hkeep.tail hpage hk)

/-- What `kmalloc(n)` may do: if it has to grow the heap, the growth keeps the tables. -/
def KmallocKeepsTables (h : Heap Kernel) (n : Nat) : Prop :=
  ∀ lastBlock, findFit h.machine (roundSize n) 4294967296 h.firstBlock h.firstBlock =
    some (0, lastBlock) → GrowthKeepsTables h ((roundedUp n + 16 + 4095) / 4096)

/-- And so is a request. This is how what is proved of `guardedPager` comes back to the code: the
guard is in the proofs only. -/
theorem kmalloc_guarded {h : Heap Kernel} {n : Nat} (hn : Reasonable n)
    (hkeep : KmallocKeepsTables h n) : kmalloc guardedPager h n = kmalloc kernelPager h n := by
  by_cases hzero : roundSize n = 0
  · rw [kmalloc, kmalloc, if_pos hzero, if_pos hzero]
  cases hfind : findFit h.machine (roundSize n) 4294967296 h.firstBlock h.firstBlock with
  | none =>
    rw [kmalloc, kmalloc, if_neg hzero, if_neg hzero, hfind]
    rfl
  | some r =>
    obtain ⟨currentBlock, lastBlock⟩ := r
    by_cases hcur : currentBlock = 0
    · subst hcur
      obtain ⟨hneed, hpages⟩ := pages_lt hn
      have hgrow := growHeap_guarded _ (hkeep lastBlock hfind)
      rw [kmalloc_end hzero hfind, kmalloc_end hzero hfind, roundSize_eq hn]
      simp only [expandHeap, hneed, hpages, hgrow]
    · rw [kmalloc_found hzero hfind hcur, kmalloc_found hzero hfind hcur]

/-- A `map_page` outside the heap. -/
theorem HeapInv.mapPage {k k' : Kernel} {first limit : Nat} {τ : Nat → Nat} {m : Bytes.Mem}
    {bs : List Block} {top v p : Nat} (h : HeapInv top Kernel.OwnsHeap ⟨k, first, limit⟩ τ m bs)
    (hv : v < 4294967296) (hp : p < 4294967296) (hkeep : k.KeepsTables v p)
    (hout : ∀ a, first ≤ a → a < limit → a / 4096 ≠ v / 4096)
    (hmap : Mem.mapPage k v p = some k') :
    HeapInv top Kernel.OwnsHeap ⟨k', first, limit⟩ τ m bs := by
  obtain ⟨howns, hsame⟩ := h.owns.mapPage hv hp hkeep hout hmap
  refine ⟨howns, fun a hlo hhi => ?_, h.chain, h.laid, h.pos, h.limit, h.page⟩
  exact (hsame a hlo hhi).trans (h.shows a hlo hhi)

/-! ## Runs after `init_vmm`

The heap's statics are there once `init_heap` has run, so a run is in one of two phases, and so is
its invariant (`RunOk`): before, the tables alone; after, the heap of some first block. A region may
be mapped in either phase. -/

/-- The heap's statics, once `init_heap` has run: `first_block` and `heap_limit`. -/
abbrev HeapStatics := Option (Nat × Nat)

/-- The page `init_heap` is going to get: its `PA_VA` is an address for a heap, and goes to a
frame that is not free, nor a table. -/
def FirstPageUsable (k : Kernel) : Prop :=
  0 < paVa (kernelPager.pmmAllocPage k).1 ∧
  paVa (kernelPager.pmmAllocPage k).1 + 4096 ≤ videoVrtAddr ∧
  ∃ f, k.frame (paVa (kernelPager.pmmAllocPage k).1 / 4096) = some f ∧
    (kernelPager.pmmAllocPage k).2.pmm.taken f = true ∧ ¬ k.TableFrame f

/-- As `FirstPageUsable`, with another bound for the heap than the frame buffer. -/
def FirstPageBelow (top : Nat) (k : Kernel) : Prop :=
  0 < paVa (kernelPager.pmmAllocPage k).1 ∧
  paVa (kernelPager.pmmAllocPage k).1 + 4096 ≤ top ∧
  ∃ f, k.frame (paVa (kernelPager.pmmAllocPage k).1 / 4096) = some f ∧
    (kernelPager.pmmAllocPage k).2.pmm.taken f = true ∧ ¬ k.TableFrame f

/-- Each `map_page` of a region keeps the tables, in the state it is called in. -/
def MappingsKeepTables (k : Kernel) (cs : List Mapping) : Prop :=
  ∀ pre c post, cs = pre ++ c :: post → ∀ k', mapPages k pre = some k' →
    k'.KeepsTables c.1.toNat c.2.toNat

/-- What is left of it after the first mapping. -/
theorem MappingsKeepTables.tail {k k' : Kernel} {c : Mapping} {cs : List Mapping}
    (h : MappingsKeepTables k (c :: cs)) (hmap : c.call.run k = some k') :
    MappingsKeepTables k' cs := by
  intro pre d post hcs k₂ hk₂
  refine h (c :: pre) d post (by rw [hcs]; rfl) k₂ ?_
  show (c.call.run k).bind (Mem.mapPages · pre) = some k₂
  rw [hmap]
  exact hk₂

/-- The frames after mappings that keep the tables: a page goes where it was mapped last, and the
others where they did before. -/
theorem TablesDirect.mapPages {cs : List Mapping} : ∀ {k k' : Kernel}, TablesDirect k →
    MappingsKeepTables k cs → mapPages k cs = some k' →
      TablesDirect k' ∧ ∀ q < 1048576, k'.frame q = (lastFrame cs q).or (k.frame q) := by
  induction cs with
  | nil =>
    intro k k' hk _ h
    obtain rfl := Option.some.inj h
    exact ⟨hk, fun q _ => rfl⟩
  | cons c cs ih =>
    intro k k' hk hkeep h
    obtain ⟨k₁, hmap, hrest⟩ := Option.bind_eq_some_iff.mp h
    have hkeep₁ := hkeep [] c cs rfl k rfl
    obtain ⟨hk₁, hmapped⟩ := TablesDirect.mapPage hk c.1.toNat_lt c.2.toNat_lt hkeep₁ hmap
    obtain ⟨hk', hframe⟩ := ih hk₁ (hkeep.tail hmap) hrest
    refine ⟨hk', fun q hq => ?_⟩
    rw [hframe q hq, lastFrame_cons, Option.or_assoc, hmapped.frame q hq]
    show (lastFrame cs q).or (if q = c.page then some c.frame else k.frame q) = _
    split
    · rfl
    · rfl

/-- Mappings outside the heap. -/
theorem HeapInv.mapPages {first limit : Nat} {τ : Nat → Nat} {m : Bytes.Mem} {bs : List Block}
    {top : Nat} {cs : List Mapping} : ∀ {k k' : Kernel},
      HeapInv top Kernel.OwnsHeap ⟨k, first, limit⟩ τ m bs → MappingsKeepTables k cs →
      (∀ a, first ≤ a → a < limit → ∀ c ∈ cs, c.page ≠ a / 4096) →
      mapPages k cs = some k' → HeapInv top Kernel.OwnsHeap ⟨k', first, limit⟩ τ m bs := by
  induction cs with
  | nil =>
    intro k k' h _ _ hcall
    obtain rfl := Option.some.inj hcall
    exact h
  | cons c cs ih =>
    intro k k' h hkeep hmiss hcall
    obtain ⟨k₁, hmap, hrest⟩ := Option.bind_eq_some_iff.mp hcall
    have hinv := h.mapPage c.1.toNat_lt c.2.toNat_lt (hkeep [] c cs rfl k rfl)
      (fun a hlo hhi => (hmiss a hlo hhi c List.mem_cons_self).symm) hmap
    exact ih hinv (hkeep.tail hmap)
      (fun a hlo hhi d hd => hmiss a hlo hhi d (List.mem_cons_of_mem _ hd)) hrest

/-- Pages that have their tables, and are not the tables' own, can be mapped. -/
theorem mapPages_present {cs : List Mapping} : ∀ {k : Kernel}, TablesDirect k →
    (∀ c ∈ cs, k.table (c.page / 1024) ≠ none ∧ ¬ k.TableFrame c.page) →
      MappingsKeepTables k cs ∧ ∃ k', mapPages k cs = some k' ∧ k'.pmm = k.pmm ∧
        ∀ d, k'.table d = k.table d := by
  induction cs with
  | nil =>
    intro k _ _
    refine ⟨fun pre c post hcs => ?_, k, rfl, rfl, fun _ => rfl⟩
    exact absurd hcs.symm (by simp)
  | cons c cs ih =>
    intro k hk hcs
    obtain ⟨htable, hnot⟩ := hcs c List.mem_cons_self
    have hkeep : k.KeepsTables c.1.toNat c.2.toNat := by
      refine ⟨fun hno => absurd hno htable, fun f hfor heq => ?_⟩
      rcases hfor with hold | ⟨hno, _⟩
      · rw [← heq] at hold
        exact absurd hold hnot
      · exact absurd hno htable
    obtain ⟨k₁, hmap⟩ := mapPage_succeeds hk.inv c.2.toNat_lt (hkeep.ready hk c.1.toNat_lt)
      (Or.inl htable)
    obtain ⟨hk₁, hmapped⟩ := hk.mapPage c.1.toNat_lt c.2.toNat_lt hkeep hmap
    have hsame : k₁.pmm = k.pmm ∧ ∀ d, k₁.table d = k.table d := by
      rcases hmapped.tables with ⟨_, hpmm, hold⟩ | ⟨_, _, hno, _⟩
      · exact ⟨hpmm, hold⟩
      · exact absurd hno htable
    obtain ⟨hkeeps, k', hmaps, hpmm, hold⟩ := ih hk₁ fun d hd => by
      obtain ⟨h₁, h₂⟩ := hcs d (List.mem_cons_of_mem _ hd)
      refine ⟨by rwa [hsame.2], ?_⟩
      rintro ⟨e, he, ht⟩
      exact h₂ ⟨e, he, (hsame.2 e).symm.trans ht⟩
    refine ⟨?_, k', ?_, hpmm.trans hsame.1, fun d => (hold d).trans (hsame.2 d)⟩
    · intro pre d post hsplit k₂ hk₂
      cases pre with
      | nil =>
        obtain ⟨rfl, _⟩ := List.cons.inj hsplit
        obtain rfl := Option.some.inj hk₂
        exact hkeep
      | cons e pre =>
        obtain ⟨rfl, hrest⟩ := List.cons.inj hsplit
        obtain ⟨k₃, hmap₃, hk₂⟩ := Option.bind_eq_some_iff.mp hk₂
        obtain rfl := Option.some.inj (hmap.symm.trans hmap₃)
        exact hkeeps pre d post hrest k₂ hk₂
    · exact Option.bind_eq_some_iff.mpr ⟨k₁, hmap, hmaps⟩

/-- No page of the region is one of the heap's. -/
def MissesHeap (heap : HeapStatics) (v size : Nat) : Prop :=
  ∀ x ∈ heap, ∀ a, x.1 ≤ a → a < x.2 → ¬ Visits v size (a / 4096)

/-- What can be reached from `k₀` by calls that all keep the tables and use the heap as it is
meant to be used. -/
inductive KeepingRun (k₀ : Kernel) : Kernel → HeapStatics → List (Nat × Nat) → Prop
  | start : KeepingRun k₀ k₀ none []
  | initHeap {k : Kernel} {h : Heap Kernel} (hrun : KeepingRun k₀ k none [])
      (hpage : FirstPageUsable k) (hcall : initHeap kernelPager k = some h) :
      KeepingRun k₀ h.machine (some (h.firstBlock, h.heapLimit)) []
  | mapRegion {k k' : Kernel} {heap : HeapStatics} {live : List (Nat × Nat)} {v p size : Nat}
      (hrun : KeepingRun k₀ k heap live) (hv : v < 4294967296) (hp : p < 4294967296)
      (hkeep : MappingsKeepTables k (regionMappings v p size)) (hmiss : MissesHeap heap v size)
      (hcall : mapRegion k v p size = some k') : KeepingRun k₀ k' heap live
  | kmalloc {k : Kernel} {first limit : Nat} {live : List (Nat × Nat)} {h' : Heap Kernel}
      {n p : Nat} (hrun : KeepingRun k₀ k (some (first, limit)) live) (hn : Reasonable n)
      (hkeep : KmallocKeepsTables ⟨k, first, limit⟩ n)
      (hcall : kmalloc kernelPager ⟨k, first, limit⟩ n = some (p, h'))
      (hlim : StaysBelow ⟨k, first, limit⟩ h') :
      KeepingRun k₀ h'.machine (some (h'.firstBlock, h'.heapLimit))
        (if p = 0 then live else (p, n) :: live)
  | kfree {k : Kernel} {first limit : Nat} {live : List (Nat × Nat)} {x : Nat × Nat}
      {h' : Heap Kernel} (hrun : KeepingRun k₀ k (some (first, limit)) live) (hx : x ∈ live)
      (hcall : kfree ⟨k, first, limit⟩ x.1 = some h') :
      KeepingRun k₀ h'.machine (some (h'.firstBlock, h'.heapLimit)) (live.erase x)

/-- The invariant of these runs, for each phase. -/
def RunOk (top : Nat) (k : Kernel) (live : List (Nat × Nat)) : HeapStatics → Prop
  | none => TablesDirect k
  | some (first, limit) => HeapOk top Kernel.OwnsHeap first ⟨k, first, limit⟩ live

variable {top : Nat}

theorem RunOk.tables {k : Kernel} {live : List (Nat × Nat)} {heap : HeapStatics}
    (h : RunOk top k live heap) : TablesDirect k := by
  cases heap with
  | none => exact h
  | some x =>
    obtain ⟨_, _, _, _, hinv, _⟩ := h
    exact hinv.owns.tables

/-- The page of the first free frame, when that one is reached at its direct-map address. -/
theorem firstPageBelow_of_head {k : Kernel} (hk : TablesDirect k) {f : Nat} {rest : List Nat}
    (hfree : k.pmm.freeFrames = f :: rest) (hmap : k.frame (f + 0xC0000) = some f)
    (hf : 0xC0000000 + f * 4096 + 4096 ≤ top) (htop : top < 4294967296) :
    paVa (kernelPager.pmmAllocPage k).1 = 0xC0000000 + f * 4096 ∧ FirstPageBelow top k := by
  have halloc := pmmAllocPage_eq k.pmm
  rw [hfree] at halloc
  have hval : paVa (kernelPager.pmmAllocPage k).1 = 0xC0000000 + f * 4096 := by
    show paVa (Mem.pmmAllocPage k.pmm).1 = _
    rw [halloc]
    simp only [paVa, u32, highMemoryBase, pageSize]
    omega
  have hpmm : (kernelPager.pmmAllocPage k).2.pmm = k.pmm.take f := congrArg Prod.snd halloc
  refine ⟨hval, ?_⟩
  unfold FirstPageBelow
  rw [hval, hpmm]
  refine ⟨by omega, hf, f, ?_, ?_, fun ht => ?_⟩
  · rw [show (0xC0000000 + f * 4096) / 4096 = f + 0xC0000 by omega]
    exact hmap
  · rw [Pmm.taken_take, decide_eq_true rfl, Bool.true_or]
  · -- A table's frame is taken.
    have hclear := (Pmm.mem_freeFrames.mp (hfree ▸ List.mem_cons_self : f ∈ k.pmm.freeFrames)).2
    rw [hk.inv.owned f ht] at hclear
    exact absurd hclear (by simp)

/-- `init_heap` on a page that is usable returns, with the page as one free block. -/
theorem initHeap_kernel {k : Kernel} (htop : top < 4294967296) (hk : TablesDirect k)
    (hpage : FirstPageBelow top k) : ∃ h τ m, initHeap kernelPager k = some h ∧
      h.firstBlock = paVa (kernelPager.pmmAllocPage k).1 ∧ h.heapLimit = h.firstBlock + 4096 ∧
      (∃ m', h.machine = setMem (kernelPager.pmmAllocPage k).2 m') ∧
      HeapInv top Kernel.OwnsHeap h τ m [⟨h.firstBlock, 4080, true⟩] := by
  obtain ⟨hpos, hlim, f, hf, htaken, hnt⟩ := hpage
  have hmod : (kernelPager.pmmAllocPage k).1 % 4096 = 0 := by
    show (Mem.pmmAllocPage k.pmm).1 % 4096 = 0
    rw [pmmAllocPage_eq]
    split
    · rfl
    · exact Nat.mul_mod_left _ _
  have hstart := paVa_mod hmod
  have howns : (kernelPager.pmmAllocPage k).2.OwnsHeap (paVa (kernelPager.pmmAllocPage k).1)
      (paVa (kernelPager.pmmAllocPage k).1 + 4096) (fun a => f * 4096 + a % 4096) := by
    refine ⟨hk.alloc, Nat.lt_of_le_of_lt hlim htop, fun a hlo hhi => ⟨f, ?_, rfl, htaken, hnt⟩,
      fun a b hloa hhia hlob hhib heq => by omega⟩
    have hdiv : a / 4096 = paVa (kernelPager.pmmAllocPage k).1 / 4096 := by omega
    rw [hdiv]
    exact hf
  obtain ⟨h, m, hinit, hfirst, hlimit, hmach, hinv, _⟩ :=
    initHeap_spec (guardedPager_laws htop) howns hpos hstart hlim
  exact ⟨h, _, m, hinit, hfirst, hlimit, hmach, hinv⟩

/-- `init_heap` takes the first free frame, and leaves the tables and the other free frames. -/
theorem initHeap_of_head {k : Kernel} (htop : top < 4294967296) (hk : TablesDirect k) {f : Nat}
    {rest : List Nat} (hfree : k.pmm.freeFrames = f :: rest)
    (hmap : k.frame (f + 0xC0000) = some f) (hf : 0xC0000000 + f * 4096 + 4096 ≤ top) :
    ∃ h τ m, FirstPageBelow top k ∧ initHeap kernelPager k = some h ∧
      h.heapLimit = 0xC0000000 + f * 4096 + 4096 ∧
      (∀ d, h.machine.table d = k.table d) ∧ h.machine.pmm.freeFrames = rest ∧
      HeapInv top Kernel.OwnsHeap h τ m [⟨h.firstBlock, 4080, true⟩] := by
  obtain ⟨hval, hbelow⟩ := firstPageBelow_of_head hk hfree hmap hf htop
  obtain ⟨h, τ, m, hinit, hfirst, hlimit, ⟨m', hmach⟩, hinv⟩ := initHeap_kernel htop hk hbelow
  refine ⟨h, τ, m, hbelow, hinit, by rw [hlimit, hfirst, hval], fun d => ?_, ?_, hinv⟩
  · rw [hmach]
    rfl
  · rw [hmach]
    show (Mem.pmmAllocPage k.pmm).2.freeFrames = rest
    rw [pmmAllocPage_eq, hfree]
    exact Pmm.freeFrames_take hfree

theorem RunOk.initHeap {k : Kernel} {h : Heap Kernel} (htop : top < 4294967296)
    (hk : TablesDirect k) (hpage : FirstPageBelow top k)
    (hcall : initHeap kernelPager k = some h) :
    RunOk top h.machine [] (some (h.firstBlock, h.heapLimit)) := by
  obtain ⟨h', τ, m, hinit, _, _, _, hinv⟩ := initHeap_kernel htop hk hpage
  rw [hcall] at hinit
  obtain rfl := Option.some.inj hinit
  exact ⟨rfl, τ, m, _, hinv, ⟨List.nodup_nil, fun x hx => absurd hx (by simp)⟩⟩

/-- A region, before there is a heap or beside it. -/
theorem RunOk.mapPages {live : List (Nat × Nat)} {heap : HeapStatics} {cs : List Mapping}
    {k k' : Kernel} (h : RunOk top k live heap) (hkeep : MappingsKeepTables k cs)
    (hmiss : ∀ x ∈ heap, ∀ a, x.1 ≤ a → a < x.2 → ∀ c ∈ cs, c.page ≠ a / 4096)
    (hcall : Mem.mapPages k cs = some k') : RunOk top k' live heap := by
  cases heap with
  | none => exact (TablesDirect.mapPages h hkeep hcall).1
  | some x =>
    obtain ⟨hfirst, τ, m, bs, hinv, hlive⟩ := h
    exact ⟨hfirst, τ, m, bs, hinv.mapPages hkeep (hmiss x rfl) hcall, hlive⟩

/-- The run lemma. Each step has its condition in the state it is taken in, and a lemma that keeps
the invariant under that condition. -/
theorem KeepingRun.ok {k₀ k : Kernel} {heap : HeapStatics} {live : List (Nat × Nat)}
    (h₀ : TablesDirect k₀) (hrun : KeepingRun k₀ k heap live) :
    RunOk videoVrtAddr k live heap := by
  induction hrun with
  | start => exact h₀
  | initHeap _ hpage hcall ih => exact RunOk.initHeap (by decide) ih hpage hcall
  | mapRegion _ hv hp hkeep hmiss hcall ih =>
    refine ih.mapPages hkeep (fun x hx a hlo hhi c hc heq => ?_)
      ((mapRegion_eq_some hv hp).mp hcall).2
    exact hmiss x hx a hlo hhi ((exists_regionMappings hv).mp ⟨c, hc, heq⟩)
  | kmalloc _ hn hkeep hcall hlim ih =>
    have hok := HeapOk.kmalloc guardedLaws ih hn ((kmalloc_guarded hn hkeep).trans hcall) hlim
    exact ⟨rfl, hok.2⟩
  | kfree _ hx hcall ih =>
    have hok := HeapOk.kfree guardedLaws ih hx hcall
    exact ⟨rfl, hok.2⟩

end ScratchOs.Mem
