import ScratchOs.Mem.VideoWindow

/-!
# Where the frames go

The heap and the page tables never give a frame back: only the tests call `pmm_free_page`. So
every frame that was free when the heap began is free, or is one of the heap's pages, or holds a
page table, and none is two of these. `frames_conserved` says so as a permutation of the free list.

A permutation of a list without repetitions says both halves at once. Counting alone would let one
frame be lost and another have two uses.

Requests that fail are part of the runs, and they are why the heap's pages are counted up to
`heap_limit` and not up to the end of the last block: a growth that stops half-way has moved the
limit over pages that no block is in. These frames are not lost in the sense of this module, since
the next growth goes on behind them and the page tables still name them; no block will have them,
though.
-/

set_option autoImplicit false

namespace ScratchOs.Mem

open AddressSpace Bits FreeList Boot

variable {fs pages : List Nat} {T : Nat → Prop} {k k' : Kernel}

/-- `pages` and the frames of the new tables, those that `T` does not have, are what has been taken
from `fs`. -/
def Kernel.Accounted (fs : List Nat) (T : Nat → Prop) (pages : List Nat) (k : Kernel) : Prop :=
  ∃ tables, (pages ++ tables ++ k.pmm.freeFrames).Perm fs ∧ ∀ f, k.TableFrame f ↔ T f ∨ f ∈ tables

/-- Nothing is free that was not free at the beginning. -/
theorem Kernel.Accounted.free {f : Nat} (h : k.Accounted fs T pages) (hf : f ∈ k.pmm.freeFrames) :
    f ∈ fs := by
  obtain ⟨tables, hperm, _⟩ := h
  exact hperm.subset (List.mem_append_right _ hf)

/-- Frames change hands, and only then. -/
theorem Kernel.Accounted.congr (h : k.Accounted fs T pages) (hpmm : k'.pmm = k.pmm)
    (htable : ∀ d, k'.table d = k.table d) : k'.Accounted fs T pages := by
  obtain ⟨tables, hperm, htables⟩ := h
  refine ⟨tables, by rw [hpmm]; exact hperm, fun f => ?_⟩
  rw [← htables f]
  exact exists_congr fun d => and_congr_right fun _ => by rw [htable]

/-- A page of the heap: its frame leaves the free ones and joins `pages`. -/
theorem Kernel.Accounted.alloc (h : k.Accounted fs T pages)
    (hnew : (kernelPager.pmmAllocPage k).1 ≠ 0) :
    ∃ f, (kernelPager.pmmAllocPage k).1 = f * 4096 ∧ f < 1048576 ∧
      (kernelPager.pmmAllocPage k).2.Accounted fs T (pages ++ [f]) := by
  obtain ⟨f, rest, hfree, hlt, hval, hrest⟩ := kernelPager_alloc hnew
  obtain ⟨tables, hperm, htables⟩ := h
  refine ⟨f, hval, hlt, tables, ?_, htables⟩
  rw [hrest]
  rw [hfree] at hperm
  refine List.Perm.trans (List.perm_iff_count.mpr fun x => ?_) hperm
  simp only [List.count_append, List.count_cons, List.count_nil]
  omega

/-- There was no frame, and frame 0 is not one to be taken for it. -/
theorem Kernel.Accounted.fail (h : k.Accounted fs T pages) (hz : 0 ∉ fs)
    (hnone : (kernelPager.pmmAllocPage k).1 = 0) :
    (kernelPager.pmmAllocPage k).2.Accounted fs T pages := by
  have heq := pmmAllocPage_eq k.pmm
  change (Mem.pmmAllocPage k.pmm).1 = 0 at hnone
  cases hfree : k.pmm.freeFrames with
  | nil =>
    rw [hfree] at heq
    exact h.congr (congrArg Prod.snd heq) fun _ => rfl
  | cons f rest =>
    rw [hfree] at heq
    rw [heq] at hnone
    have hf : f ∈ fs := h.free (hfree ▸ List.mem_cons_self)
    have hzero : f = 0 := (Nat.mul_eq_zero.mp hnone).resolve_right (by decide)
    exact absurd (hzero ▸ hf) hz

/-- A mapping leaves the pages as they are; if it makes a table, its frame joins the tables. -/
theorem Kernel.Accounted.mapPage {v p : Nat} (h : k.Accounted fs T pages) (hv : v < 4294967296)
    (hmap : Mem.mapPage k v p = some k') : k'.Accounted fs T pages := by
  rcases mapPage_cost hmap with ⟨_, hpmm, htable⟩ | ⟨t, rest, hnone, hfree, hpmm, htable⟩
  · exact h.congr hpmm htable
  · obtain ⟨tables, hperm, htables⟩ := h
    refine ⟨tables ++ [t], ?_, fun f => ?_⟩
    · rw [hpmm, Pmm.freeFrames_take hfree]
      rw [hfree] at hperm
      refine List.Perm.trans (List.perm_iff_count.mpr fun x => ?_) hperm
      simp only [List.count_append, List.count_cons, List.count_nil]
      omega
    · rw [List.mem_append, List.mem_singleton, ← or_assoc, ← htables f]
      constructor
      · rintro ⟨d, hd, ht⟩
        rw [htable] at ht
        split at ht
        · exact Or.inr (Option.some.inj ht).symm
        · exact Or.inl ⟨d, hd, ht⟩
      · rintro (⟨d, hd, ht⟩ | rfl)
        · refine ⟨d, hd, ?_⟩
          rw [htable, if_neg, ht]
          rintro rfl
          exact Option.some_ne_none f (ht.symm.trans hnone)
        · exact ⟨v / 4096 / 1024, by omega, by rw [htable, if_pos rfl]⟩

/-- The same for a region, one mapping after the other. -/
theorem Kernel.Accounted.mapPages {cs : List Mapping} : ∀ {k k' : Kernel},
    k.Accounted fs T pages → mapPages k cs = some k' → k'.Accounted fs T pages := by
  induction cs with
  | nil =>
    intro k k' h hcall
    obtain rfl := Option.some.inj hcall
    exact h
  | cons c cs ih =>
    intro k k' h hcall
    obtain ⟨k₁, hmap, hrest⟩ := Option.bind_eq_some_iff.mp hcall
    exact ih (h.mapPage c.1.toNat_lt hmap) hrest

/-! ## The heap's pages -/

/-- The frames behind a window, page by page. -/
def pageFrames (τ : Nat → Nat) (lo hi : Nat) : List Nat :=
  (List.range ((hi - lo) / 4096)).map fun i => τ (lo + i * 4096) / 4096

/-- The window one page further has one frame more, and at the end. -/
theorem pageFrames_grow {τ τ' : Nat → Nat} {lo hi : Nat} (hlo : lo % 4096 = 0)
    (hhi : hi % 4096 = 0) (hle : lo ≤ hi) (hsame : ∀ a, lo ≤ a → a < hi → τ' a = τ a) :
    pageFrames τ' lo (hi + 4096) = pageFrames τ lo hi ++ [τ' hi / 4096] := by
  have hcount : (hi + 4096 - lo) / 4096 = (hi - lo) / 4096 + 1 := by omega
  have hlast : lo + (hi - lo) / 4096 * 4096 = hi := by omega
  rw [pageFrames, hcount, List.range_succ, List.map_append, List.map_singleton, hlast]
  refine congrArg (· ++ _) (List.map_congr_left fun i hi' => ?_)
  have hi' := List.mem_range.mp hi'
  rw [hsame _ (Nat.le_add_right _ _) (by omega)]

theorem pageFrames_one {lo : Nat} (hlo : lo % 4096 = 0) (f : Nat) :
    pageFrames (fun a => f * 4096 + a % 4096) lo (lo + 4096) = [f] := by
  rw [pageFrames_grow hlo hlo (Nat.le_refl lo) fun a _ _ => rfl, pageFrames, Nat.sub_self]
  have hone : (f * 4096 + lo % 4096) / 4096 = f := by omega
  exact congrArg (fun g => [g]) hone

/-- To own the heap, and to know where every frame of `fs` has gone. -/
structure Kernel.Accounts (fs : List Nat) (T : Nat → Prop) (k : Kernel) (lo hi : Nat)
    (τ : Nat → Nat) : Prop where
  heap : k.OwnsHeap lo hi τ
  aligned : lo % 4096 = 0 ∧ lo ≤ hi
  frames : k.Accounted fs T (pageFrames τ lo hi)

section Accounts

variable {lo hi : Nat} {τ : Nat → Nat}

/-- The law for a new page. There are two parts to the cost: the frame of the page, and that of the
table it may need. The order is the code's, `pmm_alloc_page` before `map_page`. -/
theorem Kernel.Accounts.grow (h : k.Accounts fs T lo hi τ) (hpage : hi % 4096 = 0)
    (hle : hi + 4096 < 4294967296) (hnew : (kernelPager.pmmAllocPage k).1 ≠ 0)
    (hkeep : (kernelPager.pmmAllocPage k).2.KeepsTables hi (kernelPager.pmmAllocPage k).1)
    (hmap : Mem.mapPage (kernelPager.pmmAllocPage k).2 hi (kernelPager.pmmAllocPage k).1 =
      some k') :
    ∃ τ', k'.Accounts fs T lo (hi + 4096) τ' ∧
      ∀ a, lo ≤ a → a < hi → τ' a = τ a ∧ mem k' (τ a) = mem k (τ a) := by
  obtain ⟨hlo, hlohi⟩ := h.aligned
  obtain ⟨f, hval, hf, halloc⟩ := h.frames.alloc hnew
  obtain ⟨τ', howns, hsame⟩ := h.heap.grow hpage hle hnew hkeep hmap
  obtain ⟨_, hm⟩ := h.heap.alloc.tables.mapPage (by omega) (by omega) hkeep hmap
  -- The new page is where `map_page` has put it.
  have hlast : τ' hi / 4096 = f := by
    obtain ⟨g, hg, hτ, _⟩ := howns.page hi hlohi (by omega)
    rw [hm.frame _ (by omega), if_pos rfl, hval, Nat.mul_div_cancel f (by decide)] at hg
    obtain rfl := Option.some.inj hg
    omega
  refine ⟨τ', ⟨howns, ⟨hlo, by omega⟩, ?_⟩, hsame⟩
  rw [pageFrames_grow hlo hpage hlohi fun a hloa hhia => (hsame a hloa hhia).1, hlast]
  exact halloc.mapPage (by omega) hmap

/-- So the accounts are one more thing that a heap can own, and the lemmas about its calls hold with
them. -/
theorem accountsLaws (hz : 0 ∉ fs) (T : Nat → Prop) :
    PagerLaws guardedPager 4294967295 (Kernel.Accounts fs T) where
  top_lt := by decide
  window h := h.heap.window
  touches h ht := by
    have hheap := h.heap.touch ht
    obtain ⟨m, rfl, _⟩ := ht
    exact ⟨hheap, h.aligned, h.frames.congr rfl fun _ => rfl⟩
  fail h hnone := ⟨⟨h.heap.alloc, h.aligned, h.frames.fail hz hnone⟩, fun _ _ _ => rfl⟩
  grow {k _ _ hi _} h hpage hle hnew hmap := by
    by_cases hkeep : (kernelPager.pmmAllocPage k).2.KeepsTables hi (kernelPager.pmmAllocPage k).1
    · exact h.grow hpage (by omega) hnew hkeep ((if_pos hkeep).symm.trans hmap)
    · exact absurd ((if_neg hkeep).symm.trans hmap) (by simp)

end Accounts

/-! ## Runs -/

/-- The invariant of runs: the heap is in order, and its frames are accounted for. -/
def AccountsOk (fs : List Nat) (T : Nat → Prop) (h : Heap Kernel) (live : List (Nat × Nat)) :
    Prop :=
  HeapOk 4294967295 (Kernel.Accounts fs T) h.firstBlock h live

/-- With the heap and the accounts apart, for the step that maps a region beside the heap. -/
theorem accountsOk_iff {h : Heap Kernel} {live : List (Nat × Nat)} :
    AccountsOk fs T h live ↔ ∃ τ m bs, HeapInv 4294967295 Kernel.OwnsHeap h τ m bs ∧
      LiveIn bs live ∧ (h.firstBlock % 4096 = 0 ∧ h.firstBlock ≤ h.heapLimit) ∧
      h.machine.Accounted fs T (pageFrames τ h.firstBlock h.heapLimit) := by
  constructor
  · rintro ⟨_, τ, m, bs, hinv, hlive⟩
    refine ⟨τ, m, bs, ?_, hlive, hinv.owns.aligned, hinv.owns.frames⟩
    exact ⟨hinv.owns.heap, hinv.shows, hinv.chain, hinv.laid, hinv.pos, hinv.limit, hinv.page⟩
  · rintro ⟨τ, m, bs, hinv, hlive, haligned, hframes⟩
    refine ⟨rfl, τ, m, bs, ?_, hlive⟩
    exact ⟨⟨hinv.owns, haligned, hframes⟩, hinv.shows, hinv.chain, hinv.laid, hinv.pos,
      hinv.limit, hinv.page⟩

/-- `init_heap` takes the first frame, for the page that the direct map has for it. -/
theorem AccountsOk.initHeap {h : Heap Kernel} (hk : TablesDirect k) (hz : 0 ∉ k.pmm.freeFrames)
    {f : Nat} {rest : List Nat} (hfree : k.pmm.freeFrames = f :: rest)
    (hdirect : k.frame (paVa (f * 4096) / 4096) = some f) (hpage : FirstPageBelow 4294967295 k)
    (hcall : Mem.initHeap kernelPager k = some h) :
    AccountsOk k.pmm.freeFrames k.TableFrame h [] := by
  obtain ⟨hstart, g, hg, howns⟩ := hpage.owns (by decide) hk
  obtain ⟨hpos, hlim, _⟩ := hpage
  have hval : (kernelPager.pmmAllocPage k).1 = f * 4096 := by
    show (Mem.pmmAllocPage k.pmm).1 = _
    rw [pmmAllocPage_eq, hfree]
    rfl
  have hf : f ≠ 0 := fun hzero => hz (hfree ▸ hzero ▸ List.mem_cons_self)
  have hall : k.Accounted k.pmm.freeFrames k.TableFrame [] :=
    ⟨[], List.Perm.refl _, fun _ => (or_iff_left List.not_mem_nil).symm⟩
  obtain ⟨f', hval', _, halloc⟩ := hall.alloc (by rw [hval]; omega)
  obtain rfl : f' = f := by omega
  rw [hval] at hg
  obtain rfl : g = f' := Option.some.inj (hg.symm.trans hdirect)
  have haccounts : (kernelPager.pmmAllocPage k).2.Accounts k.pmm.freeFrames k.TableFrame
      (paVa (kernelPager.pmmAllocPage k).1) (paVa (kernelPager.pmmAllocPage k).1 + 4096)
      (fun a => g * 4096 + a % 4096) :=
    ⟨howns, ⟨hstart, Nat.le_add_right _ _⟩, by rw [pageFrames_one hstart g]; exact halloc⟩
  obtain ⟨h', m, hinit, _, _, _, hinv, _⟩ :=
    initHeap_spec (accountsLaws hz k.TableFrame) haccounts hpos hstart hlim
  obtain rfl := Option.some.inj (hcall.symm.trans hinit)
  exact ⟨rfl, _, m, _, hinv, List.nodup_nil, fun x hx => absurd hx List.not_mem_nil⟩

/-- The run lemma. Only growing takes frames for pages, and mapping a region takes none but for its
tables: what it maps is not the allocator's. -/
theorem HeapReach.accounts {k₁ : Kernel} (hk : TablesDirect k₁) (hz : 0 ∉ k₁.pmm.freeFrames)
    {f : Nat} {rest : List Nat} (hfree : k₁.pmm.freeFrames = f :: rest)
    (hdirect : k₁.frame (paVa (f * 4096) / 4096) = some f) {h : Heap Kernel}
    {live : List (Nat × Nat)} (hrun : HeapReach k₁ h live) :
    AccountsOk k₁.pmm.freeFrames k₁.TableFrame h live := by
  have laws := accountsLaws hz k₁.TableFrame
  induction hrun with
  | initHeap hpage hcall => exact AccountsOk.initHeap hk hz hfree hdirect hpage hcall
  | mapRegion _ hv hp hkeep hmiss hcall ih =>
    obtain ⟨τ, m, bs, hinv, hlive, haligned, hframes⟩ := accountsOk_iff.mp ih
    have hmaps := ((mapRegion_eq_some hv hp).mp hcall).2
    refine accountsOk_iff.mpr ⟨τ, m, bs, ?_, hlive, haligned, hframes.mapPages hmaps⟩
    exact hinv.mapPages hkeep (fun a hlo hhi c hc heq =>
      hmiss _ rfl a hlo hhi ((exists_regionMappings hv).mp ⟨c, hc, heq⟩)) hmaps
  | @kmalloc h h' live n p _ hn hkeep hstays hcall ih =>
    have hok := HeapOk.kmalloc laws ih hn ((kmalloc_guarded hn hkeep).trans hcall)
      (hstays.between laws ih hn hkeep hcall)
    exact ⟨rfl, hok.2⟩
  | kfree _ hx hcall ih =>
    have hok := HeapOk.kfree laws ih hx hcall
    exact ⟨rfl, hok.2⟩
  | write _ hx hlo hhi hstore ih => exact HeapOk.write laws ih hx hlo hhi hstore

/-- **No frame is lost and none has two uses**: through any run, what was free when the heap began
is the frames of the heap's pages, one for each, the frames of the tables made since, and what is
free now. As a permutation it says both at once: none is missing, and none is there twice. -/
theorem frames_conserved (k₁ : Kernel) (hk : TablesDirect k₁) (hz : 0 ∉ k₁.pmm.freeFrames)
    {f : Nat} {rest : List Nat} (hfree : k₁.pmm.freeFrames = f :: rest)
    (hdirect : k₁.frame (paVa (f * 4096) / 4096) = some f) {h : Heap Kernel}
    {live : List (Nat × Nat)} (hrun : HeapReach k₁ h live) :
    ∃ pages tables : List Nat,
      (pages ++ tables ++ h.machine.pmm.freeFrames).Perm k₁.pmm.freeFrames ∧
      (pages ++ tables ++ h.machine.pmm.freeFrames).Nodup ∧
      pages.length = (h.heapLimit - h.firstBlock) / 4096 ∧
      (∀ (i : Nat) (hi : i < pages.length),
        h.machine.frame (h.firstBlock / 4096 + i) = some pages[i]) ∧
      ∀ g, h.machine.TableFrame g ↔ k₁.TableFrame g ∨ g ∈ tables := by
  obtain ⟨τ, m, bs, hinv, _, ⟨hlo, _⟩, tables, hperm, htables⟩ :=
    accountsOk_iff.mp (hrun.accounts hk hz hfree hdirect)
  have hlength : (pageFrames τ h.firstBlock h.heapLimit).length =
      (h.heapLimit - h.firstBlock) / 4096 := by
    rw [pageFrames, List.length_map, List.length_range]
  refine ⟨_, tables, hperm, hperm.nodup_iff.mpr k₁.pmm.freeFrames_nodup, hlength,
    fun i hi => ?_, htables⟩
  have hget : (pageFrames τ h.firstBlock h.heapLimit)[i] =
      τ (h.firstBlock + i * 4096) / 4096 := by
    simp only [pageFrames, List.getElem_map, List.getElem_range]
  obtain ⟨g, hg, hτ, _⟩ := hinv.owns.page (h.firstBlock + i * 4096) (Nat.le_add_right _ _)
    (by omega)
  rw [hget, hτ, show h.firstBlock / 4096 + i = (h.firstBlock + i * 4096) / 4096 by omega, hg]
  congr 1
  omega

/-- One request for two pages more. -/
theorem frames_conserved_splitMap : ∃ k₁ h p, HeapReach k₁ h [(p, 8000)] ∧
    k₁.pmm.freeFrames = List.range' 0x1FFFD 1027 ∧ ∃ pages tables : List Nat,
      (pages ++ tables ++ h.machine.pmm.freeFrames).Perm k₁.pmm.freeFrames ∧
      (∀ (i : Nat) (hi : i < pages.length),
        h.machine.frame (h.firstBlock / 4096 + i) = some pages[i]) ∧
      ∀ g, h.machine.TableFrame g ↔ k₁.TableFrame g ∨ g ∈ tables := by
  obtain ⟨s, k₁, h, τ, m, _, _, hdirect, _, hcons, hhead, hbelow, hinit, hlimit, hrest, hpresent,
    hlow, hinv⟩ := initHeap_splitMap
  have hz : 0 ∉ k₁.pmm.freeFrames := by
    rw [hcons]
    exact zero_notMem_range' (n := 1027) (by decide)
  have hz' : 0 ∉ h.machine.pmm.freeFrames := by
    rw [hrest]
    exact zero_notMem_range' (by decide)
  have hpages : neededPages 8000 = 2 := by decide
  have hthere : ∀ i < neededPages 8000,
      h.machine.table ((h.heapLimit / 4096 + i) / 1024) ≠ none :=
    fun i hi => hpresent _ (by omega) (by omega)
  have hbelow' : ∀ f, h.machine.TableFrame f → f < h.heapLimit / 4096 := by
    intro f hf
    have := hlow f hf
    omega
  have hroom : h.heapLimit + neededPages 8000 * 4096 ≤ 4294967295 := by
    rw [hlimit]
    decide
  have hn : Reasonable 8000 := by
    unfold Reasonable
    decide
  have hbig : 4080 < roundedUp 8000 := by decide
  have henough : neededPages 8000 ≤ h.machine.pmm.freeFrames.length := by
    rw [hpages, hrest, List.length_range']
    decide
  obtain ⟨hkeeps, h', hcall, _⟩ :=
    kmalloc_present hinv hz' hn hbig (Nat.lt_succ_of_le hroom) hthere hbelow' henough
  have hstays : LimitStays h 8000 := fun _ j hj _ => by omega
  have hrun := HeapReach.kmalloc (.initHeap hbelow hinit) hn hkeeps hstays hcall
  rw [if_neg (by omega)] at hrun
  obtain ⟨pages, tables, hperm, _, _, hframes, htables⟩ :=
    frames_conserved k₁ hdirect hz hcons hhead hrun
  exact ⟨k₁, h', _, hrun, hcons, pages, tables, hperm, hframes, htables⟩

end ScratchOs.Mem
