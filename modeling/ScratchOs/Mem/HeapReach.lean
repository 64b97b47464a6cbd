import ScratchOs.Mem.GrowthCost
import ScratchOs.Mem.HeapTiles

/-!
# The heap on this machine, as far as it goes

`KeepingRun` stops the heap at the frame buffer. `HeapReach` does not: its limit may go anywhere
as long as it does not wrap, as the code has it. The invariant is the same with another bound.

What else the heap leaves alone, besides its window, can be carried along: `HeapStable` is what
a property of the machine needs for that, and a heap that owns its window then owns it together
with the property (`HeapStable.laws`).

Every condition of a run is on the state a call comes to. For the limit that takes a thought: how
far a growth gets depends on how many frames there are, and a growth that fails has moved the limit
as well. `LimitStays` therefore bounds the pages that there are frames for, not the pages that were
asked for. A request for more than memory has is allowed, and leaves the limit below 4 GiB, if what
memory has ends there.
-/

set_option autoImplicit false

namespace ScratchOs.Mem

open AddressSpace Bits FreeList Boot

/-! ## Properties the heap keeps -/

/-- The heap's writes, its allocations and its calls of `map_page` below `top` keep `P`. -/
structure HeapStable (top : Nat) (P : Kernel → Prop) : Prop where
  touch : ∀ {k k' : Kernel} {lo hi : Nat} {τ : Nat → Nat}, k.OwnsHeap lo hi τ →
    Touches τ lo hi k k' → P k → P k'
  alloc : ∀ {k : Kernel}, P k → P (kernelPager.pmmAllocPage k).2
  map : ∀ {k k' : Kernel} {v p : Nat}, TablesDirect k → v + 4096 ≤ top → p < 4294967296 →
    k.KeepsTables v p → mapPage k v p = some k' → P k → P k'

/-- To own the window, with `P` on top. -/
def Kernel.OwnsWith (P : Kernel → Prop) (k : Kernel) (lo hi : Nat) (τ : Nat → Nat) : Prop :=
  k.OwnsHeap lo hi τ ∧ P k

/-- The pager's laws with `P` carried along. The guarded pager does not return where the tables
would be disturbed, so the law for a new page has `KeepsTables` in its hands. -/
theorem HeapStable.laws {top : Nat} {P : Kernel → Prop} (hP : HeapStable top P)
    (htop : top < 4294967296) : PagerLaws guardedPager top (Kernel.OwnsWith P) where
  top_lt := htop
  window h := h.1.window
  touches h ht := ⟨h.1.touch ht, hP.touch h.1 ht h.2⟩
  fail h _ := ⟨⟨h.1.alloc, hP.alloc h.2⟩, fun _ _ _ => rfl⟩
  grow {k _ _ hi _} h hpage hle hnew hmap := by
    obtain ⟨f, _, _, hlt, hval, _⟩ := kernelPager_alloc hnew
    by_cases hkeep : (kernelPager.pmmAllocPage k).2.KeepsTables hi (kernelPager.pmmAllocPage k).1
    · have hmap' := (if_pos hkeep).symm.trans hmap
      obtain ⟨τ', howns, hsame⟩ :=
        h.1.grow hpage (Nat.lt_of_le_of_lt hle htop) hnew hkeep hmap'
      refine ⟨τ', ⟨howns, ?_⟩, hsame⟩
      exact hP.map h.1.alloc.tables hle (by omega) hkeep hmap' (hP.alloc h.2)
    · exact absurd ((if_neg hkeep).symm.trans hmap) (by simp)

/-- `P` is a condition on the machine, and can be taken out of the invariant again. -/
theorem heapOk_with {top start : Nat} {P : Kernel → Prop} {h : Heap Kernel}
    {live : List (Nat × Nat)} : HeapOk top (Kernel.OwnsWith P) start h live ↔
      HeapOk top Kernel.OwnsHeap start h live ∧ P h.machine := by
  constructor
  · rintro ⟨hstart, τ, m, bs, hinv, hlive⟩
    refine ⟨⟨hstart, τ, m, bs, ?_, hlive⟩, hinv.owns.2⟩
    exact ⟨hinv.owns.1, hinv.shows, hinv.chain, hinv.laid, hinv.pos, hinv.limit, hinv.page⟩
  · rintro ⟨⟨hstart, τ, m, bs, hinv, hlive⟩, hP⟩
    refine ⟨hstart, τ, m, bs, ?_, hlive⟩
    exact ⟨⟨hinv.owns, hP⟩, hinv.shows, hinv.chain, hinv.laid, hinv.pos, hinv.limit, hinv.page⟩

/-- Frame 0 is what `pmm_alloc_page` says when there is none. -/
theorem noFrameZero_stable (top : Nat) :
    HeapStable top fun k => 0 ∉ k.pmm.freeFrames where
  touch := by
    rintro k k' lo hi τ _ ⟨m, rfl, _⟩ hz
    exact hz
  alloc := by
    intro k hz hmem
    change 0 ∈ (pmmAllocPage k.pmm).2.freeFrames at hmem
    rw [pmmAllocPage_eq] at hmem
    cases hfree : k.pmm.freeFrames with
    | nil =>
      rw [hfree] at hmem
      exact hz hmem
    | cons f rest =>
      simp only [hfree, Pmm.freeFrames_take hfree] at hmem
      exact hz (hfree ▸ List.mem_cons_of_mem f hmem)
  map := fun _ _ _ _ hmap hz hmem => hz ((mapPage_frames hmap).2 hmem)

/-- The page `init_heap` gets is a heap's. -/
theorem FirstPageBelow.owns {top : Nat} {k : Kernel} (htop : top < 4294967296)
    (hk : TablesDirect k) (h : FirstPageBelow top k) :
    paVa (kernelPager.pmmAllocPage k).1 % 4096 = 0 ∧
    ∃ f, k.frame (paVa (kernelPager.pmmAllocPage k).1 / 4096) = some f ∧
      (kernelPager.pmmAllocPage k).2.OwnsHeap (paVa (kernelPager.pmmAllocPage k).1)
        (paVa (kernelPager.pmmAllocPage k).1 + 4096) fun a => f * 4096 + a % 4096 := by
  obtain ⟨hpos, hlim, f, hf, htaken, hnt⟩ := h
  have hmod : (kernelPager.pmmAllocPage k).1 % 4096 = 0 := by
    show (Mem.pmmAllocPage k.pmm).1 % 4096 = 0
    rw [pmmAllocPage_eq]
    split
    · rfl
    · exact Nat.mul_mod_left _ _
  have hstart := paVa_mod hmod
  refine ⟨hstart, f, hf, hk.alloc, Nat.lt_of_le_of_lt hlim htop,
    fun a hlo hhi => ⟨f, ?_, rfl, htaken, hnt⟩, fun a b _ _ _ _ heq => by omega⟩
  rw [show a / 4096 = paVa (kernelPager.pmmAllocPage k).1 / 4096 by omega]
  exact hf

/-! ## Runs -/

/-- What a request for `n` bytes needs so that `heap_limit` does not wrap: if no block is large
enough, the pages that there are frames for end below 4 GiB. -/
def LimitStays (h : Heap Kernel) (n : Nat) : Prop :=
  NeedsPages h n → RoomForPages h (neededPages n)

/-- The condition is on the state before the call, this is what follows for the state after it. By
the way the call goes: only `expand_heap` moves the limit. -/
theorem LimitStays.le {h h' : Heap Kernel} {n p : Nat} (hstays : LimitStays h n)
    (hn : Reasonable n) (hcall : kmalloc kernelPager h n = some (p, h'))
    (hpage : h.heapLimit % 4096 = 0) (hlt : h.heapLimit < 4294967296) :
    h.heapLimit ≤ h'.heapLimit := by
  by_cases hzero : roundSize n = 0
  · rw [kmalloc, if_pos hzero] at hcall
    obtain ⟨_, rfl⟩ := Prod.mk.inj (Option.some.inj hcall)
    exact Nat.le_refl _
  by_cases hneeds : NeedsPages h n
  · obtain ⟨lastBlock, hfind⟩ := hneeds
    rw [kmalloc_end hzero hfind] at hcall
    obtain ⟨⟨a, h₁⟩, hexp, hcall⟩ := Option.bind_eq_some_iff.mp hcall
    obtain ⟨⟨ok, h₂⟩, hgrow, hexp⟩ := Option.bind_eq_some_iff.mp hexp
    obtain ⟨hneed, hpages⟩ := pages_lt hn
    simp only [roundSize_eq hn, hneed, hpages] at hgrow
    have hle := (hstays ⟨lastBlock, hfind⟩).le hgrow hpage hlt
    -- Neither the new block nor the answer moves the limit again.
    have hsame : h'.heapLimit = h₁.heapLimit := by
      change (if a = 0 then _ else _) = _ at hcall
      split at hcall
      · obtain ⟨_, rfl⟩ := Prod.mk.inj (Option.some.inj hcall)
        rfl
      · obtain ⟨_, rfl⟩ := Prod.mk.inj (Option.some.inj hcall)
        rfl
    rw [hsame]
    cases ok with
    | false =>
      obtain ⟨_, rfl⟩ := Prod.mk.inj (Option.some.inj hexp)
      exact hle
    | true =>
      obtain ⟨s, _, hexp⟩ := Option.bind_eq_some_iff.mp hexp
      obtain ⟨_, rfl⟩ := Prod.mk.inj (Option.some.inj hexp)
      exact hle
  · rw [kmalloc, if_neg hzero] at hcall
    obtain ⟨⟨currentBlock, lastBlock⟩, hfind, hcall⟩ := Option.bind_eq_some_iff.mp hcall
    have hcur : currentBlock ≠ 0 := by
      rintro rfl
      exact hneeds ⟨lastBlock, hfind⟩
    simp only [if_neg hcur] at hcall
    obtain ⟨s, _, hcall⟩ := Option.bind_eq_some_iff.mp hcall
    obtain ⟨_, rfl⟩ := Prod.mk.inj (Option.some.inj hcall)
    exact Nat.le_refl _

/-- A request that `HeapReach` allows leaves the limit of a heap in order between where it was and
4 GiB. -/
theorem LimitStays.between {h h' : Heap Kernel} {n p start : Nat} {live : List (Nat × Nat)}
    {Owns : Kernel → Nat → Nat → (Nat → Nat) → Prop} (hstays : LimitStays h n)
    (laws : PagerLaws guardedPager 4294967295 Owns) (hok : HeapOk 4294967295 Owns start h live)
    (hn : Reasonable n) (hkeep : KmallocKeepsTables h n)
    (hcall : kmalloc kernelPager h n = some (p, h')) :
    h.heapLimit ≤ h'.heapLimit ∧ h'.heapLimit ≤ 4294967295 := by
  obtain ⟨_, τ, m, bs, hinv, _⟩ := hok
  have hguard := (kmalloc_guarded hn hkeep).trans hcall
  exact ⟨hstays.le hn hcall hinv.page (hinv.limit_lt laws),
    Nat.le_of_lt_succ (kmalloc_limit_lt laws hinv hn hguard)⟩

/-- The heaps reached from `init_heap` in the state `k₁`, each with its live allocations: by
requests in which no 32-bit sum is going to wrap, by regions mapped beside the heap, and by the
callers' writes. All of it keeps the page tables. -/
inductive HeapReach (k₁ : Kernel) : Heap Kernel → List (Nat × Nat) → Prop
  | initHeap {h : Heap Kernel} (hpage : FirstPageBelow 4294967295 k₁)
      (hcall : initHeap kernelPager k₁ = some h) : HeapReach k₁ h []
  | mapRegion {h : Heap Kernel} {live : List (Nat × Nat)} {k : Kernel} {v p size : Nat}
      (hrun : HeapReach k₁ h live) (hv : v < 4294967296) (hp : p < 4294967296)
      (hkeep : MappingsKeepTables h.machine (regionMappings v p size))
      (hmiss : MissesHeap (some (h.firstBlock, h.heapLimit)) v size)
      (hcall : mapRegion h.machine v p size = some k) : HeapReach k₁ { h with machine := k } live
  | kmalloc {h h' : Heap Kernel} {live : List (Nat × Nat)} {n p : Nat}
      (hrun : HeapReach k₁ h live) (hn : Reasonable n) (hkeep : KmallocKeepsTables h n)
      (hstays : LimitStays h n) (hcall : kmalloc kernelPager h n = some (p, h')) :
      HeapReach k₁ h' (if p = 0 then live else (p, n) :: live)
  | kfree {h h' : Heap Kernel} {live : List (Nat × Nat)} {x : Nat × Nat}
      (hrun : HeapReach k₁ h live) (hx : x ∈ live) (hcall : kfree h x.1 = some h') :
      HeapReach k₁ h' (live.erase x)
  | write {h : Heap Kernel} {live : List (Nat × Nat)} {x : Nat × Nat} {a : Nat} {v : UInt8}
      {k : Kernel} (hrun : HeapReach k₁ h live) (hx : x ∈ live) (hlo : x.1 ≤ a)
      (hhi : a < x.1 + x.2) (hstore : store8 h.machine a v = some k) :
      HeapReach k₁ { h with machine := k } live

/-- The invariant of these runs: the heap is in order, and frame 0 is not free. -/
def ReachOk (h : Heap Kernel) (live : List (Nat × Nat)) : Prop :=
  HeapOk 4294967295 (Kernel.OwnsWith fun k => 0 ∉ k.pmm.freeFrames) h.firstBlock h live

/-- The laws as far as addresses go. -/
theorem reachLaws : PagerLaws guardedPager 4294967295
    (Kernel.OwnsWith fun k => 0 ∉ k.pmm.freeFrames) :=
  (noFrameZero_stable _).laws (by decide)

/-- Mappings take frames for tables, and give none back. -/
theorem mapPages_frames {cs : List Mapping} : ∀ {k k' : Kernel}, mapPages k cs = some k' →
    k'.pmm.freeFrames ⊆ k.pmm.freeFrames := by
  induction cs with
  | nil =>
    intro k k' h
    obtain rfl := Option.some.inj h
    exact List.Subset.refl _
  | cons c cs ih =>
    intro k k' h
    obtain ⟨k₁, hmap, hrest⟩ := Option.bind_eq_some_iff.mp h
    exact List.Subset.trans (ih hrest) (mapPage_frames hmap).2

/-- The run lemma. By induction on the run, with one lemma of the invariant for each step. A region
that is mapped leaves the heap in order because its pages are others than the heap's. -/
theorem HeapReach.ok {k₁ : Kernel} (hk : TablesDirect k₁) (hz : 0 ∉ k₁.pmm.freeFrames)
    {h : Heap Kernel} {live : List (Nat × Nat)} (hrun : HeapReach k₁ h live) :
    ReachOk h live := by
  induction hrun with
  | @initHeap h hpage hcall =>
    obtain ⟨h', τ, m, hinit, _, _, ⟨m', hmach⟩, hinv⟩ := initHeap_kernel (by decide) hk hpage
    rw [hcall] at hinit
    obtain rfl := Option.some.inj hinit
    refine heapOk_with.mpr ⟨⟨rfl, τ, m, _, hinv, List.nodup_nil, ?_⟩, ?_⟩
    · exact fun x hx => absurd hx List.not_mem_nil
    · rw [hmach]
      exact (noFrameZero_stable 4294967295).alloc hz
  | @mapRegion h live k v p size _ hv hp hkeep hmiss hcall ih =>
    obtain ⟨hok, hz⟩ := heapOk_with.mp ih
    have hmaps := ((mapRegion_eq_some hv hp).mp hcall).2
    have hok' : RunOk 4294967295 h.machine live (some (h.firstBlock, h.heapLimit)) := hok
    refine heapOk_with.mpr ⟨hok'.mapPages hkeep (fun x hx a hlo hhi c hc heq => ?_) hmaps,
      fun hmem => hz (mapPages_frames hmaps hmem)⟩
    exact hmiss x hx a hlo hhi ((exists_regionMappings hv).mp ⟨c, hc, heq⟩)
  | @kmalloc h h' live n p _ hn hkeep hstays hcall ih =>
    have hok := HeapOk.kmalloc reachLaws ih hn ((kmalloc_guarded hn hkeep).trans hcall)
      (hstays.between reachLaws ih hn hkeep hcall)
    exact ⟨rfl, hok.2⟩
  | kfree _ hx hcall ih =>
    have hok := HeapOk.kfree reachLaws ih hx hcall
    exact ⟨rfl, hok.2⟩
  | write _ hx hlo hhi hstore ih => exact HeapOk.write reachLaws ih hx hlo hhi hstore

end ScratchOs.Mem
