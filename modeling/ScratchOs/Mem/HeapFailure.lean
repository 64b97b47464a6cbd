import ScratchOs.Mem.HeapReach
import ScratchOs.Mem.HeapTiles
import ScratchOs.Mem.TablesReachable

/-!
# When `kmalloc` cannot grow the heap

`expand_heap` takes and maps its pages one by one and moves `heap_limit` along. If the frames
run out on the way it returns 0 and leaves everything where it is: the frames stay taken, the
pages mapped, the limit moved. And where it is `map_page` that needs a frame and there is none,
nothing returns at all.

`AllOrNothing` is what a request must be like for this not to happen. It is read off the state
before the call, and for a growth that keeps the page tables in reach it is exact
(`failed_kmalloc`).

`FailsCleanly` is about a call that may fail and may not. A request that is served is clean when the
block is usable; one that is not is clean when nothing can be told from before. "Nothing" is the
list, the limit, the translation of every address and the free frames (`Unchanged`), and not the
bytes of memory: a frame that was handed out and never mapped would not show there.

That the condition is needed does not depend on the tables. Whatever memory holds, a growth that
begins and does not come to its end has one frame less to show for it, since nothing in the code
gives a frame back.
-/

set_option autoImplicit false

namespace ScratchOs.Mem

open AddressSpace Bits FreeList Boot

/-- `needed_pages`, in 32 bits as `expand_heap` computes it. -/
def askedPages (n : Nat) : Nat := u32 (u32 (roundSize n + blockHeader) + 4095) / 4096

/-- `p` points to the payload of a block in use that has `n` bytes, all below the limit. -/
def UsableBlock (h : Heap Kernel) (p n : Nat) : Prop :=
  ∃ bs, BlockList h.machine h.firstBlock bs ∧ ∃ b ∈ bs, b.free = false ∧ p = b.addr + 16 ∧
    n ≤ b.size ∧ p + b.size ≤ h.heapLimit

/-- The list of blocks, the limit, the translation of every address and the free frames are what
they were. -/
structure Unchanged (h h' : Heap Kernel) : Prop where
  list : ∀ bs, BlockList h'.machine h'.firstBlock bs ↔ BlockList h.machine h.firstBlock bs
  limit : h'.heapLimit = h.heapLimit
  translation : ∀ a, translate h'.machine a = translate h.machine a
  frames : h'.machine.pmm.freeFrames = h.machine.pmm.freeFrames

theorem Unchanged.refl (h : Heap Kernel) : Unchanged h h :=
  ⟨fun _ => Iff.rfl, rfl, fun _ => rfl, rfl⟩

/-- `kmalloc(n)` returns, with a block that can be used or with 0 and nothing changed. -/
def FailsCleanly (h : Heap Kernel) (n : Nat) : Prop :=
  ∃ p h', kmalloc kernelPager h n = some (p, h') ∧ (p ≠ 0 → UsableBlock h' p n) ∧
    (p = 0 → Unchanged h h')

/-- No 32-bit sum of the growth wraps, and there is a frame for each page and for each page table
that is missing. -/
structure FramesSuffice (h : Heap Kernel) (n : Nat) : Prop where
  reasonable : Reasonable n
  noWrap : h.heapLimit + askedPages n * 4096 < 4294967296
  frames : askedPages n + newTables h.machine (h.heapLimit / 4096) (askedPages n) ≤
    h.machine.pmm.freeFrames.length

/-- Nothing is asked for, or a free block fits, or there is not even a first frame, or there are
all. -/
def AllOrNothing (h : Heap Kernel) (n : Nat) : Prop :=
  roundSize n = 0 ∨ ¬ NeedsPages h n ∨
    (askedPages n ≠ 0 ∧ h.machine.pmm.freeFrames = []) ∨ FramesSuffice h n

/-- Without wrapping it is the number of pages that are needed. -/
theorem askedPages_eq {n : Nat} (hn : Reasonable n) : askedPages n = neededPages n := by
  obtain ⟨hneed, hpages⟩ := pages_lt hn
  rw [askedPages, roundSize_eq hn, hneed, hpages, neededPages]

section Call

variable {h : Heap Kernel} {live : List (Nat × Nat)} {n : Nat}

/-- What the invariant says about the limit: there is a page below it. -/
theorem ReachOk.limit (hok : ReachOk h live) :
    h.heapLimit % 4096 = 0 ∧ 4096 ≤ h.heapLimit ∧ h.heapLimit < 4294967296 := by
  obtain ⟨_, τ, m, bs, hinv, _⟩ := hok
  have hpos := hinv.pos
  have hpage := hinv.page
  have hle := hinv.laid.le
  have hlt := hinv.limit_lt reachLaws
  refine ⟨hpage, ?_, hlt⟩
  omega

/-- **The condition is needed**: a growth that starts and does not come to its end has taken
frames, and one whose sums wrap returns a block that reaches past the limit. Nothing has to be known
of where the tables are for this: the frames are counted by the allocator, and the limit is a number
of the heap's. -/
theorem FailsCleanly.allOrNothing (hok : ReachOk h live) (hn : n < 4294967296)
    (hclean : FailsCleanly h n) : AllOrNothing h n := by
  by_cases hzero : roundSize n = 0
  · exact Or.inl hzero
  by_cases hneeds : NeedsPages h n
  · obtain ⟨last, hfind⟩ := hneeds
    obtain ⟨hpage, hlow, hlt⟩ := hok.limit
    obtain ⟨p, h', hcall, husable, hsame⟩ := hclean
    rw [kmalloc_end hzero hfind] at hcall
    obtain ⟨⟨a, h₁⟩, hexp, hcall⟩ := Option.bind_eq_some_iff.mp hcall
    obtain ⟨⟨ok, h₂⟩, hgrow, hexp⟩ := Option.bind_eq_some_iff.mp hexp
    change growHeap kernelPager (askedPages n) h = some (ok, h₂) at hgrow
    cases ok with
    | false =>
      obtain ⟨rfl, rfl⟩ := Prod.mk.inj (Option.some.inj hexp)
      obtain ⟨rfl, rfl⟩ := Prod.mk.inj (Option.some.inj hcall)
      -- It failed: if there had been a frame, it would be gone.
      have hframes := (hsame rfl).frames
      have hshrinks := (growHeap_shrinks _ hgrow).2
      rw [hframes] at hshrinks
      refine Or.inr (Or.inr (Or.inl ⟨fun hnone => ?_, ?_⟩))
      · rw [hnone] at hgrow
        exact Bool.noConfusion (Prod.mk.inj (Option.some.inj hgrow)).1
      · by_contra hne
        refine Nat.lt_irrefl _ (hshrinks (fun hnone => ?_) hne)
        rw [hnone] at hgrow
        exact Bool.noConfusion (Prod.mk.inj (Option.some.inj hgrow)).1
    | true =>
      -- It went through, so its block ends below the new limit, and the pages were paid for.
      obtain ⟨s, _, hexp⟩ := Option.bind_eq_some_iff.mp hexp
      obtain ⟨rfl, rfl⟩ := Prod.mk.inj (Option.some.inj hexp)
      change (if h.heapLimit = 0 then _ else _) = _ at hcall
      rw [if_neg (by omega)] at hcall
      obtain ⟨rfl, rfl⟩ := Prod.mk.inj (Option.some.inj hcall)
      have hp : u32 (h.heapLimit + blockHeader) = h.heapLimit + 16 := by
        rw [blockHeader, u32_of_lt (by omega)]
      rw [hp] at husable
      obtain ⟨_, _, b, _, _, hptr, hsize, htop⟩ := husable (Nat.succ_ne_zero _)
      change h.heapLimit + 16 + b.size ≤ h₂.heapLimit at htop
      rw [growHeap_limit _ hgrow hlt] at htop
      have hlim := u32_lt (h.heapLimit + askedPages n * 4096)
      have hreason : Reasonable n := by
        unfold Reasonable roundedUp
        omega
      have hasked : askedPages n < 1048576 := by
        have := u32_lt (u32 (roundSize n + blockHeader) + 4095)
        unfold askedPages
        omega
      have hwrap : h.heapLimit + askedPages n * 4096 < 4294967296 := by
        unfold u32 at htop
        omega
      exact Or.inr (Or.inr (Or.inr
        ⟨hreason, hwrap, growHeap_cost _ hgrow hpage (Nat.le_of_lt hwrap)⟩))
  · exact Or.inr (Or.inl hneeds)

/-- What a granted block is to the caller. -/
theorem usable_of_granted {Owns : Kernel → Nat → Nat → (Nat → Nat) → Prop} {top : Nat}
    (laws : PagerLaws guardedPager top Owns) {h' : Heap Kernel} {τ : Nat → Nat} {m : Bytes.Mem}
    {bs bs' : List Block} {p : Nat} (hinv : HeapInv top Owns h' τ m bs')
    (hgrant : Granted bs bs' p (roundedUp n)) : UsableBlock h' p n := by
  obtain ⟨b, hb, hfree, hptr, hsize⟩ := hgrant.block
  have hin := hinv.inside hb
  refine ⟨bs', hinv.blockList laws, b, hb, hfree, hptr, ?_, by omega⟩
  exact Nat.le_trans (le_roundedUp n) hsize

/-- A request that has room, and pages if it needs them, is served. The specification of `kmalloc`
is for a pager that refuses to disturb the tables; the kernel's own does the same as long as there
is nothing to refuse. -/
theorem ReachOk.served (hok : ReachOk h live) (hn : Reasonable n) (hzero : roundedUp n ≠ 0)
    (hkeep : KmallocKeepsTables h n)
    (hroom : NeedsPages h n → h.heapLimit + neededPages n * 4096 < 4294967296)
    (hgrow : NeedsPages h n → ∃ h', growHeap kernelPager (neededPages n) h = some (true, h')) :
    FailsCleanly h n := by
  obtain ⟨_, τ, m, bs, hinv, _⟩ := hok
  have hneeds := hinv.needsPages_iff reachLaws hn
  -- The pager that watches over the tables does the same here.
  have hguard : NeedsPages h n →
      growHeap guardedPager (neededPages n) h = growHeap kernelPager (neededPages n) h := by
    rintro ⟨last, hfind⟩
    exact growHeap_guarded _ (hkeep last hfind)
  obtain ⟨p, h', hcall, hle, hlim⟩ := kmalloc_returns reachLaws hinv hn
    (fun hnone => Nat.le_of_lt_succ (hroom (hneeds.mpr hnone))) (fun hnone => by
      obtain ⟨h₁, hrun⟩ := hgrow (hneeds.mpr hnone)
      exact ⟨_, (hguard (hneeds.mpr hnone)).trans hrun⟩)
  obtain ⟨_, τ', m', bs', hinv', hgrant, _, halloc, _⟩ :=
    kmalloc_spec reachLaws hinv hn hcall hle hlim
  rw [kmalloc_guarded hn hkeep] at hcall
  have hp : p ≠ 0 := by
    cases halloc with
    | nothing hz => exact absurd hz hzero
    | used => exact Nat.succ_ne_zero _
    | grown => exact Nat.succ_ne_zero _
    | failed hnone hfail =>
      obtain ⟨h₁, hrun⟩ := hgrow (hneeds.mpr hnone)
      change growHeap guardedPager (neededPages n) h = _ at hfail
      rw [hguard (hneeds.mpr hnone), hrun] at hfail
      exact Bool.noConfusion (Prod.mk.inj (Option.some.inj hfail)).1
  refine ⟨p, h', hcall, fun _ => ?_, fun hz => absurd hz hp⟩
  rcases hgrant with ⟨hz, _⟩ | hgrant
  · exact absurd hz hp
  · exact usable_of_granted reachLaws hinv' hgrant

/-- A block that fits has a size a heap can have. -/
theorem ReachOk.reasonable (hok : ReachOk h live) (hn : n < 4294967296)
    (hzero : roundSize n ≠ 0) (hfits : ¬ NeedsPages h n) : Reasonable n := by
  obtain ⟨_, τ, m, bs, hinv, _⟩ := hok
  exact hinv.reasonable reachLaws hn hzero hfits

/-- The first page is asked for in vain. -/
theorem growHeap_empty {pages : Nat} (hpages : pages ≠ 0)
    (hfree : h.machine.pmm.freeFrames = []) :
    growHeap kernelPager pages h = some (false, h) := by
  have halloc : kernelPager.pmmAllocPage h.machine = (0, h.machine) := by
    show ((pmmAllocPage h.machine.pmm).1, { h.machine with pmm := (pmmAllocPage h.machine.pmm).2 })
      = _
    rw [pmmAllocPage_eq, hfree]
  cases pages with
  | zero => exact absurd rfl hpages
  | succ pages =>
    rw [growHeap_succ, halloc]
    exact if_pos rfl

/-- **The condition is enough**, when the growth keeps the tables in reach. Its alternatives are the
cases: nothing is done, a block is used, the first page is refused, or all pages are there. -/
theorem AllOrNothing.failsCleanly (hok : ReachOk h live) (hn : n < 4294967296)
    (hkeep : KmallocKeepsTables h n) (hall : AllOrNothing h n) : FailsCleanly h n := by
  by_cases hzero : roundSize n = 0
  · refine ⟨0, h, ?_, fun hp => absurd rfl hp, fun _ => Unchanged.refl h⟩
    rw [kmalloc, if_pos hzero]
  by_cases hneeds : NeedsPages h n
  · rcases hall with hz | hfits | ⟨hpages, hfree⟩ | hsuffice
    · exact absurd hz hzero
    · exact absurd hneeds hfits
    · obtain ⟨last, hfind⟩ := hneeds
      refine ⟨0, h, ?_, fun hp => absurd rfl hp, fun _ => Unchanged.refl h⟩
      have hgrow := growHeap_empty hpages hfree
      rw [kmalloc_end hzero hfind]
      unfold askedPages at hgrow
      simp only [expandHeap, hgrow, Option.bind_eq_bind, Option.bind_some, Bool.false_eq_true,
        if_false, if_true]
    · obtain ⟨hreason, hwrap, hframes⟩ := hsuffice
      rw [askedPages_eq hreason] at hwrap hframes
      have hz : roundedUp n ≠ 0 := by rwa [← roundSize_eq hreason]
      refine hok.served hreason hz hkeep (fun _ => hwrap) fun hneeds => ?_
      obtain ⟨last, hfind⟩ := hneeds
      have hpage := hok.limit.1
      obtain ⟨hheap, hnz⟩ := heapOk_with.mp hok
      obtain ⟨_, _, _, _, hinv, _⟩ := hheap
      obtain ⟨h', hrun, _⟩ := growHeap_succeeds (neededPages n) hinv.owns.tables hnz
        (hkeep last hfind) hpage (Nat.le_of_lt hwrap) hframes
      exact ⟨h', hrun⟩
  · have hreason := hok.reasonable hn hzero hneeds
    have hz : roundedUp n ≠ 0 := by rwa [← roundSize_eq hreason]
    exact hok.served hreason hz hkeep (fun h => absurd h hneeds) fun h => absurd h hneeds

end Call

/-- **When a `kmalloc` that fails changes nothing**, in any heap that can be reached: exactly if
it is all or nothing, as long as its own growth keeps the page tables in reach; and only if in
any case. A growth that disturbs the tables may never return, and nothing is said of that one. -/
theorem failed_kmalloc (k₁ : Kernel) (hk : TablesDirect k₁) (hz : 0 ∉ k₁.pmm.freeFrames)
    {h : Heap Kernel} {live : List (Nat × Nat)} (hrun : HeapReach k₁ h live) (n : Nat)
    (hn : n < 4294967296) :
    (FailsCleanly h n → AllOrNothing h n) ∧
      (KmallocKeepsTables h n → (FailsCleanly h n ↔ AllOrNothing h n)) := by
  have hok := hrun.ok hk hz
  refine ⟨fun hclean => hclean.allOrNothing hok hn, fun hkeep => ⟨fun hclean => ?_, fun hall => ?_⟩⟩
  · exact hclean.allOrNothing hok hn
  · exact hall.failsCleanly hok hn hkeep

/-! ### A machine with one megabyte to give -/

/-- After `init_heap` there: one free block, all tables low, and none missing for the next
pages. -/
theorem heapReach_pcMap : ∃ k₁ h, TablesDirect k₁ ∧ 0 ∉ k₁.pmm.freeFrames ∧
    HeapReach k₁ h [] ∧ 253 ≤ h.machine.pmm.freeFrames.length ∧
    h.machine.pmm.freeFrames.length ≤ 256 ∧ h.heapLimit + 8192 < 4294967296 ∧
    newTables h.machine (h.heapLimit / 4096) 2 = 0 ∧ GrowthKeepsTables h 2 ∧
    ∀ n, 4080 < roundSize n → NeedsPages h n := by
  obtain ⟨_, k, _, _, _, hdirect, ⟨hpage, hlo, hhi⟩, hlow, hz, hmin, hmax⟩ :=
    firstPageUsable_pcMap
  have hbelow : FirstPageBelow 4294967295 k := by
    obtain ⟨hpos, hlim, hframe⟩ := hpage
    exact ⟨hpos, Nat.le_trans hlim (by decide), hframe⟩
  obtain ⟨h, τ, m, hinit, hfirst, hlimit, ⟨m', hmach⟩, hinv⟩ :=
    initHeap_kernel (by decide) hdirect hbelow
  have hreach : HeapReach k h [] := .initHeap hbelow hinit
  obtain ⟨hheap, _⟩ := heapOk_with.mp (hreach.ok hdirect hz)
  have htables : TablesDirect h.machine := by
    obtain ⟨_, _, _, _, hinv, _⟩ := hheap
    exact hinv.owns.tables
  -- The store of the header changes no table, so the directory is the one of `k`.
  have htable : ∀ d, h.machine.table d = k.table d := by
    intro d
    rw [hmach]
    rfl
  have hframes : h.machine.pmm.freeFrames.length = k.pmm.freeFrames.length - 1 := by
    obtain ⟨f, rest, hfree⟩ := List.exists_cons_of_length_pos (Nat.lt_of_lt_of_le (by decide) hmin)
    rw [hmach]
    show (pmmAllocPage k.pmm).2.freeFrames.length = _
    rw [pmmAllocPage_eq, hfree]
    exact congrArg List.length (Pmm.freeFrames_take hfree)
  have hdir : k.table 768 ≠ none := by
    intro hnone
    obtain ⟨_, _, f, hf, _⟩ := hpage
    rw [k.frame_of_no_table] at hf
    · exact absurd hf (by simp)
    · rwa [show paVa (kernelPager.pmmAllocPage k).1 / 4096 / 1024 = 768 by omega]
  have hnew : newTables h.machine (h.heapLimit / 4096) 2 = 0 := by
    refine newTables_eq_zero fun i hi => ?_
    rw [htable, show (h.heapLimit / 4096 + i) / 1024 = 768 by omega]
    exact hdir
  have hkeep : GrowthKeepsTables h 2 := by
    refine growthKeepsTables_of_present 2 htables hinv.page (by omega) hnew fun f hf => ?_
    obtain ⟨d, hd, ht⟩ := hf
    have := hlow f ⟨d, hd, (htable d).symm.trans ht⟩
    omega
  refine ⟨k, h, hdirect, hz, hreach, by omega, by omega, by omega, hnew, hkeep, fun n hn => ?_⟩
  refine (hinv.needsPages (guardedPager_laws (by decide)) n).mpr fun c hc hfit => ?_
  obtain rfl := List.mem_singleton.mp hc
  have hsize : roundSize n ≤ 4080 := hfit.2
  omega

/-- 8000 bytes take two of its frames. -/
theorem failed_kmalloc_pcMap : ∃ k₁ h, HeapReach k₁ h [] ∧ FailsCleanly h 8000 := by
  obtain ⟨k₁, h, hk, hz, hreach, hmin, _, hwrap, hnew, hkeep, hneeds⟩ := heapReach_pcMap
  have hn : Reasonable 8000 := by
    unfold Reasonable
    decide
  have hasked : askedPages 8000 = 2 := by
    rw [askedPages_eq hn]
    rfl
  have hsuffice : FramesSuffice h 8000 := by
    refine ⟨hn, ?_, ?_⟩
    · rw [hasked]
      exact hwrap
    · rw [hasked, hnew]
      omega
  refine ⟨k₁, h, hreach, ?_⟩
  exact ((failed_kmalloc k₁ hk hz hreach 8000 (by decide)).2 fun _ _ => hkeep).mpr
    (Or.inr (Or.inr (Or.inr hsuffice)))

/-- 2 MiB take all of them, and fail. -/
theorem half_grown : ∃ k₁ h, TablesDirect k₁ ∧ 0 ∉ k₁.pmm.freeFrames ∧ HeapReach k₁ h [] ∧
    ¬ FailsCleanly h 0x200000 := by
  obtain ⟨k₁, h, hk, hz, hreach, hmin, hmax, _, _, _, hneeds⟩ := heapReach_pcMap
  refine ⟨k₁, h, hk, hz, hreach, fun hclean => ?_⟩
  have hn : Reasonable 0x200000 := by
    unfold Reasonable
    decide
  have hround : roundSize 0x200000 = 0x200000 := roundSize_eq hn
  rcases hclean.allOrNothing (hreach.ok hk hz) (by decide) with hzero | hfits | ⟨_, hnil⟩ | hsuffice
  · rw [hround] at hzero
    exact absurd hzero (by decide)
  · exact hfits (hneeds _ (by rw [hround]; decide))
  · rw [hnil] at hmin
    exact absurd hmin (by decide)
  · have hframes := hsuffice.frames
    rw [askedPages_eq hn, show neededPages 0x200000 = 513 from rfl] at hframes
    omega

end ScratchOs.Mem
