import ScratchOs.Mem.HeapReach
import ScratchOs.Mem.HeapTiles
import ScratchOs.Mem.TablesReachable
import Mathlib.Data.List.Sort

/-!
# The heap and the frame buffer

`vbe_init` maps the frame buffer at `VIDEO_VRT_ADDR`, 512 MiB above the base of the direct map
that the heap grows in. `expand_heap` does not know about it: it maps whatever page `heap_limit`
has come to, over whatever was there.

What keeps the two apart is the condition of `StaysUnder`, that the pages a request needs fit
below the window. Under it the translation of the window is a property the heap keeps
(`windowFrames_stable`), next to the window it owns.

The condition is on a request and on the heap it comes to, and it says nothing about requests that
find a free block: those cannot touch the window however far the heap has come. It also says nothing
about failure. A growth that stops half-way has gone less far than one that succeeds, so what is
safe for the second is safe for the first.

The first request after the window is mapped is that of `vbe_init` itself, for a buffer as large as
the screen, and it is under the same condition. On a machine whose heap begins below the window
it is the request that crosses it (`window_taken_over`).
-/

set_option autoImplicit false

namespace ScratchOs.Mem

open AddressSpace Bits FreeList Boot

/-- `void vbe_init(multiboot_info_t*)`, with the address, the pitch and the height it reads there;
what `kmalloc` returns is `video_buffer`. -/
def vbeInit (h : Heap Kernel) (framebufferAddr framebufferPitch framebufferHeight : Nat) :
    Option (Nat × Heap Kernel) := do
  let size := u32 (framebufferPitch * framebufferHeight)
  let machine ← mapRegion h.machine videoVrtAddr (u32 framebufferAddr) size
  kmalloc kernelPager { h with machine } size

/-- The physical address behind address `a` of the window. -/
def windowAddr (framebufferAddr a : Nat) : Nat :=
  u32 (framebufferAddr / 4096 * 4096 + (a - videoVrtAddr))

/-! ## Mapping a region with paging on -/

/-- Where `map_region` has put the window. -/
theorem window_of_mapRegion {k k' : Kernel} {fb size a : Nat} (hk : TablesDirect k)
    (hfb : fb < 4294967296) (hkeep : MappingsKeepTables k (regionMappings videoVrtAddr fb size))
    (hmap : mapRegion k videoVrtAddr fb size = some k') (hsize : videoVrtAddr + size < 4294967296)
    (hlo : videoVrtAddr ≤ a) (hhi : a < videoVrtAddr + size) :
    translate k' a = some (windowAddr fb a) := by
  have hv : videoVrtAddr < 4294967296 := by decide
  obtain ⟨hk', hframe⟩ := hk.mapPages hkeep ((mapRegion_eq_some hv hfb).mp hmap).2
  have hvis : Visits videoVrtAddr size (a / 4096) := by
    unfold Visits
    rw [u32_of_lt hsize]
    unfold videoVrtAddr at hlo hhi ⊢
    omega
  have hf := hframe (a / 4096) (by omega)
  rw [lastFrame_regionMappings hv, if_pos hvis, Option.some_or] at hf
  rw [Kernel.translate_eq hk'.paging (by omega), hf, Option.map_some]
  simp only [windowAddr, regionFrame, u32]
  unfold videoVrtAddr at hlo ⊢
  refine congrArg some ?_
  omega

/-! ## What the heap keeps above itself

`F` is what the pages from the window on translate to, whatever that is. The heap's laws up to the
window hold with this carried along, and `vbe_init` then only has to say what `F` is. -/

/-- The pages from the window on go where `F` says. -/
def WindowFrames (F : Nat → Option Nat) (k : Kernel) : Prop :=
  ∀ q, videoVrtAddr / 4096 ≤ q → q < 1048576 → k.frame q = F q

/-- The heap grows below the window only, so it maps none of these pages. -/
theorem windowFrames_stable (F : Nat → Option Nat) :
    HeapStable videoVrtAddr (WindowFrames F) where
  touch howns ht hF q hlo hhi := (howns.frame_touch ht hhi).trans (hF q hlo hhi)
  alloc hF := hF
  map hk hle hp hkeep hmap hF q hlo hhi := by
    have hv : videoVrtAddr < 4294967296 := by decide
    obtain ⟨_, hmapped⟩ := TablesDirect.mapPage hk (by omega) hp hkeep hmap
    rw [hmapped.frame q hhi, if_neg (by unfold videoVrtAddr at hle hlo; omega), hF q hlo hhi]

/-- The laws as far as the window. -/
theorem windowLaws (F : Nat → Option Nat) :
    PagerLaws guardedPager videoVrtAddr (Kernel.OwnsWith (WindowFrames F)) :=
  (windowFrames_stable F).laws (by decide)

/-! ## Runs after `vbe_init` has mapped the window -/

/-- The request keeps the tables, no 32-bit sum of it wraps, and the pages it needs, if any, fit
below the window. -/
structure StaysUnder (h : Heap Kernel) (n : Nat) : Prop where
  reasonable : Reasonable n
  keeps : KmallocKeepsTables h n
  room : NeedsPages h n → h.heapLimit + neededPages n * 4096 ≤ videoVrtAddr

/-- What the heap `h₀` becomes by `Allowed` calls of `kmalloc`, by calls of `kfree`, and by what
the callers write into their memory. -/
inductive VbeRun (Allowed : Heap Kernel → Nat → Prop) (h₀ : Heap Kernel)
    (live₀ : List (Nat × Nat)) : Heap Kernel → List (Nat × Nat) → Prop
  | start : VbeRun Allowed h₀ live₀ h₀ live₀
  | kmalloc {h h' : Heap Kernel} {live : List (Nat × Nat)} {n p : Nat}
      (hrun : VbeRun Allowed h₀ live₀ h live) (hallow : Allowed h n)
      (hcall : kmalloc kernelPager h n = some (p, h')) :
      VbeRun Allowed h₀ live₀ h' (if p = 0 then live else (p, n) :: live)
  | kfree {h h' : Heap Kernel} {live : List (Nat × Nat)} {x : Nat × Nat}
      (hrun : VbeRun Allowed h₀ live₀ h live) (hx : x ∈ live) (hcall : kfree h x.1 = some h') :
      VbeRun Allowed h₀ live₀ h' (live.erase x)
  | write {h : Heap Kernel} {live : List (Nat × Nat)} {x : Nat × Nat} {a : Nat} {v : UInt8}
      {k : Kernel} (hrun : VbeRun Allowed h₀ live₀ h live) (hx : x ∈ live) (hlo : x.1 ≤ a)
      (hhi : a < x.1 + x.2) (hstore : store8 h.machine a v = some k) :
      VbeRun Allowed h₀ live₀ { h with machine := k } live

/-- The invariant of these runs: the heap is in order below the window, and the pages from there on
are where they were at the beginning. -/
def UnderWindow (F : Nat → Option Nat) (h : Heap Kernel) (live : List (Nat × Nat)) : Prop :=
  HeapOk videoVrtAddr (Kernel.OwnsWith (WindowFrames F)) h.firstBlock h live

/-- One `kmalloc`. That it stays under the window is asked of the state before the call, and turned
here into where it leaves the limit. -/
theorem UnderWindow.kmalloc {F : Nat → Option Nat} {h h' : Heap Kernel}
    {live : List (Nat × Nat)} {n p : Nat} (hok : UnderWindow F h live) (hstay : StaysUnder h n)
    (hcall : kmalloc kernelPager h n = some (p, h')) :
    UnderWindow F h' (if p = 0 then live else (p, n) :: live) := by
  have hguard := (kmalloc_guarded hstay.reasonable hstay.keeps).trans hcall
  have hlim : h.heapLimit ≤ h'.heapLimit ∧ h'.heapLimit ≤ videoVrtAddr := by
    obtain ⟨_, τ, m, bs, hinv, _⟩ := hok
    refine kmalloc_stays (windowLaws F) hinv hstay.reasonable hguard fun hnone => hstay.room ?_
    exact (hinv.needsPages_iff (windowLaws F) hstay.reasonable).mpr hnone
  have hok' := HeapOk.kmalloc (windowLaws F) hok hstay.reasonable hguard hlim
  exact ⟨rfl, hok'.2⟩

/-- The run lemma. -/
theorem VbeRun.under {F : Nat → Option Nat} {h₀ h : Heap Kernel} {live₀ live : List (Nat × Nat)}
    (h₀ok : UnderWindow F h₀ live₀) (hrun : VbeRun StaysUnder h₀ live₀ h live) :
    UnderWindow F h live := by
  induction hrun with
  | start => exact h₀ok
  | kmalloc _ hallow hcall ih => exact ih.kmalloc hallow hcall
  | kfree _ hx hcall ih =>
    have hok := HeapOk.kfree (windowLaws F) ih hx hcall
    exact ⟨rfl, hok.2⟩
  | write _ hx hlo hhi hstore ih => exact HeapOk.write (windowLaws F) ih hx hlo hhi hstore

/-- A heap that has stayed below the window, with the frames above it as they are. -/
theorem ReachOk.under {h : Heap Kernel} {live : List (Nat × Nat)} (hok : ReachOk h live)
    (hlim : h.heapLimit ≤ videoVrtAddr) : UnderWindow h.machine.frame h live := by
  obtain ⟨⟨hstart, τ, m, bs, hinv, hlive⟩, _⟩ := heapOk_with.mp hok
  refine heapOk_with.mpr ⟨⟨hstart, τ, m, bs, ?_, hlive⟩, fun q _ _ => rfl⟩
  exact ⟨hinv.owns, hinv.shows, hinv.chain, hinv.laid, hinv.pos, hlim, hinv.page⟩

/-- **The heap stays out of the window** over runs of requests that stay under it: every address
of the window goes where `vbe_init` has put it, the limit has not wrapped, and no block reaches
into the window. Mapping the window is itself a step of the heap's runs, as a region that misses the
heap; what comes after is a run with the window's pages fixed. -/
theorem window_stays (k₁ : Kernel) (hk : TablesDirect k₁) (hz : 0 ∉ k₁.pmm.freeFrames)
    {h₀ : Heap Kernel} {live₀ : List (Nat × Nat)} (hrun₀ : HeapReach k₁ h₀ live₀)
    (hlow : h₀.heapLimit ≤ videoVrtAddr) {fb size : Nat} (hfb : fb < 4294967296)
    (hsize : videoVrtAddr + size < 4294967296)
    (hkeep : MappingsKeepTables h₀.machine (regionMappings videoVrtAddr fb size)) {k : Kernel}
    (hmap : mapRegion h₀.machine videoVrtAddr fb size = some k) {h : Heap Kernel}
    {live : List (Nat × Nat)}
    (hrun : VbeRun StaysUnder { h₀ with machine := k } live₀ h live) :
    (∀ a, videoVrtAddr ≤ a → a < videoVrtAddr + size →
      translate h.machine a = some (windowAddr fb a)) ∧
    h.firstBlock ≤ h.heapLimit ∧ h.heapLimit ≤ videoVrtAddr ∧
    ∃ bs, HeapSafe h live bs ∧ ∀ b ∈ bs, b.addr + 16 + b.size ≤ videoVrtAddr := by
  have hv : videoVrtAddr < 4294967296 := by decide
  have hmiss : MissesHeap (some (h₀.firstBlock, h₀.heapLimit)) videoVrtAddr size := by
    rintro x ⟨⟩ a _ hhi hvis
    have hpage := hvis.1
    unfold videoVrtAddr at hlow hpage
    omega
  have hreach := hrun₀.mapRegion hv hfb hkeep hmiss hmap
  have hunder := VbeRun.under ((hreach.ok hk hz).under hlow) hrun
  have htables : TablesDirect h₀.machine := by
    obtain ⟨⟨_, _, _, _, hinv, _⟩, _⟩ := heapOk_with.mp (hrun₀.ok hk hz)
    exact hinv.owns.tables
  obtain ⟨⟨_, _, _, _, hinv, _⟩, hframes⟩ := heapOk_with.mp hunder
  obtain ⟨bs, hsafe⟩ := HeapOk.safe (windowLaws _) hunder
  refine ⟨fun a hlo hhi => ?_, hinv.laid.le, hinv.limit, bs, hsafe, fun b hb => ?_⟩
  · -- Right after `vbe_init` it was so, and the frames are the ones from then.
    have hthen := window_of_mapRegion htables hfb hkeep hmap hsize hlo hhi
    have hsame := hframes (a / 4096) (Nat.div_le_div_right hlo) (by omega)
    have hpaging : k.paging = true := (htables.mapPages hkeep
      ((mapRegion_eq_some hv hfb).mp hmap).2).1.paging
    rw [Kernel.translate_eq hpaging (by omega)] at hthen
    rw [Kernel.translate_eq hinv.owns.tables.paging (by omega), hsame]
    exact hthen
  · exact Nat.le_trans (hsafe.inside b hb).2 hinv.limit

/-- A `kmalloc` that grows the heap has put the growth, page by page, at frames that were free. No
condition says that it stays below the window, since this is what it does to the window if not. -/
theorem kmalloc_grown {h : Heap Kernel} {τ : Nat → Nat} {m : Bytes.Mem} {bs : List Block}
    {n : Nat} (hinv : HeapInv 4294967295 Kernel.OwnsHeap h τ m bs)
    (hz : 0 ∉ h.machine.pmm.freeFrames) (hn : Reasonable n) (hzero : roundedUp n ≠ 0)
    (hnone : ∀ c ∈ bs, ¬ Fits (roundedUp n) c)
    (hroom : h.heapLimit + neededPages n * 4096 < 4294967296)
    (hkeep : GrowthKeepsTables h (neededPages n))
    (henough : neededPages n + newTables h.machine (h.heapLimit / 4096) (neededPages n) ≤
      h.machine.pmm.freeFrames.length) :
    ∃ h', kmalloc kernelPager h n = some (h.heapLimit + 16, h') ∧
      ∀ a, h.heapLimit ≤ a → a < h.heapLimit + neededPages n * 4096 →
        ∃ f ∈ h.machine.pmm.freeFrames, translate h'.machine a = some (f * 4096 + a % 4096) := by
  have laws := @guardedPager_laws 4294967295 (by decide)
  obtain ⟨h₁, hgrow, hframes⟩ := growHeap_succeeds (neededPages n) hinv.owns.tables hz hkeep
    hinv.page (Nat.le_of_lt hroom) henough
  rw [← kmalloc_guarded hn fun _ _ => hkeep]
  rcases kmalloc_cases laws hinv hn with
    ⟨hz, _⟩ | ⟨pre, b, post, _, hbs, hfit, _⟩ | ⟨pre, l, rfl, _, hcall, _⟩
  · exact absurd hz hzero
  · exact absurd hfit (hnone b (by simp [hbs]))
  · have hguard := (growHeap_guarded _ hkeep).trans hgrow
    have hlimit := growHeap_limit _ hgrow (hinv.limit_lt laws)
    rw [u32_of_lt hroom] at hlimit
    have hpages : neededPages n < 1048576 := by omega
    have hfit : roundedUp n + 16 ≤ neededPages n * 4096 := by
      unfold neededPages
      omega
    obtain ⟨hfirst, hgrown, τ', m', hinv', _⟩ :=
      hinv.grown laws hpages hguard (by omega) (by omega)
    obtain ⟨s, _, happ, hinv'', _, _, htouch, _⟩ := appendBlock_spec laws hinv hinv' hfirst
      (hgrown rfl) (Nat.mul_mod_left _ _) hfit
    refine ⟨{ h₁ with machine := s }, ?_, fun a hlo hhi => ?_⟩
    · change kmalloc guardedPager h n = (growHeap guardedPager (neededPages n) h).bind _ at hcall
      rw [hcall, hguard, Option.bind_some, if_pos rfl]
      exact Option.bind_eq_some_iff.mpr ⟨s, happ, rfl⟩
    · -- What is appended is written behind the heap's window, so no table changes.
      have hpage := hinv.page
      have hq : a / 4096 < 1048576 := by omega
      obtain ⟨f, hf, hframe⟩ := (hframes _ hq).1 (by omega)
      have hkept : s.frame (a / 4096) = some f :=
        (hinv'.owns.frame_touch htouch hq).trans hframe
      refine ⟨f, hf, ?_⟩
      rw [Kernel.translate_eq hinv''.owns.tables.paging (by omega), hkept, Option.map_some]

/-- A `kmalloc` that has to grow the heap does so and keeps the tables, when every table it goes
through is there already and none of the pages is a table's own. -/
theorem kmalloc_present {h : Heap Kernel} {τ : Nat → Nat} {m : Bytes.Mem} {b : Block} {n : Nat}
    (hinv : HeapInv 4294967295 Kernel.OwnsHeap h τ m [b]) (hz : 0 ∉ h.machine.pmm.freeFrames)
    (hn : Reasonable n) (hbig : b.size < roundedUp n)
    (hroom : h.heapLimit + neededPages n * 4096 < 4294967296)
    (hpresent : ∀ i < neededPages n, h.machine.table ((h.heapLimit / 4096 + i) / 1024) ≠ none)
    (hlow : ∀ f, h.machine.TableFrame f → f < h.heapLimit / 4096)
    (henough : neededPages n ≤ h.machine.pmm.freeFrames.length) :
    KmallocKeepsTables h n ∧ ∃ h', kmalloc kernelPager h n = some (h.heapLimit + 16, h') ∧
      ∀ a, h.heapLimit ≤ a → a < h.heapLimit + neededPages n * 4096 →
        ∃ f ∈ h.machine.pmm.freeFrames, translate h'.machine a = some (f * 4096 + a % 4096) := by
  have hnew := newTables_eq_zero hpresent
  have hgrowth := growthKeepsTables_of_present _ hinv.owns.tables hinv.page
    (Nat.le_of_lt hroom) hnew fun f hf => Or.inl (hlow f hf)
  have hnone : ∀ c ∈ [b], ¬ Fits (roundedUp n) c := by
    intro c hc hfit
    obtain rfl := List.mem_singleton.mp hc
    exact Nat.not_le_of_lt hbig hfit.2
  refine ⟨fun _ _ => hgrowth, kmalloc_grown hinv hz hn (by omega) hnone hroom hgrowth ?_⟩
  rw [hnew]
  exact henough

/-! ### A machine whose heap starts below the window -/

/-- Beyond low memory there are four frames at 2 MiB, as many as the boot mappings need page
tables, and 4 MiB from 512 MiB on with the three pages before them. -/
def splitMap : MemoryMap :=
  .inLowMemory 527744
    [⟨20, 0, 0xA0000, 1⟩, ⟨20, 0x200000, 0x4000, 1⟩, ⟨20, 0x1FFFD000, 0x403000, 1⟩]
    (by decide) (by simp) (by simp only [List.forall_mem_cons, MmapEntry.Plain]; simp)

theorem usable_splitMap : splitMap.usable =
    [⟨20, 0, 0xA0000, 1⟩, ⟨20, 0x200000, 0x4000, 1⟩, ⟨20, 0x1FFFD000, 0x403000, 1⟩] := rfl

theorem bootRegions_splitMap : bootRegions smallKernel splitMap =
    [(0, 0, 0x400000), (0xC0000000, 0x100000, 0x20000), (0xC0000000, 0, 0xA0000),
      (0xC0200000, 0x200000, 0x4000), (0xDFFFD000, 0x1FFFD000, 0x403000),
      (0xB8000, 0xB8000, 4096)] := rfl

theorem directMapped_splitMap (q : Nat) : DirectMapped splitMap q ↔
    (0xC0000 ≤ q ∧ q < 0xC00A0) ∨ (0xC0200 ≤ q ∧ q < 0xC0204) ∨ (0xDFFFD ≤ q ∧ q < 0xE0400) := by
  simp only [DirectMapped, usable_splitMap, List.mem_cons, List.not_mem_nil, or_false,
    exists_eq_or_imp, exists_eq_left, directRegion, Visits, u32, u64, highMemoryBase]
  omega

theorem entriesLow_splitMap : EntriesLow splitMap := by
  unfold EntriesLow
  rw [usable_splitMap]
  decide

theorem mapFound_splitMap : MapFound smallKernel splitMap :=
  mapFound_of_below (by decide) (by decide) (by decide) entriesLow_splitMap

/-- The free frames in the order in which they are handed out. Both lists are sorted, so it is
enough that they have the same members. -/
theorem freeFrames_splitMap {s : Pmm}
    (hs : initPmm smallKernel splitMap.mem splitMap.infoAddr = some s) :
    s.freeFrames = List.range' 0x200 4 ++ List.range' 0x1FFFD 1027 := by
  have hmax : maxFramesOf splitMap.info = 132096 := by decide
  have hbitmap : bitmapAddr smallKernel = 0x120000 := by decide
  have hend : smallKernel.kernelEnd = 0x120000 := rfl
  have hsize : bitmapSizeOf splitMap.info = 16512 := by
    rw [bitmapSizeOf, hmax]
  have hinfo : splitMap.info.mmapAddr = 0x9600 ∧ splitMap.info.mmapLength = 72 := ⟨rfl, rfl⟩
  have hsorted : (List.range' 0x200 4 ++ List.range' 0x1FFFD 1027).Pairwise (· < ·) := by
    refine List.pairwise_append.mpr ⟨List.pairwise_lt_range', List.pairwise_lt_range', ?_⟩
    intro x hx y hy
    have hx := List.mem_range'_1.mp hx
    have hy := List.mem_range'_1.mp hy
    omega
  refine s.freeFrames_sorted.eq_of_mem_iff hsorted fun f => ?_
  rw [mem_freeFrames_initPmm mapFound_splitMap entriesLow_splitMap hs, hmax]
  simp only [Touched, usable_splitMap, Reserved, reservedRegions, hbitmap, hsize, hinfo.1,
    hinfo.2, List.mem_cons, List.not_mem_nil, or_false, exists_eq_or_imp, exists_eq_left,
    mem_pagesOf, pageSize, u64, kernelStart, hend, List.mem_append, List.mem_range'_1]
  omega

/-- Four page tables: for low addresses, for the kernel and the RAM below 4 MiB, and two for the
region that crosses a border between directory entries. -/
theorem directories_splitMap :
    (directories (bootMappings smallKernel splitMap)).length = 4 := by
  refine Nat.le_antisymm (directories_length_le [0, 768, 895, 896] fun r hr => ?_) ?_
  · rw [bootRegions_splitMap] at hr
    simp only [List.mem_cons, List.not_mem_nil, or_false] at hr
    simp only [Visits, u32, List.mem_cons, List.not_mem_nil, or_false]
    rcases hr with rfl | rfl | rfl | rfl | rfl | rfl
    all_goals
      refine ⟨by simp only; omega, fun q hq => ?_⟩
      simp only at hq
      omega
  · have hhigh : (0xDFFFD000, 0x1FFFD000, 0x403000) ∈ bootRegions smallKernel splitMap := by
      rw [bootRegions_splitMap]
      decide
    have hvis : ∀ q, 0xDFFFD ≤ q → q < 0xE0400 →
        q / 1024 ∈ directories (bootMappings smallKernel splitMap) := by
      intro q hlo hhi
      refine mem_directories_of_visits hhigh (by decide) ?_
      simp only [Visits, u32]
      omega
    have hsub : [0, 768, 895, 896] ⊆ directories (bootMappings smallKernel splitMap) := by
      intro d hd
      simp only [List.mem_cons, List.not_mem_nil, or_false] at hd
      rcases hd with rfl | rfl | rfl | rfl
      · exact mem_directories_of_visits (q := 0) List.mem_cons_self (by decide) (by decide)
      · exact mem_directories_of_visits (q := 0xC0000)
          (List.mem_cons_of_mem _ List.mem_cons_self) (by decide) (by decide)
      · exact hvis 0xDFFFD (by decide) (by decide)
      · exact hvis 0xE0000 (by decide) (by decide)
    exact (List.subperm_of_subset (by decide) hsub).length_le

/-- The machine of `splitMap` boots, and the four low frames are its page tables. -/
theorem initVmm_splitMap :
    ∃ s k, initPmm smallKernel splitMap.mem splitMap.infoAddr = some s ∧
      initVmm smallKernel splitMap.info (bootKernel splitMap s) = some k ∧ TablesDirect k ∧
      (∀ f, k.TableFrame f → f < 1024) ∧ k.pmm.freeFrames = List.range' 0x1FFFD 1027 ∧
      ∀ q, 0xDFFFD ≤ q → q < 0xE0400 → k.frame q = some (q - 0xC0000) := by
  have hcount : splitMap.usable.length ≤ 32 := by decide
  obtain ⟨s, hs⟩ := initPmm_returns mapFound_splitMap.toMapRead hcount
  have hfree := freeFrames_splitMap hs
  have h₀ : BootState splitMap (bootKernel splitMap s) :=
    BootState.ofInitPmm mapFound_splitMap hs rfl fun _ _ _ => rfl
  have hwraps : ∀ r ∈ bootRegions smallKernel splitMap, ¬ Wraps r.1 r.2.2 := by
    rw [bootRegions_splitMap]
    decide
  have hlen : (directories (bootMappings smallKernel splitMap)).length ≤
      (bootKernel splitMap s).pmm.freeFrames.length := by
    rw [directories_splitMap]
    show 4 ≤ s.freeFrames.length
    rw [hfree, List.length_append, List.length_range', List.length_range']
    decide
  obtain ⟨k, hk⟩ := initVmm_returns h₀ hcount hwraps (zero_notMem_freeFrames_initPmm hs) hlen
  have htables : tableFrames smallKernel splitMap s = List.range' 0x200 4 := by
    rw [tableFrames, directories_splitMap, hfree]
    exact List.take_left' List.length_range'
  have hlow : BootTablesLow smallKernel splitMap s := by
    intro t ht
    rw [htables] at ht
    have ht := List.mem_range'_1.mp ht
    rw [directMapped_splitMap]
    omega
  refine ⟨s, k, hs, hk, hlow.direct h₀ hk, fun f hf => ?_, ?_, fun q hqlo hqhi => ?_⟩
  · have ht := (initVmm_tableFrame h₀ hk f).mp hf
    change f ∈ tableFrames smallKernel splitMap s at ht
    rw [htables] at ht
    have ht := List.mem_range'_1.mp ht
    omega
  · rw [initVmm_freeFrames h₀ hk, directories_splitMap]
    show s.freeFrames.drop 4 = _
    rw [hfree]
    exact List.drop_left' List.length_range'
  · have hmapped : DirectMapped splitMap q := (directMapped_splitMap q).mpr (by omega)
    rw [initVmm_frame h₀ hk (by omega), lastFrame_bootMappings, if_neg (by omega), if_pos hmapped]
    refine congrArg some ?_
    unfold directFrame
    omega

theorem zero_notMem_range' {start n : Nat} (h : 0 < start) : 0 ∉ List.range' start n := by
  intro hmem
  have := List.mem_range'_1.mp hmem
  omega

/-- The heap of that machine, as `init_heap` leaves it: one page, with the tables there for what
comes after. -/
theorem initHeap_splitMap : ∃ s k₁ h τ m,
    initPmm smallKernel splitMap.mem splitMap.infoAddr = some s ∧
    initVmm smallKernel splitMap.info (bootKernel splitMap s) = some k₁ ∧
    TablesDirect k₁ ∧ (∀ f, k₁.TableFrame f → f < 1024) ∧
    k₁.pmm.freeFrames = 0x1FFFD :: List.range' 0x1FFFE 1026 ∧
    k₁.frame (0x1FFFD + 0xC0000) = some 0x1FFFD ∧ FirstPageBelow 4294967295 k₁ ∧
    initHeap kernelPager k₁ = some h ∧ h.heapLimit = 0xDFFFE000 ∧
    h.machine.pmm.freeFrames = List.range' 0x1FFFE 1026 ∧
    (∀ q, 0xDFFFD ≤ q → q < 0xE0400 → h.machine.table (q / 1024) ≠ none) ∧
    (∀ f, h.machine.TableFrame f → f < 1024) ∧
    HeapInv 4294967295 Kernel.OwnsHeap h τ m [⟨h.firstBlock, 4080, true⟩] := by
  obtain ⟨s, k₁, hs, hk₁, hdirect, hlow, hfree, hframe⟩ := initVmm_splitMap
  have hfits : 0xC0000000 + 0x1FFFD * 4096 + 4096 ≤ 4294967295 := by decide
  have hhead : k₁.frame (0x1FFFD + 0xC0000) = some 0x1FFFD := hframe _ (by decide) (by decide)
  have hcons : k₁.pmm.freeFrames = 0x1FFFD :: List.range' 0x1FFFE 1026 := hfree
  obtain ⟨h, τ, m, hbelow, hinit, hlimit, htable, hrest, hinv⟩ :=
    initHeap_of_head (by decide) hdirect hcons hhead hfits
  refine ⟨s, k₁, h, τ, m, hs, hk₁, hdirect, hlow, hcons, hhead, hbelow, hinit, hlimit, hrest,
    fun q hlo hhi hnone => ?_, ?_, hinv⟩
  · rw [htable] at hnone
    have hq := hframe q hlo hhi
    rw [k₁.frame_of_no_table hnone] at hq
    exact absurd hq (by simp)
  · rintro f ⟨d, hd, ht⟩
    exact hlow f ⟨d, hd, (htable d).symm.trans ht⟩

/-- The heap of the `splitMap` machine starts three pages below the window, and has the window's
page table when `vbe_init` maps 3 MiB there. None of the next pages needs a table of its own. -/
theorem heapReach_splitMap : ∃ s k₁ h k,
    initPmm smallKernel splitMap.mem splitMap.infoAddr = some s ∧
    initVmm smallKernel splitMap.info (bootKernel splitMap s) = some k₁ ∧
    TablesDirect k₁ ∧ 0 ∉ k₁.pmm.freeFrames ∧ HeapReach k₁ h [] ∧ h.heapLimit = 0xDFFFE000 ∧
    MappingsKeepTables h.machine (regionMappings videoVrtAddr 0xFD000000 0x300000) ∧
    mapRegion h.machine videoVrtAddr 0xFD000000 0x300000 = some k ∧
    ∀ n, 4080 < roundedUp n → neededPages n ≤ 1026 →
      KmallocKeepsTables { h with machine := k } n ∧
      ∃ h', kmalloc kernelPager { h with machine := k } n = some (0xDFFFE010, h') ∧
        ∀ a, 0xDFFFE000 ≤ a → a < 0xDFFFE000 + neededPages n * 4096 →
          ∃ f < 0x20400, translate h'.machine a = some (f * 4096 + a % 4096) := by
  obtain ⟨s, k₁, hs, hk₁, hdirect, hlow, hfree, hframe⟩ := initVmm_splitMap
  have hz : 0 ∉ k₁.pmm.freeFrames := by
    rw [hfree]
    intro hmem
    have := List.mem_range'_1.mp hmem
    omega
  have hcons : k₁.pmm.freeFrames = 0x1FFFD :: List.range' 0x1FFFE 1026 := hfree
  have hfits : 0xC0000000 + 0x1FFFD * 4096 + 4096 ≤ 4294967295 := by decide
  have hhead : k₁.frame (0x1FFFD + 0xC0000) = some 0x1FFFD := hframe _ (by decide) (by decide)
  obtain ⟨h, τ, m, hbelow, hinit, hlimit, htable, hrest, hinv⟩ :=
    initHeap_of_head (by decide) hdirect hcons hhead hfits
  have hpresent : ∀ q, 0xDFFFD ≤ q → q < 0xE0400 → h.machine.table (q / 1024) ≠ none := by
    intro q hlo hhi hnone
    rw [htable] at hnone
    have hq := hframe q hlo hhi
    rw [k₁.frame_of_no_table hnone] at hq
    exact absurd hq (by simp)
  have hlow' : ∀ f, h.machine.TableFrame f → f < 1024 := by
    rintro f ⟨d, hd, ht⟩
    exact hlow f ⟨d, hd, (htable d).symm.trans ht⟩
  have hv : videoVrtAddr < 4294967296 := by decide
  have hvis : ∀ c ∈ regionMappings videoVrtAddr 0xFD000000 0x300000,
      0xE0000 ≤ c.page ∧ c.page < 0xE0300 := by
    intro c hc
    have hvis := (exists_regionMappings hv).mp ⟨c, hc, rfl⟩
    simp only [Visits, videoVrtAddr, u32] at hvis
    omega
  obtain ⟨hkeep, k, hmaps, hsame, hold⟩ := mapPages_present hinv.owns.tables fun c hc => by
    obtain ⟨hlo, hhi⟩ := hvis c hc
    refine ⟨hpresent _ (by omega) (by omega), fun ht => ?_⟩
    have := hlow' _ ht
    omega
  have hmap : mapRegion h.machine videoVrtAddr 0xFD000000 0x300000 = some k :=
    (mapRegion_eq_some hv (by decide)).mpr ⟨by decide, hmaps⟩
  have hinv' := hinv.mapPages hkeep (fun a hlo hhi c hc heq => by
    have := (hvis c hc).1
    omega) hmaps
  refine ⟨s, k₁, h, k, hs, hk₁, hdirect, hz, .initHeap hbelow hinit, hlimit, hkeep, hmap,
    fun n hbig hpages => ?_⟩
  have hfree' : k.pmm.freeFrames = List.range' 0x1FFFE 1026 := by
    rw [hsame]
    exact hrest
  have hreason : Reasonable n := by
    unfold Reasonable
    unfold neededPages at hpages
    omega
  have hz' : 0 ∉ k.pmm.freeFrames := by
    rw [hfree']
    intro hmem
    have := List.mem_range'_1.mp hmem
    omega
  have hthere : ∀ i < neededPages n, k.table ((h.heapLimit / 4096 + i) / 1024) ≠ none := by
    intro i hi
    rw [hold]
    exact hpresent _ (by omega) (by omega)
  have hbelow' : ∀ f, k.TableFrame f → f < h.heapLimit / 4096 := by
    rintro f ⟨d, hd, ht⟩
    have := hlow' f ⟨d, hd, (hold d).symm.trans ht⟩
    omega
  have henough : neededPages n ≤ k.pmm.freeFrames.length := by
    rw [hfree', List.length_range']
    exact hpages
  obtain ⟨hkeeps, h', hcall, hframes⟩ := kmalloc_present (h := { h with machine := k }) hinv' hz'
    hreason hbig (by simp only; omega) hthere hbelow' henough
  have hptr : h.heapLimit + 16 = 0xDFFFE010 := by omega
  refine ⟨hkeeps, h', hcall.trans (congrArg some (Prod.ext hptr rfl)), fun a hlo hhi => ?_⟩
  obtain ⟨f, hf, htrans⟩ := hframes a (by simp only; omega) (by simp only; omega)
  simp only [hfree'] at hf
  have hf := List.mem_range'_1.mp hf
  exact ⟨f, by omega, htrans⟩

/-- Up to the window: 8000 bytes take the two pages that are left below it. -/
theorem window_stays_splitMap : ∃ k₁ h₀ k p h, HeapReach k₁ h₀ [] ∧
    mapRegion h₀.machine videoVrtAddr 0xFD000000 0x300000 = some k ∧
    VbeRun StaysUnder { h₀ with machine := k } [] h [(p, 8000)] ∧
    ∀ a, videoVrtAddr ≤ a → a < videoVrtAddr + 0x300000 →
      translate h.machine a = some (windowAddr 0xFD000000 a) := by
  obtain ⟨_, k₁, h₀, k, _, _, hk, hz, hreach, hlimit, hkeep, hmap, hcalls⟩ := heapReach_splitMap
  obtain ⟨hkeeps, h, hcall, _⟩ := hcalls 8000 (by decide) (by decide)
  have hstay : StaysUnder { h₀ with machine := k } 8000 := by
    refine ⟨by unfold Reasonable; decide, hkeeps, fun _ => ?_⟩
    show h₀.heapLimit + _ ≤ _
    rw [hlimit]
    decide
  have hstart : VbeRun StaysUnder { h₀ with machine := k } [] { h₀ with machine := k } [] := .start
  have hrun := hstart.kmalloc hstay hcall
  rw [if_neg (by decide)] at hrun
  refine ⟨k₁, h₀, k, _, h, hreach, hmap, hrun, ?_⟩
  exact (window_stays k₁ hk hz hreach (by rw [hlimit]; decide) (by decide) (by decide) hkeep hmap
    hrun).1

/-- Over it: the buffer that `vbe_init` itself asks for, as large as the screen, starts below the
window and does not end there. The window then shows RAM. -/
theorem window_taken_over : ∃ s k₁ h₀ p h,
    initPmm smallKernel splitMap.mem splitMap.infoAddr = some s ∧
    initVmm smallKernel splitMap.info (bootKernel splitMap s) = some k₁ ∧
    HeapReach k₁ h₀ [] ∧ h₀.heapLimit ≤ videoVrtAddr ∧
    vbeInit h₀ 0xFD000000 4096 768 = some (p, h) ∧
    p < videoVrtAddr ∧ videoVrtAddr < p + 4096 * 768 ∧
    translate h.machine videoVrtAddr ≠ some (windowAddr 0xFD000000 videoVrtAddr) := by
  obtain ⟨s, k₁, h₀, k, hs, hk₁, hk, hz, hreach, hlimit, _, hmap, hcalls⟩ := heapReach_splitMap
  obtain ⟨hkeeps, h, hcall, hframes⟩ := hcalls 0x300000 (by decide) (by decide)
  refine ⟨s, k₁, h₀, 0xDFFFE010, h, hs, hk₁, hreach, by rw [hlimit]; decide, ?_, by decide,
    by decide, ?_⟩
  · have hsize : u32 (4096 * 768) = 0x300000 := by decide
    have hfb : u32 0xFD000000 = 0xFD000000 := by decide
    simp only [vbeInit, hsize, hfb, hmap, Option.bind_eq_bind, Option.bind_some]
    exact hcall
  · obtain ⟨f, hf, htrans⟩ := hframes videoVrtAddr (by decide) (by decide)
    have hwindow : windowAddr 0xFD000000 videoVrtAddr = 0xFD000000 := by decide
    rw [htrans, hwindow]
    intro heq
    have := Option.some.inj heq
    omega

end ScratchOs.Mem
