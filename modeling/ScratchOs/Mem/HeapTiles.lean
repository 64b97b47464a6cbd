import ScratchOs.Mem.HeapSafety

/-!
# The bytes between the blocks

`kmalloc` decides in two places what to do with bytes it has no use for. When it splits a block,
a rest too small for a block of its own stays with the payload. When `expand_heap` takes pages,
a rest of 20 bytes or less goes to no block at all, and the pages behind it begin with the next
block: nothing ever gives those bytes back.

`Tiled` says that there are none. It is kept by every call except a growing one with such a rest
(`Allocates.tiles_iff`), so a run without them keeps it (`blocks_tile`), and the heap is one
free block whenever everything has been given back.

A gap is for good. Merging adds sizes and headers, so when the two blocks beside a gap are merged
the new size ends before the second one did, and the gap has moved to its end. That is why the
property can be lost in one call and not be regained by any, and why the condition is on each
request of a run and not on the last one.

Runs of this module always have pages (`Serves`): what a request leaves behind when the frames run
out is another matter, and has nothing to do with the rest of its last page.
-/

set_option autoImplicit false

namespace ScratchOs.Mem

open AddressSpace Bits FreeList

section Tiled

variable {σ : Type} [AddressSpace σ]

/-- The blocks in memory are `bs`: each begins where the one before it ends, and the last one
ends at `heap_limit`. -/
def Tiled (h : Heap σ) (bs : List Block) : Prop :=
  BlockList h.machine h.firstBlock bs ∧ Tiles 16 h.heapLimit h.firstBlock bs

/-- A walk along the list can only go one way. So a list that is said to be in memory is the list of
the invariant, and what holds of one holds of the other. -/
theorem BlockList.unique {s : σ} {bs : List Block} :
    ∀ {a : Nat} {cs : List Block}, BlockList s a bs → BlockList s a cs → bs = cs := by
  induction bs with
  | nil =>
    intro a cs h h'
    cases cs with
    | nil => rfl
    | cons c cs => exact absurd h h'.2.1
  | cons b bs ih =>
    intro a cs h h'
    cases cs with
    | nil => exact absurd h' h.2.1
    | cons c cs =>
      obtain ⟨hb, _, hsize, hfree, next, hnext, hrest⟩ := h
      obtain ⟨hc, _, hsize', hfree', next', hnext', hrest'⟩ := h'
      obtain ⟨baddr, bsize, bfree⟩ := b
      obtain ⟨caddr, csize, cfree⟩ := c
      obtain rfl : a = baddr := hb
      obtain rfl : a = caddr := hc
      obtain rfl : bsize = csize := Option.some.inj (hsize.symm.trans hsize')
      obtain rfl : bfree = cfree := Option.some.inj (hfree.symm.trans hfree')
      obtain rfl : next = next' := Option.some.inj (hnext.symm.trans hnext')
      rw [ih hrest hrest']

/-- No block is large enough: the search of `kmalloc(n)` comes to the end of the list. -/
def NeedsPages (h : Heap σ) (n : Nat) : Prop :=
  ∃ lastBlock, findFit h.machine (roundSize n) 4294967296 h.firstBlock h.firstBlock =
    some (0, lastBlock)

/-- `needed_pages` -/
def neededPages (n : Nat) : Nat := (roundedUp n + 16 + 4095) / 4096

/-- What a new block for `n` bytes leaves of its pages: `needed_pages * 4096 - needed_size`. -/
def leftOver (n : Nat) : Nat := neededPages n * 4096 - (roundedUp n + 16)

/-- If the heap has to grow for `kmalloc(n)`, the rest of the last page is nothing, or enough
for a free block. -/
def LeavesNoGap (h : Heap σ) (n : Nat) : Prop :=
  NeedsPages h n → leftOver n = 0 ∨ 20 < leftOver n

variable {pager : Pager σ} {Owns : σ → Nat → Nat → (Nat → Nat) → Prop} {top : Nat}

/-- The search comes to the end exactly if no block of the list fits. -/
theorem HeapInv.needsPages (laws : PagerLaws pager top Owns) {h : Heap σ} {τ : Nat → Nat}
    {m : Bytes.Mem} {bs : List Block} (hinv : HeapInv top Owns h τ m bs) (n : Nat) :
    NeedsPages h n ↔ ∀ c ∈ bs, ¬ Fits (roundSize n) c := by
  unfold NeedsPages
  rcases hinv.find laws (roundSize n) with
    ⟨pre, b, post, prev, rfl, hfit, hb, hfind⟩ | ⟨pre, l, _, _, hnone, hfind⟩
  · constructor
    · rintro ⟨last, hend⟩
      rw [hfind] at hend
      exact absurd (Prod.mk.inj (Option.some.inj hend)).1 hb
    · intro hnone
      exact absurd hfit (hnone b (by simp))
  · exact ⟨fun _ => hnone, fun _ => ⟨_, hfind⟩⟩

theorem HeapInv.needsPages_iff (laws : PagerLaws pager top Owns) {h : Heap σ} {τ : Nat → Nat}
    {m : Bytes.Mem} {bs : List Block} {n : Nat} (hinv : HeapInv top Owns h τ m bs)
    (hn : Reasonable n) : NeedsPages h n ↔ ∀ c ∈ bs, ¬ Fits (roundedUp n) c := by
  rw [hinv.needsPages laws, roundSize_eq hn]

/-- A block that fits has a size a heap can have. -/
theorem HeapInv.reasonable (laws : PagerLaws pager top Owns) {h : Heap σ} {τ : Nat → Nat}
    {m : Bytes.Mem} {bs : List Block} {n : Nat} (hinv : HeapInv top Owns h τ m bs)
    (hn : n < 4294967296) (hzero : roundSize n ≠ 0) (hfits : ¬ NeedsPages h n) :
    Reasonable n := by
  have hlimit := hinv.limit_lt laws
  have hpage := hinv.page
  have hpos := hinv.pos
  rw [hinv.needsPages laws] at hfits
  have hfit : ∃ c ∈ bs, Fits (roundSize n) c := by
    by_contra hnone
    exact hfits fun c hc hfit => hnone ⟨c, hc, hfit⟩
  obtain ⟨c, hc, _, hsize⟩ := hfit
  obtain ⟨hlo, hstop⟩ := hinv.inside hc
  rw [roundSize_eq_u32] at hzero hsize
  unfold Reasonable roundedUp
  unfold u32 at hzero hsize
  omega

/-- The list of the invariant as the list that a walk meets. -/
theorem HeapInv.blockList (laws : PagerLaws pager top Owns) {h : Heap σ} {τ : Nat → Nat}
    {m : Bytes.Mem} {bs : List Block} (hinv : HeapInv top Owns h τ m bs) :
    BlockList h.machine h.firstBlock bs :=
  hinv.chain.blockList (hinv.view laws).shows hinv.pos (Nat.le_refl _) hinv.laid

/-- The list is the one the invariant speaks of. -/
theorem HeapInv.tiled_iff (laws : PagerLaws pager top Owns) {h : Heap σ} {τ : Nat → Nat}
    {m : Bytes.Mem} {bs : List Block} (hinv : HeapInv top Owns h τ m bs) :
    (∃ cs, Tiled h cs) ↔ Tiles 16 h.heapLimit h.firstBlock bs := by
  constructor
  · rintro ⟨cs, hlist, htiles⟩
    rw [(hinv.blockList laws).unique hlist]
    exact htiles
  · intro htiles
    exact ⟨bs, hinv.blockList laws, htiles⟩

omit [AddressSpace σ] in
/-- **One `kmalloc`.** Where pages do not run out, a heap without gaps has none afterwards
exactly if the call leaves none. Only growing can leave one, since the parts of a carved
block fill it. -/
theorem Allocates.tiles_iff {h h' : Heap σ} {bs bs' : List Block} {n p : Nat}
    (halloc : Allocates pager h h' bs (roundedUp n) p bs')
    (htiles : Tiles 16 h.heapLimit h.firstBlock bs)
    (hpages : (∀ c ∈ bs, ¬ Fits (roundedUp n) c) →
      growHeap pager (neededPages n) h ≠ some (false, h')) :
    Tiles 16 h'.heapLimit h.firstBlock bs' ↔
      ((∀ c ∈ bs, ¬ Fits (roundedUp n) c) → leftOver n = 0 ∨ 20 < leftOver n) := by
  cases halloc with
  | nothing hzero hsame =>
    subst hsame
    refine ⟨fun _ _ => Or.inr ?_, fun _ => htiles⟩
    unfold leftOver neededPages
    omega
  | @used pre post b hbs hfit hlimit =>
    subst hbs
    refine ⟨fun _ hnone => absurd hfit (hnone b (by simp)), fun _ => ?_⟩
    rw [hlimit]
    exact htiles.replace (tiles_carve hfit.2 (by decide))
  | grown hnone hlimit =>
    have hfresh := @tiles_fresh 16 20 h.heapLimit (neededPages n * 4096) (roundedUp n)
      (by decide) (by unfold neededPages; omega)
    rw [hlimit]
    constructor
    · intro hnew _
      obtain ⟨mid, hold, hnew⟩ := tiles_append.mp hnew
      rw [← htiles.unique hold] at hnew
      exact hfresh.mp hnew
    · intro hleft
      exact tiles_append.mpr ⟨h.heapLimit, htiles, hfresh.mpr (hleft hnone)⟩
  | failed hnone hgrow => exact absurd hgrow (hpages hnone)

omit [AddressSpace σ] in
/-- No `kmalloc` puts two free blocks side by side. -/
theorem Allocates.merged {h h' : Heap σ} {bs bs' : List Block} {size p : Nat}
    (halloc : Allocates pager h h' bs size p bs') (hmerged : Merged bs) : Merged bs' := by
  cases halloc with
  | nothing => exact hmerged
  | used hbs hfit =>
    subst hbs
    exact hmerged.carve hfit.1
  | grown => exact hmerged.fresh
  | failed => exact hmerged

/-! ## What the blocks are there for -/

/-- The blocks fill the heap, every one in use is a live allocation, and free ones have been
merged. -/
structure Accounted (h : Heap σ) (bs : List Block) (live : List (Nat × Nat)) : Prop where
  tiles : Tiles 16 h.heapLimit h.firstBlock bs
  merged : Merged bs
  used : ∀ b ∈ bs, b.free = false → b.addr + 16 ∈ live.map Prod.fst

omit [AddressSpace σ] in
/-- The pointers in use after a request. A block in use is an old one, or the one that was
granted. -/
theorem Accounted.kmalloc {h h' : Heap σ} {bs bs' : List Block} {live : List (Nat × Nat)}
    {n p : Nat} (hacc : Accounted h bs live)
    (halloc : Allocates pager h h' bs (roundedUp n) p bs')
    (hpages : (∀ c ∈ bs, ¬ Fits (roundedUp n) c) →
      growHeap pager (neededPages n) h ≠ some (false, h'))
    (hgap : (∀ c ∈ bs, ¬ Fits (roundedUp n) c) → leftOver n = 0 ∨ 20 < leftOver n)
    (hfirst : h'.firstBlock = h.firstBlock) :
    Accounted h' bs' (if p = 0 then live else (p, n) :: live) := by
  have htiles := (halloc.tiles_iff hacc.tiles hpages).mpr hgap
  rw [← hfirst] at htiles
  refine ⟨htiles, halloc.merged hacc.merged, ?_⟩
  intro c hc hfree
  -- A block that was in use has its pointer among the old ones.
  have hold : c ∈ bs → c.addr + 16 ∈ (if p = 0 then live else (p, n) :: live).map Prod.fst := by
    intro hmem
    have hlive := hacc.used c hmem hfree
    split
    · exact hlive
    · exact List.mem_cons_of_mem _ hlive
  have hnew : p = c.addr + 16 →
      c.addr + 16 ∈ (if p = 0 then live else (p, n) :: live).map Prod.fst := by
    intro hp
    rw [if_neg (by omega), hp]
    exact List.mem_cons_self
  cases halloc with
  | nothing => exact hold hc
  | @used pre post b hbs _ _ =>
    subst hbs
    rcases List.mem_append.mp hc with hc | hc
    · exact hold (List.mem_append_left _ hc)
    · rcases List.mem_append.mp hc with hc | hc
      · exact hnew (by rw [addr_of_mem_carve hc hfree])
      · exact hold (List.mem_append_right _ (List.mem_cons_of_mem _ hc))
  | grown =>
    rcases List.mem_append.mp hc with hc | hc
    · exact hold hc
    · exact hnew (by rw [addr_of_mem_fresh hc hfree])
  | failed => exact hold hc

omit [AddressSpace σ] in
/-- After a `kfree` every block that is still in use was in use before, and is another one. -/
theorem Accounted.kfree {h : Heap σ} {bs : List Block} {live : List (Nat × Nat)}
    {x : Nat × Nat} {b : Block} {s : σ} (hacc : Accounted h bs live)
    (hptr : x.1 = b.addr + 16) :
    Accounted { h with machine := s } (coalesce 16 (release b.addr bs)) (live.erase x) := by
  refine ⟨(hacc.tiles.release b.addr).coalesce, merged_coalesce _, ?_⟩
  intro c hc hfree
  obtain ⟨hc, hne⟩ := of_mem_release (mem_of_mem_coalesce hfree hc) hfree
  obtain ⟨y, hy, hyc⟩ := List.mem_map.mp (hacc.used c hc hfree)
  refine List.mem_map.mpr ⟨y, (List.mem_erase_of_ne ?_).mpr hy, hyc⟩
  rintro rfl
  omega

omit [AddressSpace σ] in
/-- With nothing live there is one block. All blocks are free then, and no two of them neighbours.
-/
theorem Accounted.single {h : Heap σ} {bs : List Block} (hacc : Accounted h bs [])
    (hne : bs ≠ []) : bs = [⟨h.firstBlock, h.heapLimit - h.firstBlock - 16, true⟩] := by
  refine hacc.tiles.single hacc.merged hne fun b hb => ?_
  cases hfree : b.free with
  | true => rfl
  | false => exact absurd (hacc.used b hb hfree) List.not_mem_nil

end Tiled

/-! ## Runs in which there are always pages -/

/-- `kmalloc(n)` can be served: no 32-bit sum in it wraps, and if the heap has to grow,
`pmm_alloc_page` has the pages. -/
structure Serves (h : Heap Ideal) (n : Nat) : Prop where
  reasonable : Reasonable n
  noWrap : NeedsPages h n → h.heapLimit + neededPages n * 4096 < 4294967296
  pages : NeedsPages h n → ∀ i < neededPages n, h.machine.supply (h.machine.calls + i) ≠ 0

/-- The states reached from `init_heap` by requests that can be served and are `Allowed`, with
the live allocations. -/
inductive ServedRun (Allowed : Heap Ideal → Nat → Prop) (s : Ideal) :
    Heap Ideal → List (Nat × Nat) → Prop
  | init {h : Heap Ideal} (hinit : initHeap idealPager s = some h) : ServedRun Allowed s h []
  | kmalloc {h h' : Heap Ideal} {live : List (Nat × Nat)} {n p : Nat}
      (hrun : ServedRun Allowed s h live) (hserve : Serves h n) (hallow : Allowed h n)
      (hcall : kmalloc idealPager h n = some (p, h')) :
      ServedRun Allowed s h' (if p = 0 then live else (p, n) :: live)
  | kfree {h h' : Heap Ideal} {live : List (Nat × Nat)} {x : Nat × Nat}
      (hrun : ServedRun Allowed s h live) (hx : x ∈ live) (hcall : kfree h x.1 = some h') :
      ServedRun Allowed s h' (live.erase x)
  | write {h : Heap Ideal} {live : List (Nat × Nat)} {x : Nat × Nat} {a : Nat} {v : UInt8}
      {s' : Ideal} (hrun : ServedRun Allowed s h live) (hx : x ∈ live) (hlo : x.1 ≤ a)
      (hhi : a < x.1 + x.2) (hstore : store8 h.machine a v = some s') :
      ServedRun Allowed s { h with machine := s' } live

/-- Before `init_heap`: there is a page, and the direct map shows it at an address that is not
NULL and not the last page. -/
structure Ideal.Ready (s : Ideal) : Prop where
  fresh : s.Fresh
  page : s.supply s.calls ≠ 0
  direct : s.pages (paVa (s.supply s.calls) / 4096) = some (s.supply s.calls / 4096)
  pos : 0 < paVa (s.supply s.calls)
  limit : paVa (s.supply s.calls) + 4096 < 4294967296

/-- The laws as far as addresses go. -/
theorem idealLawsAll : PagerLaws idealPager 4294967295 Ideal.Owns :=
  idealPager_laws (by decide)

/-- As many pages as are needed: the loop of `expand_heap` goes to its end. -/
theorem growHeap_enough : ∀ (pages : Nat) {h : Heap Ideal},
    (∀ i < pages, h.machine.supply (h.machine.calls + i) ≠ 0) →
      ∃ h', growHeap idealPager pages h = some (true, h')
  | 0, h, _ => ⟨h, rfl⟩
  | pages + 1, h, hsupply => by
    have hnew : (idealPager.pmmAllocPage h.machine).1 ≠ 0 := hsupply 0 (Nat.succ_pos _)
    rw [growHeap_succ, if_neg hnew]
    refine growHeap_enough pages fun i hi => ?_
    show h.machine.supply (h.machine.calls + 1 + i) ≠ 0
    rw [Nat.add_assoc, Nat.add_comm 1 i]
    exact hsupply (i + 1) (Nat.succ_lt_succ hi)

/-- The invariant of these runs: that of all runs, and that nothing of the heap is in no block. -/
def HeapFull (start : Nat) (h : Heap Ideal) (live : List (Nat × Nat)) : Prop :=
  h.firstBlock = start ∧ ∃ τ m bs, HeapInv 4294967295 Ideal.Owns h τ m bs ∧ LiveIn bs live ∧
    Accounted h bs live

section Served

variable {h h' : Heap Ideal} {live : List (Nat × Nat)} {n p : Nat}

/-- A request that can be served returns. -/
theorem Serves.returns {τ : Nat → Nat} {m : Bytes.Mem} {bs : List Block} (hserve : Serves h n)
    (hinv : HeapInv 4294967295 Ideal.Owns h τ m bs) :
    ∃ p h', kmalloc idealPager h n = some (p, h') ∧ h.heapLimit ≤ h'.heapLimit ∧
      h'.heapLimit ≤ 4294967295 := by
  have hneeds := hinv.needsPages_iff idealLawsAll hserve.reasonable
  exact kmalloc_returns idealLawsAll hinv hserve.reasonable
    (fun hnone => Nat.le_of_lt_succ (hserve.noWrap (hneeds.mpr hnone)))
    (fun _ => growHeap_ideal _ _)

/-- A request that `Serves` covers has the outcome of `Allocates`, and does not fail for want of
pages. -/
theorem Serves.spec {τ : Nat → Nat} {m : Bytes.Mem} {bs : List Block} (hserve : Serves h n)
    (hinv : HeapInv 4294967295 Ideal.Owns h τ m bs)
    (hcall : kmalloc idealPager h n = some (p, h')) :
    h'.firstBlock = h.firstBlock ∧ ∃ τ' m' bs', HeapInv 4294967295 Ideal.Owns h' τ' m' bs' ∧
      (p = 0 ∧ bs' = bs ∨ Granted bs bs' p (roundedUp n)) ∧
      Allocates idealPager h h' bs (roundedUp n) p bs' ∧
      ((∀ c ∈ bs, ¬ Fits (roundedUp n) c) →
        growHeap idealPager (neededPages n) h ≠ some (false, h')) := by
  obtain ⟨p₁, h₁, hcall₁, hle, hlim⟩ := hserve.returns hinv
  rw [hcall] at hcall₁
  obtain ⟨rfl, rfl⟩ := Prod.mk.inj (Option.some.inj hcall₁)
  obtain ⟨hfirst, τ', m', bs', hinv', hgrant, _, halloc, _⟩ :=
    kmalloc_spec idealLawsAll hinv hserve.reasonable hcall hle hlim
  refine ⟨hfirst, τ', m', bs', hinv', hgrant, halloc, fun hnone hfail => ?_⟩
  have hneeds := (hinv.needsPages_iff idealLawsAll hserve.reasonable).mpr hnone
  obtain ⟨h₂, hgrow⟩ := growHeap_enough (neededPages n) (hserve.pages hneeds)
  rw [hfail] at hgrow
  exact Bool.noConfusion (Prod.mk.inj (Option.some.inj hgrow)).1

/-- Where it needs pages, it returns the first address behind the old end and the header. -/
theorem Serves.grown {τ : Nat → Nat} {m : Bytes.Mem} {bs : List Block} (hserve : Serves h n)
    (hinv : HeapInv 4294967295 Ideal.Owns h τ m bs) (hneeds : NeedsPages h n)
    (hn : roundedUp n ≠ 0) (hcall : kmalloc idealPager h n = some (p, h')) :
    p = h.heapLimit + 16 := by
  have hnone := (hinv.needsPages_iff idealLawsAll hserve.reasonable).mp hneeds
  obtain ⟨_, _, _, _, _, _, halloc, hpages⟩ := hserve.spec hinv hcall
  cases halloc with
  | nothing hzero => exact absurd hzero hn
  | @used pre post b hbs hfit =>
    subst hbs
    exact absurd hfit (hnone b (by simp))
  | grown => rfl
  | failed _ hgrow => exact absurd hgrow (hpages hnone)

/-- A request that can be served leaves the heap without gaps exactly if it `LeavesNoGap`. -/
theorem HeapFull.tiled_iff {start : Nat} (hfull : HeapFull start h live) (hserve : Serves h n)
    (hcall : kmalloc idealPager h n = some (p, h')) :
    (∃ bs, Tiled h' bs) ↔ LeavesNoGap h n := by
  obtain ⟨_, τ, m, bs, hinv, _, hacc⟩ := hfull
  obtain ⟨hfirst, τ', m', bs', hinv', _, halloc, hpages⟩ := hserve.spec hinv hcall
  rw [hinv'.tiled_iff idealLawsAll, hfirst, halloc.tiles_iff hacc.tiles hpages, LeavesNoGap,
    hinv.needsPages_iff idealLawsAll hserve.reasonable]

theorem HeapFull.kmalloc {start : Nat} (hfull : HeapFull start h live) (hserve : Serves h n)
    (hgap : LeavesNoGap h n) (hcall : kmalloc idealPager h n = some (p, h')) :
    HeapFull start h' (if p = 0 then live else (p, n) :: live) := by
  obtain ⟨hstart, τ, m, bs, hinv, hlive, hacc⟩ := hfull
  obtain ⟨hfirst, τ', m', bs', hinv', hgrant, halloc, hpages⟩ := hserve.spec hinv hcall
  rw [LeavesNoGap, hinv.needsPages_iff idealLawsAll hserve.reasonable] at hgap
  refine ⟨hfirst.trans hstart, τ', m', bs', hinv', ?_,
    hacc.kmalloc halloc hpages hgap hfirst⟩
  exact hlive.granted hgrant

theorem HeapFull.kfree {start : Nat} {x : Nat × Nat} (hfull : HeapFull start h live)
    (hx : x ∈ live) (hcall : kfree h x.1 = some h') : HeapFull start h' (live.erase x) := by
  obtain ⟨hstart, τ, m, bs, hinv, hlive, hacc⟩ := hfull
  obtain ⟨b, _, hptr, s, m', rfl, hinv', hlive', _⟩ := hinv.freeLive idealLawsAll hlive hx hcall
  exact ⟨hstart, τ, m', _, hinv', hlive', hacc.kfree hptr⟩

theorem HeapFull.write {start : Nat} {x : Nat × Nat} {a : Nat} {v : UInt8} {s' : Ideal}
    (hfull : HeapFull start h live) (hx : x ∈ live) (hlo : x.1 ≤ a) (hhi : a < x.1 + x.2)
    (hstore : store8 h.machine a v = some s') :
    HeapFull start { h with machine := s' } live := by
  obtain ⟨hstart, τ, m, bs, hinv, hlive, hacc⟩ := hfull
  obtain ⟨m', hinv', _⟩ := hinv.writeLive idealLawsAll hlive hx hlo hhi hstore
  exact ⟨hstart, τ, m', bs, hinv', hlive, hacc.tiles, hacc.merged, hacc.used⟩

theorem HeapFull.tiled {start : Nat} (hfull : HeapFull start h live) :
    ∃ bs, Tiled h bs := by
  obtain ⟨_, _, _, bs, hinv, _, hacc⟩ := hfull
  exact ⟨bs, hinv.blockList idealLawsAll, hacc.tiles⟩

theorem HeapFull.single {start : Nat} (hfull : HeapFull start h []) :
    Tiled h [⟨start, h.heapLimit - start - 16, true⟩] := by
  obtain ⟨rfl, _, _, bs, hinv, _, hacc⟩ := hfull
  obtain ⟨b, rest, hbs, _⟩ := hinv.nonempty
  have hne : bs ≠ [] := by
    rw [hbs]
    exact List.cons_ne_nil b rest
  have hlist := hinv.blockList idealLawsAll
  have htiles := hacc.tiles
  rw [hacc.single hne] at hlist htiles
  exact ⟨hlist, htiles⟩

end Served

/-- The first page is one free block. -/
theorem initHeap_full {s : Ideal} (hs : s.Ready) :
    ∃ h, initHeap idealPager s = some h ∧ HeapFull (paVa (s.supply s.calls)) h [] ∧
      h.heapLimit = h.firstBlock + 4096 ∧ h.machine.supply = s.supply ∧
      h.machine.calls = s.calls + 1 := by
  obtain ⟨h, m, hinit, hfirst, hlimit, ⟨m', hmach⟩, hinv, _⟩ :=
    initHeap_spec idealLawsAll (hs.fresh.owns_first hs.page hs.direct) hs.pos
      (paVa_mod (hs.fresh.aligned s.calls)) (Nat.le_of_lt_succ hs.limit)
  refine ⟨h, hinit, ⟨hfirst, _, m, _, hinv, ?_, ?_, ?_, ?_⟩, hlimit, ?_, ?_⟩
  · exact ⟨List.nodup_nil, fun x hx => absurd hx List.not_mem_nil⟩
  · refine ⟨rfl, ?_⟩
    rw [hlimit]
    rfl
  · exact List.isChain_singleton _
  · intro b hb hfree
    obtain rfl := List.mem_singleton.mp hb
    exact absurd hfree Bool.noConfusion
  · rw [hmach]
    rfl
  · rw [hmach]
    rfl

/-- The run lemma. -/
theorem ServedRun.full {s : Ideal} (hs : s.Ready) {h : Heap Ideal} {live : List (Nat × Nat)}
    (hrun : ServedRun LeavesNoGap s h live) : HeapFull (paVa (s.supply s.calls)) h live := by
  induction hrun with
  | init hinit =>
    obtain ⟨h₁, hinit₁, hfull, _⟩ := initHeap_full hs
    rw [hinit] at hinit₁
    obtain rfl := Option.some.inj hinit₁
    exact hfull
  | kmalloc _ hserve hgap hcall ih => exact ih.kmalloc hserve hgap hcall
  | kfree _ hx hcall ih => exact ih.kfree hx hcall
  | write _ hx hlo hhi hstore ih => exact ih.write hx hlo hhi hstore

/-- **The heap loses no memory** over runs in which no growing request leaves a rest of 1 to 20
bytes of its last page: the blocks tile it, and whenever nothing is live they are one. The next
request keeps it so exactly if it leaves no such rest. A rest of that size has no room for a header
and more than four bytes, and `expand_heap` gives it to nobody. -/
theorem blocks_tile (s : Ideal) (hs : s.Ready) {h : Heap Ideal} {live : List (Nat × Nat)}
    (hrun : ServedRun LeavesNoGap s h live) :
    (∃ bs, Tiled h bs) ∧
    (live = [] → Tiled h [⟨paVa (s.supply s.calls),
      h.heapLimit - paVa (s.supply s.calls) - 16, true⟩]) ∧
    ∀ n, Serves h n → ∃ p h', kmalloc idealPager h n = some (p, h') ∧
      ((∃ bs, Tiled h' bs) ↔ LeavesNoGap h n) := by
  have hfull := hrun.full hs
  refine ⟨hfull.tiled, ?_, fun n hserve => ?_⟩
  · rintro rfl
    exact hfull.single
  · obtain ⟨_, _, _, _, hinv, _⟩ := hfull
    obtain ⟨p, h', hcall, _⟩ := hserve.returns hinv
    exact ⟨p, h', hcall, (hrun.full hs).tiled_iff hserve hcall⟩

/-! ### Two requests for two pages -/

theorem idealPc_ready : idealPc.Ready :=
  ⟨idealPc_start.fresh, idealPc_start.page, idealPc_start.direct, idealPc_start.pos, by decide⟩

/-- On eight pages, the first request needs pages if it asks for more than the first one has,
and it can be served as long as there are that many. -/
theorem first_request {n : Nat} (hbig : 4080 < roundedUp n) (hfew : neededPages n ≤ 7) :
    ∃ h p h', initHeap idealPager idealPc = some h ∧ HeapFull 0xC0200000 h [] ∧
      NeedsPages h n ∧ Serves h n ∧ kmalloc idealPager h n = some (p, h') ∧ p = 0xC0201010 := by
  obtain ⟨h, hinit, hfull, hlimit, hsupply, hcalls⟩ := initHeap_full idealPc_ready
  change HeapFull 0xC0200000 h [] at hfull
  have hfirst : h.firstBlock = 0xC0200000 := hfull.1
  have hlimit : h.heapLimit = 0xC0201000 := by
    rw [hlimit, hfirst]
  have hn : Reasonable n := by
    unfold neededPages at hfew
    unfold Reasonable
    omega
  have hok := hfull
  obtain ⟨_, τ, m, bs, hinv, _, hacc⟩ := hok
  obtain ⟨b, rest, hbs, _⟩ := hinv.nonempty
  have hbs := hacc.single (by rw [hbs]; exact List.cons_ne_nil b rest)
  have hneeds : NeedsPages h n := by
    refine (hinv.needsPages_iff idealLawsAll hn).mpr fun c hc hfit => ?_
    rw [hbs] at hc
    obtain rfl := List.mem_singleton.mp hc
    have hsize : roundedUp n ≤ h.heapLimit - h.firstBlock - 16 := hfit.2
    rw [hlimit, hfirst] at hsize
    omega
  have hserve : Serves h n := by
    refine ⟨hn, fun _ => by omega, fun _ i hi => ?_⟩
    rw [hsupply, hcalls]
    show (if 0 + 1 + i < 8 then 0x200000 + 4096 * (0 + 1 + i) else 0) ≠ 0
    rw [if_pos (by omega)]
    omega
  obtain ⟨p, h', hcall, _⟩ := hserve.returns hinv
  have hp := hserve.grown hinv hneeds (by omega) hcall
  rw [hlimit] at hp
  exact ⟨h, p, h', hinit, hfull, hneeds, hserve, hcall, hp⟩

/-- 5000 bytes leave 3176 of two pages. Given back, they are in the one block there is. -/
theorem blocks_tile_idealPc : ∃ h, ServedRun LeavesNoGap idealPc h [] ∧
    Tiled h [⟨0xC0200000, h.heapLimit - 0xC0200000 - 16, true⟩] := by
  obtain ⟨h, p, h', hinit, hfull, _, hserve, hcall, rfl⟩ :=
    @first_request 5000 (by decide) (by decide)
  have hgap : LeavesNoGap h 5000 := fun _ => Or.inr (by decide)
  have hrun := (ServedRun.init hinit).kmalloc hserve hgap hcall
  rw [if_neg (by decide)] at hrun
  have hfull' := hrun.full idealPc_ready
  obtain ⟨_, _, _, _, hinv, hlive, _⟩ := hfull'
  obtain ⟨b, hb, _, hptr, _⟩ := hlive.block (0xC0201010, 5000) List.mem_cons_self
  obtain ⟨s, _, hfree, _⟩ := kfree_spec idealLawsAll hinv hb
  rw [← hptr] at hfree
  have hrun' := hrun.kfree List.mem_cons_self hfree
  rw [List.erase_cons_head] at hrun'
  exact ⟨_, hrun', (blocks_tile idealPc idealPc_ready hrun').2.1 rfl⟩

/-- 8160 bytes and a header leave 16 bytes of two pages: too few for a free block, and part of no
other. -/
theorem rest_is_lost : ∃ h, ServedRun (fun _ _ => True) idealPc h [(0xC0201010, 8160)] ∧
    ¬ ∃ bs, Tiled h bs := by
  obtain ⟨h, p, h', hinit, hfull, hneeds, hserve, hcall, rfl⟩ :=
    @first_request 8160 (by decide) (by decide)
  have hstart : ServedRun (fun _ _ => True) idealPc h [] := .init hinit
  have hrun := hstart.kmalloc hserve trivial hcall
  rw [if_neg (by decide)] at hrun
  refine ⟨h', hrun, fun htiled => ?_⟩
  have hgap := (hfull.tiled_iff hserve hcall).mp htiled hneeds
  exact absurd hgap (by decide)

end ScratchOs.Mem
