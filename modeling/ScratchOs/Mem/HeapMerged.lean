import ScratchOs.Mem.HeapRuns

/-!
# Free blocks are merged

`coalesce_free_blocks` walks the list once. After a merge it stays where it is, so a run of free
blocks ends up in the first of them, however long it is. `Coalesced` says what is left of a list
of which nothing is known but that it is one (`WellFormed`).

`kfree` merges each time, and neither a split nor new pages put two free blocks side by side. So
in a run without wrapping requests there never are two (`free_space_merged`), and what
`kmalloc` takes off a block `kfree` puts back (`kmalloc_kfree`).

The pass is looked at twice, because it is asked two questions. On any list that is well formed it
ends, keeps what is in use, adds up what is free and does nothing when it is made again; there is no
history in that. In a run there is a history, and the answer is shorter: the list it is given has at
most the one pair, or triple, that the call before has made.

That `kmalloc` and `kfree` undo each other rests on both. Carving cuts a block in two; giving the
first half back makes it free next to the second; and that the merge stops at the old end is
because what was there before did not have a free neighbour either.
-/

set_option autoImplicit false

namespace ScratchOs.Mem

open AddressSpace Bits FreeList

/-! ## Any list -/

section Pass

variable {σ : Type} [AddressSpace σ]

/-- `first_block` is set, and the blocks from it on lie one behind the other in `[lo, hi)`, which
is memory. -/
structure WellFormed (s : σ) (lo hi : Nat) (τ : Nat → Nat) (first : Nat) (bs : List Block) :
    Prop where
  window : Window s lo hi τ
  below : hi ≤ 4294967296
  isSet : first ≠ 0
  list : BlockList s first bs
  inside : ∀ b ∈ bs, lo ≤ b.addr ∧ b.addr + 16 + b.size ≤ hi
  ordered : bs.Pairwise fun b c => b.addr + 16 + b.size ≤ c.addr

/-- What `coalesce_free_blocks` leaves of the list `bs`. `run` has the sizes as they come out: the
headers of all blocks of a run but the first are payload afterwards. -/
structure Coalesced (bs cs : List Block) : Prop where
  kept : ∀ b, b.free = false → (b ∈ cs ↔ b ∈ bs)
  /-- Each maximal run of free blocks is one now, and between the runs there is what there was. -/
  run : ∀ pre b run post, bs = pre ++ b :: (run ++ post) → b.free = true →
    (∀ c ∈ run, c.free = true) → (∀ c ∈ pre.getLast?, c.free = false) →
    (∀ c ∈ post.head?, c.free = false) →
    cs = coalesce 16 pre ++ ⟨b.addr, ((b :: run).map Block.size).sum +
      16 * ((b :: run).length - 1), true⟩ :: coalesce 16 post
  merged : Merged cs

/-- The size of a merged run as a sum. -/
theorem mergeRun_eq (hdr : Nat) (b : Block) (run : List Block) : mergeRun hdr b run =
    ⟨b.addr, ((b :: run).map Block.size).sum + hdr * ((b :: run).length - 1), true⟩ := by
  have hfold : ∀ size : Nat, run.foldl (fun size c => size + (c.size + hdr)) size =
      size + (run.map Block.size).sum + hdr * run.length := by
    induction run with
    | nil => simp
    | cons c run ih =>
      intro size
      rw [List.foldl_cons, ih, List.map_cons, List.sum_cons, List.length_cons, Nat.mul_succ]
      omega
  rw [mergeRun, hfold, List.map_cons, List.sum_cons, List.length_cons, Nat.add_sub_cancel]

/-- It is what the abstract pass leaves. -/
theorem coalesced (bs : List Block) : Coalesced bs (coalesce 16 bs) where
  kept b hb := ⟨mem_of_mem_coalesce hb, mem_coalesce hb⟩
  run := by
    rintro pre b run post rfl hb hrun hpre hpost
    rw [← mergeRun_eq]
    exact coalesce_maximal hb hrun hpre hpost
  merged := merged_coalesce bs

/-- A list seen through loads is one in the window's memory. -/
theorem BlockList.seg {s : σ} {lo hi : Nat} {τ : Nat → Nat} {m : Bytes.Mem}
    (hshow : Shows s lo hi τ m) {bs : List Block} :
    ∀ {a : Nat}, BlockList s a bs → (∀ b ∈ bs, lo ≤ b.addr ∧ b.addr + 16 + b.size ≤ hi) →
      Seg m a bs 0 := by
  induction bs with
  | nil => exact fun h _ => h
  | cons b bs ih =>
    rintro a ⟨rfl, _, hsize, hfree, next, hnext, hrest⟩ hin
    have hb := hin b List.mem_cons_self
    rw [loadSize_eq hshow hb.1 (by omega)] at hsize
    rw [loadFree_eq hshow hb.1 (by omega)] at hfree
    rw [loadNext_eq hshow hb.1 (by omega)] at hnext
    refine ⟨rfl, ⟨Option.some.inj hsize, Option.some.inj hfree⟩, ?_⟩
    rw [Option.some.inj hnext]
    exact ih hrest fun c hc => hin c (List.mem_cons_of_mem b hc)

/-- Blocks in order are laid out, in units of one byte: nothing is said of their alignment here. -/
theorem laid_of_ordered {lo hi : Nat} {bs : List Block} (hle : lo ≤ hi)
    (hin : ∀ b ∈ bs, lo ≤ b.addr ∧ b.addr + 16 + b.size ≤ hi)
    (hord : bs.Pairwise fun b c => b.addr + 16 + b.size ≤ c.addr) : Laid 16 1 hi lo bs := by
  induction bs generalizing lo with
  | nil => exact hle
  | cons b bs ih =>
    obtain ⟨hb, hrest⟩ := List.pairwise_cons.mp hord
    have hbin := hin b List.mem_cons_self
    refine ⟨hbin.1, Nat.mod_one _, Nat.mod_one _, ih hbin.2 ?_ hrest⟩
    intro c hc
    exact ⟨hb c hc, (hin c (List.mem_cons_of_mem b hc)).2⟩

/-- Where nothing can be merged the pass writes nothing. By induction on the list: each turn goes on
to the next block, and the machine is the same one. -/
theorem coalesceFrom_merged {s : σ} {bs : List Block} :
    ∀ {b : Block} {fuel : Nat}, BlockList s b.addr (b :: bs) → Merged (b :: bs) →
      bs.length < fuel → coalesceFrom fuel s b.addr = some s := by
  induction bs with
  | nil =>
    intro b fuel hlist _ hfuel
    obtain ⟨_, _, _, _, next, hnext, hend⟩ := hlist
    obtain ⟨fuel, rfl⟩ := Nat.exists_eq_succ_of_ne_zero (Nat.ne_of_gt hfuel)
    obtain rfl : next = 0 := hend
    rw [coalesceFrom, hnext]
    rfl
  | cons c bs ih =>
    intro b fuel hlist hmerged hfuel
    obtain ⟨_, _, _, hfree, next, hnext, hrest⟩ := hlist
    obtain ⟨fuel, rfl⟩ := Nat.exists_eq_succ_of_ne_zero (Nat.ne_of_gt (Nat.zero_lt_of_lt hfuel))
    obtain ⟨hbc, hmerged⟩ := List.isChain_cons_cons.mp hmerged
    obtain rfl : next = c.addr := hrest.1
    have hc : loadFree s c.addr = some c.free := hrest.2.2.2.1
    have hgo := ih hrest hmerged (Nat.lt_of_succ_lt_succ hfuel)
    rw [coalesceFrom, hnext]
    simp only [Option.bind_eq_bind, Option.bind_some]
    rw [if_neg hrest.2.1, hfree]
    rcases hbc with hb | hcf
    · simpa [hb] using hgo
    · rw [hcf] at hc
      cases hbf : b.free with
      | false => simpa using hgo
      | true => simpa [hc] using hgo

/-- **The pass over any list** comes to its end, does what `Coalesced` says, and does nothing when
it is made again. The list need not be one that `kmalloc` and `kfree` can lead to, and its blocks
may have gaps between them and be on odd addresses. -/
theorem WellFormed.coalesce {s : σ} {lo hi first : Nat} {τ : Nat → Nat} {bs : List Block}
    (h : WellFormed s lo hi τ first bs) :
    ∃ s' cs, coalesceFreeBlocks s first = some s' ∧ BlockList s' first cs ∧ Coalesced bs cs ∧
      coalesceFreeBlocks s' first = some s' := by
  have hlist := h.list
  have hin := h.inside
  cases bs with
  | nil => exact absurd h.list h.isSet
  | cons b bs =>
    obtain rfl : first = b.addr := hlist.1
    have hpos := h.isSet
    have hbin := hin b List.mem_cons_self
    have hwin := h.window.narrow hbin.1
    -- From the first block on.
    have hfrom : ∀ c ∈ b :: bs, b.addr ≤ c.addr ∧ c.addr + 16 + c.size ≤ hi := by
      intro c hc
      refine ⟨?_, (hin c hc).2⟩
      rcases List.mem_cons.mp hc with rfl | hc
      · exact Nat.le_refl _
      · have := (List.pairwise_cons.mp h.ordered).1 c hc
        omega
    have hshow : Shows s b.addr hi τ (fun a => mem s (τ a)) := ⟨hwin, fun _ _ _ => rfl⟩
    have hlaid : Laid 16 1 hi b.addr (b :: bs) := laid_of_ordered (by omega) hfrom h.ordered
    have hseg := hlist.seg hshow hfrom
    have hlen := hlaid.length_le
    have hbelow := h.below
    rw [List.length_cons] at hlen
    obtain ⟨s', m', hrun, v, hseg', _⟩ := coalesceFrom_eq (Nat.mod_one 16) (Nat.pos_of_ne_zero hpos)
      h.below 4294967296 hshow.view (Nat.le_refl _) hlaid hseg (by omega)
    have hlaid' := hlaid.coalesce (Nat.mod_one 16)
    have hlist' := hseg'.blockList v.shows (Nat.pos_of_ne_zero hpos) (Nat.le_refl _) hlaid'
    refine ⟨s', _, hrun, hlist', coalesced _, ?_⟩
    have hlen' := hlaid'.length_le
    have hmerged : Merged (FreeList.coalesce 16 (b :: bs)) := merged_coalesce _
    -- The first block stays the first.
    generalize FreeList.coalesce 16 (b :: bs) = cs at hlist' hlen' hmerged
    cases cs with
    | nil => exact absurd hlist' hpos
    | cons c cs =>
      have hc : b.addr = c.addr := hlist'.1
      rw [List.length_cons] at hlen'
      rw [hc] at hlist' ⊢
      exact coalesceFrom_merged hlist' hmerged (by omega)

end Pass

/-! ## Every state of a run -/

section Runs

variable {σ : Type} [AddressSpace σ] {pager : Pager σ}
  {Owns : σ → Nat → Nat → (Nat → Nat) → Prop} {top : Nat}

/-- The list of a heap in order is one the pass can be made over. -/
theorem HeapInv.wellFormed (laws : PagerLaws pager top Owns) {h : Heap σ} {τ : Nat → Nat}
    {m : Bytes.Mem} {bs : List Block} (hinv : HeapInv top Owns h τ m bs) :
    WellFormed h.machine h.firstBlock h.heapLimit τ h.firstBlock bs where
  window := laws.window hinv.owns
  below := Nat.le_of_lt (hinv.limit_lt laws)
  isSet := Nat.ne_of_gt hinv.pos
  list := hinv.blockList laws
  inside _ hb := hinv.inside hb
  ordered := hinv.laid.pairwise

end Runs

/-- **Free space is merged** in every state that requests without wrapping lead to, and the pass
that does it does it for every list. In the run a `kmalloc` has to keep the neighbours apart as
well, since it makes free blocks of what it splits off: its free rest has the part in use in front
of it and a block in use behind it. -/
theorem free_space_merged :
    (∀ s : Ideal, s.Ready → ∀ h live, CallRun idealPager NoWrap s h live →
      ∃ bs, BlockList h.machine h.firstBlock bs ∧ Merged bs) ∧
    ∀ {σ : Type} [AddressSpace σ] (s : σ) (lo hi first : Nat) (τ : Nat → Nat) (bs : List Block),
      WellFormed s lo hi τ first bs →
        ∃ s' cs, coalesceFreeBlocks s first = some s' ∧ BlockList s' first cs ∧ Coalesced bs cs ∧
          coalesceFreeBlocks s' first = some s' := by
  constructor
  · intro s hs h live hrun
    obtain ⟨_, _, _, bs, hinv, _, hmerged, _⟩ := hrun.ideal (fun _ _ hwrap => hwrap) hs
    exact ⟨bs, hinv.blockList idealLawsAll, hmerged⟩
  · intro σ _ s lo hi first τ bs hwf
    exact hwf.coalesce

/-- After 5000 bytes on two new pages. -/
theorem free_space_merged_idealPc : ∃ h, CallRun idealPager NoWrap idealPc h [(0xC0201010, 5000)] ∧
    (∃ bs, BlockList h.machine h.firstBlock bs ∧ Merged bs) ∧
    ∃ s', coalesceFreeBlocks h.machine h.firstBlock = some s' := by
  obtain ⟨h, p, h', hinit, _, _, hserve, hcall, rfl⟩ :=
    @first_request 5000 (by decide) (by decide)
  have hrun := (CallRun.init hinit).kmalloc (by decide) hserve.noWrapping hcall
  rw [if_neg (by decide)] at hrun
  obtain ⟨_, _, _, _, hinv, _⟩ := hrun.ideal (fun _ _ hwrap => hwrap) idealPc_ready
  obtain ⟨s', _, hpass, _⟩ := free_space_merged.2 _ _ _ _ _ _ (hinv.wellFormed idealLawsAll)
  exact ⟨h', hrun, free_space_merged.1 idealPc idealPc_ready h' _ hrun, s', hpass⟩

/-! ## There and back -/

/-- What `print_heap_info` prints: address, size and `is_free` of each block. -/
def printHeapInfo {σ : Type} [AddressSpace σ] (s : σ) : Nat → Nat → Option (List Block)
  | 0, _ => none
  | fuel + 1, currentBlock => do
    if currentBlock = 0 then some []
    else
      let size ← loadSize s currentBlock
      let isFree ← loadFree s currentBlock
      let next ← loadNext s currentBlock
      let rest ← printHeapInfo s fuel next
      some (⟨currentBlock, size, isFree⟩ :: rest)

/-- What has been printed is the list. -/
theorem printHeapInfo_blockList {σ : Type} [AddressSpace σ] {s : σ} {bs : List Block} :
    ∀ {fuel a : Nat}, printHeapInfo s fuel a = some bs → BlockList s a bs := by
  induction bs with
  | nil =>
    intro fuel a hprint
    cases fuel with
    | zero => exact absurd hprint (by simp [printHeapInfo])
    | succ fuel =>
      by_cases ha : a = 0
      · exact ha
      · rw [printHeapInfo, if_neg ha] at hprint
        simp [Option.bind_eq_some_iff] at hprint
  | cons b bs ih =>
    intro fuel a hprint
    cases fuel with
    | zero => exact absurd hprint (by simp [printHeapInfo])
    | succ fuel =>
      by_cases ha : a = 0
      · rw [printHeapInfo, if_pos ha] at hprint
        exact absurd hprint (by simp)
      · rw [printHeapInfo, if_neg ha] at hprint
        obtain ⟨size, hsize, hprint⟩ := Option.bind_eq_some_iff.mp hprint
        obtain ⟨free, hfree, hprint⟩ := Option.bind_eq_some_iff.mp hprint
        obtain ⟨next, hnext, hprint⟩ := Option.bind_eq_some_iff.mp hprint
        obtain ⟨rest, hrest, hprint⟩ := Option.bind_eq_some_iff.mp hprint
        obtain ⟨rfl, rfl⟩ := List.cons.inj (Option.some.inj hprint)
        exact ⟨rfl, ha, hsize, hfree, next, hnext, ih hrest⟩

/-- If a free block is large enough for `kmalloc(n)`, giving what it returns back to `kfree` leaves
the list of blocks and the limit as they were. No page is asked for. -/
def FreeUndoes (h : Heap Ideal) (n : Nat) : Prop :=
  ∀ bs, BlockList h.machine h.firstBlock bs → roundSize n ≠ 0 →
    (∃ b ∈ bs, b.free = true ∧ roundSize n ≤ b.size) →
    ∃ p h₁ h₂, kmalloc idealPager h n = some (p, h₁) ∧ p ≠ 0 ∧ kfree h₁ p = some h₂ ∧
      BlockList h₂.machine h₂.firstBlock bs ∧ h₂.heapLimit = h.heapLimit ∧
      h₁.machine.calls = h.machine.calls ∧ h₂.machine.calls = h.machine.calls

/-- Of the four ways a `kmalloc` can end only one is left when a free block is large enough. The
block is carved, `kfree` finds the part in use by its address, and the merge puts the two parts
together (`coalesce_release_carve`). -/
theorem HeapInv.freeUndoes {h : Heap Ideal} {τ : Nat → Nat} {m : Bytes.Mem} {bs : List Block}
    {n : Nat} (hinv : HeapInv 4294967295 Ideal.Owns h τ m bs) (hmerged : Merged bs)
    (hn : n < 4294967296) : FreeUndoes h n := by
  intro cs hlist hzero hfit
  obtain rfl := (hinv.blockList idealLawsAll).unique hlist
  obtain ⟨c, hc, hfree, hsize⟩ := hfit
  have hfits : ¬ NeedsPages h n := fun hneeds =>
    (hinv.needsPages idealLawsAll n).mp hneeds c hc ⟨hfree, hsize⟩
  have hreason := hinv.reasonable idealLawsAll hn hzero hfits
  rcases kmalloc_cases idealLawsAll hinv hreason with
    ⟨hz, _⟩ | ⟨pre, b, post, s, rfl, hfit, huse, hcall, _⟩ | ⟨_, _, _, hnone, _⟩
  · exact absurd ((roundSize_eq hreason).trans hz) hzero
  · obtain ⟨s', m', huse', hinv', hgrant, _, htouch, _⟩ :=
      useBlock_spec idealLawsAll hinv hfit (Nat.mul_mod_left _ _)
    rw [huse] at huse'
    obtain rfl := Option.some.inj huse'
    obtain ⟨u, hu, _, hptr, _⟩ := hgrant.block
    have haddr : u.addr = b.addr := by omega
    obtain ⟨s₂, _, hfreed, hinv₂, _, _, htouch₂, _⟩ := kfree_spec idealLawsAll hinv' hu
    have hback := coalesce_release_carve (by decide) hinv.laid hmerged hfit.1 hfit.2
      (by decide : 16 ≤ 20)
    rw [haddr] at hfreed hinv₂
    rw [hback] at hinv₂
    -- Both calls only write.
    obtain ⟨m₁, rfl, _⟩ := htouch
    obtain ⟨m₂, rfl, _⟩ := htouch₂
    exact ⟨_, _, _, hcall, Nat.succ_ne_zero _, hfreed, hinv₂.blockList idealLawsAll, rfl, rfl, rfl⟩
  · refine absurd ⟨hfree, ?_⟩ (hnone c hc)
    rw [← roundSize_eq hreason]
    exact hsize

/-- **`kfree` undoes `kmalloc`** in every state that requests without wrapping lead to, when a free
block was large enough. -/
theorem kmalloc_kfree (s : Ideal) (hs : s.Ready) {h : Heap Ideal} {live : List (Nat × Nat)}
    (hrun : CallRun idealPager NoWrap s h live) {n : Nat} (hn : n < 4294967296) :
    FreeUndoes h n := by
  obtain ⟨_, _, _, _, hinv, _, hmerged, _⟩ := hrun.ideal (fun _ _ hwrap => hwrap) hs
  exact hinv.freeUndoes hmerged hn

/-- 100 bytes off the first page. -/
theorem kmalloc_kfree_idealPc : ∃ h, CallRun idealPager NoWrap idealPc h [] ∧
    ∃ bs, BlockList h.machine h.firstBlock bs ∧ ∃ p h₁ h₂,
      kmalloc idealPager h 100 = some (p, h₁) ∧ kfree h₁ p = some h₂ ∧
      BlockList h₂.machine h₂.firstBlock bs := by
  obtain ⟨h, m, hinit, _, _, _, hinv, _⟩ := initHeap_spec idealLawsAll idealPc_start.owns
    idealPc_start.pos (by decide) (by decide)
  have hrun : CallRun idealPager NoWrap idealPc h [] := .init hinit
  have hlist := hinv.blockList idealLawsAll
  obtain ⟨p, h₁, h₂, hcall, _, hfree, hlist₂, _⟩ :=
    kmalloc_kfree idealPc idealPc_ready hrun (by decide : 100 < 4294967296) _ hlist (by decide)
      ⟨_, List.mem_cons_self, rfl, show roundSize 100 ≤ 4080 by decide⟩
  exact ⟨h, hrun, _, hlist, p, h₁, h₂, hcall, hfree, hlist₂⟩

/-- 12 bytes less than 4 GiB come to one page, and the header of what is left of it is written
over the new one. Now three free blocks follow each other, and giving back the first merges them. -/
theorem free_after_wrap : ∃ h live, CallRun idealPager (fun _ _ => True) idealPc h live ∧
    ¬ FreeUndoes h 4080 := by
  have hrun : ((initHeap idealPager idealPc).bind fun h =>
      (kmalloc idealPager h 0xFFFFFFF4).bind fun r =>
        (printHeapInfo r.2.machine 4 r.2.firstBlock).bind fun bs =>
          (kmalloc idealPager r.2 4080).bind fun r₁ =>
            (kfree r₁.2 r₁.1).bind fun h₂ =>
              (printHeapInfo h₂.machine 4 h₂.firstBlock).map (bs, ·)) =
      some ([⟨0xC0200000, 4080, true⟩, ⟨0xC0201000, 0xFFFFFFF4, true⟩, ⟨0xC0201004, 4076, true⟩],
        [⟨0xC0200000, 8176, true⟩]) := by decide +kernel
  obtain ⟨h₀, hinit, hrun⟩ := Option.bind_eq_some_iff.mp hrun
  obtain ⟨⟨q, h⟩, hwrap, hrun⟩ := Option.bind_eq_some_iff.mp hrun
  obtain ⟨bs, hbs, hrun⟩ := Option.bind_eq_some_iff.mp hrun
  obtain ⟨⟨p, h₁⟩, hcall, hrun⟩ := Option.bind_eq_some_iff.mp hrun
  obtain ⟨h₂, hfree, hrun⟩ := Option.bind_eq_some_iff.mp hrun
  obtain ⟨cs, hcs, hlists⟩ := Option.map_eq_some_iff.mp hrun
  obtain ⟨rfl, rfl⟩ := Prod.mk.inj hlists
  refine ⟨h, _, (CallRun.init hinit).kmalloc (by decide) trivial hwrap, fun hundoes => ?_⟩
  obtain ⟨p', h₁', h₂', hcall', _, hfree', hlist, _⟩ := hundoes _ (printHeapInfo_blockList hbs)
    (by decide) ⟨_, List.mem_cons_self, rfl, by decide⟩
  rw [hcall] at hcall'
  obtain ⟨rfl, rfl⟩ := Prod.mk.inj (Option.some.inj hcall')
  rw [hfree] at hfree'
  obtain rfl := Option.some.inj hfree'
  exact absurd (hlist.unique (printHeapInfo_blockList hcs)) (by decide)

end ScratchOs.Mem
