import ScratchOs.Mem.HeapInv

/-!
# `init_heap`, `kmalloc` and `kfree`

Each call keeps `HeapInv`, and `kmalloc_spec` and `kfree_spec` say what it does to the list of
blocks: what is granted was not in use, what was in use stays, and no payload of it is written.
`initHeap_spec` starts the list.

`kmalloc` has four outcomes, and `Allocates` names them: nothing was asked for, a block was used,
pages were added, pages were added and did not suffice. Every later statement about a request, be it
about sizes, gaps, neighbours or frames, is by these four cases, and none of them unfolds `kmalloc`
again.

The specifications have the limit as a condition on where `kmalloc` has left it. That is the form in
which the four cases are proved; `kmalloc_limit` and `kmalloc_stays` then turn it into a condition
on the request, for the callers that have one.
-/

set_option autoImplicit false

namespace ScratchOs.Mem

open AddressSpace Bits FreeList

section Heap

variable {σ : Type} [AddressSpace σ] {pager : Pager σ}
  {Owns : σ → Nat → Nat → (Nat → Nat) → Prop} {top : Nat}

/-! ## `kmalloc` -/

/-- A block of the list that fits is used. The header of `b` and a new one inside of it are all that
is written, so the payloads in use, which are in other blocks, are as they were. -/
theorem useBlock_spec (laws : PagerLaws pager top Owns) {h : Heap σ} {τ : Nat → Nat} {m : Bytes.Mem}
    {pre post : List Block} {b : Block} {size : Nat}
    (hinv : HeapInv top Owns h τ m (pre ++ b :: post)) (hfit : Fits size b) (hsize : size % 4 = 0) :
    ∃ s m', useBlock h.machine b.addr size = some s ∧
      HeapInv top Owns { h with machine := s } τ m' (pre ++ (carve 16 20 size b ++ post)) ∧
      Granted (pre ++ b :: post) (pre ++ (carve 16 20 size b ++ post)) (b.addr + 16) size ∧
      KeepsPayloads (pre ++ b :: post) m m' ∧
      Touches τ h.firstBlock h.heapLimit h.machine s ∧
      ∀ p, BackLinks m p (pre ++ b :: post) →
        (BackLinks m' p (pre ++ (carve 16 20 size b ++ post)) ↔
          (20 ≤ b.size - size → post = [])) := by
  have hlim := hinv.limit_lt laws
  have hbmem : b ∈ pre ++ b :: post := by simp
  obtain ⟨s, m', hrun, v, hseg, hframe, hback⟩ :=
    useBlock_eq (hinv.view laws) (by omega) hinv.laid hinv.chain hfit.2
  obtain ⟨_, _, hlo, ha, hs, hpost⟩ := laid_append.mp hinv.laid
  have hone : Laid 16 4 (b.stop 16) b.addr [b] := ⟨Nat.le_refl _, ha, hs, Nat.le_refl _⟩
  have hlaid := hinv.laid.replace (hone.carve hfit.2 hsize (by decide) (by decide : 16 ≤ 20))
  -- A block in use is another one than `b`, and stays.
  have hother : ∀ c ∈ pre ++ b :: post, c.free = false → c ≠ b := by
    rintro c _ hc rfl
    rw [hfit.1] at hc
    exact absurd hc (by simp)
  refine ⟨s, m', hrun, hinv.after laws v hseg hlaid, ⟨?_, ?_, ?_⟩, ?_, v.touches,
    fun p hlinks => hlinks.carve (fun c hc i hi => hframe _ ?_) hback⟩
  · unfold carve
    split
    · exact ⟨⟨b.addr, size, false⟩, by simp, rfl, rfl, Nat.le_refl _⟩
    · exact ⟨⟨b.addr, b.size, false⟩, by simp, rfl, rfl, hfit.2⟩
  · intro c hc hcf heq
    exact hother c hc hcf (hinv.laid.eq_of_addr (by decide) hc hbmem (by omega))
  · intro c hc hcf
    have hne := hother c hc hcf
    simp only [List.mem_append, List.mem_cons] at hc ⊢
    rcases hc with hc | rfl | hc
    · exact Or.inl hc
    · exact absurd rfl hne
    · exact Or.inr (Or.inr hc)
  · intro c hc hcf a hlo hhi
    have hdis := hinv.laid.disjoint hc hbmem (hother c hc hcf)
    refine hframe a ?_
    unfold Block.stop at hdis hhi ⊢
    omega
  · -- `prev` of the block itself is not written either.
    by_cases heq : c = b
    · subst heq
      omega
    · have hdis := hinv.laid.disjoint hc hbmem heq
      unfold Block.stop at hdis ⊢
      omega

/-- New pages are put behind the last block. There are two heaps here: `h` is the one that was
searched, and `h'` the one with its pages, in which the list of blocks does not reach to the limit
until the new block is linked in. -/
theorem appendBlock_spec (laws : PagerLaws pager top Owns) {h h' : Heap σ} {τ τ' : Nat → Nat}
    {m m' : Bytes.Mem} {pre : List Block} {l : Block} {pages size : Nat}
    (hinv : HeapInv top Owns h τ m (pre ++ [l])) (hinv' : HeapInv top Owns h' τ' m' (pre ++ [l]))
    (hfirst : h'.firstBlock = h.firstBlock) (hgrown : h'.heapLimit = h.heapLimit + pages * 4096)
    (hsize : size % 4 = 0) (hfit : size + 16 ≤ pages * 4096) :
    ∃ s m'', appendBlock h'.machine h.heapLimit (size + 16) pages size l.addr = some s ∧
      HeapInv top Owns { h' with machine := s } τ' m''
        (pre ++ [l] ++ fresh 16 20 h.heapLimit (pages * 4096) size) ∧
      Granted (pre ++ [l]) (pre ++ [l] ++ fresh 16 20 h.heapLimit (pages * 4096) size)
        (h.heapLimit + 16) size ∧
      KeepsPayloads (pre ++ [l]) m' m'' ∧
      Touches τ' h'.firstBlock h'.heapLimit h'.machine s ∧
      ∀ p, BackLinks m' p (pre ++ [l]) →
        BackLinks m'' p (pre ++ [l] ++ fresh 16 20 h.heapLimit (pages * 4096) size) := by
  have hlim := hinv'.limit_lt laws
  have hpage := hinv.page
  have hv := hinv'.view laws
  have hlaid' := hinv.laid
  rw [← hfirst] at hlaid'
  rw [hgrown] at hv hlim
  obtain ⟨s, m'', hrun, v, hseg, hframe, hback⟩ :=
    appendBlock_eq hv (by omega) hlaid' hinv'.chain hfit
  have hfresh : Laid 16 4 h'.heapLimit h.heapLimit
      (fresh 16 20 h.heapLimit (pages * 4096) size) := by
    rw [hgrown]
    exact laid_fresh (by omega) (by omega) hsize (by decide) (by decide) hfit
  have hlaid := laid_append.mpr ⟨h.heapLimit, hlaid', hfresh⟩
  rw [← hgrown] at v
  refine ⟨s, m'', hrun, hinv'.after laws v hseg hlaid, ⟨?_, ?_, ?_⟩, ?_, v.touches, hback⟩
  · exact ⟨⟨h.heapLimit, size, false⟩, by simp [fresh], rfl, rfl, Nat.le_refl _⟩
  · intro c hc _ heq
    have hin := hinv.inside hc
    omega
  · exact fun c hc _ => List.mem_append_left _ hc
  · intro c hc hcf a hlo hhi
    have hcl := (hinv.laid.mem hc).2.1
    refine hframe a (by omega) ?_
    by_cases hcl : c = l
    · subst hcl
      omega
    · have := hinv.laid.disjoint hc (by simp) hcl
      unfold Block.stop at this hhi
      omega

/-- The search over the whole list: it comes to a block that fits, or it has the last block in hand.
The list is never empty, so there is a last one. -/
theorem HeapInv.find (laws : PagerLaws pager top Owns) {h : Heap σ} {τ : Nat → Nat} {m : Bytes.Mem}
    {bs : List Block} (hinv : HeapInv top Owns h τ m bs) (size : Nat) :
    (∃ pre b post prev, bs = pre ++ b :: post ∧ Fits size b ∧ b.addr ≠ 0 ∧
      findFit h.machine size 4294967296 h.firstBlock h.firstBlock = some (b.addr, prev)) ∨
    ∃ pre l, bs = pre ++ [l] ∧ l.addr ≠ 0 ∧ (∀ c ∈ bs, ¬ Fits size c) ∧
      findFit h.machine size 4294967296 h.firstBlock h.firstBlock = some (0, l.addr) := by
  have hne : ∀ b ∈ bs, b.addr ≠ 0 := fun b hb => hinv.addr_ne hb
  rcases findFit_eq (hinv.view laws).shows hinv.pos size h.firstBlock (Nat.le_refl _) hinv.laid
    hinv.chain (hinv.length_lt laws) with ⟨pre, b, post, prev, rfl, hfit, _, hfind⟩ | ⟨hnone, hfind⟩
  · exact Or.inl ⟨pre, b, post, prev, rfl, hfit, hne b (by simp), hfind⟩
  · obtain ⟨b, rest, rfl, _⟩ := hinv.nonempty
    have hlast := List.dropLast_append_getLast (List.cons_ne_nil b rest)
    refine Or.inr ⟨_, _, hlast.symm, hne _ (List.getLast_mem _), hnone, hfind.trans ?_⟩
    rw [List.getLast?_eq_some_getLast (List.cons_ne_nil b rest)]
    rfl

/-- `kmalloc`, once the search has found a block. -/
theorem kmalloc_found {h : Heap σ} {n currentBlock lastBlock : Nat} (hn : roundSize n ≠ 0)
    (hfind : findFit h.machine (roundSize n) 4294967296 h.firstBlock h.firstBlock =
      some (currentBlock, lastBlock)) (hcur : currentBlock ≠ 0) :
    kmalloc pager h n = (useBlock h.machine currentBlock (roundSize n)).bind fun machine =>
      some (u32 (currentBlock + blockHeader), { h with machine }) := by
  rw [kmalloc, if_neg hn, hfind]
  exact if_neg hcur

/-- `kmalloc`, once the search has come to the end. -/
theorem kmalloc_end {h : Heap σ} {n lastBlock : Nat} (hn : roundSize n ≠ 0)
    (hfind : findFit h.machine (roundSize n) 4294967296 h.firstBlock h.firstBlock =
      some (0, lastBlock)) :
    kmalloc pager h n = (expandHeap pager h (roundSize n) lastBlock).bind fun r =>
      if r.1 = 0 then some (0, r.2) else some (u32 (r.1 + blockHeader), r.2) := by
  rw [kmalloc, if_neg hn, hfind]
  simp only [Option.bind_eq_bind, Option.bind_some, if_true]

/-- What `kmalloc` comes down to on a heap that is in order: nothing asked for, a block of the
list, or new pages. `hn` keeps the sums of `kmalloc` and `expand_heap` from wrapping; what happens
when they do is another matter (`HeapRuns`). -/
theorem kmalloc_cases (laws : PagerLaws pager top Owns) {h : Heap σ} {τ : Nat → Nat} {m : Bytes.Mem}
    {bs : List Block} {n : Nat} (hinv : HeapInv top Owns h τ m bs)
    (hn : roundedUp n + 16 + 4095 < 4294967296) :
    (roundedUp n = 0 ∧ kmalloc pager h n = some (0, h)) ∨
    (∃ pre b post s, bs = pre ++ b :: post ∧ Fits (roundedUp n) b ∧
      useBlock h.machine b.addr (roundedUp n) = some s ∧
      kmalloc pager h n = some (b.addr + 16, { h with machine := s }) ∧ ∃ prev,
        findFit h.machine (roundSize n) 4294967296 h.firstBlock h.firstBlock =
          some (b.addr, prev)) ∨
    ∃ pre l, bs = pre ++ [l] ∧ (∀ c ∈ bs, ¬ Fits (roundedUp n) c) ∧ kmalloc pager h n =
      ((growHeap pager ((roundedUp n + 16 + 4095) / 4096) h).bind fun r =>
        if r.1 then
          (appendBlock r.2.machine h.heapLimit (roundedUp n + 16)
            ((roundedUp n + 16 + 4095) / 4096) (roundedUp n) l.addr).bind fun machine =>
              some (h.heapLimit + 16, { r.2 with machine })
        else some (0, r.2)) ∧
      findFit h.machine (roundSize n) 4294967296 h.firstBlock h.firstBlock =
        some (0, l.addr) := by
  have hlim := hinv.limit_lt laws
  have hpage := hinv.page
  have hmod : roundedUp n % 4 = 0 := Nat.mul_mod_left _ _
  have hround := roundSize_eq hn
  by_cases hzero : roundSize n = 0
  · rw [kmalloc, if_pos hzero]
    exact Or.inl ⟨hround.symm.trans hzero, rfl⟩
  rcases hinv.find laws (roundedUp n) with
    ⟨pre, b, post, prev, rfl, hfit, hb, hfind⟩ | ⟨pre, l, rfl, hl, hnone, hfind⟩
  · obtain ⟨s, _, huse, _⟩ := useBlock_spec laws hinv hfit hmod
    rw [← hround] at hfind
    refine Or.inr (Or.inl ⟨pre, b, post, s, rfl, hfit, huse, ?_, prev, hfind⟩)
    have hin := hinv.inside (b := b) (by simp)
    rw [← hround] at huse
    rw [kmalloc_found hzero hfind hb, huse, Option.bind_some, blockHeader, u32_of_lt (by omega)]
  · rw [← hround] at hfind
    refine Or.inr (Or.inr ⟨pre, l, rfl, hnone, ?_, hfind⟩)
    obtain ⟨hneed, hpages⟩ := pages_lt hn
    have hlimne : h.heapLimit ≠ 0 := by
      have := hinv.pos
      have := hinv.laid.le
      omega
    -- `expand_heap` returns the old limit, which is not 0 and not taken for a failure.
    rw [kmalloc_end hzero hfind, hround]
    simp only [expandHeap, hneed, hpages, Option.bind_eq_bind, if_neg hl]
    cases hgrow : growHeap pager ((roundedUp n + 16 + 4095) / 4096) h with
    | none => rfl
    | some r =>
      obtain ⟨ok, h₁⟩ := r
      cases ok with
      | false => rfl
      | true =>
        simp only [Option.bind_some, if_true, Option.bind_assoc, if_neg hlimne]
        rw [blockHeader, u32_of_lt (by omega)]

/-- What `kmalloc(n)` did to the list of blocks, `size` being the size rounded up, and what it
returned. -/
inductive Allocates (pager : Pager σ) (h h' : Heap σ) (bs : List Block) (size : Nat) :
    Nat → List Block → Prop
  | nothing (hzero : size = 0) (hsame : h' = h) : Allocates pager h h' bs size 0 bs
  | used {pre post : List Block} {b : Block} (hbs : bs = pre ++ b :: post) (hfit : Fits size b)
      (hlimit : h'.heapLimit = h.heapLimit) :
      Allocates pager h h' bs size (b.addr + 16) (pre ++ (carve 16 20 size b ++ post))
  | grown (hnone : ∀ c ∈ bs, ¬ Fits size c)
      (hlimit : h'.heapLimit = h.heapLimit + (size + 16 + 4095) / 4096 * 4096) :
      Allocates pager h h' bs size (h.heapLimit + 16)
        (bs ++ fresh 16 20 h.heapLimit ((size + 16 + 4095) / 4096 * 4096) size)
  | failed (hnone : ∀ c ∈ bs, ¬ Fits size c)
      (hgrow : growHeap pager ((size + 16 + 4095) / 4096) h = some (false, h')) :
      Allocates pager h h' bs size 0 bs

/-- If `kmalloc(n)` cuts a block in two, it is the last one of the list: no block behind it has a
`prev` to be moved. -/
def SplitsOnlyLast (h : Heap σ) (n : Nat) : Prop :=
  roundSize n = 0 ∨ ∀ block last size next,
    findFit h.machine (roundSize n) 4294967296 h.firstBlock h.firstBlock = some (block, last) →
    block ≠ 0 → loadSize h.machine block = some size → loadNext h.machine block = some next →
    blockHeader + 4 ≤ size - roundSize n → next = 0

/-- A request that is served from new pages splits no block of the list. -/
theorem splitsOnlyLast_end {h : Heap σ} {n last : Nat}
    (hfind : findFit h.machine (roundSize n) 4294967296 h.firstBlock h.firstBlock =
      some (0, last)) : SplitsOnlyLast h n := by
  refine Or.inr fun block last' size next hfind' hblock => absurd ?_ hblock
  rw [hfind] at hfind'
  exact (Prod.mk.inj (Option.some.inj hfind')).1.symm

/-- The condition is about what `kmalloc` reads; on a heap that is in order it is about the list. -/
theorem HeapInv.splitsOnlyLast_iff (laws : PagerLaws pager top Owns) {h : Heap σ} {τ : Nat → Nat}
    {m : Bytes.Mem} {pre post : List Block} {b : Block} {n prev : Nat}
    (hinv : HeapInv top Owns h τ m (pre ++ b :: post)) (hn : roundSize n ≠ 0)
    (hfind : findFit h.machine (roundSize n) 4294967296 h.firstBlock h.firstBlock =
      some (b.addr, prev)) :
    SplitsOnlyLast h n ↔ (20 ≤ b.size - roundSize n → post = []) := by
  have hsize := hinv.reads_size laws (b := b) (by simp)
  have hnext := hinv.reads_next laws
  have hend : (post.head?.map Block.addr).getD 0 = 0 ↔ post = [] := by
    cases post with
    | nil => exact ⟨fun _ => rfl, fun _ => rfl⟩
    | cons c cs =>
      have hc := hinv.addr_ne (b := c) (by simp)
      exact ⟨fun h => absurd h hc, fun h => absurd h (List.cons_ne_nil c cs)⟩
  rw [← hend]
  constructor
  · rintro (hzero | hall) hsplit
    · exact absurd hzero hn
    · exact hall _ _ _ _ hfind (hinv.addr_ne (by simp)) hsize hnext hsplit
  · intro hlast
    refine Or.inr fun block last size next hfind' _ hsize' hnext' hsplit => ?_
    rw [hfind] at hfind'
    obtain ⟨rfl, rfl⟩ := Prod.mk.inj (Option.some.inj hfind')
    rw [hsize] at hsize'
    rw [hnext] at hnext'
    obtain rfl := Option.some.inj hsize'
    obtain rfl := Option.some.inj hnext'
    exact hlast hsplit

/-- **`kmalloc` keeps the heap**, and what it returns, if not 0, is a block of the heap that
nobody was using. As long as the limit stays where it should. It keeps the back links too, if
it does not split a block in the middle of the list.

`τ'` is another translation than `τ` only where pages were added, and then also when there were not
enough of them: `expand_heap` does not give back what it has mapped. -/
theorem kmalloc_spec (laws : PagerLaws pager top Owns) {h h' : Heap σ} {τ : Nat → Nat}
    {m : Bytes.Mem} {bs : List Block} {n p : Nat} (hinv : HeapInv top Owns h τ m bs)
    (hn : roundedUp n + 16 + 4095 < 4294967296) (hrun : kmalloc pager h n = some (p, h'))
    (hle : h.heapLimit ≤ h'.heapLimit) (hlim : h'.heapLimit ≤ top) :
    h'.firstBlock = h.firstBlock ∧ ∃ τ' m' bs', HeapInv top Owns h' τ' m' bs' ∧
      (p = 0 ∧ bs' = bs ∨ Granted bs bs' p (roundedUp n)) ∧ KeepsPayloads bs m m' ∧
      Allocates pager h h' bs (roundedUp n) p bs' ∧
      ∀ q, BackLinks m q bs → (BackLinks m' q bs' ↔ SplitsOnlyLast h n) := by
  have hmod : roundedUp n % 4 = 0 := Nat.mul_mod_left _ _
  have hround := roundSize_eq hn
  rcases kmalloc_cases laws hinv hn with ⟨hzero, heq⟩ |
    ⟨pre, b, post, s, rfl, hfit, huse, heq, prev, hfind⟩ | ⟨pre, l, rfl, hnone, heq, hfind⟩
  · rw [heq] at hrun
    obtain ⟨rfl, rfl⟩ := Prod.mk.inj (Option.some.inj hrun)
    exact ⟨rfl, τ, m, bs, hinv, Or.inl ⟨rfl, rfl⟩, fun _ _ _ _ _ _ => rfl, .nothing hzero rfl,
      fun q hlinks => ⟨fun _ => Or.inl (hround.trans hzero), fun _ => hlinks⟩⟩
  · rw [heq] at hrun
    obtain ⟨rfl, rfl⟩ := Prod.mk.inj (Option.some.inj hrun)
    obtain ⟨s', m', huse', hinv', hgrant, hkeep, _, hback⟩ := useBlock_spec laws hinv hfit hmod
    rw [huse] at huse'
    obtain rfl := Option.some.inj huse'
    refine ⟨rfl, τ, m', _, hinv', Or.inr hgrant, hkeep, .used rfl hfit rfl, fun q hlinks => ?_⟩
    by_cases hzero : roundSize n = 0
    · -- The search is not made for nothing; `kmalloc` has returned 0.
      rw [kmalloc, if_pos hzero] at heq
      have hp := (Prod.mk.inj (Option.some.inj heq)).1
      exact absurd hp.symm (Nat.succ_ne_zero _)
    · rw [hback q hlinks, hinv.splitsOnlyLast_iff laws hzero hfind, hround]
  · rw [heq] at hrun
    have hlast := splitsOnlyLast_end hfind
    obtain ⟨⟨ok, h₂⟩, hgrow, hrest⟩ := Option.bind_eq_some_iff.mp hrun
    have hlt : (roundedUp n + 16 + 4095) / 4096 < 1048576 := by omega
    cases ok with
    | false =>
      -- The pages ran out half way: those mapped belong to no block.
      obtain ⟨rfl, rfl⟩ := Prod.mk.inj (Option.some.inj hrest)
      obtain ⟨hfirst, _, τ', m', hinv', hm⟩ := hinv.grown laws hlt hgrow hle hlim
      exact ⟨hfirst, τ', m', _, hinv', Or.inl ⟨rfl, rfl⟩, KeepsPayloads.of_window hinv hm,
        .failed hnone hgrow, fun q hlinks => ⟨fun _ => hlast, fun _ => hlinks.of_window hinv hm⟩⟩
    | true =>
      obtain ⟨s, happ, hrest⟩ := Option.bind_eq_some_iff.mp hrest
      obtain ⟨rfl, rfl⟩ := Prod.mk.inj (Option.some.inj hrest)
      obtain ⟨hfirst, hlimit, τ', m', hinv', hm⟩ := hinv.grown laws hlt hgrow hle hlim
      obtain ⟨s', m'', happ', hinv'', hgrant, hkeep, _, hback⟩ :=
        appendBlock_spec laws hinv hinv' hfirst (hlimit rfl) hmod (by omega)
      rw [happ] at happ'
      obtain rfl := Option.some.inj happ'
      refine ⟨hfirst, τ', m'', _, hinv'', Or.inr hgrant, fun c hc hcf a hlo hhi => ?_,
        .grown hnone (hlimit rfl), fun q hlinks => ⟨fun _ => hlast, fun _ => ?_⟩⟩
      swap
      · exact hback q (hlinks.of_window hinv hm)
      rw [hkeep c hc hcf a hlo hhi]
      exact KeepsPayloads.of_window hinv hm c hc hcf a hlo hhi

/-- Where `kmalloc` leaves the limit: some pages further, if no block fits, and not necessarily all
of those that were needed. -/
theorem kmalloc_limit (laws : PagerLaws pager top Owns) {h h' : Heap σ} {τ : Nat → Nat}
    {m : Bytes.Mem} {bs : List Block} {n p : Nat} (hinv : HeapInv top Owns h τ m bs)
    (hn : roundedUp n + 16 + 4095 < 4294967296) (hrun : kmalloc pager h n = some (p, h')) :
    h'.heapLimit = h.heapLimit ∨ (∀ c ∈ bs, ¬ Fits (roundedUp n) c) ∧
      ∃ j ≤ (roundedUp n + 16 + 4095) / 4096, h'.heapLimit = u32 (h.heapLimit + j * 4096) := by
  rcases kmalloc_cases laws hinv hn with
    ⟨_, heq⟩ | ⟨_, _, _, _, _, _, _, heq, _⟩ | ⟨_, _, _, hnone, heq, _⟩
  · rw [heq] at hrun
    obtain ⟨rfl, rfl⟩ := Prod.mk.inj (Option.some.inj hrun)
    exact Or.inl rfl
  · rw [heq] at hrun
    obtain ⟨rfl, rfl⟩ := Prod.mk.inj (Option.some.inj hrun)
    exact Or.inl rfl
  · rw [heq] at hrun
    obtain ⟨⟨ok, h₂⟩, hgrow, hrest⟩ := Option.bind_eq_some_iff.mp hrun
    obtain ⟨_, j, hj, _, hlimit, _⟩ := growHeap_eq laws _ hgrow (hinv.limit_lt laws)
    cases ok with
    | false =>
      obtain ⟨rfl, rfl⟩ := Prod.mk.inj (Option.some.inj hrest)
      exact Or.inr ⟨hnone, j, hj, hlimit⟩
    | true =>
      obtain ⟨s, _, hrest⟩ := Option.bind_eq_some_iff.mp hrest
      obtain ⟨rfl, rfl⟩ := Prod.mk.inj (Option.some.inj hrest)
      exact Or.inr ⟨hnone, j, hj, hlimit⟩

/-- Whether it wrapped or not, the limit is a 32-bit number. -/
theorem kmalloc_limit_lt (laws : PagerLaws pager top Owns) {h h' : Heap σ} {τ : Nat → Nat}
    {m : Bytes.Mem} {bs : List Block} {n p : Nat} (hinv : HeapInv top Owns h τ m bs)
    (hn : roundedUp n + 16 + 4095 < 4294967296) (hrun : kmalloc pager h n = some (p, h')) :
    h'.heapLimit < 4294967296 := by
  rcases kmalloc_limit laws hinv hn hrun with heq | ⟨_, j, _, heq⟩
  · rw [heq]
    exact hinv.limit_lt laws
  · rw [heq]
    exact u32_lt _

/-- A `kmalloc` that returns and had room below `top` has stayed there. -/
theorem kmalloc_stays (laws : PagerLaws pager top Owns) {h h' : Heap σ} {τ : Nat → Nat}
    {m : Bytes.Mem} {bs : List Block} {n p : Nat} (hinv : HeapInv top Owns h τ m bs)
    (hn : roundedUp n + 16 + 4095 < 4294967296) (hrun : kmalloc pager h n = some (p, h'))
    (hroom : (∀ c ∈ bs, ¬ Fits (roundedUp n) c) →
      h.heapLimit + (roundedUp n + 16 + 4095) / 4096 * 4096 ≤ top) :
    h.heapLimit ≤ h'.heapLimit ∧ h'.heapLimit ≤ top := by
  rcases kmalloc_limit laws hinv hn hrun with heq | ⟨hnone, j, hj, heq⟩
  · exact ⟨Nat.le_of_eq heq.symm, heq ▸ hinv.limit⟩
  · have hroom := hroom hnone
    have htop := laws.top_lt
    have hjle : j * 4096 ≤ (roundedUp n + 16 + 4095) / 4096 * 4096 := Nat.mul_le_mul_right _ hj
    rw [u32_of_lt (by omega)] at heq
    omega

/-- `kmalloc` returns when there is room for the pages it takes below `top` and `map_page`
returns each time. -/
theorem kmalloc_returns (laws : PagerLaws pager top Owns) {h : Heap σ} {τ : Nat → Nat}
    {m : Bytes.Mem} {bs : List Block} {n : Nat} (hinv : HeapInv top Owns h τ m bs)
    (hn : roundedUp n + 16 + 4095 < 4294967296)
    (hroom : (∀ c ∈ bs, ¬ Fits (roundedUp n) c) →
      h.heapLimit + (roundedUp n + 16 + 4095) / 4096 * 4096 ≤ top)
    (hgrow : (∀ c ∈ bs, ¬ Fits (roundedUp n) c) →
      ∃ r, growHeap pager ((roundedUp n + 16 + 4095) / 4096) h = some r) :
    ∃ p h', kmalloc pager h n = some (p, h') ∧ h.heapLimit ≤ h'.heapLimit ∧
      h'.heapLimit ≤ top := by
  have hmod : roundedUp n % 4 = 0 := Nat.mul_mod_left _ _
  rcases kmalloc_cases laws hinv hn with
    ⟨_, heq⟩ | ⟨pre, b, post, s, rfl, hfit, huse, heq, _⟩ | ⟨pre, l, rfl, hnone, heq, _⟩
  · exact ⟨0, h, heq, Nat.le_refl _, hinv.limit⟩
  · exact ⟨_, _, heq, Nat.le_refl _, hinv.limit⟩
  -- With the pages there the rest is stores to the window, and those return.
  · obtain ⟨⟨ok, h₂⟩, hgrow⟩ := hgrow hnone
    have hroom := hroom hnone
    have hlimit := hinv.limit
    have htop := laws.top_lt
    obtain ⟨_, j, hj, hok, hlim, _⟩ := growHeap_eq laws _ hgrow (by omega)
    have hjle : j * 4096 ≤ (roundedUp n + 16 + 4095) / 4096 * 4096 := Nat.mul_le_mul_right _ hj
    rw [u32_of_lt (by omega)] at hlim
    have hle : h.heapLimit ≤ h₂.heapLimit := by omega
    have hlim₂ : h₂.heapLimit ≤ top := by omega
    rw [heq, hgrow, Option.bind_some]
    cases ok with
    | false => exact ⟨0, h₂, rfl, hle, hlim₂⟩
    | true =>
      have hlt : (roundedUp n + 16 + 4095) / 4096 < 1048576 := by omega
      obtain ⟨hfirst, hgrown, τ', m', hinv', _⟩ := hinv.grown laws hlt hgrow hle hlim₂
      obtain ⟨s', _, happ, _⟩ := appendBlock_spec laws hinv hinv' hfirst (hgrown rfl) hmod
        (by omega)
      refine ⟨h.heapLimit + 16, { h₂ with machine := s' }, ?_, hle, hlim₂⟩
      show (appendBlock _ _ _ _ _ _).bind _ = _
      rw [happ]
      rfl

/-! ## `kfree` -/

/-- **`kfree` keeps the heap.** Given the payload of a block, it returns; the block is free, the
others that were in use still are, and their payloads are what they were. The payloads of free
blocks are as well, but a merge can make a header a part of one. -/
theorem kfree_spec (laws : PagerLaws pager top Owns) {h : Heap σ} {τ : Nat → Nat} {m : Bytes.Mem}
    {bs : List Block} {b : Block} (hinv : HeapInv top Owns h τ m bs) (hb : b ∈ bs) :
    ∃ s m', kfree h (b.addr + 16) = some { h with machine := s } ∧
      HeapInv top Owns { h with machine := s } τ m' (coalesce 16 (release b.addr bs)) ∧
      (∀ c ∈ bs, c.free = false → c ≠ b → c ∈ coalesce 16 (release b.addr bs)) ∧
      (∀ c ∈ bs, ∀ a, c.addr + 16 ≤ a → a < c.stop 16 → m' a = m a) ∧
      Touches τ h.firstBlock h.heapLimit h.machine s ∧
      ∀ p, BackLinks m p bs → BackLinks m' p (coalesce 16 (release b.addr bs)) := by
  have hlim := hinv.limit_lt laws
  have hpos := hinv.pos
  have hin := hinv.inside hb
  have hblock : u32 (b.addr + 16 + 4294967296 - blockHeader) = b.addr := by
    unfold u32 blockHeader
    omega
  obtain ⟨s₁, hs₁, v₁⟩ := storeFree_eq (hinv.view laws) hin.1 (by omega) true
  have hseg₁ : Seg (Bytes.store8 m (b.addr + 4) 1) h.firstBlock (release b.addr bs) 0 := by
    refine hinv.chain.release fun c hc => ?_
    by_cases heq : c = b
    · exact Or.inl (by rw [heq])
    · have hdis := hinv.laid.disjoint hc hb heq
      unfold Block.stop at hdis
      omega
  -- The pass begins at `first_block`, wherever `b` is.
  have hlaid₁ := hinv.laid.release b.addr
  obtain ⟨d, ds, hds, hd⟩ : ∃ d ds, release b.addr bs = d :: ds ∧ d.addr = h.firstBlock := by
    obtain ⟨d, ds, rfl, hd⟩ := hinv.nonempty
    refine ⟨_, _, List.map_cons, ?_⟩
    split
    · exact hd
    · exact hd
  have hlen : ds.length < 4294967296 := by
    have h₁ := hinv.length_lt laws
    have h₂ : (release b.addr bs).length = bs.length := List.length_map _
    rw [hds, List.length_cons] at h₂
    omega
  rw [hds, ← hd] at hseg₁
  have hlaid₂ := hlaid₁
  rw [hds] at hlaid₂
  obtain ⟨s₂, m₂, hs₂, v₂, hseg₂, hframe, hback⟩ := coalesceFrom_eq (by decide : 16 % 4 = 0) hpos
    (by omega) _ v₁ (Nat.le_refl _) hlaid₂ hseg₁ hlen
  rw [← hds, hd] at hseg₂
  rw [← hds] at hback
  rw [hd] at hs₂
  refine ⟨s₂, m₂, ?_, hinv.after laws v₂ hseg₂ (hlaid₁.coalesce rfl), ?_, ?_,
    v₂.touches, fun p hlinks => hback p ?_⟩
  · rw [kfree, hblock, hs₁]
    show (coalesceFreeBlocks s₁ h.firstBlock).bind _ = _
    rw [coalesceFreeBlocks, hs₂]
    rfl
  · intro c hc hcf hne
    refine mem_coalesce hcf (mem_release hc fun heq => hne ?_)
    exact hinv.laid.eq_of_addr (by decide) hc hb heq
  · intro c hc a hlo hhi
    have hout := OutsideHeaders.of_payload hinv.laid hc hlo hhi
    have hrel : OutsideHeaders (release b.addr bs) a := hout.release
    rw [hds] at hrel
    have hb4 := hout b hb
    rw [hframe a hrel, Bytes.store8_of_ne _ (by omega)]
  · -- `is_free` is no back link of anybody's.
    have haddrs : bs.map Block.addr = (release b.addr bs).map Block.addr := by
      rw [release, List.map_map]
      refine List.map_congr_left fun c _ => ?_
      show c.addr = (if c.addr = b.addr then { c with free := true } else c).addr
      split
      · rfl
      · rfl
    refine (backLinks_of_addrs haddrs).mp (hlinks.congr fun c hc i hi => ?_)
    refine Bytes.store8_of_ne _ ?_
    by_cases heq : c = b
    · rw [heq]
      omega
    · have hdis := hinv.laid.disjoint hc hb heq
      unfold Block.stop at hdis
      omega

/-! ## `init_heap` -/

/-- The first page is one free block. It is used at its address in the direct map, not through a
mapping of its own as the pages after it are. -/
theorem initHeap_spec (laws : PagerLaws pager top Owns) {s : σ} {τ : Nat → Nat}
    (howns : Owns (pager.pmmAllocPage s).2 (paVa (pager.pmmAllocPage s).1)
      (paVa (pager.pmmAllocPage s).1 + 4096) τ)
    (hpos : 0 < paVa (pager.pmmAllocPage s).1) (hpage : paVa (pager.pmmAllocPage s).1 % 4096 = 0)
    (hlim : paVa (pager.pmmAllocPage s).1 + 4096 ≤ top) :
    ∃ h m, initHeap pager s = some h ∧ h.firstBlock = paVa (pager.pmmAllocPage s).1 ∧
      h.heapLimit = h.firstBlock + 4096 ∧ (∃ m', h.machine = setMem (pager.pmmAllocPage s).2 m') ∧
      HeapInv top Owns h τ m [⟨h.firstBlock, 4080, true⟩] ∧
      BackLinks m 0 [⟨h.firstBlock, 4080, true⟩] := by
  unfold initHeap
  generalize pager.pmmAllocPage s = r at *
  obtain ⟨page, s₀⟩ := r
  simp only at *
  generalize paVa page = start at *
  have htop := laws.top_lt
  have hend : u32 (start + 4096) = start + 4096 := u32_of_lt (by omega)
  have hshows : Shows s₀ start (start + 4096) τ (fun a => mem s₀ (τ a)) :=
    ⟨laws.window howns, fun _ _ _ => rfl⟩
  obtain ⟨s₁, hs₁, v₁⟩ := storeSize_eq hshows.view (Nat.le_refl start) (by omega)
    (4096 - blockHeader)
  obtain ⟨s₂, hs₂, v₂⟩ := storeFree_eq v₁ (Nat.le_refl start) (by omega) true
  obtain ⟨s₃, hs₃, v₃⟩ := storeNext_eq v₂ (Nat.le_refl start) (by omega) 0
  obtain ⟨s₄, hs₄, v₄⟩ := storePrev_eq v₃ (Nat.le_refl start) (by omega) 0
  rw [hs₁, hend]
  obtain ⟨m₄, hm₄, _⟩ := v₄.touches
  have hhead := ((((headerAt_view hshows.view start).storeSize
    (show 4096 - blockHeader < 4294967296 by decide)).storeFree true).storeNext
      (show 0 < 4294967296 by decide)).store32 (c := start + 12) 0 (by omega)
  refine ⟨⟨s₄, start, start + 4096⟩, _, ?_, rfl, rfl, ⟨m₄, hm₄⟩,
    ⟨laws.touches howns v₄.touches, v₄.shows.2, ?_, ?_, hpos, hlim, ?_⟩,
    Bytes.load32_store32_of_lt _ _ (by decide), trivial⟩
  · simp only [hs₂, hs₃, hs₄, Option.bind_eq_bind, Option.bind_some]
  · exact hhead.seg (b := ⟨start, 4080, true⟩) rfl
  · refine ⟨Nat.le_refl _, by show start % 4 = 0; omega, by show 4080 % 4 = 0; decide, ?_⟩
    show start + 16 + 4080 ≤ start + 4096
    omega
  · show (start + 4096) % 4096 = 0
    omega

end Heap

end ScratchOs.Mem
