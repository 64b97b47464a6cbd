import ScratchOs.Mem.HeapBlocks

/-!
# What the heap functions keep

`HeapInv` ties a heap to the list of its blocks: its range of addresses is a window, the list
is in memory, and it is laid out inside the range.

The heap grows by pages somebody else hands out and maps. What it needs of them is
`PagerLaws`: that a machine which owns a window of the heap still does after a failed
allocation, and owns one page more, with the old bytes where they were, after a page has been
mapped at its end. Owning is a notion of the machine's, so the laws take it as a parameter.

`top` is how far the laws go. It is not a bound that the heap checks, for it checks none: it is
where the machine stops to be what the heap needs, at the frame buffer or at the end of the address
space. A result for some `top` is then about runs that have not come so far, and one proof serves
for both.

What the invariant does not say is that the blocks fill the window, or that free ones are merged.
Those two are properties of the list alone, kept by other calls and under other conditions, and
they have modules of their own.
-/

set_option autoImplicit false

namespace ScratchOs.Mem

open AddressSpace Bits FreeList

/-- `VIDEO_VRT_ADDR`, where the frame buffer is mapped. -/
def videoVrtAddr : Nat := 0xE0000000

/-- What the heap relies on in `pmm_alloc_page` and `map_page`. -/
structure PagerLaws {σ : Type} [AddressSpace σ] (pager : Pager σ) (top : Nat)
    (Owns : σ → Nat → Nat → (Nat → Nat) → Prop) : Prop where
  top_lt : top < 4294967296
  window : ∀ {s lo hi τ}, Owns s lo hi τ → Window s lo hi τ
  touches : ∀ {s s' lo hi τ}, Owns s lo hi τ → Touches τ lo hi s s' → Owns s' lo hi τ
  /-- There was no page: nothing happens to the window. -/
  fail : ∀ {s lo hi τ}, Owns s lo hi τ → (pager.pmmAllocPage s).1 = 0 →
    Owns (pager.pmmAllocPage s).2 lo hi τ ∧
      ∀ a, lo ≤ a → a < hi → mem (pager.pmmAllocPage s).2 (τ a) = mem s (τ a)
  /-- There was one, and it has been mapped at the end of the window. -/
  grow : ∀ {s s' lo hi τ}, Owns s lo hi τ → hi % 4096 = 0 → hi + 4096 ≤ top →
    (pager.pmmAllocPage s).1 ≠ 0 →
    pager.mapPage (pager.pmmAllocPage s).2 hi (pager.pmmAllocPage s).1 = some s' →
    ∃ τ', Owns s' lo (hi + 4096) τ' ∧
      ∀ a, lo ≤ a → a < hi → τ' a = τ a ∧ mem s' (τ a) = mem s (τ a)

section Heap

variable {σ : Type} [AddressSpace σ] {pager : Pager σ}
  {Owns : σ → Nat → Nat → (Nat → Nat) → Prop} {top : Nat}

/-- The heap `h` holds the blocks `bs`; its window shows `m`. -/
structure HeapInv (top : Nat) (Owns : σ → Nat → Nat → (Nat → Nat) → Prop) (h : Heap σ)
    (τ : Nat → Nat) (m : Bytes.Mem) (bs : List Block) : Prop where
  owns : Owns h.machine h.firstBlock h.heapLimit τ
  shows : ∀ a, h.firstBlock ≤ a → a < h.heapLimit → mem h.machine (τ a) = m a
  chain : Seg m h.firstBlock bs 0
  laid : Laid 16 4 h.heapLimit h.firstBlock bs
  pos : 0 < h.firstBlock
  limit : h.heapLimit ≤ top
  page : h.heapLimit % 4096 = 0

theorem HeapInv.view (laws : PagerLaws pager top Owns) {h : Heap σ} {τ : Nat → Nat} {m : Bytes.Mem}
    {bs : List Block} (hinv : HeapInv top Owns h τ m bs) :
    View h.machine h.machine h.firstBlock h.heapLimit τ m :=
  Shows.view ⟨laws.window hinv.owns, hinv.shows⟩

/-- The list cannot be empty: the first block is not at address 0. -/
theorem HeapInv.nonempty {h : Heap σ} {τ : Nat → Nat} {m : Bytes.Mem} {bs : List Block}
    (hinv : HeapInv top Owns h τ m bs) : ∃ b rest, bs = b :: rest ∧ b.addr = h.firstBlock := by
  have hchain := hinv.chain
  cases bs with
  | nil => exact absurd hchain (Nat.ne_of_gt hinv.pos)
  | cons b rest => exact ⟨b, rest, rfl, hchain.1.symm⟩

theorem HeapInv.limit_lt (laws : PagerLaws pager top Owns) {h : Heap σ} {τ : Nat → Nat}
    {m : Bytes.Mem} {bs : List Block} (hinv : HeapInv top Owns h τ m bs) :
    h.heapLimit < 4294967296 :=
  Nat.lt_of_le_of_lt hinv.limit laws.top_lt

theorem HeapInv.length_lt (laws : PagerLaws pager top Owns) {h : Heap σ} {τ : Nat → Nat}
    {m : Bytes.Mem} {bs : List Block} (hinv : HeapInv top Owns h τ m bs) :
    bs.length < 4294967296 := by
  have hlen := hinv.laid.length_le
  have hlim := hinv.limit_lt laws
  omega

/-- The blocks are in the window, headers and all. -/
theorem HeapInv.inside {h : Heap σ} {τ : Nat → Nat} {m : Bytes.Mem} {bs : List Block}
    (hinv : HeapInv top Owns h τ m bs) {b : Block} (hb : b ∈ bs) :
    h.firstBlock ≤ b.addr ∧ b.addr + 16 + b.size ≤ h.heapLimit := by
  obtain ⟨hlo, hstop, _⟩ := hinv.laid.mem hb
  exact ⟨hlo, hstop⟩

theorem HeapInv.addr_ne {h : Heap σ} {τ : Nat → Nat} {m : Bytes.Mem} {bs : List Block}
    (hinv : HeapInv top Owns h τ m bs) {b : Block} (hb : b ∈ bs) : b.addr ≠ 0 :=
  Nat.ne_of_gt (Nat.lt_of_lt_of_le hinv.pos (hinv.inside hb).1)

/-! What is read off the header of a block. -/

theorem HeapInv.reads_size (laws : PagerLaws pager top Owns) {h : Heap σ} {τ : Nat → Nat}
    {m : Bytes.Mem} {bs : List Block} (hinv : HeapInv top Owns h τ m bs) {b : Block}
    (hb : b ∈ bs) : loadSize h.machine b.addr = some b.size := by
  have hin := hinv.inside hb
  obtain ⟨pre, post, rfl⟩ := List.append_of_mem hb
  obtain ⟨_, _, rfl, ⟨hsize, _⟩, _⟩ := seg_append.mp hinv.chain
  rw [loadSize_eq (hinv.view laws).shows hin.1 (by omega), hsize]

theorem HeapInv.reads_next (laws : PagerLaws pager top Owns) {h : Heap σ} {τ : Nat → Nat}
    {m : Bytes.Mem} {pre post : List Block} {b : Block}
    (hinv : HeapInv top Owns h τ m (pre ++ b :: post)) :
    loadNext h.machine b.addr = some ((post.head?.map Block.addr).getD 0) := by
  have hin := hinv.inside (b := b) (by simp)
  obtain ⟨_, _, rfl, _, hpost⟩ := seg_append.mp hinv.chain
  rw [loadNext_eq (hinv.view laws).shows hin.1 (by omega)]
  cases post with
  | nil => exact congrArg some hpost
  | cons c cs => exact congrArg some hpost.1

/-- A run of stores gives the invariant back for the list it leaves. Only the list has to be looked
at: the limits are no part of the machine, and the tables are not behind the window. -/
theorem HeapInv.after (laws : PagerLaws pager top Owns) {h : Heap σ} {τ : Nat → Nat}
    {m m' : Bytes.Mem} {bs bs' : List Block} {s : σ} (hinv : HeapInv top Owns h τ m bs)
    (v : View h.machine s h.firstBlock h.heapLimit τ m') (hseg : Seg m' h.firstBlock bs' 0)
    (hlaid : Laid 16 4 h.heapLimit h.firstBlock bs') :
    HeapInv top Owns { h with machine := s } τ m' bs' :=
  ⟨laws.touches hinv.owns v.touches, v.shows.2, hseg, hlaid, hinv.pos, hinv.limit, hinv.page⟩

/-- Nothing of the payloads of blocks in use has changed. -/
def KeepsPayloads (bs : List Block) (m m' : Bytes.Mem) : Prop :=
  ∀ b ∈ bs, b.free = false → ∀ a, b.addr + 16 ≤ a → a < b.stop 16 → m' a = m a

/-- `p` points to the payload of a block that is in use now and was not before; those that
were still are. It is what a caller gets to know of the list. -/
structure Granted (bs bs' : List Block) (p size : Nat) : Prop where
  block : ∃ b ∈ bs', b.free = false ∧ p = b.addr + 16 ∧ size ≤ b.size
  new : ∀ b ∈ bs, b.free = false → p ≠ b.addr + 16
  kept : ∀ b ∈ bs, b.free = false → b ∈ bs'

/-! ## Growing -/

/-- The loop of `expand_heap`, by recursion on the pages that it is still to add. It stops after `j`
of them, and the new limit is the old one and `j` pages in 32 bits, so it may have gone round. The
window is that much wider, and shows what it showed, as long as it stays below `top`; that is asked
for of where the loop stops, since where it was to go it need not have come to. -/
theorem growHeap_eq (laws : PagerLaws pager top Owns) : ∀ (pages : Nat) {h h' : Heap σ} {ok : Bool},
    growHeap pager pages h = some (ok, h') → h.heapLimit < 4294967296 →
    h'.firstBlock = h.firstBlock ∧
    ∃ j ≤ pages, (ok = true → j = pages) ∧ h'.heapLimit = u32 (h.heapLimit + j * 4096) ∧
      ∀ lo τ, Owns h.machine lo h.heapLimit τ → h.heapLimit % 4096 = 0 →
        h.heapLimit + j * 4096 ≤ top →
        ∃ τ', Owns h'.machine lo (h.heapLimit + j * 4096) τ' ∧
          ∀ a, lo ≤ a → a < h.heapLimit →
            τ' a = τ a ∧ mem h'.machine (τ a) = mem h.machine (τ a)
  | 0, h, h', ok, hrun, hlt => by
    obtain ⟨rfl, rfl⟩ := Prod.mk.inj (Option.some.inj hrun)
    refine ⟨rfl, 0, Nat.le_refl 0, fun _ => rfl, ?_, fun lo τ ho _ _ => ?_⟩
    · rw [Nat.zero_mul, Nat.add_zero, u32_of_lt hlt]
    · exact ⟨τ, by simpa using ho, fun a _ _ => ⟨rfl, rfl⟩⟩
  | pages + 1, h, h', ok, hrun, hlt => by
    rw [growHeap_succ] at hrun
    by_cases hpage : (pager.pmmAllocPage h.machine).1 = 0
    · -- No page: the heap is left where it is.
      rw [if_pos hpage] at hrun
      obtain ⟨rfl, rfl⟩ := Prod.mk.inj (Option.some.inj hrun)
      refine ⟨rfl, 0, Nat.zero_le _, fun h => absurd h (by simp), ?_, fun lo τ ho _ _ => ?_⟩
      · rw [Nat.zero_mul, Nat.add_zero, u32_of_lt hlt]
      · obtain ⟨ho', hm⟩ := laws.fail ho hpage
        exact ⟨τ, by simpa using ho', fun a hlo hhi => ⟨rfl, hm a hlo hhi⟩⟩
    · rw [if_neg hpage] at hrun
      obtain ⟨s₁, hmap, hrest⟩ := Option.bind_eq_some_iff.mp hrun
      obtain ⟨hfirst, j, hj, hok, hlimit, hgrown⟩ := growHeap_eq laws pages hrest (u32_lt _)
      refine ⟨hfirst, j + 1, by omega, fun h => by rw [hok h], ?_, fun lo τ ho hpg hle => ?_⟩
      · rw [hlimit]
        simp only [u32]
        omega
      · have hle' : h.heapLimit + 4096 ≤ top := by omega
        obtain ⟨τ₁, ho₁, hτ₁⟩ := laws.grow ho hpg hle' hpage hmap
        have hnowrap : u32 (h.heapLimit + 4096) = h.heapLimit + 4096 := by
          have := laws.top_lt
          exact u32_of_lt (by omega)
        simp only [hnowrap] at hgrown
        obtain ⟨τ', ho', hτ'⟩ := hgrown lo τ₁ ho₁ (by omega) (by omega)
        refine ⟨τ', by rwa [show h.heapLimit + (j + 1) * 4096 = h.heapLimit + 4096 + j * 4096
          by omega], fun a hlo hhi => ?_⟩
        obtain ⟨h₁, hm₁⟩ := hτ₁ a hlo hhi
        obtain ⟨h₂, hm₂⟩ := hτ' a hlo (by omega)
        exact ⟨h₂.trans h₁, by rw [← hm₁, ← h₁, hm₂]⟩

/-- What `kmalloc` does to the size asked for. -/
def roundedUp (n : Nat) : Nat := (n + 3) / 4 * 4

/-- In 32 bits, sizes in the last three come out as 0. -/
theorem roundSize_eq_u32 (n : Nat) : roundSize n = u32 (n + 3) / 4 * 4 :=
  and_high (k := 2) (n := 32) (by decide) (u32_lt _)

theorem roundSize_eq {n : Nat} (hn : roundedUp n + 16 + 4095 < 4294967296) :
    roundSize n = roundedUp n := by
  unfold roundedUp at hn ⊢
  rw [roundSize_eq_u32, u32_of_lt (by omega)]

/-- The sums of `expand_heap` as they are without wrapping. -/
theorem pages_lt {n : Nat} (hn : n + 16 + 4095 < 4294967296) :
    u32 (n + blockHeader) = n + 16 ∧ u32 (n + 16 + 4095) / 4096 = (n + 16 + 4095) / 4096 := by
  have h₁ : n + 16 < 4294967296 := by omega
  have h₂ : n + 16 + 4095 < 4294967296 := by omega
  exact ⟨u32_of_lt h₁, by rw [u32_of_lt h₂]⟩

/-- The heap after growing, whether there were enough pages or not: the same blocks in a wider
window. -/
theorem HeapInv.grown (laws : PagerLaws pager top Owns) {h h' : Heap σ} {τ : Nat → Nat}
    {m : Bytes.Mem} {bs : List Block} (hinv : HeapInv top Owns h τ m bs) {pages : Nat} {ok : Bool}
    (hpages : pages < 1048576) (hrun : growHeap pager pages h = some (ok, h'))
    (hle : h.heapLimit ≤ h'.heapLimit) (hlim : h'.heapLimit ≤ top) :
    h'.firstBlock = h.firstBlock ∧ (ok = true → h'.heapLimit = h.heapLimit + pages * 4096) ∧
      ∃ τ' m', HeapInv top Owns h' τ' m' bs ∧
        ∀ a, h.firstBlock ≤ a → a < h.heapLimit → m' a = m a := by
  have hlimit := hinv.limit_lt laws
  have hpage := hinv.page
  have htop := laws.top_lt
  obtain ⟨hfirst, j, hj, hok, hlim', hgrown⟩ := growHeap_eq laws pages hrun (by omega)
  -- The limit has not gone round: it would have ended up below where it was.
  have hnowrap : h'.heapLimit = h.heapLimit + j * 4096 := by
    unfold u32 at hlim'
    omega
  have hle' : h.heapLimit + j * 4096 ≤ top := by omega
  obtain ⟨τ', ho', hτ'⟩ := hgrown h.firstBlock τ hinv.owns hpage hle'
  have hsame : ∀ a, h.firstBlock ≤ a → a < h.heapLimit → mem h'.machine (τ' a) = m a := by
    intro a hlo hhi
    obtain ⟨h₁, h₂⟩ := hτ' a hlo hhi
    rw [h₁, h₂, hinv.shows a hlo hhi]
  have hseg : Seg (fun a => mem h'.machine (τ' a)) h.firstBlock bs 0 := by
    refine hinv.chain.congr fun b hb i hi => ?_
    have hin := hinv.inside hb
    exact hsame _ (by omega) (by omega)
  refine ⟨hfirst, fun h => by rw [hnowrap, hok h], τ', fun a => mem h'.machine (τ' a), ?_, hsame⟩
  refine ⟨?_, fun a _ _ => rfl, ?_, ?_, ?_, hlim, by omega⟩
  · rw [hfirst, hnowrap]
    exact ho'
  · rw [hfirst]
    exact hseg
  · rw [hfirst]
    exact hinv.laid.mono (Nat.le_refl _) hle
  · rw [hfirst]
    exact hinv.pos

theorem KeepsPayloads.of_window {h : Heap σ} {τ : Nat → Nat} {m m' : Bytes.Mem}
    {bs : List Block} (hinv : HeapInv top Owns h τ m bs)
    (hm : ∀ a, h.firstBlock ≤ a → a < h.heapLimit → m' a = m a) : KeepsPayloads bs m m' := by
  intro b hb _ a hlo hhi
  have hmem := hinv.laid.mem hb
  exact hm a (by omega) (by omega)

theorem BackLinks.of_window {h : Heap σ} {τ : Nat → Nat} {m m' : Bytes.Mem} {bs : List Block}
    {p : Nat} (hinv : HeapInv top Owns h τ m bs)
    (hm : ∀ a, h.firstBlock ≤ a → a < h.heapLimit → m' a = m a) (h : BackLinks m p bs) :
    BackLinks m' p bs := by
  refine h.congr fun b hb i hi => ?_
  have hin := hinv.inside hb
  exact hm _ (by omega) (by omega)

end Heap

end ScratchOs.Mem
