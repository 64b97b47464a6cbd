import ScratchOs.Mem.HeapMerged

/-!
# The list backwards

Every block has a `prev`. Each function that links a block in writes it, and nothing ever reads
it. `DoublyLinked` says that the `prev` fields are those of the list, and `BackLinks` says it of
the memory (`HeapInv.doublyLinked_iff`).

New pages and merges keep it. A split does if the block is the last one: the new block's `prev`
is written, that of the block behind the two halves is not and still names the first half. So
the `prev` fields are right in runs that split nothing but the last block, and go wrong with the
first request that does (`doubly_linked`).

Because nothing reads `prev`, the heap goes on as if nothing had happened, and no other result of
this development has a condition on it. What is lost is what the field is there for: a walk that
starts at the last block and follows `prev` would skip one.
-/

set_option autoImplicit false

namespace ScratchOs.Mem

open AddressSpace Bits FreeList

section Links

variable {σ : Type} [AddressSpace σ]

def loadPrev (s : σ) (block : Nat) : Option Nat := load32 s (block + 12)

/-- `first_block->prev` is NULL, and so is every `b->next`, or its `prev` is `b`. -/
def DoublyLinked (h : Heap σ) : Prop :=
  ∃ bs, BlockList h.machine h.firstBlock bs ∧ loadPrev h.machine h.firstBlock = some 0 ∧
    ∀ b ∈ bs, ∀ next, loadNext h.machine b.addr = some next → next ≠ 0 →
      loadPrev h.machine next = some b.addr

/-- The back links, block by block. `BackLinks` goes down the list and says of each block what is in
front of it; here each block says it of the one that its `next` names. -/
theorem backLinks_iff {m : Bytes.Mem} {bs : List Block} :
    ∀ {a p : Nat}, Seg m a bs 0 → (∀ b ∈ bs, b.addr ≠ 0) →
      (BackLinks m p bs ↔ (∀ b ∈ bs.head?, Bytes.load32 m (b.addr + 12) = p) ∧
        ∀ b ∈ bs, Bytes.load32 m (b.addr + 8) ≠ 0 →
          Bytes.load32 m (Bytes.load32 m (b.addr + 8) + 12) = b.addr) := by
  induction bs with
  | nil =>
    intro a p _ _
    exact ⟨fun _ => ⟨by simp, by simp⟩, fun _ => trivial⟩
  | cons b bs ih =>
    rintro a p ⟨_, _, hrest⟩ hne
    have htail := ih (p := b.addr) hrest fun c hc => hne c (List.mem_cons_of_mem b hc)
    -- The head of the rest is what `next` names.
    have hnext : (∀ c ∈ bs.head?, Bytes.load32 m (c.addr + 12) = b.addr) ↔
        (Bytes.load32 m (b.addr + 8) ≠ 0 →
          Bytes.load32 m (Bytes.load32 m (b.addr + 8) + 12) = b.addr) := by
      cases bs with
      | nil =>
        have hend : Bytes.load32 m (b.addr + 8) = 0 := hrest
        exact ⟨fun _ h => absurd hend h, fun _ => by simp⟩
      | cons c cs =>
        have hc : Bytes.load32 m (b.addr + 8) = c.addr := hrest.1
        have hcne := hne c (by simp)
        rw [hc]
        exact ⟨fun h _ => h c rfl, fun h d hd => by obtain rfl := Option.some.inj hd; exact h hcne⟩
    show (_ ∧ BackLinks m b.addr bs) ↔ _
    rw [htail, hnext, List.forall_mem_cons]
    constructor
    · rintro ⟨hp, hb, hbs⟩
      exact ⟨fun c hc => by obtain rfl := Option.some.inj hc; exact hp, hb, hbs⟩
    · rintro ⟨hp, hb, hbs⟩
      exact ⟨hp b rfl, hb, hbs⟩

/-- `next` is NULL or names a block. -/
theorem Seg.next {m : Bytes.Mem} {bs : List Block} {a : Nat} {b : Block} (h : Seg m a bs 0)
    (hb : b ∈ bs) : Bytes.load32 m (b.addr + 8) = 0 ∨
      ∃ c ∈ bs, Bytes.load32 m (b.addr + 8) = c.addr := by
  obtain ⟨pre, post, rfl⟩ := List.append_of_mem hb
  obtain ⟨_, _, _, _, hpost⟩ := seg_append.mp h
  cases post with
  | nil => exact Or.inl hpost
  | cons c post => exact Or.inr ⟨c, by simp, hpost.1⟩

variable {pager : Pager σ} {Owns : σ → Nat → Nat → (Nat → Nat) → Prop} {top : Nat}

/-- On a heap that is in order `DoublyLinked`, which is about loads, is `BackLinks`, which is about
the memory behind the window. -/
theorem HeapInv.doublyLinked_iff (laws : PagerLaws pager top Owns) {h : Heap σ} {τ : Nat → Nat}
    {m : Bytes.Mem} {bs : List Block} (hinv : HeapInv top Owns h τ m bs) :
    DoublyLinked h ↔ BackLinks m 0 bs := by
  have hshow := (hinv.view laws).shows
  have hprev : ∀ b ∈ bs, loadPrev h.machine b.addr = some (Bytes.load32 m (b.addr + 12)) := by
    intro b hb
    have hin := hinv.inside hb
    exact hshow.load32 (by omega) (by omega)
  have hnext : ∀ b ∈ bs, loadNext h.machine b.addr = some (Bytes.load32 m (b.addr + 8)) := by
    intro b hb
    have hin := hinv.inside hb
    exact loadNext_eq hshow hin.1 (by omega)
  obtain ⟨first, rest, hbs, hfirst⟩ := hinv.nonempty
  have hmem : first ∈ bs := by simp [hbs]
  have hhead : (∀ b ∈ bs.head?, Bytes.load32 m (b.addr + 12) = 0) ↔
      loadPrev h.machine h.firstBlock = some 0 := by
    rw [← hfirst, hprev first hmem, hbs]
    simp
  have hbody : (∀ b ∈ bs, Bytes.load32 m (b.addr + 8) ≠ 0 →
        Bytes.load32 m (Bytes.load32 m (b.addr + 8) + 12) = b.addr) ↔
      ∀ b ∈ bs, ∀ next, loadNext h.machine b.addr = some next → next ≠ 0 →
        loadPrev h.machine next = some b.addr := by
    refine forall₂_congr fun b hb => ?_
    have hread : Bytes.load32 m (b.addr + 8) ≠ 0 → loadPrev h.machine (Bytes.load32 m (b.addr + 8))
        = some (Bytes.load32 m (Bytes.load32 m (b.addr + 8) + 12)) := by
      intro hne
      rcases hinv.chain.next hb with hend | ⟨c, hc, heq⟩
      · exact absurd hend hne
      · rw [heq]
        exact hprev c hc
    rw [hnext b hb]
    constructor
    · rintro hlink next hn hne
      obtain rfl := Option.some.inj hn
      rw [hread hne, hlink hne]
    · intro hlink hne
      have hback := hlink _ rfl hne
      rw [hread hne] at hback
      exact Option.some.inj hback
  rw [backLinks_iff hinv.chain fun b hb => hinv.addr_ne hb, hhead, hbody]
  constructor
  · rintro ⟨cs, hlist, hlinks⟩
    obtain rfl := (hinv.blockList laws).unique hlist
    exact hlinks
  · intro hlinks
    exact ⟨bs, hinv.blockList laws, hlinks⟩

end Links

/-- **The list can be walked backwards** in every state of a run whose requests do not wrap and
split no block but the last; and a request keeps it so if and only if it is one of these.

The run lemma carries `BackLinks` beside the invariant, as one more thing that a call keeps under a
condition of its own, and the request at the end is one more call. -/
theorem doubly_linked (s : Ideal) (hs : s.Ready) {h : Heap Ideal} {live : List (Nat × Nat)}
    (hrun : CallRun idealPager (fun h n => NoWrap h n ∧ SplitsOnlyLast h n) s h live) :
    DoublyLinked h ∧ ∀ n p h', n < 4294967296 → NoWrap h n →
      kmalloc idealPager h n = some (p, h') → (DoublyLinked h' ↔ SplitsOnlyLast h n) := by
  obtain ⟨_, _, _, _, hinv, _, _, hlinked⟩ := hrun.ideal (fun _ _ hallow => hallow.1) hs
  have hlinks := hlinked fun _ _ hallow => hallow.2
  refine ⟨(hinv.doublyLinked_iff idealLawsAll).mpr hlinks, ?_⟩
  intro n p h' hn hwrap hcall
  obtain ⟨_, _, _, _, hinv', _, _, hback⟩ := hwrap.spec idealLawsAll hinv hn hcall
  rw [hinv'.doublyLinked_iff idealLawsAll]
  exact hback 0 hlinks

/-- 5000 bytes on two new pages, put behind the first block. -/
theorem doubly_linked_idealPc : ∃ h h', CallRun idealPager
      (fun h n => NoWrap h n ∧ SplitsOnlyLast h n) idealPc h' [(0xC0201010, 5000)] ∧
    kmalloc idealPager h 5000 = some (0xC0201010, h') ∧ DoublyLinked h' := by
  obtain ⟨h, p, h', hinit, _, hneeds, hserve, hcall, rfl⟩ :=
    @first_request 5000 (by decide) (by decide)
  obtain ⟨last, hfind⟩ := hneeds
  have hstart : CallRun idealPager (fun h n => NoWrap h n ∧ SplitsOnlyLast h n) idealPc h [] :=
    .init hinit
  have hrun := hstart.kmalloc (by decide) ⟨hserve.noWrapping, splitsOnlyLast_end hfind⟩ hcall
  rw [if_neg (by decide)] at hrun
  exact ⟨h, h', hrun, hcall, (doubly_linked idealPc idealPc_ready hrun).1⟩

/-- Twice 100 bytes, the first given back, and 50 of them used again: the block behind the two
halves still names the first one. -/
theorem prev_of_first_half : ∃ h live, CallRun idealPager NoWrap idealPc h live ∧
    ¬ DoublyLinked h := by
  have hrun : ((initHeap idealPager idealPc).bind fun h =>
      (kmalloc idealPager h 100).bind fun r₁ =>
        (kmalloc idealPager r₁.2 100).bind fun r₂ =>
          (kfree r₂.2 r₁.1).bind fun h₃ =>
            (kmalloc idealPager h₃ 50).bind fun r₄ =>
              (printHeapInfo r₄.2.machine 5 r₄.2.firstBlock).bind fun bs =>
                (loadNext r₄.2.machine 0xC0200044).bind fun next =>
                  (loadPrev r₄.2.machine 0xC0200074).map fun prev =>
                    ([h.heapLimit, r₁.2.heapLimit, h₃.heapLimit], r₁.1, r₂.1, bs, next, prev)) =
      some ([0xC0201000, 0xC0201000, 0xC0201000], 0xC0200010, 0xC0200084,
        [⟨0xC0200000, 52, false⟩, ⟨0xC0200044, 32, true⟩, ⟨0xC0200074, 100, false⟩,
          ⟨0xC02000E8, 3848, true⟩], 0xC0200074, 0xC0200000) := by decide +kernel
  obtain ⟨h, hinit, hrun⟩ := Option.bind_eq_some_iff.mp hrun
  obtain ⟨⟨p₁, h₁⟩, hcall₁, hrun⟩ := Option.bind_eq_some_iff.mp hrun
  obtain ⟨⟨p₂, h₂⟩, hcall₂, hrun⟩ := Option.bind_eq_some_iff.mp hrun
  obtain ⟨h₃, hfree, hrun⟩ := Option.bind_eq_some_iff.mp hrun
  obtain ⟨⟨p₄, h₄⟩, hcall₄, hrun⟩ := Option.bind_eq_some_iff.mp hrun
  obtain ⟨bs, hbs, hrun⟩ := Option.bind_eq_some_iff.mp hrun
  obtain ⟨next, hnext, hrun⟩ := Option.bind_eq_some_iff.mp hrun
  obtain ⟨prev, hprev, hrun⟩ := Option.map_eq_some_iff.mp hrun
  simp only [Prod.mk.injEq, List.cons.injEq] at hrun
  obtain ⟨⟨hlim, hlim₁, hlim₃, _⟩, rfl, rfl, rfl, rfl, rfl⟩ := hrun
  have hwrap : ∀ (h : Heap Ideal) (n : Nat), h.heapLimit = 0xC0201000 → n ≤ 100 → NoWrap h n := by
    intro h n hlim hn
    refine Or.inr (Or.inr ⟨?_, ?_⟩)
    · unfold Reasonable roundedUp
      omega
    · unfold neededPages roundedUp
      omega
  have hrun₁ := (CallRun.init hinit).kmalloc (by decide) (hwrap h 100 hlim (by decide)) hcall₁
  have hrun₂ := hrun₁.kmalloc (by decide) (hwrap h₁ 100 hlim₁ (by decide)) hcall₂
  have hrun₃ := hrun₂.kfree (x := (0xC0200010, 100)) (by simp) hfree
  have hrun₄ := hrun₃.kmalloc (by decide) (hwrap h₃ 50 hlim₃ (by decide)) hcall₄
  -- Whatever list the blocks are, it is the one that was printed.
  refine ⟨h₄, _, hrun₄, ?_⟩
  rintro ⟨cs, hlist, _, hlinks⟩
  obtain rfl := hlist.unique (printHeapInfo_blockList hbs)
  have hback := hlinks ⟨0xC0200044, 32, true⟩ (by simp) _ hnext (by decide)
  rw [hprev] at hback
  exact absurd (Option.some.inj hback) (by decide)

end ScratchOs.Mem
