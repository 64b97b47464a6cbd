import ScratchOs.Mem.HeapTiles

/-!
# Requests near the end of the 32-bit range

`kmalloc` takes any 32-bit size. It rounds it up, adds a header, counts pages and moves
`heap_limit` by them, all in 32 bits, and near the end of the range these sums wrap: a request
for nearly 4 GiB then looks like one for a page, or for none.

`NoWrap` is a request to which this does not happen, read off the heap before the call. Runs of
such requests keep the list of blocks in order (`CallRun.inv`), and what they return is as large
as was asked for. One that wraps returns a block that is not (`kmalloc_size`).

A size near the end of the range is not wrong by itself. If a free block is large enough, nothing is
added to it that could wrap; and a size that rounds to 0 is a request for nothing, which `kmalloc`
answers with 0. So `NoWrap` has three alternatives, and a bound on the size would be too strong.

`CallRun` is the run with the condition left open. Several results differ only in which requests
they allow, and they share this one induction.
-/

set_option autoImplicit false

namespace ScratchOs.Mem

open AddressSpace Bits FreeList

section Runs

variable {σ : Type} [AddressSpace σ]

/-- No sum in `kmalloc(n)` wraps: it is for nothing, a block fits, or the pages it takes end below
4 GiB. -/
def NoWrap (h : Heap σ) (n : Nat) : Prop :=
  roundSize n = 0 ∨ ¬ NeedsPages h n ∨
    (Reasonable n ∧ h.heapLimit + neededPages n * 4096 < 4294967296)

/-- The states reached from `init_heap` by requests that are `Allowed`, by giving back what is
live and by writing into it. -/
inductive CallRun (pager : Pager σ) (Allowed : Heap σ → Nat → Prop) (s : σ) :
    Heap σ → List (Nat × Nat) → Prop
  | init {h : Heap σ} (hinit : initHeap pager s = some h) : CallRun pager Allowed s h []
  | kmalloc {h h' : Heap σ} {live : List (Nat × Nat)} {n p : Nat}
      (hrun : CallRun pager Allowed s h live) (hn : n < 4294967296) (hallow : Allowed h n)
      (hcall : kmalloc pager h n = some (p, h')) :
      CallRun pager Allowed s h' (if p = 0 then live else (p, n) :: live)
  | kfree {h h' : Heap σ} {live : List (Nat × Nat)} {x : Nat × Nat}
      (hrun : CallRun pager Allowed s h live) (hx : x ∈ live) (hcall : kfree h x.1 = some h') :
      CallRun pager Allowed s h' (live.erase x)
  | write {h : Heap σ} {live : List (Nat × Nat)} {x : Nat × Nat} {a : Nat} {v : UInt8} {s' : σ}
      (hrun : CallRun pager Allowed s h live) (hx : x ∈ live) (hlo : x.1 ≤ a)
      (hhi : a < x.1 + x.2) (hstore : store8 h.machine a v = some s') :
      CallRun pager Allowed s { h with machine := s' } live

variable {pager : Pager σ} {Owns : σ → Nat → Nat → (Nat → Nat) → Prop}

/-- The invariant: the list is in order and free blocks are merged, and its back links are right
if the run is one of those that keep them. -/
def RunInv (Owns : σ → Nat → Nat → (Nat → Nat) → Prop) (start : Nat) (Linked : Prop) (h : Heap σ)
    (live : List (Nat × Nat)) : Prop :=
  h.firstBlock = start ∧ ∃ τ m bs, HeapInv 4294967295 Owns h τ m bs ∧ LiveIn bs live ∧
    Merged bs ∧ (Linked → BackLinks m 0 bs)

section Step

variable {h h' : Heap σ} {τ : Nat → Nat} {m : Bytes.Mem} {bs : List Block} {n p : Nat}

/-- A request that does not wrap asks for nothing, or the heap ends behind where it did. The three
ways not to wrap are the three ways a call can go; a size that fits a block of the list is one that
a heap can have. -/
theorem NoWrap.stays (laws : PagerLaws pager 4294967295 Owns)
    (hinv : HeapInv 4294967295 Owns h τ m bs) (hn : n < 4294967296) (hwrap : NoWrap h n)
    (hcall : kmalloc pager h n = some (p, h')) :
    (roundSize n = 0 ∧ p = 0 ∧ h' = h) ∨
      (Reasonable n ∧ h.heapLimit ≤ h'.heapLimit ∧ h'.heapLimit ≤ 4294967295) := by
  by_cases hzero : roundSize n = 0
  · rw [Mem.kmalloc, if_pos hzero] at hcall
    obtain ⟨rfl, rfl⟩ := Prod.mk.inj (Option.some.inj hcall)
    exact Or.inl ⟨hzero, rfl, rfl⟩
  have hreason : Reasonable n := by
    rcases hwrap with hz | hfits | ⟨hreason, _⟩
    · exact absurd hz hzero
    · exact hinv.reasonable laws hn hzero hfits
    · exact hreason
  refine Or.inr ⟨hreason, kmalloc_stays laws hinv hreason hcall ?_⟩
  intro hnone
  rcases hwrap with hz | hfits | ⟨_, hroom⟩
  · exact absurd hz hzero
  · exact absurd ((hinv.needsPages_iff laws hreason).mpr hnone) hfits
  · exact Nat.le_of_lt_succ hroom

/-- **What a request that does not wrap does.** All that the runs below carry along, in one place:
the list, what was granted of it, whether it is merged, and its back links. -/
theorem NoWrap.spec (laws : PagerLaws pager 4294967295 Owns)
    (hinv : HeapInv 4294967295 Owns h τ m bs) (hn : n < 4294967296) (hwrap : NoWrap h n)
    (hcall : kmalloc pager h n = some (p, h')) :
    h'.firstBlock = h.firstBlock ∧ ∃ τ' m' bs', HeapInv 4294967295 Owns h' τ' m' bs' ∧
      (p = 0 ∧ bs' = bs ∨ Granted bs bs' p (roundedUp n)) ∧ (Merged bs → Merged bs') ∧
      ∀ q, BackLinks m q bs → (BackLinks m' q bs' ↔ SplitsOnlyLast h n) := by
  rcases hwrap.stays laws hinv hn hcall with ⟨hzero, rfl, rfl⟩ | ⟨hreason, hle, hlim⟩
  · exact ⟨rfl, τ, m, bs, hinv, Or.inl ⟨rfl, rfl⟩, id,
      fun q hlinks => ⟨fun _ => Or.inl hzero, fun _ => hlinks⟩⟩
  · obtain ⟨hfirst, τ', m', bs', hinv', hgrant, _, halloc, hback⟩ :=
      kmalloc_spec laws hinv hreason hcall hle hlim
    exact ⟨hfirst, τ', m', bs', hinv', hgrant, halloc.merged, hback⟩

end Step

section Inv

variable {start : Nat} {Linked : Prop} {h h' : Heap σ} {live : List (Nat × Nat)}

/-! One lemma for each of the three steps, and the run from them. -/

theorem RunInv.kmalloc (laws : PagerLaws pager 4294967295 Owns) {n p : Nat}
    (hok : RunInv Owns start Linked h live) (hn : n < 4294967296) (hwrap : NoWrap h n)
    (hlinked : Linked → SplitsOnlyLast h n) (hcall : kmalloc pager h n = some (p, h')) :
    RunInv Owns start Linked h' (if p = 0 then live else (p, n) :: live) := by
  obtain ⟨hstart, τ, m, bs, hinv, hlive, hmerged, hback⟩ := hok
  obtain ⟨hfirst, τ', m', bs', hinv', hgrant, hmerge, hlinks⟩ := hwrap.spec laws hinv hn hcall
  refine ⟨hfirst.trans hstart, τ', m', bs', hinv', hlive.granted hgrant, hmerge hmerged, ?_⟩
  intro hl
  exact (hlinks 0 (hback hl)).mpr (hlinked hl)

theorem RunInv.kfree (laws : PagerLaws pager 4294967295 Owns) {x : Nat × Nat}
    (hok : RunInv Owns start Linked h live) (hx : x ∈ live) (hcall : kfree h x.1 = some h') :
    RunInv Owns start Linked h' (live.erase x) := by
  obtain ⟨hstart, τ, m, bs, hinv, hlive, _, hback⟩ := hok
  obtain ⟨_, _, _, s, m', rfl, hinv', hlive', hlinks⟩ := hinv.freeLive laws hlive hx hcall
  exact ⟨hstart, τ, m', _, hinv', hlive', merged_coalesce _, fun hl => hlinks 0 (hback hl)⟩

theorem RunInv.write (laws : PagerLaws pager 4294967295 Owns) {x : Nat × Nat} {a : Nat}
    {v : UInt8} {s' : σ} (hok : RunInv Owns start Linked h live) (hx : x ∈ live) (hlo : x.1 ≤ a)
    (hhi : a < x.1 + x.2) (hstore : store8 h.machine a v = some s') :
    RunInv Owns start Linked { h with machine := s' } live := by
  obtain ⟨hstart, τ, m, bs, hinv, hlive, hmerged, hback⟩ := hok
  obtain ⟨m', hinv', hlinks⟩ := hinv.writeLive laws hlive hx hlo hhi hstore
  exact ⟨hstart, τ, m', bs, hinv', hlive, hmerged, fun hl => hlinks 0 (hback hl)⟩

/-- The run lemma. It is about any requests that do not wrap; whether the back links are right is
decided by what else is `Allowed`, so the runs that keep them and those that need not share it. -/
theorem CallRun.inv (laws : PagerLaws pager 4294967295 Owns) {s : σ}
    {Allowed : Heap σ → Nat → Prop} (hallow : ∀ h n, Allowed h n → NoWrap h n)
    (hinit : ∀ h, initHeap pager s = some h →
      RunInv Owns start (∀ h n, Allowed h n → SplitsOnlyLast h n) h [])
    (hrun : CallRun pager Allowed s h live) :
    RunInv Owns start (∀ h n, Allowed h n → SplitsOnlyLast h n) h live := by
  induction hrun with
  | init hcall => exact hinit _ hcall
  | kmalloc _ hn hallowed hcall ih =>
    exact ih.kmalloc laws hn (hallow _ _ hallowed) (fun hl => hl _ _ hallowed) hcall
  | kfree _ hx hcall ih => exact ih.kfree laws hx hcall
  | write _ hx hlo hhi hstore ih => exact ih.write laws hx hlo hhi hstore

end Inv

end Runs

/-- On the ideal machine. -/
theorem CallRun.ideal {Allowed : Heap Ideal → Nat → Prop}
    (hallow : ∀ h n, Allowed h n → NoWrap h n) {s : Ideal} (hs : s.Ready) {h : Heap Ideal}
    {live : List (Nat × Nat)} (hrun : CallRun idealPager Allowed s h live) :
    RunInv Ideal.Owns (paVa (s.supply s.calls)) (∀ h n, Allowed h n → SplitsOnlyLast h n)
      h live := by
  refine hrun.inv idealLawsAll hallow fun h₁ hinit => ?_
  obtain ⟨h₂, m, hinit₂, hfirst, _, _, hinv, hlinks⟩ :=
    initHeap_spec idealLawsAll (hs.fresh.owns_first hs.page hs.direct) hs.pos
      (paVa_mod (hs.fresh.aligned s.calls)) (Nat.le_of_lt_succ hs.limit)
  rw [hinit] at hinit₂
  obtain rfl := Option.some.inj hinit₂
  refine ⟨hfirst, _, m, _, hinv, ⟨List.nodup_nil, ?_⟩, List.isChain_singleton _, fun _ => hlinks⟩
  intro x hx
  exact absurd hx List.not_mem_nil

/-! ## The size of what is returned -/

section Sizes

variable {σ : Type} [AddressSpace σ]

/-- The block at `p - 16` has `n` bytes for the caller, in the heap and mapped, and the header
behind it is none of its bytes. -/
structure Respected (h : Heap σ) (p n : Nat) : Prop where
  header : ∃ size next, loadSize h.machine (p - 16) = some size ∧
    loadNext h.machine (p - 16) = some next ∧ n ≤ size ∧
    (next = 0 ∨ next + 16 ≤ p - 16 ∨ p + size ≤ next)
  noWrap : p + n ≤ 4294967296
  inside : h.firstBlock ≤ p - 16 ∧ p + n ≤ h.heapLimit
  mapped : ∀ a, p ≤ a → a < p + n → ∃ v, load8 h.machine a = some v

variable {pager : Pager σ} {Owns : σ → Nat → Nat → (Nat → Nat) → Prop} {h h' : Heap σ}
  {τ : Nat → Nat} {m : Bytes.Mem} {bs bs' : List Block} {n p : Nat}

/-- The blocks of a heap in order are as large as their headers say, whoever asked for them. -/
theorem HeapInv.respected {top : Nat} (laws : PagerLaws pager top Owns)
    (hinv : HeapInv top Owns h τ m bs) {b : Block} (hb : b ∈ bs) (hsize : n ≤ b.size) :
    Respected h (b.addr + 16) n := by
  have hin := hinv.inside hb
  have hlim := hinv.limit_lt laws
  have hshow := (hinv.view laws).shows
  have hload := hinv.reads_size laws hb
  obtain ⟨pre, post, rfl⟩ := List.append_of_mem hb
  obtain ⟨_, _, hlaid⟩ := laid_append.mp hinv.laid
  constructor
  · rw [Nat.add_sub_cancel]
    refine ⟨b.size, _, hload, hinv.reads_next laws, hsize, ?_⟩
    cases post with
    | nil => exact Or.inl rfl
    | cons c cs =>
      have hc : b.stop 16 ≤ c.addr := hlaid.2.2.2.1
      exact Or.inr (Or.inr hc)
  · omega
  · omega
  · intro a hlo hhi
    exact ⟨m a, hshow.load8 (by omega) (by omega)⟩

/-- What a request for new pages returns, whether its sums wrap or not. The list of blocks need not
be in order afterwards, and nothing is said of it; the pointer and the limit are read off the
calls. -/
theorem kmalloc_new_pages (laws : PagerLaws pager 4294967295 Owns)
    (hinv : HeapInv 4294967295 Owns h τ m bs) (hzero : roundSize n ≠ 0) (hneeds : NeedsPages h n)
    (hcall : kmalloc pager h n = some (p, h')) (hp : p ≠ 0) :
    p = h.heapLimit + 16 ∧ h'.heapLimit =
      u32 (h.heapLimit + u32 (u32 (roundSize n + blockHeader) + 4095) / 4096 * 4096) := by
  have hlim := hinv.limit_lt laws
  have hpage := hinv.page
  have hpos := hinv.pos
  have hle := hinv.laid.le
  obtain ⟨last, hfind⟩ := hneeds
  rw [kmalloc_end hzero hfind] at hcall
  obtain ⟨⟨a, h₁⟩, hexp, hcall⟩ := Option.bind_eq_some_iff.mp hcall
  obtain ⟨⟨ok, h₂⟩, hgrow, hexp⟩ := Option.bind_eq_some_iff.mp hexp
  obtain ⟨_, j, _, hok, hlimit, _⟩ := growHeap_eq laws _ hgrow hlim
  cases ok with
  | false =>
    -- Without pages it returns 0.
    obtain ⟨rfl, rfl⟩ := Prod.mk.inj (Option.some.inj hexp)
    obtain ⟨rfl, rfl⟩ := Prod.mk.inj (Option.some.inj hcall)
    exact absurd rfl hp
  | true =>
    obtain ⟨s, _, hexp⟩ := Option.bind_eq_some_iff.mp hexp
    obtain ⟨rfl, rfl⟩ := Prod.mk.inj (Option.some.inj hexp)
    change (if h.heapLimit = 0 then _ else _) = _ at hcall
    rw [if_neg (by omega)] at hcall
    obtain ⟨rfl, rfl⟩ := Prod.mk.inj (Option.some.inj hcall)
    rw [hok rfl] at hlimit
    refine ⟨?_, hlimit⟩
    rw [blockHeader, u32_of_lt (by omega)]

/-- A request for new pages that ends below the new limit has not wrapped. There are three sums that
can: the rounded size, the size with its header rounded up to pages, and the limit with the pages
added. Each of them, once wrapped, leaves too few pages for what was asked for. -/
theorem noWrap_of_below {limit : Nat} (hlim : limit < 4294967296) (hpage : limit % 4096 = 0)
    (hpos : 0 < limit) (hbelow : limit + 16 + n ≤
      u32 (limit + u32 (u32 (roundSize n + blockHeader) + 4095) / 4096 * 4096)) :
    Reasonable n ∧ limit + neededPages n * 4096 < 4294967296 := by
  have hlt := u32_lt (limit + u32 (u32 (roundSize n + blockHeader) + 4095) / 4096 * 4096)
  have hround : u32 (limit + u32 (u32 (roundSize n + blockHeader) + 4095) / 4096 * 4096) % 4096 =
      0 := by
    unfold u32
    omega
  have hreason : Reasonable n := by
    unfold Reasonable roundedUp
    omega
  obtain ⟨hneed, hpages⟩ := pages_lt hreason
  rw [roundSize_eq hreason, hneed, hpages] at hbelow
  refine ⟨hreason, ?_⟩
  -- The limit would have come to lie below where it was.
  unfold Reasonable at hreason
  unfold u32 at hbelow
  unfold neededPages
  omega

/-- **The condition is exact.** One direction is the specification of a request that does not wrap.
In the other a block that was in the list has fitted, which is no wrap, or new pages were taken and
the block ends below the new limit. -/
theorem respected_iff (laws : PagerLaws pager 4294967295 Owns)
    (hinv : HeapInv 4294967295 Owns h τ m bs) (hn : n < 4294967296)
    (hcall : kmalloc pager h n = some (p, h')) (hp : p ≠ 0) :
    Respected h' p n ↔ NoWrap h n := by
  constructor
  · intro hresp
    by_cases hzero : roundSize n = 0
    · exact Or.inl hzero
    by_cases hneeds : NeedsPages h n
    · obtain ⟨rfl, hlimit⟩ := kmalloc_new_pages laws hinv hzero hneeds hcall hp
      have hbelow := hresp.inside.2
      have hpos := hinv.pos
      have hle := hinv.laid.le
      rw [hlimit] at hbelow
      exact Or.inr (Or.inr (noWrap_of_below (hinv.limit_lt laws) hinv.page (by omega) hbelow))
    · exact Or.inr (Or.inl hneeds)
  · intro hwrap
    obtain ⟨_, τ', m', bs', hinv', hgrant, _⟩ := hwrap.spec laws hinv hn hcall
    rcases hgrant with ⟨hz, _⟩ | hgrant
    · exact absurd hz hp
    · obtain ⟨b, hb, _, rfl, hsize⟩ := hgrant.block
      exact hinv'.respected laws hb (Nat.le_trans (le_roundedUp n) hsize)

end Sizes

/-- **A block is as large as was asked for**, in every state that requests without wrapping lead
to, if and only if the request for it does not wrap either. After one that has wrapped the list may
be anything, so the run stops there. -/
theorem kmalloc_size (s : Ideal) (hs : s.Ready) {h : Heap Ideal} {live : List (Nat × Nat)}
    (hrun : CallRun idealPager NoWrap s h live) {n p : Nat} {h' : Heap Ideal}
    (hn : n < 4294967296) (hcall : kmalloc idealPager h n = some (p, h')) (hp : p ≠ 0) :
    Respected h' p n ↔ NoWrap h n := by
  obtain ⟨_, _, _, _, hinv, _⟩ := hrun.ideal (fun _ _ hwrap => hwrap) hs
  exact respected_iff idealLawsAll hinv hn hcall hp

/-- A request that can be served does not wrap. -/
theorem Serves.noWrapping {h : Heap Ideal} {n : Nat} (hserve : Serves h n) : NoWrap h n := by
  by_cases hneeds : NeedsPages h n
  · exact Or.inr (Or.inr ⟨hserve.reasonable, hserve.noWrap hneeds⟩)
  · exact Or.inr (Or.inl hneeds)

/-- 5000 bytes on two new pages. -/
theorem kmalloc_size_idealPc : ∃ h h', CallRun idealPager NoWrap idealPc h [] ∧
    kmalloc idealPager h 5000 = some (0xC0201010, h') ∧ Respected h' 0xC0201010 5000 := by
  obtain ⟨h, p, h', hinit, _, _, hserve, hcall, rfl⟩ :=
    @first_request 5000 (by decide) (by decide)
  have hrun : CallRun idealPager NoWrap idealPc h [] := .init hinit
  refine ⟨h, h', hrun, hcall, ?_⟩
  exact (kmalloc_size idealPc idealPc_ready hrun (by decide) hcall (by decide)).mpr
    hserve.noWrapping

/-- 16 bytes less than 4 GiB come to no page at all: the header is written behind the heap, and
the caller is given what follows it. -/
theorem kmalloc_wraps : ∃ h h', CallRun idealPager (fun _ _ => True) idealPc h [] ∧
    kmalloc idealPager h 0xFFFFFFF0 = some (0xC0201010, h') ∧
    ¬ Respected h' 0xC0201010 0xFFFFFFF0 := by
  have hrun : ((initHeap idealPager idealPc).bind fun h =>
      (kmalloc idealPager h 0xFFFFFFF0).map Prod.fst) = some 0xC0201010 := by decide +kernel
  obtain ⟨h, hinit, hcall⟩ := Option.bind_eq_some_iff.mp hrun
  obtain ⟨⟨p, h'⟩, hcall, rfl⟩ := Option.map_eq_some_iff.mp hcall
  refine ⟨h, h', .init hinit, hcall, ?_⟩
  intro hresp
  exact absurd hresp.noWrap (by decide)

end ScratchOs.Mem
