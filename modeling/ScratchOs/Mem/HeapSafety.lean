import ScratchOs.Mem.HeapCalls
import Mathlib.Data.List.Nodup

/-!
# The heap over whole runs

A run starts with `init_heap` and goes on with calls of `kmalloc` and `kfree`, and with what
the callers write into the memory they were given. `HeapOk` is the invariant of such a run:
`HeapInv` for some list of blocks, with every live allocation among the blocks in use.

`Ideal` is the machine on which the heap is judged by itself: `pmm_alloc_page` hands out the
pages of a supply in which no page occurs twice, or 0, and `map_page` installs the mapping.

The result is said with loads and not with the invariant. `HeapSafe` speaks of what a walk along
`next` reads, of the words at fixed offsets from a pointer, of bytes in payloads: all of it could be
checked on the machine, and none of it mentions a window or a translation.

Callers are part of a run. They write into what they have been given, up to the size they asked for,
and at any time; a heap whose callers never write would keep its headers whatever it did. Giving
back what is not live is left out: `kfree` has no way to tell, and marks whatever byte is there.
-/

set_option autoImplicit false

namespace ScratchOs.Mem

open AddressSpace Bits FreeList

/-! ## Live allocations -/

/-- Every live allocation, a pointer and the size asked for, has a block in use. -/
structure LiveIn (bs : List Block) (live : List (Nat × Nat)) : Prop where
  nodup : (live.map Prod.fst).Nodup
  block : ∀ x ∈ live, ∃ b ∈ bs, b.free = false ∧ x.1 = b.addr + 16 ∧ x.2 ≤ b.size

/-- Sizes are rounded up, so a block that is large enough for the rounded size is for the other. -/
theorem le_roundedUp (n : Nat) : n ≤ roundedUp n := by
  unfold roundedUp
  omega

/-- The new pointer is none of the old ones: their blocks were in use, and that of `p` was not. -/
theorem LiveIn.grant {bs bs' : List Block} {live : List (Nat × Nat)} {p n : Nat}
    (h : LiveIn bs live) (hgrant : Granted bs bs' p (roundedUp n)) :
    LiveIn bs' ((p, n) :: live) := by
  refine ⟨List.nodup_cons.mpr ⟨fun hmem => ?_, h.nodup⟩, fun x hx => ?_⟩
  · obtain ⟨x, hx, rfl⟩ := List.mem_map.mp hmem
    obtain ⟨b, hb, hfree, hptr, _⟩ := h.block x hx
    exact hgrant.new b hb hfree hptr
  · rcases List.mem_cons.mp hx with rfl | hx
    · obtain ⟨b, hb, hfree, hptr, hsize⟩ := hgrant.block
      exact ⟨b, hb, hfree, hptr, Nat.le_trans (le_roundedUp n) hsize⟩
    · obtain ⟨b, hb, hfree, hptr, hsize⟩ := h.block x hx
      exact ⟨b, hgrant.kept b hb hfree, hfree, hptr, hsize⟩

/-- The live allocations after a `kmalloc`. -/
theorem LiveIn.granted {bs bs' : List Block} {live : List (Nat × Nat)} {p n : Nat}
    (h : LiveIn bs live) (hgrant : p = 0 ∧ bs' = bs ∨ Granted bs bs' p (roundedUp n)) :
    LiveIn bs' (if p = 0 then live else (p, n) :: live) := by
  rcases hgrant with ⟨rfl, rfl⟩ | hgrant
  · rw [if_pos rfl]
    exact h
  · have hp : p ≠ 0 := by
      obtain ⟨_, _, _, hp, _⟩ := hgrant.block
      omega
    rw [if_neg hp]
    exact h.grant hgrant

/-- What is left after one allocation is given back has other pointers. -/
theorem LiveIn.ne_of_erase {bs : List Block} {live : List (Nat × Nat)} {x y : Nat × Nat}
    (h : LiveIn bs live) (hx : x ∈ live) (hy : y ∈ live.erase x) : y ∈ live ∧ y.1 ≠ x.1 := by
  have hnd : live.Nodup := h.nodup.of_map _
  obtain ⟨hne, hy⟩ := hnd.mem_erase_iff.mp hy
  refine ⟨hy, fun heq => hne ?_⟩
  exact List.inj_on_of_nodup_map h.nodup hy hx heq

/-- The live allocations after a `kfree`: their blocks are other blocks than the one that was
freed. -/
theorem LiveIn.erase {bs bs' : List Block} {live : List (Nat × Nat)} {x : Nat × Nat} {b : Block}
    (h : LiveIn bs live) (hx : x ∈ live) (hptr : x.1 = b.addr + 16)
    (hkept : ∀ c ∈ bs, c.free = false → c ≠ b → c ∈ bs') : LiveIn bs' (live.erase x) := by
  refine ⟨h.nodup.sublist (List.erase_sublist.map _), fun y hy => ?_⟩
  obtain ⟨hy, hne⟩ := h.ne_of_erase hx hy
  obtain ⟨c, hc, hfree, hcptr, hsize⟩ := h.block y hy
  refine ⟨c, hkept c hc hfree ?_, hfree, hcptr, hsize⟩
  rintro rfl
  exact hne (hcptr.trans hptr.symm)

/-! ## Runs -/

section Runs

variable {σ : Type} [AddressSpace σ]

/-- The list is what a walk along the `next` fields meets, until NULL. -/
def BlockList (s : σ) : Nat → List Block → Prop
  | a, [] => a = 0
  | a, b :: bs => a = b.addr ∧ a ≠ 0 ∧ loadSize s a = some b.size ∧ loadFree s a = some b.free ∧
      ∃ next, loadNext s a = some next ∧ BlockList s next bs

/-- The bytes of the payloads of these allocations, up to the size in the header, are in `h'`
what they are in `h`. -/
def PayloadsKept (h h' : Heap σ) (live : List (Nat × Nat)) : Prop :=
  ∀ x ∈ live, ∃ size, loadSize h.machine (x.1 - 16) = some size ∧ x.2 ≤ size ∧
    ∀ a, x.1 ≤ a → a < x.1 + size →
      ∃ v, load8 h.machine a = some v ∧ load8 h'.machine a = some v

/-- The call asks for so little that no 32-bit sum in it wraps. -/
def Reasonable (n : Nat) : Prop := roundedUp n + 16 + 4095 < 4294967296

/-- The heap has not shrunk, or grown into the frame buffer. -/
def StaysBelow (h h' : Heap σ) : Prop :=
  h.heapLimit ≤ h'.heapLimit ∧ h'.heapLimit ≤ videoVrtAddr

/-- The states reached from `init_heap`, each with its live allocations. -/
inductive HeapRun (pager : Pager σ) (s : σ) : Heap σ → List (Nat × Nat) → Prop
  | init {h : Heap σ} (hinit : initHeap pager s = some h) : HeapRun pager s h []
  | kmalloc {h h' : Heap σ} {live : List (Nat × Nat)} {n p : Nat} (hrun : HeapRun pager s h live)
      (hn : Reasonable n) (hcall : kmalloc pager h n = some (p, h')) (hlim : StaysBelow h h') :
      HeapRun pager s h' (if p = 0 then live else (p, n) :: live)
  | kfree {h h' : Heap σ} {live : List (Nat × Nat)} {x : Nat × Nat} (hrun : HeapRun pager s h live)
      (hx : x ∈ live) (hcall : kfree h x.1 = some h') : HeapRun pager s h' (live.erase x)
  | write {h : Heap σ} {live : List (Nat × Nat)} {x : Nat × Nat} {a : Nat} {v : UInt8} {s' : σ}
      (hrun : HeapRun pager s h live) (hx : x ∈ live) (hlo : x.1 ≤ a) (hhi : a < x.1 + x.2)
      (hstore : store8 h.machine a v = some s') : HeapRun pager s { h with machine := s' } live

variable {pager : Pager σ} {Owns : σ → Nat → Nat → (Nat → Nat) → Prop} {start top : Nat}

/-- The invariant of runs: there is a list of blocks that is in order, and the live allocations have
theirs in it. What the list is, and what the window shows, is not remembered between calls. -/
def HeapOk (top : Nat) (Owns : σ → Nat → Nat → (Nat → Nat) → Prop) (start : Nat)
    (h : Heap σ) (live : List (Nat × Nat)) : Prop :=
  h.firstBlock = start ∧ ∃ τ m bs, HeapInv top Owns h τ m bs ∧ LiveIn bs live

theorem HeapOk.kmalloc (laws : PagerLaws pager top Owns) {h h' : Heap σ} {live : List (Nat × Nat)}
    {n p : Nat} (hok : HeapOk top Owns start h live) (hn : Reasonable n)
    (hcall : kmalloc pager h n = some (p, h'))
    (hlim : h.heapLimit ≤ h'.heapLimit ∧ h'.heapLimit ≤ top) :
    HeapOk top Owns start h' (if p = 0 then live else (p, n) :: live) := by
  obtain ⟨hstart, τ, m, bs, hinv, hlive⟩ := hok
  obtain ⟨hfirst, τ', m', bs', hinv', hgrant, _⟩ :=
    kmalloc_spec laws hinv hn hcall hlim.1 hlim.2
  exact ⟨hfirst.trans hstart, τ', m', bs', hinv', hlive.granted hgrant⟩

/-- A live allocation is given back. -/
theorem HeapInv.freeLive (laws : PagerLaws pager top Owns) {h h' : Heap σ} {τ : Nat → Nat}
    {m : Bytes.Mem} {bs : List Block} {live : List (Nat × Nat)} {x : Nat × Nat}
    (hinv : HeapInv top Owns h τ m bs) (hlive : LiveIn bs live) (hx : x ∈ live)
    (hcall : Mem.kfree h x.1 = some h') :
    ∃ b ∈ bs, x.1 = b.addr + 16 ∧ ∃ s m', h' = { h with machine := s } ∧
      HeapInv top Owns h' τ m' (coalesce 16 (release b.addr bs)) ∧
      LiveIn (coalesce 16 (release b.addr bs)) (live.erase x) ∧
      ∀ p, BackLinks m p bs → BackLinks m' p (coalesce 16 (release b.addr bs)) := by
  obtain ⟨b, hb, _, hptr, _⟩ := hlive.block x hx
  obtain ⟨s, m', hrun, hinv', hkept, _, _, hlinks⟩ := kfree_spec laws hinv hb
  rw [hptr, hrun] at hcall
  obtain rfl := Option.some.inj hcall
  exact ⟨b, hb, hptr, s, m', rfl, hinv', hlive.erase hx hptr hkept, hlinks⟩

theorem HeapOk.kfree (laws : PagerLaws pager top Owns) {h h' : Heap σ} {live : List (Nat × Nat)}
    {x : Nat × Nat} (hok : HeapOk top Owns start h live) (hx : x ∈ live)
    (hcall : kfree h x.1 = some h') : HeapOk top Owns start h' (live.erase x) := by
  obtain ⟨hstart, τ, m, bs, hinv, hlive⟩ := hok
  obtain ⟨_, _, _, s, m', rfl, hinv', hlive', _⟩ := hinv.freeLive laws hlive hx hcall
  exact ⟨hstart, τ, m', _, hinv', hlive'⟩

/-- A caller writes into what it was given: no header is there. -/
theorem HeapInv.write (laws : PagerLaws pager top Owns) {h : Heap σ} {τ : Nat → Nat}
    {m : Bytes.Mem} {bs : List Block} {b : Block} {a : Nat} {v : UInt8} {s' : σ}
    (hinv : HeapInv top Owns h τ m bs) (hb : b ∈ bs) (hlo : b.addr + 16 ≤ a)
    (hhi : a < b.stop 16) (hstore : store8 h.machine a v = some s') :
    ∃ m', HeapInv top Owns { h with machine := s' } τ m' bs ∧
      ∀ p, BackLinks m p bs → BackLinks m' p bs := by
  have hmem := hinv.laid.mem hb
  obtain ⟨s₁, hs₁, v₁⟩ := (hinv.view laws).store8 (a := a) (by omega) (by omega) v
  rw [hs₁] at hstore
  obtain rfl := Option.some.inj hstore
  have hout := OutsideHeaders.of_payload hinv.laid hb hlo hhi
  have hseg : Seg (Bytes.store8 m a v) h.firstBlock bs 0 := by
    refine hinv.chain.congr fun c hc i hi => Bytes.store8_of_ne v ?_
    have := hout c hc
    omega
  refine ⟨_, hinv.after laws v₁ hseg hinv.laid, fun p hlinks => hlinks.congr fun c hc i hi => ?_⟩
  refine Bytes.store8_of_ne v ?_
  have := hout c hc
  omega

/-- The same, for an address in what a live allocation asked for. -/
theorem HeapInv.writeLive (laws : PagerLaws pager top Owns) {h : Heap σ} {τ : Nat → Nat}
    {m : Bytes.Mem} {bs : List Block} {live : List (Nat × Nat)} {x : Nat × Nat} {a : Nat}
    {v : UInt8} {s' : σ} (hinv : HeapInv top Owns h τ m bs) (hlive : LiveIn bs live) (hx : x ∈ live)
    (hlo : x.1 ≤ a) (hhi : a < x.1 + x.2) (hstore : store8 h.machine a v = some s') :
    ∃ m', HeapInv top Owns { h with machine := s' } τ m' bs ∧
      ∀ p, BackLinks m p bs → BackLinks m' p bs := by
  obtain ⟨b, hb, _, hptr, hsize⟩ := hlive.block x hx
  have hstop : a < b.stop 16 := by
    unfold Block.stop
    omega
  exact hinv.write laws hb (by omega) hstop hstore

theorem HeapOk.write (laws : PagerLaws pager top Owns) {h : Heap σ} {live : List (Nat × Nat)}
    {x : Nat × Nat} {a : Nat} {v : UInt8} {s' : σ} (hok : HeapOk top Owns start h live)
    (hx : x ∈ live) (hlo : x.1 ≤ a) (hhi : a < x.1 + x.2)
    (hstore : store8 h.machine a v = some s') :
    HeapOk top Owns start { h with machine := s' } live := by
  obtain ⟨hstart, τ, m, bs, hinv, hlive⟩ := hok
  obtain ⟨m', hinv', _⟩ := hinv.writeLive laws hlive hx hlo hhi hstore
  exact ⟨hstart, τ, m', bs, hinv', hlive⟩

/-- The run lemma. What `init_heap` leaves is the induction's beginning and taken as a hypothesis:
it depends on the machine, where the steps depend on the laws of the pager only. -/
theorem HeapRun.ok (laws : PagerLaws pager videoVrtAddr Owns) {s : σ}
    (hinit : ∀ h, initHeap pager s = some h → HeapOk videoVrtAddr Owns start h [])
    {h : Heap σ} {live : List (Nat × Nat)} (hrun : HeapRun pager s h live) :
    HeapOk videoVrtAddr Owns start h live := by
  induction hrun with
  | init hcall => exact hinit _ hcall
  | kmalloc _ hn hcall hlim ih => exact ih.kmalloc laws hn hcall hlim
  | kfree _ hx hcall ih => exact ih.kfree laws hx hcall
  | write _ hx hlo hhi hstore ih => exact ih.write laws hx hlo hhi hstore

/-- The list of the window's memory, seen through loads. No block is at NULL, so the walk does not
stop early. -/
theorem Seg.blockList {s : σ} {lo hi unit : Nat} {τ : Nat → Nat} {m : Bytes.Mem}
    (hshow : Shows s lo hi τ m) (hlo : 0 < lo) {bs : List Block} :
    ∀ {start a : Nat}, lo ≤ start → Laid 16 unit hi start bs → Seg m a bs 0 →
      BlockList s a bs := by
  induction bs with
  | nil => exact fun _ _ h => h
  | cons b bs ih =>
    rintro start a hst hlaid ⟨rfl, ⟨hsize, hfree⟩, hrest⟩
    have hmem := hlaid.mem (b := b) (by simp)
    obtain ⟨_, _, _, hlaid'⟩ := hlaid
    unfold Block.stop at hmem
    have hlo' : lo ≤ b.addr := by omega
    have hhi' : b.addr + 16 ≤ hi := by omega
    refine ⟨rfl, by omega, ?_, ?_, _, loadNext_eq hshow hlo' hhi', ih ?_ hlaid' hrest⟩
    · rw [loadSize_eq hshow hlo' hhi', hsize]
    · rw [loadFree_eq hshow hlo' hhi', hfree]
    · unfold Block.stop
      omega

/-- What holds of a heap that is in order, said with loads. -/
structure HeapSafe (h : Heap σ) (live : List (Nat × Nat)) (bs : List Block) : Prop where
  list : BlockList h.machine h.firstBlock bs
  increasing : bs.Pairwise fun b c => b.addr < c.addr
  inside : ∀ b ∈ bs, h.firstBlock ≤ b.addr ∧ b.addr + 16 + b.size ≤ h.heapLimit
  disjoint : bs.Pairwise fun b c => ∀ a, ¬ ((b.addr ≤ a ∧ a < b.addr + 16 + b.size) ∧
    (c.addr ≤ a ∧ a < c.addr + 16 + c.size))
  nodup : (live.map Prod.fst).Nodup
  pointer : ∀ x ∈ live, x.1 % 4 = 0 ∧
    ∃ b ∈ bs, b.free = false ∧ x.1 = b.addr + 16 ∧ x.2 ≤ b.size

/-- The invariant in the words of `HeapSafe`; nothing of windows and translations is left in it. -/
theorem HeapOk.safe (laws : PagerLaws pager top Owns) {h : Heap σ} {live : List (Nat × Nat)}
    (hok : HeapOk top Owns start h live) : ∃ bs, HeapSafe h live bs := by
  obtain ⟨hstart, τ, m, bs, hinv, hlive⟩ := hok
  have hpair := hinv.laid.pairwise
  refine ⟨bs, ?_, ?_, ?_, ?_, hlive.nodup, ?_⟩
  · exact hinv.chain.blockList (hinv.view laws).shows hinv.pos (Nat.le_refl _) hinv.laid
  · refine hpair.imp fun {b c} hbc => ?_
    unfold Block.stop at hbc
    omega
  · exact fun b hb => hinv.inside hb
  · refine hpair.imp fun {b c} hbc a ha => ?_
    unfold Block.stop at hbc
    omega
  · intro x hx
    obtain ⟨b, hb, hfree, hptr, hsize⟩ := hlive.block x hx
    have hmem := hinv.laid.mem hb
    exact ⟨by omega, b, hb, hfree, hptr, hsize⟩

/-- A live allocation reads the same through two heaps whose windows show the same payloads, even if
the second one translates addresses in another way. -/
theorem payloadsKept_of_inv (laws : PagerLaws pager top Owns) {h h' : Heap σ} {τ τ' : Nat → Nat}
    {m m' : Bytes.Mem} {bs bs' : List Block} {live : List (Nat × Nat)}
    (hinv : HeapInv top Owns h τ m bs) (hinv' : HeapInv top Owns h' τ' m' bs')
    (hfirst : h'.firstBlock = h.firstBlock) (hle : h.heapLimit ≤ h'.heapLimit)
    (hlive : ∀ x ∈ live, ∃ b ∈ bs, b.free = false ∧ x.1 = b.addr + 16 ∧ x.2 ≤ b.size)
    (hkeep : KeepsPayloads bs m m') : PayloadsKept h h' live := by
  intro x hx
  obtain ⟨b, hb, hfree, hptr, hsize⟩ := hlive x hx
  have hin := hinv.inside hb
  have hshow := (hinv.view laws).shows
  have hshow' := (hinv'.view laws).shows
  have haddr : x.1 - 16 = b.addr := by omega
  have hstop : b.stop 16 = x.1 + b.size := by
    unfold Block.stop
    omega
  refine ⟨b.size, ?_, hsize, fun a hlo hhi => ⟨m a, hshow.load8 (by omega) (by omega), ?_⟩⟩
  · rw [haddr]
    exact hinv.reads_size laws hb
  · rw [hshow'.load8 (by omega) (by omega), hkeep b hb hfree a (by omega) (by omega)]

theorem HeapOk.kmalloc_keeps (laws : PagerLaws pager top Owns) {h h' : Heap σ}
    {live : List (Nat × Nat)} {n p : Nat} (hok : HeapOk top Owns start h live) (hn : Reasonable n)
    (hcall : Mem.kmalloc pager h n = some (p, h'))
    (hlim : h.heapLimit ≤ h'.heapLimit ∧ h'.heapLimit ≤ top) :
    PayloadsKept h h' live := by
  obtain ⟨hstart, τ, m, bs, hinv, hlive⟩ := hok
  obtain ⟨hfirst, τ', m', bs', hinv', _, hkeep, _⟩ := kmalloc_spec laws hinv hn hcall hlim.1 hlim.2
  exact payloadsKept_of_inv laws hinv hinv' hfirst hlim.1 hlive.block hkeep

theorem HeapOk.kfree_keeps (laws : PagerLaws pager top Owns) {h : Heap σ} {live : List (Nat × Nat)}
    {x : Nat × Nat} (hok : HeapOk top Owns start h live) (hx : x ∈ live) :
    ∃ h', Mem.kfree h x.1 = some h' ∧ PayloadsKept h h' live := by
  obtain ⟨hstart, τ, m, bs, hinv, hlive⟩ := hok
  obtain ⟨b, hb, _, hptr, _⟩ := hlive.block x hx
  obtain ⟨s, m', hrun, hinv', _, hkeep, _⟩ := kfree_spec laws hinv hb
  refine ⟨_, by rw [hptr, hrun], ?_⟩
  exact payloadsKept_of_inv laws hinv hinv' rfl (Nat.le_refl _) hlive.block
    fun c hc _ => hkeep c hc

/-- A request returns if there is room for its pages and the pager can map them. -/
theorem HeapOk.kmalloc_returns (laws : PagerLaws pager top Owns) {h : Heap σ}
    {live : List (Nat × Nat)} {n : Nat} (hok : HeapOk top Owns start h live) (hn : Reasonable n)
    (hroom : h.heapLimit + (roundedUp n + 16 + 4095) / 4096 * 4096 ≤ top)
    (hgrow : ∃ r, growHeap pager ((roundedUp n + 16 + 4095) / 4096) h = some r) :
    ∃ p h', Mem.kmalloc pager h n = some (p, h') ∧ h.heapLimit ≤ h'.heapLimit ∧
      h'.heapLimit ≤ top := by
  obtain ⟨_, τ, m, bs, hinv, _⟩ := hok
  obtain ⟨p, h', hcall, hlim⟩ := Mem.kmalloc_returns laws hinv hn (fun _ => hroom) fun _ => hgrow
  exact ⟨p, h', hcall, hlim⟩

end Runs

/-! ## The heap by itself -/

/-- Physical memory, the mapping of virtual pages to frames, and the answers `pmm_alloc_page`
is going to give, call by call. -/
structure Ideal where
  mem : Bytes.Mem
  pages : Nat → Option Nat
  supply : Nat → Nat
  calls : Nat

instance : AddressSpace Ideal where
  translate s a := (s.pages (a / 4096)).map (· * 4096 + a % 4096)
  mem s := s.mem
  setMem s m := { s with mem := m }
  mem_setMem _ _ := rfl
  setMem_setMem _ _ _ := rfl
  setMem_mem _ := rfl

def idealPager : Pager Ideal where
  pmmAllocPage s := (s.supply s.calls, { s with calls := s.calls + 1 })
  mapPage s v p := some { s with pages := Function.update s.pages (v / 4096) (some (p / 4096)) }

/-- The answers are pages, and no page is handed out twice. -/
structure Ideal.Fresh (s : Ideal) : Prop where
  aligned : ∀ i, s.supply i % 4096 = 0
  distinct : ∀ i j, s.supply i = s.supply j → s.supply i ≠ 0 → i = j

/-- The pages behind the window have been handed out, each for one of its pages. -/
structure Ideal.Owns (s : Ideal) (lo hi : Nat) (τ : Nat → Nat) : Prop where
  fresh : s.Fresh
  page : ∀ a, lo ≤ a → a < hi → ∃ i < s.calls, s.supply i ≠ 0 ∧
    s.pages (a / 4096) = some (s.supply i / 4096) ∧ τ a = s.supply i + a % 4096
  inj : ∀ a b, lo ≤ a → a < hi → lo ≤ b → b < hi → τ a = τ b → a = b

theorem Ideal.Fresh.div_mul {s : Ideal} (h : s.Fresh) (i : Nat) :
    s.supply i / 4096 * 4096 = s.supply i :=
  Nat.div_mul_cancel (Nat.dvd_of_mod_eq_zero (h.aligned i))

theorem Ideal.Owns.translate {s : Ideal} {lo hi : Nat} {τ : Nat → Nat} (h : s.Owns lo hi τ)
    {a : Nat} (hlo : lo ≤ a) (hhi : a < hi) : AddressSpace.translate s a = some (τ a) := by
  obtain ⟨i, _, _, hpage, hτ⟩ := h.page a hlo hhi
  show (s.pages (a / 4096)).map (· * 4096 + a % 4096) = _
  rw [hpage, Option.map_some, h.fresh.div_mul, hτ]

theorem Ideal.Owns.setMem {s : Ideal} {lo hi : Nat} {τ : Nat → Nat} (h : s.Owns lo hi τ)
    (m : Bytes.Mem) : Ideal.Owns (AddressSpace.setMem s m) lo hi τ :=
  ⟨⟨h.fresh.aligned, h.fresh.distinct⟩, h.page, h.inj⟩

/-- The window one page further: the new page is none of those behind it. -/
theorem Ideal.Owns.grow {s : Ideal} {lo hi : Nat} {τ : Nat → Nat} (h : s.Owns lo hi τ)
    (hpage : hi % 4096 = 0) (hnew : s.supply s.calls ≠ 0) :
    Ideal.Owns ⟨s.mem, Function.update s.pages (hi / 4096) (some (s.supply s.calls / 4096)),
      s.supply, s.calls + 1⟩ lo (hi + 4096) (addPage τ hi (s.supply s.calls)) := by
  refine ⟨⟨h.fresh.aligned, h.fresh.distinct⟩, fun a hlo hhi => ?_, addPage_inj hpage h.inj ?_⟩
  · by_cases ha : a < hi
    · obtain ⟨i, hi', hne, hmap, hτ⟩ := h.page a hlo ha
      refine ⟨i, by show i < s.calls + 1; omega, hne, ?_, by rw [addPage, if_pos ha, hτ]⟩
      have hother : a / 4096 ≠ hi / 4096 := by omega
      exact (Function.update_of_ne hother ..).trans hmap
    · have hdiv : a / 4096 = hi / 4096 := by omega
      refine ⟨s.calls, Nat.lt_succ_self _, hnew, ?_, if_neg ha⟩
      rw [hdiv]
      exact Function.update_self ..
  · intro a b hlo hhi heq
    obtain ⟨i, hi, hne, _, hτ⟩ := h.page a hlo hhi
    have h₁ := h.fresh.aligned i
    have h₂ := h.fresh.aligned s.calls
    have hsame : s.supply i = s.supply s.calls := by omega
    have := h.fresh.distinct i s.calls hsame hne
    omega

/-- The ideal machine keeps the laws. Its tables are not in its memory, so stores cannot disturb
them, and a page that is handed out is mapped to one place. -/
theorem idealPager_laws {top : Nat} (htop : top < 4294967296) :
    PagerLaws idealPager top Ideal.Owns where
  top_lt := htop
  window h := ⟨fun _ hlo hhi => h.translate hlo hhi, h.inj, fun s' ht a hlo hhi => by
    obtain ⟨m, rfl, _⟩ := ht
    exact (h.setMem m).translate hlo hhi⟩
  touches h ht := by
    obtain ⟨m, rfl, _⟩ := ht
    exact h.setMem m
  fail h _ := by
    refine ⟨⟨⟨h.fresh.aligned, h.fresh.distinct⟩, fun a hlo hhi => ?_, h.inj⟩, fun _ _ _ => rfl⟩
    obtain ⟨i, hi, hrest⟩ := h.page a hlo hhi
    exact ⟨i, Nat.lt_succ_of_lt hi, hrest⟩
  grow h hpage _ hnew hmap := by
    obtain rfl := Option.some.inj hmap
    refine ⟨_, h.grow hpage hnew, fun a _ hhi => ⟨if_pos hhi, rfl⟩⟩

/-- `map_page` always returns. -/
theorem growHeap_ideal : ∀ (pages : Nat) (h : Heap Ideal),
    ∃ r, growHeap idealPager pages h = some r
  | 0, h => ⟨_, rfl⟩
  | pages + 1, h => by
    rw [growHeap_succ]
    by_cases hpage : (idealPager.pmmAllocPage h.machine).1 = 0
    · rw [if_pos hpage]
      exact ⟨_, rfl⟩
    · rw [if_neg hpage]
      exact growHeap_ideal pages _

/-- Before `init_heap`: there is a page, the direct map shows it, and it does not come to lie
at NULL or in the frame buffer. -/
structure Ideal.Start (s : Ideal) : Prop where
  fresh : s.Fresh
  page : s.supply s.calls ≠ 0
  direct : s.pages (paVa (s.supply s.calls) / 4096) = some (s.supply s.calls / 4096)
  pos : 0 < paVa (s.supply s.calls)
  limit : paVa (s.supply s.calls) + 4096 ≤ videoVrtAddr

/-- The laws as far as the frame buffer. -/
theorem idealLaws : PagerLaws idealPager videoVrtAddr Ideal.Owns :=
  idealPager_laws (by decide)

theorem paVa_mod {p : Nat} (h : p % 4096 = 0) : paVa p % 4096 = 0 := by
  unfold paVa u32 highMemoryBase
  omega

/-- The first page, where the direct map has it. -/
theorem Ideal.Fresh.owns_first {s : Ideal} (h : s.Fresh) (hpage : s.supply s.calls ≠ 0)
    (hdirect : s.pages (paVa (s.supply s.calls) / 4096) = some (s.supply s.calls / 4096)) :
    Ideal.Owns (idealPager.pmmAllocPage s).2 (paVa (s.supply s.calls))
      (paVa (s.supply s.calls) + 4096) (fun a => s.supply s.calls + a % 4096) := by
  have hmod := paVa_mod (h.aligned s.calls)
  refine ⟨⟨h.aligned, h.distinct⟩, fun a hlo hhi => ?_, fun a b hloa hhia hlob hhib heq => ?_⟩
  · have hdiv : a / 4096 = paVa (s.supply s.calls) / 4096 := by omega
    refine ⟨s.calls, Nat.lt_succ_self _, hpage, ?_, rfl⟩
    rw [hdiv]
    exact hdirect
  · omega

theorem Ideal.Start.owns {s : Ideal} (h : s.Start) :
    Ideal.Owns (idealPager.pmmAllocPage s).2 (paVa (s.supply s.calls))
      (paVa (s.supply s.calls) + 4096) (fun a => s.supply s.calls + a % 4096) :=
  h.fresh.owns_first h.page h.direct

theorem initHeap_ideal {s : Ideal} (hs : s.Start) : ∃ h, initHeap idealPager s = some h ∧
    HeapOk videoVrtAddr Ideal.Owns (paVa (s.supply s.calls)) h [] := by
  obtain ⟨h, m, hinit, hfirst, _, _, hinv, _⟩ := initHeap_spec idealLaws hs.owns hs.pos
    (paVa_mod (hs.fresh.aligned s.calls)) hs.limit
  exact ⟨h, hinit, hfirst, _, m, _, hinv, ⟨List.nodup_nil, fun x hx => absurd hx (by simp)⟩⟩

/-- **The heap is safe over whole runs.** Whatever was called before, the list of blocks ends,
its blocks lie in order and apart from each other in the heap, and every live allocation heads
one in use that is large enough. The next call returns, and leaves the payloads of the live
allocations alone.

`HeapRun.ok` has the invariant for the state that the run has come to. What is said of the list
follows from the invariant alone, what is said of the next call from one more step. -/
theorem heap_safety (s : Ideal) (hs : s.Start) {h : Heap Ideal} {live : List (Nat × Nat)}
    (hrun : HeapRun idealPager s h live) :
    h.firstBlock = paVa (s.supply s.calls) ∧ h.heapLimit ≤ videoVrtAddr ∧
    (∃ bs, HeapSafe h live bs) ∧
    (∀ n, Reasonable n →
      h.heapLimit + (roundedUp n + 16 + 4095) / 4096 * 4096 ≤ videoVrtAddr →
        ∃ p h', kmalloc idealPager h n = some (p, h') ∧ StaysBelow h h') ∧
    (∀ n p h', Reasonable n → kmalloc idealPager h n = some (p, h') → StaysBelow h h' →
      PayloadsKept h h' live) ∧
    ∀ x ∈ live, ∃ h', kfree h x.1 = some h' ∧ PayloadsKept h h' live := by
  have hok : HeapOk videoVrtAddr Ideal.Owns (paVa (s.supply s.calls)) h live := by
    refine hrun.ok idealLaws fun h₀ hinit => ?_
    obtain ⟨h₁, hinit₁, hok⟩ := initHeap_ideal hs
    rw [hinit] at hinit₁
    obtain rfl := Option.some.inj hinit₁
    exact hok
  have hlim : h.heapLimit ≤ videoVrtAddr := by
    obtain ⟨_, _, _, _, hinv, _⟩ := hok
    exact hinv.limit
  refine ⟨hok.1, hlim, hok.safe idealLaws, fun n hn hroom => ?_, fun n p h' hn hcall hle => ?_,
    fun x hx => hok.kfree_keeps idealLaws hx⟩
  · exact hok.kmalloc_returns idealLaws hn hroom (growHeap_ideal _ _)
  · exact hok.kmalloc_keeps idealLaws hn hcall hle

/-- Eight pages from 2 MiB on, and the direct map of the first 16 MiB. -/
def idealPc : Ideal where
  mem _ := 0xA5
  pages q := if 0xC0000 ≤ q ∧ q < 0xC1000 then some (q - 0xC0000) else none
  supply i := if i < 8 then 0x200000 + 4096 * i else 0
  calls := 0

theorem idealPc_start : idealPc.Start where
  fresh := by
    refine ⟨fun i => ?_, fun i j heq hne => ?_⟩
    · show (if i < 8 then 0x200000 + 4096 * i else 0) % 4096 = 0
      split <;> omega
    · change (if i < 8 then 0x200000 + 4096 * i else 0) = if j < 8 then _ else 0 at heq
      change (if i < 8 then 0x200000 + 4096 * i else 0) ≠ 0 at hne
      split at heq <;> split at heq <;> simp_all
  page := by decide
  direct := by decide
  pos := by decide
  limit := by decide

/-- The first `kmalloc(100)` gets the first block of the heap. -/
theorem kmalloc_idealPc : ∃ h₀ h, initHeap idealPager idealPc = some h₀ ∧
    kmalloc idealPager h₀ 100 = some (0xC0200010, h) ∧ StaysBelow h₀ h := by
  obtain ⟨h₀, m, hinit, hfirst, _, _, hinv, _⟩ := initHeap_spec idealLaws idealPc_start.owns
    idealPc_start.pos (by decide) idealPc_start.limit
  have hfits : Fits (roundedUp 100) ⟨h₀.firstBlock, 4080, true⟩ :=
    ⟨rfl, show roundedUp 100 ≤ 4080 by decide⟩
  rcases kmalloc_cases (n := 100) idealLaws hinv (by decide) with
    ⟨hz, _⟩ | ⟨pre, b, post, s, hbs, _, _, hcall, _⟩ | ⟨_, _, _, hnone, _⟩
  · exact absurd hz (by decide)
  · have hb : b ∈ [Block.mk h₀.firstBlock 4080 true] := by
      rw [hbs]
      simp
    obtain rfl := List.mem_singleton.mp hb
    rw [hfirst] at hcall
    exact ⟨h₀, _, hinit, hcall, Nat.le_refl _, hinv.limit⟩
  · exact absurd hfits (hnone _ List.mem_cons_self)

theorem heap_safety_idealPc : ∃ h, HeapRun idealPager idealPc h [(0xC0200010, 100)] ∧
    (∃ bs, HeapSafe h [(0xC0200010, 100)] bs) ∧
    ∃ h', kfree h 0xC0200010 = some h' ∧ PayloadsKept h h' [(0xC0200010, 100)] := by
  obtain ⟨h₀, h, hinit, hcall, hlim⟩ := kmalloc_idealPc
  have hrun := (HeapRun.init hinit).kmalloc (show Reasonable 100 from by unfold Reasonable; decide) hcall hlim
  rw [if_neg (by decide)] at hrun
  obtain ⟨_, _, hsafe, _, _, hfree⟩ := heap_safety idealPc idealPc_start hrun
  exact ⟨h, hrun, hsafe, hfree (0xC0200010, 100) List.mem_cons_self⟩

end ScratchOs.Mem
