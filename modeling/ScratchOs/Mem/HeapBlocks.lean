import ScratchOs.Lib.FreeList
import ScratchOs.Mem.Heap

/-!
# The heap's blocks in memory

`Seg m a bs e` reads a list of blocks off the heap's memory: starting at address `a`, following
`next`, one finds the headers of `bs` and ends up at `e`. Only the first twelve bytes of a
header matter for it; `prev` is written in many places and read in none, and has a predicate
of its own, `BackLinks`.

With `Laid` for where the blocks lie, each function of the allocator is an edit of `bs`, and
what it does to memory stays within the headers of the blocks it edits. The results of this
module say both, function by function, for a heap whose memory is a window.

Two shapes of argument carry it. `Seg.splice` is the first: an edit is in one place, the headers on
both sides are what they were, so only what has taken the place of the edited block has to be read
again. The second is that a payload is outside all headers (`OutsideHeaders.of_payload`), so what is
said to stay within headers has not touched a payload. Neither needs to know which function it was.

The order of the stores matters to the proofs as it does to the code. Between two of them the list
in memory is no list: after the new block's header is written it is not yet linked in, and after
`next` of the block before is stored its own may not be. Each lemma is about a whole function
therefore, or about a stretch of stores after which there is a list again (`linkNew_eq`,
`linkRest_eq`).
-/

set_option autoImplicit false

namespace ScratchOs.Mem

open AddressSpace Bits FreeList

/-- The header of `b` is in memory, up to its links. -/
def Header (m : Bytes.Mem) (b : Block) : Prop :=
  Bytes.load32 m b.addr = b.size ∧ (m (b.addr + 4) != 0) = b.free

def Seg (m : Bytes.Mem) : Nat → List Block → Nat → Prop
  | a, [], e => a = e
  | a, b :: bs, e => a = b.addr ∧ Header m b ∧ Seg m (Bytes.load32 m (b.addr + 8)) bs e

theorem seg_append {m : Bytes.Mem} {a e : Nat} {bs cs : List Block} :
    Seg m a (bs ++ cs) e ↔ ∃ x, Seg m a bs x ∧ Seg m x cs e := by
  induction bs generalizing a with
  | nil => simp [Seg]
  | cons b bs ih =>
    constructor
    · rintro ⟨ha, hb, hrest⟩
      obtain ⟨x, h₁, h₂⟩ := ih.mp hrest
      exact ⟨x, ⟨ha, hb, h₁⟩, h₂⟩
    · rintro ⟨x, ⟨ha, hb, h₁⟩, h₂⟩
      exact ⟨ha, hb, ih.mpr ⟨x, h₁, h₂⟩⟩

/-! ## Headers -/

/-- The fields of `heap_block_t` that are read. -/
structure HeaderFields where
  size : Nat
  free : Bool
  next : Nat

/-- The header at `a` reads `f`. -/
structure HeaderAt (m : Bytes.Mem) (a : Nat) (f : HeaderFields) : Prop where
  size : Bytes.load32 m a = f.size
  free : (m (a + 4) != 0) = f.free
  next : Bytes.load32 m (a + 8) = f.next

section HeaderAt

variable {m m' : Bytes.Mem} {a c : Nat} {f : HeaderFields}

theorem HeaderAt.congr (h : HeaderAt m a f) (hm : ∀ i < 12, m' (a + i) = m (a + i)) :
    HeaderAt m' a f := by
  have hload : ∀ o, o + 4 ≤ 12 → Bytes.load32 m' (a + o) = Bytes.load32 m (a + o) :=
    fun o ho => Bytes.load32_congr fun i hi => by
      rw [Nat.add_assoc]
      exact hm (o + i) (by omega)
  constructor
  · exact (hload 0 (by decide)).trans h.size
  · rw [hm 4 (by decide), h.free]
  · exact (hload 8 (by decide)).trans h.next

/-! A store to a field changes that field. -/

theorem HeaderAt.storeSize (h : HeaderAt m a f) {v : Nat} (hv : v < 4294967296) :
    HeaderAt (Bytes.store32 m a v) a { f with size := v } := by
  constructor
  · exact Bytes.load32_store32_of_lt m a hv
  · rw [Bytes.store32_apply_of_disjoint _ (by omega), h.free]
  · exact (Bytes.load32_store32_of_disjoint v (by omega)).trans h.next

theorem HeaderAt.storeFree (h : HeaderAt m a f) (x : Bool) :
    HeaderAt (Bytes.store8 m (a + 4) (if x then 1 else 0)) a { f with free := x } := by
  constructor
  · exact (Bytes.load32_store8_of_disjoint _ (by omega)).trans h.size
  · rw [Bytes.store8_same]
    cases x with
    | false => rfl
    | true => rfl
  · exact (Bytes.load32_store8_of_disjoint _ (by omega)).trans h.next

theorem HeaderAt.storeNext (h : HeaderAt m a f) {v : Nat} (hv : v < 4294967296) :
    HeaderAt (Bytes.store32 m (a + 8) v) a { f with next := v } := by
  constructor
  · exact (Bytes.load32_store32_of_disjoint v (by omega)).trans h.size
  · rw [Bytes.store32_apply_of_disjoint _ (by omega), h.free]
  · exact Bytes.load32_store32_of_lt m (a + 8) hv

/-! A store elsewhere does not; `prev` counts as elsewhere. -/

theorem HeaderAt.store32 (h : HeaderAt m a f) (v : Nat) (hc : c + 4 ≤ a ∨ a + 12 ≤ c) :
    HeaderAt (Bytes.store32 m c v) a f :=
  h.congr fun i hi => Bytes.store32_apply_of_disjoint v (by omega)

theorem HeaderAt.store8 (h : HeaderAt m a f) (v : UInt8) (hc : c < a ∨ a + 12 ≤ c) :
    HeaderAt (Bytes.store8 m c v) a f :=
  h.congr fun i hi => Bytes.store8_of_ne v (by omega)

/-! A block is read off its header and its successor off the link. -/

theorem HeaderAt.seg {b : Block} {bs : List Block} {x e : Nat}
    (h : HeaderAt m b.addr ⟨b.size, b.free, x⟩) (hrest : Seg m x bs e) :
    Seg m b.addr (b :: bs) e := by
  refine ⟨rfl, ⟨h.size, h.free⟩, ?_⟩
  rw [h.next]
  exact hrest

theorem Seg.header {b : Block} {bs : List Block} {e : Nat} (h : Seg m a (b :: bs) e) :
    HeaderAt m b.addr ⟨b.size, b.free, Bytes.load32 m (b.addr + 8)⟩ :=
  ⟨h.2.1.1, h.2.1.2, rfl⟩

end HeaderAt

/-- A list of blocks is read off the first twelve bytes of each header. -/
theorem Seg.congr {m m' : Bytes.Mem} {e : Nat} {bs : List Block} :
    ∀ {a : Nat}, Seg m a bs e →
      (∀ b ∈ bs, ∀ i < 12, m' (b.addr + i) = m (b.addr + i)) → Seg m' a bs e := by
  induction bs with
  | nil => exact fun h _ => h
  | cons b bs ih =>
    intro a h hm
    have hhead := h.header.congr (hm b List.mem_cons_self)
    obtain ⟨rfl, _, hrest⟩ := h
    exact hhead.seg (ih hrest fun c hc => hm c (List.mem_cons_of_mem _ hc))

/-- **An edit in the middle.** Where the headers on both sides are what they were, only the
blocks that take the place of `b` have to be looked at. -/
theorem Seg.splice {m m' : Bytes.Mem} {a e : Nat} {pre mid post : List Block} {b : Block}
    (h : Seg m a (pre ++ b :: post) e) (hmid : Seg m' b.addr mid (Bytes.load32 m (b.addr + 8)))
    (hm : ∀ c, c ∈ pre ∨ c ∈ post → ∀ i < 12, m' (c.addr + i) = m (c.addr + i)) :
    Seg m' a (pre ++ (mid ++ post)) e := by
  obtain ⟨x, hpre, rfl, _, hpost⟩ := seg_append.mp h
  refine seg_append.mpr ⟨b.addr, hpre.congr fun c hc => hm c (Or.inl hc), ?_⟩
  exact seg_append.mpr ⟨_, hmid, hpost.congr fun c hc => hm c (Or.inr hc)⟩

/-! ## Back links

Nothing reads them, so nothing else in this module depends on them, and a memory in which they are
wrong is a heap in every other respect. They are carried beside the list and are the one thing that
a split gets wrong. -/

/-- `prev` of each block is the block before it, `p` for the first. -/
def BackLinks (m : Bytes.Mem) : Nat → List Block → Prop
  | _, [] => True
  | p, b :: bs => Bytes.load32 m (b.addr + 12) = p ∧ BackLinks m b.addr bs

/-- The block that one behind `bs` comes after, `p` where there is none. -/
def lastAddr (p : Nat) (bs : List Block) : Nat := (bs.getLast?.map Block.addr).getD p

theorem lastAddr_cons (p : Nat) (b : Block) (bs : List Block) :
    lastAddr p (b :: bs) = lastAddr b.addr bs := by
  cases bs with
  | nil => rfl
  | cons c cs =>
    unfold lastAddr
    rw [List.getLast?_cons_cons, List.getLast?_eq_some_getLast (List.cons_ne_nil c cs)]
    rfl

section BackLinks

variable {m m' : Bytes.Mem} {p : Nat} {bs cs : List Block}

/-- The second list begins behind the last block of the first one. -/
theorem backLinks_append :
    BackLinks m p (bs ++ cs) ↔ BackLinks m p bs ∧ BackLinks m (lastAddr p bs) cs := by
  induction bs generalizing p with
  | nil => exact ⟨fun h => ⟨trivial, h⟩, And.right⟩
  | cons b bs ih =>
    rw [lastAddr_cons]
    constructor
    · rintro ⟨hb, hrest⟩
      exact ⟨⟨hb, (ih.mp hrest).1⟩, (ih.mp hrest).2⟩
    · rintro ⟨⟨hb, hbs⟩, hcs⟩
      exact ⟨hb, ih.mpr ⟨hbs, hcs⟩⟩

/-- The back links are where the `prev` fields are, and nowhere else. -/
theorem BackLinks.congr (h : BackLinks m p bs)
    (hm : ∀ b ∈ bs, ∀ i < 4, m' (b.addr + 12 + i) = m (b.addr + 12 + i)) :
    BackLinks m' p bs := by
  induction bs generalizing p with
  | nil => trivial
  | cons b bs ih =>
    refine ⟨?_, ih h.2 fun c hc => hm c (List.mem_cons_of_mem b hc)⟩
    rw [Bytes.load32_congr (hm b List.mem_cons_self)]
    exact h.1

/-- Only the addresses of the blocks count. -/
theorem backLinks_of_addrs (h : bs.map Block.addr = cs.map Block.addr) :
    BackLinks m p bs ↔ BackLinks m p cs := by
  induction bs generalizing p cs with
  | nil =>
    obtain rfl := List.map_eq_nil_iff.mp h.symm
    exact Iff.rfl
  | cons b bs ih =>
    cases cs with
    | nil => exact absurd h (List.cons_ne_nil _ _)
    | cons c cs =>
      obtain ⟨haddr, hrest⟩ := List.cons.inj h
      unfold BackLinks
      rw [haddr, ih hrest]

/-- **The back links after a block has been used.** The new block of a split points back; the
block behind it still points to the first half. So they are right afterwards exactly if there is no
block behind it, or no split. -/
theorem BackLinks.carve {pre post : List Block} {b : Block} {size : Nat}
    (h : BackLinks m p (pre ++ b :: post))
    (hm : ∀ c ∈ pre ++ b :: post, ∀ i < 4, m' (c.addr + 12 + i) = m (c.addr + 12 + i))
    (hnew : 20 ≤ b.size - size → Bytes.load32 m' (b.addr + 16 + size + 12) = b.addr) :
    BackLinks m' p (pre ++ (carve 16 20 size b ++ post)) ↔ (20 ≤ b.size - size → post = []) := by
  have hold := h.congr hm
  unfold FreeList.carve
  split
  · next hsplit =>
    obtain ⟨hpre, hb, hpost⟩ := backLinks_append.mp hold
    cases post with
    | nil =>
      refine ⟨fun _ _ => rfl, fun _ => backLinks_append.mpr ⟨hpre, hb, hnew hsplit, trivial⟩⟩
    | cons d ds =>
      -- `d` would have to point to both halves.
      refine ⟨fun hlinks => ?_, fun hlast => absurd (hlast hsplit) (List.cons_ne_nil d ds)⟩
      obtain ⟨_, _, _, hd, _⟩ := backLinks_append.mp hlinks
      have hback : Bytes.load32 m' (d.addr + 12) = b.addr := hpost.1
      have hfront : Bytes.load32 m' (d.addr + 12) = b.addr + 16 + size := hd
      omega
  · next hwhole =>
    refine ⟨fun _ hsplit => absurd hsplit hwhole, fun _ => ?_⟩
    refine (backLinks_of_addrs ?_).mp hold
    simp

end BackLinks

/-! ## Field accesses in a window

`load*_eq` and `store*_eq` are all that is used of the heap's address space from here on. A load
says what memory has at the field, and the lemmas about `HeaderAt` above what that is after the
stores that came before. -/

section Fields

variable {σ : Type} [AddressSpace σ] {s₀ s : σ} {lo hi : Nat} {τ : Nat → Nat} {m : Bytes.Mem}
  {b : Nat}

/-- Whatever is in memory reads as a header. -/
theorem headerAt_view (_h : View s₀ s lo hi τ m) (a : Nat) :
    HeaderAt m a ⟨Bytes.load32 m a, m (a + 4) != 0, Bytes.load32 m (a + 8)⟩ := ⟨rfl, rfl, rfl⟩

theorem loadSize_eq (h : Shows s lo hi τ m) (hlo : lo ≤ b) (hhi : b + 16 ≤ hi) :
    loadSize s b = some (Bytes.load32 m b) := h.load32 hlo (by omega)

theorem loadFree_eq (h : Shows s lo hi τ m) (hlo : lo ≤ b) (hhi : b + 16 ≤ hi) :
    loadFree s b = some (m (b + 4) != 0) := by
  rw [loadFree, h.load8 (by omega) (by omega), Option.map_some]

theorem loadNext_eq (h : Shows s lo hi τ m) (hlo : lo ≤ b) (hhi : b + 16 ≤ hi) :
    loadNext s b = some (Bytes.load32 m (b + 8)) := h.load32 (by omega) (by omega)

theorem storeSize_eq (h : View s₀ s lo hi τ m) (hlo : lo ≤ b) (hhi : b + 16 ≤ hi) (v : Nat) :
    ∃ s', storeSize s b v = some s' ∧ View s₀ s' lo hi τ (Bytes.store32 m b v) :=
  h.store32 hlo (by omega) v

theorem storeFree_eq (h : View s₀ s lo hi τ m) (hlo : lo ≤ b) (hhi : b + 16 ≤ hi) (f : Bool) :
    ∃ s', storeFree s b f = some s' ∧
      View s₀ s' lo hi τ (Bytes.store8 m (b + 4) (if f then 1 else 0)) :=
  h.store8 (by omega) (by omega) _

theorem storeNext_eq (h : View s₀ s lo hi τ m) (hlo : lo ≤ b) (hhi : b + 16 ≤ hi) (v : Nat) :
    ∃ s', storeNext s b v = some s' ∧ View s₀ s' lo hi τ (Bytes.store32 m (b + 8) v) :=
  h.store32 (by omega) (by omega) v

theorem storePrev_eq (h : View s₀ s lo hi τ m) (hlo : lo ≤ b) (hhi : b + 16 ≤ hi) (v : Nat) :
    ∃ s', storePrev s b v = some s' ∧ View s₀ s' lo hi τ (Bytes.store32 m (b + 12) v) :=
  h.store32 (by omega) (by omega) v

end Fields

/-! ## The search -/

/-- The block can be used for `size` bytes. -/
def Fits (size : Nat) (b : Block) : Prop := b.free = true ∧ size ≤ b.size

section Search

variable {σ : Type} [AddressSpace σ] {s : σ} {lo hi : Nat} {τ : Nat → Nat} {m : Bytes.Mem}

/-- The search stops at the first block that fits, or at the end with the last one in hand. The loop
of the source ends at a null `next`, and any list that is laid out in the heap has fewer blocks than
`fuel` as soon as `fuel` is a bound on its length; `last` is `prev` in the source, so it is the
block in front of `cur` in every turn. -/
theorem findFit_eq (hshow : Shows s lo hi τ m) (hlo : 0 < lo) (size : Nat) :
    ∀ {bs : List Block} {start fuel cur : Nat} (last : Nat), lo ≤ start → Laid 16 4 hi start bs →
      Seg m cur bs 0 → bs.length < fuel →
      (∃ pre b post prev, bs = pre ++ b :: post ∧ Fits size b ∧ (∀ c ∈ pre, ¬ Fits size c) ∧
        findFit s size fuel cur last = some (b.addr, prev)) ∨
      ((∀ c ∈ bs, ¬ Fits size c) ∧
        findFit s size fuel cur last = some (0, (bs.getLast?.map Block.addr).getD last))
  | [], _, fuel + 1, cur, last, _, _, hseg, _ => by
    obtain rfl : cur = 0 := hseg
    exact Or.inr ⟨fun c hc => absurd hc (by simp), rfl⟩
  | b :: bs, start, fuel + 1, cur, last, hst, hlaid, hseg, hfuel => by
    obtain ⟨rfl, ⟨hsize, hfree⟩, hnext⟩ := hseg
    obtain ⟨hb, _, _, hrest⟩ := hlaid
    have hend := hrest.le
    unfold Block.stop at hend
    have hne : b.addr ≠ 0 := by omega
    have hwin : lo ≤ b.addr ∧ b.addr + 16 ≤ hi := by omega
    -- One turn of the loop.
    have hturn : findFit s size (fuel + 1) b.addr last =
        if b.free = true ∧ size ≤ b.size then some (b.addr, last)
        else findFit s size fuel (Bytes.load32 m (b.addr + 8)) b.addr := by
      rw [findFit, if_neg hne, loadFree_eq hshow hwin.1 hwin.2, hfree,
        loadSize_eq hshow hwin.1 hwin.2, hsize, loadNext_eq hshow hwin.1 hwin.2]
      cases hf : b.free with
      | false => simp
      | true => by_cases hs : size ≤ b.size <;> simp [hs]
    by_cases hfit : b.free = true ∧ size ≤ b.size
    · refine Or.inl ⟨[], b, bs, last, rfl, hfit, fun c hc => absurd hc (by simp), ?_⟩
      rw [hturn, if_pos hfit]
    · rw [hturn, if_neg hfit]
      have hstop : lo ≤ b.stop 16 := by
        unfold Block.stop
        omega
      have hlen : bs.length < fuel := by
        rw [List.length_cons] at hfuel
        omega
      rcases findFit_eq hshow hlo size b.addr hstop hrest hnext hlen with
        ⟨pre, c, post, prev, rfl, hc, hpre, hfind⟩ | ⟨hnone, hfind⟩
      · refine Or.inl ⟨b :: pre, c, post, prev, rfl, hc, fun x hx => ?_, hfind⟩
        rcases List.mem_cons.mp hx with rfl | hx
        · exact hfit
        · exact hpre x hx
      · refine Or.inr ⟨fun x hx => ?_, hfind.trans ?_⟩
        · rcases List.mem_cons.mp hx with rfl | hx
          · exact hfit
          · exact hnone x hx
        · cases bs with
          | nil => rfl
          | cons c cs => rw [List.getLast?_cons_cons]; rfl

end Search

/-! ## Splitting a block -/

section Split

variable {σ : Type} [AddressSpace σ] {s₀ s : σ} {lo hi : Nat} {τ : Nat → Nat} {m : Bytes.Mem}

/-- The headers of blocks on either side of an extent are outside it. -/
theorem outside_of_laid {start : Nat} {pre post : List Block} {b : Block}
    (h : Laid 16 4 hi start (pre ++ b :: post)) {c : Block} (hc : c ∈ pre ∨ c ∈ post) {i : Nat}
    (hi : i < 12) : c.addr + i < b.addr ∨ b.stop 16 ≤ c.addr + i := by
  have hp := h.pairwise
  obtain ⟨_, hbp, hcross⟩ := List.pairwise_append.mp hp
  rcases hc with hc | hc
  · have := hcross c hc b List.mem_cons_self
    unfold Block.stop at this
    omega
  · have := (List.pairwise_cons.mp hbp).1 c hc
    omega

/-- What `useBlock` writes stays inside the block, and the list is what `carve` says.

With a split there are seven stores. The headers of the two halves are followed through them one
at a time (`hb₄`, `hb₇` for the first, `hn₅`, `hn₇` for the second): a store to a field of the
header is a lemma about the header, a store anywhere else leaves it. The bytes from 12 to 16 of the
old header, its `prev`, are not written. -/
theorem useBlock_eq {pre post : List Block} {b : Block} {first size : Nat}
    (v : View s₀ s lo hi τ m) (hhi : hi ≤ 4294967296)
    (hlaid : Laid 16 4 hi lo (pre ++ b :: post)) (hseg : Seg m first (pre ++ b :: post) 0)
    (hsize : size ≤ b.size) :
    ∃ s' m', useBlock s b.addr size = some s' ∧ View s₀ s' lo hi τ m' ∧
      Seg m' first (pre ++ (carve 16 20 size b ++ post)) 0 ∧
      (∀ a, a < b.addr ∨ b.stop 16 ≤ a ∨ (b.addr + 12 ≤ a ∧ a < b.addr + 16) → m' a = m a) ∧
      (20 ≤ b.size - size → Bytes.load32 m' (b.addr + 16 + size + 12) = b.addr) := by
  have hmem := hlaid.mem (b := b) (by simp)
  obtain ⟨x, _, hbseg⟩ := seg_append.mp hseg
  have hb := hbseg.header
  have hout := fun {c : Block} hc {i : Nat} => outside_of_laid (i := i) hlaid (c := c) hc
  unfold Block.stop at hmem hout ⊢
  have hlt := Bytes.load32_lt m (b.addr + 8)
  unfold useBlock
  rw [loadSize_eq v.shows (by omega) (by omega), hb.size]
  simp only [Option.bind_eq_bind, Option.bind_some]
  by_cases hrem : 20 ≤ b.size - size
  · rw [if_pos (show blockHeader + 4 ≤ b.size - size from hrem), carve, if_pos hrem]
    have hnew : u32 (b.addr + 16 + size) = b.addr + 16 + size := u32_of_lt (by omega)
    obtain ⟨s₁, h₁, v₁⟩ := storeFree_eq v (b := b.addr) (by omega) (by omega) false
    obtain ⟨s₂, h₂, v₂⟩ := storeSize_eq v₁ (b := b.addr) (by omega) (by omega) size
    obtain ⟨s₃, h₃, v₃⟩ := storeSize_eq v₂ (b := b.addr + 16 + size) (by omega) (by omega)
      (b.size - size - 16)
    obtain ⟨s₄, h₄, v₄⟩ := storeFree_eq v₃ (b := b.addr + 16 + size) (by omega) (by omega) true
    -- The block's own header so far, its link untouched.
    have hb₄ := (((hb.storeFree false).storeSize (show size < 4294967296 by omega)).store32
      (c := b.addr + 16 + size) (b.size - size - 16) (by omega)).store8
        (c := b.addr + 16 + size + 4) (if true then 1 else 0) (by omega)
    have hnext := loadNext_eq v₄.shows (b := b.addr) (by omega) (by omega)
    rw [hb₄.next] at hnext
    obtain ⟨s₅, h₅, v₅⟩ := storeNext_eq v₄ (b := b.addr + 16 + size) (by omega) (by omega)
      (Bytes.load32 m (b.addr + 8))
    obtain ⟨s₆, h₆, v₆⟩ := storePrev_eq v₅ (b := b.addr + 16 + size) (by omega) (by omega) b.addr
    obtain ⟨s₇, h₇, v₇⟩ := storeNext_eq v₆ (b := b.addr) (by omega) (by omega)
      (b.addr + 16 + size)
    have hb₇ := ((hb₄.store32 (c := b.addr + 16 + size + 8) (Bytes.load32 m (b.addr + 8))
      (by omega)).store32 (c := b.addr + 16 + size + 12) b.addr (by omega)).storeNext
        (show b.addr + 16 + size < 4294967296 by omega)
    have hn₅ := (((headerAt_view v₂ (b.addr + 16 + size)).storeSize
      (show b.size - size - 16 < 4294967296 by omega)).storeFree true).storeNext hlt
    have hn₇ := (hn₅.store32 (c := b.addr + 16 + size + 12) b.addr (by omega)).store32
      (c := b.addr + 8) (b.addr + 16 + size) (by omega)
    refine ⟨s₇, _, ?_, v₇, ?_, fun a ha => ?_, fun _ => ?_⟩
    · simp only [blockHeader, hnew, h₁, h₂, h₃, h₄, h₅, h₆, h₇, hnext, Option.bind_some]
    · refine hseg.splice (hb₇.seg (b := ⟨b.addr, size, false⟩)
        (hn₇.seg (b := ⟨b.addr + 16 + size, b.size - size - 16, true⟩) rfl)) fun c hc i hi => ?_
      have := hout hc hi
      simp (disch := omega) only [Bytes.store32_apply_of_disjoint, Bytes.store8_of_ne]
    · simp (disch := omega) only [Bytes.store32_apply_of_disjoint, Bytes.store8_of_ne]
    · rw [Bytes.load32_store32_of_disjoint _ (by omega), Bytes.load32_store32_of_lt _ _ (by omega)]
  · rw [if_neg (show ¬ blockHeader + 4 ≤ b.size - size from hrem), carve, if_neg hrem]
    obtain ⟨s₁, h₁, v₁⟩ := storeFree_eq v (b := b.addr) (by omega) (by omega) false
    refine ⟨s₁, _, h₁, v₁, ?_, fun a ha => Bytes.store8_of_ne _ (by omega),
      fun hsplit => absurd hsplit hrem⟩
    refine hseg.splice ((hb.storeFree false).seg (b := ⟨b.addr, b.size, false⟩) rfl)
      fun c hc i hi => ?_
    have := hout hc hi
    exact Bytes.store8_of_ne _ (by omega)

end Split

/-! ## Appending a block -/

section Append

variable {σ : Type} [AddressSpace σ] {s₀ s : σ} {lo hi : Nat} {τ : Nat → Nat} {m : Bytes.Mem}

/-- What putting `b` behind the block at `l` has written. `last` is about any header, because
nothing but its `next` has changed. -/
structure Linked (m m' : Bytes.Mem) (l : Nat) (b : Block) : Prop where
  new : HeaderAt m' b.addr ⟨b.size, b.free, 0⟩
  last : ∀ f, HeaderAt m l f → HeaderAt m' l { f with next := b.addr }
  frame : ∀ a, a < l ∨ l + 16 ≤ a → a < b.addr ∨ b.addr + 16 ≤ a → m' a = m a

/-- The list with one more block at its end: an edit of the last one (`Seg.splice`). -/
theorem Linked.seg {m m' : Bytes.Mem} {pre : List Block} {l b : Block} {first : Nat}
    (h : Linked m m' l.addr b) (hseg : Seg m first (pre ++ [l]) 0)
    (hpre : ∀ c ∈ pre, c.addr + 16 ≤ l.addr) (hb : l.addr + 16 ≤ b.addr) :
    Seg m' first (pre ++ [l] ++ [b]) 0 := by
  obtain ⟨x, _, hlseg⟩ := seg_append.mp hseg
  have hend : Bytes.load32 m (l.addr + 8) = 0 := hlseg.2.2
  have hlast := h.last _ hlseg.header
  rw [List.append_assoc]
  have hnew : Seg m' b.addr [b] (Bytes.load32 m (l.addr + 8)) := h.new.seg hend.symm
  refine hseg.splice (hlast.seg hnew) fun c hc i hi => ?_
  have := hpre c (hc.resolve_right List.not_mem_nil)
  exact h.frame _ (by omega) (by omega)

/-- The back link of the block at `b`, and all that is left of the header at `l`. -/
structure LinkedBack (m m' : Bytes.Mem) (l b : Nat) : Prop where
  prev : Bytes.load32 m' (b + 12) = l
  kept : ∀ a, a < l + 8 ∨ l + 12 ≤ a → a < b ∨ b + 16 ≤ a → m' a = m a

/-- The back links with one more block at the end. -/
theorem LinkedBack.backLinks {m m' : Bytes.Mem} {pre : List Block} {l b : Block} {p : Nat}
    (h : LinkedBack m m' l.addr b.addr) (hlinks : BackLinks m p (pre ++ [l]))
    (hpre : ∀ c ∈ pre, c.addr + 16 ≤ l.addr) (hb : l.addr + 16 ≤ b.addr) :
    BackLinks m' p (pre ++ [l] ++ [b]) := by
  have hlast : lastAddr p (pre ++ [l]) = l.addr := by
    unfold lastAddr
    rw [List.getLast?_concat]
    rfl
  refine backLinks_append.mpr ⟨hlinks.congr fun c hc i hi => ?_, h.prev.trans hlast.symm, trivial⟩
  have hc' : c.addr + 16 ≤ l.addr ∨ c = l := by
    rcases List.mem_append.mp hc with hc | hc
    · exact Or.inl (hpre c hc)
    · exact Or.inr (List.mem_singleton.mp hc)
  rcases hc' with hc' | rfl
  · exact h.kept _ (by omega) (by omega)
  · exact h.kept _ (by omega) (by omega)

/-- The new block is written and linked in. The stores are in the middle of `expand_heap`, so they
are taken with what comes after them, `k`. -/
theorem linkNew_eq {b : Block} {l : Nat} (v : View s₀ s lo hi τ m) (hlo : lo ≤ l)
    (hlb : l + 16 ≤ b.addr) (hb : b.addr + 16 ≤ hi) (hhi : hi ≤ 4294967296)
    (hsize : b.size < 4294967296) :
    ∃ s' m', (∀ k : σ → Option σ, ((storeSize s b.addr b.size).bind fun s =>
        (storeFree s b.addr b.free).bind fun s => (storePrev s b.addr l).bind fun s =>
          (storeNext s b.addr 0).bind fun s => (storeNext s l b.addr).bind k) = k s') ∧
      View s₀ s' lo hi τ m' ∧ Linked m m' l b ∧ LinkedBack m m' l b.addr := by
  obtain ⟨s₁, h₁, v₁⟩ := storeSize_eq v (b := b.addr) (by omega) (by omega) b.size
  obtain ⟨s₂, h₂, v₂⟩ := storeFree_eq v₁ (b := b.addr) (by omega) (by omega) b.free
  obtain ⟨s₃, h₃, v₃⟩ := storePrev_eq v₂ (b := b.addr) (by omega) (by omega) l
  obtain ⟨s₄, h₄, v₄⟩ := storeNext_eq v₃ (b := b.addr) (by omega) (by omega) 0
  obtain ⟨s₅, h₅, v₅⟩ := storeNext_eq v₄ (b := l) (by omega) (by omega) b.addr
  refine ⟨s₅, _, fun k => ?_, v₅, ⟨?_, fun f hf => ?_, fun a hal hab => ?_⟩,
    ⟨?_, fun a hal hab => ?_⟩⟩
  · simp only [h₁, h₂, h₃, h₄, h₅, Option.bind_some]
  · have hnew := ((headerAt_view v b.addr).storeSize hsize).storeFree b.free
    have hprev := hnew.store32 (c := b.addr + 12) l (by omega)
    exact (hprev.storeNext (v := 0) (by decide)).store32 (c := l + 8) b.addr (by omega)
  · have hsized := hf.store32 (c := b.addr) b.size (by omega)
    have hfreed := hsized.store8 (c := b.addr + 4) (if b.free then 1 else 0) (by omega)
    have hprev := hfreed.store32 (c := b.addr + 12) l (by omega)
    exact (hprev.store32 (c := b.addr + 8) 0 (by omega)).storeNext (by omega)
  · simp (disch := omega) only [Bytes.store32_apply_of_disjoint, Bytes.store8_of_ne]
  · rw [Bytes.load32_store32_of_disjoint _ (by omega),
      Bytes.load32_store32_of_disjoint _ (by omega), Bytes.load32_store32_of_lt _ _ (by omega)]
  · simp (disch := omega) only [Bytes.store32_apply_of_disjoint, Bytes.store8_of_ne]

/-- The block of what is left is filled in and linked in as well, in another order of the stores. -/
theorem linkRest_eq {b : Block} {l : Nat} (v : View s₀ s lo hi τ m) (hlo : lo ≤ l)
    (hlb : l + 16 ≤ b.addr) (hb : b.addr + 16 ≤ hi) (hhi : hi ≤ 4294967296)
    (hsize : b.size < 4294967296) :
    ∃ s' m', ((storeSize s b.addr b.size).bind fun s => (storeNext s b.addr 0).bind fun s =>
        (storeFree s b.addr b.free).bind fun s => (storePrev s b.addr l).bind fun s =>
          storeNext s l b.addr) = some s' ∧
      View s₀ s' lo hi τ m' ∧ Linked m m' l b ∧ LinkedBack m m' l b.addr := by
  obtain ⟨s₁, h₁, v₁⟩ := storeSize_eq v (b := b.addr) (by omega) (by omega) b.size
  obtain ⟨s₂, h₂, v₂⟩ := storeNext_eq v₁ (b := b.addr) (by omega) (by omega) 0
  obtain ⟨s₃, h₃, v₃⟩ := storeFree_eq v₂ (b := b.addr) (by omega) (by omega) b.free
  obtain ⟨s₄, h₄, v₄⟩ := storePrev_eq v₃ (b := b.addr) (by omega) (by omega) l
  obtain ⟨s₅, h₅, v₅⟩ := storeNext_eq v₄ (b := l) (by omega) (by omega) b.addr
  refine ⟨s₅, _, ?_, v₅, ⟨?_, fun f hf => ?_, fun a hal hab => ?_⟩, ⟨?_, fun a hal hab => ?_⟩⟩
  · simp only [h₁, h₂, h₃, h₄, h₅, Option.bind_some]
  · have hnew := ((headerAt_view v b.addr).storeSize hsize).storeNext (v := 0) (by decide)
    have hprev := (hnew.storeFree b.free).store32 (c := b.addr + 12) l (by omega)
    exact hprev.store32 (c := l + 8) b.addr (by omega)
  · have hsized := hf.store32 (c := b.addr) b.size (by omega)
    have hended := hsized.store32 (c := b.addr + 8) 0 (by omega)
    have hfreed := hended.store8 (c := b.addr + 4) (if b.free then 1 else 0) (by omega)
    exact (hfreed.store32 (c := b.addr + 12) l (by omega)).storeNext (by omega)
  · simp (disch := omega) only [Bytes.store32_apply_of_disjoint, Bytes.store8_of_ne]
  · rw [Bytes.load32_store32_of_disjoint _ (by omega), Bytes.load32_store32_of_lt _ _ (by omega)]
  · simp (disch := omega) only [Bytes.store32_apply_of_disjoint, Bytes.store8_of_ne]

/-- The end of `expand_heap`: `[hi, hi + pages * 4096)` has just been added to the window. It
writes there, and the `next` of the last block. One or two blocks are linked in, each by its own
lemma; the second one goes behind the first, which has become the last block by then. -/
theorem appendBlock_eq {pre : List Block} {l : Block} {first pages size : Nat}
    (v : View s₀ s lo (hi + pages * 4096) τ m) (hend : hi + pages * 4096 < 4294967296)
    (hlaid : Laid 16 4 hi lo (pre ++ [l])) (hseg : Seg m first (pre ++ [l]) 0)
    (hsize : size + 16 ≤ pages * 4096) :
    ∃ s' m', appendBlock s hi (size + 16) pages size l.addr = some s' ∧
      View s₀ s' lo (hi + pages * 4096) τ m' ∧
      Seg m' first (pre ++ [l] ++ fresh 16 20 hi (pages * 4096) size) 0 ∧
      (∀ a, a < hi → (a < l.addr ∨ l.addr + 16 ≤ a) → m' a = m a) ∧
      ∀ p, BackLinks m p (pre ++ [l]) →
        BackLinks m' p (pre ++ [l] ++ fresh 16 20 hi (pages * 4096) size) := by
  have hl := hlaid.mem (b := l) (by simp)
  have hlohi := hlaid.le
  have hout : ∀ c ∈ pre, c.addr + 16 ≤ l.addr := by
    intro c hc
    have := (List.pairwise_append.mp hlaid.pairwise).2.2 c hc l (by simp)
    unfold Block.stop at this
    omega
  have hall : ∀ c ∈ pre ++ [l], c.addr + 16 ≤ hi := by
    intro c hc
    have := (hlaid.mem hc).2.1
    unfold Block.stop at this
    omega
  unfold Block.stop at hl
  have hrem : u32 (pages * 4096 + 4294967296 - (size + 16)) = pages * 4096 - (size + 16) := by
    unfold u32
    omega
  obtain ⟨s₁, m₁, hrun₁, v₁, hlink₁, hback₁⟩ := linkNew_eq (b := ⟨hi, size, false⟩) v hl.1
    (hall l (by simp)) (by simp only; omega) (by omega) (by simp only; omega)
  have hseg₁ := hlink₁.seg hseg hout (hall l (by simp))
  unfold appendBlock
  simp only [hrem, Option.bind_eq_bind]
  rw [hrun₁]
  by_cases hleft : 20 < pages * 4096 - (size + 16)
  · rw [if_pos (show blockHeader + 4 < pages * 4096 - (size + 16) from hleft), fresh,
      if_pos hleft]
    have hnew : u32 (hi + (size + 16)) = hi + (size + 16) := u32_of_lt (by omega)
    obtain ⟨s₂, m₂, hrun₂, v₂, hlink₂, hback₂⟩ := linkRest_eq
      (b := ⟨hi + (size + 16), pages * 4096 - (size + 16) - 16, true⟩) (l := hi) v₁ hlohi
      (by simp only; omega) (by simp only; omega) (by omega) (by simp only; omega)
    refine ⟨s₂, m₂, ?_, v₂, ?_, fun a ha hal => ?_, fun p hlinks => ?_⟩
    · rw [hnew]
      exact hrun₂
    · rw [List.append_cons]
      exact hlink₂.seg (l := ⟨hi, size, false⟩) hseg₁ hall (by simp only; omega)
    · rw [hlink₂.frame a (by omega) (by simp only; omega), hlink₁.frame a hal (Or.inl ha)]
    · rw [List.append_cons]
      exact hback₂.backLinks (l := ⟨hi, size, false⟩)
        (hback₁.backLinks hlinks hout (hall l (by simp))) hall (by simp only; omega)
  · rw [if_neg (show ¬ blockHeader + 4 < pages * 4096 - (size + 16) from hleft), fresh,
      if_neg hleft]
    exact ⟨s₁, m₁, rfl, v₁, hseg₁, fun a ha hal => hlink₁.frame a hal (Or.inl ha),
      fun p hlinks => hback₁.backLinks hlinks hout (hall l (by simp))⟩

end Append

/-! ## Freeing and merging -/

section Merge

variable {σ : Type} [AddressSpace σ] {s₀ : σ} {lo hi : Nat} {τ : Nat → Nat}

/-- The address is in none of the headers. -/
def OutsideHeaders (bs : List Block) (a : Nat) : Prop := ∀ b ∈ bs, a < b.addr ∨ b.addr + 16 ≤ a

/-- The payload of a block is outside all the headers. -/
theorem OutsideHeaders.of_payload {start : Nat} {bs : List Block} (hlaid : Laid 16 4 hi start bs)
    {c : Block} (hc : c ∈ bs) {a : Nat} (hlo : c.addr + 16 ≤ a) (hhi : a < c.stop 16) :
    OutsideHeaders bs a := by
  intro b hb
  by_cases heq : b = c
  · subst heq
    exact Or.inr hlo
  · have hdis := hlaid.disjoint hb hc heq
    unfold Block.stop at hdis hhi
    omega

theorem OutsideHeaders.release {addr a : Nat} {bs : List Block} (h : OutsideHeaders bs a) :
    OutsideHeaders (release addr bs) a := by
  intro b hb
  obtain ⟨c, hc, rfl⟩ := List.mem_map.mp hb
  split
  · exact h c hc
  · exact h c hc

/-- The store of `kfree` marks the block it is at, and is in nobody else's header. -/
theorem Seg.release {m : Bytes.Mem} {addr e : Nat} {bs : List Block} :
    ∀ {a : Nat}, Seg m a bs e →
      (∀ c ∈ bs, c.addr = addr ∨ addr + 4 < c.addr ∨ c.addr + 12 ≤ addr + 4) →
      Seg (Bytes.store8 m (addr + 4) 1) a (FreeList.release addr bs) e := by
  induction bs with
  | nil => exact fun h _ => h
  | cons c bs ih =>
    intro a h hout
    have hc := hout c List.mem_cons_self
    have hhead := h.header
    obtain ⟨rfl, _, hrest⟩ := h
    have hrest' := ih hrest fun d hd => hout d (List.mem_cons_of_mem _ hd)
    by_cases heq : c.addr = addr
    · subst heq
      have hcons : FreeList.release c.addr (c :: bs) =
          { c with free := true } :: FreeList.release c.addr bs := by
        rw [FreeList.release, List.map_cons, if_pos rfl]
        rfl
      rw [hcons]
      exact (hhead.storeFree true).seg (b := { c with free := true }) hrest'
    · have hcons : FreeList.release addr (c :: bs) = c :: FreeList.release addr bs := by
        rw [FreeList.release, List.map_cons, if_neg heq]
        rfl
      rw [hcons]
      exact (hhead.store8 (c := addr + 4) 1 (by omega)).seg hrest'

/-- One merge: the writes of the loop body for two free neighbours. The loop stays where it is, so
the statement is about any fuel. The block behind the two gets its `prev` corrected, if there is
one; the back links stay right through a merge, other than through a split. -/
theorem merge_eq {s : σ} {m : Bytes.Mem} {b c : Block} {bs : List Block} {start unit : Nat}
    (v : View s₀ s lo hi τ m) (hlo : 0 < lo) (hhi : hi ≤ 4294967296) (hst : lo ≤ start)
    (hlaid : Laid 16 unit hi start (b :: c :: bs)) (hseg : Seg m b.addr (b :: c :: bs) 0)
    (hfree : b.free = true ∧ c.free = true) :
    ∃ s' m', (∀ fuel, coalesceFrom (fuel + 1) s b.addr = coalesceFrom fuel s' b.addr) ∧
      View s₀ s' lo hi τ m' ∧ Seg m' b.addr (⟨b.addr, b.size + (c.size + 16), true⟩ :: bs) 0 ∧
      (∀ a, OutsideHeaders (b :: c :: bs) a → m' a = m a) ∧
      ∀ p, BackLinks m p (b :: c :: bs) →
        BackLinks m' p (⟨b.addr, b.size + (c.size + 16), true⟩ :: bs) := by
  have hhead := hseg.header
  rw [hfree.1] at hhead
  obtain ⟨_, ⟨hbsize, hbfree⟩, hcaddr, ⟨hcsize, hcfree⟩, hrest⟩ := hseg
  have hb := hlaid.mem (b := b) (by simp)
  have hc := hlaid.mem (b := c) (by simp)
  have hpair := List.pairwise_cons.mp hlaid.pairwise
  have hbc := hpair.1 c (by simp)
  have hcs := (List.pairwise_cons.mp hpair.2).1
  unfold Block.stop at hb hc hbc hcs
  have hlt := Bytes.load32_lt m (c.addr + 8)
  have hsum : u32 (b.size + (c.size + 16)) = b.size + (c.size + 16) := u32_of_lt (by omega)
  obtain ⟨s₁, h₁, v₁⟩ := storeSize_eq v (b := b.addr) (by omega) (by omega)
    (b.size + (c.size + 16))
  have hnext := loadNext_eq v₁.shows (b := c.addr) (by omega) (by omega)
  rw [Bytes.load32_store32_of_disjoint _ (by omega)] at hnext
  obtain ⟨s₂, h₂, v₂⟩ := storeNext_eq v₁ (b := b.addr) (by omega) (by omega)
    (Bytes.load32 m (c.addr + 8))
  have hmerged := (hhead.storeSize (show b.size + (c.size + 16) < 4294967296 by omega)).storeNext hlt
  have hnez : c.addr ≠ 0 := by omega
  -- The loop body up to the write of `prev`.
  have hbody : ∀ fuel, coalesceFrom (fuel + 1) s b.addr =
      ((if Bytes.load32 m (c.addr + 8) = 0 then some s₂
        else storePrev s₂ (Bytes.load32 m (c.addr + 8)) b.addr).bind fun s =>
          coalesceFrom fuel s b.addr) := by
    intro fuel
    rw [coalesceFrom, loadNext_eq v.shows (by omega) (by omega), hcaddr]
    simp only [Option.bind_eq_bind, Option.bind_some]
    rw [if_neg hnez, loadFree_eq v.shows (by omega) (by omega), hbfree, hfree.1]
    simp only [Option.bind_some, if_true]
    rw [loadFree_eq v.shows (by omega) (by omega), hcfree, hfree.2,
      loadSize_eq v.shows (by omega) (by omega), hcsize,
      loadSize_eq v.shows (by omega) (by omega), hbsize]
    simp only [Option.bind_some, if_true, blockHeader, hsum, h₁, h₂, hnext]
    split
    · rfl
    · rfl
  cases bs with
  | nil =>
    have hend : Bytes.load32 m (c.addr + 8) = 0 := hrest
    refine ⟨s₂, _, fun fuel => ?_, v₂, ?_, fun a ha => ?_, fun p hlinks => ⟨?_, trivial⟩⟩
    · rw [hbody, if_pos hend, Option.bind_some]
    · exact hmerged.seg (b := ⟨b.addr, b.size + (c.size + 16), true⟩) hend
    · have := ha b (by simp)
      simp (disch := omega) only [Bytes.store32_apply_of_disjoint]
    · rw [Bytes.load32_store32_of_disjoint _ (by simp only; omega),
        Bytes.load32_store32_of_disjoint _ (by simp only; omega)]
      exact hlinks.1
  | cons d ds =>
    have hdaddr : Bytes.load32 m (c.addr + 8) = d.addr := hrest.1
    have hd := hlaid.mem (b := d) (by simp)
    have hcd := hcs d (by simp)
    unfold Block.stop at hd
    obtain ⟨s₃, h₃, v₃⟩ := storePrev_eq v₂ (b := d.addr) (by omega) (by omega) b.addr
    have hlinked := hmerged.store32 (c := d.addr + 12) b.addr (by omega)
    have hds : ∀ x ∈ ds, d.addr + 16 ≤ x.addr := by
      intro x hx
      have := (List.pairwise_cons.mp (List.pairwise_cons.mp hpair.2).2).1 x hx
      unfold Block.stop at this
      omega
    refine ⟨s₃, _, fun fuel => ?_, v₃, ?_, fun a ha => ?_, fun p hlinks => ⟨?_, ?_, ?_⟩⟩
    · rw [hbody, hdaddr, if_neg (by omega), h₃, Option.bind_some]
    · refine hlinked.seg (b := ⟨b.addr, b.size + (c.size + 16), true⟩)
        (hrest.congr fun x hx i hi => ?_)
      have hx₁ := hcs x hx
      -- Only the `prev` field of `d` is written past `c`.
      have hx₂ : x.addr + i < d.addr + 12 ∨ d.addr + 16 ≤ x.addr + i := by
        rcases List.mem_cons.mp hx with rfl | hx
        · omega
        · have := hds x hx
          omega
      simp (disch := omega) only [Bytes.store32_apply_of_disjoint]
    · have h₁ := ha b (by simp)
      have h₂ := ha d (by simp)
      simp (disch := omega) only [Bytes.store32_apply_of_disjoint]
    · rw [Bytes.load32_store32_of_disjoint _ (by simp only; omega),
        Bytes.load32_store32_of_disjoint _ (by simp only; omega),
        Bytes.load32_store32_of_disjoint _ (by simp only; omega)]
      exact hlinks.1
    · exact Bytes.load32_store32_of_lt _ _ (by omega)
    · refine hlinks.2.2.2.congr fun x hx i hi => ?_
      have := hds x hx
      simp (disch := omega) only [Bytes.store32_apply_of_disjoint]

/-- The pass over the list does what `coalesce` says, in headers only. Each turn takes a block off
the rest of the list, by a merge or by going on, and so the length of the list is fuel enough. That
the pass was at `b` with anything before it is not in the statement: the recursion goes through the
list from wherever it is. -/
theorem coalesceFrom_eq {unit : Nat} (hunit : 16 % unit = 0) (hlo : 0 < lo)
    (hhi : hi ≤ 4294967296) : ∀ (fuel : Nat) {s : σ}
    {m : Bytes.Mem} {b : Block} {bs : List Block} {start : Nat}, View s₀ s lo hi τ m →
    lo ≤ start → Laid 16 unit hi start (b :: bs) → Seg m b.addr (b :: bs) 0 → bs.length < fuel →
    ∃ s' m', coalesceFrom fuel s b.addr = some s' ∧ View s₀ s' lo hi τ m' ∧
      Seg m' b.addr (coalesce 16 (b :: bs)) 0 ∧
      (∀ a, OutsideHeaders (b :: bs) a → m' a = m a) ∧
      ∀ p, BackLinks m p (b :: bs) → BackLinks m' p (coalesce 16 (b :: bs))
  | fuel + 1, s, m, b, [], start, v, hst, hlaid, hseg, _ => by
    have hb := hlaid.mem (b := b) (by simp)
    unfold Block.stop at hb
    have hnext : Bytes.load32 m (b.addr + 8) = 0 := hseg.2.2
    have hsame : coalesce 16 [b] = [b] := by
      rw [coalesce]
      intro x y zs h
      exact absurd h (by simp)
    refine ⟨s, m, ?_, v, ?_, fun a _ => rfl, fun p hlinks => ?_⟩
    · rw [coalesceFrom, loadNext_eq v.shows (by omega) (by omega), hnext]
      rfl
    · rw [hsame]
      exact hseg
    · rw [hsame]
      exact hlinks
  | fuel + 1, s, m, b, c :: bs, start, v, hst, hlaid, hseg, hfuel => by
    rw [List.length_cons] at hfuel
    by_cases hfree : b.free = true ∧ c.free = true
    · -- Merge, and stay at `b`.
      obtain ⟨s₁, m₁, hrun, v₁, hseg₁, hframe₁, hlinks₁⟩ :=
        merge_eq v hlo hhi hst hlaid hseg hfree
      obtain ⟨s', m', hrun', v', hseg', hframe', hlinks'⟩ :=
        coalesceFrom_eq hunit hlo hhi fuel v₁ hst (hlaid.merge hunit true) hseg₁ (by omega)
      rw [coalesce, if_pos (by simp [hfree])]
      refine ⟨s', m', (hrun fuel).trans hrun', v', hseg', fun a ha => ?_,
        fun p hlinks => hlinks' p (hlinks₁ p hlinks)⟩
      rw [hframe' a fun x hx => ?_, hframe₁ a ha]
      rcases List.mem_cons.mp hx with rfl | hx
      · exact ha b (by simp)
      · exact ha x (by simp [hx])
    · -- Go on to `c`; the header of `b` is not written again.
      have hhead := hseg.header
      obtain ⟨hba, ⟨hbsize, hbfree⟩, hrest⟩ := hseg
      have hcaddr : Bytes.load32 m (b.addr + 8) = c.addr := hrest.1
      have hb := hlaid.mem (b := b) (by simp)
      have hc := hlaid.mem (b := c) (by simp)
      have hpair := (List.pairwise_cons.mp hlaid.pairwise).1
      obtain ⟨_, _, _, hlaid'⟩ := hlaid
      unfold Block.stop at hb hc hpair
      have hstop : lo ≤ b.stop 16 := by
        unfold Block.stop
        omega
      rw [hcaddr] at hrest
      obtain ⟨s', m', hrun', v', hseg', hframe', hlinks'⟩ :=
        coalesceFrom_eq hunit hlo hhi fuel v hstop hlaid' hrest (by omega)
      have hnez : c.addr ≠ 0 := by omega
      have hkeep : ∀ i < 16, m' (b.addr + i) = m (b.addr + i) := fun i hi =>
        hframe' _ fun x hx => by
          have := hpair x hx
          omega
      rw [coalesce, if_neg (by simpa using hfree)]
      refine ⟨s', m', ?_, v', ?_, fun a ha => hframe' a fun x hx => ha x (by simp [hx]),
        fun p hlinks => ⟨?_, hlinks' _ hlinks.2⟩⟩
      · rw [coalesceFrom, loadNext_eq v.shows (by omega) (by omega), hcaddr]
        simp only [Option.bind_eq_bind, Option.bind_some]
        rw [if_neg hnez, loadFree_eq v.shows (by omega) (by omega), hbfree,
          loadFree_eq v.shows (by omega) (by omega), hrest.2.1.2]
        cases hbf : b.free with
        | false => simpa using hrun'
        | true =>
          have hcf : c.free = false := by
            by_contra hcf
            exact hfree ⟨hbf, by simpa using hcf⟩
          simpa [hcf] using hrun'
      · rw [hcaddr] at hhead
        exact (hhead.congr fun i hi => hkeep i (by omega)).seg hseg'
      · rw [Bytes.load32_congr fun i hi => ?_]
        · exact hlinks.1
        · rw [Nat.add_assoc]
          exact hkeep (12 + i) (by omega)

end Merge

end ScratchOs.Mem
