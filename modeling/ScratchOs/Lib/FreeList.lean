import Mathlib.Data.List.Chain
import Mathlib.Data.List.Pairwise
import Mathlib.Tactic.Common

/-!
# Blocks in an arena

The bookkeeping of a free-list allocator, without the memory it lives in. An arena `[lo, hi)`
holds blocks in increasing order, each a header of `hdr` bytes and a payload of `size` bytes,
everything a multiple of `unit`; there may be gaps. `Laid` is that picture, and the operations
of an allocator are edits of the list that keep it: a free block is carved in two (`carve`),
neighbours that are both free are merged (`coalesce`), a block is given back (`release`), new
blocks are put past the last one.

A merge adds up sizes, so over a gap it loses the gap's bytes; the merged block then ends
before its second half did, and the picture stays (`Laid.merge`). Blocks that are in use go
through all of this unchanged (`mem_coalesce`).

`Tiles` is the picture without gaps, and `Merged` the one without two free neighbours. Together
they say that an arena in which nothing is in use is one free block (`Tiles.single`).

The three pictures are kept apart on purpose. `Laid` is what safety rests on and what every
operation keeps; `Tiles` is about waste, and growing the arena can break it for good; `Merged` is
about the merging pass, and splitting keeps it only because a carved block was free and its
neighbours therefore were not. An allocator can have any of them without the others.

Sizes and addresses are unbounded here. An allocator on machine words has the bounds to see to
before it comes to this module, and has no second chance here: a sum that has wrapped is no longer
the size of anything.
-/

set_option autoImplicit false

namespace ScratchOs.FreeList

structure Block where
  addr : Nat
  size : Nat
  free : Bool
deriving DecidableEq, Repr

/-- The first address after a block. -/
def Block.stop (hdr : Nat) (b : Block) : Nat := b.addr + hdr + b.size

/-- Blocks in increasing order, apart from each other, between `lo` and `hi`. -/
def Laid (hdr unit hi : Nat) : Nat → List Block → Prop
  | lo, [] => lo ≤ hi
  | lo, b :: bs =>
    lo ≤ b.addr ∧ b.addr % unit = 0 ∧ b.size % unit = 0 ∧ Laid hdr unit hi (b.stop hdr) bs

/-- A free block used for `size` bytes: in two if what remains can hold `least` bytes. -/
def carve (hdr least size : Nat) (b : Block) : List Block :=
  if least ≤ b.size - size then
    [⟨b.addr, size, false⟩, ⟨b.addr + hdr + size, b.size - size - hdr, true⟩]
  else [⟨b.addr, b.size, false⟩]

/-- `bytes` new bytes at `addr`, used for `size` of them; what is left becomes a free block if
it is more than `least`. -/
def fresh (hdr least addr bytes size : Nat) : List Block :=
  ⟨addr, size, false⟩ ::
    if least < bytes - (size + hdr) then
      [⟨addr + (size + hdr), bytes - (size + hdr) - hdr, true⟩]
    else []

/-- The block at `addr` marked free. -/
def release (addr : Nat) (bs : List Block) : List Block :=
  bs.map fun b => if b.addr = addr then { b with free := true } else b

/-- One pass that merges neighbours that are both free. -/
def coalesce (hdr : Nat) : List Block → List Block
  | b :: c :: bs =>
    if b.free && c.free then coalesce hdr (⟨b.addr, b.size + (c.size + hdr), true⟩ :: bs)
    else b :: coalesce hdr (c :: bs)
  | bs => bs
termination_by bs => bs.length

section Laid

variable {hdr unit hi : Nat}

theorem Laid.le {lo : Nat} {bs : List Block} (h : Laid hdr unit hi lo bs) : lo ≤ hi := by
  induction bs generalizing lo with
  | nil => exact h
  | cons b bs ih =>
    obtain ⟨hlo, _, _, hbs⟩ := h
    have := ih hbs
    unfold Block.stop at this
    omega

/-- More room on either side. -/
theorem Laid.mono {lo lo' hi' : Nat} (hlo : lo' ≤ lo) (hhi : hi ≤ hi') {bs : List Block}
    (h : Laid hdr unit hi lo bs) : Laid hdr unit hi' lo' bs := by
  induction bs generalizing lo lo' with
  | nil => exact Nat.le_trans hlo (Nat.le_trans h hhi)
  | cons b bs ih =>
    obtain ⟨hb, ha, hs, hbs⟩ := h
    exact ⟨Nat.le_trans hlo hb, ha, hs, ih (Nat.le_refl _) hbs⟩

/-- Two lists of blocks side by side. -/
theorem laid_append {lo : Nat} {bs cs : List Block} :
    Laid hdr unit hi lo (bs ++ cs) ↔
      ∃ mid, Laid hdr unit mid lo bs ∧ Laid hdr unit hi mid cs := by
  induction bs generalizing lo with
  | nil =>
    refine ⟨fun h => ⟨lo, Nat.le_refl lo, h⟩, ?_⟩
    rintro ⟨mid, hle, h⟩
    exact h.mono hle (Nat.le_refl _)
  | cons b bs ih =>
    constructor
    · rintro ⟨hb, ha, hs, hbs⟩
      obtain ⟨mid, h₁, h₂⟩ := ih.mp hbs
      exact ⟨mid, ⟨hb, ha, hs, h₁⟩, h₂⟩
    · rintro ⟨mid, ⟨hb, ha, hs, h₁⟩, h₂⟩
      exact ⟨hb, ha, hs, ih.mpr ⟨mid, h₁, h₂⟩⟩

/-- What the list says of one block, wherever it is in it. -/
theorem Laid.mem {lo : Nat} {bs : List Block} (h : Laid hdr unit hi lo bs) {b : Block}
    (hb : b ∈ bs) : lo ≤ b.addr ∧ b.stop hdr ≤ hi ∧ b.addr % unit = 0 ∧ b.size % unit = 0 := by
  obtain ⟨pre, post, rfl⟩ := List.append_of_mem hb
  obtain ⟨mid, hpre, hlo, ha, hs, hpost⟩ := laid_append.mp h
  exact ⟨Nat.le_trans hpre.le hlo, hpost.le, ha, hs⟩

/-- Of two blocks the earlier one ends before the later one begins. -/
theorem Laid.pairwise {lo : Nat} {bs : List Block} (h : Laid hdr unit hi lo bs) :
    bs.Pairwise fun b c => b.stop hdr ≤ c.addr := by
  induction bs generalizing lo with
  | nil => exact List.Pairwise.nil
  | cons b bs ih =>
    obtain ⟨_, _, _, hbs⟩ := h
    exact List.pairwise_cons.mpr ⟨fun c hc => (hbs.mem hc).1, ih hbs⟩

/-- Different blocks do not overlap. -/
theorem Laid.disjoint {lo : Nat} {bs : List Block} (h : Laid hdr unit hi lo bs) {b c : Block}
    (hb : b ∈ bs) (hc : c ∈ bs) (hne : b ≠ c) : b.stop hdr ≤ c.addr ∨ c.stop hdr ≤ b.addr := by
  have hsym : Std.Symm fun b c : Block => b.stop hdr ≤ c.addr ∨ c.stop hdr ≤ b.addr :=
    ⟨fun _ _ h => h.symm⟩
  have hor : bs.Pairwise fun b c : Block => b.stop hdr ≤ c.addr ∨ c.stop hdr ≤ b.addr :=
    h.pairwise.imp fun h => Or.inl h
  exact hor.forall hb hc hne

/-- A block is known by its address, since even an empty one has a header. -/
theorem Laid.eq_of_addr (hhdr : 0 < hdr) {lo : Nat} {bs : List Block}
    (h : Laid hdr unit hi lo bs) {b c : Block} (hb : b ∈ bs) (hc : c ∈ bs)
    (heq : b.addr = c.addr) : b = c := by
  by_contra hne
  have := h.disjoint hb hc hne
  unfold Block.stop at this
  omega

/-- Room for the headers is all that bounds the number of blocks. -/
theorem Laid.length_le {lo : Nat} {bs : List Block} (h : Laid hdr unit hi lo bs) :
    lo + hdr * bs.length ≤ hi := by
  induction bs generalizing lo with
  | nil => simpa using h.le
  | cons b bs ih =>
    obtain ⟨hlo, _, _, hbs⟩ := h
    have := ih hbs
    unfold Block.stop at this
    rw [List.length_cons, Nat.mul_succ]
    omega

/-- The extent of one block laid out anew. Whatever is done to one block goes through here, so the
lemmas about an operation are about a list of one. -/
theorem Laid.replace {lo : Nat} {pre cs post : List Block} {b : Block}
    (h : Laid hdr unit hi lo (pre ++ b :: post))
    (hcs : Laid hdr unit (b.stop hdr) b.addr cs) : Laid hdr unit hi lo (pre ++ (cs ++ post)) := by
  obtain ⟨mid, hpre, hlo, _, _, hpost⟩ := laid_append.mp h
  exact laid_append.mpr
    ⟨mid, hpre, laid_append.mpr ⟨_, hcs.mono hlo (Nat.le_refl _), hpost⟩⟩

/-- The parts of a carved block lie in its extent. That a rest has room for its own header is what
`hleast` is for. -/
theorem Laid.carve {lo least size : Nat} {b : Block} (h : Laid hdr unit hi lo [b])
    (hsize : size ≤ b.size) (hunit : size % unit = 0) (hhdr : hdr % unit = 0)
    (hleast : hdr ≤ least) :
    Laid hdr unit (b.stop hdr) b.addr (carve hdr least size b) := by
  obtain ⟨_, ha, hs, _⟩ := h
  have hdvd : unit ∣ b.addr ∧ unit ∣ b.size ∧ unit ∣ size ∧ unit ∣ hdr :=
    ⟨Nat.dvd_of_mod_eq_zero ha, Nat.dvd_of_mod_eq_zero hs, Nat.dvd_of_mod_eq_zero hunit,
      Nat.dvd_of_mod_eq_zero hhdr⟩
  obtain ⟨da, ds, dz, dh⟩ := hdvd
  unfold FreeList.carve
  split
  · next hrem =>
    have haddr : (b.addr + hdr + size) % unit = 0 :=
      Nat.mod_eq_zero_of_dvd (Nat.dvd_add (Nat.dvd_add da dh) dz)
    have hsz : (b.size - size - hdr) % unit = 0 :=
      Nat.mod_eq_zero_of_dvd (Nat.dvd_sub (Nat.dvd_sub ds dz) dh)
    refine ⟨Nat.le_refl _, ha, hunit, ?_, haddr, hsz, ?_⟩
    · exact Nat.le_refl _
    · show b.addr + hdr + size + hdr + (b.size - size - hdr) ≤ b.addr + hdr + b.size
      omega
  · exact ⟨Nat.le_refl _, ha, hs, Nat.le_refl _⟩

/-- Blocks made in `bytes` new bytes stay inside of them. -/
theorem laid_fresh {least addr bytes size : Nat} (haddr : addr % unit = 0)
    (hbytes : bytes % unit = 0) (hsize : size % unit = 0) (hhdr : hdr % unit = 0)
    (hleast : hdr ≤ least) (hle : size + hdr ≤ bytes) :
    Laid hdr unit (addr + bytes) addr (fresh hdr least addr bytes size) := by
  have hdvd : unit ∣ addr ∧ unit ∣ bytes ∧ unit ∣ size + hdr ∧ unit ∣ hdr :=
    ⟨Nat.dvd_of_mod_eq_zero haddr, Nat.dvd_of_mod_eq_zero hbytes,
      Nat.dvd_add (Nat.dvd_of_mod_eq_zero hsize) (Nat.dvd_of_mod_eq_zero hhdr),
      Nat.dvd_of_mod_eq_zero hhdr⟩
  obtain ⟨da, db, dn, dh⟩ := hdvd
  refine ⟨Nat.le_refl _, haddr, hsize, ?_⟩
  split
  · next hrem =>
    refine ⟨?_, Nat.mod_eq_zero_of_dvd (Nat.dvd_add da dn),
      Nat.mod_eq_zero_of_dvd (Nat.dvd_sub (Nat.dvd_sub db dn) dh), ?_⟩
    · show addr + hdr + size ≤ addr + (size + hdr)
      omega
    · show addr + (size + hdr) + hdr + (bytes - (size + hdr) - hdr) ≤ addr + bytes
      omega
  · show addr + hdr + size ≤ addr + bytes
    omega

/-- The merge of two neighbours ends where the second one does, or before. -/
theorem Laid.merge {lo : Nat} {b c : Block} {bs : List Block} (hhdr : hdr % unit = 0)
    (h : Laid hdr unit hi lo (b :: c :: bs)) (f : Bool) :
    Laid hdr unit hi lo (⟨b.addr, b.size + (c.size + hdr), f⟩ :: bs) := by
  obtain ⟨hb, hba, hbs, hc, hca, hcs, hrest⟩ := h
  have hsize : (b.size + (c.size + hdr)) % unit = 0 :=
    Nat.mod_eq_zero_of_dvd (Nat.dvd_add (Nat.dvd_of_mod_eq_zero hbs)
      (Nat.dvd_add (Nat.dvd_of_mod_eq_zero hcs) (Nat.dvd_of_mod_eq_zero hhdr)))
  refine ⟨hb, hba, hsize, hrest.mono ?_ (Nat.le_refl _)⟩
  show b.addr + hdr + (b.size + (c.size + hdr)) ≤ c.addr + hdr + c.size
  unfold Block.stop at hc
  omega

/-- The mark of a block is not part of the layout. -/
theorem Laid.release {lo : Nat} {bs : List Block} (addr : Nat) (h : Laid hdr unit hi lo bs) :
    Laid hdr unit hi lo (release addr bs) := by
  induction bs generalizing lo with
  | nil => exact h
  | cons b bs ih =>
    obtain ⟨hb, ha, hs, hbs⟩ := h
    show Laid hdr unit hi lo ((if b.addr = addr then { b with free := true } else b) ::
      FreeList.release addr bs)
    split
    · exact ⟨hb, ha, hs, ih hbs⟩
    · exact ⟨hb, ha, hs, ih hbs⟩

theorem Laid.coalesce (hhdr : hdr % unit = 0) {bs : List Block} :
    ∀ {lo : Nat}, Laid hdr unit hi lo bs → Laid hdr unit hi lo (coalesce hdr bs) := by
  fun_induction FreeList.coalesce hdr bs with
  | case1 b c bs _ ih => exact fun h => ih (h.merge hhdr true)
  | case2 b c bs _ ih => exact fun ⟨hb, ha, hs, h⟩ => ⟨hb, ha, hs, ih h⟩
  | case3 bs _ => exact fun h => h

end Laid

/-! ## Blocks in use stay

A caller holds the address of a payload, so the promise it is given is about one block: it is in
the list, with its address and its size, for as long as it is in use. The lemmas come in pairs, one
for each direction; the converse is what makes the list of live allocations exact and not only
covered. -/

theorem mem_release {addr : Nat} {bs : List Block} {b : Block} (hb : b ∈ bs)
    (hne : b.addr ≠ addr) : b ∈ release addr bs :=
  List.mem_map.mpr ⟨b, hb, if_neg hne⟩

theorem release_append {addr : Nat} {bs cs : List Block} :
    release addr (bs ++ cs) = release addr bs ++ release addr cs := List.map_append

theorem release_of_ne {addr : Nat} {bs : List Block} (h : ∀ b ∈ bs, b.addr ≠ addr) :
    release addr bs = bs := by
  induction bs with
  | nil => rfl
  | cons b bs ih =>
    rw [release, List.map_cons, if_neg (h b List.mem_cons_self)]
    exact congrArg (b :: ·) (ih fun c hc => h c (List.mem_cons_of_mem b hc))

/-- By the recursion of `coalesce`: a merge takes two free blocks away, and `x` is neither. -/
theorem mem_coalesce {hdr : Nat} {bs : List Block} {x : Block} (hx : x.free = false) :
    x ∈ bs → x ∈ coalesce hdr bs := by
  fun_induction coalesce hdr bs with
  | case1 b c bs hfree ih =>
    intro hmem
    rw [Bool.and_eq_true] at hfree
    rcases List.mem_cons.mp hmem with rfl | hmem
    · rw [hx] at hfree
      exact absurd hfree.1 (by simp)
    · rcases List.mem_cons.mp hmem with rfl | hmem
      · rw [hx] at hfree
        exact absurd hfree.2 (by simp)
      · exact ih (List.mem_cons_of_mem _ hmem)
  | case2 b c bs _ ih =>
    intro hmem
    rcases List.mem_cons.mp hmem with rfl | hmem
    · exact List.mem_cons_self
    · exact List.mem_cons_of_mem _ (ih hmem)
  | case3 bs _ => exact fun h => h

/-- The blocks that a merge makes are free. -/
theorem mem_of_mem_coalesce {hdr : Nat} {bs : List Block} {x : Block} (hx : x.free = false) :
    x ∈ coalesce hdr bs → x ∈ bs := by
  fun_induction coalesce hdr bs with
  | case1 b c bs _ ih =>
    intro hmem
    rcases List.mem_cons.mp (ih hmem) with rfl | hmem
    · exact absurd hx (by simp)
    · exact List.mem_cons_of_mem _ (List.mem_cons_of_mem _ hmem)
  | case2 b c bs _ ih =>
    intro hmem
    rcases List.mem_cons.mp hmem with rfl | hmem
    · exact List.mem_cons_self
    · exact List.mem_cons_of_mem _ (ih hmem)
  | case3 bs _ => exact fun h => h

/-- A block still in use is not the one that was released. -/
theorem of_mem_release {addr : Nat} {bs : List Block} {b : Block} (hb : b ∈ release addr bs)
    (hfree : b.free = false) : b ∈ bs ∧ b.addr ≠ addr := by
  obtain ⟨c, hc, heq⟩ := List.mem_map.mp hb
  by_cases hca : c.addr = addr
  · rw [if_pos hca] at heq
    subst heq
    exact absurd hfree Bool.noConfusion
  · rw [if_neg hca] at heq
    subst heq
    exact ⟨hc, hca⟩

/-- Of the parts of a carved block the first is the one in use. -/
theorem addr_of_mem_carve {hdr least size : Nat} {b c : Block} (hc : c ∈ carve hdr least size b)
    (hfree : c.free = false) : c.addr = b.addr := by
  unfold carve at hc
  split at hc
  · rcases List.mem_cons.mp hc with rfl | hc
    · rfl
    · obtain rfl := List.mem_singleton.mp hc
      exact absurd hfree Bool.noConfusion
  · obtain rfl := List.mem_singleton.mp hc
    rfl

theorem addr_of_mem_fresh {hdr least addr bytes size : Nat} {c : Block}
    (hc : c ∈ fresh hdr least addr bytes size) (hfree : c.free = false) : c.addr = addr := by
  unfold fresh at hc
  rcases List.mem_cons.mp hc with rfl | hc
  · rfl
  · split at hc
    · obtain rfl := List.mem_singleton.mp hc
      exact absurd hfree Bool.noConfusion
    · exact absurd hc List.not_mem_nil

/-! ## Blocks without gaps

Like `Laid`, with an equation where `Laid` has an inequality. The proofs are the same edits; only
`tiles_fresh` has a condition, because what is left of new memory may be too small for a block. -/

/-- Every block begins where the one before it ends, and the last one ends at `hi`. -/
def Tiles (hdr hi : Nat) : Nat → List Block → Prop
  | lo, [] => lo = hi
  | lo, b :: bs => b.addr = lo ∧ Tiles hdr hi (b.stop hdr) bs

section Tiles

variable {hdr hi : Nat}

theorem tiles_append {lo : Nat} {bs cs : List Block} :
    Tiles hdr hi lo (bs ++ cs) ↔ ∃ mid, Tiles hdr mid lo bs ∧ Tiles hdr hi mid cs := by
  induction bs generalizing lo with
  | nil =>
    constructor
    · intro h
      exact ⟨lo, rfl, h⟩
    · rintro ⟨mid, rfl, h⟩
      exact h
  | cons b bs ih =>
    constructor
    · rintro ⟨hb, hbs⟩
      obtain ⟨mid, h₁, h₂⟩ := ih.mp hbs
      exact ⟨mid, ⟨hb, h₁⟩, h₂⟩
    · rintro ⟨mid, ⟨hb, h₁⟩, h₂⟩
      exact ⟨hb, ih.mpr ⟨mid, h₁, h₂⟩⟩

theorem Tiles.unique {hi' lo : Nat} {bs : List Block} (h : Tiles hdr hi lo bs)
    (h' : Tiles hdr hi' lo bs) : hi = hi' := by
  induction bs generalizing lo with
  | nil => exact h.symm.trans h'
  | cons b bs ih => exact ih h.2 h'.2

/-- The extent of one block tiled anew. -/
theorem Tiles.replace {lo : Nat} {pre cs post : List Block} {b : Block}
    (h : Tiles hdr hi lo (pre ++ b :: post)) (hcs : Tiles hdr (b.stop hdr) b.addr cs) :
    Tiles hdr hi lo (pre ++ (cs ++ post)) := by
  obtain ⟨mid, hpre, hb, hpost⟩ := tiles_append.mp h
  rw [hb] at hcs
  exact tiles_append.mpr ⟨mid, hpre, tiles_append.mpr ⟨_, hcs, hpost⟩⟩

/-- Whether the block is split or taken whole, nothing of it is lost. -/
theorem tiles_carve {least size : Nat} {b : Block} (hsize : size ≤ b.size)
    (hleast : hdr ≤ least) : Tiles hdr (b.stop hdr) b.addr (carve hdr least size b) := by
  unfold carve
  split
  · next hrem =>
    refine ⟨rfl, rfl, ?_⟩
    show b.addr + hdr + size + hdr + (b.size - size - hdr) = b.addr + hdr + b.size
    omega
  · exact ⟨rfl, rfl⟩

/-- New blocks fill their bytes unless there is a rest too small for a free block. -/
theorem tiles_fresh {least addr bytes size : Nat} (hleast : hdr ≤ least)
    (hle : size + hdr ≤ bytes) :
    Tiles hdr (addr + bytes) addr (fresh hdr least addr bytes size) ↔
      bytes - (size + hdr) = 0 ∨ least < bytes - (size + hdr) := by
  unfold fresh
  split
  · next hrem =>
    refine ⟨fun _ => Or.inr hrem, fun _ => ⟨rfl, ?_, ?_⟩⟩
    · show addr + (size + hdr) = addr + hdr + size
      omega
    · show addr + (size + hdr) + hdr + (bytes - (size + hdr) - hdr) = addr + bytes
      omega
  · next hrem =>
    constructor
    · rintro ⟨_, hstop⟩
      change addr + hdr + size = addr + bytes at hstop
      exact Or.inl (by omega)
    · rintro (hzero | hmore)
      · refine ⟨rfl, ?_⟩
        show addr + hdr + size = addr + bytes
        omega
      · exact absurd hmore hrem

theorem Tiles.release {lo : Nat} {bs : List Block} (addr : Nat) (h : Tiles hdr hi lo bs) :
    Tiles hdr hi lo (release addr bs) := by
  induction bs generalizing lo with
  | nil => exact h
  | cons b bs ih =>
    obtain ⟨hb, hbs⟩ := h
    show Tiles hdr hi lo ((if b.addr = addr then { b with free := true } else b) ::
      FreeList.release addr bs)
    split
    · exact ⟨hb, ih hbs⟩
    · exact ⟨hb, ih hbs⟩

/-- Without a gap a merge loses nothing. -/
theorem Tiles.coalesce {bs : List Block} :
    ∀ {lo : Nat}, Tiles hdr hi lo bs → Tiles hdr hi lo (coalesce hdr bs) := by
  fun_induction FreeList.coalesce hdr bs with
  | case1 b c bs _ ih =>
    rintro lo ⟨hb, hc, hbs⟩
    refine ih ⟨hb, ?_⟩
    have hstop : b.addr + hdr + (b.size + (c.size + hdr)) = c.stop hdr := by
      unfold Block.stop at hc ⊢
      omega
    show Tiles hdr hi (b.addr + hdr + (b.size + (c.size + hdr))) bs
    rw [hstop]
    exact hbs
  | case2 b c bs _ ih => exact fun ⟨hb, h⟩ => ⟨hb, ih h⟩
  | case3 bs _ => exact fun h => h

end Tiles

/-! ## Neighbours

One pass is enough, although a merge makes a new neighbour: `coalesce` does not go on after a merge
but looks at the merged block once more, and so never leaves a pair behind (`merged_coalesce`). -/

/-- No two neighbours are both free. -/
def Merged (bs : List Block) : Prop :=
  bs.IsChain fun b c => b.free = false ∨ c.free = false

/-- The part in use comes first, so the free rest lies between it and what was behind the block; and
that is in use, since the block was free. -/
theorem Merged.carve {hdr least size : Nat} {pre post : List Block} {b : Block}
    (h : Merged (pre ++ b :: post)) (hfree : b.free = true) :
    Merged (pre ++ (carve hdr least size b ++ post)) := by
  obtain ⟨hpre, hpost⟩ := List.isChain_split.mp h
  -- A block in use may follow anything; what follows a free block is in use.
  have huse : ∀ u : Block, u.free = false → Merged (pre ++ [u]) := by
    intro u hu
    obtain ⟨hpre, _, _⟩ := List.isChain_append.mp hpre
    refine List.isChain_append.mpr ⟨hpre, List.isChain_singleton u, fun x _ y hy => ?_⟩
    obtain rfl := Option.some.inj hy
    exact Or.inr hu
  have hrest : ∀ r : Block, Merged (r :: post) := by
    intro r
    cases post with
    | nil => exact List.isChain_singleton r
    | cons c post =>
      obtain ⟨hbc, hpost⟩ := List.isChain_cons_cons.mp hpost
      refine List.isChain_cons_cons.mpr ⟨Or.inr (hbc.resolve_left ?_), hpost⟩
      rw [hfree]
      exact Bool.noConfusion
  unfold FreeList.carve
  split
  · refine List.isChain_split.mpr ⟨huse _ rfl, ?_⟩
    exact List.isChain_cons_cons.mpr ⟨Or.inl rfl, hrest _⟩
  · exact List.isChain_split.mpr ⟨huse _ rfl, hrest _⟩

/-- New memory begins with a block in use, so it does not matter what the list ends in. -/
theorem Merged.fresh {hdr least addr bytes size : Nat} {bs : List Block} (h : Merged bs) :
    Merged (bs ++ fresh hdr least addr bytes size) := by
  refine List.isChain_append.mpr ⟨h, ?_, fun x _ y hy => ?_⟩
  · unfold FreeList.fresh
    split
    · exact List.isChain_pair.mpr (Or.inl rfl)
    · exact List.isChain_singleton _
  · obtain rfl := Option.some.inj hy
    exact Or.inr rfl

/-- A merge is headed by the block that it began with, and that one was free. -/
theorem head_coalesce {hdr : Nat} {bs : List Block} :
    (coalesce hdr bs).head?.map Block.free = bs.head?.map Block.free := by
  fun_induction coalesce hdr bs with
  | case1 b c bs hfree ih =>
    rw [Bool.and_eq_true] at hfree
    rw [ih]
    exact congrArg some hfree.1.symm
  | case2 b c bs _ _ => rfl
  | case3 bs _ => rfl

/-- **One pass merges everything**, from whatever list. Where a block is kept, the block behind it
may still be merged with others, but it stays free or in use as it was (`head_coalesce`), so the
test that kept the two apart decides about the result as well. -/
theorem merged_coalesce {hdr : Nat} (bs : List Block) : Merged (coalesce hdr bs) := by
  fun_induction coalesce hdr bs with
  | case1 b c bs _ ih => exact ih
  | case2 b c bs hnot ih =>
    refine (List.isChain_cons_iff _ _ _).mpr ?_
    have hhead := @head_coalesce hdr (c :: bs)
    cases hmerged : coalesce hdr (c :: bs) with
    | nil => exact Or.inl rfl
    | cons d ds =>
      rw [hmerged] at hhead ih
      have hd : d.free = c.free := Option.some.inj hhead
      refine Or.inr ⟨d, ds, ?_, ih, rfl⟩
      rw [hd]
      cases hb : b.free with
      | false => exact Or.inl rfl
      | true =>
        rw [hb, Bool.true_and, Bool.not_eq_true] at hnot
        exact Or.inr hnot
  | case3 bs hshort =>
    match bs, hshort with
    | [], _ => exact List.IsChain.nil
    | [b], _ => exact List.isChain_singleton b
    | b :: c :: bs, hshort => exact absurd rfl (hshort b c bs)

/-- There is nothing left to merge. -/
theorem coalesce_of_merged {hdr : Nat} {bs : List Block} (h : Merged bs) :
    coalesce hdr bs = bs := by
  fun_induction coalesce hdr bs with
  | case1 b c bs hfree _ =>
    rw [Bool.and_eq_true] at hfree
    rcases (List.isChain_cons_cons.mp h).1 with hb | hc
    · rw [hb] at hfree
      exact absurd hfree.1 Bool.noConfusion
    · rw [hc] at hfree
      exact absurd hfree.2 Bool.noConfusion
  | case2 b c bs _ ih => rw [ih (List.isChain_cons_cons.mp h).2]
  | case3 bs _ => rfl

/-- A block in use is a border: what is before it and what is behind it are merged apart. -/
theorem coalesce_append_used {hdr : Nat} {pre post : List Block} {b : Block}
    (hb : b.free = false) :
    coalesce hdr (pre ++ b :: post) = coalesce hdr pre ++ b :: coalesce hdr post := by
  have hhead : coalesce hdr (b :: post) = b :: coalesce hdr post := by
    cases post with
    | nil => simp [coalesce]
    | cons c post => simp [coalesce, hb]
  fun_induction coalesce hdr pre with
  | case1 x y pre hfree ih =>
    rw [List.cons_append] at ih
    simpa only [List.cons_append, coalesce, if_pos hfree] using ih
  | case2 x y pre hnot ih =>
    rw [List.cons_append] at ih
    simp only [List.cons_append, coalesce, if_neg hnot, ih]
  | case3 pre hshort =>
    match pre, hshort with
    | [], _ => exact hhead
    | [x], _ =>
      show coalesce hdr (x :: b :: post) = _
      rw [coalesce, if_neg (by simp [hb]), hhead]
      rfl
    | x :: y :: pre, hshort => exact absurd rfl (hshort x y pre)

/-- The free blocks of a run as one: the headers behind the first are payload now. -/
def mergeRun (hdr : Nat) (b : Block) (run : List Block) : Block :=
  ⟨b.addr, run.foldl (fun size c => size + (c.size + hdr)) b.size, true⟩

/-- Induction on the run, with `b` general: each block of the run becomes part of the first one, and
that one is what the rest of the run is merged to. -/
theorem coalesce_run {hdr : Nat} {run post : List Block} {b : Block} (hb : b.free = true)
    (hrun : ∀ c ∈ run, c.free = true) (hpost : ∀ c ∈ post.head?, c.free = false) :
    coalesce hdr (b :: (run ++ post)) = mergeRun hdr b run :: coalesce hdr post := by
  induction run generalizing b with
  | nil =>
    have hsame : mergeRun hdr b [] = b := by
      obtain ⟨addr, size, free⟩ := b
      obtain rfl : free = true := hb
      rfl
    rw [hsame]
    cases post with
    | nil => simp [coalesce]
    | cons c post =>
      have hc : c.free = false := hpost c rfl
      simp [coalesce, hc]
  | cons c run ih =>
    have hc : c.free = true := hrun c List.mem_cons_self
    have hrest := ih (b := ⟨b.addr, b.size + (c.size + hdr), true⟩) rfl
      fun d hd => hrun d (List.mem_cons_of_mem c hd)
    rw [List.cons_append, coalesce, if_pos (by simp [hb, hc]), hrest]
    rfl

/-- **A maximal run of free blocks becomes one block**, and the rest is merged apart from it. -/
theorem coalesce_maximal {hdr : Nat} {pre run post : List Block} {b : Block}
    (hb : b.free = true) (hrun : ∀ c ∈ run, c.free = true)
    (hpre : ∀ c ∈ pre.getLast?, c.free = false) (hpost : ∀ c ∈ post.head?, c.free = false) :
    coalesce hdr (pre ++ b :: (run ++ post)) =
      coalesce hdr pre ++ mergeRun hdr b run :: coalesce hdr post := by
  have hmid := @coalesce_run hdr _ _ _ hb hrun hpost
  rcases List.eq_nil_or_concat' pre with rfl | ⟨init, u, rfl⟩
  · simpa [coalesce] using hmid
  · have hu : u.free = false := hpre u (by simp)
    rw [List.append_assoc, List.singleton_append, coalesce_append_used hu, hmid,
      coalesce_append_used hu]
    simp [coalesce]

/-- Beside a free block there is none. -/
theorem Merged.neighbours {pre post : List Block} {b : Block} (h : Merged (pre ++ b :: post))
    (hb : b.free = true) :
    (∀ c ∈ pre.getLast?, c.free = false) ∧ ∀ c ∈ post.head?, c.free = false := by
  obtain ⟨hpre, hpost⟩ := List.isChain_split.mp h
  constructor
  · intro c hc
    obtain ⟨_, _, hcross⟩ := List.isChain_append.mp hpre
    rcases hcross c hc b rfl with hused | hused
    · exact hused
    · exact absurd (hused.symm.trans hb) Bool.noConfusion
  · intro c hc
    cases post with
    | nil => exact absurd hc (by simp)
    | cons d post =>
      obtain rfl := Option.some.inj hc
      rcases (List.isChain_cons_cons.mp hpost).1 with hused | hused
      · exact absurd (hused.symm.trans hb) Bool.noConfusion
      · exact hused

/-- **What is carved from a block and given back is the block again**, if free blocks were
merged. The two parts are a run of free blocks, and a maximal one, because what lies on either side
of the block is in use. Where the block was taken whole there is nothing to merge. -/
theorem coalesce_release_carve {hdr unit hi lo least size : Nat} {pre post : List Block}
    {b : Block} (hhdr : 0 < hdr) (hlaid : Laid hdr unit hi lo (pre ++ b :: post))
    (hmerged : Merged (pre ++ b :: post)) (hb : b.free = true) (hsize : size ≤ b.size)
    (hleast : hdr ≤ least) :
    coalesce hdr (release b.addr (pre ++ (carve hdr least size b ++ post))) =
      pre ++ b :: post := by
  have hother : ∀ c, c ∈ pre ∨ c ∈ post → c.addr ≠ b.addr := by
    intro c hc
    obtain ⟨_, hbp, hcross⟩ := List.pairwise_append.mp hlaid.pairwise
    rcases hc with hc | hc
    · have := hcross c hc b List.mem_cons_self
      unfold Block.stop at this
      omega
    · have := (List.pairwise_cons.mp hbp).1 c hc
      unfold Block.stop at this
      omega
  -- `release` finds its block by the address, and no other block has it.
  have hrel : release b.addr (pre ++ (carve hdr least size b ++ post)) =
      pre ++ (release b.addr (carve hdr least size b) ++ post) := by
    rw [release_append, release_append, release_of_ne fun c hc => hother c (Or.inl hc),
      release_of_ne fun c hc => hother c (Or.inr hc)]
  obtain ⟨hpre, hpost⟩ := List.isChain_split.mp hmerged
  obtain ⟨hlast, hhead⟩ := hmerged.neighbours hb
  have hsame : ⟨b.addr, b.size, true⟩ = b := by
    obtain ⟨addr, bsize, free⟩ := b
    obtain rfl : free = true := hb
    rfl
  rw [hrel]
  unfold FreeList.carve
  split
  -- The rest was large enough for a block of its own.
  · next hsplit =>
    have hparts : release b.addr [⟨b.addr, size, false⟩,
        ⟨b.addr + hdr + size, b.size - size - hdr, true⟩] =
        [⟨b.addr, size, true⟩, ⟨b.addr + hdr + size, b.size - size - hdr, true⟩] := by
      simp [release]
    have hwhole : mergeRun hdr ⟨b.addr, size, true⟩
        [⟨b.addr + hdr + size, b.size - size - hdr, true⟩] = b := by
      rw [← hsame]
      show (⟨b.addr, size + (b.size - size - hdr + hdr), true⟩ : Block) = ⟨b.addr, b.size, true⟩
      congr 1
      omega
    have htail : Merged post := hpost.tail
    have hmid := @coalesce_maximal hdr pre [⟨b.addr + hdr + size, b.size - size - hdr, true⟩] post
      ⟨b.addr, size, true⟩ rfl (by simp) hlast hhead
    rw [hparts]
    rw [hwhole, coalesce_of_merged (List.isChain_append.mp hpre).1,
      coalesce_of_merged htail] at hmid
    exact hmid
  · have hparts : release b.addr [⟨b.addr, b.size, false⟩] = [b] := by
      rw [← hsame]
      simp [release]
    rw [hparts]
    exact coalesce_of_merged hmerged

/-- All free and no two of them neighbours: there is one block, and it is everything. -/
theorem Tiles.single {hdr hi lo : Nat} {bs : List Block} (h : Tiles hdr hi lo bs)
    (hmerged : Merged bs) (hne : bs ≠ []) (hfree : ∀ b ∈ bs, b.free = true) :
    bs = [⟨lo, hi - lo - hdr, true⟩] := by
  match bs, h, hmerged with
  | [], _, _ => exact absurd rfl hne
  | [b], ⟨haddr, hstop⟩, _ =>
    obtain ⟨addr, size, free⟩ := b
    obtain rfl : addr = lo := haddr
    obtain rfl : free = true := hfree _ List.mem_cons_self
    have hsize : size = hi - addr - hdr := by
      change addr + hdr + size = hi at hstop
      omega
    rw [hsize]
  | b :: c :: bs, _, hmerged =>
    obtain ⟨hbc, _⟩ := List.isChain_cons_cons.mp hmerged
    rcases hbc with hb | hc
    · rw [hfree b List.mem_cons_self] at hb
      exact absurd hb Bool.noConfusion
    · rw [hfree c (by simp)] at hc
      exact absurd hc Bool.noConfusion

end ScratchOs.FreeList
