import ScratchOs.Lib.Bits
import Mathlib.Data.List.Basic
import Mathlib.Data.Nat.Find

/-!
# The physical frame allocator

`kernel/mem/pmm.cpp` after `init_pmm`: `pmm_alloc_page` and `pmm_free_page` over the bitmap,
a set bit marking a frame that is taken.

The scan of `pmm_alloc_page` is two loops over words and bits. `Pmm.freeFrames` is what the
loops search, as one ascending list of frame numbers, and `pmmAllocPage_eq` says the
allocator is the queue of that list: it hands out the head and leaves the tail. Everything
later modules know about allocation goes through this list.

Two things of the code do not show in the queue and are kept in the definitions. An answer of 0 is
the failure value and also the address of frame 0; the two are told apart by `init_pmm`, which
takes frame 0, and so `s.taken 0 = true` is a hypothesis here wherever an answer is read. And the
scan reaches whole words only, `max_frames / 32` of them, while the test in `pmm_free_page` is
against `max_frames`: a frame of the last word can be given back and is not found again
(`allocatesLowest_iff`).

The bitmap is a function from word numbers to words, without the memory it lies in. That is right
from here on, where it is written through its own two macros only. `init_pmm` is another matter, and
`PmmInit` goes back to bytes.
-/

set_option autoImplicit false

namespace ScratchOs.Mem

open Bits

/-- `PAGE_SIZE` -/
def pageSize : Nat := 4096

/-- The allocator's statics. `max_frames` is a 32-bit memory size divided by `PAGE_SIZE`,
which is where the bound comes from. -/
structure Pmm where
  bitmap : Bitmap 32
  maxFrames : Nat
  maxFrames_lt : maxFrames < 1048576

/-- The inner loop of `pmm_alloc_page`: the first clear bit of a word. -/
def clearBitIn (word : BitVec 32) : Option Nat :=
  (List.range 32).find? fun j => !word.getLsbD j

/-- The outer loop: words are looked at in order, full ones are skipped. -/
def scanBitmap (s : Pmm) : Option (Nat × Nat) :=
  (List.range (s.maxFrames / 32)).findSome? fun i =>
    if s.bitmap i = 0xFFFFFFFF#32 then none
    else (clearBitIn (s.bitmap i)).map fun j => (i, j)

/-- `uint32_t pmm_alloc_page()`; the answer 0 is a failure. -/
def pmmAllocPage (s : Pmm) : Nat × Pmm :=
  match scanBitmap s with
  | some (i, j) =>
    (u32 ((i * 32 + j) * pageSize),
     { s with bitmap := Function.update s.bitmap i (s.bitmap i ||| (1#32 <<< j)) })
  | none => (0, s)

/-- The test at the head of `pmm_free_page`; `max_frames * PAGE_SIZE` is a 32-bit product. -/
def pmmFreeRejects (s : Pmm) (addr : Nat) : Bool :=
  addr == 0 || u32 (s.maxFrames * pageSize) ≤ addr || addr % pageSize != 0

/-- `void pmm_free_page(uint32_t addr)` -/
def pmmFreePage (s : Pmm) (addr : Nat) : Pmm :=
  if pmmFreeRejects s addr then s
  else { s with bitmap := clearBit s.bitmap (addr / pageSize) }

/-! ## The bitmap as a set of frames -/

/-- Frame `f` is marked as taken. -/
def Pmm.taken (s : Pmm) (f : Nat) : Bool := getBit s.bitmap f

/-- How many frames the scan can reach: whole words only. -/
def Pmm.scanned (s : Pmm) : Nat := s.maxFrames / 32 * 32

/-- The frames `pmm_alloc_page` can hand out, lowest first. -/
def Pmm.freeFrames (s : Pmm) : List Nat :=
  (List.range s.scanned).filter fun f => !s.taken f

/-- The allocator with one more frame taken. -/
def Pmm.take (s : Pmm) (f : Nat) : Pmm := { s with bitmap := setBit s.bitmap f }

theorem Pmm.scanned_le (s : Pmm) : s.scanned ≤ s.maxFrames := by
  unfold Pmm.scanned
  omega

theorem Pmm.scanned_lt (s : Pmm) : s.scanned < 1048576 :=
  Nat.lt_of_le_of_lt s.scanned_le s.maxFrames_lt

theorem Pmm.mem_freeFrames {s : Pmm} {f : Nat} :
    f ∈ s.freeFrames ↔ f < s.scanned ∧ s.taken f = false := by
  simp [Pmm.freeFrames]

@[simp] theorem Pmm.scanned_take (s : Pmm) (f : Nat) : (s.take f).scanned = s.scanned := rfl

theorem Pmm.taken_take (s : Pmm) (f g : Nat) :
    (s.take f).taken g = (decide (g = f) || s.taken g) :=
  getBit_setBit (by decide) _ _ _

theorem Pmm.freeFrames_nodup (s : Pmm) : s.freeFrames.Nodup :=
  List.nodup_range.filter _

theorem Pmm.freeFrames_sorted (s : Pmm) : s.freeFrames.Pairwise (· < ·) :=
  List.pairwise_lt_range.filter _

/-! ## The scan finds the head of `freeFrames` -/

theorem clearBitIn_eq_some {v : BitVec 32} {j : Nat} (h : clearBitIn v = some j) :
    j < 32 ∧ v.getLsbD j = false ∧ ∀ k < j, v.getLsbD k = true := by
  simp only [clearBitIn, List.find?_range_eq_some, Bool.not_eq_eq_eq_not, Bool.not_true,
    List.mem_range, Bool.not_not] at h
  exact ⟨h.2.1, h.1, h.2.2⟩

/-- The inner loop never falls through: a word that is not full has a clear bit. -/
theorem clearBitIn_isSome {v : BitVec 32} (h : v ≠ 0xFFFFFFFF#32) : (clearBitIn v).isSome := by
  obtain ⟨j, hj, hbit⟩ := exists_clear_of_ne_allOnes h
  rw [clearBitIn, List.find?_isSome]
  exact ⟨j, by simpa using hj, by simp [hbit]⟩

/-- A full word has no free frame. -/
theorem taken_of_full {s : Pmm} {f : Nat} (h : s.bitmap (f / 32) = 0xFFFFFFFF#32) :
    s.taken f = true := by
  have hlt : f % 32 < 32 := Nat.mod_lt _ (by decide)
  rw [Pmm.taken, getBit, h, show (0xFFFFFFFF#32) = BitVec.allOnes 32 from rfl,
    BitVec.getLsbD_allOnes]
  simpa using hlt

theorem scanBitmap_none {s : Pmm} (h : scanBitmap s = none) : s.freeFrames = [] := by
  rw [scanBitmap, List.findSome?_eq_none_iff] at h
  rw [Pmm.freeFrames, List.filter_eq_nil_iff]
  intro f hf
  have hf' : f / 32 < s.maxFrames / 32 := by
    have := List.mem_range.mp hf
    unfold Pmm.scanned at this
    omega
  have hword := h (f / 32) (List.mem_range.mpr hf')
  by_cases hfull : s.bitmap (f / 32) = 0xFFFFFFFF#32
  · simp [taken_of_full hfull]
  · obtain ⟨j, hj⟩ := Option.isSome_iff_exists.mp (clearBitIn_isSome hfull)
    simp [hfull, hj] at hword

/-- What the scan returns is a frame it may hand out, and no lower frame is free. -/
theorem scanBitmap_some {s : Pmm} {i j : Nat} (h : scanBitmap s = some (i, j)) :
    j < 32 ∧ i * 32 + j < s.scanned ∧ s.taken (i * 32 + j) = false ∧
      ∀ g < i * 32 + j, s.taken g = true := by
  rw [scanBitmap, List.findSome?_eq_some_iff] at h
  obtain ⟨pre, i', post, hsplit, hword, hpre⟩ := h
  -- The words before the hit are `0, …, i - 1`.
  have hlen : pre.length < s.maxFrames / 32 := by
    have := congrArg List.length hsplit
    simp at this
    omega
  have hget : ∀ k < s.maxFrames / 32, (pre ++ i' :: post)[k]? = some k := by
    intro k hk
    rw [← hsplit, List.getElem?_range hk]
  have hi' : i' = pre.length := by simpa using hget pre.length hlen
  have hmem : ∀ k < pre.length, k ∈ pre := by
    intro k hk
    have := hget k (by omega)
    rw [List.getElem?_append_left hk] at this
    exact List.mem_of_getElem? this
  split at hword
  · exact absurd hword (by simp)
  · obtain ⟨j', hj', hpair⟩ := Option.map_eq_some_iff.mp hword
    obtain ⟨rfl, rfl⟩ := Prod.mk.inj hpair
    obtain ⟨hlt, hclear, hbelow⟩ := clearBitIn_eq_some hj'
    refine ⟨hlt, ?_, ?_, ?_⟩
    · unfold Pmm.scanned
      omega
    · rw [Pmm.taken, getBit_word hlt, hclear]
    · intro g hg
      by_cases hword : g / 32 = i'
      · rw [show g = i' * 32 + g % 32 by omega, Pmm.taken,
          getBit_word (Nat.mod_lt _ (by decide))]
        exact hbelow _ (by omega)
      · have hfull := hpre (g / 32) (hmem _ (by omega))
        by_cases hf : s.bitmap (g / 32) = 0xFFFFFFFF#32
        · exact taken_of_full hf
        · obtain ⟨k, hk⟩ := Option.isSome_iff_exists.mp (clearBitIn_isSome hf)
          simp [hf, hk] at hfull

/-- A free frame below which nothing is free is the head of the list. -/
theorem Pmm.freeFrames_eq_cons {s : Pmm} {f : Nat} (hf : f < s.scanned)
    (hfree : s.taken f = false) (hbelow : ∀ g < f, s.taken g = true) :
    s.freeFrames = f :: (s.take f).freeFrames := by
  have hsplit : List.range s.scanned =
      List.range f ++ f :: (List.range (s.scanned - (f + 1))).map (f + 1 + ·) := by
    conv_lhs => rw [show s.scanned = f + 1 + (s.scanned - (f + 1)) by omega, List.range_add]
    rw [List.range_succ, List.append_assoc, List.singleton_append]
  have hpre : ∀ t : Pmm, (∀ g < f, t.taken g = true) →
      (List.range f).filter (fun g => !t.taken g) = [] := by
    intro t ht
    rw [List.filter_eq_nil_iff]
    intro g hg
    simp [ht g (List.mem_range.mp hg)]
  have hpost : ((List.range (s.scanned - (f + 1))).map (f + 1 + ·)).filter
        (fun g => !(s.take f).taken g) =
      ((List.range (s.scanned - (f + 1))).map (f + 1 + ·)).filter (fun g => !s.taken g) := by
    refine List.filter_congr fun g hg => ?_
    obtain ⟨k, _, rfl⟩ := List.mem_map.mp hg
    simp [Pmm.taken_take, show f + 1 + k ≠ f by omega]
  rw [Pmm.freeFrames, Pmm.freeFrames, Pmm.scanned_take, hsplit, List.filter_append,
    List.filter_append, hpre s hbelow, hpre (s.take f)
      (fun g hg => by simp [Pmm.taken_take, hbelow g hg]),
    List.nil_append, List.nil_append, List.filter_cons, List.filter_cons, hpost]
  simp [hfree, Pmm.taken_take]

/-- **The allocator is the queue of its free frames**: it hands out the lowest one, marks it,
and fails exactly when there is none. -/
theorem pmmAllocPage_eq (s : Pmm) :
    pmmAllocPage s =
      match s.freeFrames with
      | [] => (0, s)
      | f :: _ => (f * pageSize, s.take f) := by
  unfold pmmAllocPage
  cases hscan : scanBitmap s with
  | none => rw [scanBitmap_none hscan]
  | some ij =>
    obtain ⟨i, j⟩ := ij
    obtain ⟨hj, hlt, hfree, hbelow⟩ := scanBitmap_some hscan
    rw [Pmm.freeFrames_eq_cons hlt hfree hbelow]
    have hscanned := s.scanned_lt
    have haddr : u32 ((i * 32 + j) * pageSize) = (i * 32 + j) * pageSize :=
      u32_of_lt (by simp only [pageSize]; omega)
    have hdiv : (i * 32 + j) / 32 = i := by omega
    have hmod : (i * 32 + j) % 32 = j := by omega
    simp [haddr, Pmm.take, setBit, hdiv, hmod]

/-- The frames left after an allocation are the tail. -/
theorem Pmm.freeFrames_take {s : Pmm} {f : Nat} {rest : List Nat}
    (h : s.freeFrames = f :: rest) : (s.take f).freeFrames = rest := by
  have hmem : f ∈ s.freeFrames := h ▸ List.mem_cons_self
  obtain ⟨hlt, hfree⟩ := Pmm.mem_freeFrames.mp hmem
  have hbelow : ∀ g < f, s.taken g = true := by
    intro g hg
    by_contra hc
    have hg' : g ∈ s.freeFrames :=
      Pmm.mem_freeFrames.mpr ⟨Nat.lt_trans hg hlt, by simpa using hc⟩
    have hsort := s.freeFrames_sorted
    rw [h] at hg' hsort
    rcases List.mem_cons.mp hg' with rfl | hr
    · omega
    · have := (List.pairwise_cons.mp hsort).1 g hr
      omega
  have := Pmm.freeFrames_eq_cons hlt hfree hbelow
  rw [h] at this
  exact (List.cons.inj this).2.symm

/-! ## The last word

`init_pmm` sizes the bitmap for `max_frames` bits and rounds up to whole words; the scan rounds
down. Where the last word is not a whole one, its frames are found by nobody. -/

/-- The lowest free frame below `max_frames` is handed out, and its bit is the one that changes;
0 says that there is none, and changes nothing. -/
structure AllocatesLowest (s : Pmm) : Prop where
  lowest : ∀ f < s.maxFrames, s.taken f = false → (∀ g < f, s.taken g = true) →
    (pmmAllocPage s).1 = 4096 * f ∧
      ∀ g, (pmmAllocPage s).2.taken g = (decide (g = f) || s.taken g)
  full : (pmmAllocPage s).1 = 0 → (pmmAllocPage s).2 = s ∧ ∀ f < s.maxFrames, s.taken f = true

/-- No frame of a last word that is not whole is free, or else some other frame is. -/
def ScanSuffices (s : Pmm) : Prop :=
  (∀ f, s.scanned ≤ f → f < s.maxFrames → s.taken f = true) ∨ ∃ g < s.scanned, s.taken g = false

/-- A frame that is free comes after the lowest one. -/
theorem Pmm.exists_lowest {s : Pmm} {f : Nat} (hfree : s.taken f = false) :
    ∃ g ≤ f, s.taken g = false ∧ ∀ x < g, s.taken x = true := by
  have hex : ∃ g, s.taken g = false := ⟨f, hfree⟩
  refine ⟨Nat.find hex, Nat.find_min' hex hfree, Nat.find_spec hex, fun x hx => ?_⟩
  exact Bool.eq_true_of_not_eq_false (Nat.find_min hex hx)

/-- **The scan finds the lowest free frame and misses none**, unless the only ones left are in a
last word that is not whole. -/
theorem allocatesLowest_iff (s : Pmm) (hzero : s.taken 0 = true) :
    AllocatesLowest s ↔ ScanSuffices s := by
  have halloc := pmmAllocPage_eq s
  cases hfree : s.freeFrames with
  | nil =>
    rw [hfree] at halloc
    -- Nothing below the last word is free, and the answer is 0.
    have hnone : ∀ g < s.scanned, s.taken g = true := by
      intro g hg
      by_contra hclear
      have hmem := Pmm.mem_freeFrames.mpr ⟨hg, Bool.eq_false_of_not_eq_true hclear⟩
      rw [hfree] at hmem
      exact absurd hmem List.not_mem_nil
    constructor
    · intro h
      exact Or.inl fun f _ hlt => (h.full (congrArg Prod.fst halloc)).2 f hlt
    · rintro (hlast | ⟨g, hg, hclear⟩)
      · have hall : ∀ f < s.maxFrames, s.taken f = true := by
          intro f hlt
          rcases Nat.lt_or_ge f s.scanned with hscan | hscan
          · exact hnone f hscan
          · exact hlast f hscan hlt
        refine ⟨fun f hlt hclear _ => ?_, fun _ => ⟨congrArg Prod.snd halloc, hall⟩⟩
        rw [hall f hlt] at hclear
        exact absurd hclear (by simp)
      · rw [hnone g hg] at hclear
        exact absurd hclear (by simp)
  | cons f rest =>
    rw [hfree] at halloc
    obtain ⟨hscan, hclear⟩ := Pmm.mem_freeFrames.mp (hfree ▸ List.mem_cons_self : f ∈ s.freeFrames)
    refine ⟨fun _ => Or.inr ⟨f, hscan, hclear⟩, fun _ => ⟨fun g _ hg hbelow => ?_, fun hz => ?_⟩⟩
    · -- The head of the list is the lowest of all.
      obtain ⟨x, hle, hx, hlow⟩ := Pmm.exists_lowest hclear
      have hxf : x ∈ s.freeFrames := Pmm.mem_freeFrames.mpr ⟨Nat.lt_of_le_of_lt hle hscan, hx⟩
      have hfx : f ≤ x := by
        have hsort := s.freeFrames_sorted
        rw [hfree] at hxf hsort
        rcases List.mem_cons.mp hxf with rfl | hmem
        · exact Nat.le_refl _
        · exact Nat.le_of_lt ((List.pairwise_cons.mp hsort).1 x hmem)
      obtain rfl : f = x := Nat.le_antisymm hfx hle
      have hgf : g = f := by
        rcases Nat.lt_trichotomy g f with hlt | heq | hgt
        · rw [hlow g hlt] at hg
          exact absurd hg (by simp)
        · exact heq
        · rw [hbelow f hgt] at hclear
          exact absurd hclear (by simp)
      subst hgf
      rw [halloc]
      exact ⟨Nat.mul_comm _ _, Pmm.taken_take s g⟩
    · rw [halloc] at hz
      change f * 4096 = 0 at hz
      obtain rfl : f = 0 := by omega
      rw [hzero] at hclear
      exact absurd hclear (by simp)

/-- 64 frames of which the first is taken. -/
def twoPages : Pmm := ⟨fun i => if i = 0 then 1#32 else 0#32, 64, lt_of_blt rfl⟩

/-- 1000 frames: 31 words and a quarter of another. The first `n` words are full. -/
def thousandFrames (n : Nat) : Pmm :=
  ⟨fun i => if i < n then 0xFFFFFFFF#32 else 0#32, 1000, lt_of_blt rfl⟩

/-- With two words full, frame 64 is the lowest that is free. -/
theorem allocatesLowest_two : (thousandFrames 2).taken 0 = true ∧
    AllocatesLowest (thousandFrames 2) :=
  ⟨rfl, (allocatesLowest_iff (thousandFrames 2) rfl).mpr (Or.inr ⟨64, by decide, by decide⟩)⟩

/-- With 31 full, the eight frames that are left are not found. -/
theorem last_word_missed : (thousandFrames 31).taken 0 = true ∧
    ¬ AllocatesLowest (thousandFrames 31) := by
  refine ⟨rfl, fun h => ?_⟩
  have hnil : (thousandFrames 31).freeFrames = [] := by
    refine List.filter_eq_nil_iff.mpr fun f hf => ?_
    have hlt : f < 992 := List.mem_range.mp hf
    have hword : (thousandFrames 31).bitmap (f / 32) = 0xFFFFFFFF#32 := if_pos (by omega)
    rw [taken_of_full hword]
    exact Bool.false_ne_true
  have halloc := pmmAllocPage_eq (thousandFrames 31)
  rw [hnil] at halloc
  have hfull := (h.full (congrArg Prod.fst halloc)).2 992 (by decide)
  exact absurd hfull (by decide)

/-! ## Freeing

The bound of `pmm_free_page` is a 32-bit product, and the one for `max_frames` at its largest is
just below `2 ^ 32`. So the test is the one that the names suggest, and `pmmFreeRejects_iff` is the
last place where it is a product. -/

/-- The frames below `max_frames` have addresses below the 32-bit bound of `pmm_free_page`:
the product does not wrap. -/
theorem Pmm.bound_eq (s : Pmm) : u32 (s.maxFrames * pageSize) = s.maxFrames * pageSize := by
  have := s.maxFrames_lt
  exact u32_of_lt (by simp only [pageSize]; omega)

theorem pmmFreeRejects_iff {s : Pmm} {addr : Nat} :
    pmmFreeRejects s addr = true ↔
      addr = 0 ∨ s.maxFrames * pageSize ≤ addr ∨ addr % pageSize ≠ 0 := by
  simp [pmmFreeRejects, s.bound_eq, or_assoc]

/-- The address of a scanned frame other than frame 0 passes the test. -/
theorem pmmFreeRejects_frame {s : Pmm} {f : Nat} (h0 : f ≠ 0) (h : f < s.maxFrames) :
    pmmFreeRejects s (f * pageSize) = false := by
  rw [Bool.eq_false_iff, Ne, pmmFreeRejects_iff]
  simp only [pageSize]
  omega

theorem taken_pmmFreePage {s : Pmm} {f : Nat} (h0 : f ≠ 0) (h : f < s.maxFrames) (g : Nat) :
    (pmmFreePage s (f * pageSize)).taken g = (!decide (g = f) && s.taken g) := by
  have hdiv : f * pageSize / pageSize = f := Nat.mul_div_cancel _ (by decide)
  simp only [pmmFreePage, pmmFreeRejects_frame h0 h, Bool.false_eq_true, if_false, Pmm.taken,
    hdiv]
  exact getBit_clearBit (by decide) _ _ _

@[simp] theorem maxFrames_pmmFreePage (s : Pmm) (addr : Nat) :
    (pmmFreePage s addr).maxFrames = s.maxFrames := by
  unfold pmmFreePage
  split <;> rfl

end ScratchOs.Mem
