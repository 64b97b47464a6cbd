import ScratchOs.Mem.Pmm
import Mathlib.Logic.Relation

/-!
# One owner for every frame

`Ledger` puts beside the allocator the addresses its callers hold: those that
`pmm_alloc_page` returned and that have not been freed since. A run is any interleaving of
allocations and frees in which a caller frees only what it holds, or hands `pmm_free_page`
an argument its test is there to refuse.

The refinement is `LedgerInv`: an address in the ledger is a frame whose bit is set now and
was clear at the start, and a bit set at the start is still set. The bitmap is the only
record the code keeps, so this is what makes the next allocation fresh: a frame somebody
holds has its bit set, and `pmmAllocPage` hands out a frame whose bit is clear.

The ledger is not in the code, and it is a list and not a set: an address that was handed out twice
would be in it twice, and `owned.Nodup` is the statement that this does not happen. Had it been a
set there would be nothing to prove.

What the module asks of callers is that they free what they hold. `pmm_free_page` cannot check it:
the bit of a frame that somebody else holds is as set as that of one's own. The arguments it can
refuse it does refuse, and those are the fourth kind of step, `freeRejected`.
-/

set_option autoImplicit false

namespace ScratchOs.Mem

open Bits

/-- The allocator and the addresses handed out and not yet freed. -/
structure Ledger where
  pmm : Pmm
  owned : List Nat

/-- One call of `pmm_alloc_page` or `pmm_free_page`. -/
inductive LedgerStep : Ledger → Ledger → Prop
  /-- A successful allocation. -/
  | alloc {l : Ledger} (h : (pmmAllocPage l.pmm).1 ≠ 0) :
      LedgerStep l ⟨(pmmAllocPage l.pmm).2, (pmmAllocPage l.pmm).1 :: l.owned⟩
  /-- An allocation that returned 0. -/
  | allocFailed {l : Ledger} (h : (pmmAllocPage l.pmm).1 = 0) :
      LedgerStep l ⟨(pmmAllocPage l.pmm).2, l.owned⟩
  /-- A caller gives back an address it holds. -/
  | free {l : Ledger} {addr : Nat} (h : addr ∈ l.owned) :
      LedgerStep l ⟨pmmFreePage l.pmm addr, l.owned.erase addr⟩
  /-- An argument that is 0, unaligned, or past the last frame. -/
  | freeRejected {l : Ledger} {addr : Nat}
      (h : addr = 0 ∨ addr % pageSize ≠ 0 ∨ l.pmm.maxFrames * pageSize ≤ addr) :
      LedgerStep l ⟨pmmFreePage l.pmm addr, l.owned⟩

/-- The states reachable from an allocator nobody holds anything of. -/
def LedgerReach (s₀ : Pmm) (l : Ledger) : Prop :=
  Relation.ReflTransGen LedgerStep ⟨s₀, []⟩ l

/-- What ties the ledger to the bitmap. -/
structure LedgerInv (s₀ : Pmm) (l : Ledger) : Prop where
  maxFrames : l.pmm.maxFrames = s₀.maxFrames
  nodup : l.owned.Nodup
  frame : ∀ a ∈ l.owned, ∃ f, a = f * pageSize ∧ f ≠ 0 ∧ f < s₀.scanned ∧
    l.pmm.taken f = true ∧ s₀.taken f = false
  kept : ∀ f, s₀.taken f = true → l.pmm.taken f = true

theorem LedgerInv.scanned {s₀ : Pmm} {l : Ledger} (h : LedgerInv s₀ l) :
    l.pmm.scanned = s₀.scanned := by
  unfold Pmm.scanned
  rw [h.maxFrames]

theorem LedgerInv.init (s₀ : Pmm) : LedgerInv s₀ ⟨s₀, []⟩ :=
  ⟨rfl, List.nodup_nil, fun _ h => absurd h (by simp), fun _ h => h⟩

theorem pmmFreePage_rejected {s : Pmm} {addr : Nat}
    (h : addr = 0 ∨ addr % pageSize ≠ 0 ∨ s.maxFrames * pageSize ≤ addr) :
    pmmFreePage s addr = s := by
  have hr : pmmFreeRejects s addr = true := by
    rw [pmmFreeRejects_iff]
    tauto
  simp [pmmFreePage, hr]

/-- A failed allocation has no effect. -/
theorem pmmAllocPage_failed {s : Pmm} (h0 : s.taken 0 = true) (h : (pmmAllocPage s).1 = 0) :
    (pmmAllocPage s).2 = s := by
  rw [pmmAllocPage_eq] at h ⊢
  cases hfree : s.freeFrames with
  | nil => rfl
  | cons f rest =>
    rw [hfree] at h
    have hf : f = 0 := by
      simp only [pageSize] at h
      omega
    have hmem := (Pmm.mem_freeFrames (s := s) (f := f)).mp (hfree ▸ List.mem_cons_self)
    rw [hf, h0] at hmem
    exact absurd hmem.2 (by simp)

/-- A successful allocation marks one free frame other than frame 0. -/
theorem pmmAllocPage_succeeded {s : Pmm} (h : (pmmAllocPage s).1 ≠ 0) :
    ∃ f, f ≠ 0 ∧ f < s.scanned ∧ s.taken f = false ∧ pmmAllocPage s = (f * pageSize, s.take f) := by
  have heq := pmmAllocPage_eq s
  cases hfree : s.freeFrames with
  | nil =>
    rw [hfree] at heq
    exact absurd (by rw [heq]) h
  | cons f rest =>
    rw [hfree] at heq
    obtain ⟨hlt, hclear⟩ := (Pmm.mem_freeFrames (s := s)).mp (hfree ▸ List.mem_cons_self)
    refine ⟨f, ?_, hlt, hclear, heq⟩
    rintro rfl
    exact h (by rw [heq]; exact Nat.zero_mul _)

/-- An address the ledger holds, freed: its frame's bit is cleared and no other. -/
theorem LedgerInv.taken_free {s₀ : Pmm} {l : Ledger} (h : LedgerInv s₀ l) {a : Nat}
    (ha : a ∈ l.owned) (g : Nat) :
    (pmmFreePage l.pmm a).taken g = (!decide (g = a / pageSize) && l.pmm.taken g) := by
  obtain ⟨f, rfl, h0, hlt, -, -⟩ := h.frame a ha
  have hmax : f < l.pmm.maxFrames := by
    have := s₀.scanned_le
    rw [h.maxFrames]
    omega
  rw [taken_pmmFreePage h0 hmax, Nat.mul_div_cancel _ (by decide)]

/-- Each call keeps the ledger tied to the bitmap. -/
theorem LedgerInv.step {s₀ : Pmm} {l l' : Ledger} (h0 : s₀.taken 0 = true)
    (h : LedgerInv s₀ l) (hstep : LedgerStep l l') : LedgerInv s₀ l' := by
  cases hstep with
  | alloc hok =>
    obtain ⟨f, hf0, hlt, hclear, heq⟩ := pmmAllocPage_succeeded hok
    rw [heq]
    have hfresh : s₀.taken f = false := by
      by_contra hc
      rw [h.kept f (by simpa using hc)] at hclear
      exact absurd hclear (by simp)
    refine ⟨h.maxFrames, List.nodup_cons.mpr ⟨fun hmem => ?_, h.nodup⟩, fun a ha => ?_,
      fun g hg => ?_⟩
    · -- Held already: then its bit would be set.
      obtain ⟨g, hg, -, -, htaken, -⟩ := h.frame _ hmem
      have hfg : f = g := Nat.eq_of_mul_eq_mul_right (by decide : 0 < pageSize) hg
      rw [hfg, htaken] at hclear
      exact absurd hclear (by simp)
    · rcases List.mem_cons.mp ha with rfl | htl
      · exact ⟨f, rfl, hf0, h.scanned ▸ hlt, by simp [Pmm.taken_take], hfresh⟩
      · obtain ⟨g, hg, hg0, hglt, htaken, hwas⟩ := h.frame a htl
        exact ⟨g, hg, hg0, hglt, by simp [Pmm.taken_take, htaken], hwas⟩
    · simp [Pmm.taken_take, h.kept g hg]
  | allocFailed hfail =>
    rw [pmmAllocPage_failed (h.kept 0 h0) hfail]
    exact ⟨h.maxFrames, h.nodup, h.frame, h.kept⟩
  | @free a ha =>
    refine ⟨(maxFrames_pmmFreePage _ _).trans h.maxFrames, h.nodup.erase a, fun b hb => ?_,
      fun g hg => ?_⟩
    · obtain ⟨g, hgb, hg0, hglt, htaken, hwas⟩ := h.frame b (List.mem_of_mem_erase hb)
      refine ⟨g, hgb, hg0, hglt, ?_, hwas⟩
      have hne : b ≠ a := ((List.Nodup.mem_erase_iff h.nodup).mp hb).1
      have hga : g ≠ a / pageSize := by
        obtain ⟨f, rfl, -⟩ := h.frame a ha
        rintro rfl
        exact hne (by rw [hgb, Nat.mul_div_cancel _ (by decide)])
      simp [h.taken_free ha, hga, htaken]
    · -- A frame taken at the start is nobody's to free.
      obtain ⟨f, rfl, -, -, -, hwas⟩ := h.frame a ha
      have hgf : g ≠ f * pageSize / pageSize := by
        rw [Nat.mul_div_cancel _ (by decide)]
        rintro rfl
        rw [hwas] at hg
        exact absurd hg (by simp)
      simp [h.taken_free ha, hgf, h.kept g hg]
  | freeRejected hrej =>
    rw [pmmFreePage_rejected hrej]
    exact ⟨h.maxFrames, h.nodup, h.frame, h.kept⟩

theorem LedgerInv.reach {s₀ : Pmm} (h0 : s₀.taken 0 = true) {l : Ledger}
    (h : LedgerReach s₀ l) : LedgerInv s₀ l := by
  induction h with
  | refl => exact LedgerInv.init s₀
  | tail _ hstep ih => exact ih.step h0 hstep

/-- Freeing a held address makes its frame available, and no other. -/
theorem LedgerInv.freeFrames_free {s₀ : Pmm} {l : Ledger} (h : LedgerInv s₀ l) {a : Nat}
    (ha : a ∈ l.owned) (f : Nat) :
    f ∈ (pmmFreePage l.pmm a).freeFrames ↔ f = a / pageSize ∨ f ∈ l.pmm.freeFrames := by
  have hscan : (pmmFreePage l.pmm a).scanned = l.pmm.scanned := by
    unfold Pmm.scanned
    rw [maxFrames_pmmFreePage]
  rw [Pmm.mem_freeFrames, Pmm.mem_freeFrames, hscan, h.taken_free ha]
  obtain ⟨g, rfl, -, hglt, -, -⟩ := h.frame a ha
  rw [Nat.mul_div_cancel _ (by decide : 0 < pageSize)]
  constructor
  · rintro ⟨hlt, hbit⟩
    by_cases hfg : f = g
    · exact Or.inl hfg
    · exact Or.inr ⟨hlt, by simpa [hfg] using hbit⟩
  · rintro (rfl | ⟨hlt, hbit⟩)
    · exact ⟨h.scanned ▸ hglt, by simp⟩
    · exact ⟨hlt, by simp [hbit]⟩

/-- No other call makes a frame available: one that was not free before a step and is after
it belonged to the address that step freed. -/
theorem LedgerInv.freeFrames_step {s₀ : Pmm} {l l' : Ledger} (h0 : s₀.taken 0 = true)
    (h : LedgerInv s₀ l) (hstep : LedgerStep l l') {f : Nat} (hf : f ∈ l'.pmm.freeFrames) :
    f ∈ l.pmm.freeFrames ∨ (f * pageSize ∈ l.owned ∧ f * pageSize ∉ l'.owned) := by
  cases hstep with
  | alloc hok =>
    obtain ⟨g, _, _, _, heq⟩ := pmmAllocPage_succeeded hok
    rw [heq] at hf
    obtain ⟨hlt, hbit⟩ := Pmm.mem_freeFrames.mp hf
    rw [Pmm.taken_take, Bool.or_eq_false_iff] at hbit
    exact Or.inl (Pmm.mem_freeFrames.mpr ⟨hlt, hbit.2⟩)
  | allocFailed hfail =>
    rw [pmmAllocPage_failed (h.kept 0 h0) hfail] at hf
    exact Or.inl hf
  | @free a ha =>
    rcases (h.freeFrames_free ha f).mp hf with rfl | hold
    · obtain ⟨g, rfl, -⟩ := h.frame a ha
      rw [Nat.mul_div_cancel _ (by decide : 0 < pageSize)]
      exact Or.inr ⟨ha, fun hmem => ((List.Nodup.mem_erase_iff h.nodup).mp hmem).1 rfl⟩
    · exact Or.inl hold
  | freeRejected hrej =>
    rw [pmmFreePage_rejected hrej] at hf
    exact Or.inl hf

/-- **No frame has two owners**, after any run of allocations and frees. -/
theorem frames_single_owner (s₀ : Pmm) (h0 : s₀.taken 0 = true) (l : Ledger)
    (hreach : LedgerReach s₀ l) :
    l.owned.Nodup ∧
    (∀ a ∈ l.owned, a ≠ 0 ∧ a % pageSize = 0 ∧ a < s₀.maxFrames * pageSize ∧
      s₀.taken (a / pageSize) = false ∧ l.pmm.taken (a / pageSize) = true) ∧
    (∀ addr, addr = 0 ∨ addr % pageSize ≠ 0 ∨ s₀.maxFrames * pageSize ≤ addr →
      pmmFreePage l.pmm addr = l.pmm) ∧
    (∀ a ∈ l.owned,
      (∀ f, (pmmFreePage l.pmm a).taken f = (!decide (f = a / pageSize) && l.pmm.taken f)) ∧
      ∀ f, f ∈ (pmmFreePage l.pmm a).freeFrames ↔ f = a / pageSize ∨ f ∈ l.pmm.freeFrames) ∧
    (∀ l', LedgerStep l l' → ∀ f ∈ l'.pmm.freeFrames,
      f ∈ l.pmm.freeFrames ∨ (f * pageSize ∈ l.owned ∧ f * pageSize ∉ l'.owned)) := by
  have h := LedgerInv.reach h0 hreach
  refine ⟨h.nodup, fun a ha => ?_, fun addr haddr => ?_,
    fun a ha => ⟨h.taken_free ha, h.freeFrames_free ha⟩,
    fun l' hstep f hf => h.freeFrames_step h0 hstep hf⟩
  · obtain ⟨f, rfl, hf0, hlt, htaken, hwas⟩ := h.frame a ha
    have hle := s₀.scanned_le
    rw [Nat.mul_div_cancel _ (by decide : 0 < pageSize)]
    refine ⟨?_, Nat.mul_mod_left _ _, ?_, hwas, htaken⟩
    · simp only [pageSize]
      omega
    · exact Nat.mul_lt_mul_of_pos_right (Nat.lt_of_lt_of_le hlt hle) (by decide)
  · exact pmmFreePage_rejected (h.maxFrames ▸ haddr)

/-- Two pages are allocated, and the first is given back: the second is still somebody's. -/
theorem frames_single_owner_twoPages :
    LedgerReach twoPages ⟨pmmFreePage ((twoPages.take 1).take 2) 4096, [8192]⟩ ∧
    (pmmFreePage ((twoPages.take 1).take 2) 4096).taken 2 = true ∧
    ∀ addr, addr = 0 ∨ addr % pageSize ≠ 0 ∨ 64 * pageSize ≤ addr →
      pmmFreePage (pmmFreePage ((twoPages.take 1).take 2) 4096) addr =
        pmmFreePage ((twoPages.take 1).take 2) 4096 := by
  have hfirst : pmmAllocPage twoPages = (4096, twoPages.take 1) := by
    rw [pmmAllocPage_eq]
    rw [Pmm.freeFrames_eq_cons (f := 1) (by decide) (by decide) (by decide)]
    rfl
  have hsecond : pmmAllocPage (twoPages.take 1) = (8192, (twoPages.take 1).take 2) := by
    rw [pmmAllocPage_eq]
    rw [Pmm.freeFrames_eq_cons (f := 2) (by decide) (by decide) (by decide)]
    rfl
  have hheld : 4096 ∈ [8192, 4096] := List.mem_cons_of_mem _ List.mem_cons_self
  have hfree := LedgerStep.free (l := ⟨(twoPages.take 1).take 2, [8192, 4096]⟩) hheld
  rw [show ([8192, 4096] : List Nat).erase 4096 = [8192] by decide] at hfree
  have hreach : LedgerReach twoPages ⟨pmmFreePage ((twoPages.take 1).take 2) 4096, [8192]⟩ := by
    refine Relation.ReflTransGen.tail ?_ hfree
    refine Relation.ReflTransGen.tail (b := ⟨twoPages.take 1, [4096]⟩) ?_ ?_
    · refine Relation.ReflTransGen.single ?_
      have := LedgerStep.alloc (l := ⟨twoPages, []⟩) (by rw [hfirst]; decide)
      rwa [hfirst] at this
    · have := LedgerStep.alloc (l := ⟨twoPages.take 1, [4096]⟩) (by rw [hsecond]; decide)
      rwa [hsecond] at this
  obtain ⟨-, hheld, hrej, -, -⟩ := frames_single_owner twoPages (by decide) _ hreach
  obtain ⟨_, _, _, _, htaken⟩ := hheld 8192 List.mem_cons_self
  rw [show 8192 / pageSize = 2 by decide] at htaken
  simp only at htaken hrej
  exact ⟨hreach, htaken, hrej⟩

end ScratchOs.Mem
