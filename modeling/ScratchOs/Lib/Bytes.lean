import Mathlib.Algebra.Group.Nat.Defs
import Mathlib.Data.Nat.Notation
import Mathlib.Logic.Function.Basic
import Mathlib.Tactic.Common

/-!
# Byte memories and little-endian words

A memory is a total function from addresses to bytes. The words of a little-endian machine
are read and written byte by byte, so every fact about a word access is, in the end, a fact
about four bytes. What a client needs is the usual pair: a load sees the last store to the
same address (`load32_store32`), and does not see a store elsewhere
(`load32_store32_of_disjoint`, `store32_apply_of_disjoint`).

Nothing here bounds the address space; a client that has a 32-bit address space reduces its
addresses before it comes here.

Words are `Nat` and not `UInt32`, because what they are used for afterwards is arithmetic on
addresses and sizes. The price is that a store keeps only what fits: `load32_store32` answers
`w % 2 ^ 32`, and the form without the remainder has the bound as a hypothesis
(`load32_store32_of_lt`).

Every law comes in one form that says which bytes matter (`load32_congr`, `load64_congr`,
`load16_congr`). The laws about disjoint stores are that form, applied to the bytes a store leaves
alone, and so is what a client proves of a range it has not written to.
-/

set_option autoImplicit false

namespace ScratchOs.Bytes

/-- Byte-addressed memory. -/
abbrev Mem := Nat → UInt8

/-- The little-endian word of four bytes. -/
def word (b₀ b₁ b₂ b₃ : UInt8) : Nat :=
  b₀.toNat + 256 * b₁.toNat + 65536 * b₂.toNat + 16777216 * b₃.toNat

/-- Byte `i` of a word. -/
def byteOf (w i : Nat) : UInt8 := UInt8.ofNat (w / 256 ^ i)

def load32 (m : Mem) (a : Nat) : Nat := word (m a) (m (a + 1)) (m (a + 2)) (m (a + 3))

def load64 (m : Mem) (a : Nat) : Nat := load32 m a + 4294967296 * load32 m (a + 4)

def store8 (m : Mem) (a : Nat) (v : UInt8) : Mem := Function.update m a v

def store32 (m : Mem) (a w : Nat) : Mem :=
  store8 (store8 (store8 (store8 m a (byteOf w 0)) (a + 1) (byteOf w 1))
    (a + 2) (byteOf w 2)) (a + 3) (byteOf w 3)

def store64 (m : Mem) (a w : Nat) : Mem :=
  store32 (store32 m a w) (a + 4) (w / 4294967296)

def load16 (m : Mem) (a : Nat) : Nat := (m a).toNat + 256 * (m (a + 1)).toNat

def store16 (m : Mem) (a w : Nat) : Mem := store8 (store8 m a (byteOf w 0)) (a + 1) (byteOf w 1)

/-- `n` bytes from `a` on set to `v`. -/
def fill (m : Mem) (a n : Nat) (v : UInt8) : Mem := fun c => if a ≤ c ∧ c < a + n then v else m c

/-! ## Words -/

theorem word_lt (b₀ b₁ b₂ b₃ : UInt8) : word b₀ b₁ b₂ b₃ < 4294967296 := by
  have h₀ := b₀.toNat_lt
  have h₁ := b₁.toNat_lt
  have h₂ := b₂.toNat_lt
  have h₃ := b₃.toNat_lt
  unfold word
  omega

theorem load32_lt (m : Mem) (a : Nat) : load32 m a < 4294967296 := word_lt _ _ _ _

/-- Splitting a word into its bytes and putting them back loses what is above bit 31. -/
theorem word_byteOf (w : Nat) :
    word (byteOf w 0) (byteOf w 1) (byteOf w 2) (byteOf w 3) = w % 4294967296 := by
  simp only [word, byteOf, UInt8.toNat_ofNat', Nat.reducePow]
  omega

/-! ## One byte -/

@[simp] theorem store8_same (m : Mem) (a : Nat) (v : UInt8) : store8 m a v a = v :=
  Function.update_self ..

theorem store8_apply (m : Mem) (a c : Nat) (v : UInt8) :
    store8 m a v c = if c = a then v else m c := by
  simp [store8, Function.update_apply]

theorem store8_of_ne {m : Mem} {a c : Nat} (v : UInt8) (h : c ≠ a) : store8 m a v c = m c :=
  Function.update_of_ne h ..

theorem fill_zero (m : Mem) (a : Nat) (v : UInt8) : fill m a 0 v = m := by
  funext c
  exact if_neg (by omega)

theorem fill_store8 (m : Mem) (a n : Nat) (v : UInt8) :
    fill (store8 m a v) (a + 1) n v = fill m a (n + 1) v := by
  funext c
  simp only [fill, store8_apply]
  by_cases hca : c = a
  · subst hca
    simp
  · rw [if_neg hca]
    exact if_congr (by omega) rfl rfl

/-! ## Loads and stores of words -/

/-- A load reads four bytes and nothing else. -/
theorem load32_congr {m m' : Mem} {a : Nat} (h : ∀ i, i < 4 → m' (a + i) = m (a + i)) :
    load32 m' a = load32 m a := by
  have h₀ := h 0 (by omega)
  have h₁ := h 1 (by omega)
  have h₂ := h 2 (by omega)
  have h₃ := h 3 (by omega)
  simp only [Nat.add_zero] at h₀
  simp only [load32, h₀, h₁, h₂, h₃]

theorem store32_apply_of_disjoint {m : Mem} {a c : Nat} (w : Nat) (h : c < a ∨ a + 4 ≤ c) :
    store32 m a w c = m c := by
  unfold store32
  rw [store8_of_ne _ (by omega), store8_of_ne _ (by omega), store8_of_ne _ (by omega),
    store8_of_ne _ (by omega)]

/-- Byte by byte. -/
theorem store32_apply (m : Mem) (a c w : Nat) :
    store32 m a w c = if a ≤ c ∧ c < a + 4 then byteOf w (c - a) else m c := by
  by_cases hin : a ≤ c ∧ c < a + 4
  · rw [if_pos hin]
    obtain ⟨i, rfl⟩ := Nat.exists_eq_add_of_le hin.1
    have hi : i = 0 ∨ i = 1 ∨ i = 2 ∨ i = 3 := by omega
    rw [Nat.add_sub_cancel_left]
    rcases hi with rfl | rfl | rfl | rfl
    · simp [store32, store8_apply]
    · simp [store32, store8_apply]
    · simp [store32, store8_apply]
    · simp [store32]
  · rw [if_neg hin, store32_apply_of_disjoint w (by omega)]

/-- A word is stored without what goes beyond 32 bits. -/
theorem load32_store32 (m : Mem) (a w : Nat) :
    load32 (store32 m a w) a = w % 4294967296 := by
  rw [← word_byteOf w, load32]
  congr 1
  · simp [store32, store8_apply]
  · simp [store32, store8_apply]
  · simp [store32, store8_apply]
  · simp [store32]

theorem load32_store32_of_lt (m : Mem) (a : Nat) {w : Nat} (h : w < 4294967296) :
    load32 (store32 m a w) a = w := by
  rw [load32_store32, Nat.mod_eq_of_lt h]

theorem load32_store32_of_disjoint {m : Mem} {a c : Nat} (w : Nat)
    (h : c + 4 ≤ a ∨ a + 4 ≤ c) : load32 (store32 m a w) c = load32 m c :=
  load32_congr fun i hi => store32_apply_of_disjoint w (by omega)

theorem load32_store8_of_disjoint {m : Mem} {a c : Nat} (v : UInt8)
    (h : c + 4 ≤ a ∨ a < c) : load32 (store8 m a v) c = load32 m c :=
  load32_congr fun i hi => store8_of_ne v (by omega)

theorem load64_congr {m m' : Mem} {a : Nat} (h : ∀ i, i < 8 → m' (a + i) = m (a + i)) :
    load64 m' a = load64 m a := by
  have hlo : load32 m' a = load32 m a := load32_congr fun i hi => h i (by omega)
  have hhi : load32 m' (a + 4) = load32 m (a + 4) :=
    load32_congr fun i hi => by rw [Nat.add_assoc, h (4 + i) (by omega)]
  rw [load64, load64, hlo, hhi]

theorem store64_apply_of_disjoint {m : Mem} {a c : Nat} (w : Nat) (h : c < a ∨ a + 8 ≤ c) :
    store64 m a w c = m c := by
  unfold store64
  rw [store32_apply_of_disjoint _ (by omega), store32_apply_of_disjoint _ (by omega)]

/-- Two words, the low one first. -/
theorem load64_store64_of_lt (m : Mem) (a : Nat) {w : Nat} (h : w < 18446744073709551616) :
    load64 (store64 m a w) a = w := by
  unfold load64 store64
  rw [load32_store32, load32_store32_of_disjoint _ (by omega), load32_store32]
  omega

theorem load16_congr {m m' : Mem} {a : Nat} (h : ∀ i, i < 2 → m' (a + i) = m (a + i)) :
    load16 m' a = load16 m a := by
  rw [load16, load16, ← Nat.add_zero a, h 0 (by omega), Nat.add_zero, h 1 (by omega)]

theorem store16_apply_of_disjoint {m : Mem} {a c : Nat} (w : Nat) (h : c < a ∨ a + 2 ≤ c) :
    store16 m a w c = m c := by
  unfold store16
  rw [store8_of_ne _ (by omega), store8_of_ne _ (by omega)]

theorem load16_store16_of_lt (m : Mem) (a : Nat) {w : Nat} (h : w < 65536) :
    load16 (store16 m a w) a = w := by
  rw [load16, store16, store8_same, store8_of_ne _ (by omega), store8_same]
  simp only [byteOf, UInt8.toNat_ofNat', Nat.reducePow]
  omega

theorem load16_store16_of_disjoint {m : Mem} {a c : Nat} (w : Nat)
    (h : c + 2 ≤ a ∨ a + 2 ≤ c) : load16 (store16 m a w) c = load16 m c :=
  load16_congr fun i hi => store16_apply_of_disjoint w (by omega)

theorem load16_store8_of_disjoint {m : Mem} {a c : Nat} (v : UInt8)
    (h : c + 2 ≤ a ∨ a < c) : load16 (store8 m a v) c = load16 m c :=
  load16_congr fun i hi => store8_of_ne v (by omega)

/-! ## One word at many addresses

A table is cleared, or a glyph drawn, by stores of one and the same word to a list of addresses.
The addresses may overlap, when the elements are packed closer than a word; then the last store to
a byte decides, and `storeWords_of_exists` says no more than that it was one of those that have the
byte. A word whose bytes are all the same needs no more. -/

def storeWords (m : Mem) (w : Nat) (as : List Nat) : Mem := as.foldl (fun m a => store32 m a w) m

/-- Bytes of no store. -/
theorem storeWords_of_forall (w : Nat) {as : List Nat} : ∀ {m : Mem} {c : Nat},
    (∀ a ∈ as, ¬ (a ≤ c ∧ c < a + 4)) → storeWords m w as c = m c := by
  induction as with
  | nil =>
    intro m c _
    rfl
  | cons a as ih =>
    intro m c h
    obtain ⟨ha, has⟩ := List.forall_mem_cons.mp h
    rw [storeWords, List.foldl_cons]
    show storeWords (store32 m a w) w as c = m c
    rw [ih has, store32_apply, if_neg ha]

/-- The last store to a byte is one of those that have it. By induction on the list: either a later
store has the byte, or this one decides and `storeWords_of_forall` does the rest. -/
theorem storeWords_of_exists (w : Nat) {as : List Nat} : ∀ {m : Mem} {c : Nat},
    (∃ a ∈ as, a ≤ c ∧ c < a + 4) →
      ∃ a ∈ as, (a ≤ c ∧ c < a + 4) ∧ storeWords m w as c = byteOf w (c - a) := by
  induction as with
  | nil =>
    intro m c h
    obtain ⟨a, ha, _⟩ := h
    cases ha
  | cons a as ih =>
    intro m c h
    by_cases hlater : ∃ b ∈ as, b ≤ c ∧ c < b + 4
    · obtain ⟨b, hb, hin, heq⟩ := ih (m := store32 m a w) hlater
      exact ⟨b, List.mem_cons_of_mem a hb, hin, heq⟩
    · have hin : a ≤ c ∧ c < a + 4 := by
        obtain ⟨b, hb, hin⟩ := h
        rcases List.mem_cons.mp hb with rfl | hb
        · exact hin
        · exact absurd ⟨b, hb, hin⟩ hlater
      refine ⟨a, List.mem_cons_self .., hin, ?_⟩
      show storeWords (store32 m a w) w as c = _
      rw [storeWords_of_forall w fun b hb h => hlater ⟨b, hb, h⟩, store32_apply, if_pos hin]

theorem byteOf_zero (i : Nat) : byteOf 0 i = 0 := by
  rw [byteOf, Nat.zero_div]
  rfl

/-- **Storing and clearing**: where there was nothing before, there is nothing after. -/
theorem storeWords_clear {m : Mem} {as bs : List Nat} (w : Nat) (hsub : as ⊆ bs)
    (hblank : ∀ b ∈ bs, ∀ c, b ≤ c ∧ c < b + 4 → m c = 0) :
    storeWords (storeWords m w as) 0 bs = m := by
  funext c
  by_cases hin : ∃ b ∈ bs, b ≤ c ∧ c < b + 4
  · obtain ⟨b, hb, hc, heq⟩ := storeWords_of_exists 0 (m := storeWords m w as) hin
    rw [heq, byteOf_zero, hblank b hb c hc]
  · have hout : ∀ b ∈ bs, ¬ (b ≤ c ∧ c < b + 4) := fun b hb hc => hin ⟨b, hb, hc⟩
    rw [storeWords_of_forall 0 hout, storeWords_of_forall w fun a ha => hout a (hsub ha)]

end ScratchOs.Bytes
