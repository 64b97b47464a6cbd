import Mathlib.Data.Nat.Bitwise
import ScratchOs.Drivers.Ata

/-!
# What `ata_identify` writes down

`parseIdentify` says what the driver makes of the 256 words. Here the model number is followed
into memory: `model` is an array of 41 characters in a block from `kmalloc`, which holds whatever
was there before, and `ata_init_device` has cleared its first byte.

The words are decoded as they should be (`DecodesWords`); the byte that ends the string goes to
index 41, so that index 40, where it belongs, is left as it was (`identify_never_terminates`).

In `parseIdentify` the model is a list of the bytes that have been written, and a list ends where it
ends. That is enough for what the driver does with a device and not for what is in memory, which is
why the stores are followed once more here. `identify_never_terminates` has no condition: whatever
the words are and whatever the memory held, index 40 is not stored to.
-/

set_option autoImplicit false

namespace ScratchOs.Drivers

/-- The memory from `device->model` on, by index. -/
abbrev ModelBytes := Nat → UInt8

/-- Stores, one after the other. -/
def storeAll (bytes : ModelBytes) (stores : List (Nat × UInt8)) : ModelBytes :=
  stores.foldl (fun bytes store => Function.update bytes store.1 store.2) bytes

def identifyWord (buffer : List UInt16) (i : Nat) : UInt16 := buffer.getD i 0

/-- One round of the loop: `i` is `2 * k`. -/
def modelPair (buffer : List UInt16) (k : Nat) : List (Nat × UInt8) :=
  [(2 * k, (identifyWord buffer (27 + k) >>> 8).toUInt8),
    (2 * k + 1, (identifyWord buffer (27 + k)).toUInt8)]

/-- Everything `ata_identify` stores by way of `model`. -/
def modelStores (buffer : List UInt16) : List (Nat × UInt8) :=
  (List.range 20).flatMap (modelPair buffer) ++ [(41, 0)]

/-- The bytes after `ata_init_device` and `ata_identify`. -/
def identifiedModel (prior : ModelBytes) (buffer : List UInt16) : ModelBytes :=
  storeAll (storeAll prior [(0, 0)]) (modelStores buffer)

/-! ## The stores -/

theorem storeAll_append (bytes : ModelBytes) (stores stores' : List (Nat × UInt8)) :
    storeAll bytes (stores ++ stores') = storeAll (storeAll bytes stores) stores' :=
  List.foldl_append

/-- What no store is about stays. -/
theorem storeAll_of_not_mem {i : Nat} : ∀ {stores : List (Nat × UInt8)},
    (∀ store ∈ stores, store.1 ≠ i) → ∀ bytes, storeAll bytes stores i = bytes i
  | [], _, _ => rfl
  | store :: stores, h, bytes => by
    have hrest := storeAll_of_not_mem (fun s hs => h s (List.mem_cons_of_mem _ hs))
      (Function.update bytes store.1 store.2)
    rw [Function.update_of_ne (h store List.mem_cons_self).symm] at hrest
    exact hrest

theorem storeAll_modelPair (bytes : ModelBytes) (buffer : List UInt16) (k : Nat) :
    storeAll bytes (modelPair buffer k) (2 * k) = (identifyWord buffer (27 + k) >>> 8).toUInt8 ∧
      storeAll bytes (modelPair buffer k) (2 * k + 1) = (identifyWord buffer (27 + k)).toUInt8 := by
  constructor
  · show Function.update (Function.update bytes _ _) _ _ _ = _
    rw [Function.update_of_ne (by omega), Function.update_self]
  · exact Function.update_self ..

/-- The loop after `n` rounds. -/
theorem storeAll_pairs (bytes : ModelBytes) (buffer : List UInt16) (n : Nat) : ∀ k < n,
    storeAll bytes ((List.range n).flatMap (modelPair buffer)) (2 * k) =
        (identifyWord buffer (27 + k) >>> 8).toUInt8 ∧
      storeAll bytes ((List.range n).flatMap (modelPair buffer)) (2 * k + 1) =
        (identifyWord buffer (27 + k)).toUInt8 := by
  induction n with
  | zero => exact fun k hk => absurd hk (Nat.not_lt_zero k)
  | succ n ih =>
    intro k hk
    rw [List.range_succ, List.flatMap_append, storeAll_append, List.flatMap_singleton]
    rcases Nat.lt_succ_iff_lt_or_eq.mp hk with hlt | rfl
    · -- The last round stores behind the earlier ones.
      have hlater (i : Nat) (hi : i < 2 * n) : ∀ store ∈ modelPair buffer n, store.1 ≠ i := by
        intro store hstore
        simp only [modelPair, List.mem_cons, List.not_mem_nil, or_false] at hstore
        rcases hstore with rfl | rfl
        · exact fun h => absurd h (by dsimp only; omega)
        · exact fun h => absurd h (by dsimp only; omega)
      rw [storeAll_of_not_mem (hlater _ (by omega)), storeAll_of_not_mem (hlater _ (by omega))]
      exact ih k hlt
    · exact storeAll_modelPair ..

theorem modelStores_index {buffer : List UInt16} {store : Nat × UInt8}
    (h : store ∈ modelStores buffer) : store.1 < 40 ∨ store = (41, 0) := by
  rcases List.mem_append.mp h with h | h
  · left
    obtain ⟨k, hk, h⟩ := List.mem_flatMap.mp h
    rw [List.mem_range] at hk
    simp only [modelPair, List.mem_cons, List.not_mem_nil, or_false] at h
    rcases h with rfl | rfl
    · dsimp only
      omega
    · dsimp only
      omega
  · exact Or.inr (List.mem_singleton.mp h)

theorem identifiedModel_pair (prior : ModelBytes) (buffer : List UInt16) {k : Nat} (hk : k < 20) :
    identifiedModel prior buffer (2 * k) = (identifyWord buffer (27 + k) >>> 8).toUInt8 ∧
      identifiedModel prior buffer (2 * k + 1) = (identifyWord buffer (27 + k)).toUInt8 := by
  have hlast (i : Nat) (hi : i < 40) (bytes : ModelBytes) : storeAll bytes [(41, 0)] i = bytes i := by
    apply storeAll_of_not_mem
    intro store hstore
    rw [List.mem_singleton.mp hstore]
    exact fun h => absurd h (by dsimp only; omega)
  rw [identifiedModel, modelStores, storeAll_append, hlast _ (by omega), hlast _ (by omega)]
  exact storeAll_pairs _ buffer 20 k hk

/-- Index 40 is not among those that are stored to. -/
theorem identifiedModel_forty (prior : ModelBytes) (buffer : List UInt16) :
    identifiedModel prior buffer 40 = prior 40 := by
  rw [identifiedModel, storeAll_of_not_mem]
  · exact storeAll_of_not_mem (fun store h => by rw [List.mem_singleton.mp h]; decide) prior
  · intro store hstore
    rcases modelStores_index hstore with hlt | rfl
    · exact Nat.ne_of_lt hlt
    · decide

/-- In `parseIdentify` the model is these bytes. -/
theorem parseIdentify_model (d : AtaDevice) (prior : ModelBytes) (buffer : List UInt16) :
    (parseIdentify d buffer).model = (List.range 20).flatMap fun k =>
      [identifiedModel prior buffer (2 * k), identifiedModel prior buffer (2 * k + 1)] := by
  have hmodel : (parseIdentify d buffer).model = (List.range 20).flatMap fun k =>
      [(identifyWord buffer (27 + k) >>> 8).toUInt8, (identifyWord buffer (27 + k)).toUInt8] := by
    unfold parseIdentify
    simp only
    split_ifs
    · rfl
    · rfl
  rw [hmodel, List.flatMap_def, List.flatMap_def]
  apply congrArg
  apply List.map_congr_left
  intro k hk
  obtain ⟨hhigh, hlow⟩ := identifiedModel_pair prior buffer (List.mem_range.mp hk)
  rw [hhigh, hlow]

/-! ## The fields -/

/-- Words, the least significant first. -/
def littleEndian : List UInt16 → Nat
  | [] => 0
  | word :: words => word.toNat + 65536 * littleEndian words

/-- The device that `ata_init` has set up, with the words decoded. -/
structure DecodesWords (base control : UInt16) (slave : UInt8) (prior : ModelBytes)
    (buffer : List UInt16) : Prop where
  high : ∀ k < 20, identifiedModel prior buffer (2 * k) =
    (identifyWord buffer (27 + k) >>> 8).toUInt8
  low : ∀ k < 20, identifiedModel prior buffer (2 * k + 1) =
    (identifyWord buffer (27 + k)).toUInt8
  lba48 : (identifyWord buffer 83).toNat.testBit 10 = true →
    (parseIdentify (ataInitDevice base control slave) buffer).sectorCount.toNat =
      littleEndian ([100, 101, 102, 103].map (identifyWord buffer)) ∧
    (parseIdentify (ataInitDevice base control slave) buffer).flags = 0x02 ||| 0x01
  lba28 : (identifyWord buffer 83).toNat.testBit 10 = false →
    (parseIdentify (ataInitDevice base control slave) buffer).sectorCount.toNat =
      littleEndian ([60, 61].map (identifyWord buffer)) ∧
    (parseIdentify (ataInitDevice base control slave) buffer).flags = 0x04 ||| 0x01

/-- The words are decoded, and the model number is a string in its array. -/
structure Decoded (base control : UInt16) (slave : UInt8) (prior : ModelBytes)
    (buffer : List UInt16) : Prop extends DecodesWords base control slave prior buffer where
  bounds : ∀ store ∈ modelStores buffer, store.1 ≤ 40
  nul : identifiedModel prior buffer 40 = 0

theorem testBit_ten (word : UInt16) : word.toNat.testBit 10 = true ↔ word &&& 0x400 ≠ 0 := by
  have hand : (word &&& 0x400).toNat = (word.toNat.testBit 10).toNat * 1024 := by
    rw [UInt16.toNat_and]
    exact Nat.and_two_pow word.toNat 10
  rw [Ne, ← UInt16.toNat_inj, hand]
  cases word.toNat.testBit 10 with
  | false => simp
  | true => simp

/-- A word put above what is there. -/
theorem or_word_toNat (count : UInt64) (word : UInt16) (shift : Nat) (hshift : shift ≤ 48)
    (hcount : count.toNat < 2 ^ shift) :
    (count ||| (word.toUInt64 <<< UInt64.ofNat shift)).toNat =
      count.toNat + 2 ^ shift * word.toNat := by
  have hword : word.toNat < 2 ^ 16 := word.toNat_lt
  have hroom : 2 ^ shift * word.toNat < 2 ^ 64 := calc
    2 ^ shift * word.toNat < 2 ^ shift * 2 ^ 16 :=
      Nat.mul_lt_mul_of_pos_left hword (Nat.two_pow_pos shift)
    _ = 2 ^ (shift + 16) := (Nat.pow_add 2 shift 16).symm
    _ ≤ 2 ^ 64 := Nat.pow_le_pow_right (by decide) (by omega)
  have hplace : (word.toUInt64 <<< UInt64.ofNat shift).toNat = 2 ^ shift * word.toNat := by
    rw [UInt64.toNat_shiftLeft, UInt16.toNat_toUInt64, UInt64.toNat_ofNat_of_lt' (Nat.lt_of_le_of_lt hshift (by decide)),
      Nat.mod_eq_of_lt (show shift < 64 by omega), Nat.shiftLeft_eq, Nat.mul_comm,
      Nat.mod_eq_of_lt hroom]
  rw [UInt64.toNat_or, hplace, Nat.or_comm, Nat.add_comm,
    Nat.two_pow_add_eq_or_of_lt hcount]

theorem sectorCount_28 (low high : UInt16) :
    (low.toUInt64 ||| (high.toUInt64 <<< 16)).toNat = littleEndian [low, high] := by
  have hlow := low.toNat_lt
  have h := or_word_toNat low.toUInt64 high 16 (by decide)
    (by rw [UInt16.toNat_toUInt64]; exact hlow)
  rw [UInt16.toNat_toUInt64] at h
  exact h

theorem sectorCount_48 (w₀ w₁ w₂ w₃ : UInt16) :
    (w₀.toUInt64 ||| (w₁.toUInt64 <<< 16) ||| (w₂.toUInt64 <<< 32) |||
      (w₃.toUInt64 <<< 48)).toNat = littleEndian [w₀, w₁, w₂, w₃] := by
  have h₀ := w₀.toNat_lt
  have h₁ := w₁.toNat_lt
  have h₂ := w₂.toNat_lt
  have htwo := sectorCount_28 w₀ w₁
  simp only [littleEndian] at htwo ⊢
  have hthree := or_word_toNat (w₀.toUInt64 ||| (w₁.toUInt64 <<< 16)) w₂ 32 (by decide)
    (by rw [htwo]; omega)
  have hfour := or_word_toNat (w₀.toUInt64 ||| (w₁.toUInt64 <<< 16) ||| (w₂.toUInt64 <<< 32)) w₃ 48
    (by decide) (by rw [show UInt64.ofNat 32 = 32 from rfl] at hthree; rw [hthree, htwo]; omega)
  rw [show UInt64.ofNat 32 = 32 from rfl] at hthree
  rw [show UInt64.ofNat 48 = 48 from rfl] at hfour
  rw [hfour, hthree, htwo]
  omega

theorem decodesWords (base control : UInt16) (slave : UInt8) (prior : ModelBytes)
    (buffer : List UInt16) : DecodesWords base control slave prior buffer := by
  constructor
  · exact fun k hk => (identifiedModel_pair prior buffer hk).1
  · exact fun k hk => (identifiedModel_pair prior buffer hk).2
  · intro hbit
    have hset : buffer.getD 83 0 &&& 0x400 ≠ 0 := (testBit_ten _).mp hbit
    simp only [parseIdentify, if_pos hset]
    exact ⟨sectorCount_48 .., congrArg (· ||| 0x01) (UInt8.zero_or)⟩
  · intro hbit
    have hclear : ¬ buffer.getD 83 0 &&& 0x400 ≠ 0 := fun hset =>
      Bool.eq_false_iff.mp hbit ((testBit_ten _).mpr hset)
    simp only [parseIdentify, if_neg hclear]
    exact ⟨sectorCount_28 .., congrArg (· ||| 0x01) (UInt8.zero_or)⟩

/-- **No block is decoded in bounds.** Every word is, but the terminating zero is stored one past
the end of `model`, and index 40 holds what it held before. -/
theorem identify_never_terminates (base control : UInt16) (slave : UInt8) (prior : ModelBytes)
    (buffer : List UInt16) :
    DecodesWords base control slave prior buffer ∧ (41, 0) ∈ modelStores buffer ∧
      identifiedModel prior buffer 40 = prior 40 ∧
      ¬ Decoded base control slave prior buffer := by
  have hpast : (41, 0) ∈ modelStores buffer :=
    List.mem_append_right _ (List.mem_singleton_self _)
  exact ⟨decodesWords .., hpast, identifiedModel_forty prior buffer,
    fun h => absurd (h.bounds _ hpast) (by decide)⟩

/-- A block of spaces, in a heap that was full of `A`: an `A` ends up behind the 40 spaces. -/
theorem spaces_unterminated :
    ¬ Decoded ataPrimaryBase ataPrimaryControl 0 (fun _ => 65) (List.replicate 256 0x2020) ∧
      identifiedModel (fun _ => 65) (List.replicate 256 0x2020) 40 = 65 := by
  have hforty := identifiedModel_forty (fun _ => 65) (List.replicate 256 0x2020)
  refine ⟨fun h => ?_, hforty⟩
  have hnul := h.nul
  rw [hforty] at hnul
  exact absurd hnul (by decide)

end ScratchOs.Drivers
