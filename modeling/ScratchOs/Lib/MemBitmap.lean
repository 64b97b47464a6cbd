import ScratchOs.Lib.Bits
import ScratchOs.Lib.Bytes

/-!
# A bitmap that lies in memory

`Bits` knows a bitmap as an array of words, and `Bytes` knows a memory as bytes. A kernel's
bitmap is both: an array that `bitmap[i / 32] |= 1 << (i % 32)` reads and writes, and bytes at
some address that other code may read, or may have overwritten. `wordsAt` is the first view of
the second.

The index of such a statement is not bounded by the array, and the address it comes to is
computed in 32 bits. So a store past the array hits whatever lies there, and an index far enough
out comes back to the array: `wrapIndex` is where. The two facts a client needs are the usual
ones in that light. A bit operation changes the bit of its index, counted round the address
space, and no other bit (`getBit_setBitAt`, `getBit_clearBitAt`); and it changes no byte outside
the one word it stores (`setBitAt_apply`, `clearBitAt_apply`).

The array must be aligned to its words. Otherwise a word could straddle the end of the address
space, and the first fact would be false there.
-/

set_option autoImplicit false

namespace ScratchOs.Bits

/-- Where word `i` of an array at `base` lies. -/
def wordAddr (base i : Nat) : Nat := u32 (base + 4 * i)

/-- The array at `base`. -/
def wordsAt (base : Nat) (m : Bytes.Mem) : Bitmap 32 :=
  fun i => BitVec.ofNat 32 (Bytes.load32 m (wordAddr base i))

def storeWord (base : Nat) (m : Bytes.Mem) (i : Nat) (w : BitVec 32) : Bytes.Mem :=
  Bytes.store32 m (wordAddr base i) w.toNat

/-- `bitmap[i / 32] |= 1 << (i % 32)` -/
def setBitAt (base : Nat) (m : Bytes.Mem) (i : Nat) : Bytes.Mem :=
  storeWord base m (i / 32) (wordsAt base m (i / 32) ||| (1#32 <<< (i % 32)))

/-- `bitmap[i / 32] &= ~(1 << (i % 32))` -/
def clearBitAt (base : Nat) (m : Bytes.Mem) (i : Nat) : Bytes.Mem :=
  storeWord base m (i / 32) (wordsAt base m (i / 32) &&& ~~~(1#32 <<< (i % 32)))

/-- The bit that index `i` comes to: the address space has room for `2 ^ 35` of them. -/
def wrapIndex (i : Nat) : Nat := i % 34359738368

theorem wrapIndex_of_lt {i : Nat} (h : i < 34359738368) : wrapIndex i = i := Nat.mod_eq_of_lt h

theorem map_wrapIndex {is : List Nat} (h : ∀ i ∈ is, i < 34359738368) : is.map wrapIndex = is :=
  (List.map_congr_left fun i hi => wrapIndex_of_lt (h i hi)).trans (List.map_id is)

variable {base : Nat}

theorem wordAddr_aligned (hbase : base % 4 = 0) (i : Nat) : wordAddr base i % 4 = 0 := by
  simp only [wordAddr, u32]
  omega

/-- Words have one address only if their indices agree round the address space. -/
theorem wordAddr_inj {i j : Nat} (h : wordAddr base i = wordAddr base j) :
    i % 1073741824 = j % 1073741824 := by
  simp only [wordAddr, u32] at h
  omega

theorem wordAddr_congr {i j : Nat} (h : i % 1073741824 = j % 1073741824) :
    wordAddr base i = wordAddr base j := by
  simp only [wordAddr, u32]
  omega

theorem storeWord_apply {m : Bytes.Mem} {i c : Nat} (w : BitVec 32)
    (h : c < wordAddr base i ∨ wordAddr base i + 4 ≤ c) : storeWord base m i w c = m c :=
  Bytes.store32_apply_of_disjoint _ h

/-- A store to one word of the array, seen through any index. Indices that far apart that their
addresses wrap round to the same word are the same word. -/
theorem wordsAt_storeWord (hbase : base % 4 = 0) (m : Bytes.Mem) (i j : Nat) (w : BitVec 32) :
    wordsAt base (storeWord base m i w) j =
      if j % 1073741824 = i % 1073741824 then w else wordsAt base m j := by
  unfold wordsAt storeWord
  by_cases hij : j % 1073741824 = i % 1073741824
  · rw [if_pos hij, wordAddr_congr hij, Bytes.load32_store32_of_lt _ _ w.isLt,
      BitVec.ofNat_toNat, BitVec.setWidth_eq]
  · -- Aligned words are the same or do not touch.
    have hi := wordAddr_aligned hbase i
    have hj := wordAddr_aligned hbase j
    have hne : wordAddr base j ≠ wordAddr base i := fun h => hij (wordAddr_inj h)
    rw [if_neg hij, Bytes.load32_store32_of_disjoint _ (by omega)]

/-- A store to one word of the array, seen through an index that is not out of range. -/
theorem wordsAt_storeWord_update (hbase : base % 4 = 0) (m : Bytes.Mem) {i j : Nat}
    (w : BitVec 32) (hj : j < 1073741824) : wordsAt base (storeWord base m i w) j =
      Function.update (wordsAt base m) (i % 1073741824) w j := by
  rw [wordsAt_storeWord hbase, Function.update_apply, Nat.mod_eq_of_lt hj]

theorem wordsAt_mod (m : Bytes.Mem) (i : Nat) :
    wordsAt base m (i % 1073741824) = wordsAt base m i := by
  unfold wordsAt
  rw [wordAddr_congr (Nat.mod_mod i 1073741824)]

theorem wrapIndex_div (i : Nat) : wrapIndex i / 32 = i / 32 % 1073741824 := by
  unfold wrapIndex
  omega

theorem wrapIndex_mod (i : Nat) : wrapIndex i % 32 = i % 32 := by
  unfold wrapIndex
  omega

/-- The bit that is set, and the others. `i` may be out of range, as an index that is computed from
an address may be; then the bit is the one that it wraps to. -/
theorem getBit_setBitAt (hbase : base % 4 = 0) (m : Bytes.Mem) (i : Nat) {j : Nat}
    (hj : j < 34359738368) : getBit (wordsAt base (setBitAt base m i)) j =
      (decide (j = wrapIndex i) || getBit (wordsAt base m) j) := by
  rw [← getBit_setBit (by decide), setBit, wrapIndex_div, wrapIndex_mod, wordsAt_mod]
  unfold getBit setBitAt
  rw [wordsAt_storeWord_update hbase m _ (by omega)]

theorem getBit_clearBitAt (hbase : base % 4 = 0) (m : Bytes.Mem) (i : Nat) {j : Nat}
    (hj : j < 34359738368) : getBit (wordsAt base (clearBitAt base m i)) j =
      (!decide (j = wrapIndex i) && getBit (wordsAt base m) j) := by
  rw [← getBit_clearBit (by decide), clearBit, wrapIndex_div, wrapIndex_mod, wordsAt_mod]
  unfold getBit clearBitAt
  rw [wordsAt_storeWord_update hbase m _ (by omega)]

/-- Outside its word a bit operation changes nothing. -/
theorem setBitAt_apply {m : Bytes.Mem} {i c : Nat}
    (h : c < wordAddr base (i / 32) ∨ wordAddr base (i / 32) + 4 ≤ c) :
    setBitAt base m i c = m c := storeWord_apply _ h

theorem clearBitAt_apply {m : Bytes.Mem} {i c : Nat}
    (h : c < wordAddr base (i / 32) ∨ wordAddr base (i / 32) + 4 ≤ c) :
    clearBitAt base m i c = m c := storeWord_apply _ h

/-- The bytes of a full word, for a program that finds data of its own under the bitmap and reads it
as bytes. -/
theorem byte_of_full {m : Bytes.Mem} {i k : Nat}
    (hbits : ∀ j < 32, getBit (wordsAt base m) (i * 32 + j) = true) (hk : k < 4) :
    m (wordAddr base i + k) = 0xFF := by
  have hword : wordsAt base m i = BitVec.allOnes 32 := by
    refine BitVec.eq_of_getLsbD_eq fun j hj => ?_
    rw [← getBit_word hj, hbits j hj, BitVec.getLsbD_allOnes]
    exact (decide_eq_true hj).symm
  have hload : Bytes.load32 m (wordAddr base i) = 4294967295 := by
    have hnat := congrArg BitVec.toNat hword
    rw [wordsAt, BitVec.toNat_ofNat, Nat.mod_eq_of_lt (Bytes.load32_lt _ _)] at hnat
    exact hnat
  have h₀ := (m (wordAddr base i)).toNat_lt
  have h₁ := (m (wordAddr base i + 1)).toNat_lt
  have h₂ := (m (wordAddr base i + 2)).toNat_lt
  have h₃ := (m (wordAddr base i + 3)).toNat_lt
  simp only [Bytes.load32, Bytes.word] at hload
  have hk' : k = 0 ∨ k = 1 ∨ k = 2 ∨ k = 3 := by omega
  have hbyte : (m (wordAddr base i + k)).toNat = 255 := by
    rcases hk' with rfl | rfl | rfl | rfl
    · rw [Nat.add_zero]
      omega
    · omega
    · omega
    · omega
  exact UInt8.toNat_inj.mp hbyte

/-! ## Runs of bit operations

Loops set or clear one bit after the other. A run that only sets is one `decide` over its list of
indices, taken round the address space; so is one that only clears. A run that does both is cut
where it changes over, which is where such a program changes from one loop to the next. -/

theorem getBit_setBitsAt (hbase : base % 4 = 0) {j : Nat} (hj : j < 34359738368) :
    ∀ (is : List Nat) (m : Bytes.Mem), getBit (wordsAt base (is.foldl (setBitAt base) m)) j =
      (decide (j ∈ is.map wrapIndex) || getBit (wordsAt base m) j) := by
  intro is
  induction is with
  | nil => simp
  | cons i is ih =>
    intro m
    rw [List.foldl_cons, ih, getBit_setBitAt hbase m i hj]
    by_cases hji : j = wrapIndex i <;> by_cases hjs : j ∈ is.map wrapIndex <;> simp [hji, hjs]

theorem getBit_clearBitsAt (hbase : base % 4 = 0) {j : Nat} (hj : j < 34359738368) :
    ∀ (is : List Nat) (m : Bytes.Mem), getBit (wordsAt base (is.foldl (clearBitAt base) m)) j =
      (!decide (j ∈ is.map wrapIndex) && getBit (wordsAt base m) j) := by
  intro is
  induction is with
  | nil => simp
  | cons i is ih =>
    intro m
    rw [List.foldl_cons, ih, getBit_clearBitAt hbase m i hj]
    by_cases hji : j = wrapIndex i <;> by_cases hjs : j ∈ is.map wrapIndex <;> simp [hji, hjs]

end ScratchOs.Bits
