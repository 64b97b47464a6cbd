import ScratchOs.Lib.Decimal
import ScratchOs.Libc.Printk

/-!
# `int2String` and its buffer

`libc/string.cpp`. Two loops over the digits: the one of `nb_digits` says where the NUL goes, the
other fills the buffer from there to the front. Neither makes a round for a negative number, and
nothing puts a minus sign: `printsDecimal_iff`.

`int2String` in `Printk` is the text that ends up in the buffer (`int2StringBuffer_text`).

The stores are kept as a list, with indices that are integers and not natural numbers. The second
loop counts down from a number that the first loop has computed, and that it does not go below the
front of the buffer is a fact about the two loops agreeing. With natural numbers it would hold by
the way subtraction is defined.

The buffer is static. Whatever a call before this one has left is behind the NUL or overwritten, so
`PrintsDecimal` asks for the text whatever was in the buffer before.
-/

set_option autoImplicit false

namespace ScratchOs.Libc

open ScratchOs.Decimal

/-- `while (a > 0) { buffer[digits_number - 1 - i] = int2char(a % 10); a = a / 10; i++; }`: the
stores it makes, each an index and a byte. -/
def emitDigits (digitsNumber : Int) : Nat → Int → Int → List (Int × UInt8)
  | 0, _, _ => []
  | fuel + 1, a, i =>
    if 0 < a then
      (digitsNumber - 1 - i, int2char (a % 10)) :: emitDigits digitsNumber fuel (a / 10) (i + 1)
    else []

/-- `char *int2String(int a)`, as the stores it makes. -/
def int2StringStores (a : Int32) : List (Int × UInt8) :=
  let digitsNumber : Int := nbDigits a
  if a = 0 then [(0, 48), (1, 0)] else (digitsNumber, 0) :: emitDigits digitsNumber 10 a.toInt 0

def storeAt (buffer : Int → UInt8) (stores : List (Int × UInt8)) : Int → UInt8 :=
  stores.foldl (fun buffer store => Function.update buffer store.1 store.2) buffer

/-- The static buffer after the call. -/
def int2StringBuffer (buffer : Int → UInt8) (a : Int32) : Nat → UInt8 :=
  fun i => storeAt buffer (int2StringStores a) i

/-- The buffer has the decimal numeral of `a`, whatever was in it before, and no other number
leaves the same text. -/
structure PrintsDecimal (a : Int32) (buffer : Int → UInt8) (text : List UInt8) : Prop where
  inside : ∀ store ∈ int2StringStores a, 0 ≤ store.1 ∧ store.1 < 16
  string : StringAt (int2StringBuffer buffer a) 0 text
  fits : text.length < 16
  numeral : text = numeral a.toInt
  minus : text.head? = some 45 ↔ a < 0
  zero : text.head? = some 48 ↔ a = 0
  parses : parse text = a.toInt
  distinct : ∀ b buffer', StringAt (int2StringBuffer buffer' b) 0 text → b = a

/-! ## The two loops -/

theorem StringAt.unique {s : Nat → UInt8} : ∀ {xs ys : List UInt8} {i : Nat}, StringAt s i xs →
    StringAt s i ys → xs = ys
  | [], [], _, _, _ => rfl
  | [], _ :: _, _, hxs, hys => absurd (hys.1.symm.trans hxs) hys.2.1
  | _ :: _, [], _, hxs, hys => absurd (hxs.1.symm.trans hys) hxs.2.1
  | _ :: _, _ :: _, _, hxs, hys => by
    rw [← hxs.1, ← hys.1, hxs.2.2.unique hys.2.2]

/-- A store in front of a string does not touch it. -/
theorem StringAt.update {buffer : Int → UInt8} {k : Int} (c : UInt8) : ∀ {text : List UInt8} {i : Nat},
    StringAt (fun i => buffer i) i text → k < i →
    StringAt (fun i => Function.update buffer k c i) i text
  | [], _, h, hk => (Function.update_of_ne (Int.ne_of_gt hk) ..).trans h
  | _ :: _, _, h, hk =>
    ⟨(Function.update_of_ne (Int.ne_of_gt hk) ..).trans h.1, h.2.1, h.2.2.update c (by omega)⟩

/-- The second loop, in front of what it has written so far: it makes as many stores as the first
loop counts digits. -/
theorem emitDigits_string (digits : Int) {fuel : Nat} : ∀ {a i : Int} {buffer : Int → UInt8} {p : Nat}
    {text : List UInt8}, (p : Int) = digits - i → countDigits fuel a ≤ p →
    StringAt (fun j => buffer j) p text →
    StringAt (fun j => storeAt buffer (emitDigits digits fuel a i) j) (p - countDigits fuel a)
        (digitsFrom fuel a text) ∧
      ∀ store ∈ emitDigits digits fuel a i, 0 ≤ store.1 ∧ store.1 < p := by
  induction fuel with
  | zero =>
    intro a i buffer p text _ _ htext
    exact ⟨htext, fun store hmem => absurd hmem List.not_mem_nil⟩
  | succ fuel ih =>
    intro a i buffer p text hp hcount htext
    by_cases hpos : 0 < a
    · rw [countDigits, if_pos hpos] at hcount ⊢
      rw [emitDigits, if_pos hpos, digitsFrom, if_pos hpos]
      obtain ⟨p, rfl⟩ := Nat.exists_eq_add_one_of_ne_zero (show p ≠ 0 by omega)
      have hplace : digits - 1 - i = p := by omega
      rw [hplace]
      have hlonger : StringAt (fun j => Function.update buffer p (int2char (a % 10)) j) p
          (int2char (a % 10) :: text) :=
        ⟨Function.update_self .., int2char_ne_zero a, htext.update _ (by omega)⟩
      obtain ⟨hstring, hinside⟩ := @ih (a / 10) (i + 1) _ p _ (by omega) (by omega) hlonger
      rw [show p + 1 - (countDigits fuel (a / 10) + 1) = p - countDigits fuel (a / 10) by omega]
      refine ⟨hstring, fun store hmem => ?_⟩
      rcases List.mem_cons.mp hmem with rfl | hmem
      · exact ⟨Int.natCast_nonneg p, by simp only; omega⟩
      · have hin := hinside store hmem
        omega
    · rw [countDigits, if_neg hpos, emitDigits, if_neg hpos, digitsFrom, if_neg hpos]
      exact ⟨htext, fun store hmem => absurd hmem List.not_mem_nil⟩

theorem countDigits_le : ∀ (fuel : Nat) (a : Int), countDigits fuel a ≤ fuel
  | 0, _ => Nat.le_refl 0
  | fuel + 1, a => by
    have ih := countDigits_le fuel (a / 10)
    rw [countDigits]
    split_ifs
    · omega
    · omega

/-- **What is in the buffer**, and where the stores have gone. -/
theorem int2StringBuffer_text (a : Int32) (buffer : Int → UInt8) :
    StringAt (int2StringBuffer buffer a) 0 (int2String a) ∧
      ∀ store ∈ int2StringStores a, 0 ≤ store.1 ∧ store.1 < 16 := by
  by_cases hzero : a = 0
  · rw [hzero]
    refine ⟨⟨rfl, by decide, rfl⟩, by decide⟩
  · have hdigits : nbDigits a = countDigits 10 a.toInt := if_neg hzero
    have hle := countDigits_le 10 a.toInt
    have hstores : int2StringStores a =
        ((nbDigits a : Int), 0) :: emitDigits (nbDigits a) 10 a.toInt 0 := if_neg hzero
    have hnul : StringAt (fun i => Function.update buffer (nbDigits a) 0 i) (nbDigits a) [] :=
      Function.update_self ..
    obtain ⟨hstring, hinside⟩ := emitDigits_string (nbDigits a) (Int.sub_zero _).symm
      (Nat.le_of_eq hdigits.symm) hnul
    rw [hdigits, Nat.sub_self] at hstring
    refine ⟨?_, fun store hmem => ?_⟩
    · unfold int2StringBuffer
      rw [hstores, int2String, if_neg hzero, hdigits]
      exact hstring
    · rw [hstores] at hmem
      rcases List.mem_cons.mp hmem with rfl | hmem
      · exact ⟨Int.natCast_nonneg _, by simp only; omega⟩
      · have hin := hinside store hmem
        omega

/-! ## The text -/

/-- Ten rounds give the digits of a number with no more than ten. -/
theorem digitsFrom_eq {fuel : Nat} : ∀ {n : Nat} {text : List UInt8}, n < 10 ^ fuel →
    digitsFrom fuel n text = digitText n ++ text := by
  induction fuel with
  | zero =>
    intro n text h
    obtain rfl : n = 0 := by omega
    rfl
  | succ fuel ih =>
    intro n text h
    rw [digitsFrom]
    by_cases hpos : 0 < n
    · have hten : ((n : Int) / 10) = (n / 10 : Nat) := rfl
      have hone : int2char ((n : Int) % 10) = digitChar (n % 10) := rfl
      rw [if_pos (Int.natCast_pos.mpr hpos), hten, hone,
        ih (Nat.div_lt_of_lt_mul (by rw [Nat.pow_succ, Nat.mul_comm] at h; exact h)),
        digitText_of_pos hpos, List.append_assoc]
      rfl
    · obtain rfl : n = 0 := by omega
      rfl

theorem int2String_nonneg {a : Int32} (h : 0 ≤ a.toInt) : int2String a = numeral a.toInt := by
  have hlt := a.toInt_lt
  have hzero : a = 0 ↔ a.toInt = 0 := Int32.toInt_inj.symm
  unfold int2String numeral
  by_cases hz : a = 0
  · rw [if_pos hz, if_pos (hzero.mp hz)]
    rfl
  · rw [if_neg hz, if_neg fun h => hz (hzero.mpr h), if_neg (by omega)]
    have hdigits : digitsFrom 10 (a.toInt.natAbs : Nat) [] = _ := digitsFrom_eq (by omega)
    rw [Int.natAbs_of_nonneg h, List.append_nil] at hdigits
    exact hdigits

/-- Nothing is printed for a negative number. -/
theorem int2String_neg {a : Int32} (h : a.toInt < 0) : int2String a = [] := by
  have hz : a ≠ 0 := by
    rintro rfl
    exact absurd h (by decide)
  rw [int2String, if_neg hz, digitsFrom, if_neg (by omega)]

/-- **When `int2String` prints a number**: when it is not negative. -/
theorem printsDecimal_iff (a : Int32) (buffer : Int → UInt8) :
    (∃ text, PrintsDecimal a buffer text) ↔ 0 ≤ a := by
  have hsign : 0 ≤ a ↔ 0 ≤ a.toInt := Int32.le_iff_toInt_le
  have hminus : a < 0 ↔ a.toInt < 0 := Int32.lt_iff_toInt_lt
  have hzero : a = 0 ↔ a.toInt = 0 := Int32.toInt_inj.symm
  obtain ⟨hstring, hinside⟩ := int2StringBuffer_text a buffer
  rw [hsign]
  constructor
  · rintro ⟨text, h⟩
    by_contra hneg
    have htext := h.minus.mpr (hminus.mpr (Int.not_le.mp hneg))
    rw [h.string.unique hstring, int2String_neg (Int.not_le.mp hneg)] at htext
    cases htext
  · intro hpos
    have htext := int2String_nonneg hpos
    refine ⟨int2String a, hinside, hstring, ?_, htext, ?_, ?_, ?_, fun b buffer' hb => ?_⟩
    · have hle := countDigits_le 10 a.toInt
      rw [length_int2String, nbDigits]
      split_ifs
      · decide
      · omega
    · rw [htext, hminus]
      exact numeral_head_minus _
    · rw [htext, hzero]
      exact numeral_head_zero _
    · rw [htext]
      exact parse_numeral _
    · -- Only negative numbers leave an empty text.
      have hsame := hb.unique (int2StringBuffer_text b buffer').1
      by_cases hbpos : 0 ≤ b.toInt
      · rw [htext, int2String_nonneg hbpos] at hsame
        exact (Int32.toInt_inj.mp (numeral_injective hsame)).symm
      · rw [int2String_neg (Int.not_le.mp hbpos), htext] at hsame
        exact absurd hsame (numeral_ne_nil _)

/-- Minus one leaves the empty text. -/
theorem minus_one_empty :
    (¬ ∃ text, PrintsDecimal (-1) (fun _ => 0) text) ∧ int2String (-1) = [] := by
  refine ⟨?_, by decide⟩
  rintro ⟨text, h⟩
  have hempty : text = int2String (-1) :=
    h.string.unique (int2StringBuffer_text (-1) (fun _ => 0)).1
  have hminus : (int2String (-1)).head? = some 45 := hempty ▸ h.minus.mpr (by decide)
  exact absurd hminus (by decide)

end ScratchOs.Libc
