import Mathlib.Data.Nat.Digits.Defs
import Mathlib.Data.Nat.Digits.Lemmas
import Mathlib.Data.UInt

/-!
# Decimal numerals

Texts are lists of bytes. Every number has one numeral without leading zeros, and reading it gives
the number back (`parse_numeral`), so that different numbers have different numerals.

The digits are those of `Nat.digits`, which begins with the lowest. A program that divides by ten
meets them in that order too, and turns them round at the end; a numeral is the turned list.

The two facts are about each other's absence. `parse` alone would accept leading zeros and a minus
sign before 0, so that `parse_numeral` says that the numeral is right and `numeral_head_zero` that
it is the shortest. A printer that is compared with `numeral` is held to both.
-/

set_option autoImplicit false

namespace ScratchOs.Decimal

def digitChar (d : Nat) : UInt8 := 48 + UInt8.ofNat d

/-- The digits of a number, the highest first: nothing for 0. -/
def digitText (n : Nat) : List UInt8 := ((Nat.digits 10 n).map digitChar).reverse

/-- The numeral of an integer: a minus sign, if it needs one, and the digits. -/
def numeral (a : Int) : List UInt8 :=
  if a = 0 then [digitChar 0]
  else if a < 0 then 45 :: digitText a.natAbs
  else digitText a.natAbs

/-- The number that the digits of a text stand for. -/
def value (text : List UInt8) : Nat := Nat.ofDigits 10 (text.reverse.map fun c => (c - 48).toNat)

def parse (text : List UInt8) : Int :=
  if text.head? = some 45 then -(value text.tail : Int) else value text

/-- Behind the digits of the tens there is that of the ones. -/
theorem digitText_of_pos {n : Nat} (h : 0 < n) :
    digitText n = digitText (n / 10) ++ [digitChar (n % 10)] := by
  rw [digitText, Nat.digits_def' (by decide) h, List.map_cons, List.reverse_cons]
  rfl

theorem digitText_ne_nil {n : Nat} (h : 0 < n) : digitText n ≠ [] := by
  rw [digitText_of_pos h]
  exact List.append_ne_nil_of_right_ne_nil _ (List.cons_ne_nil _ _)

theorem digitChar_sub {d : Nat} (h : d < 10) : (digitChar d - 48).toNat = d := by
  revert d
  decide

theorem digitChar_ne_minus {d : Nat} (h : d < 10) : digitChar d ≠ 45 := by
  revert d
  decide

theorem value_digitText (n : Nat) : value (digitText n) = n := by
  have hdigits : (Nat.digits 10 n).map (fun d => (digitChar d - 48).toNat) = Nat.digits 10 n := by
    conv_rhs => rw [← List.map_id (Nat.digits 10 n)]
    apply List.map_congr_left
    intro d hd
    exact digitChar_sub (Nat.digits_lt_base (by decide) hd)
  rw [value, digitText, List.reverse_reverse, List.map_map]
  exact (congrArg (Nat.ofDigits 10) hdigits).trans (Nat.ofDigits_digits 10 n)

theorem minus_not_mem_digitText (n : Nat) : 45 ∉ digitText n := by
  intro hmem
  obtain ⟨d, hd, heq⟩ := List.mem_map.mp (List.mem_reverse.mp hmem)
  exact digitChar_ne_minus (Nat.digits_lt_base (by decide) hd) heq

theorem digitChar_injective {d e : Nat} (hd : d < 10) (he : e < 10)
    (h : digitChar d = digitChar e) : d = e := by
  rw [← digitChar_sub hd, h, digitChar_sub he]

/-- The first digit is not 0. -/
theorem digitText_head {n : Nat} (h : 0 < n) : (digitText n).head? ≠ some (digitChar 0) := by
  have hne : Nat.digits 10 n ≠ [] := Nat.digits_ne_nil_iff_ne_zero.mpr (Nat.ne_of_gt h)
  rw [digitText, List.head?_reverse, List.getLast?_map, List.getLast?_eq_getLast_of_ne_nil hne]
  intro heq
  have hlast := Nat.getLast_digit_ne_zero 10 (Nat.ne_of_gt h)
  apply hlast
  exact digitChar_injective (Nat.digits_lt_base (by decide) (List.getLast_mem hne)) (by decide)
    (Option.some.inj heq)

theorem digitText_head_minus (n : Nat) : (digitText n).head? ≠ some 45 :=
  fun h => minus_not_mem_digitText n (List.mem_of_head? h)

/-- **Reading a numeral gives the number back.** -/
theorem parse_numeral (a : Int) : parse (numeral a) = a := by
  unfold numeral
  split_ifs with hzero hneg
  · rw [hzero]
    decide
  · rw [parse, List.head?_cons, if_pos rfl, List.tail_cons, value_digitText]
    omega
  · rw [parse, if_neg (digitText_head_minus _), value_digitText]
    omega

theorem numeral_injective : Function.Injective numeral :=
  Function.LeftInverse.injective parse_numeral

/-- There is a minus sign for the negative numbers only. -/
theorem numeral_head_minus (a : Int) : (numeral a).head? = some 45 ↔ a < 0 := by
  unfold numeral
  split_ifs with hzero hneg
  · rw [hzero]
    decide
  · exact iff_of_true rfl hneg
  · exact iff_of_false (digitText_head_minus _) hneg

theorem numeral_ne_nil (a : Int) : numeral a ≠ [] := by
  unfold numeral
  split_ifs with hzero hneg
  · exact List.cons_ne_nil _ _
  · exact List.cons_ne_nil _ _
  · exact digitText_ne_nil (by omega)

/-- A zero at the beginning for 0 only. -/
theorem numeral_head_zero (a : Int) : (numeral a).head? = some (digitChar 0) ↔ a = 0 := by
  unfold numeral
  split_ifs with hzero hneg
  · exact iff_of_true rfl hzero
  · rw [List.head?_cons]
    exact iff_of_false (by decide) hzero
  · exact iff_of_false (digitText_head (by omega)) hzero

end ScratchOs.Decimal
