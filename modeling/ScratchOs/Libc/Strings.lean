import Mathlib.Data.List.GetD
import ScratchOs.Libc.Printk

/-!
# Literals and lengths

`len` of `libc/string.cpp`, and what a string literal is to the functions that take one.

Functions of this library take the address of a string and go on to the first NUL. In the model they
take the memory from that address on, as a function from indices to bytes, and a bound on how far
they may go; a text is put into such a memory by `memoryOf`. A result about a function is then about
any memory that begins with the text, and what is behind it does not matter.
-/

set_option autoImplicit false

namespace ScratchOs.Libc

/-- A string literal, without its NUL. -/
def chars (s : String) : List UInt8 := s.toList.map Char.toUInt8

/-- The memory a text is in. -/
def memoryOf (text : List UInt8) : Nat → UInt8 := fun i => text.getD i 0

/-- The loop of `len`. -/
def lenFrom (c : Nat → UInt8) : Nat → Nat → Nat
  | 0, i => i
  | fuel + 1, i => if c i ≠ 0 then lenFrom c fuel (i + 1) else i

/-- `int len(const char* c)` -/
def len (c : Nat → UInt8) (fuel : Nat) : Nat := lenFrom c fuel 0

/-- What `%s` prints, from index `i` on. -/
def textFrom (c : Nat → UInt8) : Nat → Nat → List UInt8
  | 0, _ => []
  | fuel + 1, i => if c i ≠ 0 then c i :: textFrom c fuel (i + 1) else []

theorem zero_not_mem_textFrom (c : Nat → UInt8) : ∀ fuel i, 0 ∉ textFrom c fuel i
  | 0, _ => List.not_mem_nil
  | fuel + 1, i => by
    rw [textFrom]
    split_ifs with hc
    · exact List.not_mem_cons_of_ne_of_not_mem (Ne.symm hc) (zero_not_mem_textFrom c fuel (i + 1))
    · exact List.not_mem_nil

/-! ## Texts in memory -/

theorem stringAt_of {s : Nat → UInt8} {text : List UInt8} : ∀ {i : Nat},
    (∀ (j : Nat) (h : j < text.length), s (i + j) = text[j]) → s (i + text.length) = 0 →
      0 ∉ text → StringAt s i text := by
  induction text with
  | nil => exact fun _ hstop _ => hstop
  | cons c text ih =>
    intro i hchars hstop hzero
    refine ⟨hchars 0 (Nat.zero_lt_succ _), fun hc => hzero (hc ▸ List.mem_cons_self), ih ?_ ?_ ?_⟩
    · intro j hj
      have h := hchars (j + 1) (Nat.succ_lt_succ hj)
      rwa [List.getElem_cons_succ, show i + (j + 1) = i + 1 + j by omega] at h
    · rwa [List.length_cons, show i + (text.length + 1) = i + 1 + text.length by omega] at hstop
    · exact fun hmem => hzero (List.mem_cons_of_mem c hmem)

theorem stringAt_memoryOf {text : List UInt8} (h : 0 ∉ text) : StringAt (memoryOf text) 0 text := by
  refine stringAt_of (fun j hj => ?_) ?_ h
  · rw [memoryOf, Nat.zero_add, List.getD_eq_getElem _ _ hj]
  · rw [memoryOf, Nat.zero_add, List.getD_eq_default _ _ (Nat.le_refl _)]

theorem lenFrom_eq {c : Nat → UInt8} {text : List UInt8} : ∀ {i fuel : Nat}, StringAt c i text →
    text.length < fuel → lenFrom c fuel i = i + text.length := by
  induction text with
  | nil =>
    intro i fuel hstop hfuel
    obtain ⟨fuel, rfl⟩ := Nat.exists_eq_add_one_of_ne_zero (Nat.ne_of_gt hfuel)
    have hnul : c i = 0 := hstop
    rw [lenFrom, if_neg (not_not.mpr hnul)]
    rfl
  | cons x text ih =>
    intro i fuel hs hfuel
    obtain ⟨hx, hne, hs⟩ := hs
    obtain ⟨fuel, rfl⟩ := Nat.exists_eq_add_one_of_ne_zero (Nat.ne_of_gt (Nat.zero_lt_of_lt hfuel))
    rw [List.length_cons] at hfuel ⊢
    rw [lenFrom, if_pos (hx ▸ hne), ih hs (by omega)]
    omega

theorem textFrom_eq {c : Nat → UInt8} {text : List UInt8} : ∀ {i fuel : Nat}, StringAt c i text →
    text.length < fuel → textFrom c fuel i = text := by
  induction text with
  | nil =>
    intro i fuel hstop hfuel
    obtain ⟨fuel, rfl⟩ := Nat.exists_eq_add_one_of_ne_zero (Nat.ne_of_gt hfuel)
    have hnul : c i = 0 := hstop
    rw [textFrom, if_neg (not_not.mpr hnul)]
  | cons x text ih =>
    intro i fuel hs hfuel
    obtain ⟨hx, hne, hs⟩ := hs
    obtain ⟨fuel, rfl⟩ := Nat.exists_eq_add_one_of_ne_zero (Nat.ne_of_gt (Nat.zero_lt_of_lt hfuel))
    rw [List.length_cons] at hfuel
    rw [textFrom, if_pos (hx ▸ hne), ih hs (by omega), hx]

theorem expand_append {text : List UInt8} (h : percent ∉ text) (format : List UInt8)
    (args : List Arg) : expand (text ++ format) args = (expand format args).map (text ++ ·) := by
  induction text with
  | nil => exact Option.map_id.symm ▸ rfl
  | cons c text ih =>
    rw [List.cons_append, expand_lit (fun hc => h (hc ▸ List.mem_cons_self)),
      ih fun hmem => h (List.mem_cons_of_mem c hmem), Option.map_map]
    rfl

theorem loneEnd_append {text : List UInt8} (h : percent ∉ text) (format : List UInt8) :
    loneEnd (text ++ format) = loneEnd format := by
  induction text with
  | nil => rfl
  | cons c text ih =>
    rw [List.cons_append, loneEnd_lit (fun hc => h (hc ▸ List.mem_cons_self)),
      ih fun hmem => h (List.mem_cons_of_mem c hmem)]

end ScratchOs.Libc
