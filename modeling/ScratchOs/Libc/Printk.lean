import Mathlib.Data.List.Basic
import Mathlib.Data.UInt

/-!
# `printk`

`libc/string.cpp`. The format is in memory, and `printk` looks at one character after the other:
in one place of the loop when it stands for itself, in two when it begins a conversion. `Scan`
keeps, next to the index, what has been printed and which characters have been looked at.

What should be printed is `expand`, which has the format as a list and no index to lose.
`printk_follows_iff` compares the two.

## Arguments

`va_arg` reads whatever is next on the stack as whatever type it is asked for. Here an argument has
a kind, and `convert` has no value where the format asks for another kind, or for one more than
there are. So the comparison is about calls whose arguments are those the format asks for, which is
what the language asks of callers; the rest is undefined and not modelled.

A string argument is its text. What `%s` does with the pointer is a loop of its own, and that it
prints the text is shown where strings in memory are (`Strings`).

## Why the condition is about the end of the format

The scanner looks at the character behind a `%` and steps over both, without asking whether the
second one was the NUL. So it can go wrong in one place only. An even number of `%` at the end are
pairs, each of which prints one; with an odd number the last one takes the NUL with it.
-/

set_option autoImplicit false

namespace ScratchOs.Libc

/-! ## Numbers as text -/

/-- `char int2char(int a)` -/
def int2char (a : Int) : UInt8 := 48 + UInt8.ofNat a.toNat

/-- `while (number > 0) { ++digits; number = number / 10; }` -/
def countDigits : Nat → Int → Nat
  | 0, _ => 0
  | fuel + 1, number => if 0 < number then countDigits fuel (number / 10) + 1 else 0

/-- `int nb_digits(int number)`. An `int` has no more than ten digits. -/
def nbDigits (number : Int32) : Nat := if number = 0 then 1 else countDigits 10 number.toInt

/-- The loop of `int2String`. The buffer is filled from its end, so the text grows at the front. -/
def digitsFrom : Nat → Int → List UInt8 → List UInt8
  | 0, _, text => text
  | fuel + 1, a, text =>
    if 0 < a then digitsFrom fuel (a / 10) (int2char (a % 10) :: text) else text

/-- `char *int2String(int a)`, up to the NUL. -/
def int2String (a : Int32) : List UInt8 := if a = 0 then [48] else digitsFrom 10 a.toInt []

/-- `"0123456789ABCDEF"[digit]` -/
def hexDigit (digit : UInt32) : UInt8 :=
  if digit < 10 then 48 + digit.toUInt8 else 55 + digit.toUInt8

/-- `char* ptr_to_hex(uint32_t ptr)`, up to the NUL. -/
def ptrToHex (ptr : UInt32) : List UInt8 :=
  [48, 120] ++ (List.range 8).map fun i => hexDigit ((ptr >>> UInt32.ofNat ((7 - i) * 4)) &&& 0xF)

/-- The text has as many characters as `nb_digits` has counted, so that it begins where the
buffer does. -/
theorem length_digitsFrom : ∀ (fuel : Nat) (a : Int) (text : List UInt8),
    (digitsFrom fuel a text).length = countDigits fuel a + text.length
  | 0, _, text => (Nat.zero_add _).symm
  | fuel + 1, a, text => by
    rw [digitsFrom, countDigits]
    split_ifs
    · rw [length_digitsFrom fuel, List.length_cons]
      omega
    · exact (Nat.zero_add _).symm

/-- Ten rounds are enough. -/
theorem digitsFrom_succ : ∀ (fuel : Nat) (a : Int) (text : List UInt8), a < 10 ^ fuel →
    digitsFrom (fuel + 1) a text = digitsFrom fuel a text
  | 0, a, text, h => if_neg (by omega)
  | fuel + 1, a, text, h => by
    rw [digitsFrom, digitsFrom.eq_2 a text fuel]
    by_cases hpos : 0 < a
    · rw [if_pos hpos, if_pos hpos]
      apply digitsFrom_succ
      rw [Int.pow_succ] at h
      omega
    · rw [if_neg hpos, if_neg hpos]

theorem int2String_rounds (a : Int32) : digitsFrom 11 a.toInt [] = digitsFrom 10 a.toInt [] := by
  apply digitsFrom_succ
  have := a.toInt_lt
  omega

theorem length_int2String (a : Int32) : (int2String a).length = nbDigits a := by
  unfold int2String nbDigits
  split_ifs
  · rfl
  · exact length_digitsFrom 10 a.toInt []

theorem int2char_ne_zero (a : Int) : int2char (a % 10) ≠ 0 := by
  have h (digit : Nat) (hdigit : digit < 10) : 48 + UInt8.ofNat digit ≠ 0 := by
    revert digit
    decide
  exact h _ (by omega)

theorem zero_not_mem_digitsFrom : ∀ (fuel : Nat) (a : Int) {text : List UInt8}, 0 ∉ text →
    0 ∉ digitsFrom fuel a text
  | 0, _, _, h => h
  | fuel + 1, a, text, h => by
    rw [digitsFrom]
    split_ifs
    · apply zero_not_mem_digitsFrom
      intro hmem
      rcases List.mem_cons.mp hmem with heq | hmem
      · exact int2char_ne_zero a heq.symm
      · exact h hmem
    · exact h

theorem hexDigit_ne_zero (ptr shift : UInt32) : hexDigit ((ptr >>> shift) &&& 0xF) ≠ 0 := by
  have h (digit : Nat) (hdigit : digit < 16) : hexDigit (UInt32.ofNat digit) ≠ 0 := by
    revert digit
    decide
  have hlow : ((ptr >>> shift) &&& 0xF).toNat < 16 := by
    rw [UInt32.toNat_and]
    exact Nat.and_lt_two_pow _ (show (15 : Nat) < 2 ^ 4 by decide)
  have hne := h _ hlow
  rwa [UInt32.ofNat_toNat] at hne

/-! ## Arguments -/

/-- The characters of a C string, without the NUL that ends it. -/
abbrev CString := { text : List UInt8 // 0 ∉ text }

inductive Arg
  | int (a : Int32)
  | hex (ptr : UInt32)
  | str (text : CString)

def percent : UInt8 := 37

/-- The `switch` of `printk`: what is printed for the character behind a `%`, and the arguments
that are left. Without a value where `va_arg` would be undefined. -/
def convert (c : UInt8) (args : List Arg) : Option (List UInt8 × List Arg) :=
  if c = 100 then
    match args with
    | .int a :: args => some (int2String a, args)
    | _ => none
  else if c = 120 then
    match args with
    | .hex ptr :: args => some (ptrToHex ptr, args)
    | _ => none
  else if c = 115 then
    match args with
    | .str text :: args => some (text.val, args)
    | _ => none
  else some ([c], args)

/-- Every loop over a text in the `switch` ends where the text does. -/
theorem convert_no_nul {c : UInt8} {args args' : List Arg} {text : List UInt8} (hc : c ≠ 0)
    (h : convert c args = some (text, args')) : 0 ∉ text := by
  unfold convert at h
  split_ifs at h
  · split at h
    · cases h
      unfold int2String
      split_ifs
      · decide
      · exact zero_not_mem_digitsFrom 10 _ List.not_mem_nil
    · cases h
  · split at h
    · cases h
      intro hmem
      rcases List.mem_append.mp hmem with hmem | hmem
      · exact absurd hmem (by decide)
      · obtain ⟨i, _, hzero⟩ := List.mem_map.mp hmem
        exact hexDigit_ne_zero _ _ hzero
    · cases h
  · split at h
    · rename_i t _
      cases h
      exact t.property
    · cases h
  · cases h
    exact fun hmem => hc (List.mem_singleton.mp hmem).symm

/-! ## The scanner -/

structure Scan where
  i : Nat
  args : List Arg
  out : List UInt8
  reads : List Nat

/-- The loop of `printk`, `s` being the memory from the format on. -/
def printkLoop (s : Nat → UInt8) : Nat → Scan → Option Scan
  | 0, _ => none
  | fuel + 1, st =>
    if s st.i = 0 then some { st with reads := st.reads ++ [st.i] }
    else if s st.i = percent then do
      let (text, args) ← convert (s (st.i + 1)) st.args
      printkLoop s fuel ⟨st.i + 2, args, st.out ++ text, st.reads ++ [st.i, st.i + 1]⟩
    else printkLoop s fuel ⟨st.i + 1, st.args, st.out ++ [s st.i], st.reads ++ [st.i]⟩

/-- `void printk(const char* s, ...)` -/
def printk (s : Nat → UInt8) (fuel : Nat) (args : List Arg) : Option Scan :=
  printkLoop s fuel ⟨0, args, [], []⟩

/-! ## The format as text -/

/-- The format with its arguments in place. There is one for each conversion that takes one, of
its kind. A `%` with nothing behind it is a character like any other. -/
def expand : List UInt8 → List Arg → Option (List UInt8)
  | [], [] => some []
  | [], _ :: _ => none
  | c :: fmt, args =>
    if c = percent then
      match fmt with
      | [] => if args.isEmpty then some [percent] else none
      | c' :: fmt => do
        let (text, args) ← convert c' args
        let rest ← expand fmt args
        some (text ++ rest)
    else do
      let rest ← expand fmt args
      some (c :: rest)

/-- The string at index `i` of the memory. -/
def StringAt (s : Nat → UInt8) : Nat → List UInt8 → Prop
  | i, [] => s i = 0
  | i, c :: cs => s i = c ∧ c ≠ 0 ∧ StringAt s (i + 1) cs

/-- The last `%` has nothing behind it that it could belong to. -/
def loneEnd : List UInt8 → Bool
  | [] => false
  | c :: fmt =>
    if c = percent then
      match fmt with
      | [] => true
      | _ :: fmt => loneEnd fmt
    else loneEnd fmt

theorem expand_lit {c : UInt8} (hc : c ≠ percent) (fmt : List UInt8) (args : List Arg) :
    expand (c :: fmt) args = (expand fmt args).map (c :: ·) := by
  rw [expand.eq_def]
  dsimp only
  rw [if_neg hc]
  cases expand fmt args with
  | none => rfl
  | some rest => rfl

theorem expand_percent {c : UInt8} {fmt : List UInt8} {args : List Arg} {text : List UInt8}
    (h : expand (percent :: c :: fmt) args = some text) : ∃ piece args' rest,
      convert c args = some (piece, args') ∧ expand fmt args' = some rest ∧
      text = piece ++ rest := by
  rw [expand, if_pos rfl] at h
  obtain ⟨⟨piece, args'⟩, hconvert, h⟩ := Option.bind_eq_some_iff.mp h
  obtain ⟨rest, hrest, h⟩ := Option.bind_eq_some_iff.mp h
  cases h
  exact ⟨piece, args', rest, hconvert, hrest, rfl⟩

theorem loneEnd_lit {c : UInt8} (hc : c ≠ percent) (fmt : List UInt8) :
    loneEnd (c :: fmt) = loneEnd fmt := by
  rw [loneEnd.eq_def]
  exact if_neg hc

theorem loneEnd_percent (c : UInt8) (fmt : List UInt8) :
    loneEnd (percent :: c :: fmt) = loneEnd fmt := by
  rw [loneEnd, if_pos rfl]

section Loop

variable {s : Nat → UInt8}

/-- One round, at the end, at a character and at a conversion. -/
theorem printkLoop_nul {fuel : Nat} {st : Scan} (h : s st.i = 0) :
    printkLoop s (fuel + 1) st = some { st with reads := st.reads ++ [st.i] } := by
  rw [printkLoop, if_pos h]

theorem printkLoop_lit {fuel : Nat} {st : Scan} (hnul : s st.i ≠ 0) (hlit : s st.i ≠ percent) :
    printkLoop s (fuel + 1) st =
      printkLoop s fuel ⟨st.i + 1, st.args, st.out ++ [s st.i], st.reads ++ [st.i]⟩ := by
  rw [printkLoop, if_neg hnul, if_neg hlit]

theorem printkLoop_percent {fuel : Nat} {st : Scan} (h : s st.i = percent) {piece : List UInt8}
    {args : List Arg} (hconvert : convert (s (st.i + 1)) st.args = some (piece, args)) :
    printkLoop s (fuel + 1) st =
      printkLoop s fuel ⟨st.i + 2, args, st.out ++ piece, st.reads ++ [st.i, st.i + 1]⟩ := by
  rw [printkLoop, if_neg (by rw [h]; decide), if_pos h, hconvert]
  rfl

/-- The scanner over what is left of the format. -/
theorem printkLoop_expand {fmt : List UInt8} : ∀ {fuel i : Nat} {args : List Arg}
    {out text : List UInt8} {reads : List Nat}, fmt.length < fuel → StringAt s i fmt →
    expand fmt args = some text → loneEnd fmt = false →
    ∃ st, printkLoop s fuel ⟨i, args, out, reads⟩ = some st ∧ st.out = out ++ text ∧
      st.args = [] ∧ ∀ j ∈ st.reads, j ∈ reads ∨ j ≤ i + fmt.length := by
  induction fmt using loneEnd.induct with
  | case1 =>
    intro fuel i args out text reads hfuel hs hexpand _
    obtain ⟨fuel, rfl⟩ := Nat.exists_eq_add_one_of_ne_zero (Nat.ne_of_gt hfuel)
    cases args with
    | cons _ _ => cases hexpand
    | nil =>
      cases hexpand
      refine ⟨_, printkLoop_nul hs, (List.append_nil out).symm, rfl, fun j hj => ?_⟩
      rcases List.mem_append.mp hj with hj | hj
      · exact Or.inl hj
      · exact Or.inr (Nat.le_of_eq (List.mem_singleton.mp hj))
  | case2 =>
    intro fuel i args out text reads _ _ _ hlone
    cases hlone
  | case3 c fmt ih =>
    -- Two characters of the format, and one round.
    intro fuel i args out text reads hfuel hs hexpand hlone
    obtain ⟨hpercent, _, hc, _, hs⟩ := hs
    obtain ⟨piece, args', rest, hconvert, hrest, rfl⟩ := expand_percent hexpand
    obtain ⟨fuel, rfl⟩ := Nat.exists_eq_add_one_of_ne_zero (Nat.ne_of_gt (Nat.zero_lt_of_lt hfuel))
    rw [List.length_cons, List.length_cons] at hfuel
    rw [← hc] at hconvert
    rw [printkLoop_percent hpercent hconvert]
    rw [loneEnd_percent] at hlone
    obtain ⟨st, hrun, hout, hargs, hreads⟩ :=
      ih (show fmt.length < fuel by omega) hs hrest hlone
    refine ⟨st, hrun, by rw [hout, List.append_assoc], hargs, fun j hj => ?_⟩
    rw [List.length_cons, List.length_cons]
    rcases hreads j hj with hj | hj
    · rcases List.mem_append.mp hj with hj | hj
      · exact Or.inl hj
      · simp only [List.mem_cons, List.not_mem_nil, or_false] at hj
        omega
    · omega
  | case4 c fmt hlit ih =>
    intro fuel i args out text reads hfuel hs hexpand hlone
    obtain ⟨hc, hnul, hs⟩ := hs
    rw [expand_lit hlit] at hexpand
    obtain ⟨rest, hrest, rfl⟩ := Option.map_eq_some_iff.mp hexpand
    obtain ⟨fuel, rfl⟩ := Nat.exists_eq_add_one_of_ne_zero (Nat.ne_of_gt (Nat.zero_lt_of_lt hfuel))
    rw [List.length_cons] at hfuel
    rw [loneEnd_lit hlit] at hlone
    rw [printkLoop_lit (hc ▸ hnul) (hc ▸ hlit)]
    obtain ⟨st, hrun, hout, hargs, hreads⟩ :=
      @ih fuel (i + 1) args (out ++ [s i]) rest (reads ++ [i]) (by omega) hs hrest hlone
    refine ⟨st, hrun, ?_, hargs, fun j hj => ?_⟩
    · rw [hout, hc, List.append_assoc]
      rfl
    · rw [List.length_cons]
      rcases hreads j hj with hj | hj
      · rcases List.mem_append.mp hj with hj | hj
        · exact Or.inl hj
        · rw [List.mem_singleton.mp hj]
          omega
      · omega

/-- What has been looked at stays so. -/
theorem printkLoop_reads : ∀ {fuel : Nat} {st st' : Scan}, printkLoop s fuel st = some st' →
    (∀ j ∈ st.reads, j ∈ st'.reads) ∧ st.i ∈ st'.reads
  | 0, _, _, h => nomatch h
  | fuel + 1, st, st', h => by
    rw [printkLoop] at h
    split_ifs at h
    · cases h
      exact ⟨fun j hj => List.mem_append_left _ hj, List.mem_append_right _ (by simp)⟩
    · obtain ⟨⟨piece, args⟩, _, h⟩ := Option.bind_eq_some_iff.mp h
      obtain ⟨hold, _⟩ := printkLoop_reads h
      exact ⟨fun j hj => hold j (List.mem_append_left _ hj),
        hold _ (List.mem_append_right _ (by simp))⟩
    · obtain ⟨hold, _⟩ := printkLoop_reads h
      exact ⟨fun j hj => hold j (List.mem_append_left _ hj),
        hold _ (List.mem_append_right _ (by simp))⟩

/-- Behind a lone `%` the scanner takes the NUL for a conversion, and goes on behind it. -/
theorem printkLoop_lone {fmt : List UInt8} : ∀ {fuel i : Nat} {args : List Arg}
    {out : List UInt8} {reads : List Nat} {st : Scan}, StringAt s i fmt → loneEnd fmt = true →
    printkLoop s fuel ⟨i, args, out, reads⟩ = some st → i + fmt.length + 1 ∈ st.reads := by
  induction fmt using loneEnd.induct with
  | case1 =>
    intro fuel i args out reads st _ hlone _
    cases hlone
  | case2 =>
    intro fuel i args out reads st hs _ hrun
    obtain ⟨hpercent, _, hnul⟩ := hs
    cases fuel with
    | zero => cases hrun
    | succ fuel =>
      have hconvert : convert (s (i + 1)) args = some ([0], args) := by
        rw [show s (i + 1) = 0 from hnul]
        rfl
      rw [printkLoop_percent hpercent hconvert] at hrun
      exact (printkLoop_reads hrun).2
  | case3 c fmt ih =>
    intro fuel i args out reads st hs hlone hrun
    obtain ⟨hpercent, _, hc, _, hs⟩ := hs
    cases fuel with
    | zero => cases hrun
    | succ fuel =>
      rw [printkLoop, if_neg (by rw [show s i = percent from hpercent]; decide),
        if_pos hpercent] at hrun
      obtain ⟨⟨piece, args'⟩, _, hrun⟩ := Option.bind_eq_some_iff.mp hrun
      rw [loneEnd_percent] at hlone
      have hmem := ih hs hlone hrun
      rwa [List.length_cons, List.length_cons,
        show i + (fmt.length + 1 + 1) + 1 = i + 2 + fmt.length + 1 by omega]
  | case4 c fmt hlit ih =>
    intro fuel i args out reads st hs hlone hrun
    obtain ⟨hc, hnul, hs⟩ := hs
    cases fuel with
    | zero => cases hrun
    | succ fuel =>
      rw [printkLoop_lit (hc ▸ hnul) (hc ▸ hlit)] at hrun
      rw [loneEnd_lit hlit] at hlone
      have hmem := ih hs hlone hrun
      rwa [List.length_cons, show i + (fmt.length + 1) + 1 = i + 1 + fmt.length + 1 by omega]

end Loop

/-! ## Formats that end in `%` -/

def trailingPercents (fmt : List UInt8) : Nat := (fmt.reverse.takeWhile (· == percent)).length

theorem trailingPercents_le (fmt : List UInt8) : trailingPercents fmt ≤ fmt.length := by
  rw [← List.length_reverse]
  exact (List.takeWhile_sublist _).length_le

/-- In front, a character counts where there is nothing but `%` behind it. -/
theorem trailingPercents_cons (c : UInt8) (fmt : List UInt8) :
    trailingPercents (c :: fmt) =
      if c = percent ∧ trailingPercents fmt = fmt.length then fmt.length + 1
      else trailingPercents fmt := by
  unfold trailingPercents
  rw [List.reverse_cons, List.takeWhile_append, List.length_reverse]
  by_cases hall : (fmt.reverse.takeWhile (· == percent)).length = fmt.length
  · rw [if_pos hall]
    by_cases hc : c = percent
    · rw [if_pos ⟨hc, hall⟩, List.takeWhile_cons_of_pos (by simpa using hc), List.length_append,
        List.length_reverse]
      rfl
    · rw [if_neg fun h => hc h.1, List.takeWhile_cons_of_neg (by simpa using hc), hall,
        List.append_nil, List.length_reverse]
  · rw [if_neg hall, if_neg fun h => hall h.2]

theorem loneEnd_iff (fmt : List UInt8) : loneEnd fmt = true ↔ trailingPercents fmt % 2 = 1 := by
  induction fmt using loneEnd.induct with
  | case1 => decide
  | case2 => decide
  | case3 c fmt ih =>
    have hle := trailingPercents_le fmt
    rw [loneEnd_percent, ih, trailingPercents_cons, trailingPercents_cons, List.length_cons]
    by_cases hall : c = percent ∧ trailingPercents fmt = fmt.length
    · -- Two more at the end.
      rw [if_pos hall, if_pos ⟨rfl, rfl⟩, hall.2]
      omega
    · rw [if_neg hall, if_neg fun h => by omega]
  | case4 c fmt hlit ih =>
    rw [loneEnd_lit hlit, ih, trailingPercents_cons, if_neg fun h => hlit h.1]

/-! ## `printk` -/

/-- The call returns, having printed the text, used up the arguments and looked at nothing behind
the NUL. -/
def PrintkFollows (s : Nat → UInt8) (fmt : List UInt8) (args : List Arg) (text : List UInt8) :
    Prop :=
  ∃ fuel st, printk s fuel args = some st ∧ st.out = text ∧ st.args = [] ∧
    ∀ j ∈ st.reads, j ≤ fmt.length

/-- **When `printk` follows its format**: when an even number of `%` is at its end. -/
theorem printk_follows_iff {s : Nat → UInt8} {fmt : List UInt8} {args : List Arg}
    {text : List UInt8} (hs : StringAt s 0 fmt) (htext : expand fmt args = some text) :
    PrintkFollows s fmt args text ↔ trailingPercents fmt % 2 = 0 := by
  have hlone := loneEnd_iff fmt
  constructor
  · rintro ⟨fuel, st, hrun, _, _, hreads⟩
    by_contra hodd
    have hread := printkLoop_lone hs (hlone.mpr (by omega)) hrun
    have hbound := hreads _ hread
    omega
  · intro heven
    have hends : loneEnd fmt = false := by
      rw [Bool.eq_false_iff, Ne, hlone]
      omega
    obtain ⟨st, hrun, hout, hargs, hreads⟩ :=
      @printkLoop_expand s fmt _ 0 args [] text [] (Nat.lt_succ_self _) hs htext hends
    refine ⟨_, st, hrun, hout, hargs, fun j hj => ?_⟩
    rcases hreads j hj with hj | hj
    · cases hj
    · rwa [Nat.zero_add] at hj

/-- `"%d%%"`, with 42. -/
theorem printk_follows_42 :
    PrintkFollows (fun i => [37, 100, 37, 37].getD i 0) [37, 100, 37, 37] [.int 42] [52, 50, 37] := by
  have hs : StringAt (fun i => [37, 100, 37, 37].getD i 0) 0 [37, 100, 37, 37] :=
    ⟨rfl, by decide, rfl, by decide, rfl, by decide, rfl, by decide, rfl⟩
  exact (printk_follows_iff hs (by decide)).mpr (by decide)

/-- `"5%"`, and then the text `"no"`, which happens to be behind it in memory: `printk` goes on
to that. -/
theorem printk_past_end :
    ¬ PrintkFollows (fun i => [53, 37, 0, 110, 111].getD i 0) [53, 37] [] [53, 37] ∧
      ((printk (fun i => [53, 37, 0, 110, 111].getD i 0) 5 []).map Scan.out) =
        some [53, 0, 110, 111] := by
  refine ⟨?_, by decide⟩
  rintro ⟨fuel, st, hrun, _, _, hreads⟩
  have hs : StringAt (fun i => [53, 37, 0, 110, 111].getD i 0) 0 [53, 37] :=
    ⟨rfl, by decide, rfl, by decide, rfl⟩
  have hread := printkLoop_lone hs rfl hrun
  exact absurd (hreads _ hread) (by decide)

end ScratchOs.Libc
