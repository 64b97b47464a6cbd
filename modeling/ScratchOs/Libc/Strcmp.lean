import ScratchOs.Libc.Printk

/-!
# `strcmp`

`libc/string.cpp`. The loop looks for the NUL in the first string only, and it compares `char`,
which is signed, where what is returned is a difference of unsigned bytes. `strcmp_orders` says
that this is the order of the strings as lists of bytes all the same, and that neither is read
behind its NUL.

Both strings are memory from an address on, and not lists: a NUL in the first one ends the loop, and
one in the second does so only because it differs from what is in the first. That the second is not
overrun is a consequence of the comparison and not of a test, and it is what the record of what has
been looked at is kept for.
-/

set_option autoImplicit false

namespace ScratchOs.Libc

/-- How far the two pointers have come, and what has been looked at behind each. -/
structure Comparison where
  i : Nat
  reads1 : List Nat
  reads2 : List Nat

/-- `while (*s1 && (*s1 == *s2))`. Two `char` are equal when they are as bytes. -/
def strcmpLoop (s1 s2 : Nat → UInt8) : Nat → Comparison → Option Comparison
  | 0, _ => none
  | fuel + 1, st =>
    if s1 st.i = 0 then some { st with reads1 := st.reads1 ++ [st.i] }
    else if s1 st.i = s2 st.i then
      strcmpLoop s1 s2 fuel ⟨st.i + 1, st.reads1 ++ [st.i], st.reads2 ++ [st.i]⟩
    else some ⟨st.i, st.reads1 ++ [st.i], st.reads2 ++ [st.i]⟩

/-- `int strcmp(char* s1, char* s2)`, `s1` and `s2` being the memory from the strings on. -/
def strcmp (s1 s2 : Nat → UInt8) (fuel : Nat) : Option (Int × Comparison) := do
  let st ← strcmpLoop s1 s2 fuel ⟨0, [], []⟩
  some ((s1 st.i).toNat - (s2 st.i).toNat, ⟨st.i, st.reads1 ++ [st.i], st.reads2 ++ [st.i]⟩)

/-- The sign is the order of the strings, byte by byte. -/
structure Orders (v : Int) (xs ys : List UInt8) : Prop where
  equal : v = 0 ↔ xs = ys
  before : v < 0 ↔ xs < ys
  after : 0 < v ↔ ys < xs

/-- The call returns `v`, having looked at nothing behind the NULs. -/
def Compares (s1 s2 : Nat → UInt8) (xs ys : List UInt8) (v : Int) : Prop :=
  ∃ st, (∀ fuel, xs.length < fuel → strcmp s1 s2 fuel = some (v, st)) ∧
    (∀ i ∈ st.reads1, i ≤ xs.length) ∧ ∀ i ∈ st.reads2, i ≤ ys.length

/-! ## Where the comparison ends -/

theorem orders_nil : Orders 0 [] [] :=
  ⟨iff_of_true rfl rfl, iff_of_false (Int.lt_irrefl 0) (List.not_lt_nil []),
    iff_of_false (Int.lt_irrefl 0) (List.not_lt_nil [])⟩

/-- The first string is a prefix of the second. -/
theorem orders_prefix {y : UInt8} (hy : y ≠ 0) (ys : List UInt8) :
    Orders ((0 : UInt8).toNat - y.toNat) [] (y :: ys) := by
  have hpos : 0 < y.toNat := UInt8.pos_iff_ne_zero.mpr hy
  refine ⟨iff_of_false ?_ (List.cons_ne_nil y ys).symm, iff_of_true ?_ (List.nil_lt_cons y ys),
    iff_of_false ?_ (List.not_lt_nil _)⟩
  all_goals
    rw [UInt8.toNat_zero]
    omega

/-- The second string is a prefix of the first. -/
theorem orders_longer {x : UInt8} (hx : x ≠ 0) (xs : List UInt8) :
    Orders (x.toNat - (0 : UInt8).toNat) (x :: xs) [] := by
  have hpos : 0 < x.toNat := UInt8.pos_iff_ne_zero.mpr hx
  refine ⟨iff_of_false ?_ (List.cons_ne_nil x xs), iff_of_false ?_ (List.not_lt_nil _),
    iff_of_true ?_ (List.nil_lt_cons x xs)⟩
  all_goals
    rw [UInt8.toNat_zero]
    omega

/-- The strings differ in their first characters. -/
theorem orders_differ {x y : UInt8} (h : x ≠ y) (xs ys : List UInt8) :
    Orders (x.toNat - y.toNat) (x :: xs) (y :: ys) := by
  have hne : x.toNat ≠ y.toNat := fun heq => h (UInt8.toNat_inj.mp heq)
  refine ⟨?_, ?_, ?_⟩
  · exact iff_of_false (by omega) fun heq => h (List.cons.inj heq).1
  · rw [List.cons_lt_cons_iff, UInt8.lt_iff_toNat_lt]
    exact ⟨fun hlt => Or.inl (by omega), fun hlt => hlt.elim (by omega) fun heq => absurd heq.1 h⟩
  · rw [List.cons_lt_cons_iff, UInt8.lt_iff_toNat_lt]
    exact ⟨fun hlt => Or.inl (by omega),
      fun hlt => hlt.elim (by omega) fun heq => absurd heq.1.symm h⟩

/-- Strings with the same first character are in the order of their rests. -/
theorem Orders.cons {v : Int} {xs ys : List UInt8} (h : Orders v xs ys) (x : UInt8) :
    Orders v (x :: xs) (x :: ys) := by
  have hcons (as bs : List UInt8) : x :: as < x :: bs ↔ as < bs := by
    rw [List.cons_lt_cons_iff]
    exact ⟨fun hlt => hlt.elim (fun hx => absurd hx (UInt8.lt_irrefl x)) And.right,
      fun hlt => Or.inr ⟨rfl, hlt⟩⟩
  refine ⟨?_, ?_, ?_⟩
  · rw [h.equal, List.cons.injEq]
    exact ⟨fun heq => ⟨rfl, heq⟩, And.right⟩
  · rw [h.before, hcons]
  · rw [h.after, hcons]

theorem reads_append {reads : List Nat} {n i : Nat} (h : ∀ j ∈ reads, j ≤ n) (hi : i ≤ n) :
    ∀ j ∈ reads ++ [i], j ≤ n := by
  intro j hj
  rcases List.mem_append.mp hj with hj | hj
  · exact h j hj
  · rw [List.mem_singleton.mp hj]
    exact hi

section Loop

variable {s1 s2 : Nat → UInt8} {n1 n2 : Nat}

/-- The loop over what is left of the strings, which end at `n1` and `n2`. The first character that
differs, or the first NUL, decides. -/
theorem strcmpLoop_orders {xs : List UInt8} : ∀ {ys : List UInt8} {i : Nat}
    {reads1 reads2 : List Nat}, StringAt s1 i xs → StringAt s2 i ys →
    i + xs.length = n1 → i + ys.length = n2 → (∀ j ∈ reads1, j ≤ n1) → (∀ j ∈ reads2, j ≤ n2) →
    ∃ st, (∀ fuel, xs.length < fuel → strcmpLoop s1 s2 fuel ⟨i, reads1, reads2⟩ = some st) ∧
      Orders ((s1 st.i).toNat - (s2 st.i).toNat) xs ys ∧ st.i ≤ n1 ∧ st.i ≤ n2 ∧
      (∀ j ∈ st.reads1, j ≤ n1) ∧ ∀ j ∈ st.reads2, j ≤ n2 := by
  induction xs with
  | nil =>
    intro ys i reads1 reads2 hxs hys hn1 hn2 hreads1 hreads2
    have hnul : s1 i = 0 := hxs
    have hi1 : i ≤ n1 := by omega
    have hi2 : i ≤ n2 := by omega
    refine ⟨⟨i, reads1 ++ [i], reads2⟩, fun fuel hfuel => ?_, ?_, hi1, hi2,
      reads_append hreads1 hi1, hreads2⟩
    · obtain ⟨fuel, rfl⟩ := Nat.exists_eq_add_one_of_ne_zero (Nat.ne_of_gt hfuel)
      rw [strcmpLoop, if_pos hnul]
    · cases ys with
      | nil =>
        rw [hnul, show s2 i = 0 from hys]
        exact orders_nil
      | cons y ys =>
        rw [hnul, hys.1]
        exact orders_prefix hys.2.1 ys
  | cons x xs ih =>
    intro ys i reads1 reads2 hxs hys hn1 hn2 hreads1 hreads2
    obtain ⟨hx, hnul, hxs⟩ := hxs
    rw [List.length_cons] at hn1
    have hi1 : i ≤ n1 := by omega
    have hi2 : i ≤ n2 := by omega
    -- One round, and what becomes of it.
    have hround (fuel : Nat) (hfuel : (x :: xs).length < fuel) :
        strcmpLoop s1 s2 fuel ⟨i, reads1, reads2⟩ =
          if s1 i = s2 i then
            strcmpLoop s1 s2 (fuel - 1) ⟨i + 1, reads1 ++ [i], reads2 ++ [i]⟩
          else some ⟨i, reads1 ++ [i], reads2 ++ [i]⟩ := by
      obtain ⟨fuel, rfl⟩ := Nat.exists_eq_add_one_of_ne_zero (Nat.ne_of_gt (Nat.zero_lt_of_lt hfuel))
      rw [strcmpLoop, if_neg (show s1 i ≠ 0 by rw [hx]; exact hnul)]
      rfl
    by_cases hsame : s1 i = s2 i
    · cases ys with
      | nil => exact absurd (hx.symm.trans (hsame.trans hys)) hnul
      | cons y ys =>
        obtain ⟨hy, _, hys⟩ := hys
        obtain rfl : x = y := hx.symm.trans (hsame.trans hy)
        rw [List.length_cons] at hn2
        obtain ⟨st, hrun, horders, hst⟩ := @ih ys (i + 1) _ _ hxs hys (by omega) (by omega)
          (reads_append hreads1 hi1) (reads_append hreads2 hi2)
        refine ⟨st, fun fuel hfuel => ?_, horders.cons x, hst⟩
        rw [hround fuel hfuel, if_pos hsame]
        rw [List.length_cons] at hfuel
        exact hrun (fuel - 1) (by omega)
    · refine ⟨⟨i, reads1 ++ [i], reads2 ++ [i]⟩, fun fuel hfuel => ?_, ?_, hi1, hi2,
        reads_append hreads1 hi1, reads_append hreads2 hi2⟩
      · rw [hround fuel hfuel, if_neg hsame]
      · cases ys with
        | nil =>
          rw [hx, show s2 i = 0 from hys]
          exact orders_longer hnul xs
        | cons y ys =>
          rw [hx, hys.1] at hsame ⊢
          exact orders_differ hsame xs ys

/-- A call on two strings. -/
theorem strcmp_compares {xs ys : List UInt8} (hxs : StringAt s1 0 xs) (hys : StringAt s2 0 ys) :
    ∃ v, Compares s1 s2 xs ys v ∧ Orders v xs ys := by
  obtain ⟨st, hrun, horders, hi1, hi2, hreads1, hreads2⟩ :=
    @strcmpLoop_orders s1 s2 xs.length ys.length xs ys 0 [] [] hxs hys (Nat.zero_add _)
      (Nat.zero_add _) (fun j hj => nomatch hj) (fun j hj => nomatch hj)
  refine ⟨_, ⟨⟨st.i, st.reads1 ++ [st.i], st.reads2 ++ [st.i]⟩, fun fuel hfuel => ?_,
    reads_append hreads1 hi1, reads_append hreads2 hi2⟩, horders⟩
  rw [strcmp, hrun fuel hfuel]
  rfl

end Loop

theorem Compares.unique {s1 s2 : Nat → UInt8} {xs ys : List UInt8} {v w : Int}
    (hv : Compares s1 s2 xs ys v) (hw : Compares s1 s2 xs ys w) : v = w := by
  obtain ⟨st, hv, _⟩ := hv
  obtain ⟨st', hw, _⟩ := hw
  have hsame := (hv _ (Nat.lt_succ_self _)).symm.trans (hw _ (Nat.lt_succ_self _))
  exact congrArg Prod.fst (Option.some.inj hsame)

theorem Orders.sign {v w : Int} {xs ys : List UInt8} (hv : Orders v xs ys) (hw : Orders w ys xs) :
    v.sign = -w.sign := by
  rcases Int.lt_trichotomy v 0 with hlt | heq | hgt
  · have hpos := hw.after.mpr (hv.before.mp hlt)
    rw [Int.sign_eq_neg_one_of_neg hlt, Int.sign_eq_one_of_pos hpos]
  · have hzero := hw.equal.mpr (hv.equal.mp heq).symm
    rw [heq, hzero]
    rfl
  · have hneg := hw.before.mpr (hv.after.mp hgt)
    rw [Int.sign_eq_one_of_pos hgt, Int.sign_eq_neg_one_of_neg hneg]
    rfl

theorem Orders.trans {u v w : Int} {xs ys zs : List UInt8} (hu : Orders u xs ys)
    (hv : Orders v ys zs) (hw : Orders w xs zs) :
    (u < 0 → v < 0 → w < 0) ∧ (u ≤ 0 → v ≤ 0 → w ≤ 0) := by
  have hlt : u < 0 → v < 0 → w < 0 := fun h h' =>
    hw.before.mpr (List.lt_trans (hu.before.mp h) (hv.before.mp h'))
  refine ⟨hlt, fun h h' => ?_⟩
  rcases Int.lt_or_eq_of_le h with h | h
  · rcases Int.lt_or_eq_of_le h' with h' | h'
    · exact Int.le_of_lt (hlt h h')
    · rw [← hv.equal.mp h'] at hw
      exact Int.le_of_lt (hw.before.mpr (hu.before.mp h))
  · rw [hu.equal.mp h] at hw
    rcases Int.lt_or_eq_of_le h' with h' | h'
    · exact Int.le_of_lt (hw.before.mpr (hv.before.mp h'))
    · exact Int.le_of_eq (hw.equal.mpr (hv.equal.mp h'))

/-- **`strcmp` decides the order of strings.** -/
theorem strcmp_orders {s1 s2 s3 : Nat → UInt8} {xs ys zs : List UInt8} (hxs : StringAt s1 0 xs)
    (hys : StringAt s2 0 ys) (hzs : StringAt s3 0 zs) :
    (∃ v, Compares s1 s2 xs ys v ∧ Orders v xs ys) ∧
      (∀ v w, Compares s1 s2 xs ys v → Compares s2 s1 ys xs w → v.sign = -w.sign) ∧
      ∀ u v w, Compares s1 s2 xs ys u → Compares s2 s3 ys zs v → Compares s1 s3 xs zs w →
        (u < 0 → v < 0 → w < 0) ∧ (u ≤ 0 → v ≤ 0 → w ≤ 0) := by
  have horders {s1 s2 : Nat → UInt8} {xs ys : List UInt8} {v : Int} (hxs : StringAt s1 0 xs)
      (hys : StringAt s2 0 ys) (hv : Compares s1 s2 xs ys v) : Orders v xs ys := by
    obtain ⟨w, hw, horders⟩ := strcmp_compares hxs hys
    rw [hv.unique hw]
    exact horders
  refine ⟨strcmp_compares hxs hys, fun v w hv hw => ?_, fun u v w hu hv hw => ?_⟩
  · exact (horders hxs hys hv).sign (horders hys hxs hw)
  · exact (horders hxs hys hu).trans (horders hys hzs hv) (horders hxs hzs hw)

/-- `"a"` and `"b"`, and a string with a byte above 127. -/
theorem strcmp_orders_ab :
    (∃ v, Compares (fun i => [97].getD i 0) (fun i => [98].getD i 0) [97] [98] v ∧
      Orders v [97] [98]) ∧
      (∀ v w, Compares (fun i => [97].getD i 0) (fun i => [98].getD i 0) [97] [98] v →
        Compares (fun i => [98].getD i 0) (fun i => [97].getD i 0) [98] [97] w →
          v.sign = -w.sign) ∧
      ∀ u v w, Compares (fun i => [97].getD i 0) (fun i => [98].getD i 0) [97] [98] u →
        Compares (fun i => [98].getD i 0) (fun i => [98, 200].getD i 0) [98] [98, 200] v →
        Compares (fun i => [97].getD i 0) (fun i => [98, 200].getD i 0) [97] [98, 200] w →
          (u < 0 → v < 0 → w < 0) ∧ (u ≤ 0 → v ≤ 0 → w ≤ 0) :=
  strcmp_orders ⟨rfl, by decide, rfl⟩ ⟨rfl, by decide, rfl⟩
    ⟨rfl, by decide, rfl, by decide, rfl⟩

end ScratchOs.Libc
