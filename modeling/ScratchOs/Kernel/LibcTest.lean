import ScratchOs.Kernel.Shell
import ScratchOs.Mem.Pmm

/-!
# The tests behind `test`

`tests/libc_test.cpp`. The test of the frame allocator frees one of the two frames that it has
allocated and allocates a third, which is the first again. It passes where there is no memory left
too, and what it has allocated it does not give back.

A test that passes says something when it could have failed. `test_memory` compares addresses that
`pmm_alloc_page` has answered with, and 0 is such an answer: with no frame left all three are 0 and
the comparison it makes holds. That is why the result is for every state of the allocator, and why
it says what a run of the tests costs and not only that they pass.
-/

set_option autoImplicit false

namespace ScratchOs.Kernel

open ScratchOs.Libc ScratchOs.Mem

/-- Text on the text screen, or on the console. No format has a conversion in it. -/
inductive Report
  | print (text : List UInt8)
  | printk (text : List UInt8)
deriving DecidableEq

def verdict (name : String) (ok : Bool) : Report :=
  .printk (chars "  " ++ chars name ++ if ok then chars ": OK\n" else chars ": FAIL\n")

/-- `strcmp(s1, s2) == 0`, of two texts. -/
def sameText (s1 s2 : List UInt8) : Bool :=
  (strcmp (memoryOf s1) (memoryOf s2) (s1.length + 1)).map Prod.fst = some 0

/-- `void test_string()` -/
def testString : List Report :=
  [.printk (chars "\nTesting String Lib...\n"),
    verdict "len" (len (memoryOf (chars "hello")) 6 == 5),
    verdict "strcmp" (sameText (chars "abc") (chars "abc") && !sameText (chars "abc") (chars "abd")),
    verdict "int2String" (sameText (int2String 123) (chars "123"))]

/-- `void test_memory()` -/
def testMemory (s : Pmm) : List Report × Pmm :=
  let (page1, s) := pmmAllocPage s
  let (_, s) := pmmAllocPage s
  let s := pmmFreePage s page1
  let (page3, s) := pmmAllocPage s
  ([.printk (chars "\nTesting PMM...\n"), verdict "PMM" (page1 == page3)], s)

/-- `void run_libc_tests()` -/
def runLibcTests (s : Pmm) : List Report × Pmm :=
  ([.print (chars "--- Running LibC Tests ---\n")] ++ testString ++ (testMemory s).1 ++
    [.print (chars "--- Tests Finished ---\n")], (testMemory s).2)

/-- The command, entered `n` times. -/
def runTests : Nat → Pmm → List (List Report) × Pmm
  | 0, s => ([], s)
  | n + 1, s =>
    let (report, s) := runLibcTests s
    let (reports, s) := runTests n s
    (report :: reports, s)

/-! ## The frames -/

/-- The free frames are read off `taken`; how the bitmap came to be so does not matter. -/
theorem freeFrames_congr {s t : Pmm} (hscanned : s.scanned = t.scanned)
    (htaken : ∀ f, s.taken f = t.taken f) : s.freeFrames = t.freeFrames := by
  rw [Pmm.freeFrames, Pmm.freeFrames, hscanned]
  exact List.filter_congr fun f _ => by rw [htaken]

/-- Wherever in the list the frame is. -/
theorem freeFrames_take_filter (s : Pmm) (g : Nat) :
    (s.take g).freeFrames = s.freeFrames.filter (· ≠ g) := by
  rw [Pmm.freeFrames, Pmm.freeFrames, List.filter_filter]
  refine List.filter_congr fun f _ => ?_
  rw [Pmm.taken_take]
  by_cases hfg : f = g
  · simp [hfg]
  · simp [hfg]

/-- One frame is taken and freed, and others were taken in between. -/
theorem freeFrames_freed {s : Pmm} {f : Nat} (hzero : f ≠ 0) (hf : f ∈ s.freeFrames) (t : Pmm)
    (hmax : t.maxFrames = s.maxFrames) (htaken : ∀ x, x ≠ f → t.taken x = s.taken x) :
    (pmmFreePage t (f * pageSize)).freeFrames = s.freeFrames := by
  obtain ⟨hlt, hfree⟩ := Pmm.mem_freeFrames.mp hf
  have hbound : f < t.maxFrames := by
    rw [hmax]
    exact Nat.lt_of_lt_of_le hlt s.scanned_le
  apply freeFrames_congr
  · rw [Pmm.scanned, Pmm.scanned, maxFrames_pmmFreePage, hmax]
  · intro x
    rw [taken_pmmFreePage hzero hbound]
    by_cases hx : x = f
    · simp [hx, hfree]
    · simp [hx, htaken x hx]

/-- **The allocator's test**: it passes, and two frames are gone, or as many as there were.

`test_memory` allocates `page1` and `page2`, frees `page1` and allocates `page3`; it frees neither
`page2` nor `page3`. First fit gives the lowest frame, so that `page3` is `page1` again. The cases
are the free frames there are: none, where both are 0 and the test passes all the same, one, and
more. -/
theorem testMemory_eq {s : Pmm} (hzero : 0 ∉ s.freeFrames) :
    (testMemory s).1 = [.printk (chars "\nTesting PMM...\n"), verdict "PMM" true] ∧
      (testMemory s).2.freeFrames = s.freeFrames.drop 2 := by
  unfold testMemory
  cases hfree : s.freeFrames with
  | nil =>
    -- Every call fails, and `pmm_free_page(0)` does nothing.
    have hfail : pmmAllocPage s = (0, s) := by rw [pmmAllocPage_eq, hfree]
    have hkeep : pmmFreePage s 0 = s := by
      rw [pmmFreePage, if_pos (pmmFreeRejects_iff.mpr (Or.inl rfl))]
    simp only [hfail, hkeep]
    exact ⟨rfl, hfree⟩
  | cons f rest =>
    have hf : f ∈ s.freeFrames := hfree ▸ List.mem_cons_self
    have hne : f ≠ 0 := fun h => hzero (h ▸ hf)
    have hfirst : pmmAllocPage s = (f * pageSize, s.take f) := by rw [pmmAllocPage_eq, hfree]
    have hrest := Pmm.freeFrames_take hfree
    cases rest with
    | nil =>
      -- `page2` is 0, and the only frame comes back as `page3`.
      have hsecond : pmmAllocPage (s.take f) = (0, s.take f) := by rw [pmmAllocPage_eq, hrest]
      have hagain := freeFrames_freed hne hf (s.take f) rfl fun x hx => by
        rw [Pmm.taken_take, decide_eq_false hx, Bool.false_or]
      rw [hfree] at hagain
      have hthird : pmmAllocPage (pmmFreePage (s.take f) (f * pageSize)) =
          (f * pageSize, (pmmFreePage (s.take f) (f * pageSize)).take f) := by
        rw [pmmAllocPage_eq, hagain]
      simp only [hfirst, hsecond, hthird, beq_self_eq_true]
      exact ⟨trivial, Pmm.freeFrames_take hagain⟩
    | cons g rest =>
      have hsecond : pmmAllocPage (s.take f) = (g * pageSize, (s.take f).take g) := by
        rw [pmmAllocPage_eq, hrest]
      -- With `page1` freed the list is as it was, without `page2`.
      have hnodup := s.freeFrames_nodup
      rw [hfree, List.nodup_cons, List.nodup_cons] at hnodup
      have hfg : f ≠ g := fun h => hnodup.1 (h ▸ List.mem_cons_self)
      have hleft : (s.take g).freeFrames = f :: rest := by
        rw [freeFrames_take_filter, hfree, List.filter_cons_of_pos (by simpa using hfg),
          List.filter_cons_of_neg (by simp), List.filter_eq_self.mpr]
        intro x hx
        have hxg : x ≠ g := fun h => hnodup.2.1 (h ▸ hx)
        simpa using hxg
      have hagain := freeFrames_freed (s := s.take g) hne (hleft ▸ List.mem_cons_self)
        ((s.take f).take g) rfl fun x hx => by
          rw [Pmm.taken_take, Pmm.taken_take, Pmm.taken_take, decide_eq_false hx, Bool.false_or]
      rw [hleft] at hagain
      have hthird : pmmAllocPage (pmmFreePage ((s.take f).take g) (f * pageSize)) =
          (f * pageSize, (pmmFreePage ((s.take f).take g) (f * pageSize)).take f) := by
        rw [pmmAllocPage_eq, hagain]
      simp only [hfirst, hsecond, hthird, beq_self_eq_true]
      exact ⟨trivial, Pmm.freeFrames_take hagain⟩

/-- What the command prints. -/
def passed : List Report :=
  [.print (chars "--- Running LibC Tests ---\n"), .printk (chars "\nTesting String Lib...\n"),
    .printk (chars "  len: OK\n"), .printk (chars "  strcmp: OK\n"),
    .printk (chars "  int2String: OK\n"), .printk (chars "\nTesting PMM...\n"),
    .printk (chars "  PMM: OK\n"), .print (chars "--- Tests Finished ---\n")]

/-- **The tests cannot fail, and each run of them costs two frames**, until there are none left:
then they still pass. By induction on the runs; that frame 0 is taken is what a run needs to find,
and what it leaves. -/
theorem tests_pass_and_leak {s : Pmm} (hzero : 0 ∉ s.freeFrames) (n : Nat) :
    (runTests n s).1 = List.replicate n passed ∧
      (runTests n s).2.freeFrames = s.freeFrames.drop (2 * n) := by
  induction n generalizing s with
  | zero => exact ⟨rfl, rfl⟩
  | succ n ih =>
    obtain ⟨hreport, hfree⟩ := testMemory_eq hzero
    have hpassed : (runLibcTests s).1 = passed := by
      rw [runLibcTests, hreport]
      show [.print (chars "--- Running LibC Tests ---\n")] ++ testString ++
        [.printk (chars "\nTesting PMM...\n"), verdict "PMM" true] ++
          [.print (chars "--- Tests Finished ---\n")] = passed
      decide
    have hleft : (runLibcTests s).2.freeFrames = s.freeFrames.drop 2 := hfree
    obtain ⟨hreports, hrest⟩ := ih (s := (runLibcTests s).2) fun h =>
      hzero (List.mem_of_mem_drop (hleft ▸ h))
    refine ⟨?_, ?_⟩
    · show (runLibcTests s).1 :: (runTests n (runLibcTests s).2).1 = _
      rw [hpassed, hreports]
      rfl
    · show (runTests n (runLibcTests s).2).2.freeFrames = _
      rw [hrest, hleft, List.drop_drop, Nat.mul_succ, Nat.add_comm 2]

/-- 928 frames are free at first; after 1000 runs none is. -/
theorem tests_pass_and_leak_thousand :
    (runTests 1000 (thousandFrames 2)).1 = List.replicate 1000 passed ∧
      (runTests 1000 (thousandFrames 2)).2.freeFrames = [] := by
  have hzero : 0 ∉ (thousandFrames 2).freeFrames := fun h =>
    absurd (Pmm.mem_freeFrames.mp h).2 (by decide)
  obtain ⟨hreports, hfree⟩ := tests_pass_and_leak hzero 1000
  refine ⟨hreports, ?_⟩
  rw [hfree, List.drop_eq_nil_iff]
  have hle : (thousandFrames 2).freeFrames.length ≤ (List.range (thousandFrames 2).scanned).length :=
    List.length_filter_le _ _
  rw [List.length_range] at hle
  exact Nat.le_trans hle (by decide)

end ScratchOs.Kernel
