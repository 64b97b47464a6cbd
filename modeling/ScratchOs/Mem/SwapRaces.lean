import Mathlib.Data.UInt
import Mathlib.Logic.Relation
import ScratchOs.Mem.DoubleBuffer

/-!
# Swaps inside swaps

`kernel_main` swaps the buffers in its loop and `keyboard_handler` does before it returns, so a
swap can be interrupted by another one, between any two bytes and between the load of a byte and
its store. A byte that was loaded before the interrupt is stored after it, over a newer one.
`swaps_interrupted` says how much of the screen that spoils: no more bytes than there are swaps
inside each other. What is swapped without another swap coming in between is right.

The bound is not the number of interrupts. A handler that comes in, swaps and returns leaves the
screen newer than the task below it knows, and that task has one byte in hand; it spoils that one
and goes on to copy newer bytes than it would have. A second handler at a later byte spoils another
one, but what it swaps repairs the first. Only swaps that are inside each other add up, each with a
byte of its own in hand. That is what `nested` counts, and why the invariant speaks of every task
that waits and not only of the one that runs.

A stale byte is one that differs from the buffer as it is now, not as it was when the swap began:
the buffer may be drawn in while a swap waits, and what counts is what is seen in the end.
-/

set_option autoImplicit false

namespace ScratchOs.Mem

open AddressSpace Bits FreeList Boot

/-! ## What is wrong on a screen -/

/-- How many of the first `n` bytes on the screen are not those of the buffer. -/
def DoubleBuffer.stale (b : DoubleBuffer) (n : Nat) : Nat :=
  (List.range n).countP fun i => b.front i ≠ b.back i

section Stale

variable {b : DoubleBuffer} {m n : Nat}

theorem DoubleBuffer.stale_succ (b : DoubleBuffer) (n : Nat) :
    b.stale (n + 1) = b.stale n + if b.front n = b.back n then 0 else 1 := by
  rw [stale, List.range_succ, List.countP_append, List.countP_singleton, stale]
  by_cases h : b.front n = b.back n
  · rw [if_pos h, if_neg (by simp [h])]
  · rw [if_neg h, if_pos (by simp [h])]

/-- More bytes, no fewer wrong ones. -/
theorem DoubleBuffer.stale_mono (b : DoubleBuffer) (h : m ≤ n) : b.stale m ≤ b.stale n :=
  (List.range_sublist.mpr h).countP_le

/-- Storing byte `n` leaves those below: one more byte is looked at, and it is right or it is not.
-/
theorem DoubleBuffer.stale_store (b : DoubleBuffer) (n : Nat) (v : UInt8) :
    DoubleBuffer.stale { b with front := Function.update b.front n v } (n + 1) =
      b.stale n + if v = b.back n then 0 else 1 := by
  rw [stale_succ]
  congr 1
  · refine List.countP_congr fun i hi => ?_
    have hne : i ≠ n := Nat.ne_of_lt (List.mem_range.mp hi)
    simp only [Function.update_of_ne hne]
  · simp only [Function.update_self]

/-- Where it is known which bytes are wrong. -/
theorem DoubleBuffer.stale_eq (h : ∀ i < n, b.front i ≠ b.back i ↔ i < m) :
    b.stale n = min n m := by
  induction n with
  | zero => exact (Nat.zero_min m).symm
  | succ n ih =>
    have hn := h n (Nat.lt_succ_self n)
    rw [stale_succ, ih fun i hi => h i (Nat.lt_succ_of_lt hi)]
    by_cases hlt : n < m
    · rw [if_neg (hn.mpr hlt)]
      omega
    · rw [if_pos (not_not.mp fun hne => hlt (hn.mp hne))]
      omega

end Stale

/-- How many bytes of the card's memory are not those of `video_buffer`. -/
def wrongBytes (fb videoBuffer size : Nat) (k : Kernel) : Nat :=
  (List.range size).countP fun i =>
    load8 k (videoBuffer + i) ≠ some (k.mem (windowAddr fb (videoVrtAddr + i)))

/-- What is counted on the machine is what is wrong with its double buffer. -/
theorem Displays.wrongBytes {fb videoBuffer size : Nat} {k : Kernel} {b : DoubleBuffer}
    (h : Displays fb videoBuffer size k b) :
    wrongBytes fb videoBuffer size k = b.stale size := by
  refine List.countP_congr fun i hi => ?_
  have hi := List.mem_range.mp hi
  rw [h.back i hi, h.front i hi, decide_eq_true_iff, decide_eq_true_iff, ne_eq, ne_eq,
    Option.some.injEq, eq_comm]

/-! ## Who swaps -/

/-- Where `kernel_main` is, or a `keyboard_handler` that has not returned: at what it does between
its swaps, or in the loop of `memcpy`, with `s[i]` loaded or not. `nested` counts how many swaps
have been inside this one and inside each other. -/
inductive Task
  | drawing
  | swapping (i : Nat) (hand : Option UInt8) (nested : Nat)

/-- After a swap inside it, or before its own, which had `nested` swaps inside. -/
def Task.resumed (nested : Nat) : Task → Task
  | .drawing => .drawing
  | .swapping i hand n => .swapping i hand (max n (nested + 1))

/-- `kernel_main` is the last of the tasks, and the others have come in one into the other. -/
structure ScreenState where
  heap : Heap Kernel
  live : List (Nat × Nat)
  interruptFlag : Bool
  running : Task
  suspended : List Task

/-- One step of the kernel's. Between swaps, anything that `ScreenRun` has but a swap, and
`console_put_char` clears and sets the interrupt flag; calls of the heap are one step, since no
handler comes near it. -/
inductive ScreenStep (videoBuffer size : Nat) : ScreenState → ScreenState → Prop
  | interrupt {s : ScreenState} (hflag : s.interruptFlag = true) :
      ScreenStep videoBuffer size s
        { s with
          interruptFlag := false
          running := .drawing
          suspended := s.running :: s.suspended }
  | work {s : ScreenState} {ds : List Drawing} {h : Heap Kernel} {live : List (Nat × Nat)}
      (flag : Bool) (hat : s.running = .drawing) (hds : Drawing.swap ∉ ds)
      (hrun : ScreenRun videoBuffer size s.heap s.live ds h live) :
      ScreenStep videoBuffer size s { s with heap := h, live := live, interruptFlag := flag }
  | call {s : ScreenState} (hat : s.running = .drawing) :
      ScreenStep videoBuffer size s { s with running := .swapping 0 none 0 }
  | load {s : ScreenState} {i nested : Nat} {v : UInt8} (hat : s.running = .swapping i none nested)
      (hi : i < size) (hload : load8 s.heap.machine (videoBuffer + i) = some v) :
      ScreenStep videoBuffer size s { s with running := .swapping i (some v) nested }
  | store {s : ScreenState} {i nested : Nat} {v : UInt8} {k : Kernel}
      (hat : s.running = .swapping i (some v) nested)
      (hstore : store8 s.heap.machine (videoVrtAddr + i) v = some k) :
      ScreenStep videoBuffer size s
        { s with heap := { s.heap with machine := k }, running := .swapping (i + 1) none nested }
  | loop {s : ScreenState} {nested : Nat} (hat : s.running = .swapping size none nested)
      (hmain : s.suspended = []) : ScreenStep videoBuffer size s { s with running := .drawing }
  | iret {s : ScreenState} {nested : Nat} {t : Task} {ts : List Task}
      (hat : s.running = .swapping size none nested) (hsuspended : s.suspended = t :: ts) :
      ScreenStep videoBuffer size s
        { s with interruptFlag := true, running := t.resumed nested, suspended := ts }

abbrev ScreenSteps (videoBuffer size : Nat) : ScreenState → ScreenState → Prop :=
  Relation.ReflTransGen (ScreenStep videoBuffer size)

/-- How far a task can have got, whether it runs or waits. -/
def Task.Inside (size : Nat) : Task → Prop
  | .drawing => True
  | .swapping i none _ => i ≤ size
  | .swapping i (some _) _ => i < size

/-- How much the task that runs has got wrong: of the bytes a swap has copied, no more differ from
the back buffer than swaps have run inside it. A byte that is loaded and not stored counts as
copied. -/
def Task.Holds (size : Nat) (b : DoubleBuffer) : Task → Prop
  | .drawing => True
  | .swapping i none nested => i ≤ size ∧ b.stale i ≤ nested
  | .swapping i (some v) nested =>
    i < size ∧ b.stale i + (if v = b.back i then 0 else 1) ≤ nested

/-- A task that is interrupted gives up all but how far it is: while it waits, its bytes may be
drawn anew and the screen may be swapped by others. -/
theorem Task.Holds.inside {size : Nat} {b : DoubleBuffer} {t : Task} (h : t.Holds size b) :
    t.Inside size := by
  cases t with
  | drawing => trivial
  | swapping i hand nested =>
    cases hand with
    | none => exact h.1
    | some v => exact h.1

/-- The swap inside has copied all bytes; one more is in hand. So a task that goes on has as many
bytes wrong as the swap inside left, whatever there was wrong before, and the old byte that it is
about to store is the one more that `nested` counts. -/
theorem Task.Inside.resumed {size nested : Nat} {b : DoubleBuffer} {t : Task}
    (h : t.Inside size) (hend : b.stale size ≤ nested) : (t.resumed nested).Holds size b := by
  cases t with
  | drawing => trivial
  | swapping i hand n =>
    cases hand with
    | none =>
      have hi : i ≤ size := h
      have hle := b.stale_mono hi
      exact ⟨hi, by omega⟩
    | some v =>
      have hi : i < size := h
      have hle := b.stale_mono hi.le
      refine ⟨hi, ?_⟩
      split
      · omega
      · omega

section

variable {fb videoBuffer size : Nat} {F : Nat → Option Nat}

/-- The invariant. There is a double buffer that is displayed, the task that runs holds against it,
and of those that wait it is only known that they are inside. -/
def ScreenState.Ok (fb videoBuffer size : Nat) (F : Nat → Option Nat) (s : ScreenState) : Prop :=
  ∃ b, Screen fb videoBuffer size F b s.heap s.live ∧ s.running.Holds size b ∧
    ∀ t ∈ s.suspended, t.Inside size

/-- One byte of the screen is stored. -/
theorem Screen.store {h : Heap Kernel} {live : List (Nat × Nat)} {b : DoubleBuffer} {i : Nat}
    (hs : Screen fb videoBuffer size F b h live) (hsize : videoVrtAddr + size < 4294967296)
    (hF : WindowShows fb size F) (hi : i < size) (v : UInt8) :
    ∃ k, store8 h.machine (videoVrtAddr + i) v = some k ∧
      Screen fb videoBuffer size F { b with front := Function.update b.front i v }
        { h with machine := k } live := by
  obtain ⟨k, hstore, hshows, ht⟩ :=
    (hs.window hsize hF).store8 (Nat.le_add_right _ i) (Nat.add_lt_add_left hi _) v
  refine ⟨k, hstore, hs.touch ht fun j hj => ?_⟩
  have hshown := hshows.2 (videoVrtAddr + j) (Nat.le_add_right _ _) (Nat.add_lt_add_left hj _)
  refine hshown.trans ?_
  rw [Bytes.store8_apply]
  by_cases hij : j = i
  · rw [if_pos (by rw [hij]), hij, Function.update_self]
  · rw [if_neg (by omega), Function.update_of_ne hij]
    exact hs.displays.front j hj

/-- The step lemma. -/
theorem ScreenStep.ok {s s' : ScreenState} (hsize : videoVrtAddr + size < 4294967296)
    (hF : WindowShows fb size F) (hstep : ScreenStep videoBuffer size s s')
    (hok : s.Ok fb videoBuffer size F) : s'.Ok fb videoBuffer size F := by
  obtain ⟨b, hs, hholds, hinside⟩ := hok
  cases hstep with
  | interrupt hflag =>
    -- A handler begins with work of its own, and the task below waits.
    exact ⟨b, hs, trivial, List.forall_mem_cons.mpr ⟨hholds.inside, hinside⟩⟩
  | work flag hat hds hrun =>
    refine ⟨_, hrun.screen hs hsize hF, ?_, hinside⟩
    show Task.Holds size _ s.running
    rw [hat]
    trivial
  | call hat => exact ⟨b, hs, ⟨Nat.zero_le _, Nat.zero_le _⟩, hinside⟩
  | @load i nested v hat hi hload =>
    rw [hat] at hholds
    -- What is loaded is what the buffer has now.
    have hv : v = b.back i := Option.some.inj (hload.symm.trans (hs.displays.back i hi))
    exact ⟨b, hs, ⟨hi, by rw [if_pos hv]; exact hholds.2⟩, hinside⟩
  | @store i nested v k hat hstore =>
    rw [hat] at hholds
    obtain ⟨hi, hwrong⟩ := hholds
    obtain ⟨k', hstore', hs'⟩ := hs.store hsize hF hi v
    obtain rfl := Option.some.inj (hstore.symm.trans hstore')
    exact ⟨_, hs', ⟨hi, by rw [b.stale_store i v]; exact hwrong⟩, hinside⟩
  | loop hat hmain => exact ⟨b, hs, trivial, hinside⟩
  | @iret nested t ts hat hsuspended =>
    -- The handler's swap is at its end, so its bound is for all bytes.
    rw [hat] at hholds
    rw [hsuspended] at hinside
    obtain ⟨ht, hts⟩ := List.forall_mem_cons.mp hinside
    exact ⟨b, hs, ht.resumed hholds.2, hts⟩

/-- The run lemma. -/
theorem ScreenState.Ok.steps {s s' : ScreenState} (hsize : videoVrtAddr + size < 4294967296)
    (hF : WindowShows fb size F) (hok : s.Ok fb videoBuffer size F)
    (hsteps : ScreenSteps videoBuffer size s s') : s'.Ok fb videoBuffer size F := by
  induction hsteps with
  | refl => exact hok
  | tail _ hstep ih => exact hstep.ok hsize hF ih

/-- No load and no store of a swap can fault: there is a step of the task that runs, wherever it
is. -/
theorem ScreenState.Ok.advances {s : ScreenState} (hsize : videoVrtAddr + size < 4294967296)
    (hF : WindowShows fb size F) (hok : s.Ok fb videoBuffer size F) :
    ∃ s', ScreenStep videoBuffer size s s' ∧ s'.suspended.length ≤ s.suspended.length := by
  obtain ⟨b, hs, hholds, _⟩ := hok
  cases hat : s.running with
  | drawing => exact ⟨_, .call hat, Nat.le_refl _⟩
  | swapping i hand nested =>
    rw [hat] at hholds
    cases hand with
    | some v =>
      obtain ⟨k, hstore, _⟩ := hs.store hsize hF hholds.1 v
      exact ⟨_, .store hat hstore, Nat.le_refl _⟩
    | none =>
      rcases Nat.eq_or_lt_of_le hholds.1 with rfl | hi
      · cases hsuspended : s.suspended with
        | nil => exact ⟨_, .loop hat hsuspended, by rw [hsuspended]⟩
        | cons t ts => exact ⟨_, .iret hat hsuspended, Nat.le_succ _⟩
      · exact ⟨_, .load hat hi (hs.displays.back i hi), Nat.le_refl _⟩

/-! ### How wrong it gets

The bound is attained. So the invariant is not stronger than it has to be, and the remaining
steps of this section are the run that attains it. -/

section Deep

variable {h : Heap Kernel} {live : List (Nat × Nat)} {b : DoubleBuffer} {flag : Bool}
  {ts : List Task}

/-- The loop of `memcpy` when nothing comes in between. By induction on the bytes that are left. -/
theorem copy_steps {nested n : Nat} : ∀ {h : Heap Kernel} {k : Kernel} {i : Nat}, i + n ≤ size →
    copy n (videoVrtAddr + i) (videoBuffer + i) h.machine = some k →
    ScreenSteps videoBuffer size ⟨h, live, flag, .swapping i none nested, ts⟩
      ⟨{ h with machine := k }, live, flag, .swapping (i + n) none nested, ts⟩ := by
  induction n with
  | zero =>
    intro h k i _ hcopy
    obtain rfl := Option.some.inj hcopy
    exact .refl
  | succ n ih =>
    intro h k i hi hcopy
    obtain ⟨v, hload, hcopy⟩ := Option.bind_eq_some_iff.mp hcopy
    obtain ⟨k₁, hstore, hcopy⟩ := Option.bind_eq_some_iff.mp hcopy
    have hbyte : ScreenSteps videoBuffer size ⟨h, live, flag, .swapping i none nested, ts⟩ _ :=
      Relation.ReflTransGen.head (.load rfl (by omega) hload) (.single (.store rfl hstore))
    have hrest := ih (h := { h with machine := k₁ }) (by omega : i + 1 + n ≤ size) hcopy
    rw [Nat.succ_add_eq_add_succ] at hrest
    exact hbyte.trans hrest

/-- `vbe_swap_buffer` is one of its runs. -/
theorem vbeSwapBuffer_steps {k : Kernel}
    (hcall : vbeSwapBuffer videoBuffer size h.machine = some k) :
    ScreenSteps videoBuffer size ⟨h, live, flag, .drawing, ts⟩
      ⟨{ h with machine := k }, live, flag, .swapping size none 0, ts⟩ := by
  have hsteps : ScreenSteps videoBuffer size ⟨h, live, flag, .swapping 0 none 0, ts⟩ _ :=
    copy_steps (Nat.zero_add size).le hcall
  rw [Nat.zero_add] at hsteps
  exact .head (.call rfl) hsteps

/-- From the work between swaps to byte `n`. -/
theorem Screen.begins (hs : Screen fb videoBuffer size F b h live) (flag : Bool) (ts : List Task)
    (hsize : videoVrtAddr + size < 4294967296) (hF : WindowShows fb size F) {n : Nat}
    (hn : n ≤ size) :
    ∃ h' b', ScreenSteps videoBuffer size ⟨h, live, flag, .drawing, ts⟩
        ⟨h', live, true, .swapping n none 0, ts⟩ ∧
      Screen fb videoBuffer size F b' h' live ∧ b'.back = b.back ∧
      ∀ i < n, b'.front i = b'.back i := by
  obtain ⟨k, hcopy, hscreen⟩ := hs.copy hsize hF (i := 0) (n := n) (by omega)
  have hsteps : ScreenSteps videoBuffer size ⟨h, live, true, .swapping 0 none 0, ts⟩ _ :=
    copy_steps (by omega : 0 + n ≤ size) hcopy
  rw [Nat.zero_add] at hsteps
  have hcall : ScreenSteps videoBuffer size ⟨h, live, flag, .drawing, ts⟩ _ :=
    Relation.ReflTransGen.head (.work true rfl List.not_mem_nil .start) (.single (.call rfl))
  exact ⟨_, _, hcall.trans hsteps, hscreen _ fun _ _ => rfl, rfl, fun i hi => if_pos (by omega)⟩

/-- The buffer can be written to. -/
theorem Screen.draws (hs : Screen fb videoBuffer size F b h live) {i : Nat} (hi : i < size)
    (v : UInt8) : ∃ k, store8 h.machine (videoBuffer + i) v = some k := by
  obtain ⟨_, τ, m, bs, hinv, hlive⟩ := hs.heap
  obtain ⟨c, hc, _, hptr, hfits⟩ := hlive.block _ hs.buffer
  have hin := hinv.inside hc
  have hptr : videoBuffer = c.addr + 16 := hptr
  have hfits : size ≤ c.size := hfits
  obtain ⟨k, hk, _⟩ := (hinv.view (screenLaws fb size F h.machine.mem)).store8
    (a := videoBuffer + i) (by omega) (by omega) v
  exact ⟨k, hk⟩

/-- A handler that draws over the byte in hand before it swaps. -/
theorem Screen.overtaken (hs : Screen fb videoBuffer size F b h live) (ts : List Task) {i : Nat}
    (hi : i < size) (v : UInt8) :
    ∃ k, ScreenSteps videoBuffer size ⟨h, live, true, .swapping i none 0, ts⟩
        ⟨{ h with machine := k }, live, true, .drawing, .swapping i (some (b.back i)) 0 :: ts⟩ ∧
      Screen fb videoBuffer size F (b.after (.draw i v)) { h with machine := k } live := by
  obtain ⟨k, hk⟩ := hs.draws hi v
  have hload : ScreenStep videoBuffer size ⟨h, live, true, .swapping i none 0, ts⟩ _ :=
    .load rfl hi (hs.displays.back i hi)
  have hdraw : ScreenRun videoBuffer size h live [.draw i v] { h with machine := k } live :=
    .draw .start hi hk
  exact ⟨k, (Relation.ReflTransGen.head hload (.single (.interrupt rfl))).tail
    (.work true rfl (by simp) hdraw), hs.draw hi hk⟩

/-- **The bound is reached**: each handler draws the byte that is in hand anew, and is interrupted
with the one before in hand. By induction on how deep it goes. The swap at depth `m + 1` is held up
with byte `m` in hand, the run for `m` takes place inside of it, and then it stores its old byte and
copies the rest; the bytes below `m` are behind it and stay as wrong as they were left. -/
theorem Screen.deep (hsize : videoVrtAddr + size < 4294967296) (hF : WindowShows fb size F)
    {m : Nat} : ∀ {h : Heap Kernel} {b : DoubleBuffer} (flag : Bool) (ts : List Task),
    Screen fb videoBuffer size F b h live → m ≤ size →
    ∃ h' b', ScreenSteps videoBuffer size ⟨h, live, flag, .drawing, ts⟩
        ⟨h', live, true, .swapping size none m, ts⟩ ∧
      Screen fb videoBuffer size F b' h' live ∧
      (∀ i < size, b'.front i ≠ b'.back i ↔ i < m) ∧ ∀ i, m ≤ i → b'.back i = b.back i := by
  induction m with
  | zero =>
    intro h b flag ts hs _
    obtain ⟨h', b', hsteps, hs', hback, hfront⟩ := hs.begins flag ts hsize hF (Nat.le_refl size)
    exact ⟨h', b', hsteps, hs', fun i hi => ⟨fun hne => absurd (hfront i hi) hne,
      fun hlt => absurd hlt (Nat.not_lt_zero i)⟩, fun i _ => congrFun hback i⟩
  | succ m ih =>
    intro h b flag ts hs hm
    obtain ⟨h₁, b₁, hsteps₁, hs₁, hback₁, _⟩ := hs.begins flag ts hsize hF (by omega : m ≤ size)
    obtain ⟨k, hsteps₂, hs₂⟩ := hs₁.overtaken ts (by omega : m < size) (b₁.back m + 1)
    obtain ⟨h₃, b₃, hsteps₃, hs₃, hwrong₃, hback₃⟩ := ih _ _ hs₂ (by omega)
    -- Back in the swap, the old byte is stored, and the rest is copied.
    obtain ⟨k₄, hstore, hs₄⟩ := hs₃.store hsize hF (by omega : m < size) (b₁.back m)
    have hend : m + 1 + (size - (m + 1)) = size := Nat.add_sub_of_le hm
    obtain ⟨k₅, hcopy, hscreen₅⟩ := hs₄.copy hsize hF hend.le
    have hsteps₅ : ScreenSteps videoBuffer size
        ⟨_, live, true, .swapping (m + 1) none (m + 1), ts⟩ _ := copy_steps hend.le hcopy
    rw [hend] at hsteps₅
    have hresume : (Task.swapping m (some (b₁.back m)) 0).resumed m =
        .swapping m (some (b₁.back m)) (m + 1) := by
      rw [Task.resumed, Nat.zero_max]
    have hiret : ScreenStep videoBuffer size
        ⟨h₃, live, true, .swapping size none m, .swapping m (some (b₁.back m)) 0 :: ts⟩ _ :=
      .iret rfl rfl
    rw [hresume] at hiret
    refine ⟨_, _, ((((hsteps₁.trans hsteps₂).trans hsteps₃).tail hiret).tail
      (.store rfl hstore)).trans hsteps₅, hscreen₅ _ fun _ _ => rfl, fun i hi => ?_,
      fun i hi => ?_⟩
    · simp only
      rcases Nat.lt_trichotomy i m with hlt | rfl | hgt
      · rw [if_neg (by omega), Function.update_of_ne (by omega), hwrong₃ i hi]
        omega
      · have hnew : (b₁.after (.draw i (b₁.back i + 1))).back i = b₁.back i + 1 :=
          Function.update_self ..
        rw [if_neg (by omega), Function.update_self, hback₃ i (Nat.le_refl i), hnew]
        exact ⟨fun _ => Nat.lt_succ_self i, fun _ => by simp⟩
      · rw [if_pos (by omega)]
        exact ⟨fun hne => absurd rfl hne, fun hlt => absurd hlt (by omega)⟩
    · have hold : (b₁.after (.draw m (b₁.back m + 1))).back i = b₁.back i :=
        Function.update_of_ne (by omega : i ≠ m) ..
      exact (hback₃ i (by omega)).trans (hold.trans (congrFun hback₁ i))

end Deep

end

/-! ## From `vbe_init` on -/

/-- **Races on the screen**: from `vbe_init` on, wherever interrupts come, when a swap ends the
screen has no more wrong bytes than swaps have been inside it and inside each other; without one it
has none. No swap can fault on the way, and the heap stays in order. It is depth that counts and not
number: swaps that come one after the other into the same one each leave the screen right. -/
theorem swaps_interrupted (k₁ : Kernel) (hk : TablesDirect k₁) {h₀ h : Heap Kernel}
    {live₀ : List (Nat × Nat)} {fb pitch height size p : Nat}
    (hleaves : k₁.Leaves (ScreenFrame fb size)) (hrun₀ : HeapReach k₁ h₀ live₀)
    (hlow : h₀.heapLimit ≤ videoVrtAddr) (hfb : fb < 4294967296)
    (hpitch : u32 (pitch * height) = size) (hsize : videoVrtAddr + size < 4294967296)
    (hkeep : MappingsKeepTables h₀.machine (regionMappings videoVrtAddr fb size))
    (hstay : ∀ k, mapRegion h₀.machine videoVrtAddr fb size = some k →
      StaysUnder { h₀ with machine := k } size)
    (hinit : vbeInit h₀ fb pitch height = some (p, h)) (hp : p ≠ 0) {flag : Bool}
    {s : ScreenState}
    (hsteps : ScreenSteps p size ⟨h, (p, size) :: live₀, flag, .drawing, []⟩ s) :
    (∀ nested, s.running = .swapping size none nested →
      wrongBytes fb p size s.heap.machine ≤ nested) ∧
      (∃ s', ScreenStep p size s s' ∧ s'.suspended.length ≤ s.suspended.length) ∧
      ∃ bs, HeapSafe s.heap s.live bs := by
  obtain ⟨F, b₀, hF, hscreen⟩ :=
    vbeInit_screen hk hleaves hrun₀ hlow hfb hpitch hsize hkeep hstay hinit hp
  have hok₀ : ScreenState.Ok fb p size F ⟨h, (p, size) :: live₀, flag, .drawing, []⟩ :=
    ⟨b₀, hscreen, trivial, List.forall_mem_nil _⟩
  have hok := hok₀.steps hsize hF hsteps
  refine ⟨fun nested hat => ?_, hok.advances hsize hF, ?_⟩
  · obtain ⟨b, hs, hholds, _⟩ := hok
    rw [hat] at hholds
    rw [hs.displays.wrongBytes]
    exact hholds.2
  · obtain ⟨b, hs, _⟩ := hok
    exact HeapOk.safe (screenLaws fb size F s.heap.machine.mem) hs.heap

/-- A key that comes between a load and its store leaves one wrong byte. -/
theorem swaps_interrupted_once : ∃ h p s,
    ScreenSteps p 8000 ⟨h, [(p, 8000)], true, .drawing, []⟩ s ∧
      s.running = .swapping 8000 none 1 ∧ wrongBytes 0xFD000000 p 8000 s.heap.machine = 1 ∧
      (∀ nested, s.running = .swapping 8000 none nested →
        wrongBytes 0xFD000000 p 8000 s.heap.machine ≤ nested) := by
  obtain ⟨k₁, h₀, h, hk, hleaves, hreach, hlimit, hkeep, hstay, hinit⟩ := vbeInit_splitMap
  have hlow : h₀.heapLimit ≤ videoVrtAddr := by
    rw [hlimit]
    decide
  have hsize : videoVrtAddr + 8000 < 4294967296 := by decide
  obtain ⟨F, b₀, hF, hscreen⟩ := vbeInit_screen hk hleaves hreach hlow (by decide) (by decide) hsize
    hkeep hstay hinit (by decide)
  obtain ⟨h', b', hsteps, hs', hwrong, _⟩ :=
    Screen.deep hsize hF true [] hscreen (by decide : 1 ≤ 8000)
  have hone : wrongBytes 0xFD000000 0xDFFFE010 8000 h'.machine = 1 := by
    rw [hs'.displays.wrongBytes, DoubleBuffer.stale_eq hwrong]
    rfl
  obtain ⟨hbound, _⟩ := swaps_interrupted k₁ hk hleaves hreach hlow (by decide) (by decide) hsize
    hkeep hstay hinit (by decide) hsteps
  exact ⟨h, _, _, hsteps, rfl, hone, hbound⟩

end ScratchOs.Mem
