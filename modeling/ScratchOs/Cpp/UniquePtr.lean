import ScratchOs.Lib.Ownership
import ScratchOs.Mem.HeapSafety

/-!
# `UniquePtr`

`includes/kernel/cpp/unique_ptr.hpp`. The objects of a program are known by their addresses,
`this`, and all there is to an object is `ptr_`. The rest of the world is what the heap and the
constructor and destructor of `T` work on; they do not touch a `UniquePtr`.

## Who writes the log

The log is not part of the program, and what it is worth depends on who writes it. A pointer that
is handed to an object and one that `release` gives back are noted by these members, null pointers
aside: that is the side of the program that uses the objects, and nothing is called there. What is
done to a pointer in the end is noted by the call that does it. `Calls.destroy` is `~T()` and
`Calls.free` is `kfree`, each with its entry, and no member writes such an entry otherwise. So a
`delete_object` that forgets one of the two, a member that calls it twice, and one that calls it
for `nullptr` all leave a log that `unique_ptr_ownership` excludes.

What the two calls do to the heap is not said here but in `Mem`; `heapCalls` puts them together.
-/

set_option autoImplicit false

namespace ScratchOs.Cpp

open Ownership

/-- What `UniquePtr<T>` calls: the heap, and `~T()`. `none` is a call that does not return. -/
structure Calls (σ : Type) where
  kmalloc : Nat → σ → Option (Nat × σ)
  kfree : Nat → σ → Option σ
  sizeofT : Nat
  destructT : Nat → σ → Option σ

/-- The objects `UniquePtr<T>`: `ptr` is `ptr_` of those that exist, 0 for `nullptr`. -/
structure Objects (σ ι : Type) where
  world : σ
  ptr : ι → Option Nat
  log : List (Event Nat)

section Members

variable {σ ι : Type} [DecidableEq ι]

/-- `p->~T()` -/
def Calls.destroy (calls : Calls σ) (p : Nat) (s : Objects σ ι) : Option (Objects σ ι) := do
  let world ← calls.destructT p s.world
  some { s with world, log := s.log ++ [.destroyed p] }

/-- `kfree(p)` -/
def Calls.free (calls : Calls σ) (p : Nat) (s : Objects σ ι) : Option (Objects σ ι) := do
  let world ← calls.kfree p s.world
  some { s with world, log := s.log ++ [.freed p] }

def Objects.setPtr (s : Objects σ ι) (this : ι) (p : Option Nat) : Objects σ ι :=
  { s with ptr := Function.update s.ptr this p }

/-- What the program has handed over, or taken back, if it is a pointer at all. -/
def Objects.record (s : Objects σ ι) (e : Event Nat) : Objects σ ι :=
  if e.handle = 0 then s else { s with log := s.log ++ [e] }

/-- `static void delete_object(T* p)` -/
def deleteObject (calls : Calls σ) (p : Nat) (s : Objects σ ι) : Option (Objects σ ι) := do
  let s ← calls.destroy p s
  calls.free p s

/-- `if (ptr_) delete_object(ptr_);` for the pointer that `this` has. -/
def deleteOwned (calls : Calls σ) (this : ι) (s : Objects σ ι) : Option (Objects σ ι) := do
  let p ← s.ptr this
  if p = 0 then some s else deleteObject calls p s

/-- `explicit UniquePtr(T* p)` -/
def construct (this : ι) (p : Nat) (s : Objects σ ι) : Objects σ ι :=
  (s.setPtr this (some p)).record (.handed p)

/-- `~UniquePtr()` -/
def destruct (calls : Calls σ) (this : ι) (s : Objects σ ι) : Option (Objects σ ι) := do
  let s ← deleteOwned calls this s
  some (s.setPtr this none)

/-- `UniquePtr(UniquePtr&& other)` -/
def moveConstruct (this other : ι) (s : Objects σ ι) : Option (Objects σ ι) := do
  let p ← s.ptr other
  some ((s.setPtr this (some p)).setPtr other (some 0))

/-- `UniquePtr& operator=(UniquePtr&& other)` -/
def moveAssign (calls : Calls σ) (this other : ι) (s : Objects σ ι) : Option (Objects σ ι) :=
  if this ≠ other then do
    let s ← deleteOwned calls this s
    let p ← s.ptr other
    some ((s.setPtr this (some p)).setPtr other (some 0))
  else some s

/-- `T* release()` -/
def release (this : ι) (s : Objects σ ι) : Option (Nat × Objects σ ι) := do
  let temp ← s.ptr this
  some (temp, (s.setPtr this (some 0)).record (.released temp))

/-- `void reset(T* p)` -/
def reset (calls : Calls σ) (this : ι) (p : Nat) (s : Objects σ ι) : Option (Objects σ ι) := do
  let s ← deleteOwned calls this s
  some ((s.setPtr this (some p)).record (.handed p))

/-- `UniquePtr<T> make_unique(Args&&... args)`; `constructT` is `T` with these arguments, and
`this` the object the result is. -/
def makeUnique (calls : Calls σ) (constructT : Nat → σ → Option σ) (this : ι)
    (s : Objects σ ι) : Option (Objects σ ι) := do
  let (ptr, world) ← calls.kmalloc calls.sizeofT s.world
  let world ← if ptr = 0 then some world else constructT ptr world
  some (construct this ptr { s with world })

/-! ## Runs -/

/-- What a program does with these objects. -/
inductive Operation (σ ι : Type) where
  | construct (this : ι) (p : Nat)
  | makeUnique (this : ι) (constructT : Nat → σ → Option σ)
  | moveConstruct (this other : ι)
  | moveAssign (this other : ι)
  | release (this : ι)
  | reset (this : ι) (p : Nat)
  | destruct (this : ι)

def Operation.run (calls : Calls σ) (s : Objects σ ι) : Operation σ ι → Option (Objects σ ι)
  | .construct this p => some (Cpp.construct this p s)
  | .makeUnique this constructT => Cpp.makeUnique calls constructT this s
  | .moveConstruct this other => Cpp.moveConstruct this other s
  | .moveAssign this other => Cpp.moveAssign calls this other s
  | .release this => (Cpp.release this s).map Prod.snd
  | .reset this p => Cpp.reset calls this p s
  | .destruct this => Cpp.destruct calls this s

/-- No object has the pointer; `nullptr` is free for all. -/
def Unowned (s : Objects σ ι) (p : Nat) : Prop := p ≠ 0 → ∀ x, s.ptr x ≠ some p

/-- A constructor is for an object that does not exist yet, and a pointer handed to a
constructor or to `reset` is owned by nobody. -/
def Operation.Allowed (calls : Calls σ) (s : Objects σ ι) : Operation σ ι → Prop
  | .construct this p => s.ptr this = none ∧ Unowned s p
  | .makeUnique this _ => s.ptr this = none ∧
      ∀ p world, calls.kmalloc calls.sizeofT s.world = some (p, world) → Unowned s p
  | .moveConstruct this _ => s.ptr this = none
  | .reset _ p => Unowned s p
  | _ => True

/-- The pointer an object owns; `nullptr` is none. -/
def Objects.owned (s : Objects σ ι) (x : ι) : Option Nat := (s.ptr x).filter (· ≠ 0)

/-- The invariant of runs: sole ownership, and no call for `nullptr`. -/
structure Sole (s : Objects σ ι) : Prop where
  owned : Owned s.owned s.log
  nonnull : ∀ e ∈ s.log, e.handle ≠ 0

omit [DecidableEq ι] in
theorem owned_eq_some {s : Objects σ ι} {x : ι} {p : Nat} :
    s.owned x = some p ↔ s.ptr x = some p ∧ p ≠ 0 := by
  rw [Objects.owned, Option.filter_eq_some_iff, decide_eq_true_eq]

omit [DecidableEq ι] in
theorem Unowned.owned_ne {s : Objects σ ι} {p : Nat} (h : Unowned s p) (hp : p ≠ 0) (x : ι) :
    s.owned x ≠ some p := fun hx => h hp x (owned_eq_some.mp hx).1

@[simp] theorem ptr_setPtr_self (s : Objects σ ι) (x : ι) (p : Option Nat) :
    (s.setPtr x p).ptr x = p := Function.update_self ..

theorem ptr_setPtr_of_ne (s : Objects σ ι) {x y : ι} (p : Option Nat) (h : y ≠ x) :
    (s.setPtr x p).ptr y = s.ptr y := Function.update_of_ne h ..

theorem owned_setPtr (s : Objects σ ι) (x : ι) (p : Option Nat) :
    (s.setPtr x p).owned = Function.update s.owned x (p.filter (· ≠ 0)) := by
  funext y
  by_cases hyx : y = x
  · subst hyx
    rw [Objects.owned, ptr_setPtr_self, Function.update_self]
  · rw [Objects.owned, ptr_setPtr_of_ne s p hyx, Function.update_of_ne hyx, Objects.owned]

omit [DecidableEq ι] in
theorem record_null (s : Objects σ ι) {e : Event Nat} (he : e.handle = 0) : s.record e = s :=
  if_pos he

omit [DecidableEq ι] in
theorem log_record (s : Objects σ ι) {e : Event Nat} (he : e.handle ≠ 0) :
    (s.record e).log = s.log ++ [e] := by
  rw [Objects.record, if_neg he]

omit [DecidableEq ι] in
@[simp] theorem ptr_record (s : Objects σ ι) (e : Event Nat) : (s.record e).ptr = s.ptr := by
  unfold Objects.record
  split
  · rfl
  · rfl

omit [DecidableEq ι] in
@[simp] theorem owned_record (s : Objects σ ι) (e : Event Nat) : (s.record e).owned = s.owned := by
  funext x
  rw [Objects.owned, Objects.owned, ptr_record]

variable {calls : Calls σ} {s s' : Objects σ ι} {this other : ι} {p : Nat}

omit [DecidableEq ι] in
theorem nonnull_append {log es : List (Event Nat)} (h : ∀ e ∈ log, e.handle ≠ 0) (hp : p ≠ 0)
    (hes : ∀ e ∈ es, e.handle = p) : ∀ e ∈ log ++ es, e.handle ≠ 0 := by
  intro e he
  rcases List.mem_append.mp he with he | he
  · exact h e he
  · rw [hes e he]
    exact hp

/-- An object without a pointer is made, emptied or destroyed. -/
theorem Sole.setNull (h : Sole s) (hx : s.owned this = none) {q : Option Nat}
    (hq : q.filter (· ≠ 0) = none) : Sole (s.setPtr this q) := by
  refine ⟨?_, h.nonnull⟩
  rw [owned_setPtr, hq, ← hx, Function.update_eq_self]
  exact h.owned

/-- A pointer is handed to an object that has none. -/
theorem Sole.hand (h : Sole s) (hx : s.owned this = none) (hfresh : Unowned s p) :
    Sole ((s.setPtr this (some p)).record (.handed p)) := by
  by_cases hp : p = 0
  · subst hp
    rw [record_null _ rfl]
    exact h.setNull hx rfl
  · have hq : (some p).filter (· ≠ 0) = some p := Option.filter_some_pos (by simpa using hp)
    have hlog := log_record (s.setPtr this (some p)) (e := .handed p) hp
    refine ⟨?_, ?_⟩
    · rw [owned_record, owned_setPtr, hq, hlog]
      exact h.owned.take hx (hfresh.owned_ne hp)
    · rw [hlog]
      exact nonnull_append h.nonnull hp fun e he => by rw [List.mem_singleton.mp he]; rfl

/-- An object hands its pointer to one that has none. -/
theorem Sole.move (h : Sole s) (hne : this ≠ other) (hx : s.owned this = none)
    (hp : s.ptr other = some p) : Sole ((s.setPtr this (some p)).setPtr other (some 0)) := by
  have hq : (some p).filter (· ≠ 0) = s.owned other := by
    rw [Objects.owned, hp]
  refine ⟨?_, h.nonnull⟩
  rw [owned_setPtr, owned_setPtr, hq]
  exact h.owned.move hne hx

end Members

/-! ## On the heap -/

section OnHeap

open Mem

variable {σ ι : Type} [AddressSpace σ] [DecidableEq ι]

/-- The calls, answered by `heap.cpp`. -/
def heapCalls (pager : Pager σ) (sizeofT : Nat) (destructT : Nat → Heap σ → Option (Heap σ)) :
    Calls (Heap σ) where
  kmalloc size h := Mem.kmalloc pager h size
  kfree p h := Mem.kfree h p
  sizeofT := sizeofT
  destructT := destructT

omit [DecidableEq ι] in
/-- While every pointer that is owned is a live allocation, `make_unique` gets one that is not
owned. -/
theorem kmalloc_unowned {pager : Pager σ} {Owns : σ → Nat → Nat → (Nat → Nat) → Prop}
    {top start p : Nat} (laws : PagerLaws pager top Owns) {s : Objects (Heap σ) ι} {h' : Heap σ}
    {live : List (Nat × Nat)} {sizeofT : Nat} {destructT : Nat → Heap σ → Option (Heap σ)}
    (hok : HeapOk top Owns start s.world live) (hn : Reasonable sizeofT)
    (hlive : ∀ x q, q ≠ 0 → s.ptr x = some q → q ∈ live.map Prod.fst)
    (hcall : (heapCalls pager sizeofT destructT).kmalloc sizeofT s.world = some (p, h'))
    (hlim : s.world.heapLimit ≤ h'.heapLimit ∧ h'.heapLimit ≤ top) : Unowned s p := by
  intro hp x hx
  obtain ⟨_, τ, m, bs, hinv, hlivein⟩ := hok
  obtain ⟨_, _, _, _, _, hgrant, _⟩ := kmalloc_spec laws hinv hn hcall hlim.1 hlim.2
  obtain ⟨y, hy, rfl⟩ := List.mem_map.mp (hlive x p hp hx)
  obtain ⟨b, hb, hfree, hptr, _⟩ := hlivein.block y hy
  rcases hgrant with ⟨hzero, _⟩ | hgrant
  · exact hp hzero
  · exact hgrant.new b hb hfree hptr

end OnHeap

end ScratchOs.Cpp
