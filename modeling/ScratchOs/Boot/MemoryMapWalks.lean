import ScratchOs.Boot.Multiboot
import Mathlib.Data.List.Pairwise

/-!
# Three walks over the memory map

`multiboot_iterate_mmap` takes its stride from the entries, and so takes the loader's word for
it: the walk is as safe as the records it finds (`walksSafely_iff`). Behind it is
`multiboot_get_usable_regions`, whose callback fills an array of the caller's and has the size
of that array at hand; it is not looked at (`collectsUsable_iff`). The shell's `mem` command
does not use the walk: `print_memory_map` counts in steps of `sizeof(mmap_entry_t)`, and sees
another map as soon as an entry is longer (`walksAgree_iff`).

All of these loops are `walkFrom` with another step.

The three answers are about different inputs. The first has no well-formed map behind it: the bytes
of the buffer are arbitrary, and the only assumption is that the buffer does not run over the end
of the address space. The other two are about well-formed maps, since on a buffer that is none
there is nothing that the array or the output should contain.

`walkFrom` returns the addresses it comes to, and the callback is folded over them afterwards. That
the two are the same (`iterateFrom_walk`, `printFrom_walk`) is what the shape costs, and after it no
statement about a walk mentions a callback. It is also why the callback's own memory, the array and
its count, can wait for a section of its own.
-/

set_option autoImplicit false

namespace ScratchOs.Boot

open Bits

/-! ## The addresses of a walk -/

/-- The addresses below `endAddr` that a loop comes to from `a` on, in order. -/
def walkFrom (next : Nat → Nat) (endAddr : Nat) : Nat → Nat → Option (List Nat)
  | 0, _ => none
  | fuel + 1, a =>
    if a < endAddr then (walkFrom next endAddr fuel (next a)).map (a :: ·) else some []

section Walk

variable {next : Nat → Nat} {endAddr : Nat}

/-- A walk that ends has come past the end, or goes on with what is behind its first address. -/
theorem walkFrom_cases {fuel a : Nat} {as : List Nat}
    (h : walkFrom next endAddr fuel a = some as) :
    endAddr ≤ a ∧ as = [] ∨ ∃ fuel' rest, a < endAddr ∧ as = a :: rest ∧ fuel = fuel' + 1 ∧
      walkFrom next endAddr fuel' (next a) = some rest := by
  cases fuel with
  | zero => exact absurd h (by simp [walkFrom])
  | succ fuel =>
    rw [walkFrom] at h
    split at h
    · next hlt =>
      obtain ⟨rest, hrest, rfl⟩ := Option.map_eq_some_iff.mp h
      exact Or.inr ⟨fuel, rest, hlt, rfl, rfl, hrest⟩
    · next hge => exact Or.inl ⟨Nat.le_of_not_lt hge, (Option.some.inj h).symm⟩

end Walk

/-- `current_addr += entry->size + sizeof(uint32_t)` -/
def nextEntry (mem : Bytes.Mem) (a : Nat) : Nat := u32 (a + u32 (Bytes.load32 mem a + 4))

theorem iterateFrom_walk {α : Type} (mem : Bytes.Mem) (callback : α → Nat → α) (endAddr : Nat) :
    ∀ (fuel a : Nat) (ctx : α), iterateFrom mem callback endAddr fuel a ctx =
      (walkFrom (nextEntry mem) endAddr fuel a).map fun as => as.foldl callback ctx
  | 0, _, _ => rfl
  | fuel + 1, a, ctx => by
    rw [iterateFrom, walkFrom]
    split
    · rw [iterateFrom_walk mem callback endAddr fuel, Option.map_map]
      rfl
    · rfl

/-! ## Whatever the buffer holds

A record is safe to step over when its 24 bytes are inside and the step is neither 0 nor across the
end of the address space. `RecordsFit` is inductive and not a statement about all records, because
which bytes are records is decided by the steps before. -/

/-- The walk ends, and has called back on entries at increasing addresses, each with all of its
24 bytes in the buffer. -/
def WalksSafely (mem : Bytes.Mem) (mb : MultibootInfo) : Prop :=
  ∃ as : List Nat,
    (∀ (α : Type) (callback : α → Nat → α) (ctx : α),
      multibootIterateMmap mem mb callback ctx = some (as.foldl callback ctx)) ∧
    as.Pairwise (· < ·) ∧
    ∀ a ∈ as, mb.mmapAddr ≤ a ∧ a + 24 ≤ mb.mmapAddr + mb.mmapLength

/-- What a record says of the distance to the next one, in 32 bits. -/
def stride (mem : Bytes.Mem) (a : Nat) : Nat := u32 (Bytes.load32 mem a + 4)

/-- From `a` on the buffer holds records, one behind the other, each with room for an entry and
none with a stride of 0 or across the end of the address space. -/
inductive RecordsFit (mem : Bytes.Mem) (endAddr : Nat) : Nat → Prop
  | stop {a : Nat} (h : endAddr ≤ a) : RecordsFit mem endAddr a
  | record {a : Nat} (hin : a + 24 ≤ endAddr) (hpos : 0 < stride mem a)
      (hlt : a + stride mem a < 4294967296) (hrest : RecordsFit mem endAddr (a + stride mem a)) :
      RecordsFit mem endAddr a

section Records

variable {mem : Bytes.Mem} {endAddr : Nat}

theorem RecordsFit.walk {a : Nat} (h : RecordsFit mem endAddr a) :
    ∀ (fuel : Nat), endAddr - a < fuel →
      ∃ as, walkFrom (nextEntry mem) endAddr fuel a = some as ∧ as.Pairwise (· < ·) ∧
        ∀ x ∈ as, a ≤ x ∧ x + 24 ≤ endAddr := by
  induction h with
  | @stop a hle =>
    intro fuel hfuel
    obtain ⟨fuel, rfl⟩ := Nat.exists_eq_succ_of_ne_zero (Nat.ne_of_gt (Nat.zero_lt_of_lt hfuel))
    refine ⟨[], ?_, List.Pairwise.nil, fun x hx => absurd hx List.not_mem_nil⟩
    rw [walkFrom, if_neg (Nat.not_lt_of_le hle)]
  | @record a hin hpos hlt _ ih =>
    intro fuel hfuel
    obtain ⟨fuel, rfl⟩ := Nat.exists_eq_succ_of_ne_zero (Nat.ne_of_gt (Nat.zero_lt_of_lt hfuel))
    obtain ⟨as, hwalk, hsorted, hall⟩ := ih fuel (by omega)
    have hnext : nextEntry mem a = a + stride mem a := u32_of_lt hlt
    refine ⟨a :: as, ?_, List.pairwise_cons.mpr ⟨fun x hx => ?_, hsorted⟩, fun x hx => ?_⟩
    · rw [walkFrom, if_pos (by omega), hnext, hwalk]
      rfl
    · have := (hall x hx).1
      omega
    · rcases List.mem_cons.mp hx with rfl | hx
      · exact ⟨Nat.le_refl x, hin⟩
      · have := hall x hx
        omega

/-- Increasing addresses leave no stride of 0, and no way round the end of the address space. -/
theorem RecordsFit.of_walk (hend : endAddr < 4294967296) : ∀ {fuel a : Nat} {as : List Nat},
    walkFrom (nextEntry mem) endAddr fuel a = some as → as.Pairwise (· < ·) →
      (∀ x ∈ as, x + 24 ≤ endAddr) → RecordsFit mem endAddr a
  | fuel, a, as, hwalk, hsorted, hall => by
    rcases walkFrom_cases hwalk with ⟨hle, _⟩ | ⟨fuel', rest, hlt, rfl, rfl, hrest⟩
    · exact .stop hle
    · have hin := hall a List.mem_cons_self
      obtain ⟨hbelow, hsorted⟩ := List.pairwise_cons.mp hsorted
      have hgo : a < nextEntry mem a := by
        rcases walkFrom_cases hrest with ⟨hle, _⟩ | ⟨_, _, _, rfl, _⟩
        · omega
        · exact hbelow _ List.mem_cons_self
      have hstride : nextEntry mem a = u32 (a + stride mem a) := rfl
      have hsmall : stride mem a < 4294967296 := u32_lt _
      have hnowrap : a + stride mem a < 4294967296 := by
        rw [hstride, u32] at hgo
        omega
      rw [u32_of_lt hnowrap] at hstride
      rw [hstride] at hgo hrest
      refine .record hin (by omega) hnowrap ?_
      exact RecordsFit.of_walk hend hrest hsorted fun x hx => hall x (List.mem_cons_of_mem a hx)

end Records

section Buffer

variable {mem : Bytes.Mem} {mb : MultibootInfo}

theorem multibootIterateMmap_walk (hbuffer : mb.mmapAddr + mb.mmapLength < 4294967296) {α : Type}
    (callback : α → Nat → α) (ctx : α) : multibootIterateMmap mem mb callback ctx =
      (walkFrom (nextEntry mem) (mb.mmapAddr + mb.mmapLength) 4294967296 mb.mmapAddr).map
        fun as => as.foldl callback ctx := by
  rw [multibootIterateMmap, u32_of_lt hbuffer, iterateFrom_walk]

/-- A callback that writes down the addresses it is called on. -/
def logAddr (as : List Nat) (a : Nat) : List Nat := as ++ [a]

theorem foldl_logAddr (as acc : List Nat) : as.foldl logAddr acc = acc ++ as := by
  induction as generalizing acc with
  | nil => exact (List.append_nil acc).symm
  | cons a as ih => rw [List.foldl_cons, ih, logAddr, List.append_assoc, List.singleton_append]

theorem WalksSafely.recordsFit (hbuffer : mb.mmapAddr + mb.mmapLength < 4294967296)
    (h : WalksSafely mem mb) : RecordsFit mem (mb.mmapAddr + mb.mmapLength) mb.mmapAddr := by
  obtain ⟨as, hwalk, hsorted, hall⟩ := h
  have hlog := hwalk (List Nat) logAddr []
  rw [multibootIterateMmap_walk hbuffer] at hlog
  obtain ⟨bs, hbs, heq⟩ := Option.map_eq_some_iff.mp hlog
  rw [foldl_logAddr, foldl_logAddr, List.nil_append, List.nil_append] at heq
  subst heq
  exact .of_walk hbuffer hbs hsorted fun x hx => (hall x hx).2

end Buffer

/-- **The walk is safe exactly on a buffer whose records fit.** -/
theorem walksSafely_iff (mem : Bytes.Mem) (mb : MultibootInfo)
    (hbuffer : mb.mmapAddr + mb.mmapLength < 4294967296) :
    WalksSafely mem mb ↔ RecordsFit mem (mb.mmapAddr + mb.mmapLength) mb.mmapAddr := by
  refine ⟨WalksSafely.recordsFit hbuffer, fun h => ?_⟩
  obtain ⟨as, hwalk, hsorted, hall⟩ := h.walk 4294967296 (by omega)
  refine ⟨as, fun α callback ctx => ?_, hsorted, hall⟩
  rw [multibootIterateMmap_walk hbuffer, hwalk, Option.map_some]

/-- The records of a well-formed map fit. -/
theorem Entries.recordsFit {mem : Bytes.Mem} {endAddr : Nat} (hend : endAddr < 4294967296) :
    ∀ {es : List MmapEntry} {a : Nat}, Entries mem a es endAddr → RecordsFit mem endAddr a
  | [], a, h => .stop (Nat.le_of_eq h.symm)
  | e :: es, a, h => by
    have hle := Entries.le h
    obtain ⟨hread, hsize, hrest⟩ := h
    have hnext := Entries.le hrest
    rw [List.length_cons] at hle
    have hload : Bytes.load32 mem a = e.size := by
      rw [← hread]
      rfl
    have hstride : stride mem a = e.size + 4 := by
      rw [stride, hload, u32_of_lt (by omega)]
    refine .record (by omega) (by omega) (by omega) ?_
    rw [hstride, ← Nat.add_assoc]
    exact Entries.recordsFit hend hrest

/-- Two stretches of usable memory below 32 MiB, in plain entries. -/
def twoEntries : MemoryMap := pcMap 0x100000 0x1F00000 (by decide)

/-- The map of a machine as loaders write it is walked safely. -/
theorem walksSafely_twoEntries : WalksSafely twoEntries.mem twoEntries.info :=
  (walksSafely_iff twoEntries.mem twoEntries.info twoEntries.buffer_lt).mpr
    (Entries.recordsFit twoEntries.buffer_lt twoEntries.layout)

/-- A buffer of 24 bytes at `0x9600` whose size word is `2^32 - 4`: the stride is 0. -/
def stuckInfo : MultibootInfo :=
  { twoEntries.info with mmapLength := 24, mmapLength_lt := by decide }

def stuckMem : Bytes.Mem := Bytes.store32 (fun _ => 0) 0x9600 0xFFFFFFFC

/-- The walk stands still at the first entry for ever. -/
theorem walk_stands_still : ¬ WalksSafely stuckMem stuckInfo := by
  intro h
  rcases h.recordsFit (by decide) with hle | ⟨_, hpos, _, _⟩
  · exact absurd hle (by decide)
  · exact absurd hpos (by decide)

/-! ## The array behind the walk -/

/-- `struct mmap_context`, with the array that `regions` points to and what lies behind it. -/
structure MmapContext where
  count : Nat
  regions : Nat → MemoryRegion
  maxRegions : Nat

/-- The callback of `multiboot_get_usable_regions`. -/
def usableCallback (mem : Bytes.Mem) (ctx : MmapContext) (a : Nat) : MmapContext :=
  let entry := readEntry mem a
  if multibootIsMemoryRegionUsable entry then
    { ctx with
      count := u32 (ctx.count + 1)
      regions := Function.update ctx.regions ctx.count ⟨entry.addr, entry.len, entry.type⟩ }
  else ctx

/-- `multiboot_get_usable_regions` on the caller's array: the count it returns, and the array
afterwards. `multibootGetUsableRegions` is the same call with the array cut off at the count. -/
def multibootFillUsableRegions (mem : Bytes.Mem) (mb : MultibootInfo)
    (regions : Nat → MemoryRegion) (maxRegions : Nat) : Option (Nat × (Nat → MemoryRegion)) :=
  (multibootIterateMmap mem mb (usableCallback mem) ⟨0, regions, maxRegions⟩).map
    fun ctx => (ctx.count, ctx.regions)

/-- `rs` written to an array from index `n` on. -/
def writeRegions (regions : Nat → MemoryRegion) : Nat → List MemoryRegion → Nat → MemoryRegion
  | _, [] => regions
  | n, r :: rs => writeRegions (Function.update regions n r) (n + 1) rs

section Array

variable {regions : Nat → MemoryRegion}

theorem writeRegions_of_lt {i : Nat} : ∀ {rs : List MemoryRegion} {n : Nat}
    {regions : Nat → MemoryRegion}, i < n → writeRegions regions n rs i = regions i
  | [], _, _, _ => rfl
  | _ :: rs, n, _, h => by
    rw [writeRegions, writeRegions_of_lt (Nat.lt_succ_of_lt h),
      Function.update_of_ne (Nat.ne_of_lt h)]

theorem writeRegions_of_ge {i : Nat} : ∀ {rs : List MemoryRegion} {n : Nat}
    {regions : Nat → MemoryRegion}, n + rs.length ≤ i → writeRegions regions n rs i = regions i
  | [], _, _, _ => rfl
  | _ :: rs, n, _, h => by
    rw [List.length_cons] at h
    rw [writeRegions, writeRegions_of_ge (by omega), Function.update_of_ne (by omega)]

theorem writeRegions_getElem : ∀ {rs : List MemoryRegion} {n : Nat}
    {regions : Nat → MemoryRegion} {i : Nat} (h : i < rs.length),
      writeRegions regions n rs (n + i) = rs[i]
  | r :: rs, n, _, 0, _ => by
    rw [writeRegions, show n + 0 = n from rfl, writeRegions_of_lt (Nat.lt_succ_self n),
      Function.update_self]
    rfl
  | r :: rs, n, _, i + 1, h => by
    rw [writeRegions, show n + (i + 1) = n + 1 + i by omega,
      writeRegions_getElem (Nat.lt_of_succ_lt_succ h)]
    rfl

/-- The callback appends each usable entry to what is in the array, whatever its context says
of the array's size. -/
theorem foldl_usableCallback {mem : Bytes.Mem} : ∀ {es : List MmapEntry} {a endAddr : Nat}
    {ctx : MmapContext}, Entries mem a es endAddr → ctx.count + es.length < 4294967296 →
      (entryAddrs a es).foldl (usableCallback mem) ctx =
        { ctx with
          count := ctx.count + (es.filter multibootIsMemoryRegionUsable).length
          regions := writeRegions ctx.regions ctx.count
            ((es.filter multibootIsMemoryRegionUsable).map MmapEntry.toRegion) }
  | [], _, _, ctx, _, _ => rfl
  | e :: es, a, endAddr, ctx, h, hcount => by
    obtain ⟨hread, _, hrest⟩ := h
    rw [List.length_cons] at hcount
    rw [entryAddrs, List.foldl_cons]
    by_cases hu : multibootIsMemoryRegionUsable e = true
    · have hstep : usableCallback mem ctx a =
          { ctx with
            count := ctx.count + 1
            regions := Function.update ctx.regions ctx.count e.toRegion } := by
        simp only [usableCallback, hread, hu, if_true, u32_of_lt (by omega : ctx.count + 1 < _)]
        rfl
      have hcount' : ctx.count + 1 + es.length < 4294967296 := by omega
      rw [hstep, foldl_usableCallback hrest hcount', List.filter_cons_of_pos hu]
      simp only [List.length_cons, List.map_cons, writeRegions, MmapContext.mk.injEq, and_true]
      omega
    · have hstep : usableCallback mem ctx a = ctx := by
        simp only [usableCallback, hread, hu, Bool.false_eq_true, if_false]
      have hcount' : ctx.count + es.length < 4294967296 := by omega
      rw [hstep, foldl_usableCallback hrest hcount', List.filter_cons_of_neg hu]

/-- **Every usable entry is counted and written**, also past the end of the array. -/
theorem multibootFillUsableRegions_eq (mm : MemoryMap) (maxRegions : Nat) :
    multibootFillUsableRegions mm.mem mm.info regions maxRegions =
      some (mm.usable.length, writeRegions regions 0 (mm.usable.map MmapEntry.toRegion)) := by
  have hle := Entries.le mm.layout
  have hlt := mm.buffer_lt
  have hcount : 0 + mm.entries.length < 4294967296 := by omega
  rw [multibootFillUsableRegions, multibootIterateMmap_eq,
    foldl_usableCallback mm.layout hcount, Option.map_some, Nat.zero_add]
  rfl

end Array

/-- What the caller of `multiboot_get_usable_regions` may expect of its array. -/
def CollectsUsable (mm : MemoryMap) (maxRegions : Nat) : Prop :=
  ∀ regions : Nat → MemoryRegion, ∃ written,
    multibootFillUsableRegions mm.mem mm.info regions maxRegions =
      some (min mm.usable.length maxRegions, written) ∧
    (∀ i, i < maxRegions → (hi : i < mm.usable.length) → written i = mm.usable[i].toRegion) ∧
    ∀ i, maxRegions ≤ i → written i = regions i

/-- **The array is filled as it should be exactly when all usable entries fit into it.** -/
theorem collectsUsable_iff (mm : MemoryMap) (maxRegions : Nat) :
    CollectsUsable mm maxRegions ↔ mm.usable.length ≤ maxRegions := by
  constructor
  · intro h
    obtain ⟨written, heq, _, _⟩ := h fun _ => ⟨0, 0, 0⟩
    rw [multibootFillUsableRegions_eq] at heq
    have hcount : mm.usable.length = min mm.usable.length maxRegions :=
      congrArg Prod.fst (Option.some.inj heq)
    rw [hcount]
    exact Nat.min_le_right _ _
  · intro h regions
    refine ⟨writeRegions regions 0 (mm.usable.map MmapEntry.toRegion), ?_, fun i _ hi => ?_,
      fun i hi => ?_⟩
    · rw [multibootFillUsableRegions_eq, Nat.min_eq_left h]
    · have hget := @writeRegions_getElem (mm.usable.map MmapEntry.toRegion) 0 regions i
        (by rwa [List.length_map])
      rwa [Nat.zero_add, List.getElem_map] at hget
    · refine writeRegions_of_ge ?_
      rw [List.length_map, Nat.zero_add]
      exact Nat.le_trans h hi

/-- Two usable entries and an array of one region. -/
theorem array_overrun : ¬ CollectsUsable twoEntries 1 := by
  intro h
  obtain ⟨written, heq, _, _⟩ := h fun _ => ⟨0, 0, 0⟩
  rw [multibootFillUsableRegions_eq] at heq
  have hcount : 2 = 1 := congrArg Prod.fst (Option.some.inj heq)
  exact absurd hcount (by decide)

/-! ## The shell's walk -/

/-- `sizeof(mmap_entry_t)` -/
def mmapEntrySize : Nat := 24

/-- The loop of `print_memory_map`; `print` stands for the three `printk` calls on an entry. -/
def printFrom {α : Type} (print : α → Nat → α) (endAddr : Nat) : Nat → Nat → α → Option α
  | 0, _, _ => none
  | fuel + 1, entry, out =>
    if entry < endAddr then
      -- `entry++`
      printFrom print endAddr fuel (u32 (entry + mmapEntrySize)) (print out entry)
    else some out

def printMemoryMap {α : Type} (mb : MultibootInfo) (print : α → Nat → α) (out : α) : Option α :=
  printFrom print (u32 (mb.mmapAddr + mb.mmapLength)) 4294967296 mb.mmapAddr out

theorem printFrom_walk {α : Type} (print : α → Nat → α) (endAddr : Nat) :
    ∀ (fuel a : Nat) (out : α), printFrom print endAddr fuel a out =
      (walkFrom (fun a => u32 (a + mmapEntrySize)) endAddr fuel a).map
        fun as => as.foldl print out
  | 0, _, _ => rfl
  | fuel + 1, a, out => by
    rw [printFrom, walkFrom]
    split
    · rw [printFrom_walk print endAddr fuel, Option.map_map]
      rfl
    · rfl

/-- Both walks come to the same addresses, in the same order. -/
def WalksAgree (mm : MemoryMap) : Prop :=
  printMemoryMap mm.info logAddr [] = multibootIterateMmap mm.mem mm.info logAddr []

/-- Steps of 24 bytes meet the entries as long as each is 24 bytes long; behind a longer one
they land inside it, and the walk has an address that is no entry's. -/
theorem walkFrom_plain {mem : Bytes.Mem} {endAddr : Nat} (hend : endAddr < 4294967296) :
    ∀ {es : List MmapEntry} {fuel a : Nat}, Entries mem a es endAddr → es.length < fuel →
      (walkFrom (fun a => u32 (a + mmapEntrySize)) endAddr fuel a = some (entryAddrs a es) ↔
        ∀ e ∈ es, e.size = 20)
  | _, 0, _, _, hfuel => absurd hfuel (Nat.not_lt_zero _)
  | [], fuel + 1, a, h, _ => by
    have hstop : ¬ a < endAddr := Nat.not_lt_of_le (Nat.le_of_eq h.symm)
    rw [walkFrom, if_neg hstop]
    exact ⟨fun _ e he => absurd he List.not_mem_nil, fun _ => rfl⟩
  | e :: es, fuel + 1, a, h, hfuel => by
    obtain ⟨_, hsize, hrest⟩ := h
    have hle := Entries.le hrest
    have hfuel' : es.length < fuel := Nat.lt_of_succ_lt_succ hfuel
    have hnext : u32 (a + mmapEntrySize) = a + 24 :=
      u32_of_lt (show a + 24 < 4294967296 by omega)
    rw [walkFrom, if_pos (by omega), hnext, entryAddrs, List.forall_mem_cons]
    by_cases hplain : e.size = 20
    · rw [hplain] at hrest ⊢
      rw [← walkFrom_plain hend hrest hfuel']
      constructor
      · intro hsome
        obtain ⟨rest, hwalk, heq⟩ := Option.map_eq_some_iff.mp hsome
        rw [hwalk, (List.cons.inj heq).2]
        exact ⟨rfl, rfl⟩
      · rintro ⟨_, hwalk⟩
        rw [hwalk, Option.map_some]
    · refine ⟨fun hsome => ?_, fun hall => absurd hall.1 hplain⟩
      obtain ⟨rest, hwalk, heq⟩ := Option.map_eq_some_iff.mp hsome
      rw [(List.cons.inj heq).2] at hwalk
      rcases walkFrom_cases hwalk with ⟨hstop, _⟩ | ⟨_, rest', _, heads, _, _⟩
      · omega
      · cases es with
        | nil => exact absurd heads (by simp [entryAddrs])
        | cons e' es =>
          have := (List.cons.inj heads).1
          omega

/-- **The shell prints the map the kernel works with exactly when every entry has the length
of the structure.** -/
theorem walksAgree_iff (mm : MemoryMap) : WalksAgree mm ↔ ∀ e ∈ mm.entries, e.size = 20 := by
  have hle := Entries.le mm.layout
  have hlt := mm.buffer_lt
  have hfuel : mm.entries.length < 4294967296 := by omega
  rw [← walkFrom_plain hlt mm.layout hfuel, WalksAgree, multibootIterateMmap_eq, printMemoryMap,
    u32_of_lt hlt, printFrom_walk, foldl_logAddr, List.nil_append]
  constructor
  · intro h
    obtain ⟨as, hwalk, heq⟩ := Option.map_eq_some_iff.mp h
    rw [foldl_logAddr, List.nil_append] at heq
    rw [hwalk, heq]
  · intro h
    rw [h, Option.map_some, foldl_logAddr, List.nil_append]

/-- An entry of ACPI 3.0, with four bytes of attributes behind the type. -/
def longEntry : MmapEntry := ⟨24, 0, 0xA0000, 1⟩

def longInfo : MultibootInfo :=
  { twoEntries.info with mmapLength := 28, mmapLength_lt := by decide }

def longMap : MemoryMap where
  mem := storeEntry (storeInfo (fun _ => 0) 0x9500 longInfo) 0x9600 longEntry
  info := longInfo
  infoAddr := 0x9500
  entries := [longEntry]
  held := by
    rw [readInfo_storeEntry _ (by decide)]
    exact readInfo_storeInfo _ _ _
  buffer_lt := by decide
  layout := ⟨readEntry_storeEntry _ _ (by decide), by decide, rfl⟩

/-- The shell prints a second entry, from the last four bytes of the first one and whatever
lies behind the map. -/
theorem shell_prints_more : ¬ WalksAgree longMap := by
  rw [WalksAgree, multibootIterateMmap_eq]
  decide

end ScratchOs.Boot
