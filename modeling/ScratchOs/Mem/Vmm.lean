import ScratchOs.Lib.AddressSpace
import ScratchOs.Mem.Pmm

/-!
# Paging

`kernel/mem/vmm.cpp` over a machine with physical memory, a page directory, and a switch that
turns paging on. Once it is on, every pointer the kernel follows goes through the tables, the
pointers to the tables included: `map_page` takes a table's physical address and uses it as an
address. That is why the machine is an `AddressSpace` whose translation reads its own memory,
and why the operations below return `none`: a page fault, or the `PANIC` of `map_page`.

What the tables say is `Kernel.frame`, a partial map from pages to frames. The processor's
walk is that map (`walk_eq`), and so is `get_physical_address` as long as the table it has to
read can be used at its physical address (`getPhysicalAddress_eq`).

## What of the machine is here

`page_directory` is a static of the kernel and is kept apart from memory: nothing but `map_page` and
`init_vmm` writes it, and a store that went there by accident would be a store into the kernel's own
image. Page tables are frames like any other and do lie in `mem`, since the whole difficulty of
this file is that they may be overwritten, or not be found.

The processor's caches are not here. The code flushes the entry it has changed each time, so that a
walk sees the tables as they are. Accessed and dirty bits are not here either: the entries the code
tests it tests for the present bit only.
-/

set_option autoImplicit false

namespace ScratchOs.Mem

open Bits

/-- `HIGH_MEMORY_BASE` -/
def highMemoryBase : Nat := 0xC0000000

/-- `PA_VA(pa)` -/
def paVa (pa : Nat) : Nat := u32 (pa + highMemoryBase)

/-- The machine as the paging code sees it. `page_directory` is a static of the kernel. -/
structure Kernel where
  mem : Bytes.Mem
  pageDirectory : Nat → UInt32
  paging : Bool
  pmm : Pmm

/-- `entry & 0x1` -/
def present (entry : Nat) : Bool := entry &&& 0x1 != 0

/-- `entry & 0xFFFFF000` -/
def entryAddr (entry : Nat) : Nat := entry &&& 0xFFFFF000

def pageDirectoryIndex (v : Nat) : Nat := v >>> 22

def pageTableIndex (v : Nat) : Nat := (v >>> 12) &&& 0x3FF

/-- The address of `page_table[page_table_index]`, for the table a directory entry names. -/
def entryPointer (pde v : Nat) : Nat := entryAddr pde + 4 * pageTableIndex v

/-- What the processor does with a 32-bit address when paging is on. -/
def Kernel.walk (k : Kernel) (v : Nat) : Option Nat :=
  let pde := (k.pageDirectory (pageDirectoryIndex v)).toNat
  if present pde then
    let pte := Bytes.load32 k.mem (entryPointer pde v)
    if present pte then some (entryAddr pte ||| (v &&& 0xFFF)) else none
  else none

instance : AddressSpace Kernel where
  translate k a := if k.paging then k.walk (u32 a) else some (u32 a)
  mem := Kernel.mem
  setMem k m := { k with mem := m }
  mem_setMem _ _ := rfl
  setMem_setMem _ _ _ := rfl
  setMem_mem _ := rfl

/-- `uintptr_t alloc_page_table()`; 0 when there is no frame. -/
def allocPageTable (k : Kernel) : Option (Nat × Kernel) :=
  let (pageTable, pmm) := pmmAllocPage k.pmm
  if pageTable = 0 then some (0, { k with pmm })
  else (AddressSpace.fill 0 4096 pageTable { k with pmm }).map fun k => (pageTable, k)

/-- The first half of `map_page`: a directory entry to work with. -/
def ensureTable (k : Kernel) (v : Nat) : Option Kernel :=
  if present (k.pageDirectory (pageDirectoryIndex v)).toNat then some k
  else do
    let (newPageTable, k) ← allocPageTable k
    if newPageTable = 0 then none
    else
      some { k with
        pageDirectory := Function.update k.pageDirectory (pageDirectoryIndex v)
          (UInt32.ofNat (newPageTable ||| 0x3)) }

/-- `void map_page(uintptr_t virtual_address, uintptr_t physical_address)`. The entry the
processor may have cached is flushed each time, so the walk always sees the tables. -/
def mapPage (k : Kernel) (v p : Nat) : Option Kernel := do
  let k ← ensureTable k v
  AddressSpace.store32 k (entryPointer (k.pageDirectory (pageDirectoryIndex v)).toNat v)
    (entryAddr p ||| 0x3)

/-- `void unmap_page(uintptr_t virtual_address)` -/
def unmapPage (k : Kernel) (v : Nat) : Option Kernel :=
  let pde := (k.pageDirectory (pageDirectoryIndex v)).toNat
  if present pde then AddressSpace.store32 k (entryPointer pde v) 0 else some k

/-- `uintptr_t get_physical_address(uintptr_t virtual_address)`; 0 when nothing is mapped. -/
def getPhysicalAddress (k : Kernel) (v : Nat) : Option Nat :=
  let pde := (k.pageDirectory (pageDirectoryIndex v)).toNat
  if present pde then do
    let pte ← AddressSpace.load32 k (entryPointer pde v)
    if present pte then some (entryAddr pte ||| (v &&& 0xFFF)) else some 0
  else some 0

/-- The loop of `map_region`: a bound that is no multiple of the page size and lies in the
last page of the address space is never reached, and `i` starts over at 0. A loop that takes
more steps than there are pages has done so: `none`. -/
def mapRegionFrom (bound : Nat) : Nat → Kernel → Nat → Nat → Option Kernel
  | 0, _, _, _ => none
  | fuel + 1, k, i, p =>
    if i < bound then do
      let k ← mapPage k i p
      mapRegionFrom bound fuel k (u32 (i + pageSize)) (u32 (p + pageSize))
    else some k

/-- `void map_region(uintptr_t virtual_address, uintptr_t physical_address, uint32_t size)` -/
def mapRegion (k : Kernel) (v p size : Nat) : Option Kernel :=
  mapRegionFrom (u32 (v + size)) 1048577 k v p

/-! ## Entries and addresses as numbers -/

/-- The frame an entry names. -/
def entryFrame (entry : Nat) : Option Nat := if present entry then some (entry / 4096) else none

theorem present_eq (entry : Nat) : present entry = decide (entry % 2 = 1) := by
  have hone : entry &&& 0x1 = entry % 2 := Nat.and_one_is_mod entry
  rw [present, hone]
  rcases Nat.mod_two_eq_zero_or_one entry with h | h <;> simp [h]

theorem entryAddr_eq {entry : Nat} (h : entry < 4294967296) :
    entryAddr entry = entry / 4096 * 4096 :=
  and_high (k := 12) (n := 32) (by decide) h

theorem low_eq (v : Nat) : v &&& 0xFFF = v % 4096 := Nat.and_two_pow_sub_one_eq_mod v 12

theorem pageDirectoryIndex_eq (v : Nat) : pageDirectoryIndex v = v / 4096 / 1024 := by
  rw [pageDirectoryIndex, Nat.shiftRight_eq_div_pow, Nat.div_div_eq_div_mul]

theorem pageTableIndex_eq (v : Nat) : pageTableIndex v = v / 4096 % 1024 := by
  rw [pageTableIndex, Nat.shiftRight_eq_div_pow]
  exact Nat.and_two_pow_sub_one_eq_mod _ 10

/-- Address and flags of an entry. -/
theorem entryAddr_or {a : Nat} (h : a < 4294967296) (b : Nat) (hb : b < 4096) :
    entryAddr a ||| b = a / 4096 * 4096 + b := by
  rw [entryAddr_eq h]
  exact or_low (k := 12) (Nat.mul_mod_left _ _) hb

theorem entryFrame_table {f : Nat} : entryFrame (f * 4096 + 3) = some f := by
  rw [entryFrame, present_eq, if_pos (by simp; omega)]
  congr 1
  omega

theorem entryFrame_zero : entryFrame 0 = none := rfl

/-! ## What the tables say -/

/-- The frame of the page table for directory index `d`. -/
def Kernel.table (k : Kernel) (d : Nat) : Option Nat := entryFrame (k.pageDirectory d).toNat

/-- The frame page `q` is mapped to. -/
def Kernel.frame (k : Kernel) (q : Nat) : Option Nat :=
  (k.table (q / 1024)).bind fun t => entryFrame (Bytes.load32 k.mem (t * 4096 + 4 * (q % 1024)))

theorem Kernel.table_lt {k : Kernel} {d t : Nat} (h : k.table d = some t) : t < 1048576 := by
  unfold Kernel.table entryFrame at h
  split at h
  · have := (k.pageDirectory d).toNat_lt
    obtain rfl := Option.some.inj h
    omega
  · exact absurd h (by simp)

theorem entryPointer_eq {k : Kernel} {v t : Nat} (h : k.table (v / 4096 / 1024) = some t) :
    entryPointer (k.pageDirectory (pageDirectoryIndex v)).toNat v =
      t * 4096 + 4 * (v / 4096 % 1024) := by
  unfold Kernel.table entryFrame at h
  split at h
  · rw [entryPointer, pageTableIndex_eq, pageDirectoryIndex_eq,
      entryAddr_eq (UInt32.toNat_lt _), Option.some.inj h]
  · exact absurd h (by simp)

theorem present_of_table {k : Kernel} {v t : Nat} (h : k.table (v / 4096 / 1024) = some t) :
    present (k.pageDirectory (pageDirectoryIndex v)).toNat = true := by
  unfold Kernel.table entryFrame at h
  rw [pageDirectoryIndex_eq]
  split at h
  · assumption
  · exact absurd h (by simp)

theorem not_present_of_table {k : Kernel} {v : Nat} (h : k.table (v / 4096 / 1024) = none) :
    present (k.pageDirectory (pageDirectoryIndex v)).toNat = false := by
  unfold Kernel.table entryFrame at h
  rw [pageDirectoryIndex_eq]
  split at h
  · exact absurd h (by simp)
  · next hp => simpa using hp

theorem Kernel.frame_of_table {k : Kernel} {q t : Nat} (h : k.table (q / 1024) = some t) :
    k.frame q = entryFrame (Bytes.load32 k.mem (t * 4096 + 4 * (q % 1024))) := by
  rw [Kernel.frame, h, Option.bind_some]

theorem Kernel.frame_of_no_table {k : Kernel} {q : Nat} (h : k.table (q / 1024) = none) :
    k.frame q = none := by
  rw [Kernel.frame, h, Option.bind_none]

/-- What a present entry contributes to an address. -/
theorem entry_or {e : Nat} (h : e < 4294967296) (v : Nat) :
    (if present e then some (entryAddr e ||| (v &&& 0xFFF)) else none) =
      (entryFrame e).map fun f => f * 4096 + v % 4096 := by
  unfold entryFrame
  split
  · rw [low_eq, entryAddr_or h _ (Nat.mod_lt _ (by decide)), Option.map_some]
  · rfl

/-- The processor's walk is the map. -/
theorem walk_eq (k : Kernel) (v : Nat) :
    k.walk v = (k.frame (v / 4096)).map fun f => f * 4096 + v % 4096 := by
  unfold Kernel.walk
  cases ht : k.table (v / 4096 / 1024) with
  | none =>
    rw [k.frame_of_no_table ht]
    simp [not_present_of_table ht]
  | some t =>
    rw [k.frame_of_table ht, ← entry_or (Bytes.load32_lt _ _), ← entryPointer_eq ht]
    simp [present_of_table ht]

theorem Kernel.translate_eq {k : Kernel} (hon : k.paging = true) {a : Nat}
    (ha : a < 4294967296) :
    AddressSpace.translate k a = (k.frame (a / 4096)).map fun f => f * 4096 + a % 4096 := by
  show (if k.paging then k.walk (u32 a) else some (u32 a)) = _
  rw [if_pos hon, u32_of_lt ha, walk_eq]

/-! ## Frames that can be used at their physical address

`Direct` is the one condition under which the code's pointers into tables mean what they should.
With paging off it holds by itself. Everything later modules say about the tables with paging on is
about keeping it. -/

/-- A pointer into frame `f` reaches frame `f`. -/
def Kernel.Direct (k : Kernel) (f : Nat) : Prop := k.paging = false ∨ k.frame f = some f

theorem Kernel.Direct.translate {k : Kernel} {f : Nat} (h : k.Direct f) (hf : f < 1048576)
    {a : Nat} (ha : a / 4096 = f) : AddressSpace.translate k a = some a := by
  have hlt : a < 4294967296 := by omega
  show (if k.paging then k.walk (u32 a) else some (u32 a)) = some a
  rw [u32_of_lt hlt]
  rcases h with hoff | hmap
  · simp [hoff]
  · split
    · rw [walk_eq, ha, hmap, Option.map_some]
      congr 1
      omega
    · rfl

theorem Kernel.Direct.load32 {k : Kernel} {f : Nat} (h : k.Direct f) (hf : f < 1048576)
    {i : Nat} (hi : i < 1024) :
    AddressSpace.load32 k (f * 4096 + 4 * i) =
      some (Bytes.load32 k.mem (f * 4096 + 4 * i)) := by
  unfold AddressSpace.load32 AddressSpace.load8
  rw [h.translate hf (by omega), h.translate hf (by omega), h.translate hf (by omega),
    h.translate hf (by omega)]
  rfl

theorem Kernel.Direct.store32 {k : Kernel} {f : Nat} (h : k.Direct f) (hf : f < 1048576)
    {i : Nat} (hi : i < 1024) (w : Nat) :
    AddressSpace.store32 k (f * 4096 + 4 * i) w =
      some { k with mem := Bytes.store32 k.mem (f * 4096 + 4 * i) w } := by
  unfold AddressSpace.store32
  rw [h.translate hf (by omega), h.translate hf (by omega), h.translate hf (by omega),
    h.translate hf (by omega)]
  rfl

/-- **`get_physical_address` reads the map**, and answers 0 where it is undefined. -/
theorem getPhysicalAddress_eq {k : Kernel} {v : Nat}
    (h : ∀ t, k.table (v / 4096 / 1024) = some t → k.Direct t) :
    getPhysicalAddress k v =
      some (((k.frame (v / 4096)).map fun f => f * 4096 + v % 4096).getD 0) := by
  unfold getPhysicalAddress
  cases ht : k.table (v / 4096 / 1024) with
  | none =>
    rw [k.frame_of_no_table ht]
    simp [not_present_of_table ht]
  | some t =>
    have hmod : v / 4096 % 1024 < 1024 := Nat.mod_lt _ (by decide)
    rw [k.frame_of_table ht, ← entry_or (Bytes.load32_lt _ _)]
    simp only [present_of_table ht, if_true, entryPointer_eq ht,
      (h t ht).load32 (Kernel.table_lt ht) hmod, Option.bind_eq_bind, Option.bind_some]
    split <;> rfl

end ScratchOs.Mem
