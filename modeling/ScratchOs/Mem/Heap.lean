import ScratchOs.Mem.Vmm

/-!
# The kernel heap

`kernel/mem/heap.cpp`. The heap is a linked list of blocks that lives in the memory it
manages: a `heap_block_t` of 16 bytes, then the payload. Every field access below is a load or
a store through the address space, so a block that is not where the code thinks it is shows as
a fault or as somebody else's bytes.

The file knows the rest of the kernel through two calls, `pmm_alloc_page` and `map_page`. They
are the `Pager` the functions take; `none` is a `map_page` that does not return.

## Why the list is in memory

A list of blocks as a Lean list would be shorter and would beg the question. What can go wrong with
an allocator of this kind is that a header is written where another one is, or where a caller's
bytes are; that a link leads to an address at which there is no block; that a sum of sizes has
wrapped and the block is not as large as its header says. None of this can be said of a value of
type `List Block`, and all of it is a fact about bytes at addresses.

The list of blocks comes back in the next module, as what one finds by following the links
(`Seg`). It is then a result that there is one.

The pager is a parameter because two machines use it. On one, `Ideal`, frames come from a supply and
a mapping is a function; the heap is judged there by itself. The other is the kernel, where
`map_page` writes page tables that the heap could overwrite.
-/

set_option autoImplicit false

namespace ScratchOs.Mem

open AddressSpace Bits

/-- The calls `expand_heap` and `init_heap` make. -/
structure Pager (σ : Type) where
  pmmAllocPage : σ → Nat × σ
  mapPage : σ → Nat → Nat → Option σ

/-- The statics of the file, beside the machine. -/
structure Heap (σ : Type) where
  machine : σ
  firstBlock : Nat
  heapLimit : Nat

/-- `sizeof(heap_block_t)` -/
def blockHeader : Nat := 16

section Fields

/-! `size` is at offset 0, `is_free`, one byte, at 4, `next` at 8 and `prev` at 12. -/

variable {σ : Type} [AddressSpace σ]

def loadSize (s : σ) (block : Nat) : Option Nat := load32 s block

def loadFree (s : σ) (block : Nat) : Option Bool := (load8 s (block + 4)).map (· != 0)

def loadNext (s : σ) (block : Nat) : Option Nat := load32 s (block + 8)

def storeSize (s : σ) (block size : Nat) : Option σ := store32 s block size

def storeFree (s : σ) (block : Nat) (free : Bool) : Option σ :=
  store8 s (block + 4) (if free then 1 else 0)

def storeNext (s : σ) (block next : Nat) : Option σ := store32 s (block + 8) next

def storePrev (s : σ) (block prev : Nat) : Option σ := store32 s (block + 12) prev

end Fields

variable {σ : Type} [AddressSpace σ]

/-- `void init_heap()`; it does not look whether there was a page. -/
def initHeap (pager : Pager σ) (s : σ) : Option (Heap σ) := do
  let (page, s) := pager.pmmAllocPage s
  let heapStart := paVa page
  let heapEnd := u32 (heapStart + 4096)
  let s ← storeSize s heapStart (4096 - blockHeader)
  let s ← storeFree s heapStart true
  let s ← storeNext s heapStart 0
  let s ← storePrev s heapStart 0
  some ⟨s, heapStart, heapEnd⟩

/-- The search of `kmalloc`: the block it stops at (0 at the end of the list), and the last
one it looked at before. A walk that takes more steps than there are addresses is in a
cycle: `none`. -/
def findFit (s : σ) (size : Nat) : Nat → Nat → Nat → Option (Nat × Nat)
  | 0, _, _ => none
  | fuel + 1, currentBlock, lastBlock => do
    if currentBlock = 0 then some (0, lastBlock)
    else
      let isFree ← loadFree s currentBlock
      let fits ← if isFree then (loadSize s currentBlock).map (decide <| size ≤ ·) else some false
      if fits then some (currentBlock, lastBlock)
      else
        let next ← loadNext s currentBlock
        findFit s size fuel next currentBlock

/-- What `kmalloc` does with a block that fits: split it, or use it whole. -/
def useBlock (s : σ) (currentBlock size : Nat) : Option σ := do
  let blockSize ← loadSize s currentBlock
  let remaining := blockSize - size
  if blockHeader + 4 ≤ remaining then
    let s ← storeFree s currentBlock false
    let s ← storeSize s currentBlock size
    let newBlock := u32 (currentBlock + blockHeader + size)
    let s ← storeSize s newBlock (remaining - blockHeader)
    let s ← storeFree s newBlock true
    let next ← loadNext s currentBlock
    let s ← storeNext s newBlock next
    let s ← storePrev s newBlock currentBlock
    storeNext s currentBlock newBlock
  else storeFree s currentBlock false

/-- The first loop of `expand_heap`. A page is taken and mapped at `heap_limit`, once for each
page needed; the flag says whether there were enough. -/
def growHeap (pager : Pager σ) : Nat → Heap σ → Option (Bool × Heap σ)
  | 0, h => some (true, h)
  | pages + 1, h =>
    let (newPage, machine) := pager.pmmAllocPage h.machine
    if newPage = 0 then some (false, { h with machine })
    else do
      let machine ← pager.mapPage machine h.heapLimit newPage
      growHeap pager pages { h with machine, heapLimit := u32 (h.heapLimit + 4096) }

omit [AddressSpace σ] in
theorem growHeap_succ (pager : Pager σ) (pages : Nat) (h : Heap σ) :
    growHeap pager (pages + 1) h =
      if (pager.pmmAllocPage h.machine).1 = 0 then
        some (false, { h with machine := (pager.pmmAllocPage h.machine).2 })
      else
        (pager.mapPage (pager.pmmAllocPage h.machine).2 h.heapLimit
          (pager.pmmAllocPage h.machine).1).bind fun machine =>
            growHeap pager pages { h with machine, heapLimit := u32 (h.heapLimit + 4096) } := rfl

omit [AddressSpace σ] in
/-- Where all pages came, the first one did. -/
theorem growHeap_grown {pager : Pager σ} {pages : Nat} {h h' : Heap σ}
    (hrun : growHeap pager (pages + 1) h = some (true, h')) :
    (pager.pmmAllocPage h.machine).1 ≠ 0 ∧ ∃ machine,
      pager.mapPage (pager.pmmAllocPage h.machine).2 h.heapLimit (pager.pmmAllocPage h.machine).1 =
          some machine ∧
        growHeap pager pages { h with machine, heapLimit := u32 (h.heapLimit + 4096) } =
          some (true, h') := by
  rw [growHeap_succ] at hrun
  split at hrun
  · exact absurd (Prod.mk.inj (Option.some.inj hrun)).1 Bool.false_ne_true
  · next hpage => exact ⟨hpage, Option.bind_eq_some_iff.mp hrun⟩

/-- The rest of `expand_heap`: the new block is linked in after the last one, and what is left
of its pages becomes a free block. -/
def appendBlock (s : σ) (newBlock neededSize neededPages size lastBlock : Nat) : Option σ := do
  let s ← storeSize s newBlock size
  let s ← storeFree s newBlock false
  let s ← storePrev s newBlock lastBlock
  let s ← storeNext s newBlock 0
  let s ← storeNext s lastBlock newBlock
  let remaining := u32 (neededPages * 4096 + 4294967296 - neededSize)
  if blockHeader + 4 < remaining then
    let newFreeBlock := u32 (newBlock + neededSize)
    let s ← storeSize s newFreeBlock (remaining - blockHeader)
    let s ← storeNext s newFreeBlock 0
    let s ← storeFree s newFreeBlock true
    let s ← storePrev s newFreeBlock newBlock
    storeNext s newBlock newFreeBlock
  else some s

/-- `void* expand_heap(uintptr_t size, heap_block_t* last_block)`; 0 when the pages run out. -/
def expandHeap (pager : Pager σ) (h : Heap σ) (size lastBlock : Nat) :
    Option (Nat × Heap σ) := do
  let neededSize := u32 (size + blockHeader)
  let neededPages := u32 (neededSize + 4095) / 4096
  let newBlockAddr := h.heapLimit
  let lastBlock := if lastBlock = 0 then h.firstBlock else lastBlock
  let (enough, h) ← growHeap pager neededPages h
  if enough then
    let machine ← appendBlock h.machine newBlockAddr neededSize neededPages size lastBlock
    some (newBlockAddr, { h with machine })
  else some (0, h)

/-- `(size + 3) & ~3`, in 32 bits. -/
def roundSize (size : Nat) : Nat := u32 (size + 3) &&& 0xFFFFFFFC

/-- `void* kmalloc(uint32_t size)` -/
def kmalloc (pager : Pager σ) (h : Heap σ) (size : Nat) : Option (Nat × Heap σ) := do
  let size := roundSize size
  if size = 0 then some (0, h)
  else
    let (currentBlock, lastBlock) ← findFit h.machine size 4294967296 h.firstBlock h.firstBlock
    if currentBlock = 0 then
      let (currentBlock, h) ← expandHeap pager h size lastBlock
      if currentBlock = 0 then some (0, h)
      else some (u32 (currentBlock + blockHeader), h)
    else
      let machine ← useBlock h.machine currentBlock size
      some (u32 (currentBlock + blockHeader), { h with machine })

/-- The loop of `coalesce_free_blocks`. Merging leaves `current_block` where it is. -/
def coalesceFrom : Nat → σ → Nat → Option σ
  | 0, _, _ => none
  | fuel + 1, s, currentBlock => do
    let next ← loadNext s currentBlock
    if next = 0 then some s
    else
      let isFree ← loadFree s currentBlock
      let bothFree ← if isFree then loadFree s next else some false
      if bothFree then
        let nextSize ← loadSize s next
        let blockSize ← loadSize s currentBlock
        let s ← storeSize s currentBlock (u32 (blockSize + (nextSize + blockHeader)))
        let nextNext ← loadNext s next
        let s ← storeNext s currentBlock nextNext
        let s ← if nextNext = 0 then some s else storePrev s nextNext currentBlock
        coalesceFrom fuel s currentBlock
      else coalesceFrom fuel s next

/-- `void coalesce_free_blocks()` -/
def coalesceFreeBlocks (s : σ) (firstBlock : Nat) : Option σ :=
  coalesceFrom 4294967296 s firstBlock

/-- `void kfree(void* ptr)` -/
def kfree (h : Heap σ) (ptr : Nat) : Option (Heap σ) := do
  let block := u32 (ptr + 4294967296 - blockHeader)
  let s ← storeFree h.machine block true
  let machine ← coalesceFreeBlocks s h.firstBlock
  some { h with machine }

end ScratchOs.Mem
