import ScratchOs.Boot.Multiboot
import ScratchOs.Lib.MemBitmap
import ScratchOs.Mem.Pmm
import Mathlib.Tactic.Tauto

/-!
# `init_pmm`

The allocator is set up in two passes over one bitmap that starts out full: `free_region`
clears the bits of every usable region, then `pmm_reserve_region` sets those of the first
MiB, the kernel image, the map buffer and the bitmap itself. Both round a region outwards to
whole pages, in 64-bit arithmetic (`pagesOf`), and neither looks at the size of the bitmap.

The passes are kept as a list of bit operations, because what they touch matters as much as
what they leave behind.

## Where the bitmap is matters

The bitmap is not a variable of the kernel. It is put right behind the image, in memory that
the loader may have used for the very structures `init_pmm` is reading. So everything here is a
function of one memory, and the reads stand where the source has them: `mem_lower` and
`mem_upper` before `mset`, the map and its address after it, the address once more between the
passes. `MapFound` says that all of them find what the loader left. It is a condition on the
memory map and not a fact about it, and there are two ways to have it: from a map beside the
bitmap and bit operations inside it (`MapBesideBitmap.found_of_inBounds`), or from a map below
the bitmap, whatever the operations do (`mapFound_of_below`).

With it, `mem_freeFrames_initPmm` is the summary later modules use: a frame is free after
`init_pmm` when a usable region touches it and no reserved one does.
-/

set_option autoImplicit false

namespace ScratchOs.Mem

open Bits Boot

/-- `kernel_start`, which the linker script puts at 1 MiB. -/
def kernelStart : Nat := 0x100000

/-- The linked kernel. What the linker chooses is where it ends; that is at or after its
start, and leaves a page below 4 GiB. -/
structure KernelImage where
  kernelEnd : Nat
  start_le : kernelStart ≤ kernelEnd
  end_le : kernelEnd ≤ 0xFFFFF000

/-- `ALIGN_UP(addr, 4096)` on a 32-bit address. -/
def alignUp (addr : Nat) : Nat := u32 (addr + 4095) &&& 0xFFFFF000

def bitmapAddr (image : KernelImage) : Nat := alignUp image.kernelEnd

/-- `max_frames` -/
def maxFramesOf (mb : MultibootInfo) : Nat := multibootGetTotalMemory mb / pageSize

/-- `bitmap_size`, in bytes. -/
def bitmapSizeOf (mb : MultibootInfo) : Nat := (maxFramesOf mb + 31) / 32 * 4

/-- `void mset(void* ptr, int value, uint32_t size)` -/
def mset (m : Bytes.Mem) (ptr : Nat) (value : UInt8) : Nat → Bytes.Mem
  | 0 => m
  | size + 1 => Bytes.store8 (mset m ptr value size) (u32 (ptr + size)) value

/-- One execution of `SET_BIT` or `CLEAR_BIT`. -/
inductive BitOp
  | set (idx : Nat)
  | clear (idx : Nat)
deriving DecidableEq

def BitOp.index : BitOp → Nat
  | .set idx => idx
  | .clear idx => idx

/-- `bitmap` is a pointer: an operation is a store, wherever its index leads. -/
def BitOp.run (image : KernelImage) (m : Bytes.Mem) : BitOp → Bytes.Mem
  | .set idx => setBitAt (bitmapAddr image) m idx
  | .clear idx => clearBitAt (bitmapAddr image) m idx

def runOps (image : KernelImage) (m : Bytes.Mem) (ops : List BitOp) : Bytes.Mem :=
  ops.foldl (BitOp.run image) m

/-- The loop `for (i = addr / 4096; i < (addr + size + 4096 - 1) / 4096; i++)`. -/
def pagesOf (addr size : Nat) : List Nat :=
  List.range' (addr / pageSize) (u64 (addr + size + 4095) / pageSize - addr / pageSize)

/-- `void free_region(uint64_t addr, uint64_t size)` -/
def freeRegion (addr size : Nat) : List BitOp := (pagesOf addr size).map .clear

/-- `void pmm_reserve_region(uint64_t addr, uint64_t size)` -/
def pmmReserveRegion (addr size : Nat) : List BitOp := (pagesOf addr size).map .set

/-- The bit operations of `init_pmm` up to the line that reserves the map buffer. -/
def opsBeforeMap (image : KernelImage) (regions : List MemoryRegion) : List BitOp :=
  (regions.filter (·.type == 1)).flatMap (fun r => freeRegion r.addr r.len) ++
    (pmmReserveRegion 0 (pageSize * 256) ++
      pmmReserveRegion kernelStart (image.kernelEnd - kernelStart))

/-- Memory after `mset(bitmap, 0xFF, bitmap_size)`. -/
def msetBitmap (image : KernelImage) (mem : Bytes.Mem) (mb : MultibootInfo) : Bytes.Mem :=
  mset mem (bitmapAddr image) 0xFF (bitmapSizeOf mb)

/-- The bit operations of `init_pmm`, in order; `a` is `mb_info`. `regions` is an array of 32 on
the stack; once `multiboot_get_usable_regions` has written past it there is no telling what runs
next. -/
def initPmmOps (image : KernelImage) (mem : Bytes.Mem) (a : Nat) : Option (List BitOp) := do
  let mb := readInfo mem a
  let mem := msetBitmap image mem mb
  let regions ← multibootGetUsableRegions mem (readInfo mem a) 32
  if 32 < regions.length then none
  else
    let ops := opsBeforeMap image regions
    -- `mb_info` is read once more, and the operations so far may have hit it.
    let mb' := readInfo (runOps image mem ops) a
    some (ops ++ (pmmReserveRegion mb'.mmapAddr mb'.mmapLength ++
      pmmReserveRegion (bitmapAddr image) (bitmapSizeOf mb)))

theorem maxFramesOf_lt (mb : MultibootInfo) : maxFramesOf mb < 1048576 := by
  have := u32_lt (u32 (mb.memUpper + mb.memLower) * 1024)
  simp only [maxFramesOf, multibootGetTotalMemory, pageSize]
  omega

/-- `void init_pmm(multiboot_info_t* mb_info)` -/
def initPmm (image : KernelImage) (mem : Bytes.Mem) (a : Nat) : Option Pmm :=
  (initPmmOps image mem a).map fun ops =>
    ⟨wordsAt (bitmapAddr image) (runOps image (msetBitmap image mem (readInfo mem a)) ops),
      maxFramesOf (readInfo mem a), maxFramesOf_lt _⟩

/-! ## What `mset` fills -/

theorem mset_of_forall {m : Bytes.Mem} {ptr : Nat} {value : UInt8} {c : Nat} : ∀ {size : Nat},
    (∀ i < size, c ≠ u32 (ptr + i)) → mset m ptr value size c = m c
  | 0, _ => rfl
  | size + 1, h => by
    rw [mset, Bytes.store8_of_ne _ (h size (Nat.lt_succ_self size)),
      mset_of_forall fun i hi => h i (Nat.lt_succ_of_lt hi)]

theorem mset_of_lt {m : Bytes.Mem} {ptr : Nat} {value : UInt8} {i : Nat} : ∀ {size : Nat},
    i < size → mset m ptr value size (u32 (ptr + i)) = value
  | size + 1, h => by
    rw [mset, Bytes.store8_apply]
    by_cases hi : i = size
    · rw [if_pos (by rw [hi])]
    · rw [mset_of_lt (by omega : i < size), ite_self]

/-- Byte `c` is one of the bitmap's. -/
def UnderBitmap (image : KernelImage) (mb : MultibootInfo) (c : Nat) : Prop :=
  ∃ i < bitmapSizeOf mb, c = u32 (bitmapAddr image + i)

theorem msetBitmap_apply {image : KernelImage} {mem : Bytes.Mem} {mb : MultibootInfo} {c : Nat}
    (h : ¬ UnderBitmap image mb c) : msetBitmap image mem mb c = mem c :=
  mset_of_forall fun i hi hc => h ⟨i, hi, hc⟩

theorem bitmapAddr_aligned (image : KernelImage) : bitmapAddr image % 4096 = 0 := by
  have hlt := u32_lt (image.kernelEnd + 4095)
  have hround : u32 (image.kernelEnd + 4095) &&& 0xFFFFF000 =
      u32 (image.kernelEnd + 4095) / 4096 * 4096 := and_high (k := 12) (n := 32) (by decide) hlt
  rw [bitmapAddr, alignUp, hround]
  exact Nat.mul_mod_left _ _

theorem bitmapAddr_aligned_word (image : KernelImage) : bitmapAddr image % 4 = 0 := by
  have := bitmapAddr_aligned image
  omega

/-- The bytes of the bitmap's words are bytes of the bitmap. -/
theorem underBitmap_word {image : KernelImage} {mb : MultibootInfo} {i c : Nat}
    (hi : i < bitmapSizeOf mb / 4) (hlo : wordAddr (bitmapAddr image) i ≤ c)
    (hhi : c < wordAddr (bitmapAddr image) i + 4) : UnderBitmap image mb c := by
  have halign := bitmapAddr_aligned_word image
  obtain ⟨k, rfl⟩ := Nat.exists_eq_add_of_le hlo
  refine ⟨4 * i + k, by omega, ?_⟩
  simp only [wordAddr, u32] at *
  omega

/-- The words `mset` reaches are full. -/
theorem wordsAt_msetBitmap (image : KernelImage) (mem : Bytes.Mem) (mb : MultibootInfo) {i : Nat}
    (h : i < bitmapSizeOf mb / 4) :
    wordsAt (bitmapAddr image) (msetBitmap image mem mb) i = BitVec.allOnes 32 := by
  have hbyte : ∀ k < 4, msetBitmap image mem mb (wordAddr (bitmapAddr image) i + k) = 0xFF := by
    intro k hk
    obtain ⟨j, hj, hc⟩ := underBitmap_word (c := wordAddr (bitmapAddr image) i + k) h
      (Nat.le_add_right _ _) (Nat.add_lt_add_left hk _)
    rw [hc]
    exact mset_of_lt hj
  have h₀ := hbyte 0 (by decide)
  rw [Nat.add_zero] at h₀
  rw [wordsAt, Bytes.load32, h₀, hbyte 1 (by decide), hbyte 2 (by decide), hbyte 3 (by decide)]
  decide

/-- The bits `mset` reaches are set. -/
theorem getBit_msetBitmap (image : KernelImage) (mem : Bytes.Mem) (mb : MultibootInfo) {f : Nat}
    (h : f < bitmapSizeOf mb / 4 * 32) :
    getBit (wordsAt (bitmapAddr image) (msetBitmap image mem mb)) f = true := by
  have hlt : f % 32 < 32 := Nat.mod_lt _ (by decide)
  rw [getBit, wordsAt_msetBitmap image mem mb (by omega), BitVec.getLsbD_allOnes]
  simpa using hlt

theorem scanned_le_bitmap (mb : MultibootInfo) :
    maxFramesOf mb / 32 * 32 ≤ bitmapSizeOf mb / 4 * 32 := by
  unfold bitmapSizeOf
  omega

/-! ## What the operations touch

An index comes from a 64-bit address, so an operation can lead round the address space and hit the
bitmap again from below. `runOps_apply` bounds the damage by words, whatever the index; with indices
inside the bitmap that comes down to the bitmap's own bytes (`runOps_of_inBounds`). -/

/-- An operation is a store to the word of its index. -/
theorem BitOp.run_apply {image : KernelImage} {m : Bytes.Mem} {op : BitOp} {c : Nat}
    (h : c < wordAddr (bitmapAddr image) (op.index / 32) ∨
      wordAddr (bitmapAddr image) (op.index / 32) + 4 ≤ c) : op.run image m c = m c := by
  cases op with
  | set idx => exact setBitAt_apply h
  | clear idx => exact clearBitAt_apply h

theorem runOps_apply {image : KernelImage} {c : Nat} : ∀ {ops : List BitOp} {m : Bytes.Mem},
    (∀ op ∈ ops, c < wordAddr (bitmapAddr image) (op.index / 32) ∨
      wordAddr (bitmapAddr image) (op.index / 32) + 4 ≤ c) → runOps image m ops c = m c
  | [], _, _ => rfl
  | op :: ops, m, h => by
    obtain ⟨hop, hops⟩ := List.forall_mem_cons.mp h
    show runOps image (op.run image m) ops c = m c
    rw [runOps_apply hops, BitOp.run_apply hop]

/-- Operations inside the bitmap touch the bitmap. -/
theorem runOps_of_inBounds {image : KernelImage} {mb : MultibootInfo} {ops : List BitOp}
    {m : Bytes.Mem} {c : Nat} (hops : ∀ op ∈ ops, op.index / 32 < bitmapSizeOf mb / 4)
    (hc : ¬ UnderBitmap image mb c) : runOps image m ops c = m c := by
  refine runOps_apply fun op hop => ?_
  by_contra hin
  exact hc (underBitmap_word (hops op hop) (by omega) (by omega))

theorem runOps_append (image : KernelImage) (m : Bytes.Mem) (ops₁ ops₂ : List BitOp) :
    runOps image m (ops₁ ++ ops₂) = runOps image (runOps image m ops₁) ops₂ :=
  List.foldl_append

theorem getBit_runOps_clears (image : KernelImage) (is : List Nat) (m : Bytes.Mem) {f : Nat}
    (hf : f < 34359738368) :
    getBit (wordsAt (bitmapAddr image) (runOps image m (is.map .clear))) f =
      (!decide (f ∈ is.map wrapIndex) && getBit (wordsAt (bitmapAddr image) m) f) := by
  rw [runOps, List.foldl_map]
  exact getBit_clearBitsAt (bitmapAddr_aligned_word image) hf is m

theorem getBit_runOps_sets (image : KernelImage) (is : List Nat) (m : Bytes.Mem) {f : Nat}
    (hf : f < 34359738368) :
    getBit (wordsAt (bitmapAddr image) (runOps image m (is.map .set))) f =
      (decide (f ∈ is.map wrapIndex) || getBit (wordsAt (bitmapAddr image) m) f) := by
  rw [runOps, List.foldl_map]
  exact getBit_setBitsAt (bitmapAddr_aligned_word image) hf is m

/-- What is reserved stays so through the reservations after it. -/
theorem getBit_runOps_reserve {image : KernelImage} {m : Bytes.Mem} {f : Nat}
    (hf : f < 34359738368) (addr size : Nat)
    (h : f ∈ pagesOf addr size ∨ getBit (wordsAt (bitmapAddr image) m) f = true) :
    getBit (wordsAt (bitmapAddr image) (runOps image m (pmmReserveRegion addr size))) f = true := by
  rw [pmmReserveRegion, getBit_runOps_sets image _ m hf, Bool.or_eq_true, decide_eq_true_eq]
  exact h.imp_left fun hmem => List.mem_map.mpr ⟨f, hmem, wrapIndex_of_lt hf⟩

/-! ## What `init_pmm` finds -/

/-- The four regions `init_pmm` reserves, in its order. -/
def reservedRegions (image : KernelImage) (mb : MultibootInfo) : List (Nat × Nat) :=
  [(0, pageSize * 256), (kernelStart, image.kernelEnd - kernelStart),
   (mb.mmapAddr, mb.mmapLength), (bitmapAddr image, bitmapSizeOf mb)]

/-- Frame `f` is one of those a usable region touches. -/
def Touched (mm : MemoryMap) (f : Nat) : Prop := ∃ e ∈ mm.usable, f ∈ pagesOf e.addr e.len

/-- Frame `f` is one of those `init_pmm` reserves. -/
def Reserved (image : KernelImage) (mm : MemoryMap) (f : Nat) : Prop :=
  ∃ r ∈ reservedRegions image mm.info, f ∈ pagesOf r.1 r.2

/-- Two copies of `mb_info` that point to one map buffer. -/
def SameBuffer (mb mb' : MultibootInfo) : Prop :=
  mb.mmapAddr = mb'.mmapAddr ∧ mb.mmapLength = mb'.mmapLength

/-- Memory after `mset`, on a machine with this map. -/
def filledMem (image : KernelImage) (mm : MemoryMap) : Bytes.Mem :=
  msetBitmap image mm.mem mm.info

/-- The operations of `init_pmm` up to the last look at `mb_info`, when it has read this map. -/
def mapOps (image : KernelImage) (mm : MemoryMap) : List BitOp :=
  opsBeforeMap image (mm.usable.map MmapEntry.toRegion)

/-- The walk of `init_pmm` finds the map as the loader left it: `mset` has not changed it, and
`mb_info` still points to it. -/
structure MapRead (image : KernelImage) (mm : MemoryMap) : Prop where
  map : mm.Intact (filledMem image mm)
  info : SameBuffer (readInfo (filledMem image mm) mm.infoAddr) mm.info

/-- The walk finds the map, and `mb_info` still points to it when the buffer is reserved. -/
structure MapFound (image : KernelImage) (mm : MemoryMap) : Prop extends MapRead image mm where
  again : SameBuffer (readInfo (runOps image (filledMem image mm) (mapOps image mm)) mm.infoAddr)
    mm.info

/-- Neither the information structure nor the map lies under the bitmap. -/
structure MapBesideBitmap (image : KernelImage) (mm : MemoryMap) : Prop where
  info : ∀ c, UnderBitmap image mm.info c → c < mm.infoAddr ∨ mm.infoAddr + multibootInfoSize ≤ c
  map : ∀ c, UnderBitmap image mm.info c →
    c < mm.info.mmapAddr ∨ mm.info.mmapAddr + mm.info.mmapLength ≤ c

/-- The fields of the structure are four of its bytes each. -/
theorem readInfo_congr {m m' : Bytes.Mem} {a : Nat}
    (h : ∀ c, a ≤ c → c < a + multibootInfoSize → m' c = m c) : readInfo m' a = readInfo m a := by
  unfold multibootInfoSize at h
  have hload : ∀ o, o + 4 ≤ 116 → Bytes.load32 m' (a + o) = Bytes.load32 m (a + o) :=
    fun o ho => Bytes.load32_congr fun k hk => h _ (by omega) (by omega)
  simp only [readInfo, hload 4 (by decide), hload 8 (by decide), hload 44 (by decide),
    hload 48 (by decide)]

theorem MapBesideBitmap.notUnder {image : KernelImage} {mm : MemoryMap}
    (h : MapBesideBitmap image mm) {c : Nat} (hlo : mm.infoAddr ≤ c)
    (hhi : c < mm.infoAddr + multibootInfoSize) : ¬ UnderBitmap image mm.info c := by
  intro hc
  rcases h.info c hc with hlt | hle
  · exact Nat.not_lt_of_le hlo hlt
  · exact Nat.not_lt_of_le hle hhi

theorem MapBesideBitmap.filledInfo {image : KernelImage} {mm : MemoryMap}
    (h : MapBesideBitmap image mm) : readInfo (filledMem image mm) mm.infoAddr = mm.info :=
  (readInfo_congr fun _ hlo hhi => msetBitmap_apply (h.notUnder hlo hhi)).trans mm.held

theorem MapBesideBitmap.read {image : KernelImage} {mm : MemoryMap}
    (h : MapBesideBitmap image mm) : MapRead image mm := by
  refine ⟨fun c hlo hhi => msetBitmap_apply fun hc => ?_, h.filledInfo ▸ ⟨rfl, rfl⟩⟩
  rcases h.map c hc with hlt | hle
  · exact Nat.not_lt_of_le hlo hlt
  · exact Nat.not_lt_of_le hle hhi

/-- Beside the bitmap, only the operations before the last look at `mb_info` are in question. -/
theorem MapBesideBitmap.found {image : KernelImage} {mm : MemoryMap}
    (h : MapBesideBitmap image mm)
    (hops : ∀ c, mm.infoAddr ≤ c → c < mm.infoAddr + multibootInfoSize →
      runOps image (filledMem image mm) (mapOps image mm) c = filledMem image mm c) :
    MapFound image mm := by
  have hagain : readInfo (runOps image (filledMem image mm) (mapOps image mm)) mm.infoAddr =
      mm.info := (readInfo_congr hops).trans h.filledInfo
  exact { h.read with again := hagain ▸ ⟨rfl, rfl⟩ }

/-- Operations inside the bitmap do no harm to a map beside it. -/
theorem MapBesideBitmap.found_of_inBounds {image : KernelImage} {mm : MemoryMap}
    (h : MapBesideBitmap image mm)
    (hin : ∀ op ∈ mapOps image mm, op.index / 32 < bitmapSizeOf mm.info / 4) :
    MapFound image mm :=
  h.found fun _ hlo hhi => runOps_of_inBounds hin (h.notUnder hlo hhi)

/-- The frames of the usable entries have indices below `2 ^ 32`. -/
def EntriesLow (mm : MemoryMap) : Prop := ∀ e ∈ mm.usable, e.addr + e.len ≤ 17592186044416

theorem mem_pagesOf {addr size f : Nat} :
    f ∈ pagesOf addr size ↔ addr / pageSize ≤ f ∧ f < u64 (addr + size + 4095) / pageSize := by
  simp only [pagesOf, List.mem_range'_1]
  omega

theorem usable_filter (mm : MemoryMap) :
    (mm.usable.map MmapEntry.toRegion).filter (·.type == 1) = mm.usable.map MmapEntry.toRegion := by
  rw [List.filter_eq_self]
  intro r hr
  obtain ⟨e, he, rfl⟩ := List.mem_map.mp hr
  exact (List.mem_filter.mp he).2

/-- The indices of the operations are the frames of the regions walked so far. -/
theorem mem_mapOps_index {image : KernelImage} {mm : MemoryMap} {op : BitOp}
    (h : op ∈ mapOps image mm) :
    (∃ e ∈ mm.usable, op.index ∈ pagesOf e.addr e.len) ∨
      op.index ∈ pagesOf 0 (pageSize * 256) ∨
      op.index ∈ pagesOf kernelStart (image.kernelEnd - kernelStart) := by
  rw [mapOps, opsBeforeMap, usable_filter, List.flatMap_map, List.mem_append, List.mem_append] at h
  rcases h with hclear | hlow | hkernel
  · obtain ⟨e, he, hop⟩ := List.mem_flatMap.mp hclear
    obtain ⟨i, hi, rfl⟩ := List.mem_map.mp hop
    exact Or.inl ⟨e, he, hi⟩
  · obtain ⟨i, hi, rfl⟩ := List.mem_map.mp hlow
    exact Or.inr (Or.inl hi)
  · obtain ⟨i, hi, rfl⟩ := List.mem_map.mp hkernel
    exact Or.inr (Or.inr hi)

theorem bitmapSizeOf_le (mb : MultibootInfo) : bitmapSizeOf mb ≤ 131072 := by
  have := maxFramesOf_lt mb
  unfold bitmapSizeOf
  omega

/-- Below the bitmap is beside it. -/
theorem mapBesideBitmap_of_below {image : KernelImage} {mm : MemoryMap}
    (hinfo : mm.infoAddr + multibootInfoSize ≤ bitmapAddr image)
    (hmap : mm.info.mmapAddr + mm.info.mmapLength ≤ bitmapAddr image)
    (hlow : bitmapAddr image ≤ 0x80000000) : MapBesideBitmap image mm := by
  have hsize := bitmapSizeOf_le mm.info
  have habove : ∀ c, UnderBitmap image mm.info c → bitmapAddr image ≤ c := by
    rintro c ⟨i, hi, rfl⟩
    rw [u32_of_lt (by omega)]
    exact Nat.le_add_right _ _
  exact ⟨fun c hc => Or.inr (Nat.le_trans hinfo (habove c hc)),
    fun c hc => Or.inr (Nat.le_trans hmap (habove c hc))⟩

/-- With the loader's data below the bitmap the operations do no harm either, inside or not, as
long as none leads round the end of the address space. -/
theorem mapFound_of_below {image : KernelImage} {mm : MemoryMap}
    (hinfo : mm.infoAddr + multibootInfoSize ≤ bitmapAddr image)
    (hmap : mm.info.mmapAddr + mm.info.mmapLength ≤ bitmapAddr image)
    (hlow : bitmapAddr image ≤ 0x80000000) (hentries : EntriesLow mm) : MapFound image mm := by
  have hbeside := mapBesideBitmap_of_below hinfo hmap hlow
  refine hbeside.found fun c hlo hhi => runOps_apply fun op hop => Or.inl ?_
  have hindex : op.index < 4294967296 := by
    have hend := image.end_le
    rcases mem_mapOps_index hop with ⟨e, he, hf⟩ | hf | hf
    · have hlen := hentries e he
      rw [mem_pagesOf, u64_of_lt (by omega)] at hf
      simp only [pageSize] at hf
      omega
    · rw [mem_pagesOf] at hf
      simp only [pageSize, u64] at hf
      omega
    · rw [mem_pagesOf, u64_of_lt (by simp only [kernelStart]; omega)] at hf
      simp only [pageSize, kernelStart] at hf
      omega
  rw [wordAddr, u32_of_lt (by omega)]
  omega

/-! ## Which operations run

`initPmmOps_eq` needs a map that is found, and gives the whole list. `initPmmOps_cases` needs
nothing and gives the shape of the list; the statements about a map that is not found, and about
what is reserved in any case, are from the second. -/

/-- The walk looks at nothing else of the structure. -/
theorem multibootGetUsableRegions_congr {mem : Bytes.Mem} {mb mb' : MultibootInfo}
    (h : SameBuffer mb mb') (n : Nat) :
    multibootGetUsableRegions mem mb n = multibootGetUsableRegions mem mb' n := by
  unfold multibootGetUsableRegions multibootIterateMmap
  rw [h.1, h.2]

theorem MapRead.usableRegions {image : KernelImage} {mm : MemoryMap} (h : MapRead image mm) :
    multibootGetUsableRegions (filledMem image mm) (readInfo (filledMem image mm) mm.infoAddr) 32 =
      some (mm.usable.map MmapEntry.toRegion) :=
  (multibootGetUsableRegions_congr h.info 32).trans (h.map.usableRegions_eq 32)

theorem initPmmOps_eq {image : KernelImage} {mm : MemoryMap} (hfound : MapFound image mm)
    (h : mm.usable.length ≤ 32) :
    initPmmOps image mm.mem mm.infoAddr =
      some (mm.usable.flatMap (fun e => freeRegion e.addr e.len) ++
        (reservedRegions image mm.info).flatMap fun r => pmmReserveRegion r.1 r.2) := by
  have hregions := hfound.usableRegions
  have hagain := hfound.again
  unfold filledMem mapOps at hagain
  unfold filledMem at hregions
  unfold initPmmOps
  simp only [mm.held, hregions, Option.bind_eq_bind, Option.bind_some, List.length_map]
  rw [if_neg (by omega), hagain.1, hagain.2, opsBeforeMap, usable_filter, List.flatMap_map]
  simp only [reservedRegions, List.flatMap_cons, List.flatMap_nil, List.append_nil,
    List.append_assoc, Option.some.injEq]
  rfl

/-- Whatever `init_pmm` has found, its operations are those for some regions, and two
reservations more. -/
theorem initPmmOps_cases {image : KernelImage} {mem : Bytes.Mem} {a : Nat} {ops : List BitOp}
    (h : initPmmOps image mem a = some ops) :
    ∃ (regions : List MemoryRegion) (mb' : MultibootInfo),
      multibootGetUsableRegions (msetBitmap image mem (readInfo mem a))
        (readInfo (msetBitmap image mem (readInfo mem a)) a) 32 = some regions ∧
      regions.length ≤ 32 ∧
      ops = opsBeforeMap image regions ++ (pmmReserveRegion mb'.mmapAddr mb'.mmapLength ++
        pmmReserveRegion (bitmapAddr image) (bitmapSizeOf (readInfo mem a))) := by
  unfold initPmmOps at h
  obtain ⟨regions, hregions, h⟩ := Option.bind_eq_some_iff.mp h
  split at h
  · exact absurd h (by simp)
  · next hlen =>
    exact ⟨regions, readInfo (runOps image (msetBitmap image mem (readInfo mem a))
      (opsBeforeMap image regions)) a, hregions, Nat.le_of_not_lt hlen, (Option.some.inj h).symm⟩

/-- On a map that the walk finds, they start with those for the map. -/
theorem MapRead.mapOps_mem {image : KernelImage} {mm : MemoryMap} {ops : List BitOp}
    (hread : MapRead image mm) (h : initPmmOps image mm.mem mm.infoAddr = some ops) :
    mm.usable.length ≤ 32 ∧ ∀ op ∈ mapOps image mm, op ∈ ops := by
  obtain ⟨regions, mb', hregions, hlen, rfl⟩ := initPmmOps_cases h
  rw [mm.held] at hregions
  obtain rfl := Option.some.inj (hregions.symm.trans hread.usableRegions)
  rw [List.length_map] at hlen
  exact ⟨hlen, fun op hop => List.mem_append_left _ hop⟩

theorem initPmm_returns {image : KernelImage} {mm : MemoryMap} (hread : MapRead image mm)
    (hcount : mm.usable.length ≤ 32) : ∃ s, initPmm image mm.mem mm.infoAddr = some s := by
  have hregions := hread.usableRegions
  unfold filledMem at hregions
  unfold initPmm initPmmOps
  simp only [mm.held, hregions, Option.bind_eq_bind, Option.bind_some, List.length_map]
  rw [if_neg (Nat.not_lt_of_le hcount)]
  exact ⟨_, rfl⟩

/-! ## What the bitmap says afterwards -/

/-- Whatever `init_pmm` has found, the first MiB and the kernel are reserved. -/
theorem taken_initPmm {image : KernelImage} {mem : Bytes.Mem} {a : Nat} {s : Pmm}
    (h : initPmm image mem a = some s) {f : Nat} (hf : f ∈ pagesOf 0 (pageSize * 256) ∨
      f ∈ pagesOf kernelStart (image.kernelEnd - kernelStart)) : s.taken f = true := by
  have hlt : f < 34359738368 := by
    have hend := image.end_le
    rw [mem_pagesOf, mem_pagesOf] at hf
    simp only [pageSize, u64, kernelStart] at hf
    omega
  obtain ⟨ops, hops, rfl⟩ := Option.map_eq_some_iff.mp h
  obtain ⟨regions, mb', _, _, rfl⟩ := initPmmOps_cases hops
  rw [Pmm.taken]
  simp only [runOps_append, opsBeforeMap]
  refine getBit_runOps_reserve hlt _ _ (Or.inr (getBit_runOps_reserve hlt _ _ (Or.inr ?_)))
  rcases hf with hlow | hkernel
  · exact getBit_runOps_reserve hlt _ _ (Or.inr (getBit_runOps_reserve hlt _ _ (Or.inl hlow)))
  · exact getBit_runOps_reserve hlt _ _ (Or.inl hkernel)

/-- The first MiB is never handed out; in particular frame 0, whose address is the failure
value, is not. -/
theorem mem_pagesOf_low {f : Nat} (h : f < 256) : f ∈ pagesOf 0 (pageSize * 256) := by
  rw [mem_pagesOf]
  simp only [pageSize, u64]
  omega

theorem reserved_low (image : KernelImage) (mm : MemoryMap) {f : Nat} (h : f < 256) :
    Reserved image mm f := ⟨(0, pageSize * 256), List.mem_cons_self, mem_pagesOf_low h⟩

theorem zero_notMem_freeFrames_initPmm {image : KernelImage} {mem : Bytes.Mem} {a : Nat}
    {s : Pmm} (h : initPmm image mem a = some s) : 0 ∉ s.freeFrames := by
  intro hmem
  have hfree := (Pmm.mem_freeFrames.mp hmem).2
  rw [taken_initPmm h (Or.inl (mem_pagesOf_low (by decide)))] at hfree
  exact absurd hfree (by simp)

/-- The frames of the reserved regions are within the address space. -/
theorem reserved_lt {image : KernelImage} {mm : MemoryMap} {f : Nat} (h : Reserved image mm f) :
    f < 34359738368 := by
  obtain ⟨r, hr, hf⟩ := h
  have hend := image.end_le
  have hstart := image.start_le
  have hbitmap := u32_lt (image.kernelEnd + 4095)
  have hround : bitmapAddr image ≤ u32 (image.kernelEnd + 4095) := Nat.and_le_left
  have hsize := bitmapSizeOf_le mm.info
  have hbuffer := mm.buffer_lt
  rw [mem_pagesOf] at hf
  have hlast : f < (r.1 + r.2 + 4095) / pageSize := Nat.lt_of_lt_of_le hf.2
    (Nat.div_le_div_right (Nat.mod_le _ _))
  simp only [reservedRegions, List.mem_cons, List.not_mem_nil, or_false] at hr
  rcases hr with rfl | rfl | rfl | rfl <;>
    simp only [pageSize, kernelStart] at hlast <;> omega

/-- What `init_pmm` leaves in the bitmap, when it has found the map. -/
theorem MapFound.taken {image : KernelImage} {mm : MemoryMap} {s : Pmm}
    (hfound : MapFound image mm) (h : initPmm image mm.mem mm.infoAddr = some s) {f : Nat}
    (hf : f < s.scanned) : s.taken f = true ↔ Reserved image mm f ∨
      ¬ ∃ e ∈ mm.usable, ∃ i ∈ pagesOf e.addr e.len, wrapIndex i = f := by
  have hscan := s.scanned_lt
  have hlt : f < 34359738368 := by omega
  obtain ⟨ops, hops, rfl⟩ := Option.map_eq_some_iff.mp h
  rw [initPmmOps_eq hfound (hfound.mapOps_mem hops).1, Option.some.injEq] at hops
  have hscanned : f < maxFramesOf mm.info / 32 * 32 := by
    simpa only [Pmm.scanned, mm.held] using hf
  have hfull : getBit (wordsAt (bitmapAddr image) (msetBitmap image mm.mem mm.info)) f = true :=
    getBit_msetBitmap image mm.mem mm.info
      (Nat.lt_of_lt_of_le hscanned (scanned_le_bitmap mm.info))
  have hclears : mm.usable.flatMap (fun e => freeRegion e.addr e.len) =
      (mm.usable.flatMap fun e => pagesOf e.addr e.len).map BitOp.clear := by
    rw [List.map_flatMap]
    rfl
  have hsets : (reservedRegions image mm.info).flatMap (fun r => pmmReserveRegion r.1 r.2) =
      ((reservedRegions image mm.info).flatMap fun r => pagesOf r.1 r.2).map BitOp.set := by
    rw [List.map_flatMap]
    rfl
  have hreserved : ((reservedRegions image mm.info).flatMap fun r => pagesOf r.1 r.2).map wrapIndex =
      (reservedRegions image mm.info).flatMap fun r => pagesOf r.1 r.2 := by
    refine map_wrapIndex fun i hi => ?_
    obtain ⟨r, hr, hi⟩ := List.mem_flatMap.mp hi
    exact reserved_lt ⟨r, hr, hi⟩
  change getBit (wordsAt (bitmapAddr image)
    (runOps image (msetBitmap image mm.mem (readInfo mm.mem mm.infoAddr)) ops)) f = true ↔ _
  rw [← hops, hclears, hsets, mm.held, runOps_append, getBit_runOps_sets image _ _ hlt,
    getBit_runOps_clears image _ _ hlt, hfull, hreserved, Bool.or_eq_true, decide_eq_true_eq,
    Bool.and_true, Bool.not_eq_true', decide_eq_false_iff_not]
  refine or_congr List.mem_flatMap (not_congr ?_)
  constructor
  · intro hf
    obtain ⟨i, hi, rfl⟩ := List.mem_map.mp hf
    obtain ⟨e, he, hi⟩ := List.mem_flatMap.mp hi
    exact ⟨e, he, i, hi, rfl⟩
  · rintro ⟨e, he, i, hi, rfl⟩
    exact List.mem_map_of_mem (List.mem_flatMap.mpr ⟨e, he, hi⟩)

/-- `init_pmm` finds the free frames: those a usable region touches and no reserved one. -/
theorem mem_freeFrames_initPmm {image : KernelImage} {mm : MemoryMap} {s : Pmm}
    (hfound : MapFound image mm) (hlow : EntriesLow mm)
    (h : initPmm image mm.mem mm.infoAddr = some s) (f : Nat) :
    f ∈ s.freeFrames ↔ f < maxFramesOf mm.info / 32 * 32 ∧ Touched mm f ∧
      ¬ Reserved image mm f := by
  have hscanned : s.scanned = maxFramesOf mm.info / 32 * 32 := by
    obtain ⟨ops, _, rfl⟩ := Option.map_eq_some_iff.mp h
    simp only [Pmm.scanned, mm.held]
  have htouched : (∃ e ∈ mm.usable, ∃ i ∈ pagesOf e.addr e.len, wrapIndex i = f) ↔
      Touched mm f := by
    refine exists_congr fun e => and_congr_right fun he => ?_
    -- No index of an entry leads round the address space.
    have hwrap : ∀ i ∈ pagesOf e.addr e.len, wrapIndex i = i := by
      intro i hi
      have hlen := hlow e he
      rw [mem_pagesOf, u64_of_lt (by omega)] at hi
      simp only [pageSize] at hi
      exact wrapIndex_of_lt (by omega)
    constructor
    · rintro ⟨i, hi, rfl⟩
      exact (hwrap i hi).symm ▸ hi
    · exact fun hf => ⟨f, hf, hwrap f hf⟩
  rw [Pmm.mem_freeFrames, ← hscanned]
  refine and_congr_right fun hlt => ?_
  rw [← Bool.not_eq_true, hfound.taken h hlt, htouched, not_or, not_not, and_comm]

/-- No reserved frame is free, wherever the usable regions lie. -/
theorem not_reserved_of_mem_freeFrames {image : KernelImage} {mm : MemoryMap} {s : Pmm}
    (hfound : MapFound image mm) (h : initPmm image mm.mem mm.infoAddr = some s) {f : Nat}
    (hf : f ∈ s.freeFrames) : ¬ Reserved image mm f := by
  obtain ⟨hlt, hfree⟩ := Pmm.mem_freeFrames.mp hf
  intro hreserved
  rw [(hfound.taken h hlt).mpr (Or.inl hreserved)] at hfree
  exact absurd hfree (by simp)

end ScratchOs.Mem
