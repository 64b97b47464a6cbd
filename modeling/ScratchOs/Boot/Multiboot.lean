import ScratchOs.Lib.Bits
import ScratchOs.Lib.Bytes

/-!
# The multiboot memory map

What the boot loader leaves in memory, and `boot/multiboot_helpers.cpp`, which reads it. The
map is a run of variable-length entries: `current_addr += entry->size + 4`, in 32-bit
arithmetic, until it reaches `mmap_addr + mmap_length`. Both the frame allocator and the
paging code see the map only through `multiboot_get_usable_regions`.

`MemoryMap` is a map as a loader that follows the format writes it: the information structure
in memory, the entries back to back, each of at least 20 bytes after its size word, filling the
buffer exactly. On such a map the walk visits the entries in order
(`multibootIterateMmap_entries`), and the usable regions are the type-1 entries
(`multibootGetUsableRegions_entries`).

Both facts are about *a memory that holds the entries*, not about the loader's memory. The
kernel writes into memory between the loader and each of its walks: it fills the frame bitmap,
it zeroes page tables. What a walk finds is the map only where those stores have left it, and
`Entries.congr` and `MemoryMap.Intact` say what there is to leave: the bytes of the buffer, and
nothing else. The information structure is a separate matter. It lies elsewhere, nothing
reserves it, and its fields are read again before each use; so the functions here take the
fields they have read (`MultibootInfo`), and `readInfo` is the reading.
-/

set_option autoImplicit false

namespace ScratchOs.Boot

open Bits

/-- The fields of `multiboot_info_t` that the memory code reads. -/
structure MultibootInfo where
  memLower : Nat
  memUpper : Nat
  mmapLength : Nat
  mmapAddr : Nat
  memLower_lt : memLower < 4294967296 := by decide
  memUpper_lt : memUpper < 4294967296 := by decide
  mmapLength_lt : mmapLength < 4294967296 := by decide
  mmapAddr_lt : mmapAddr < 4294967296 := by decide

/-- `sizeof(multiboot_info_t)`: the structure is packed. -/
def multibootInfoSize : Nat := 116

/-- `*mb_info`, as far as it is modelled. `mmap_length` and `mmap_addr` come after the symbol
table, at offsets 44 and 48. -/
def readInfo (mem : Bytes.Mem) (a : Nat) : MultibootInfo where
  memLower := Bytes.load32 mem (a + 4)
  memUpper := Bytes.load32 mem (a + 8)
  mmapLength := Bytes.load32 mem (a + 44)
  mmapAddr := Bytes.load32 mem (a + 48)
  memLower_lt := Bytes.load32_lt _ _
  memUpper_lt := Bytes.load32_lt _ _
  mmapLength_lt := Bytes.load32_lt _ _
  mmapAddr_lt := Bytes.load32_lt _ _

/-- `mmap_entry_t`; `size` does not count the size word itself. -/
structure MmapEntry where
  size : Nat
  addr : Nat
  len : Nat
  type : Nat
deriving DecidableEq, Repr

/-- `memory_region_t` -/
structure MemoryRegion where
  addr : Nat
  len : Nat
  type : Nat
deriving DecidableEq, Repr

/-- `*(mmap_entry_t*)a`, a packed structure of 24 bytes. -/
def readEntry (mem : Bytes.Mem) (a : Nat) : MmapEntry where
  size := Bytes.load32 mem a
  addr := Bytes.load64 mem (a + 4)
  len := Bytes.load64 mem (a + 12)
  type := Bytes.load32 mem (a + 20)

/-- `mem_upper + mem_lower` KiB, as a 32-bit product. -/
def multibootGetTotalMemory (mb : MultibootInfo) : Nat :=
  u32 (u32 (mb.memUpper + mb.memLower) * 1024)

/-- The loop of `multiboot_iterate_mmap`. The walk does not write, so a loop that runs longer
than there are addresses has come back to one it has seen and never ends: `none`. -/
def iterateFrom {α : Type} (mem : Bytes.Mem) (callback : α → Nat → α) (endAddr : Nat) :
    Nat → Nat → α → Option α
  | 0, _, _ => none
  | fuel + 1, currentAddr, ctx =>
    if currentAddr < endAddr then
      iterateFrom mem callback endAddr fuel
        (u32 (currentAddr + u32 (Bytes.load32 mem currentAddr + 4))) (callback ctx currentAddr)
    else some ctx

def multibootIterateMmap {α : Type} (mem : Bytes.Mem) (mb : MultibootInfo)
    (callback : α → Nat → α) (ctx : α) : Option α :=
  iterateFrom mem callback (u32 (mb.mmapAddr + mb.mmapLength)) 4294967296 mb.mmapAddr ctx

def multibootIsMemoryRegionUsable (entry : MmapEntry) : Bool := entry.type == 1

/-- The regions written to the caller's array, `regions[0]` first; the length is the count
returned. The bound is handed to the callback in its context, and the callback never looks
at it. -/
def multibootGetUsableRegions (mem : Bytes.Mem) (mb : MultibootInfo) (_maxRegions : Nat) :
    Option (List MemoryRegion) :=
  multibootIterateMmap mem mb (fun regions a =>
    let entry := readEntry mem a
    if multibootIsMemoryRegionUsable entry then
      regions ++ [⟨entry.addr, entry.len, entry.type⟩]
    else regions) []

/-! ## Well-formed maps

`Entries` asks for 20 bytes behind each size word and not for exactly 20: the format lets entries
grow, and the walk is written for that. The upper end is an equation, so a map whose last entry
runs past `mmap_length` is not well formed. `MemoryMap` carries both as fields, and no later
statement has to ask for them. -/

/-- The entries lie back to back from `a` up to `endAddr`. -/
def Entries (mem : Bytes.Mem) : Nat → List MmapEntry → Nat → Prop
  | a, [], endAddr => a = endAddr
  | a, e :: es, endAddr =>
    readEntry mem a = e ∧ 20 ≤ e.size ∧ Entries mem (a + e.size + 4) es endAddr

/-- A memory map as the loader hands it over: the information structure, where it lies, the
buffer it points to, and the entries that buffer holds. -/
structure MemoryMap where
  mem : Bytes.Mem
  info : MultibootInfo
  infoAddr : Nat
  entries : List MmapEntry
  held : readInfo mem infoAddr = info
  buffer_lt : info.mmapAddr + info.mmapLength < 4294967296
  layout : Entries mem info.mmapAddr entries (info.mmapAddr + info.mmapLength)

def MmapEntry.toRegion (e : MmapEntry) : MemoryRegion := ⟨e.addr, e.len, e.type⟩

/-- The type-1 entries, in map order. -/
def MemoryMap.usable (mm : MemoryMap) : List MmapEntry :=
  mm.entries.filter multibootIsMemoryRegionUsable

/-! ### Every list of entries is a map

`storeEntries` writes a list of entries the way a loader does, and `storeInfo` the structure
that points to them; the walk reads back what they wrote. So a statement about every `MemoryMap`
is one about every list of entries. -/

def storeEntry (m : Bytes.Mem) (a : Nat) (e : MmapEntry) : Bytes.Mem :=
  Bytes.store32 (Bytes.store64 (Bytes.store64 (Bytes.store32 m a e.size) (a + 4) e.addr)
    (a + 12) e.len) (a + 20) e.type

def storeEntries (m : Bytes.Mem) : Nat → List MmapEntry → Bytes.Mem
  | _, [] => m
  | a, e :: es => storeEntry (storeEntries m (a + 24) es) a e

def storeInfo (m : Bytes.Mem) (a : Nat) (mb : MultibootInfo) : Bytes.Mem :=
  Bytes.store32 (Bytes.store32 (Bytes.store32 (Bytes.store32 m (a + 4) mb.memLower) (a + 8)
    mb.memUpper) (a + 44) mb.mmapLength) (a + 48) mb.mmapAddr

/-- An entry without padding whose fields fit their widths. -/
def MmapEntry.Plain (e : MmapEntry) : Prop :=
  e.size = 20 ∧ e.addr < 18446744073709551616 ∧ e.len < 18446744073709551616 ∧
    e.type < 4294967296

instance (e : MmapEntry) : Decidable e.Plain := inferInstanceAs (Decidable (_ ∧ _ ∧ _ ∧ _))

/-- An entry of any size whose fields fit their widths. -/
def MmapEntry.Fits (e : MmapEntry) : Prop :=
  e.size < 4294967296 ∧ e.addr < 18446744073709551616 ∧ e.len < 18446744073709551616 ∧
    e.type < 4294967296

instance (e : MmapEntry) : Decidable e.Fits := inferInstanceAs (Decidable (_ ∧ _ ∧ _ ∧ _))

theorem MmapEntry.Plain.fits {e : MmapEntry} (h : e.Plain) : e.Fits :=
  ⟨by have := h.1; omega, h.2⟩

theorem storeEntry_apply_of_disjoint {m : Bytes.Mem} {a c : Nat} (e : MmapEntry)
    (h : c < a ∨ a + 24 ≤ c) : storeEntry m a e c = m c := by
  unfold storeEntry
  rw [Bytes.store32_apply_of_disjoint _ (by omega), Bytes.store64_apply_of_disjoint _ (by omega),
    Bytes.store64_apply_of_disjoint _ (by omega), Bytes.store32_apply_of_disjoint _ (by omega)]

theorem readEntry_storeEntry (m : Bytes.Mem) (a : Nat) {e : MmapEntry} (h : e.Fits) :
    readEntry (storeEntry m a e) a = e := by
  obtain ⟨hsize, haddr, hlen, htype⟩ := h
  have h₁ : Bytes.load32 (storeEntry m a e) a = e.size := by
    rw [← Bytes.load32_store32_of_lt m a hsize]
    refine Bytes.load32_congr fun i hi => ?_
    unfold storeEntry
    rw [Bytes.store32_apply_of_disjoint _ (by omega),
      Bytes.store64_apply_of_disjoint _ (by omega), Bytes.store64_apply_of_disjoint _ (by omega)]
  have h₂ : Bytes.load64 (storeEntry m a e) (a + 4) = e.addr := by
    rw [← Bytes.load64_store64_of_lt (Bytes.store32 m a e.size) (a + 4) haddr]
    refine Bytes.load64_congr fun i hi => ?_
    unfold storeEntry
    rw [Bytes.store32_apply_of_disjoint _ (by omega), Bytes.store64_apply_of_disjoint _ (by omega)]
  have h₃ : Bytes.load64 (storeEntry m a e) (a + 12) = e.len := by
    rw [← Bytes.load64_store64_of_lt
      (Bytes.store64 (Bytes.store32 m a e.size) (a + 4) e.addr) (a + 12) hlen]
    refine Bytes.load64_congr fun i hi => ?_
    unfold storeEntry
    rw [Bytes.store32_apply_of_disjoint _ (by omega)]
  have h₄ : Bytes.load32 (storeEntry m a e) (a + 20) = e.type :=
    Bytes.load32_store32_of_lt _ _ htype
  cases e
  simp only [readEntry, h₁, h₂, h₃, h₄]

/-- The entries of a map and the information structure do not touch. -/
theorem readInfo_storeEntry {m : Bytes.Mem} {a i : Nat} (e : MmapEntry)
    (h : i + multibootInfoSize ≤ a) : readInfo (storeEntry m a e) i = readInfo m i := by
  unfold multibootInfoSize at h
  have hload : ∀ o, o + 4 ≤ 116 →
      Bytes.load32 (storeEntry m a e) (i + o) = Bytes.load32 m (i + o) :=
    fun o ho => Bytes.load32_congr fun k hk => storeEntry_apply_of_disjoint e (by omega)
  simp only [readInfo, hload 4 (by decide), hload 8 (by decide), hload 44 (by decide),
    hload 48 (by decide)]

theorem Entries.le {mem : Bytes.Mem} : ∀ {es : List MmapEntry} {a endAddr : Nat},
    Entries mem a es endAddr → a + 24 * es.length ≤ endAddr
  | [], _, _, h => by simp only [Entries] at h; simp [h]
  | e :: es, a, endAddr, h => by
    obtain ⟨_, hsize, hrest⟩ := h
    have := Entries.le hrest
    simp only [List.length_cons]
    omega

/-- A map depends on the bytes of its buffer only. -/
theorem Entries.congr {m m' : Bytes.Mem} : ∀ {es : List MmapEntry} {a endAddr : Nat},
    (∀ c, a ≤ c → c < endAddr → m' c = m c) → Entries m a es endAddr → Entries m' a es endAddr
  | [], _, _, _, h => h
  | e :: es, a, endAddr, hc, h => by
    obtain ⟨hread, hsize, hrest⟩ := h
    have hle := Entries.le hrest
    refine ⟨?_, hsize, Entries.congr (fun c hlo hhi => hc c (by omega) hhi) hrest⟩
    rw [← hread]
    simp only [readEntry]
    rw [Bytes.load32_congr fun i _ => hc (a + i) (by omega) (by omega),
      Bytes.load64_congr fun i _ => hc (a + 4 + i) (by omega) (by omega),
      Bytes.load64_congr fun i _ => hc (a + 12 + i) (by omega) (by omega),
      Bytes.load32_congr fun i _ => hc (a + 20 + i) (by omega) (by omega)]

theorem entries_storeEntries (m : Bytes.Mem) : ∀ (a : Nat) {es : List MmapEntry},
    (∀ e ∈ es, e.Plain) → Entries (storeEntries m a es) a es (a + 24 * es.length)
  | a, [], _ => by simp [Entries]
  | a, e :: es, h => by
    have he := h e List.mem_cons_self
    have hrest := entries_storeEntries m (a + 24) fun x hx => h x (List.mem_cons_of_mem _ hx)
    refine ⟨readEntry_storeEntry _ _ he.fits, by rw [he.1], ?_⟩
    rw [he.1, List.length_cons, show a + 24 * (es.length + 1) = a + 24 + 24 * es.length by omega]
    exact hrest.congr fun c hc _ => storeEntry_apply_of_disjoint e (Or.inr hc)

theorem storeInfo_apply_of_le {m : Bytes.Mem} {a c : Nat} (mb : MultibootInfo)
    (h : a + multibootInfoSize ≤ c) : storeInfo m a mb c = m c := by
  unfold multibootInfoSize at h
  unfold storeInfo
  rw [Bytes.store32_apply_of_disjoint _ (by omega), Bytes.store32_apply_of_disjoint _ (by omega),
    Bytes.store32_apply_of_disjoint _ (by omega), Bytes.store32_apply_of_disjoint _ (by omega)]

theorem readInfo_storeInfo (m : Bytes.Mem) (a : Nat) (mb : MultibootInfo) :
    readInfo (storeInfo m a mb) a = mb := by
  have hlower : Bytes.load32 (storeInfo m a mb) (a + 4) = mb.memLower := by
    rw [storeInfo, Bytes.load32_store32_of_disjoint _ (by omega),
      Bytes.load32_store32_of_disjoint _ (by omega), Bytes.load32_store32_of_disjoint _ (by omega),
      Bytes.load32_store32_of_lt _ _ mb.memLower_lt]
  have hupper : Bytes.load32 (storeInfo m a mb) (a + 8) = mb.memUpper := by
    rw [storeInfo, Bytes.load32_store32_of_disjoint _ (by omega),
      Bytes.load32_store32_of_disjoint _ (by omega), Bytes.load32_store32_of_lt _ _ mb.memUpper_lt]
  have hlength : Bytes.load32 (storeInfo m a mb) (a + 44) = mb.mmapLength := by
    rw [storeInfo, Bytes.load32_store32_of_disjoint _ (by omega),
      Bytes.load32_store32_of_lt _ _ mb.mmapLength_lt]
  have haddr : Bytes.load32 (storeInfo m a mb) (a + 48) = mb.mmapAddr :=
    Bytes.load32_store32_of_lt _ _ mb.mmapAddr_lt
  cases mb
  simp only [readInfo, hlower, hupper, hlength, haddr]

/-- The information structure of a map of `n` plain entries at `base`. -/
def infoOf (memLower memUpper base n : Nat) (hlower : memLower < 4294967296)
    (hupper : memUpper < 4294967296) (hbase : base + 24 * n < 4294967296) : MultibootInfo where
  memLower := memLower
  memUpper := memUpper
  mmapLength := 24 * n
  mmapAddr := base
  memLower_lt := hlower
  memUpper_lt := hupper
  mmapLength_lt := by omega
  mmapAddr_lt := by omega

/-- The map of a list of plain entries, at `base`; the information structure comes before it. -/
def MemoryMap.ofEntries (memLower memUpper infoAddr base : Nat) (es : List MmapEntry)
    (hlower : memLower < 4294967296) (hupper : memUpper < 4294967296)
    (hbase : base + 24 * es.length < 4294967296) (hes : ∀ e ∈ es, e.Plain)
    (hinfo : infoAddr + multibootInfoSize ≤ base) : MemoryMap where
  mem := storeInfo (storeEntries (fun _ => 0) base es) infoAddr
    (infoOf memLower memUpper base es.length hlower hupper hbase)
  info := infoOf memLower memUpper base es.length hlower hupper hbase
  infoAddr := infoAddr
  entries := es
  held := readInfo_storeInfo _ _ _
  buffer_lt := hbase
  layout := (entries_storeEntries _ base hes).congr fun _ hc _ =>
    storeInfo_apply_of_le _ (Nat.le_trans hinfo hc)

/-- A map as a loader leaves it on a machine with 640 KiB of low memory: the information
structure at `0x9500` and the entries right behind it, below the kernel. -/
def MemoryMap.inLowMemory (memUpper : Nat) (es : List MmapEntry) (hupper : memUpper < 4294967296)
    (hlen : es.length < 1000) (hes : ∀ e ∈ es, e.Plain) : MemoryMap :=
  .ofEntries 640 memUpper 0x9500 0x9600 es (lt_of_blt rfl) hupper (by omega) hes (by decide)

/-- A machine with 31 MiB above, of which one stretch is usable. -/
def pcMap (addr len : Nat) (h : addr < 18446744073709551616 ∧ len < 18446744073709551616) :
    MemoryMap :=
  .inLowMemory 31744 [⟨20, 0, 0xA0000, 1⟩, ⟨20, addr, len, 1⟩] (lt_of_blt rfl) (lt_of_blt rfl) <|
    by simp only [List.forall_mem_cons, MmapEntry.Plain]; simp [h]

theorem usable_pcMap {addr len : Nat} (h) :
    (pcMap addr len h).usable = [⟨20, 0, 0xA0000, 1⟩, ⟨20, addr, len, 1⟩] := rfl

/-- The addresses at which the entries of a map start. -/
def entryAddrs : Nat → List MmapEntry → List Nat
  | _, [] => []
  | a, e :: es => a :: entryAddrs (a + e.size + 4) es

theorem iterateFrom_of_le {α : Type} {mem : Bytes.Mem} {callback : α → Nat → α}
    {endAddr fuel a : Nat} {ctx : α} (hfuel : 0 < fuel) (h : endAddr ≤ a) :
    iterateFrom mem callback endAddr fuel a ctx = some ctx := by
  obtain ⟨fuel, rfl⟩ := Nat.exists_eq_succ_of_ne_zero (Nat.ne_of_gt hfuel)
  exact if_neg (Nat.not_lt_of_le h)

/-- The walk visits every entry of a well-formed map once, in order. -/
theorem iterateFrom_eq {α : Type} {mem : Bytes.Mem} {callback : α → Nat → α} {endAddr : Nat}
    (hend : endAddr < 4294967296) : ∀ {es : List MmapEntry} {fuel a : Nat} {ctx : α},
    Entries mem a es endAddr → es.length < fuel →
      iterateFrom mem callback endAddr fuel a ctx = some ((entryAddrs a es).foldl callback ctx)
  | [], fuel + 1, a, ctx, h, _ => by
    simp only [Entries] at h
    simp [iterateFrom, entryAddrs, h]
  | e :: es, fuel + 1, a, ctx, h, hfuel => by
    have hle := Entries.le h
    obtain ⟨hread, hsize, hrest⟩ := h
    have hnext := Entries.le hrest
    simp only [List.length_cons] at hle hfuel
    have hload : Bytes.load32 mem a = e.size := by rw [← hread]; rfl
    have hadv : u32 (a + u32 (Bytes.load32 mem a + 4)) = a + e.size + 4 := by
      rw [hload, u32_of_lt (by omega : e.size + 4 < 4294967296), u32_of_lt (by omega)]
      omega
    rw [iterateFrom, if_pos (by omega), hadv, iterateFrom_eq hend hrest (by omega)]
    rfl
  | _, 0, _, _, _, hfuel => absurd hfuel (by simp)

/-- In any memory that holds the entries at the address the structure gives. -/
theorem multibootIterateMmap_entries {α : Type} {mem : Bytes.Mem} {mb : MultibootInfo}
    {es : List MmapEntry} (hlt : mb.mmapAddr + mb.mmapLength < 4294967296)
    (h : Entries mem mb.mmapAddr es (mb.mmapAddr + mb.mmapLength)) (callback : α → Nat → α)
    (ctx : α) : multibootIterateMmap mem mb callback ctx =
      some ((entryAddrs mb.mmapAddr es).foldl callback ctx) := by
  have hle := Entries.le h
  unfold multibootIterateMmap
  rw [u32_of_lt hlt]
  exact iterateFrom_eq hlt h (by omega)

theorem multibootIterateMmap_eq {α : Type} (mm : MemoryMap) (callback : α → Nat → α) (ctx : α) :
    multibootIterateMmap mm.mem mm.info callback ctx =
      some ((entryAddrs mm.info.mmapAddr mm.entries).foldl callback ctx) :=
  multibootIterateMmap_entries mm.buffer_lt mm.layout callback ctx

theorem foldl_usable {mem : Bytes.Mem} : ∀ {es : List MmapEntry} {a endAddr : Nat}
    {acc : List MemoryRegion}, Entries mem a es endAddr →
      (entryAddrs a es).foldl (fun regions a =>
        let entry := readEntry mem a
        if multibootIsMemoryRegionUsable entry then
          regions ++ [⟨entry.addr, entry.len, entry.type⟩]
        else regions) acc =
      acc ++ (es.filter multibootIsMemoryRegionUsable).map MmapEntry.toRegion
  | [], _, _, acc, _ => by simp [entryAddrs]
  | e :: es, a, endAddr, acc, h => by
    obtain ⟨hread, _, hrest⟩ := h
    simp only [entryAddrs, List.foldl_cons, hread]
    rw [foldl_usable hrest]
    by_cases hu : multibootIsMemoryRegionUsable e = true
    · simp [hu, MmapEntry.toRegion]
    · simp [hu]

/-- **The usable regions of a well-formed map are its type-1 entries**, all of them, however
many slots the caller said it has. -/
theorem multibootGetUsableRegions_entries {mem : Bytes.Mem} {mb : MultibootInfo}
    {es : List MmapEntry} (hlt : mb.mmapAddr + mb.mmapLength < 4294967296)
    (h : Entries mem mb.mmapAddr es (mb.mmapAddr + mb.mmapLength)) (maxRegions : Nat) :
    multibootGetUsableRegions mem mb maxRegions =
      some ((es.filter multibootIsMemoryRegionUsable).map MmapEntry.toRegion) := by
  unfold multibootGetUsableRegions
  rw [multibootIterateMmap_entries hlt h, foldl_usable h]
  rfl

/-- Memory still holds the map: the bytes of its buffer are as the loader left them. -/
def MemoryMap.Intact (mm : MemoryMap) (m : Bytes.Mem) : Prop :=
  ∀ c, mm.info.mmapAddr ≤ c → c < mm.info.mmapAddr + mm.info.mmapLength → m c = mm.mem c

theorem MemoryMap.Intact.usableRegions_eq {mm : MemoryMap} {m : Bytes.Mem} (h : mm.Intact m)
    (maxRegions : Nat) :
    multibootGetUsableRegions m mm.info maxRegions = some (mm.usable.map MmapEntry.toRegion) :=
  multibootGetUsableRegions_entries mm.buffer_lt (mm.layout.congr h) maxRegions

end ScratchOs.Boot
