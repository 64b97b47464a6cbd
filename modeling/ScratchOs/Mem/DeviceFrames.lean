import ScratchOs.Mem.HeapReach

/-!
# The heap and a device's memory

The frames of a device, `D` below, are none of those `pmm_alloc_page` has. The heap's pages and
the page tables are frames that were free once, so they never come to be frames of the device,
and what the heap and `map_page` write never goes there.

`D` is any set of frames. It is a parameter because the argument has nothing to do with the device:
it is that frames only ever leave the free list, and that all the kernel's own stores end up in
frames that have left it. What a device does with its memory by itself is not modelled, and would
not be seen by the kernel's data.

The device's memory is carried as a value, `m₀`, next to the invariant of the heap. A run that also
writes to the device is then a run in which that value changes at those steps and at no others
(`BesideOk.paint`).
-/

set_option autoImplicit false

namespace ScratchOs.Mem

open AddressSpace Bits FreeList Boot

variable {D : Nat → Prop} {m₀ : Bytes.Mem} {P : Kernel → Prop} {top : Nat} {k k' : Kernel}

/-- No frame of the device is free or holds a table. -/
structure Kernel.Spares (D : Nat → Prop) (k : Kernel) : Prop where
  free : ∀ f ∈ k.pmm.freeFrames, ¬ D f
  tables : ∀ f, k.TableFrame f → ¬ D f

/-- `pmm_alloc_page` puts nothing back. -/
theorem alloc_frames (k : Kernel) :
    (kernelPager.pmmAllocPage k).2.pmm.freeFrames ⊆ k.pmm.freeFrames := by
  show (pmmAllocPage k.pmm).2.freeFrames ⊆ _
  rw [pmmAllocPage_eq]
  cases hfree : k.pmm.freeFrames with
  | nil =>
    simp only
    rw [hfree]
    exact List.Subset.refl _
  | cons f rest =>
    simp only
    rw [Pmm.freeFrames_take hfree]
    exact List.subset_cons_self f rest

theorem Kernel.Spares.alloc (h : k.Spares D) : (kernelPager.pmmAllocPage k).2.Spares D :=
  ⟨fun f hf => h.free f (alloc_frames k hf), h.tables⟩

/-- A new table is in a frame that was free. -/
theorem Kernel.Spares.mapPage (h : k.Spares D) (hk : TablesDirect k) {v p : Nat}
    (hv : v < 4294967296) (hp : p < 4294967296) (hkeep : k.KeepsTables v p)
    (hmap : Mem.mapPage k v p = some k') :
    k'.Spares D ∧ ∀ a, D (a / 4096) → k'.mem a = k.mem a := by
  obtain ⟨_, hm⟩ := hk.mapPage hv hp hkeep hmap
  have hspares : k'.Spares D := by
    refine ⟨fun f hf => h.free f ((mapPage_frames hmap).2 hf), fun f hf => ?_⟩
    rcases hm.tableFor hf with hold | ⟨_, hnew⟩
    · exact h.tables f hold
    · exact h.free f (List.mem_of_mem_head? hnew)
  exact ⟨hspares, fun a ha => hm.mem a fun ht => hspares.tables _ ht ha⟩

/-- The same for a region. The frames that are mapped may be the device's own: to be mapped is not
to hold a table. -/
theorem Kernel.Spares.mapPages {cs : List Mapping} : ∀ {k k' : Kernel}, k.Spares D →
    TablesDirect k → MappingsKeepTables k cs → mapPages k cs = some k' →
      k'.Spares D ∧ ∀ a, D (a / 4096) → k'.mem a = k.mem a := by
  induction cs with
  | nil =>
    intro k k' h _ _ hcall
    obtain rfl := Option.some.inj hcall
    exact ⟨h, fun _ _ => rfl⟩
  | cons c cs ih =>
    intro k k' h hk hkeep hcall
    obtain ⟨k₁, hmap, hrest⟩ := Option.bind_eq_some_iff.mp hcall
    have hkeep₁ := hkeep [] c cs rfl k rfl
    obtain ⟨h₁, hmem₁⟩ := h.mapPage hk c.1.toNat_lt c.2.toNat_lt hkeep₁ hmap
    obtain ⟨hk₁, _⟩ := hk.mapPage c.1.toNat_lt c.2.toNat_lt hkeep₁ hmap
    obtain ⟨h', hmem'⟩ := ih h₁ hk₁ (hkeep.tail hmap) hrest
    exact ⟨h', fun a ha => (hmem' a ha).trans (hmem₁ a ha)⟩

/-! ## The heap beside it -/

/-- To own the heap, with the device's memory, which is `m₀`, in none of its pages. -/
structure Kernel.Beside (D : Nat → Prop) (m₀ : Bytes.Mem) (P : Kernel → Prop) (k : Kernel)
    (lo hi : Nat) (τ : Nat → Nat) : Prop where
  heap : k.OwnsHeap lo hi τ
  spares : k.Spares D
  keeps : P k
  pages : ∀ a, lo ≤ a → a < hi → ¬ D (τ a / 4096)
  memory : ∀ a, D (a / 4096) → k.mem a = m₀ a

section Beside

variable {lo hi : Nat} {τ : Nat → Nat}

/-- A store to the heap does not come to the device, as no page of the heap is one of its frames. -/
theorem Kernel.Beside.touch (hP : HeapStable top P) (h : k.Beside D m₀ P lo hi τ)
    (ht : Touches τ lo hi k k') : k'.Beside D m₀ P lo hi τ := by
  have hheap := h.heap.touch ht
  have hkeeps := hP.touch h.heap ht h.keeps
  obtain ⟨m, rfl, hm⟩ := ht
  refine ⟨hheap, ⟨h.spares.free, h.spares.tables⟩, hkeeps, h.pages, fun a ha => ?_⟩
  refine (hm a ?_).trans (h.memory a ha)
  rintro ⟨c, hlo, hhi, rfl⟩
  exact h.pages c hlo hhi ha

theorem Kernel.Beside.alloc (hP : HeapStable top P) (h : k.Beside D m₀ P lo hi τ) :
    (kernelPager.pmmAllocPage k).2.Beside D m₀ P lo hi τ :=
  ⟨h.heap.alloc, h.spares.alloc, hP.alloc h.keeps, h.pages, h.memory⟩

/-- One page more: its frame was free, and so is not the device's. -/
theorem Kernel.Beside.grow (hP : HeapStable top P) (htop : top < 4294967296)
    (h : k.Beside D m₀ P lo hi τ) (hpage : hi % 4096 = 0) (hle : hi + 4096 ≤ top)
    (hnew : (kernelPager.pmmAllocPage k).1 ≠ 0)
    (hkeep : (kernelPager.pmmAllocPage k).2.KeepsTables hi (kernelPager.pmmAllocPage k).1)
    (hmap : Mem.mapPage (kernelPager.pmmAllocPage k).2 hi (kernelPager.pmmAllocPage k).1 =
      some k') :
    ∃ τ', k'.Beside D m₀ P lo (hi + 4096) τ' ∧
      ∀ a, lo ≤ a → a < hi → τ' a = τ a ∧ mem k' (τ a) = mem k (τ a) := by
  obtain ⟨f, rest, hfree, hf, hval, _⟩ := kernelPager_alloc hnew
  have hp : (kernelPager.pmmAllocPage k).1 < 4294967296 := by omega
  have halloc := h.alloc hP
  obtain ⟨τ', howns, hsame⟩ := h.heap.grow hpage (Nat.lt_of_le_of_lt hle htop) hnew hkeep hmap
  obtain ⟨hspares, hmem⟩ :=
    halloc.spares.mapPage halloc.heap.tables (by omega) hp hkeep hmap
  obtain ⟨_, hm⟩ := halloc.heap.tables.mapPage (by omega) hp hkeep hmap
  have hkeeps := hP.map halloc.heap.tables hle hp hkeep hmap halloc.keeps
  refine ⟨τ', ⟨howns, hspares, hkeeps, fun a hlo hhi => ?_,
    fun a ha => (hmem a ha).trans (halloc.memory a ha)⟩, hsame⟩
  by_cases ha : a < hi
  · rw [(hsame a hlo ha).1]
    exact h.pages a hlo ha
  · obtain ⟨g, hg, hτ, _⟩ := howns.page a hlo hhi
    rw [hm.frame _ (by omega), if_pos (by omega), hval, Nat.mul_div_cancel f (by decide)] at hg
    obtain rfl := Option.some.inj hg
    rw [hτ, show (f * 4096 + a % 4096) / 4096 = f by omega]
    exact h.spares.free f (by rw [hfree]; exact List.mem_cons_self)

end Beside

/-- The pager's laws, with the device beside the heap. -/
theorem HeapStable.besideLaws (hP : HeapStable top P) (htop : top < 4294967296) :
    PagerLaws guardedPager top (Kernel.Beside D m₀ P) where
  top_lt := htop
  window h := h.heap.window
  touches h ht := h.touch hP ht
  fail h _ := ⟨h.alloc hP, fun _ _ _ => rfl⟩
  grow {k _ _ hi _} h hpage hle hnew hmap := by
    by_cases hkeep : (kernelPager.pmmAllocPage k).2.KeepsTables hi (kernelPager.pmmAllocPage k).1
    · exact h.grow hP htop hpage hle hnew hkeep ((if_pos hkeep).symm.trans hmap)
    · exact absurd ((if_neg hkeep).symm.trans hmap) (by simp)

/-! ## Runs -/

/-- The heap is in order, beside a device whose memory is whatever it is. -/
def BesideOk (D : Nat → Prop) (top : Nat) (P : Kernel → Prop) (h : Heap Kernel)
    (live : List (Nat × Nat)) : Prop :=
  HeapOk top (Kernel.Beside D h.machine.mem P) h.firstBlock h live

/-- The invariant taken apart, for the steps that are not the heap's own. -/
theorem besideOk_iff {h : Heap Kernel} {live : List (Nat × Nat)} :
    BesideOk D top P h live ↔ h.machine.Spares D ∧ P h.machine ∧
      ∃ τ m bs, HeapInv top Kernel.OwnsHeap h τ m bs ∧ LiveIn bs live ∧
        ∀ a, h.firstBlock ≤ a → a < h.heapLimit → ¬ D (τ a / 4096) := by
  constructor
  · rintro ⟨_, τ, m, bs, hinv, hlive⟩
    refine ⟨hinv.owns.spares, hinv.owns.keeps, τ, m, bs, ?_, hlive, hinv.owns.pages⟩
    exact ⟨hinv.owns.heap, hinv.shows, hinv.chain, hinv.laid, hinv.pos, hinv.limit, hinv.page⟩
  · rintro ⟨hspares, hP, τ, m, bs, hinv, hlive, hpages⟩
    refine ⟨rfl, τ, m, bs, ?_, hlive⟩
    exact ⟨⟨hinv.owns, hspares, hP, hpages, fun _ _ => rfl⟩, hinv.shows, hinv.chain, hinv.laid,
      hinv.pos, hinv.limit, hinv.page⟩

/-- What was true of the device's memory before is true after. -/
theorem HeapOk.besideOk {start : Nat} {h : Heap Kernel} {live : List (Nat × Nat)}
    (hok : HeapOk top (Kernel.Beside D m₀ P) start h live) :
    BesideOk D top P h live ∧ ∀ a, D (a / 4096) → h.machine.mem a = m₀ a := by
  obtain ⟨_, τ, m, bs, hinv, hlive⟩ := hok
  refine ⟨besideOk_iff.mpr ⟨hinv.owns.spares, hinv.owns.keeps, τ, m, bs, ?_, hlive,
    hinv.owns.pages⟩, hinv.owns.memory⟩
  exact ⟨hinv.owns.heap, hinv.shows, hinv.chain, hinv.laid, hinv.pos, hinv.limit, hinv.page⟩

/-- Once paging is on: no frame of the device is free, holds a table or is mapped. -/
structure Kernel.Leaves (D : Nat → Prop) (k : Kernel) : Prop where
  spares : k.Spares D
  unmapped : ∀ q < 1048576, ∀ f, k.frame q = some f → ¬ D f

/-- For runs that have nothing to carry along but the device. -/
theorem anything_stable (top : Nat) : HeapStable top fun _ => True where
  touch _ _ h := h
  alloc h := h
  map _ _ _ _ _ h := h

/-- `init_heap`: its page is mapped. -/
theorem Kernel.Leaves.initHeap {h : Heap Kernel} (hk : TablesDirect k) (hleaves : k.Leaves D)
    (hpage : FirstPageBelow 4294967295 k) (hcall : Mem.initHeap kernelPager k = some h) :
    BesideOk D 4294967295 (fun _ => True) h [] := by
  obtain ⟨hstart, f, hf, howns⟩ := hpage.owns (by decide) hk
  obtain ⟨hpos, hlim, _⟩ := hpage
  have hbeside : (kernelPager.pmmAllocPage k).2.Beside D k.mem (fun _ => True)
      (paVa (kernelPager.pmmAllocPage k).1) (paVa (kernelPager.pmmAllocPage k).1 + 4096)
      (fun a => f * 4096 + a % 4096) := by
    refine ⟨howns, hleaves.spares.alloc, trivial, fun a hlo hhi => ?_, fun _ _ => rfl⟩
    rw [show (f * 4096 + a % 4096) / 4096 = f by omega]
    exact hleaves.unmapped _ (by omega) f hf
  obtain ⟨h', m, hinit, _, _, _, hinv, _⟩ :=
    initHeap_spec ((anything_stable 4294967295).besideLaws (by decide)) hbeside hpos hstart hlim
  obtain rfl := Option.some.inj (hcall.symm.trans hinit)
  have hlive : LiveIn [⟨h.firstBlock, 4080, true⟩] [] :=
    ⟨List.nodup_nil, fun x hx => absurd hx List.not_mem_nil⟩
  exact (HeapOk.besideOk ⟨rfl, _, m, _, hinv, hlive⟩).1

/-- A region mapped beside the heap. -/
theorem BesideOk.mapRegion {h : Heap Kernel} {live : List (Nat × Nat)}
    (hok : BesideOk D top P h live) {v p size : Nat} (hv : v < 4294967296) (hp : p < 4294967296)
    (hkeep : MappingsKeepTables h.machine (regionMappings v p size))
    (hmiss : MissesHeap (some (h.firstBlock, h.heapLimit)) v size)
    (hcall : Mem.mapRegion h.machine v p size = some k) (hP : P k) :
    BesideOk D top P { h with machine := k } live ∧
      ∀ a, D (a / 4096) → k.mem a = h.machine.mem a := by
  obtain ⟨hspares, _, τ, m, bs, hinv, hlive, hpages⟩ := besideOk_iff.mp hok
  have hmaps := ((mapRegion_eq_some hv hp).mp hcall).2
  obtain ⟨hspares', hmem⟩ := hspares.mapPages hinv.owns.tables hkeep hmaps
  have hinv' := hinv.mapPages hkeep (fun a hlo hhi c hc heq =>
    hmiss _ rfl a hlo hhi ((exists_regionMappings hv).mp ⟨c, hc, heq⟩)) hmaps
  exact ⟨besideOk_iff.mpr ⟨hspares', hP, τ, m, bs, hinv', hlive, hpages⟩, hmem⟩

/-! ### Writes to the device -/

section Paint

variable {δ : Nat → Nat} {lo hi : Nat}

/-- Writes to the device change no page table. -/
theorem Kernel.Spares.frame_touch (h : k.Spares D) (hdevice : ∀ a, lo ≤ a → a < hi → D (δ a / 4096))
    (ht : Touches δ lo hi k k') {q : Nat} (hq : q < 1048576) : k'.frame q = k.frame q := by
  obtain ⟨m, rfl, hm⟩ := ht
  have hsame : ∀ a, k.TableFrame (a / 4096) → m a = k.mem a := by
    intro a ha
    refine hm a ?_
    rintro ⟨c, hlo, hhi, rfl⟩
    exact h.tables _ ha (hdevice c hlo hhi)
  have htable : ∀ d, (AddressSpace.setMem k m).table d = k.table d := fun d => rfl
  exact Kernel.frame_congr htable hsame hq

/-- Writes to the device change nothing of the heap: not its tables, which are in none of the
frames, and not its memory, which is in others. -/
theorem BesideOk.paint {h : Heap Kernel} {live : List (Nat × Nat)} (hok : BesideOk D top P h live)
    (hdevice : ∀ a, lo ≤ a → a < hi → D (δ a / 4096)) (ht : Touches δ lo hi h.machine k)
    (hP : P k) : BesideOk D top P { h with machine := k } live := by
  obtain ⟨hspares, _, τ, m, bs, hinv, hlive, hpages⟩ := besideOk_iff.mp hok
  have hframe : ∀ q < 1048576, k.frame q = h.machine.frame q :=
    fun q hq => hspares.frame_touch hdevice ht hq
  obtain ⟨m', rfl, hm'⟩ := ht
  have hlim := hinv.owns.limit
  have htables := hinv.owns.tables
  refine besideOk_iff.mpr ⟨⟨hspares.free, hspares.tables⟩, hP, τ, m, bs, ⟨?_, ?_, hinv.chain,
    hinv.laid, hinv.pos, hinv.limit, hinv.page⟩, hlive, hpages⟩
  · refine ⟨⟨htables.paging, ⟨htables.inv.owned, htables.inv.inj⟩, fun f hf => ?_⟩, hlim,
      fun a hlo hhi => ?_, hinv.owns.inj⟩
    · exact (hframe f hf.lt).trans (htables.direct f hf)
    · obtain ⟨f, hf, hrest⟩ := hinv.owns.page a hlo hhi
      have hhi : a < h.heapLimit := hhi
      exact ⟨f, (hframe _ (by omega)).trans hf, hrest⟩
  · intro a hlo hhi
    refine (hm' _ ?_).trans (hinv.shows a hlo hhi)
    rintro ⟨c, hloc, hhic, hc⟩
    exact hpages a hlo hhi (hc ▸ hdevice c hloc hhic)

end Paint

/-- **The run lemma**: what is not the kernel's when its heap begins is not its heap's later. -/
theorem HeapReach.beside {k₁ : Kernel} (hk : TablesDirect k₁) (hleaves : k₁.Leaves D)
    {h : Heap Kernel} {live : List (Nat × Nat)} (hrun : HeapReach k₁ h live) :
    BesideOk D 4294967295 (fun _ => True) h live := by
  induction hrun with
  | initHeap hpage hcall => exact hleaves.initHeap hk hpage hcall
  | mapRegion _ hv hp hkeep hmiss hcall ih => exact (ih.mapRegion hv hp hkeep hmiss hcall trivial).1
  | @kmalloc h h' live n p _ hn hkeep hstays hcall ih =>
    have laws : PagerLaws guardedPager 4294967295 (Kernel.Beside D h.machine.mem fun _ => True) :=
      (anything_stable 4294967295).besideLaws (by decide)
    exact (HeapOk.kmalloc laws ih hn ((kmalloc_guarded hn hkeep).trans hcall)
      (hstays.between laws ih hn hkeep hcall)).besideOk.1
  | kfree _ hx hcall ih =>
    exact (HeapOk.kfree ((anything_stable _).besideLaws (by decide)) ih hx hcall).besideOk.1
  | write _ hx hlo hhi hstore ih =>
    exact (HeapOk.write ((anything_stable _).besideLaws (by decide)) ih hx hlo hhi
      hstore).besideOk.1

end ScratchOs.Mem
