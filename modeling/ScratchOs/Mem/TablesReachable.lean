import ScratchOs.Mem.PageTables

/-!
# Which page tables `init_vmm` leaves in reach

The tables are made while paging is off, in the lowest frames there are, and have to be found
again when it is on. `initVmm_frame_self` says which frames are then mapped to themselves, and
`tables_stay_reachable` puts it together with the runs that follow.

The two halves are of different kinds. For `init_vmm` itself the condition is exact: the frames of
its tables are known beforehand, the lowest free ones in order of first use, and whether such a
frame is low, and no region is mapped over its page, can be read off the memory map. For what comes
after, each call has its own condition, and the runs are those in which every call meets it. The
condition cannot be moved to the beginning: which frame becomes the next table depends on what has
been allocated since.
-/

set_option autoImplicit false

namespace ScratchOs.Mem

open AddressSpace Bits FreeList Boot

/-- Every byte of every page table is found at its physical address, by `get_physical_address`
and by the processor. -/
def TablesReachable (k : Kernel) : Prop :=
  ∀ d < 1024, ∀ t, k.table d = some t → ∀ o < 4096,
    getPhysicalAddress k (t * 4096 + o) = some (t * 4096 + o) ∧
      AddressSpace.translate k (t * 4096 + o) = some (t * 4096 + o)

/-- The frames `init_vmm` makes tables of are in the first 4 MiB, on pages that no region is
mapped at, or the VGA page. -/
def BootTablesLow (image : KernelImage) (mm : MemoryMap) (s : Pmm) : Prop :=
  ∀ t ∈ tableFrames image mm s, t = 0xB8 ∨ t < 1024 ∧ ¬ DirectMapped mm t

/-- A table frame mapped to itself is found at its physical address, in both ways. -/
theorem TablesDirect.reachable {k : Kernel} (h : TablesDirect k) : TablesReachable k := by
  intro d hd t ht o ho
  have hlt := Kernel.table_lt ht
  have hself := h.direct t ⟨d, hd, ht⟩
  have hpage : (t * 4096 + o) / 4096 = t := by omega
  have hoff : (t * 4096 + o) % 4096 = o := by omega
  constructor
  · rw [getPhysicalAddress_eq, hpage, hself, hoff]
    · rfl
    · intro t' ht'
      exact Or.inr (h.direct t' ⟨_, by omega, ht'⟩)
  · exact Kernel.Direct.translate (Or.inr hself) hlt hpage

/-- The converse needs only the first byte of a table, and only the processor's walk. -/
theorem TablesReachable.frame {k : Kernel} (hon : k.paging = true) (h : TablesReachable k)
    {t : Nat} (ht : k.TableFrame t) : k.frame t = some t := by
  obtain ⟨d, hd, ht⟩ := ht
  have hlt := Kernel.table_lt ht
  have htrans := (h d hd t ht 0 (by decide)).2
  rw [Nat.add_zero, Kernel.translate_eq hon (by omega), Nat.mul_div_cancel t (by decide)] at htrans
  obtain ⟨f, hf, heq⟩ := Option.map_eq_some_iff.mp htrans
  have hft : f = t := by omega
  rw [hf, hft]

section AfterInit

variable {image : KernelImage} {mm : MemoryMap} {k₀ k : Kernel}

/-- The page tables `init_vmm` leaves are the lowest free frames it started from, one for each
directory index it uses. -/
theorem initVmm_tableFrame (h₀ : BootState mm k₀) (h : initVmm image mm.info k₀ = some k)
    (t : Nat) : k.TableFrame t ↔ t ∈ tableFrames image mm k₀.pmm := by
  constructor
  · rintro ⟨d, hd, ht⟩
    have hdiv : d * 1024 / 1024 = d := Nat.mul_div_cancel d (by decide)
    rw [← hdiv] at ht
    exact (initVmm_table h₀ h ht).2
  · intro ht
    obtain ⟨k₁, hacc, rfl⟩ := initVmm_accounts h₀ h
    obtain ⟨i, hi⟩ := List.getElem?_of_mem ht
    have hlt : i < (directories (bootMappings image mm)).length := by
      have hlen := (List.getElem?_eq_some_iff.mp hi).1
      rw [tableFrames, List.length_take] at hlen
      omega
    rw [tableFrames, List.getElem?_take_of_lt hlt] at hi
    have hmem := List.getElem_mem hlt
    have hd : (directories (bootMappings image mm))[i] < 1024 := by
      obtain ⟨c, _, hc⟩ := mem_directories.mp hmem
      have := c.1.toNat_lt
      unfold Mapping.page at hc
      omega
    refine ⟨_, hd, ?_⟩
    show k₁.table _ = some t
    rw [hacc.table, if_pos hmem, (directories_nodup _).idxOf_getElem i hlt]
    exact hi

/-- A frame is mapped to itself if it is the VGA page, or in the identity map and no region is
mapped over it. -/
theorem initVmm_frame_self (h₀ : BootState mm k₀) (h : initVmm image mm.info k₀ = some k)
    {t : Nat} (ht : t < 1048576) :
    k.frame t = some t ↔ t = 0xB8 ∨ t < 1024 ∧ ¬ DirectMapped mm t := by
  rw [initVmm_frame h₀ h ht, lastFrame_bootMappings]
  by_cases hvga : t = 0xB8
  · subst hvga
    exact ⟨fun _ => Or.inl rfl, fun _ => rfl⟩
  rw [if_neg hvga]
  by_cases hmap : DirectMapped mm t
  · -- A region's mapping is off by the base of the direct map.
    rw [if_pos hmap]
    constructor
    · intro heq
      have hself := Option.some.inj heq
      unfold directFrame at hself
      omega
    · rintro (heq | ⟨_, hnot⟩)
      · exact absurd heq hvga
      · exact absurd hmap hnot
  rw [if_neg hmap]
  by_cases hvis : Visits highMemoryBase (image.kernelEnd - kernelStart) t
  · rw [if_pos hvis]
    have hlow := hvis.1
    simp only [highMemoryBase] at hlow
    constructor
    · intro heq
      have hself := Option.some.inj heq
      simp only [regionFrame, highMemoryBase, kernelStart] at hself
      omega
    · rintro (heq | ⟨hlt, _⟩)
      · exact absurd heq hvga
      · omega
  · rw [if_neg hvis]
    constructor
    · intro heq
      split at heq
      · next hlt => exact Or.inr ⟨hlt, hmap⟩
      · exact absurd heq (by simp)
    · rintro (heq | ⟨hlt, _⟩)
      · exact absurd heq hvga
      · rw [if_pos hlt]

/-- Low tables are mapped to themselves when `init_vmm` is done. -/
theorem BootTablesLow.direct (h₀ : BootState mm k₀) (h : initVmm image mm.info k₀ = some k)
    (hlow : BootTablesLow image mm k₀.pmm) : TablesDirect k := by
  have hinv : TablesInv k := by
    obtain ⟨k₁, hacc, rfl⟩ := initVmm_accounts h₀ h
    exact ⟨hacc.inv.owned, hacc.inv.inj⟩
  refine ⟨initVmm_paging h₀ h, hinv, fun t ht => ?_⟩
  exact (initVmm_frame_self h₀ h ht.lt).mpr (hlow t ((initVmm_tableFrame h₀ h t).mp ht))

/-- And tables in reach are low: there is no other way `init_vmm` maps a frame to itself. -/
theorem TablesReachable.low (h₀ : BootState mm k₀) (h : initVmm image mm.info k₀ = some k)
    (hreach : TablesReachable k) : BootTablesLow image mm k₀.pmm := by
  intro t ht
  have htab := (initVmm_tableFrame h₀ h t).mpr ht
  exact (initVmm_frame_self h₀ h htab.lt).mp (hreach.frame (initVmm_paging h₀ h) htab)

end AfterInit

/-- With upper memory in whole pages between 2 and 4 MiB the tables are low, and the page that
`init_heap` gets is usable. -/
theorem firstPageUsable_pcMap :
    ∃ s k, initPmm smallKernel (pcMap 0x200000 0x100000 (by decide)).mem
        (pcMap 0x200000 0x100000 (by decide)).infoAddr = some s ∧
      initVmm smallKernel (pcMap 0x200000 0x100000 (by decide)).info
        (bootKernel (pcMap 0x200000 0x100000 (by decide)) s) = some k ∧
      BootTablesLow smallKernel (pcMap 0x200000 0x100000 (by decide)) s ∧ TablesDirect k ∧
      (FirstPageUsable k ∧ 0xC0200000 ≤ paVa (kernelPager.pmmAllocPage k).1 ∧
        paVa (kernelPager.pmmAllocPage k).1 < 0xC0300000) ∧
      (∀ f, k.TableFrame f → f < 1024) ∧ 0 ∉ k.pmm.freeFrames ∧
      254 ≤ k.pmm.freeFrames.length ∧ k.pmm.freeFrames.length ≤ 256 := by
  obtain ⟨s, k, hs, hk⟩ := initVmm_pcMap 0x200000 0x100000 (by decide) (by decide) (by decide)
  have hmem := mem_freeFrames_pcMap (by decide) (by decide) hs
  have hmap := directMapped_pcMap 0x200000 0x100000 (by decide) (by decide)
  have h₀ : BootState _ (bootKernel (pcMap 0x200000 0x100000 (by decide)) s) :=
    BootState.ofInitPmm (mapFound_pcMap (by decide) _) hs rfl fun _ _ _ => rfl
  have hlow : BootTablesLow smallKernel (pcMap 0x200000 0x100000 (by decide)) s := by
    intro t ht
    have ht' := (hmem t).mp (List.mem_of_mem_take ht)
    rw [hmap]
    omega
  have hdirect := BootTablesLow.direct h₀ hk hlow
  have hdirs := directories_pcMap 0x200000 0x100000 (by decide) (by decide)
  -- 256 frames, two of them at most for tables.
  have hlen : s.freeFrames.length = 256 := by
    have hsub : s.freeFrames ⊆ List.range' 0x200 256 := fun f hf => by
      have := (hmem f).mp hf
      exact List.mem_range'_1.mpr (by omega)
    have hsup : List.range' 0x200 256 ⊆ s.freeFrames := fun f hf => by
      have := List.mem_range'_1.mp hf
      exact (hmem f).mpr (by omega)
    have h₁ := (List.subperm_of_subset s.freeFrames_nodup hsub).length_le
    have h₂ := (List.subperm_of_subset List.nodup_range' hsup).length_le
    rw [List.length_range'] at h₁ h₂
    omega
  have hleft := initVmm_freeFrames h₀ hk
  have hfew : k.pmm.freeFrames.length = 256 -
      (directories (bootMappings smallKernel (pcMap 0x200000 0x100000 (by decide)))).length := by
    rw [hleft, List.length_drop, ← hlen]
    rfl
  refine ⟨s, k, hs, hk, hlow, hdirect, ?_, fun f hf => ?_, fun hz => ?_, by omega, by omega⟩
  rotate_left
  · have ht := List.mem_of_mem_take ((initVmm_tableFrame h₀ hk f).mp hf)
    have := (hmem f).mp ht
    omega
  · rw [hleft] at hz
    have := (hmem 0).mp (List.mem_of_mem_drop hz)
    omega
  -- There is a page left after the two tables.
  have h202 : 0x202 ∈ k.pmm.freeFrames := by
    rw [initVmm_freeFrames h₀ hk]
    refine mem_drop_of_sorted s.freeFrames_sorted [0x200, 0x201] ((hmem 0x202).mpr (by decide))
      (by decide) (fun y hy => ?_) hdirs
    simp only [List.mem_cons, List.not_mem_nil, or_false] at hy
    rw [hmem]
    omega
  obtain ⟨f, rest, hfree⟩ := List.exists_cons_of_ne_nil (List.ne_nil_of_mem h202)
  have hfmem : f ∈ k.pmm.freeFrames := hfree ▸ List.mem_cons_self
  have hf : 0x200 ≤ f ∧ f < 0x300 := by
    rw [initVmm_freeFrames h₀ hk] at hfmem
    have := (hmem f).mp (List.mem_of_mem_drop hfmem)
    omega
  have hframe : k.frame (f + 0xC0000) = some f := by
    have hdir : directPage f = f + 0xC0000 := by
      simp only [directPage]
      omega
    rw [← hdir, initVmm_frame_directPage h₀ hk (by omega), hmap]
    omega
  have hfits : 0xC0000000 + f * 4096 + 4096 ≤ videoVrtAddr := by
    unfold videoVrtAddr
    omega
  obtain ⟨hval, hpage⟩ := firstPageBelow_of_head hdirect hfree hframe hfits (by decide)
  exact ⟨hpage, by omega, by omega⟩

end ScratchOs.Mem
