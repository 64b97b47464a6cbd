import ScratchOs.Mem.Vmm

/-!
# Page tables as a finite map

`map_page` and `unmap_page` change `Kernel.frame` at one page and nowhere else. The
invariant behind this is `TablesInv`: two directory entries never name the same frame, and the
frames they name are marked in the allocator, so that a frame fetched for a new table is
neither an old table nor handed out again. A new table is zeroed before it is hooked in, which
is why hooking it in maps nothing (`frame_addTable`).

The facts are stated for any machine, paging on or off, that can use the tables at their
physical addresses (`Kernel.Ready`). With paging off that holds by itself, and the last
section is about runs of that kind.

## Where the invariant is spent

That an entry belongs to one page only is not a matter of arithmetic. Two pages with the same index
in their tables share an entry when their directory entries name the same frame, and then a
`map_page` of one of them maps the other one too. `TablesInv.inj` is what forbids it, and the
allocator is what keeps it: a table's frame is marked, so the next table comes from another one. So
the proof about `vmm.cpp` needs `pmm.cpp` at exactly one place (`TablesInv.owned`).

`Mapped` is the specification of a successful call, and it is all that later modules know of
`map_page`. It says what the call does to the map, to the directory and to the allocator; of memory
it says that a byte that is in no table is what it was.
-/

set_option autoImplicit false

namespace ScratchOs.Mem

open Bits

/-- Frame `f` holds a page table. -/
def Kernel.TableFrame (k : Kernel) (f : Nat) : Prop := ∃ d < 1024, k.table d = some f

theorem Kernel.TableFrame.lt {k : Kernel} {f : Nat} (h : k.TableFrame f) : f < 1048576 := by
  obtain ⟨d, _, hd⟩ := h
  exact Kernel.table_lt hd

structure TablesInv (k : Kernel) : Prop where
  owned : ∀ f, k.TableFrame f → k.pmm.taken f = true
  inj : ∀ d < 1024, ∀ d' < 1024, ∀ t, k.table d = some t → k.table d' = some t → d = d'

/-- The table for directory index `d`, or the frame that would become it, can be used at its
physical address. -/
def Kernel.Ready (k : Kernel) (d : Nat) : Prop :=
  match k.table d with
  | some t => k.Direct t
  | none => ∀ f ∈ k.pmm.freeFrames.head?, k.Direct f

/-- A table entry written. -/
def Kernel.setEntry (k : Kernel) (t q entry : Nat) : Kernel :=
  { k with mem := Bytes.store32 k.mem (t * 4096 + 4 * (q % 1024)) entry }

/-- Frame `f` taken, zeroed and hooked into the directory. -/
def Kernel.addTable (k : Kernel) (d f : Nat) : Kernel :=
  { k with
    mem := Bytes.fill k.mem (f * 4096) 4096 0
    pageDirectory := Function.update k.pageDirectory d (UInt32.ofNat (f * 4096 + 3))
    pmm := k.pmm.take f }

/-! ## The translation depends on the table frames only

Everything that leaves the tables alone leaves the map alone. So memory that is written through a
page is written where the page was, for as long as the writes do not go to a table. -/

/-- The directory and the bytes of the tables are all a frame is read from. -/
theorem Kernel.frame_congr {k k' : Kernel} (hdir : ∀ d, k'.table d = k.table d)
    (hmem : ∀ a, k.TableFrame (a / 4096) → k'.mem a = k.mem a) {q : Nat} (hq : q < 1048576) :
    k'.frame q = k.frame q := by
  cases ht : k.table (q / 1024) with
  | none => rw [k.frame_of_no_table ht, k'.frame_of_no_table ((hdir _).trans ht)]
  | some t =>
    rw [k.frame_of_table ht, k'.frame_of_table ((hdir _).trans ht)]
    congr 1
    refine Bytes.load32_congr fun i hi => hmem _ ?_
    have hpage : (t * 4096 + 4 * (q % 1024) + i) / 4096 = t := by omega
    rw [hpage]
    exact ⟨q / 1024, by omega, ht⟩

/-- Writes into a frame that holds no table leave the translation alone. -/
theorem Kernel.Direct.window {k : Kernel} {f : Nat} (h : k.Direct f) (hf : f < 1048576)
    (hfree : ¬ k.TableFrame f) :
    AddressSpace.Window k (f * 4096) (f * 4096 + 4096) id := by
  refine ⟨fun a hlo hhi => h.translate hf (by omega), fun a b _ _ _ _ hab => hab,
    fun s' hs' a hlo hhi => ?_⟩
  obtain ⟨m, rfl, hm⟩ := hs'
  have hsame : (AddressSpace.setMem k m).frame f = k.frame f := by
    have hdir : ∀ d, (AddressSpace.setMem k m).table d = k.table d := fun d => rfl
    refine Kernel.frame_congr hdir (fun c hc => hm c ?_) hf
    rintro ⟨c', hlo', hhi', rfl⟩
    have hpage : id c' / 4096 = f := by simp only [id]; omega
    exact hfree (hpage ▸ hc)
  have hdirect : (AddressSpace.setMem k m).Direct f := by
    rcases h with hoff | hmap
    · exact Or.inl hoff
    · exact Or.inr (hsame.trans hmap)
  exact hdirect.translate hf (by omega)

/-- Zeroing a frame through its physical address. -/
theorem Kernel.Direct.fill {k : Kernel} {f : Nat} (h : k.Direct f) (hf : f < 1048576)
    (hfree : ¬ k.TableFrame f) :
    AddressSpace.fill 0 4096 (f * 4096) k =
      some { k with mem := Bytes.fill k.mem (f * 4096) 4096 0 } := by
  have hshow : AddressSpace.Shows k (f * 4096) (f * 4096 + 4096) id k.mem :=
    ⟨h.window hf hfree, fun _ _ _ => rfl⟩
  obtain ⟨s', hs', hshow', m, rfl, hm⟩ := hshow.fill 0 (Nat.le_refl _) (Nat.le_refl _)
  rw [hs']
  have hmem : m = Bytes.fill k.mem (f * 4096) 4096 0 := by
    funext a
    by_cases ha : f * 4096 ≤ a ∧ a < f * 4096 + 4096
    · exact hshow'.2 a ha.1 ha.2
    · rw [Bytes.fill, if_neg ha]
      refine hm a ?_
      rintro ⟨c, hlo, hhi, rfl⟩
      exact ha ⟨hlo, hhi⟩
  rw [hmem]
  rfl

/-! ## An entry set, a table added

`map_page` is one or both of these two changes, and each has a lemma that says what the map is
afterwards. The order matters to the second: a table that was hooked in before it was zeroed would
map whatever the frame held. -/

/-- Setting the entry of page `q` changes the frame of `q` and of no other page: another page
with the same entry would need another directory index with the same table. -/
theorem Kernel.frame_setEntry {k : Kernel} (hinv : TablesInv k) {t q entry : Nat}
    (hq : q < 1048576) (ht : k.table (q / 1024) = some t) (he : entry < 4294967296) {x : Nat}
    (hx : x < 1048576) :
    (k.setEntry t q entry).frame x = if x = q then entryFrame entry else k.frame x := by
  by_cases hxq : x = q
  · subst hxq
    rw [if_pos rfl, Kernel.frame_of_table (k := k.setEntry t x entry) ht]
    exact congrArg entryFrame (Bytes.load32_store32_of_lt _ _ he)
  · rw [if_neg hxq]
    cases hs : k.table (x / 1024) with
    | none => rw [k.frame_of_no_table hs, Kernel.frame_of_no_table (k := k.setEntry _ _ _) hs]
    | some s =>
      rw [k.frame_of_table hs, Kernel.frame_of_table (k := k.setEntry _ _ _) hs]
      refine congrArg entryFrame (Bytes.load32_store32_of_disjoint _ ?_)
      by_cases hst : s = t
      · have hdir := hinv.inj _ (by omega) _ (by omega) t (hst ▸ hs) ht
        omega
      · omega

/-- Entries of tables are not what the invariant is about. -/
theorem TablesInv.setEntry {k : Kernel} (hinv : TablesInv k) (t q entry : Nat) :
    TablesInv (k.setEntry t q entry) := ⟨hinv.owned, hinv.inj⟩

theorem Kernel.table_addTable {k : Kernel} {d f : Nat} (hf : f < 1048576) (x : Nat) :
    (k.addTable d f).table x = if x = d then some f else k.table x := by
  have hval : f * 4096 + 3 < 4294967296 := by omega
  by_cases hxd : x = d
  · subst hxd
    simp only [Kernel.table, Kernel.addTable, Function.update_self, UInt32.toNat_ofNat',
      Nat.reducePow, Nat.mod_eq_of_lt hval, entryFrame_table, if_true]
  · simp only [Kernel.table, Kernel.addTable, Function.update_of_ne hxd, if_neg hxd]

/-- A zeroed table maps nothing, and there was no table before. -/
theorem Kernel.frame_addTable {k : Kernel} {d f : Nat} (hf : f < 1048576)
    (hd : k.table d = none) (hfree : ¬ k.TableFrame f) {q : Nat} (hq : q < 1048576) :
    (k.addTable d f).frame q = k.frame q := by
  have ht := Kernel.table_addTable (k := k) (d := d) hf (q / 1024)
  by_cases hqd : q / 1024 = d
  · rw [if_pos hqd] at ht
    rw [Kernel.frame_of_table ht, Kernel.frame_of_no_table (hqd ▸ hd)]
    have hzero : ∀ i < 4, (k.addTable d f).mem (f * 4096 + 4 * (q % 1024) + i) = 0 := by
      intro i hi
      show Bytes.fill k.mem (f * 4096) 4096 0 _ = 0
      rw [Bytes.fill, if_pos (by omega)]
    have hload : Bytes.load32 (k.addTable d f).mem (f * 4096 + 4 * (q % 1024)) = 0 := by
      have h₀ := hzero 0 (by decide)
      rw [Nat.add_zero] at h₀
      rw [Bytes.load32, h₀, hzero 1 (by decide), hzero 2 (by decide), hzero 3 (by decide)]
      rfl
    rw [hload, entryFrame_zero]
  · rw [if_neg hqd] at ht
    cases hs : k.table (q / 1024) with
    | none => rw [k.frame_of_no_table hs, Kernel.frame_of_no_table (ht.trans hs)]
    | some s =>
      rw [k.frame_of_table hs, Kernel.frame_of_table (ht.trans hs)]
      congr 1
      refine Bytes.load32_congr fun i hi => ?_
      have hsf : s ≠ f := fun h => hfree ⟨q / 1024, by omega, h ▸ hs⟩
      show Bytes.fill k.mem (f * 4096) 4096 0 _ = k.mem _
      rw [Bytes.fill, if_neg (by omega)]

/-- A frame that was free is no table, so the new directory entry names a frame of its own. -/
theorem TablesInv.addTable {k : Kernel} (hinv : TablesInv k) {d f : Nat} (hf : f < 1048576)
    (hfree : k.pmm.taken f = false) : TablesInv (k.addTable d f) := by
  have hne : ∀ x < 1024, ∀ t, k.table x = some t → t ≠ f := by
    rintro x hx t ht rfl
    rw [hinv.owned t ⟨x, hx, ht⟩] at hfree
    exact absurd hfree (by simp)
  refine ⟨?_, ?_⟩
  · rintro t ⟨x, hx, ht⟩
    show (k.pmm.take f).taken t = true
    rw [Kernel.table_addTable hf] at ht
    rw [Pmm.taken_take]
    split at ht
    · simp [Option.some.inj ht]
    · simp [hinv.owned t ⟨x, hx, ht⟩]
  · intro x hx y hy t hxt hyt
    rw [Kernel.table_addTable hf] at hxt hyt
    split at hxt <;> split at hyt
    · omega
    · exact absurd (Option.some.inj hxt).symm (hne y hy t hyt)
    · exact absurd (Option.some.inj hyt).symm (hne x hx t hxt)
    · exact hinv.inj x hx y hy t hxt hyt

/-! ## What `map_page` and `unmap_page` do -/

theorem entryAddr_or_flags {p : Nat} (hp : p < 4294967296) :
    entryAddr p ||| 0x3 = p / 4096 * 4096 + 3 :=
  entryAddr_or hp 3 (by decide)

/-- The lowest free frame, zeroed. Frame 0 is taken as well, but its address is the one that stands
for no frame, and it is not zeroed. -/
theorem allocPageTable_eq {k : Kernel} (hinv : TablesInv k)
    (hready : ∀ f ∈ k.pmm.freeFrames.head?, k.Direct f) :
    allocPageTable k =
      match k.pmm.freeFrames with
      | [] => some (0, k)
      | f :: _ =>
        if f = 0 then some (0, { k with pmm := k.pmm.take 0 })
        else
          some (f * 4096,
            { k with mem := Bytes.fill k.mem (f * 4096) 4096 0, pmm := k.pmm.take f }) := by
  unfold allocPageTable
  rw [pmmAllocPage_eq]
  cases hfree : k.pmm.freeFrames with
  | nil => rfl
  | cons f rest =>
    obtain ⟨hlt, hclear⟩ := Pmm.mem_freeFrames.mp (hfree ▸ List.mem_cons_self : f ∈ _)
    have hscan := k.pmm.scanned_lt
    by_cases hf0 : f = 0
    · subst hf0
      rfl
    · have hne : f * pageSize ≠ 0 := by
        simp only [pageSize]
        omega
      have hnt : ¬ Kernel.TableFrame { k with pmm := k.pmm.take f } f := by
        intro ht
        rw [hinv.owned f ht] at hclear
        exact absurd hclear (by simp)
      have hd : Kernel.Direct { k with pmm := k.pmm.take f } f := hready f (by rw [hfree]; rfl)
      have hfill := hd.fill (by omega) hnt
      simp only [pageSize] at hne ⊢
      simp only [if_neg hf0, if_neg hne, hfill, Option.map_some]

/-- The two halves of `map_page` together. -/
theorem mapPage_eq {k : Kernel} (hinv : TablesInv k) {v p : Nat} (hp : p < 4294967296)
    (hready : k.Ready (v / 4096 / 1024)) :
    mapPage k v p =
      match k.table (v / 4096 / 1024) with
      | some t => some (k.setEntry t (v / 4096) (p / 4096 * 4096 + 3))
      | none =>
        match k.pmm.freeFrames with
        | [] => none
        | f :: _ =>
          if f = 0 then none
          else
            some ((k.addTable (v / 4096 / 1024) f).setEntry f (v / 4096)
              (p / 4096 * 4096 + 3)) := by
  have hmod : v / 4096 % 1024 < 1024 := Nat.mod_lt _ (by decide)
  unfold mapPage ensureTable
  unfold Kernel.Ready at hready
  cases ht : k.table (v / 4096 / 1024) with
  | some t =>
    rw [ht] at hready
    simp only [present_of_table ht, if_true, Option.bind_eq_bind, Option.bind_some,
      entryPointer_eq ht, entryAddr_or_flags hp]
    exact hready.store32 (Kernel.table_lt ht) hmod _
  | none =>
    rw [ht] at hready
    simp only [not_present_of_table ht, Bool.false_eq_true, if_false,
      allocPageTable_eq hinv hready, Option.bind_eq_bind]
    cases hfree : k.pmm.freeFrames with
    | nil => rfl
    | cons f rest =>
      obtain ⟨hlt, hclear⟩ := Pmm.mem_freeFrames.mp (hfree ▸ List.mem_cons_self : f ∈ _)
      have hscan := k.pmm.scanned_lt
      by_cases hf0 : f = 0
      · simp [hf0]
      · have hne : f * 4096 ≠ 0 := by omega
        have hor : f * 4096 ||| 0x3 = f * 4096 + 3 :=
          or_low (k := 12) (Nat.mul_mod_left _ _) (by decide)
        have hnt : ¬ k.TableFrame f := fun ht' => by
          rw [hinv.owned f ht'] at hclear
          exact absurd hclear (by simp)
        have htable := Kernel.table_addTable (k := k) (d := v / 4096 / 1024) (f := f)
          (by omega) (v / 4096 / 1024)
        rw [if_pos rfl] at htable
        have hd : (k.addTable (v / 4096 / 1024) f).Direct f := by
          rcases hready f (by rw [hfree]; rfl) with hoff | hmap
          · exact Or.inl hoff
          · exact Or.inr ((Kernel.frame_addTable (by omega) ht hnt (by omega)).trans hmap)
        have hstore := hd.store32 (by omega) hmod (p / 4096 * 4096 + 3)
        have hptr := entryPointer_eq htable
        rw [pageDirectoryIndex_eq] at hptr
        simp only [if_neg hf0, Option.bind_some, if_neg hne, hor, pageDirectoryIndex_eq,
          entryAddr_or_flags hp]
        rw [← hptr] at hstore
        rw [Kernel.setEntry, ← hptr]
        exact hstore

/-- What a successful `map_page` of page `q` to frame `f` leaves behind. -/
structure Mapped (k k' : Kernel) (q f : Nat) : Prop where
  inv : TablesInv k'
  paging : k'.paging = k.paging
  frame : ∀ x < 1048576, k'.frame x = if x = q then some f else k.frame x
  mem : ∀ a, ¬ k'.TableFrame (a / 4096) → k'.mem a = k.mem a
  tables :
    ((∃ t, k.table (q / 1024) = some t) ∧ k'.pmm = k.pmm ∧ ∀ d, k'.table d = k.table d) ∨
    ∃ t rest, k.table (q / 1024) = none ∧ k.pmm.freeFrames = t :: rest ∧ t ≠ 0 ∧
      k'.pmm = k.pmm.take t ∧ ∀ d, k'.table d = if d = q / 1024 then some t else k.table d

/-- The specification. Without a table for the page there are two changes to the kernel, a table
added and an entry set, and each of them keeps the invariant. -/
theorem mapPage_spec {k k' : Kernel} (hinv : TablesInv k) {v p : Nat} (hv : v < 4294967296)
    (hp : p < 4294967296) (hready : k.Ready (v / 4096 / 1024)) (h : mapPage k v p = some k') :
    Mapped k k' (v / 4096) (p / 4096) := by
  have hq : v / 4096 < 1048576 := by omega
  have he : p / 4096 * 4096 + 3 < 4294967296 := by omega
  rw [mapPage_eq hinv hp hready] at h
  cases ht : k.table (v / 4096 / 1024) with
  | some t =>
    rw [ht] at h
    obtain rfl := Option.some.inj h
    refine ⟨hinv.setEntry _ _ _, rfl, fun x hx => ?_, fun a ha => ?_,
      Or.inl ⟨⟨t, ht⟩, rfl, fun d => rfl⟩⟩
    · rw [Kernel.frame_setEntry hinv hq ht he hx, entryFrame_table]
    · refine Bytes.store32_apply_of_disjoint _ ?_
      by_contra hin
      have hpage : a / 4096 = t := by omega
      exact ha ⟨v / 4096 / 1024, by omega, hpage ▸ ht⟩
  | none =>
    rw [ht] at h
    cases hfree : k.pmm.freeFrames with
    | nil => simp [hfree] at h
    | cons t rest =>
      obtain ⟨hlt, hclear⟩ := Pmm.mem_freeFrames.mp (hfree ▸ List.mem_cons_self : t ∈ _)
      have hscan := k.pmm.scanned_lt
      have htlt : t < 1048576 := by omega
      by_cases ht0 : t = 0
      · simp [hfree, ht0] at h
      · simp only [hfree, if_neg ht0] at h
        obtain rfl := Option.some.inj h
        have hnt : ¬ k.TableFrame t := fun ht' => by
          rw [hinv.owned t ht'] at hclear
          exact absurd hclear (by simp)
        have hinv' := hinv.addTable (d := v / 4096 / 1024) htlt hclear
        have htable := Kernel.table_addTable (k := k) (d := v / 4096 / 1024) htlt
        have hhere := htable (v / 4096 / 1024)
        rw [if_pos rfl] at hhere
        refine ⟨hinv'.setEntry _ _ _, rfl, fun x hx => ?_, fun a ha => ?_,
          Or.inr ⟨t, rest, ht, hfree, ht0, rfl, htable⟩⟩
        · rw [Kernel.frame_setEntry hinv' hq hhere he hx, entryFrame_table,
            Kernel.frame_addTable htlt ht hnt hx]
        · -- Both writes stay inside the new table.
          have hne : a / 4096 ≠ t := by
            intro hpage
            refine ha ⟨v / 4096 / 1024, by omega, ?_⟩
            rw [hpage]
            exact hhere
          have hfill : (k.addTable (v / 4096 / 1024) t).mem a = k.mem a := by
            show Bytes.fill k.mem (t * 4096) 4096 0 a = k.mem a
            rw [Bytes.fill, if_neg (by omega)]
          rw [← hfill]
          refine Bytes.store32_apply_of_disjoint _ ?_
          omega

/-- `map_page` returns when the page has a table or there is a frame for one. -/
theorem mapPage_succeeds {k : Kernel} (hinv : TablesInv k) {v p : Nat} (hp : p < 4294967296)
    (hready : k.Ready (v / 4096 / 1024))
    (h : k.table (v / 4096 / 1024) ≠ none ∨ ∃ t rest, k.pmm.freeFrames = t :: rest ∧ t ≠ 0) :
    ∃ k', mapPage k v p = some k' := by
  rw [mapPage_eq hinv hp hready]
  cases ht : k.table (v / 4096 / 1024) with
  | some t => exact ⟨_, rfl⟩
  | none =>
    rcases h with hne | ⟨t, rest, hfree, ht0⟩
    · exact absurd ht hne
    · simp only [hfree, if_neg ht0]
      exact ⟨_, rfl⟩

/-- A page without a table is unmapped already. -/
theorem unmapPage_eq {k : Kernel} {v : Nat}
    (hd : ∀ t, k.table (v / 4096 / 1024) = some t → k.Direct t) :
    unmapPage k v =
      match k.table (v / 4096 / 1024) with
      | some t => some (k.setEntry t (v / 4096) 0)
      | none => some k := by
  unfold unmapPage
  cases ht : k.table (v / 4096 / 1024) with
  | none => simp [not_present_of_table ht]
  | some t =>
    simp only [present_of_table ht, if_true, entryPointer_eq ht]
    exact (hd t ht).store32 (Kernel.table_lt ht) (Nat.mod_lt _ (by decide)) 0

/-! ## Runs

The page tables as `init_vmm` and everything before it sees them: paging off, the directory
zeroed, and any sequence of calls. Between two calls anything may happen to the allocator and
to memory, as long as nobody frees a frame that holds a table, or writes to one. -/

inductive VmmCall
  | mapPage (virtualAddress physicalAddress : UInt32)
  | unmapPage (virtualAddress : UInt32)

def VmmCall.run (k : Kernel) : VmmCall → Option Kernel
  | .mapPage v p => ScratchOs.Mem.mapPage k v.toNat p.toNat
  | .unmapPage v => ScratchOs.Mem.unmapPage k v.toNat

/-- The page a call is about. -/
def VmmCall.page : VmmCall → Nat
  | .mapPage v _ => v.toNat / 4096
  | .unmapPage v => v.toNat / 4096

/-- `other` is the rest of the kernel between two calls. -/
inductive VmmRun (k₀ : Kernel) : List VmmCall → Kernel → Prop
  | start : VmmRun k₀ [] k₀
  | call {calls : List VmmCall} {c : VmmCall} {k k' : Kernel} (hrun : VmmRun k₀ calls k)
      (hc : c.run k = some k') : VmmRun k₀ (calls ++ [c]) k'
  | other {calls : List VmmCall} {k k' : Kernel} (hrun : VmmRun k₀ calls k)
      (hdir : k'.pageDirectory = k.pageDirectory) (hpaging : k'.paging = k.paging)
      (hmem : ∀ a, k.TableFrame (a / 4096) → k'.mem a = k.mem a)
      (howned : ∀ f, k.TableFrame f → k'.pmm.taken f = true) : VmmRun k₀ calls k'

/-- The last call on page `q`. -/
def lastCall (calls : List VmmCall) (q : Nat) : Option VmmCall :=
  calls.reverse.find? fun c => c.page == q

/-- What `get_physical_address` should say after a list of calls. -/
def mappedAddress (calls : List VmmCall) (v : Nat) : Nat :=
  match lastCall calls (v / 4096) with
  | some (.mapPage _ p) => (p.toNat &&& 0xFFFFF000) ||| (v &&& 0xFFF)
  | _ => 0

/-- The frame a call leaves its page with. -/
def VmmCall.frame : VmmCall → Option Nat
  | .mapPage _ p => some (p.toNat / 4096)
  | .unmapPage _ => none

theorem lastCall_append (calls : List VmmCall) (c : VmmCall) (q : Nat) :
    lastCall (calls ++ [c]) q = if c.page = q then some c else lastCall calls q := by
  simp only [lastCall, List.reverse_append, List.reverse_cons, List.reverse_nil, List.nil_append,
    List.cons_append, List.find?_cons]
  by_cases h : c.page = q
  · simp [h]
  · have hne : (c.page == q) = false := by simpa using h
    simp [hne, h]

/-- The answer in terms of the frame: the offset in the page is the address's own. -/
theorem mappedAddress_eq (calls : List VmmCall) (v : Nat) :
    mappedAddress calls v =
      ((((lastCall calls (v / 4096)).bind VmmCall.frame).map
        fun f => f * 4096 + v % 4096).getD 0) := by
  unfold mappedAddress
  cases hc : lastCall calls (v / 4096) with
  | none => rfl
  | some c =>
    cases c with
    | mapPage w p =>
      show entryAddr p.toNat ||| (v &&& 0xFFF) = _
      rw [low_eq, entryAddr_or p.toNat_lt _ (Nat.mod_lt _ (by decide))]
      rfl
    | unmapPage w => rfl

/-- The tables hold what the calls so far asked for. -/
structure VmmInv (calls : List VmmCall) (k : Kernel) : Prop where
  inv : TablesInv k
  paging : k.paging = false
  frame : ∀ q < 1048576, k.frame q = (lastCall calls q).bind VmmCall.frame

/-- A directory of zeros maps nothing. -/
theorem VmmInv.start {k : Kernel} (hzero : ∀ d, k.pageDirectory d = 0)
    (hoff : k.paging = false) : VmmInv [] k := by
  have hnone : ∀ d, k.table d = none := fun d => by
    rw [Kernel.table, hzero d]
    rfl
  refine ⟨⟨?_, ?_⟩, hoff, fun q _ => k.frame_of_no_table (hnone _)⟩
  · rintro f ⟨d, _, hd⟩
    exact absurd hd (by simp [hnone d])
  · intro d _ d' _ t hd
    exact absurd hd (by simp [hnone d])

/-- A call changes the translation of its own page, to what the call says, and of no other. -/
theorem VmmCall.run_spec {k k' : Kernel} {c : VmmCall} (hinv : TablesInv k)
    (hoff : k.paging = false) (h : c.run k = some k') :
    TablesInv k' ∧ k'.paging = false ∧
      ∀ x < 1048576, k'.frame x = if c.page = x then c.frame else k.frame x := by
  have hdirect : ∀ t, k.Direct t := fun t => Or.inl hoff
  cases c with
  | mapPage v p =>
    have hready : k.Ready (v.toNat / 4096 / 1024) := by
      unfold Kernel.Ready
      split
      · exact hdirect _
      · exact fun f _ => hdirect f
    have hm := mapPage_spec hinv v.toNat_lt p.toNat_lt hready h
    refine ⟨hm.inv, hm.paging.trans hoff, fun x hx => ?_⟩
    rw [hm.frame x hx]
    exact if_congr eq_comm rfl rfl
  | unmapPage v =>
    have hq : v.toNat / 4096 < 1048576 := by
      have := v.toNat_lt
      omega
    have heq := unmapPage_eq (v := v.toNat) fun t _ => hdirect t
    rw [VmmCall.run, heq] at h
    cases ht : k.table (v.toNat / 4096 / 1024) with
    | some t =>
      rw [ht] at h
      obtain rfl := Option.some.inj h
      refine ⟨hinv.setEntry _ _ _, hoff, fun x hx => ?_⟩
      rw [Kernel.frame_setEntry hinv hq ht (by decide) hx, entryFrame_zero]
      exact if_congr eq_comm rfl rfl
    | none =>
      rw [ht] at h
      obtain rfl := Option.some.inj h
      refine ⟨hinv, hoff, fun x _ => ?_⟩
      by_cases hx : v.toNat / 4096 = x
      · subst hx
        rw [k.frame_of_no_table ht]
        simp [VmmCall.page, VmmCall.frame]
      · simp [VmmCall.page, hx]

/-- The invariant over whole runs, by induction on the run. -/
theorem VmmInv.run {k₀ k : Kernel} {calls : List VmmCall} (hzero : ∀ d, k₀.pageDirectory d = 0)
    (hoff : k₀.paging = false) (hrun : VmmRun k₀ calls k) : VmmInv calls k := by
  induction hrun with
  | start => exact VmmInv.start hzero hoff
  | @call calls c k k' _ hc ih =>
    obtain ⟨hinv, hpaging, hframe⟩ := VmmCall.run_spec ih.inv ih.paging hc
    refine ⟨hinv, hpaging, fun q hq => ?_⟩
    rw [hframe q hq, lastCall_append, ih.frame q hq]
    split <;> rfl
  | @other calls k k' _ hdir hpaging hmem howned ih =>
    have htable : ∀ d, k'.table d = k.table d := fun d => by
      rw [Kernel.table, Kernel.table, hdir]
    refine ⟨⟨?_, ?_⟩, hpaging.trans ih.paging, fun q hq => ?_⟩
    · rintro f ⟨d, hd, ht⟩
      exact howned f ⟨d, hd, (htable d).symm.trans ht⟩
    · intro d hd d' hd' t ht ht'
      exact ih.inv.inj d hd d' hd' t ((htable d).symm.trans ht) ((htable d').symm.trans ht')
    · rw [Kernel.frame_congr htable hmem hq, ih.frame q hq]

/-- **The page tables implement a finite map**: after any run, `get_physical_address` answers
every address by the last call on its page; a further call is seen at its own page only; and
present directory entries name distinct frames. -/
theorem page_tables_implement_map (k₀ : Kernel) (hzero : ∀ d, k₀.pageDirectory d = 0)
    (hoff : k₀.paging = false) (calls : List VmmCall) (k : Kernel)
    (hrun : VmmRun k₀ calls k) :
    (∀ v : UInt32, getPhysicalAddress k v.toNat = some (mappedAddress calls v.toNat)) ∧
    (∀ (c : VmmCall) (k' : Kernel), c.run k = some k' → ∀ v : UInt32,
      v.toNat / 4096 ≠ c.page →
        getPhysicalAddress k' v.toNat = getPhysicalAddress k v.toNat) ∧
    (∀ d < 1024, ∀ d' < 1024, present (k.pageDirectory d).toNat = true →
      present (k.pageDirectory d').toNat = true →
      entryAddr (k.pageDirectory d).toNat = entryAddr (k.pageDirectory d').toNat → d = d') := by
  have hinv := VmmInv.run hzero hoff hrun
  have hpage : ∀ v : UInt32, v.toNat / 4096 < 1048576 := fun v => by
    have := v.toNat_lt
    omega
  have hread : ∀ (calls : List VmmCall) (k : Kernel), VmmRun k₀ calls k → ∀ v : UInt32,
      getPhysicalAddress k v.toNat = some (mappedAddress calls v.toNat) := by
    intro calls k hrun v
    have h := VmmInv.run hzero hoff hrun
    rw [getPhysicalAddress_eq fun t _ => Or.inl h.paging, h.frame _ (hpage v), mappedAddress_eq]
  refine ⟨hread calls k hrun, fun c k' hc v hv => ?_, fun d hd d' hd' hp hp' heq => ?_⟩
  · rw [hread _ _ (hrun.call hc), hread _ _ hrun]
    simp only [mappedAddress, lastCall_append, if_neg (Ne.symm hv)]
  · have hlt := (k.pageDirectory d).toNat_lt
    have hlt' := (k.pageDirectory d').toNat_lt
    rw [entryAddr_eq hlt, entryAddr_eq hlt'] at heq
    have hframes : (k.pageDirectory d).toNat / 4096 = (k.pageDirectory d').toNat / 4096 := by
      omega
    refine hinv.inv.inj d hd d' hd' _ ?_ (if_pos hp')
    rw [← hframes]
    exact if_pos hp

/-- A machine with 64 frames, the first taken, before any mapping. -/
def blankKernel : Kernel where
  mem := fun _ => 0
  pageDirectory := fun _ => 0
  paging := false
  pmm := twoPages

/-- Frame 1 becomes the table of a first mapping, and a second call on the page undoes it. -/
theorem page_tables_implement_map_blank :
    ∃ k k', VmmRun blankKernel [.mapPage 0xC0400000 0x5000] k ∧
      VmmCall.run k (.unmapPage 0xC0400FFF) = some k' ∧
      getPhysicalAddress k 0xC0400123 = some 0x5123 ∧
      getPhysicalAddress k' 0xC0400123 = some 0 := by
  have hstart := VmmInv.start (k := blankKernel) (fun _ => rfl) rfl
  have hready : blankKernel.Ready (0xC0400000 / 4096 / 1024) := fun f _ => Or.inl rfl
  have hfree := Pmm.freeFrames_eq_cons (s := blankKernel.pmm) (f := 1) (by decide) (by decide)
    (by decide)
  obtain ⟨k, hk⟩ := mapPage_succeeds (p := 0x5000) hstart.inv (by decide) hready
    (Or.inr ⟨1, _, hfree, by decide⟩)
  have hrun : VmmRun blankKernel [.mapPage 0xC0400000 0x5000] k := VmmRun.start.call hk
  obtain ⟨hread, -, -⟩ := page_tables_implement_map blankKernel (fun _ => rfl) rfl _ k hrun
  have hoff := (VmmInv.run (fun _ => rfl) rfl hrun).paging
  have hun := unmapPage_eq (k := k) (v := 0xC0400FFF) fun t _ => Or.inl hoff
  obtain ⟨k', hk'⟩ : ∃ k', VmmCall.run k (.unmapPage 0xC0400FFF) = some k' := by
    show ∃ k', unmapPage k 0xC0400FFF = some k'
    rw [hun]
    split
    · exact ⟨_, rfl⟩
    · exact ⟨_, rfl⟩
  obtain ⟨hread', -, -⟩ :=
    page_tables_implement_map blankKernel (fun _ => rfl) rfl _ k' (hrun.call hk')
  exact ⟨k, k', hrun, hk', hread 0xC0400123, hread' 0xC0400123⟩

end ScratchOs.Mem
