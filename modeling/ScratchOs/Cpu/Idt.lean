import Mathlib.Data.List.FinRange
import ScratchOs.Lib.X86

/-!
# The interrupt descriptor table

`init_idt_desc`, `set_idt` and `register_interrupt_handler` of `cpu/int.cpp`, on the bytes of `idt`
and `interrupt_handlers`. The interrupt controllers `set_idt` remaps on its way are in
`Cpu/Remap.lean`.

The table is written by one piece of hardware's rules and read by another's. The code writes two
halves of an address, a selector and a byte of attributes; the processor looks at a limit, a present
bit and a type, and puts the halves together (`X86.gateAt`). The two are separate definitions, from
separate sources, and the round trip between them is a theorem (`gateAt_initIdtDesc_same`).

`interrupt_handlers` follows the table in this module because both are arrays with an entry for each
vector, side by side in the kernel's image. That neither runs into the other is up to the linker,
and `Tables` carries it.
-/

set_option autoImplicit false

namespace ScratchOs.Cpu

open X86 Bytes

/-- Where the linker has put the two arrays. -/
structure Tables where
  idt : Nat
  interruptHandlers : Nat
  disjoint : idt + 2048 ≤ interruptHandlers ∨ interruptHandlers + 1024 ≤ idt

/-- `INT_GATE_FLAG` -/
def intGateFlag : UInt8 := 0x8E

namespace Tables

variable (T : Tables)

/-- `void init_idt_desc(void *isr, uint8_t attribute, uint8_t entry)` -/
def initIdtDesc (m : Mem) (isr : UInt32) (attributes entry : UInt8) : Mem :=
  let a := T.idt + 8 * entry.toNat
  let m := store16 m a (isr &&& 0xFFFF).toNat
  let m := store16 m (a + 6) ((isr >>> 16) &&& 0xFFFF).toNat
  let m := store16 m (a + 2) 0x08
  let m := store8 m (a + 4) 0
  store8 m (a + 5) attributes

/-- What `set_idt` gives to `lidt`. -/
def idtr : Idtr := ⟨8 * 256 - 1, T.idt⟩

/-- `void set_idt(void)`, with what is in `isr_stub_table`. -/
def setIdt (isrStubTable : Fin 48 → UInt32) (m : Mem) : Mem :=
  let m := storeWords m 0 ((List.range 256).map fun i => T.interruptHandlers + 4 * i)
  (List.finRange 48).foldl
    (fun m i => T.initIdtDesc m (isrStubTable i) intGateFlag (UInt8.ofNat i)) m

/-- `void register_interrupt_handler(uint8_t n, isr_t handler)` -/
def registerInterruptHandler (m : Mem) (n : UInt8) (handler : UInt32) : Mem :=
  store32 m (T.interruptHandlers + 4 * n.toNat) handler.toNat

/-- `interrupt_handlers[n]` -/
def handlerAt (m : Mem) (n : UInt8) : UInt32 :=
  UInt32.ofNat (load32 m (T.interruptHandlers + 4 * n.toNat))

end Tables

/-! ## One descriptor -/

section

variable {T : Tables} {m : Mem} {isr : UInt32} {attributes entry : UInt8}

theorem initIdtDesc_of_disjoint {c : Nat}
    (hc : c < T.idt + 8 * entry.toNat ∨ T.idt + 8 * entry.toNat + 8 ≤ c) :
    T.initIdtDesc m isr attributes entry c = m c := by
  unfold Tables.initIdtDesc
  rw [store8_of_ne _ (by omega), store8_of_ne _ (by omega), store16_apply_of_disjoint _ (by omega),
    store16_apply_of_disjoint _ (by omega), store16_apply_of_disjoint _ (by omega)]

theorem initIdtDesc_attributes (T : Tables) (m : Mem) (isr : UInt32) (attributes entry : UInt8) :
    T.initIdtDesc m isr attributes entry (T.idt + 8 * entry.toNat + 5) = attributes :=
  store8_same ..

/-- The halves of the address, put back together. -/
theorem initIdtDesc_offset (T : Tables) (m : Mem) (isr : UInt32) (attributes entry : UInt8) :
    UInt32.ofNat (load16 (T.initIdtDesc m isr attributes entry) (T.idt + 8 * entry.toNat) +
      65536 * load16 (T.initIdtDesc m isr attributes entry) (T.idt + 8 * entry.toNat + 6)) = isr := by
  have hlow : (isr &&& 0xFFFF).toNat = isr.toNat % 65536 := by
    rw [UInt32.toNat_and]
    exact Nat.and_two_pow_sub_one_eq_mod isr.toNat 16
  have hhigh : ((isr >>> 16) &&& 0xFFFF).toNat = isr.toNat / 65536 := by
    have hlt := isr.toNat_lt
    rw [UInt32.toNat_and, UInt32.toNat_shiftRight]
    refine (Nat.and_two_pow_sub_one_eq_mod _ 16).trans ?_
    rw [show (16 : UInt32).toNat % 32 = 16 from rfl, Nat.shiftRight_eq_div_pow]
    omega
  have hlt := isr.toNat_lt
  unfold Tables.initIdtDesc
  rw [load16_store8_of_disjoint _ (by omega), load16_store8_of_disjoint _ (by omega),
    load16_store16_of_disjoint _ (by omega), load16_store16_of_disjoint _ (by omega),
    load16_store16_of_lt _ _ (by omega),
    load16_store8_of_disjoint _ (by omega), load16_store8_of_disjoint _ (by omega),
    load16_store16_of_disjoint _ (by omega), load16_store16_of_lt _ _ (by omega), hlow, hhigh]
  have hsplit : isr.toNat % 65536 + 65536 * (isr.toNat / 65536) = isr.toNat := by omega
  rw [hsplit, UInt32.ofNat_toNat]

theorem initIdtDesc_selector (T : Tables) (m : Mem) (isr : UInt32) (attributes entry : UInt8) :
    load16 (T.initIdtDesc m isr attributes entry) (T.idt + 8 * entry.toNat + 2) = 8 := by
  unfold Tables.initIdtDesc
  rw [load16_store8_of_disjoint _ (by omega), load16_store8_of_disjoint _ (by omega),
    load16_store16_of_lt _ _ (by decide)]

/-- **A round trip**: the processor finds in an interrupt gate what has been put into it. -/
theorem gateAt_initIdtDesc_same :
    gateAt (T.initIdtDesc m isr intGateFlag entry) T.idtr entry = some ⟨isr, 8, true⟩ := by
  have hlt := entry.toNat_lt
  have hlimit : ¬ T.idtr.limit < 8 * entry.toNat + 7 := by
    show ¬ 8 * 256 - 1 < _
    omega
  have hoffset := initIdtDesc_offset T m isr intGateFlag entry
  have hselector := initIdtDesc_selector T m isr intGateFlag entry
  have hattributes := initIdtDesc_attributes T m isr intGateFlag entry
  unfold gateAt
  show (if _ then _ else if T.initIdtDesc m isr intGateFlag entry (T.idt + _ + 5) &&& _ = _
    then _ else _) = _
  rw [if_neg hlimit, hattributes, if_pos (by decide)]
  show some (Gate.mk (UInt32.ofNat (load16 _ (T.idt + 8 * entry.toNat) +
    65536 * load16 _ (T.idt + 8 * entry.toNat + 6)))
    (UInt16.ofNat (load16 _ (T.idt + 8 * entry.toNat + 2))) true) = _
  rw [hoffset, hselector]
  rfl

theorem gateAt_initIdtDesc_of_ne {v : UInt8} (hv : v ≠ entry) :
    gateAt (T.initIdtDesc m isr attributes entry) T.idtr v = gateAt m T.idtr v := by
  have hne : v.toNat ≠ entry.toNat := fun h => hv (UInt8.toNat_inj.mp h)
  refine gateAt_congr fun c hc hlast => initIdtDesc_of_disjoint ?_
  have hbase : T.idtr.base = T.idt := rfl
  omega

end

/-! ## The whole table -/

section

variable (T : Tables) (isrStubTable : Fin 48 → UInt32)

/-- The loop of `set_idt`, as far as it has come. -/
def initIdtDescs (m : Mem) (is : List (Fin 48)) : Mem :=
  is.foldl (fun m i => T.initIdtDesc m (isrStubTable i) intGateFlag (UInt8.ofNat i)) m

theorem ofNat_val (i : Fin 48) : (UInt8.ofNat i.val).toNat = i.val := by
  rw [UInt8.toNat_ofNat', Nat.mod_eq_of_lt (by omega)]

/-- A gate of the loop stays what the loop makes it. -/
theorem gateAt_initIdtDescs_of_mem {i : Fin 48} {is : List (Fin 48)} {m : Mem}
    (h : i ∈ is ∨ gateAt m T.idtr (UInt8.ofNat i) = some ⟨isrStubTable i, 8, true⟩) :
    gateAt (initIdtDescs T isrStubTable m is) T.idtr (UInt8.ofNat i) =
      some ⟨isrStubTable i, 8, true⟩ := by
  induction is generalizing m with
  | nil => exact h.resolve_left List.not_mem_nil
  | cons j is ih =>
    refine ih ?_
    by_cases hij : j = i
    · subst hij
      exact .inr gateAt_initIdtDesc_same
    · have hne : UInt8.ofNat i.val ≠ UInt8.ofNat j.val := fun heq =>
        hij (Fin.ext (by rw [← ofNat_val i, ← ofNat_val j, heq]))
      rw [gateAt_initIdtDesc_of_ne hne]
      exact h.imp_left fun hmem => (List.mem_cons.mp hmem).resolve_left fun heq => hij heq.symm

theorem initIdtDescs_of_disjoint {is : List (Fin 48)} {m : Mem} {c : Nat}
    (hc : c < T.idt ∨ T.idt + 8 * 48 ≤ c) : initIdtDescs T isrStubTable m is c = m c := by
  induction is generalizing m with
  | nil => rfl
  | cons j is ih =>
    have hj := ofNat_val j
    refine ih.trans (initIdtDesc_of_disjoint ?_)
    omega

theorem gateAt_setIdt (m : Mem) (v : UInt8) :
    gateAt (T.setIdt isrStubTable m) T.idtr v =
      if h : v.toNat < 48 then some ⟨isrStubTable ⟨v.toNat, h⟩, 8, true⟩
      else gateAt m T.idtr v := by
  by_cases hv : v.toNat < 48
  · have hgate := gateAt_initIdtDescs_of_mem T isrStubTable (i := ⟨v.toNat, hv⟩)
      (m := storeWords m 0 ((List.range 256).map fun i => T.interruptHandlers + 4 * i))
      (.inl (List.mem_finRange _))
    rw [UInt8.ofNat_toNat] at hgate
    rw [dif_pos hv]
    exact hgate
  · rw [dif_neg hv]
    refine gateAt_congr fun c hc hlast => ?_
    have hbase : T.idtr.base = T.idt := rfl
    have hlt := v.toNat_lt
    have hdisjoint := T.disjoint
    refine (initIdtDescs_of_disjoint T isrStubTable (by omega)).trans ?_
    refine storeWords_of_forall 0 fun a ha hin => ?_
    obtain ⟨k, hk, rfl⟩ := List.mem_map.mp ha
    have hk := List.mem_range.mp hk
    omega

theorem handlerAt_setIdt (m : Mem) (n : UInt8) : T.handlerAt (T.setIdt isrStubTable m) n = 0 := by
  have hlt := n.toNat_lt
  have hdisjoint := T.disjoint
  -- The four bytes are of the word the first loop has cleared.
  have hbyte : ∀ j, j < 4 →
      T.setIdt isrStubTable m (T.interruptHandlers + 4 * n.toNat + j) = 0 := by
    intro j hj
    refine (initIdtDescs_of_disjoint T isrStubTable (by omega)).trans ?_
    have hword : T.interruptHandlers + 4 * n.toNat ∈
        (List.range 256).map fun i => T.interruptHandlers + 4 * i :=
      List.mem_map.mpr ⟨n.toNat, List.mem_range.mpr hlt, rfl⟩
    obtain ⟨a, -, -, hzero⟩ := storeWords_of_exists 0 (m := m)
      (c := T.interruptHandlers + 4 * n.toNat + j) ⟨_, hword, by omega⟩
    rw [hzero, byteOf_zero]
  have hload : load32 (T.setIdt isrStubTable m) (T.interruptHandlers + 4 * n.toNat) =
      load32 (fun _ => 0) (T.interruptHandlers + 4 * n.toNat) := load32_congr hbyte
  rw [Tables.handlerAt, hload]
  rfl

theorem gateAt_register (m : Mem) (n : UInt8) (handler : UInt32) (v : UInt8) :
    gateAt (T.registerInterruptHandler m n handler) T.idtr v = gateAt m T.idtr v := by
  have hbase : T.idtr.base = T.idt := rfl
  have hn := n.toNat_lt
  have hv := v.toNat_lt
  have hdisjoint := T.disjoint
  exact gateAt_congr fun c hc hlast => store32_apply_of_disjoint _ (by omega)

theorem handlerAt_register (m : Mem) (n : UInt8) (handler : UInt32) :
    T.handlerAt (T.registerInterruptHandler m n handler) =
      Function.update (T.handlerAt m) n handler := by
  funext k
  by_cases hk : k = n
  · subst hk
    rw [Function.update_self, Tables.handlerAt, Tables.registerInterruptHandler,
      load32_store32_of_lt _ _ handler.toNat_lt, UInt32.ofNat_toNat]
  · have hne : k.toNat ≠ n.toNat := fun h => hk (UInt8.toNat_inj.mp h)
    rw [Function.update_of_ne hk, Tables.handlerAt, Tables.registerInterruptHandler,
      load32_store32_of_disjoint _ (by omega), ← Tables.handlerAt]

/-- `register_interrupt_handler` again and again. -/
def registerAll (m : Mem) (calls : List (UInt8 × UInt32)) : Mem :=
  calls.foldl (fun m c => T.registerInterruptHandler m c.1 c.2) m

theorem gateAt_registerAll {calls : List (UInt8 × UInt32)} {m : Mem} (v : UInt8) :
    gateAt (registerAll T m calls) T.idtr v = gateAt m T.idtr v := by
  induction calls generalizing m with
  | nil => rfl
  | cons c calls ih => exact ih.trans (gateAt_register T m c.1 c.2 v)

theorem handlerAt_registerAll {calls : List (UInt8 × UInt32)} {m : Mem} :
    T.handlerAt (registerAll T m calls) =
      calls.foldl (fun f c => Function.update f c.1 c.2) (T.handlerAt m) := by
  induction calls generalizing m with
  | nil => rfl
  | cons c calls ih =>
    rw [List.foldl_cons, ← handlerAt_register]
    exact ih

/-- **The tables after boot**, whatever was in them and whichever handlers have been registered: the
processor finds the stubs behind interrupt gates, and a vector has the handler registered last. -/
theorem setIdt_then_register (m : Mem) (calls : List (UInt8 × UInt32)) :
    (∀ v, gateAt (registerAll T (T.setIdt isrStubTable m) calls) T.idtr v =
      if h : v.toNat < 48 then some ⟨isrStubTable ⟨v.toNat, h⟩, 8, true⟩
      else gateAt m T.idtr v) ∧
    T.handlerAt (registerAll T (T.setIdt isrStubTable m) calls) =
      calls.foldl (fun f c => Function.update f c.1 c.2) (fun _ => 0) := by
  refine ⟨fun v => ?_, ?_⟩
  · rw [gateAt_registerAll, gateAt_setIdt]
  · rw [handlerAt_registerAll]
    congr 1
    exact funext (handlerAt_setIdt T isrStubTable m)

end

end ScratchOs.Cpu
