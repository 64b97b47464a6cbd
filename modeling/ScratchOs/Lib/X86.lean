import Mathlib.Logic.Function.Basic
import Mathlib.Logic.Relation
import ScratchOs.Lib.Bytes

/-!
# A 32-bit x86 processor in ring 0

The registers, the stack, and an interrupt through a gate and back again. The segments are flat,
and all gates lead to ring 0, so an interrupt stays on its stack.

Code that other code interrupts must find everything as it was: its registers, its flags and its
stack. That is `Transparent`, and what compiled code promises where it is called, however often
it is interrupted, is `Cdecl`.

## What is taken from the processor, and what is not

Instructions are those that hand-written entry code is made of. They are executed on machine words
and on bytes in memory, so a stub that pops a word too many reads whatever lies there, as it does
on the processor. Compiled code is not executed: it is any relation on machines that keeps the
calling convention.

Two things are assumed throughout. The stack has room, which a client has as a hypothesis on `esp`;
a stack that runs into something else is not a fault here, it overwrites what is there. And a gate
leads to ring 0, so `iret` takes three words and no more; a gate or a frame with another ring is out
of reach.

`Cdecl` has the interruptions inside it. A promise about code that runs undisturbed would be of no
use in a kernel, and a promise about code that runs between interruptions would have to be given
again for every place where one can come. So it says: whatever runs in between, as long as the code
cannot notice it, the caller gets its registers back.
-/

set_option autoImplicit false

namespace ScratchOs.X86

open Bytes

inductive Reg
  | eax | ecx | edx | ebx | esp | ebp | esi | edi
deriving DecidableEq

inductive Seg
  | es | cs | ss | ds | fs | gs
deriving DecidableEq

structure Machine where
  reg : Reg → UInt32
  seg : Seg → UInt16
  eip : UInt32
  eflags : UInt32
  mem : Mem

abbrev Machine.esp (s : Machine) : UInt32 := s.reg .esp

def Machine.set (s : Machine) (r : Reg) (v : UInt32) : Machine :=
  { s with reg := Function.update s.reg r v }

def Machine.setSeg (s : Machine) (g : Seg) (v : UInt16) : Machine :=
  { s with seg := Function.update s.seg g v }

@[simp] theorem Machine.set_same (s : Machine) (r : Reg) (v : UInt32) : (s.set r v).reg r = v :=
  Function.update_self ..

theorem Machine.set_reg (s : Machine) (v : UInt32) {r r' : Reg} (h : r' ≠ r) :
    (s.set r v).reg r' = s.reg r' :=
  Function.update_of_ne h ..

/-- The interrupt flag. -/
def flagIF : UInt32 := 0x200

/-- What a gate clears whatever its kind: TF, NT, RF and VM. -/
def gateFlags : UInt32 := 0x34100

/-! ## The stack -/

def Machine.push (s : Machine) (w : UInt32) : Machine :=
  { s with
    reg := Function.update s.reg .esp (s.esp - 4)
    mem := store32 s.mem (s.esp - 4).toNat w.toNat }

def Machine.pushes (s : Machine) (ws : List UInt32) : Machine := ws.foldl Machine.push s

/-- The word `4 * i` bytes above the top of the stack. -/
def Machine.word (s : Machine) (i : Nat) : UInt32 :=
  UInt32.ofNat (load32 s.mem (s.esp.toNat + 4 * i))

def Machine.drop (s : Machine) (n : UInt32) : Machine :=
  { s with reg := Function.update s.reg .esp (s.esp + n) }

/-- The words of a stack, from address `a` up. -/
def Words (m : Mem) (a : Nat) : List UInt32 → Prop
  | [] => True
  | w :: ws => load32 m a = w.toNat ∧ Words m (a + 4) ws

theorem Words.congr {m m' : Mem} {ws : List UInt32} : ∀ {a : Nat},
    (∀ c, a ≤ c → c < a + 4 * ws.length → m' c = m c) → Words m a ws → Words m' a ws := by
  induction ws with
  | nil =>
    intro a _ _
    exact trivial
  | cons w ws ih =>
    intro a hsame hws
    obtain ⟨hw, hws⟩ := hws
    rw [List.length_cons] at hsame
    refine ⟨?_, ih (fun c hac hc => hsame c (by omega) (by omega)) hws⟩
    rw [← hw]
    exact load32_congr fun i hi => hsame (a + i) (by omega) (by omega)

/-- What a client reads off a stack. -/
theorem Words.get {m : Mem} {ws : List UInt32} : ∀ {a i : Nat} (hi : i < ws.length),
    Words m a ws → load32 m (a + 4 * i) = (ws.get ⟨i, hi⟩).toNat := by
  induction ws with
  | nil =>
    intro a i hi
    exact absurd hi (Nat.not_lt_zero i)
  | cons w ws ih =>
    intro a i hi hws
    cases i with
    | zero => exact hws.1
    | succ i =>
      rw [List.get_cons_succ, ← ih (by simpa using hi) hws.2]
      congr 1
      omega

theorem Machine.word_eq {s : Machine} {ws : List UInt32}
    (hws : Words s.mem s.esp.toNat ws) {i : Nat} (hi : i < ws.length) :
    s.word i = ws.get ⟨i, hi⟩ := by
  rw [Machine.word, hws.get hi, UInt32.ofNat_toNat]

theorem toNat_sub_four {a : UInt32} (h : 4 ≤ a.toNat) : (a - 4).toNat = a.toNat - 4 :=
  UInt32.toNat_sub_of_le a 4 h

@[simp] theorem Machine.push_esp (s : Machine) (w : UInt32) : (s.push w).esp = s.esp - 4 := by
  simp [Machine.esp, Machine.push]

theorem Machine.push_reg (s : Machine) (w : UInt32) {r : Reg} (hr : r ≠ .esp) :
    (s.push w).reg r = s.reg r :=
  Function.update_of_ne hr ..

theorem Machine.push_mem {s : Machine} (w : UInt32) (hroom : 4 ≤ s.esp.toNat) {c : Nat}
    (hc : s.esp.toNat ≤ c) : (s.push w).mem c = s.mem c := by
  refine store32_apply_of_disjoint _ (.inr ?_)
  rw [toNat_sub_four hroom]
  omega

theorem Machine.push_words {s : Machine} (w : UInt32) {ws : List UInt32} (hroom : 4 ≤ s.esp.toNat)
    (hws : Words s.mem s.esp.toNat ws) :
    Words (s.push w).mem (s.push w).esp.toNat (w :: ws) := by
  refine ⟨?_, ?_⟩
  · rw [Machine.push_esp]
    exact load32_store32_of_lt _ _ w.toNat_lt
  · rw [Machine.push_esp, toNat_sub_four hroom, Nat.sub_add_cancel hroom]
    exact hws.congr fun c hc _ => Machine.push_mem w hroom hc

section

variable {s : Machine}

theorem Machine.pushes_esp {ws : List UInt32} (hroom : 4 * ws.length ≤ s.esp.toNat) :
    (s.pushes ws).esp.toNat = s.esp.toNat - 4 * ws.length := by
  induction ws generalizing s with
  | nil => rfl
  | cons w ws ih =>
    rw [List.length_cons] at hroom
    have hesp : (s.push w).esp.toNat = s.esp.toNat - 4 := toNat_sub_four (by omega)
    have hrest := ih (s := s.push w) (by omega)
    rw [List.length_cons]
    show ((s.push w).pushes ws).esp.toNat = _
    omega

theorem Machine.pushes_reg (ws : List UInt32) {r : Reg} (hr : r ≠ .esp) :
    (s.pushes ws).reg r = s.reg r := by
  induction ws generalizing s with
  | nil => rfl
  | cons w ws ih => exact ih.trans (Machine.push_reg s w hr)

theorem Machine.pushes_seg (ws : List UInt32) : (s.pushes ws).seg = s.seg := by
  induction ws generalizing s with
  | nil => rfl
  | cons w ws ih => exact ih

theorem Machine.pushes_append (ws vs : List UInt32) :
    s.pushes (ws ++ vs) = (s.pushes ws).pushes vs :=
  List.foldl_append

theorem Machine.pushes_cons (w : UInt32) (ws : List UInt32) :
    s.pushes (w :: ws) = (s.push w).pushes ws :=
  List.foldl_cons ..

/-- A push writes below the stack. -/
theorem Machine.pushes_mem {ws : List UInt32} (hroom : 4 * ws.length ≤ s.esp.toNat) {c : Nat}
    (hc : s.esp.toNat ≤ c) : (s.pushes ws).mem c = s.mem c := by
  induction ws generalizing s with
  | nil => rfl
  | cons w ws ih =>
    rw [List.length_cons] at hroom
    have hesp : (s.push w).esp.toNat = s.esp.toNat - 4 := toNat_sub_four (by omega)
    have hrest := ih (s := s.push w) (by omega) (by omega)
    exact hrest.trans (Machine.push_mem w (by omega) hc)

theorem Machine.pushes_words (ws : List UInt32) {vs : List UInt32}
    (hroom : 4 * ws.length ≤ s.esp.toNat)
    (hvs : Words s.mem s.esp.toNat vs) :
    Words (s.pushes ws).mem (s.pushes ws).esp.toNat (ws.reverse ++ vs) := by
  induction ws generalizing s vs with
  | nil => exact hvs
  | cons w ws ih =>
    rw [List.length_cons] at hroom
    have hesp : (s.push w).esp.toNat = s.esp.toNat - 4 := toNat_sub_four (by omega)
    rw [List.reverse_cons, List.append_assoc]
    exact ih (s := s.push w) (by omega) (Machine.push_words w (by omega) hvs)

end

/-- Pushes depend on the stack only. -/
theorem Machine.pushes_congr {s t : Machine} (hmem : t.mem = s.mem) (hesp : t.esp = s.esp)
    (ws : List UInt32) :
    (t.pushes ws).mem = (s.pushes ws).mem ∧ (t.pushes ws).esp = (s.pushes ws).esp := by
  induction ws generalizing s t with
  | nil => exact ⟨hmem, hesp⟩
  | cons w ws ih =>
    rw [Machine.pushes_cons, Machine.pushes_cons]
    refine ih ?_ ?_
    · show store32 t.mem (t.esp - 4).toNat w.toNat = store32 s.mem (s.esp - 4).toNat w.toNat
      rw [hmem, hesp]
    · rw [Machine.push_esp, Machine.push_esp, hesp]

/-! ## Instructions -/

/-- The instructions of a stub but for its `call`. -/
inductive Instr
  | cli
  | pushByte (v : UInt8)
  | push (r : Reg)
  | pop (r : Reg)
  | pusha
  | popa
  /-- `mov ax, v` -/
  | movAx (v : UInt16)
  /-- `mov ax, g` -/
  | movAxSeg (g : Seg)
  /-- `mov g, ax` -/
  | movSegAx (g : Seg)
  | addEsp (n : UInt32)
  | iret

/-- `mov ax, v` keeps the upper half of `eax`. -/
def withAx (eax : UInt32) (v : UInt16) : UInt32 := (eax &&& 0xFFFF0000) ||| v.toUInt32

/-- `eip` is what a gate, a `call` or an `iret` makes it: nobody sees it in between, since no
interrupt comes. The flags of an `add` are not followed: an `iret` brings back its own. -/
def Instr.exec (s : Machine) : Instr → Machine
  | .cli => { s with eflags := s.eflags &&& ~~~flagIF }
  | .pushByte v => s.push v.toInt8.toInt32.toUInt32
  | .push r => s.push (s.reg r)
  | .pop r => (s.drop 4).set r (s.word 0)
  | .pusha =>
    s.pushes [s.reg .eax, s.reg .ecx, s.reg .edx, s.reg .ebx, s.esp, s.reg .ebp, s.reg .esi,
      s.reg .edi]
  | .popa =>
    ((((((((s.drop 32).set .edi (s.word 0)).set .esi (s.word 1)).set .ebp (s.word 2)).set .ebx
      (s.word 4)).set .edx (s.word 5)).set .ecx (s.word 6)).set .eax (s.word 7))
  | .movAx v => s.set .eax (withAx (s.reg .eax) v)
  | .movAxSeg g => s.set .eax (withAx (s.reg .eax) (s.seg g))
  | .movSegAx g => s.setSeg g (s.reg .eax).toUInt16
  | .addEsp n => s.drop n
  | .iret =>
    { s.drop 12 with
      eip := s.word 0
      seg := Function.update s.seg .cs (s.word 1).toUInt16
      eflags := s.word 2 }

def Machine.run (s : Machine) (code : List Instr) : Machine := code.foldl Instr.exec s

theorem Machine.run_cons (s : Machine) (i : Instr) (code : List Instr) :
    s.run (i :: code) = (i.exec s).run code := rfl

theorem Machine.run_append (s : Machine) (code code' : List Instr) :
    s.run (code ++ code') = (s.run code).run code' :=
  List.foldl_append

/-- The stack of `t` is that of `s` without `k` words. -/
theorem Machine.word_above {s t : Machine} {k : Nat} (hmem : t.mem = s.mem)
    (hesp : t.esp = s.esp + UInt32.ofNat (4 * k)) (hroom : s.esp.toNat + 4 * k < 4294967296)
    (i : Nat) : t.word i = s.word (k + i) := by
  have hk : (UInt32.ofNat (4 * k)).toNat = 4 * k := by
    rw [UInt32.toNat_ofNat', Nat.mod_eq_of_lt (by omega)]
  have hto : t.esp.toNat = s.esp.toNat + 4 * k := by
    rw [hesp, UInt32.toNat_add, hk, Nat.mod_eq_of_lt hroom]
  rw [Machine.word, Machine.word, hmem, hto]
  congr 2
  omega

theorem withAx_toUInt16 (eax : UInt32) (v : UInt16) : (withAx eax v).toUInt16 = v := by
  have hmask : UInt32.toUInt16 0xFFFF0000 = 0 := by decide
  rw [withAx, UInt32.toUInt16_or, UInt32.toUInt16_and, hmask, UInt16.toUInt16_toUInt32,
    UInt16.and_zero, UInt16.zero_or]

/-- `call target`, from the instruction before `back`. -/
def Machine.call (s : Machine) (target back : UInt32) : Machine :=
  { s.push back with eip := target }

/-- A gate to ring 0, with `IF` cleared by an interrupt gate and not by a trap gate. -/
structure Gate where
  offset : UInt32
  selector : UInt16
  interrupt : Bool
deriving DecidableEq

/-- What `lidt` loads. -/
structure Idtr where
  limit : Nat
  base : Nat

/-- The gate of vector `v`, if it is within the limit and present and is one of the two kinds. -/
def gateAt (m : Mem) (idtr : Idtr) (v : UInt8) : Option Gate :=
  let a := idtr.base + 8 * v.toNat
  let gate (interrupt : Bool) : Gate :=
    ⟨UInt32.ofNat (load16 m a + 65536 * load16 m (a + 6)), UInt16.ofNat (load16 m (a + 2)),
      interrupt⟩
  if idtr.limit < 8 * v.toNat + 7 then none
  else if m (a + 5) &&& 0x9F = 0x8E then some (gate true)
  else if m (a + 5) &&& 0x9F = 0x8F then some (gate false)
  else none

/-- A gate is eight bytes. -/
theorem gateAt_congr {m m' : Mem} {idtr : Idtr} {v : UInt8}
    (h : ∀ c, idtr.base + 8 * v.toNat ≤ c → c < idtr.base + 8 * v.toNat + 8 → m' c = m c) :
    gateAt m' idtr v = gateAt m idtr v := by
  have hlow : load16 m' (idtr.base + 8 * v.toNat) = load16 m _ := load16_congr fun i hi =>
    h (idtr.base + 8 * v.toNat + i) (by omega) (by omega)
  have hselector : load16 m' (idtr.base + 8 * v.toNat + 2) = load16 m _ := load16_congr fun i hi =>
    h (idtr.base + 8 * v.toNat + 2 + i) (by omega) (by omega)
  have hhigh : load16 m' (idtr.base + 8 * v.toNat + 6) = load16 m _ := load16_congr fun i hi =>
    h (idtr.base + 8 * v.toNat + 6 + i) (by omega) (by omega)
  rw [gateAt, gateAt, hlow, hselector, hhigh, h _ (by omega) (by omega)]

/-- What the processor does before the first instruction of a gate's code. -/
def Machine.enter (s : Machine) (g : Gate) (errorCode : Option UInt32) : Machine :=
  { s.pushes ([s.eflags, (s.seg .cs).toUInt32, s.eip] ++ errorCode.toList) with
    eip := g.offset
    seg := Function.update s.seg .cs g.selector
    eflags :=
      if g.interrupt then s.eflags &&& ~~~(gateFlags ||| flagIF) else s.eflags &&& ~~~gateFlags }

theorem Machine.enter_mem (s : Machine) (g : Gate) (errorCode : Option UInt32) :
    (s.enter g errorCode).mem =
      (s.pushes ([s.eflags, (s.seg .cs).toUInt32, s.eip] ++ errorCode.toList)).mem := rfl

theorem Machine.enter_reg (s : Machine) (g : Gate) (errorCode : Option UInt32) :
    (s.enter g errorCode).reg =
      (s.pushes ([s.eflags, (s.seg .cs).toUInt32, s.eip] ++ errorCode.toList)).reg := rfl

/-- The vectors with an error code, `#CP`, `#VC` and `#SX` of later processors among them. -/
def hasErrorCode (v : UInt8) : Bool := v ∈ [8, 10, 11, 12, 13, 14, 17, 21, 29, 30]

/-! ## What code may rely on

`Transparent` bounds the stack it speaks of by `top`, from above. Below `esp` anything may have
happened, and in the rest of memory too: handlers do write, and code that shares data with a
handler is not told here that it will find it unchanged. -/

/-- Nothing has happened that the code of `s` could notice on a stack that ends at `top`. -/
structure Transparent (top : Nat) (s t : Machine) : Prop where
  reg : t.reg = s.reg
  seg : t.seg = s.seg
  eip : t.eip = s.eip
  eflags : t.eflags = s.eflags
  stack : ∀ c, s.esp.toNat ≤ c → c < top → t.mem c = s.mem c

/-- As code runs with `between` coming between any two of its instructions. -/
abbrev Machine.Runs (code between : Machine → Machine → Prop) : Machine → Machine → Prop :=
  Relation.ReflTransGen fun s t => code s t ∨ between s t

/-- `s` is as a function is entered, `t` as it has returned to `back`. -/
structure Returned (back : UInt32) (s t : Machine) : Prop where
  eip : t.eip = back
  esp : t.esp = s.esp + 4

/-- The registers a function of the System V ABI saves, and its caller's stack. -/
structure Saved (top : Nat) (s t : Machine) : Prop where
  ebx : t.reg .ebx = s.reg .ebx
  ebp : t.reg .ebp = s.reg .ebp
  esi : t.reg .esi = s.reg .esi
  edi : t.reg .edi = s.reg .edi
  stack : ∀ c, s.esp.toNat + 4 ≤ c → c < top → t.mem c = s.mem c

/-- The function at `entry` keeps to the calling convention when it is called from before `back`,
whatever comes between its instructions that it cannot notice. -/
def Cdecl (top : Nat) (code : Machine → Machine → Prop) (entry back : UInt32) : Prop :=
  ∀ s t, s.eip = entry → s.word 0 = back → s.esp.toNat + 4 ≤ top →
    Machine.Runs code (Transparent top) s t → Returned back s t → Saved top s t

theorem Transparent.refl (top : Nat) (s : Machine) : Transparent top s s :=
  ⟨rfl, rfl, rfl, rfl, fun _ _ _ => rfl⟩

theorem Transparent.word {top : Nat} {s t : Machine} (h : Transparent top s t) {i : Nat}
    (hi : s.esp.toNat + 4 * i + 4 ≤ top) : t.word i = s.word i := by
  have hesp : t.esp = s.esp := congrFun h.reg .esp
  rw [Machine.word, Machine.word, hesp]
  exact congrArg UInt32.ofNat (load32_congr fun j hj => h.stack _ (by omega) (by omega))

end ScratchOs.X86
