import ScratchOs.Lib.X86

/-!
# The interrupt stubs

`cpu/int_.asm`, from the gate to `isr_handler` or `irq_handler` and from there to the `iret`, and
`registers_t` of `includes/cpu/int.h`.

The C++ code is here as the compiler and the linker leave it: what one of its instructions does,
and where things are. That the two handlers keep to the calling convention is what the stubs rely
on; what the stubs give is that the code they interrupt may rely on the same (`Transparent`).

The circle is closed by induction on the depth. A handler is interrupted itself, and its promise to
the stub is one about runs in which only unnoticeable things come between its instructions. At depth
0 nothing does. At depth `n + 1` what comes between is an interrupt of depth `n`, and that it cannot
be noticed is the induction hypothesis.

A stub is right or wrong about its vector by whether it pushes a word for the error code where the
processor does not. When it is wrong the stack is off by four bytes at the `iret`, in either
direction, and the code that was interrupted is not come back to. Both directions are in the result:
for a vector whose stub is wrong it is not only unproved that the code goes on, it does not.
-/

set_option autoImplicit false

namespace ScratchOs.Cpu

open X86 Bytes

/-! ## The code -/

/-- The vectors of `isr_err_stub`. -/
def hasErrStub (v : Fin 48) : Bool := v ∈ [8, 10, 11, 12, 13, 14, 17, 30]

def isrNoErrStub (v : UInt8) : List X86.Instr := [.cli, .pushByte 0, .pushByte v]

def isrErrStub (v : UInt8) : List X86.Instr := [.cli, .pushByte v]

def irqStub (v : UInt8) : List X86.Instr := [.cli, .pushByte 0, .pushByte v]

/-- What is at `isr_stub_table[v]`, up to the jump. -/
def isrStubTable (v : Fin 48) : List X86.Instr :=
  if v.val < 32 then
    if hasErrStub v then isrErrStub (UInt8.ofNat v) else isrNoErrStub (UInt8.ofNat v)
  else irqStub (UInt8.ofNat v)

/-- `isr_common_stub`, and `irq_common_stub`, up to the call. -/
def commonStub : List X86.Instr :=
  [.pusha, .movAxSeg .ds, .push .eax, .movAx 0x10, .movSegAx .ds, .movSegAx .es, .movSegAx .fs,
    .movSegAx .gs]

/-- From the call on. -/
def commonReturn : List X86.Instr :=
  [.pop .eax, .movSegAx .ds, .movSegAx .es, .movSegAx .fs, .movSegAx .gs, .popa, .addEsp 8, .iret]

/-- `registers_t` -/
structure Registers where
  ds : UInt32
  edi : UInt32
  esi : UInt32
  ebp : UInt32
  esp : UInt32
  ebx : UInt32
  edx : UInt32
  ecx : UInt32
  eax : UInt32
  intNo : UInt32
  errCode : UInt32
  eip : UInt32
  cs : UInt32
  eflags : UInt32
  useresp : UInt32
  ss : UInt32

/-- The parameter of the function that has just been entered, above its return address. -/
def Registers.parameter (s : Machine) : Registers where
  ds := s.word 1
  edi := s.word 2
  esi := s.word 3
  ebp := s.word 4
  esp := s.word 5
  ebx := s.word 6
  edx := s.word 7
  ecx := s.word 8
  eax := s.word 9
  intNo := s.word 10
  errCode := s.word 11
  eip := s.word 12
  cs := s.word 13
  eflags := s.word 14
  useresp := s.word 15
  ss := s.word 16

/-- The kernel as it is linked: its stack, its functions and what their instructions do. -/
structure Image where
  stackTop : Nat
  stub : Fin 48 → UInt32
  isrHandler : UInt32
  irqHandler : UInt32
  /-- Behind the `call isr_handler`. -/
  isrReturn : UInt32
  irqReturn : UInt32
  code : Machine → Machine → Prop
  outside : ∀ s t, code s t → s.eip ≠ isrReturn ∧ s.eip ≠ irqReturn
  /-- C++ code loads no segment register. -/
  loadsNoSegment : ∀ s t, code s t → t.seg = s.seg

namespace Image

variable (I : Image)

def handler (v : Fin 48) : UInt32 := if v.val < 32 then I.isrHandler else I.irqHandler

def back (v : Fin 48) : UInt32 := if v.val < 32 then I.isrReturn else I.irqReturn

/-- From the interrupt to the first instruction of its handler. -/
def enter (v : Fin 48) (errorCode : Option UInt32) (s : Machine) : Machine :=
  ((s.enter ⟨I.stub v, 8, true⟩ errorCode).run (isrStubTable v ++ commonStub)).call
    (I.handler v) (I.back v)

/-- Vector `v` before an instruction of the code that `s` runs, which goes on in `t`. `inner` is
what comes between the instructions of the handler. -/
structure Served (inner : Machine → Machine → Prop) (v : Fin 48) (errorCode : Option UInt32)
    (s t : Machine) : Prop where
  flag : 32 ≤ v.val → s.eflags &&& flagIF ≠ 0
  room : 64 ≤ s.esp.toNat
  onStack : s.esp.toNat ≤ I.stackTop
  handled : ∃ u, Machine.Runs I.code inner (I.enter v errorCode s) u ∧
    Returned (I.back v) (I.enter v errorCode s) u ∧ t = u.run commonReturn

/-- An interrupt whose stub is right about the error code, and in its handler others, up to
`depth` inside one another. -/
def Interrupt : Nat → Machine → Machine → Prop
  | 0, _, _ => False
  | depth + 1, s, t => ∃ v errorCode, errorCode.isSome = hasErrStub v ∧
      I.Served (Interrupt depth) v errorCode s t

end Image

/-! ## Into the handler

Every instruction up to the call pushes or moves. So the state at the handler's first instruction is
given by one list of words, from the flags that the processor has pushed to the return address, and
`registers_t` is that list read from the other end. -/

/-- `t` has come from `s` with nothing done but pushes, as far as the stack and the registers other
than `eax` go. -/
structure Pushed (s : Machine) (ws : List UInt32) (t : Machine) : Prop where
  mem : t.mem = (s.pushes ws).mem
  esp : t.esp = (s.pushes ws).esp
  reg : ∀ r, r ≠ .esp → r ≠ .eax → t.reg r = s.reg r

/-- Pushes after pushes; what the first do to `esp` the second start from. -/
theorem Pushed.trans {s t u : Machine} {ws vs : List UInt32} (hst : Pushed s ws t)
    (htu : Pushed t vs u) : Pushed s (ws ++ vs) u := by
  obtain ⟨hmem, hesp⟩ := Machine.pushes_congr hst.mem hst.esp vs
  refine ⟨?_, ?_, fun r hsp hax => ?_⟩
  · rw [htu.mem, hmem, Machine.pushes_append]
  · rw [htu.esp, hesp, Machine.pushes_append]
  · rw [htu.reg r hsp hax, hst.reg r hsp hax]

theorem Pushed.of_eq {s t : Machine} (ws : List UInt32) (hmem : t.mem = (s.pushes ws).mem)
    (hreg : t.reg = (s.pushes ws).reg) : Pushed s ws t :=
  ⟨hmem, congrFun hreg .esp, fun r hsp _ => by rw [hreg, Machine.pushes_reg ws hsp]⟩

theorem Pushed.push {s t : Machine} {w : UInt32} (hmem : t.mem = (s.push w).mem)
    (hreg : ∀ r, r ≠ .eax → t.reg r = (s.push w).reg r) : Pushed s [w] t :=
  ⟨hmem, hreg .esp (by decide), fun r hsp hax => by rw [hreg r hax, Machine.push_reg s w hsp]⟩

/-- The rest of `commonStub`, after its `pusha`. -/
theorem saveDs_pushed (s : Machine) :
    Pushed s [withAx (s.reg .eax) (s.seg .ds)] (s.run commonStub.tail) := by
  generalize hu : s.set .eax (withAx (s.reg .eax) (s.seg .ds)) = u
  have hmem : u.mem = s.mem := by rw [← hu]; rfl
  have hreg : ∀ r, r ≠ .eax → u.reg r = s.reg r := fun r hax => by
    rw [← hu, Machine.set_reg s _ hax]
  have hesp : u.esp = s.esp := hreg .esp (by decide)
  have hw : u.reg .eax = withAx (s.reg .eax) (s.seg .ds) := by
    rw [← hu, Machine.set_same]
  have hrun : s.run commonStub.tail = (u.push (u.reg .eax)).run (commonStub.drop 3) := by
    rw [← hu]
    rfl
  have hrest : ∀ r, r ≠ .eax → ((u.push (u.reg .eax)).run (commonStub.drop 3)).reg r =
      (u.push (u.reg .eax)).reg r := fun r hax => Function.update_of_ne hax ..
  rw [hrun]
  refine Pushed.push ?_ fun r hax => ?_
  · show store32 u.mem (u.esp - 4).toNat _ = store32 s.mem (s.esp - 4).toNat _
    rw [hmem, hesp, hw]
  · rw [hrest r hax, hw]
    by_cases hsp : r = .esp
    · subst hsp
      show (u.push _).esp = (s.push _).esp
      rw [Machine.push_esp, Machine.push_esp, hesp]
    · rw [Machine.push_reg _ _ hsp, Machine.push_reg _ _ hsp, hreg r hax]

/-- `registers_t` from `ds` to `eax`, in the order it is pushed. The pushed `esp` is the one before
the `pusha`. -/
theorem commonStub_pushed (s : Machine) :
    Pushed s [s.reg .eax, s.reg .ecx, s.reg .edx, s.reg .ebx, s.esp, s.reg .ebp, s.reg .esi,
      s.reg .edi, withAx (s.reg .eax) (s.seg .ds)] (s.run commonStub) := by
  have hpusha := Pushed.of_eq (s := s) (t := X86.Instr.pusha.exec s) _ rfl rfl
  have hax : (X86.Instr.pusha.exec s).reg .eax = s.reg .eax :=
    Machine.pushes_reg _ (by decide)
  have hds : (X86.Instr.pusha.exec s).seg = s.seg := Machine.pushes_seg _
  have hsave := saveDs_pushed (X86.Instr.pusha.exec s)
  rw [hax, hds] at hsave
  have hrun : s.run commonStub = (X86.Instr.pusha.exec s).run commonStub.tail :=
    Machine.run_cons s .pusha commonStub.tail
  rw [hrun]
  exact hpusha.trans hsave

/-- `irq_stub` always pushes the zero. -/
theorem hasErrStub_lt : ∀ v : Fin 48, hasErrStub v = true → v.val < 32 := by decide

/-- `push byte` extends the sign, which no vector number has. -/
theorem pushByte_number : ∀ v : Fin 48,
    (UInt8.ofNat v).toInt8.toInt32.toUInt32 = UInt32.ofNat v := by decide

/-- The three stubs differ in one instruction. -/
theorem isrStubTable_eq (v : Fin 48) :
    isrStubTable v =
      .cli :: ((if hasErrStub v then [] else [X86.Instr.pushByte 0]) ++
        [.pushByte (UInt8.ofNat v)]) := by
  unfold isrStubTable
  by_cases herr : hasErrStub v = true
  · rw [if_pos (hasErrStub_lt v herr), if_pos herr, if_pos herr]
    rfl
  · rw [if_neg herr, if_neg herr]
    exact ite_self _

/-- The words of the stub: a zero where it does not count on an error code, and the number. -/
def stubWords (v : Fin 48) : List UInt32 :=
  (if hasErrStub v then [] else [0]) ++ [UInt32.ofNat v]

theorem run_isrStubTable (v : Fin 48) (s : Machine) :
    s.run (isrStubTable v) = (X86.Instr.cli.exec s).pushes (stubWords v) := by
  rw [isrStubTable_eq, Machine.run_cons, stubWords, ← pushByte_number]
  cases hasErrStub v with
  | true => rfl
  | false => rfl

/-- What is on the stack of `s` when the handler is entered, in the order of the pushes. -/
def pushed (I : Image) (v : Fin 48) (errorCode : Option UInt32) (s : Machine) : List UInt32 :=
  let number := [s.eflags, (s.seg .cs).toUInt32, s.eip] ++ errorCode.toList ++ stubWords v
  number ++
    [s.reg .eax, s.reg .ecx, s.reg .edx, s.reg .ebx, (s.pushes number).esp, s.reg .ebp,
      s.reg .esi, s.reg .edi, withAx (s.reg .eax) (s.seg .ds)] ++
    [I.back v]

/-- After the stub proper, with its number pushed. -/
def numbered (I : Image) (v : Fin 48) (errorCode : Option UInt32) (s : Machine) : Machine :=
  (s.enter ⟨I.stub v, 8, true⟩ errorCode).run (isrStubTable v)

theorem stub_pushed (v : Fin 48) (s : Machine) :
    Pushed s (stubWords v) (s.run (isrStubTable v)) := by
  obtain ⟨hmem, hesp⟩ :=
    Machine.pushes_congr (s := s) (t := X86.Instr.cli.exec s) rfl rfl (stubWords v)
  rw [run_isrStubTable]
  exact ⟨hmem, hesp, fun r hsp _ => Machine.pushes_reg _ hsp⟩

theorem numbered_pushed (I : Image) (v : Fin 48) (errorCode : Option UInt32) (s : Machine) :
    Pushed s ([s.eflags, (s.seg .cs).toUInt32, s.eip] ++ errorCode.toList ++ stubWords v)
      (numbered I v errorCode s) :=
  (Pushed.of_eq _ (Machine.enter_mem ..) (Machine.enter_reg ..)).trans (stub_pushed v _)

theorem numbered_reg (I : Image) (v : Fin 48) (errorCode : Option UInt32) (s : Machine) {r : Reg}
    (hr : r ≠ .esp) : (numbered I v errorCode s).reg r = s.reg r := by
  rw [numbered, run_isrStubTable, Machine.pushes_reg _ hr]
  exact Machine.pushes_reg _ hr

theorem numbered_seg (I : Image) (v : Fin 48) (errorCode : Option UInt32) (s : Machine) {g : Seg}
    (hg : g ≠ .cs) : (numbered I v errorCode s).seg g = s.seg g := by
  rw [numbered, run_isrStubTable, Machine.pushes_seg]
  exact Function.update_of_ne hg ..

theorem enter_eq (I : Image) (v : Fin 48) (errorCode : Option UInt32) (s : Machine) :
    I.enter v errorCode s =
      ((numbered I v errorCode s).run commonStub).call (I.handler v) (I.back v) := by
  rw [Image.enter, Machine.run_append]
  rfl

/-- All that is on the stack when the handler starts. -/
theorem enter_pushed (I : Image) (v : Fin 48) (errorCode : Option UInt32) (s : Machine) :
    Pushed s (pushed I v errorCode s) (I.enter v errorCode s) := by
  have hnumber := numbered_pushed I v errorCode s
  have hregs := commonStub_pushed (numbered I v errorCode s)
  rw [numbered_reg I v errorCode s (by decide), numbered_reg I v errorCode s (by decide),
    numbered_reg I v errorCode s (by decide), numbered_reg I v errorCode s (by decide),
    numbered_reg I v errorCode s (by decide), numbered_reg I v errorCode s (by decide),
    numbered_reg I v errorCode s (by decide), numbered_seg I v errorCode s (by decide),
    hnumber.esp] at hregs
  rw [enter_eq]
  exact (hnumber.trans hregs).trans (.push rfl fun _ _ => rfl)

/-- The four data segments are the kernel's, and `cs` and `ss` stay. -/
theorem commonStub_seg (s : Machine) (g : Seg) :
    (s.run commonStub).seg g = if g = .cs ∨ g = .ss then s.seg g else 0x10 := by
  have hsplit : commonStub = commonStub.take 3 ++ commonStub.drop 3 := rfl
  have hrun : s.run commonStub = (s.run (commonStub.take 3)).run (commonStub.drop 3) :=
    (congrArg s.run hsplit).trans (Machine.run_append s _ _)
  have hseg : (s.run (commonStub.take 3)).seg = s.seg := rfl
  have hax := withAx_toUInt16 ((s.run (commonStub.take 3)).reg .eax) 0x10
  rw [hrun, ← hseg]
  generalize s.run (commonStub.take 3) = s at hax
  cases g with
  | cs => rfl
  | ss => rfl
  | ds => exact hax
  | es => exact hax
  | fs => exact hax
  | gs => exact hax

theorem enter_seg (I : Image) (v : Fin 48) (errorCode : Option UInt32) (s : Machine) {g : Seg}
    (hg : g ≠ .cs) :
    (I.enter v errorCode s).seg g = if g = .ss then s.seg .ss else 0x10 := by
  rw [enter_eq]
  show ((numbered I v errorCode s).run commonStub).seg g = _
  rw [commonStub_seg, numbered_seg I v errorCode s hg]
  by_cases hss : g = .ss
  · subst hss
    rfl
  · rw [if_neg (not_or.mpr ⟨hg, hss⟩), if_neg hss]

/-- The data segments are one. The stub saves `ds` only and gives all four its value back, so this
is what it relies on. -/
def Flat (s : Machine) : Prop :=
  s.seg .es = s.seg .ds ∧ s.seg .fs = s.seg .ds ∧ s.seg .gs = s.seg .ds

theorem Flat.of_seg {s t : Machine} (hs : Flat s) (hseg : t.seg = s.seg) : Flat t := by
  unfold Flat
  rw [hseg]
  exact hs

theorem enter_flat (I : Image) (v : Fin 48) (errorCode : Option UInt32) (s : Machine) :
    Flat (I.enter v errorCode s) := by
  unfold Flat
  rw [enter_seg I v errorCode s (by decide), enter_seg I v errorCode s (by decide),
    enter_seg I v errorCode s (by decide), enter_seg I v errorCode s (by decide)]
  exact ⟨rfl, rfl, rfl⟩

/-- Fourteen words, and one for the error code where it is the processor's or the stub's. Right
about it, the stub makes that fifteen; wrong, fourteen or sixteen. -/
theorem pushed_length (I : Image) (v : Fin 48) (errorCode : Option UInt32) (s : Machine) :
    (pushed I v errorCode s).length =
      14 + (if errorCode.isSome then 1 else 0) + (if hasErrStub v then 0 else 1) := by
  unfold pushed stubWords
  cases errorCode with
  | none =>
    cases hasErrStub v with
    | true => rfl
    | false => rfl
  | some e =>
    cases hasErrStub v with
    | true => rfl
    | false => rfl

/-- From the top of the handler's stack up, where the stub is right about the error code. -/
theorem pushed_reverse (I : Image) {v : Fin 48} {errorCode : Option UInt32} (s : Machine)
    (hagree : errorCode.isSome = hasErrStub v) :
    (pushed I v errorCode s).reverse =
      [I.back v, withAx (s.reg .eax) (s.seg .ds), s.reg .edi, s.reg .esi, s.reg .ebp,
        (s.pushes ([s.eflags, (s.seg .cs).toUInt32, s.eip] ++ errorCode.toList ++
          stubWords v)).esp,
        s.reg .ebx, s.reg .edx, s.reg .ecx, s.reg .eax, UInt32.ofNat v, errorCode.getD 0, s.eip,
        (s.seg .cs).toUInt32, s.eflags] := by
  unfold pushed stubWords
  rw [← hagree]
  cases errorCode with
  | none => rfl
  | some e => rfl

/-! ## And back

The stub takes the registers back from the handler's parameter. A function is free to write to its
own parameters; `Saved` rules it out, being about everything above the return address, and neither
handler of the source has a store to its own. -/

section

variable {u : Machine}

/-- From here to the `iret` the stub only pops, so the words are counted from where they were.
`hroom` keeps the stack pointer from wrapping on the way. -/
theorem run_popa (hroom : u.esp.toNat + 44 < 4294967296) :
    ∀ i, (u.run (commonReturn.take 5)).word i = u.word (1 + i) :=
  Machine.word_above rfl rfl (by omega)

theorem run_addEsp (hroom : u.esp.toNat + 44 < 4294967296) :
    ∀ i, (u.run (commonReturn.take 7)).word i = u.word (11 + i) := by
  refine Machine.word_above rfl ?_ (by omega)
  show u.esp + 4 + 32 + 8 = _
  rw [UInt32.add_assoc, UInt32.add_assoc]
  rfl

/-- Fourteen words go: the segment, eight registers, the number, the error code and the three of
the `iret`. -/
theorem run_commonReturn_esp (u : Machine) : (u.run commonReturn).esp = u.esp + 56 := by
  show u.esp + 4 + 32 + 8 + 12 = u.esp + 56
  rw [UInt32.add_assoc, UInt32.add_assoc, UInt32.add_assoc]
  rfl

theorem run_commonReturn_reg (hroom : u.esp.toNat + 44 < 4294967296) (r : Reg) :
    (u.run commonReturn).reg r = match r with
      | .eax => u.word 8
      | .ecx => u.word 7
      | .edx => u.word 6
      | .ebx => u.word 5
      | .esp => u.esp + 56
      | .ebp => u.word 3
      | .esi => u.word 2
      | .edi => u.word 1 := by
  cases r with
  | eax => exact run_popa hroom 7
  | ecx => exact run_popa hroom 6
  | edx => exact run_popa hroom 5
  | ebx => exact run_popa hroom 4
  | esp => exact run_commonReturn_esp u
  | ebp => exact run_popa hroom 2
  | esi => exact run_popa hroom 1
  | edi => exact run_popa hroom 0

theorem run_commonReturn_seg (hroom : u.esp.toNat + 44 < 4294967296) (g : Seg) :
    (u.run commonReturn).seg g = match g with
      | .cs => (u.word 12).toUInt16
      | .ss => u.seg .ss
      | _ => (u.word 0).toUInt16 := by
  cases g with
  | cs => exact congrArg UInt32.toUInt16 (run_addEsp hroom 1)
  | ss => rfl
  | ds => rfl
  | es => rfl
  | fs => rfl
  | gs => rfl

theorem run_commonReturn_eip (hroom : u.esp.toNat + 44 < 4294967296) :
    (u.run commonReturn).eip = u.word 11 := run_addEsp hroom 0

theorem run_commonReturn_eflags (hroom : u.esp.toNat + 44 < 4294967296) :
    (u.run commonReturn).eflags = u.word 13 := run_addEsp hroom 2

end

section

variable {I : Image} {v : Fin 48} {errorCode : Option UInt32} {s t : Machine}
  {inner : Machine → Machine → Prop}

/-- The handler's stack is the list of pushes, last one first. -/
theorem enter_words (I : Image) (v : Fin 48) (errorCode : Option UInt32)
    (hroom : 64 ≤ s.esp.toNat) :
    Words (I.enter v errorCode s).mem (I.enter v errorCode s).esp.toNat
      (pushed I v errorCode s).reverse := by
  have hpushed := enter_pushed I v errorCode s
  have hlength := pushed_length I v errorCode s
  have hwords := Machine.pushes_words (pushed I v errorCode s) (s := s)
    (by split_ifs at hlength <;> omega) (show Words s.mem s.esp.toNat [] from trivial)
  rwa [List.append_nil, ← hpushed.mem, ← hpushed.esp] at hwords

theorem enter_esp (I : Image) (v : Fin 48) (errorCode : Option UInt32)
    (hroom : 64 ≤ s.esp.toNat) :
    (I.enter v errorCode s).esp.toNat = s.esp.toNat - 4 * (pushed I v errorCode s).length := by
  have hlength := pushed_length I v errorCode s
  rw [(enter_pushed I v errorCode s).esp,
    Machine.pushes_esp (by split_ifs at hlength <;> omega)]

/-- Nothing of the interrupted code's own stack is overwritten. -/
theorem enter_above (hroom : 64 ≤ s.esp.toNat) {c : Nat} (hc : s.esp.toNat ≤ c) :
    (I.enter v errorCode s).mem c = s.mem c := by
  have hlength := pushed_length I v errorCode s
  rw [(enter_pushed I v errorCode s).mem,
    Machine.pushes_mem (by split_ifs at hlength <;> omega) hc]

/-- On top is the address behind the call. -/
theorem enter_word (hroom : 64 ≤ s.esp.toNat) :
    (I.enter v errorCode s).word 0 = I.back v := by
  have hwords := enter_words I v errorCode hroom
  rw [pushed, List.reverse_append] at hwords
  exact Machine.word_eq hwords (Nat.succ_pos _)

theorem pushed_agree (hagree : errorCode.isSome = hasErrStub v) :
    (pushed I v errorCode s).length = 15 := by
  rw [pushed_length, hagree]
  cases hasErrStub v with
  | true => rfl
  | false => rfl

/-- The stack of the interrupted code begins above the parameter. -/
theorem enter_word_above (hroom : 64 ≤ s.esp.toNat) (hagree : errorCode.isSome = hasErrStub v)
    (i : Nat) : (I.enter v errorCode s).word (15 + i) = s.word i := by
  have hesp := enter_esp I v errorCode hroom
  rw [pushed_agree hagree] at hesp
  have haddr : (I.enter v errorCode s).esp.toNat + 4 * (15 + i) = s.esp.toNat + 4 * i := by omega
  rw [Machine.word, Machine.word, haddr]
  exact congrArg UInt32.ofNat (load32_congr fun j _ => enter_above hroom (by omega))

/-- **What a handler is told** is what has been interrupted. Only the upper half of `ds` is left
over from `eax`, and `useresp` and `ss` are the words the interrupted code has on its stack. -/
theorem enter_registers (hroom : 64 ≤ s.esp.toNat) (hagree : errorCode.isSome = hasErrStub v) :
    Registers.parameter (I.enter v errorCode s) =
      { ds := withAx (s.reg .eax) (s.seg .ds)
        edi := s.reg .edi
        esi := s.reg .esi
        ebp := s.reg .ebp
        esp := s.esp - 20
        ebx := s.reg .ebx
        edx := s.reg .edx
        ecx := s.reg .ecx
        eax := s.reg .eax
        intNo := UInt32.ofNat v
        errCode := errorCode.getD 0
        eip := s.eip
        cs := (s.seg .cs).toUInt32
        eflags := s.eflags
        useresp := s.word 0
        ss := s.word 1 } := by
  have hwords := enter_words I v errorCode hroom
  rw [pushed_reverse I s hagree] at hwords
  have hnumber : ([s.eflags, (s.seg .cs).toUInt32, s.eip] ++ errorCode.toList ++
      stubWords v).length = 5 := by
    unfold stubWords
    rw [← hagree]
    cases errorCode with
    | none => rfl
    | some e => rfl
  have hesp : (s.pushes ([s.eflags, (s.seg .cs).toUInt32, s.eip] ++ errorCode.toList ++
      stubWords v)).esp = s.esp - 20 := by
    apply UInt32.toNat_inj.mp
    rw [Machine.pushes_esp (by rw [hnumber]; omega), hnumber]
    exact (UInt32.toNat_sub_of_le s.esp 20 (UInt32.le_iff_toNat_le.mpr (by
      show 20 ≤ s.esp.toNat
      omega))).symm
  have hget : ∀ i (hi : i < 15), (I.enter v errorCode s).word i = _ := fun i hi =>
    Machine.word_eq hwords hi
  simp only [Registers.parameter, hget 1 (by decide), hget 2 (by decide), hget 3 (by decide),
    hget 4 (by decide), hget 5 (by decide), hget 6 (by decide), hget 7 (by decide),
    hget 8 (by decide), hget 9 (by decide), hget 10 (by decide), hget 11 (by decide),
    hget 12 (by decide), hget 13 (by decide), hget 14 (by decide),
    enter_word_above hroom hagree 0, enter_word_above hroom hagree 1]
  rw [Registers.mk.injEq]
  exact ⟨rfl, rfl, rfl, rfl, hesp, rfl, rfl, rfl, rfl, rfl, rfl, rfl, rfl, rfl, rfl, rfl⟩

/-- Where the stack is when the handler has returned: its return address is gone. -/
theorem back_esp (hroom : 64 ≤ s.esp.toNat) {u : Machine}
    (hret : Returned (I.back v) (I.enter v errorCode s) u) :
    u.esp.toNat + 4 * (pushed I v errorCode s).length = s.esp.toNat + 4 := by
  have hlength := pushed_length I v errorCode s
  have henter := enter_esp I v errorCode hroom
  have hlt := s.esp.toNat_lt
  rw [hret.esp, UInt32.toNat_add, henter, show (4 : UInt32).toNat = 4 from rfl]
  split_ifs at hlength <;> omega

/-- **Right about the error code**: then the stub gives back what it has taken. -/
theorem restored (hroom : 64 ≤ s.esp.toNat) (htop : s.esp.toNat ≤ I.stackTop)
    (hagree : errorCode.isSome = hasErrStub v) (hflat : Flat s) {u : Machine}
    (hseg : u.seg = (I.enter v errorCode s).seg)
    (hsaved : Saved I.stackTop (I.enter v errorCode s) u)
    (hret : Returned (I.back v) (I.enter v errorCode s) u) :
    Transparent I.stackTop s (u.run commonReturn) := by
  have hlt := s.esp.toNat_lt
  have hlength := pushed_agree (I := I) (s := s) hagree
  have henter := enter_esp I v errorCode hroom
  have hesp := back_esp hroom hret
  rw [hlength] at henter hesp
  have hrev := pushed_reverse I s hagree
  have hwords := enter_words I v errorCode hroom
  rw [hrev] at hwords
  -- The words above the return address are as the stub has left them.
  have hsame : Words u.mem _ _ := hwords.2.congr fun c hc hlast => by
    have hlast : c < (I.enter v errorCode s).esp.toNat + 4 + 4 * 14 := hlast
    exact hsaved.stack c (by omega) (by omega)
  rw [show (I.enter v errorCode s).esp.toNat + 4 = u.esp.toNat by omega] at hsame
  have hspace : u.esp.toNat + 44 < 4294967296 := by omega
  have hds : (u.word 0).toUInt16 = s.seg .ds := by
    rw [Machine.word_eq hsame (by decide : 0 < 14)]
    exact withAx_toUInt16 _ _
  refine ⟨funext fun r => ?_, funext fun g => ?_, ?_, ?_, fun c hc hlast => ?_⟩
  · rw [run_commonReturn_reg hspace]
    cases r with
    | eax => exact Machine.word_eq hsame (by decide : 8 < 14)
    | ecx => exact Machine.word_eq hsame (by decide : 7 < 14)
    | edx => exact Machine.word_eq hsame (by decide : 6 < 14)
    | ebx => exact Machine.word_eq hsame (by decide : 5 < 14)
    | esp =>
      apply UInt32.toNat_inj.mp
      show (u.esp + 56).toNat = s.esp.toNat
      rw [UInt32.toNat_add, show (56 : UInt32).toNat = 56 from rfl]
      omega
    | ebp => exact Machine.word_eq hsame (by decide : 3 < 14)
    | esi => exact Machine.word_eq hsame (by decide : 2 < 14)
    | edi => exact Machine.word_eq hsame (by decide : 1 < 14)
  · rw [run_commonReturn_seg hspace]
    cases g with
    | cs =>
      show (u.word 12).toUInt16 = _
      rw [Machine.word_eq hsame (by decide : 12 < 14)]
      exact UInt16.toUInt16_toUInt32 _
    | ss =>
      show u.seg .ss = _
      rw [hseg, enter_seg I v errorCode s (by decide)]
      rfl
    | ds => exact hds
    | es => exact hds.trans hflat.1.symm
    | fs => exact hds.trans hflat.2.1.symm
    | gs => exact hds.trans hflat.2.2.symm
  · rw [run_commonReturn_eip hspace]
    exact Machine.word_eq hsame (by decide : 11 < 14)
  · rw [run_commonReturn_eflags hspace]
    exact Machine.word_eq hsame (by decide : 13 < 14)
  · have hmem : (u.run commonReturn).mem = u.mem := rfl
    rw [hmem, hsaved.stack c (by omega) hlast, enter_above hroom hc]

/-- **Wrong about it**: then the stack is off by a word. -/
theorem not_restored (hroom : 64 ≤ s.esp.toNat) (hwrong : errorCode.isSome ≠ hasErrStub v)
    {u : Machine} (hret : Returned (I.back v) (I.enter v errorCode s) u) :
    (u.run commonReturn).esp ≠ s.esp := by
  have hlt := s.esp.toNat_lt
  have hesp := back_esp hroom hret
  have hlength := pushed_length I v errorCode s
  intro heq
  have heq := congrArg UInt32.toNat heq
  rw [run_commonReturn_esp, UInt32.toNat_add, show (56 : UInt32).toNat = 56 from rfl] at heq
  cases hcode : errorCode.isSome with
  | true =>
    cases hstub : hasErrStub v with
    | true => exact hwrong (hcode.trans hstub.symm)
    | false =>
      simp only [hcode, hstub, if_true, if_false, Bool.false_eq_true] at hlength
      omega
  | false =>
    cases hstub : hasErrStub v with
    | true =>
      simp only [hcode, hstub, if_true, if_false, Bool.false_eq_true] at hlength
      omega
    | false => exact hwrong (hcode.trans hstub.symm)

/-! ## Interrupts in interrupts -/

/-- A handler's run with interrupts in it is one with unnoticeable things in it, and no segment
register is other than it was. -/
theorem runs_transparent (hinner : ∀ s t, Flat s → inner s t → Transparent I.stackTop s t)
    (hflat : Flat s) (hruns : Machine.Runs I.code inner s t) :
    Machine.Runs I.code (Transparent I.stackTop) s t ∧ t.seg = s.seg := by
  induction hruns with
  | refl => exact ⟨.refl, rfl⟩
  | @tail x y _ hstep ih =>
    obtain ⟨hruns, hseg⟩ := ih
    rcases hstep with hcode | hinner'
    · exact ⟨hruns.tail (.inl hcode), (I.loadsNoSegment x y hcode).trans hseg⟩
    · have htransparent := hinner x y (hflat.of_seg hseg) hinner'
      exact ⟨hruns.tail (.inr htransparent), htransparent.seg.trans hseg⟩

variable (hisr : Cdecl I.stackTop I.code I.isrHandler I.isrReturn)
  (hirq : Cdecl I.stackTop I.code I.irqHandler I.irqReturn)

include hisr hirq

/-- Whichever of the two handlers a vector goes to keeps to the calling convention. -/
theorem cdecl_handler (v : Fin 48) : Cdecl I.stackTop I.code (I.handler v) (I.back v) := by
  unfold Image.handler Image.back
  by_cases hv : v.val < 32
  · rw [if_pos hv, if_pos hv]
    exact hisr
  · rw [if_neg hv, if_neg hv]
    exact hirq

/-- What an interrupt leaves when its handler has returned, before the stub gives the registers
back. It does not depend on whether the stub is right. -/
theorem served_saved (hinner : ∀ s t, Flat s → inner s t → Transparent I.stackTop s t)
    (hserved : I.Served inner v errorCode s t) : ∃ u,
      Returned (I.back v) (I.enter v errorCode s) u ∧ t = u.run commonReturn ∧
      u.seg = (I.enter v errorCode s).seg ∧ Saved I.stackTop (I.enter v errorCode s) u := by
  obtain ⟨u, hruns, hret, ht⟩ := hserved.handled
  obtain ⟨hruns, hseg⟩ := runs_transparent hinner (enter_flat I v errorCode s) hruns
  have hlength := pushed_length I v errorCode s
  have hesp := enter_esp I v errorCode hserved.room
  have htop : (I.enter v errorCode s).esp.toNat + 4 ≤ I.stackTop := by
    have hroom := hserved.room
    have honStack := hserved.onStack
    omega
  have hsaved := cdecl_handler hisr hirq v _ u (by rw [enter_eq]; rfl) (enter_word hserved.room)
    htop hruns hret
  exact ⟨u, hret, ht, hseg, hsaved⟩

/-- Neither an interrupt nor the ones in its handler are noticed, as long as the stubs are right
about the error codes. -/
theorem interrupt_transparent (depth : Nat) :
    ∀ s t, Flat s → I.Interrupt depth s t → Transparent I.stackTop s t := by
  induction depth with
  | zero =>
    intro s t _ h
    exact h.elim
  | succ depth ih =>
    intro s t hflat h
    obtain ⟨v, errorCode, hagree, hserved⟩ := h
    obtain ⟨u, hret, rfl, hseg, hsaved⟩ := served_saved hisr hirq ih hserved
    exact restored hserved.room hserved.onStack hagree hflat hseg hsaved hret

end

/-! ## Which stubs are right -/

/-- Vectors 21 and 29 push an error code that the stubs do not count on. -/
theorem hasErrorCode_eq : ∀ v : Fin 48,
    hasErrorCode (UInt8.ofNat v) = hasErrStub v ↔ v ≠ 21 ∧ v ≠ 29 := by decide

/-- **An interrupt is not noticed**, however its handler is interrupted itself: the code goes on
with its registers, its segments, its flags and its stack as they were. It is so for every vector
but those whose error code the stub does not know of. -/
theorem served_transparent_iff (I : Image)
    (hisr : Cdecl I.stackTop I.code I.isrHandler I.isrReturn)
    (hirq : Cdecl I.stackTop I.code I.irqHandler I.irqReturn) {depth : Nat} {v : Fin 48}
    {errorCode : Option UInt32} {s t : Machine} (hflat : Flat s)
    (hcode : errorCode.isSome = hasErrorCode (UInt8.ofNat v))
    (hserved : I.Served (I.Interrupt depth) v errorCode s t) :
    Transparent I.stackTop s t ↔ v ≠ 21 ∧ v ≠ 29 := by
  obtain ⟨u, hret, rfl, hseg, hsaved⟩ :=
    served_saved hisr hirq (interrupt_transparent hisr hirq depth) hserved
  constructor
  · intro htransparent
    by_contra hv
    have hwrong : errorCode.isSome ≠ hasErrStub v := fun h =>
      hv ((hasErrorCode_eq v).mp (hcode.symm.trans h))
    exact not_restored hserved.room hwrong hret (congrFun htransparent.reg .esp)
  · intro hv
    have hagree := hcode.trans ((hasErrorCode_eq v).mpr hv)
    exact restored hserved.room hserved.onStack hagree hflat hseg hsaved hret

/-! ### A kernel whose only function enables interrupts and returns -/

def enable (s : Machine) : Machine := { s with eflags := s.eflags ||| flagIF, eip := 0x3001 }

def ret (s : Machine) : Machine := { s.drop 4 with eip := s.word 0 }

def enabling : Image where
  stackTop := 0x9000
  stub v := 0x1000 + UInt32.ofNat v
  isrHandler := 0x3000
  irqHandler := 0x3000
  isrReturn := 0x1100
  irqReturn := 0x1100
  code s t := (s.eip = 0x3000 ∧ t = enable s) ∨ (s.eip = 0x3001 ∧ t = ret s)
  outside s t h := by
    rcases h with ⟨heip, -⟩ | ⟨heip, -⟩
    · rw [heip]
      decide
    · rw [heip]
      decide
  loadsNoSegment s t h := by
    rcases h with ⟨-, rfl⟩ | ⟨-, rfl⟩
    · rfl
    · rfl

/-- Where a call of it can be: in the function, or behind the call. -/
structure Enabling (s x : Machine) : Prop where
  reg : ∀ r, r ≠ .esp → x.reg r = s.reg r
  stack : ∀ c, s.esp.toNat + 4 ≤ c → c < 0x9000 → x.mem c = s.mem c
  place : x.esp = s.esp ∧ x.word 0 = 0x1100 ∨ x.esp = s.esp + 4 ∧ x.eip = 0x1100

/-- Its two instructions, and anything that cannot be noticed between them. -/
theorem Enabling.step {s x y : Machine} (htop : s.esp.toNat + 4 ≤ 0x9000) (hx : Enabling s x)
    (hstep : enabling.code x y ∨ Transparent 0x9000 x y) : Enabling s y := by
  have hesp : (s.esp + 4).toNat = s.esp.toNat + 4 := by
    rw [UInt32.toNat_add, show (4 : UInt32).toNat = 4 from rfl]
    omega
  rcases hstep with (⟨heip, rfl⟩ | ⟨heip, rfl⟩) | htransparent
  · exact ⟨hx.reg, hx.stack, hx.place.imp_right fun h => ⟨h.1, by
      rw [h.2] at heip
      exact absurd heip (by decide)⟩⟩
  · refine ⟨fun r hr => (Function.update_of_ne hr ..).trans (hx.reg r hr), hx.stack, .inr ?_⟩
    rcases hx.place with ⟨hxesp, hword⟩ | ⟨-, hback⟩
    · exact ⟨congrArg (· + 4) hxesp, hword⟩
    · rw [hback] at heip
      exact absurd heip (by decide)
  · refine ⟨fun r hr => by rw [htransparent.reg, hx.reg r hr], fun c hc hlast => ?_, ?_⟩
    · rw [← hx.stack c hc hlast]
      refine htransparent.stack c ?_ hlast
      rcases hx.place with ⟨hxesp, -⟩ | ⟨hxesp, -⟩
      · rw [hxesp]
        omega
      · rw [hxesp]
        omega
    · have hyesp : y.esp = x.esp := congrFun htransparent.reg .esp
      rcases hx.place with ⟨hxesp, hword⟩ | ⟨hxesp, hback⟩
      · refine .inl ⟨hyesp.trans hxesp, ?_⟩
        rw [htransparent.word (by rw [hxesp]; omega), hword]
      · exact .inr ⟨hyesp.trans hxesp, htransparent.eip.trans hback⟩

theorem enabling_cdecl : Cdecl 0x9000 enabling.code 0x3000 0x1100 := by
  intro s t _ hword htop hruns _
  have hkept : Enabling s t := by
    clear * - hword htop hruns
    induction hruns with
    | refl => exact ⟨fun _ _ => rfl, fun _ _ _ => rfl, .inl ⟨rfl, hword⟩⟩
    | tail _ hstep ih => exact ih.step htop hstep
  exact ⟨hkept.reg _ (by decide), hkept.reg _ (by decide), hkept.reg _ (by decide),
    hkept.reg _ (by decide), hkept.stack⟩

/-- A call of it with one interrupt in between, or none. -/
theorem enabling_served (inner : Machine → Machine → Prop) {v : Fin 48} {s m : Machine}
    (hflag : s.eflags &&& flagIF ≠ 0) (hroom : 64 ≤ s.esp.toNat) (htop : s.esp.toNat ≤ 0x9000)
    (hrun : Relation.ReflTransGen inner (enable (enabling.enter v none s)) m)
    (hm : Transparent 0x9000 (enable (enabling.enter v none s)) m) :
    enabling.Served inner v none s ((ret m).run commonReturn) := by
  have hesp := enter_esp enabling v none hroom
  have hlength := pushed_length enabling v none s
  refine ⟨fun _ => hflag, hroom, htop, ret m, ?_, ⟨?_, ?_⟩, rfl⟩
  · have hfirst : enabling.code (enabling.enter v none s) (enable (enabling.enter v none s)) :=
      .inl ⟨by rw [enter_eq]; exact ite_self _, rfl⟩
    have hlast : enabling.code m (ret m) := .inr ⟨hm.eip, rfl⟩
    have hbetween : Machine.Runs enabling.code inner _ m :=
      Relation.ReflTransGen.mono (fun _ _ h => Or.inr h) _ _ hrun
    exact (Relation.ReflTransGen.head (.inl hfirst) hbetween).tail (.inl hlast)
  · show m.word 0 = _
    rw [hm.word (by show (enabling.enter v none s).esp.toNat + _ ≤ _; omega)]
    exact enter_word hroom
  · exact congrArg (· + 4) (congrFun hm.reg .esp)

theorem enable_flag (e : UInt32) : (e ||| flagIF) &&& flagIF ≠ 0 := by
  intro h
  have hbit := congrArg (fun w => w.toNat.testBit 9) h
  have hflag : flagIF.toNat.testBit 9 = true := by decide
  rw [UInt32.toNat_and, UInt32.toNat_or, Nat.testBit_and, Nat.testBit_or, hflag,
    Bool.or_true] at hbit
  exact absurd hbit (by decide)

/-- The timer interrupts, and in its handler the keyboard. -/
theorem enabling_nested {s : Machine} (hflag : s.eflags &&& flagIF ≠ 0)
    (hroom : 128 ≤ s.esp.toNat) (htop : s.esp.toNat ≤ 0x9000) :
    ∃ t, enabling.Served (enabling.Interrupt 1) 32 none s t := by
  have hlength : (pushed enabling 32 none s).length = 15 :=
    (pushed_length enabling 32 none s).trans (by decide)
  have hesp : (enable (enabling.enter 32 none s)).esp.toNat = _ :=
    enter_esp enabling 32 none (by omega)
  have hflat : Flat (enable (enabling.enter 32 none s)) :=
    (enter_flat enabling 32 none s).of_seg rfl
  rw [hlength] at hesp
  generalize henter : enable (enabling.enter 32 none s) = m at hesp hflat
  have hinner := enabling_served (enabling.Interrupt 0) (v := 33) (s := m)
    (by rw [← henter]; exact enable_flag _) (by omega) (by omega) .refl (.refl _ _)
  have hkeyboard : enabling.Interrupt 1 m _ := ⟨33, none, by decide, hinner⟩
  have hnothing := interrupt_transparent (I := enabling) enabling_cdecl enabling_cdecl 1 _ _ hflat
    hkeyboard
  rw [← henter] at hkeyboard hnothing
  exact ⟨_, enabling_served _ hflag (by omega) htop (.single hkeyboard) hnothing⟩

def idle : Machine where
  reg r := if r = .esp then 0x8000 else 0
  seg g := if g = .cs then 8 else 0x10
  eip := 0x5000
  eflags := 0x202
  mem _ := 0

theorem served_transparent_iff_nested : ∃ t,
    enabling.Served (enabling.Interrupt 1) 32 none idle t ∧
      (Transparent enabling.stackTop idle t ↔ (32 : Fin 48) ≠ 21 ∧ (32 : Fin 48) ≠ 29) := by
  obtain ⟨t, hserved⟩ := enabling_nested (s := idle) (by decide) (by decide) (by decide)
  exact ⟨t, hserved, served_transparent_iff enabling enabling_cdecl enabling_cdecl
    ⟨rfl, rfl, rfl⟩ (by decide) hserved⟩

end ScratchOs.Cpu
