import Mathlib.Data.List.FinRange
import Mathlib.Logic.Function.Basic
import Mathlib.Logic.Relation
import ScratchOs.Drivers.Keyboard

/-!
# The kernel and its interrupts

`kernel_main`, `irq_handler` and what they call, as far as the interrupt flag, the interrupt
controllers and the console go: `kernel/kernel.cpp`, `cpu/int.cpp`, `cpu/int_.asm`,
`arch/x86/interrupts/pic.c`, and the handlers in `drivers/`.

A function is the list of what it does, an `Instr` each, and an interrupt can come between any
two of them. What a function prints depends on more than is modelled here, so `printk` stands for
any number of characters, and the picture of a character for any number of pixels, each with an
error message of any length (`vbe_put_pixel`). All this is more than the kernel does, never less.

## What the model is for

Three questions have to be asked of one and the same machine, since the answers depend on each
other: where the interrupt flag is set again, what the second EOI of a handler finds in service, and
whether a handler uses the console before there is one. So the state has what these need and no
more. What a function computes is not here, with one exception: whether `keyboard_handler` echoes a
key is decided by the keyboard's statics, and so those are part of the state.

A frame is the list of what is left to do. Calling a function puts its instructions in front, an
interrupt puts a new frame on top, and a frame whose list is empty is left by its `iret`. There is
no instruction pointer, because nothing the code does depends on where it is. `printk`, `log` and
the handlers are not expanded beforehand: what they do depends on the state in which they are
called, and on choices that are not modelled, so `Instr.Calls` is a relation.

The two controllers have their in-service registers with the number of the interrupt in each bit.
The hardware has a bit only. The number is what makes "its own interrupt" a notion, and nothing that
is executed reads it.
-/

set_option autoImplicit false

namespace ScratchOs.Cpu

open Drivers (Keyboard)

/-! ## The two 8259A -/

inductive Chip
  | master
  | slave
deriving DecidableEq

/-- The in-service registers, with the number of the interrupt that has set a bit. -/
structure Pic where
  inService : Chip → Fin 8 → Option Nat
  mask : Fin 16 → Bool

/-- A non-specific EOI takes the in-service bit of the highest priority. -/
def dismiss (bits : Fin 8 → Option Nat) : Fin 8 → Option Nat :=
  match (List.finRange 8).find? fun i => (bits i).isSome with
  | some i => Function.update bits i none
  | none => bits

def Pic.eoi (p : Pic) (chip : Chip) : Pic :=
  { p with inService := Function.update p.inService chip (dismiss (p.inService chip)) }

def Pic.serve (p : Pic) (chip : Chip) (i : Fin 8) (k : Nat) : Pic :=
  { p with
    inService := Function.update p.inService chip
      (Function.update (p.inService chip) i (some k)) }

/-- Interrupt number `k`, on line `irq`. The slave's come through line 2 of the master. -/
def Pic.acknowledge (p : Pic) (irq : Fin 16) (spurious : Bool) (k : Nat) : Pic :=
  if h : irq.val < 8 then
    if spurious then p else p.serve .master ⟨irq, h⟩ k
  else
    let p := p.serve .master 2 k
    if spurious then p else p.serve .slave ⟨irq - 8, by omega⟩ k

def Pic.Delivers (p : Pic) (irq : Fin 16) : Bool → Prop
  | true => irq = 7 ∨ irq = 15
  | false => p.mask irq = false ∧ (8 ≤ irq → p.mask 2 = false)

/-! ## Code -/

/-- What `register_interrupt_handler` puts into `interrupt_handlers`. -/
inductive Handler
  | genericTimer
  | ataPrimary
  | ataSecondary

inductive Instr
  /-- Whatever touches neither the flag, nor the controllers, nor the console. -/
  | step
  | cli
  | sti
  | eoi (chip : Chip)
  | unmask (irq : Fin 16)
  | register (irq : Fin 16) (handler : Handler)
  | resetKeyboard
  | getInputBuffer
  /-- `vbe_init` has set `video_buffer`. -/
  | vbeReady
  | putPixel
  | putChar
  | printk
  | log
  /-- The calls `irq_handler` makes after its EOI. -/
  | callHandler (irq : Fin 16)
  | key (scancode : UInt8)
  | lineReady
  | loop

namespace Code

/-- `void arch_irq_send_eoi(uint8_t irq)` -/
def sendEoi (irq : Nat) : List Chip :=
  if 8 ≤ irq then [.slave, .master] else [.master]

/-- `void irq_handler(registers_t regs)` -/
def irqHandler (irq : Fin 16) : List Instr :=
  (sendEoi irq).map .eoi ++ [.callHandler irq]

/-- `void vbe_put_pixel(uint32_t x, uint32_t y, uint32_t color)`, with the length of what it
prints when the pixel is out of bounds. -/
def vbePutPixel (message : Nat) : List Instr :=
  .putPixel :: List.replicate message .putChar

/-- `void console_put_char(char c)`, with the messages of the pixels it draws. -/
def consolePutChar (pixels : List Nat) : List Instr :=
  .cli :: pixels.flatMap vbePutPixel ++ [.sti]

/-- `void generic_timer_handler(registers_t)` -/
def genericTimerHandler (callbacks : List Instr) : List Instr :=
  .step :: callbacks ++ (sendEoi 0).map .eoi

/-- `void ata_primary_irq_handler(registers_t regs)`, and that of the other channel. -/
def ataIrqHandler (irq : Nat) : List Instr :=
  [.log, .step, .step] ++ (sendEoi irq).map .eoi

/-- `void keyboard_handler(void)` -/
def keyboardHandler (scancode : UInt8) : List Instr :=
  [.key scancode, .step] ++ (sendEoi 1).map .eoi

/-- `keyboard_handler` from the scancode to `vbe_swap_buffer`: the statics, and what is left to
do. -/
def pressKey (k : Keyboard) (scancode : UInt8) : Keyboard × List Instr :=
  match Drivers.keyOf scancode with
  | .nothing => (k, [])
  | .enter => (k, [.putChar, .lineReady])
  | .erase =>
    if 0 < k.bufferPos then ({ k with bufferPos := k.bufferPos - 1 }, [.putChar]) else (k, [])
  | .char c =>
    if k.bufferPos < 255 ∧ k.lineReady = false then
      ({ k with
          keyBuffer := Function.update k.keyBuffer k.bufferPos c
          bufferPos := k.bufferPos + 1 }, [.putChar])
    else (k, [])

/-- What `ata_identify` finds: a floating bus, a drive, or neither. -/
inductive Probe
  | floating
  | identified
  | silent

/-- `void ata_identify(ata_device_t* device)`, and the block device. -/
def ataIdentify : Probe → List Instr
  | .floating => [.step, .log]
  | .identified => [.step, .log, .step]
  | .silent => [.step]

/-- `void ata_init()` -/
def ataInit (drives : Fin 4 → Probe) : List Instr :=
  [.cli, .step] ++ ((List.finRange 4).map drives).flatMap ataIdentify ++
    [.register 14 .ataPrimary, .register 15 .ataSecondary, .step, .sti]

/-- `void set_idt(void)` -/
def setIdt : List Instr := [.step, .sti]

/-- `void init_keyboard(void)` -/
def initKeyboard : List Instr := [.step, .unmask 1, .resetKeyboard]

/-- `kernel_main` up to `console_init`: the memory, the GDT, `set_idt`, `init_exceptions`,
`init_keyboard`, `clean_screen`, `init_pmm`, `init_vmm` and `init_heap`. -/
def beforeConsole : List Instr :=
  [.step, .step] ++ setIdt ++ [.step] ++ initKeyboard ++ [.step, .step, .step, .step]

/-- `void console_init(multiboot_info_t* mb_info)` -/
def consoleInit : List Instr := [.step, .vbeReady, .step]

/-- `void init_clock()` -/
def initClock : List Instr := [.step, .register 0 .genericTimer, .step, .unmask 0, .step]

/-- `void kernel_main(multiboot_info_t* mb_info)` -/
def kernelMain (drives : Fin 4 → Probe) : List Instr :=
  beforeConsole ++ consoleInit ++ initClock ++ ataInit drives ++ [.step, .loop]

/-- One round of its loop. -/
def shellRound : List Instr := [.getInputBuffer, .printk, .step, .loop]

end Code

/-! ## The machine -/

/-- `kernel_main`, or a handler, for interrupt number `irq`. `sections` counts the calls of
`arch_disable_interrupts` that wait for their `arch_enable_interrupts`. -/
structure Frame where
  code : List Instr
  irq : Option Nat
  sections : Nat

structure State where
  flag : Bool
  pic : Pic
  handlers : Fin 16 → Option Handler
  keyboard : Keyboard
  vbeReady : Bool
  accepted : Nat
  frames : List Frame

/-- As `kernel_main` is entered, with the masks the firmware has left. -/
def State.boot (drives : Fin 4 → Code.Probe) (mask : Fin 16 → Bool) : State where
  flag := false
  pic := ⟨fun _ _ => none, mask⟩
  handlers := fun _ => none
  keyboard := ⟨fun _ => 0, 0, false, []⟩
  vbeReady := false
  accepted := 0
  frames := [⟨Code.kernelMain drives, none, 0⟩]

def Instr.effect : Instr → State → State
  | .cli, s => { s with flag := false }
  | .sti, s => { s with flag := true }
  | .eoi chip, s => { s with pic := s.pic.eoi chip }
  | .unmask irq, s => { s with pic := { s.pic with mask := Function.update s.pic.mask irq false } }
  | .register irq handler, s =>
    { s with handlers := Function.update s.handlers irq (some handler) }
  | .resetKeyboard, s => { s with keyboard := Drivers.initKeyboard s.keyboard }
  | .getInputBuffer, s =>
    { s with keyboard := (Drivers.getInputBuffer s.keyboard (fun _ => 0) 256).2.2 }
  | .vbeReady, s => { s with vbeReady := true }
  | .key scancode, s => { s with keyboard := (Code.pressKey s.keyboard scancode).1 }
  | .lineReady, s => { s with keyboard := { s.keyboard with lineReady := true } }
  | _, s => s

def Instr.sections : Instr → Nat → Nat
  | .cli, n => n + 1
  | .sti, n => n - 1
  | _, n => n

/-- The handler in `interrupt_handlers`, if there is one. A timer's callbacks are not known. -/
inductive Handler.Code : Option Handler → List Instr → Prop
  | none : Handler.Code none []
  | genericTimer (callbacks : List Instr) (h : ∀ i ∈ callbacks, i = .step ∨ i = .printk) :
      Handler.Code (some .genericTimer) (Code.genericTimerHandler callbacks)
  | ataPrimary : Handler.Code (some .ataPrimary) (Code.ataIrqHandler 46)
  | ataSecondary : Handler.Code (some .ataSecondary) (Code.ataIrqHandler 47)

/-- Calls nothing. -/
def Instr.plain : Instr → Bool
  | .putChar => false
  | .printk => false
  | .log => false
  | .callHandler _ => false
  | .key _ => false
  | .loop => false
  | _ => true

/-- What an instruction calls. -/
inductive Instr.Calls (s : State) : Instr → List Instr → Prop
  | plain {i : Instr} (h : i.plain = true) : Calls s i []
  | putChar (pixels : List Nat) : Calls s .putChar (Code.consolePutChar pixels)
  | printk (n : Nat) : Calls s .printk (List.replicate n .putChar)
  | log (n : Nat) : Calls s .log (List.replicate (n + 1) .putChar)
  | callHandler (irq : Fin 16) {code : List Instr} (h : Handler.Code (s.handlers irq) code)
      (scancode : UInt8) :
      Calls s (.callHandler irq) (code ++ if irq = 1 then Code.keyboardHandler scancode else [])
  | key (scancode : UInt8) : Calls s (.key scancode) (Code.pressKey s.keyboard scancode).2
  | loop : Calls s .loop Code.shellRound

inductive State.Step : State → State → Prop
  | exec {s : State} {i : Instr} {calls code : List Instr} {irq : Option Nat} {sections : Nat}
      {rest : List Frame} (hframes : s.frames = ⟨i :: code, irq, sections⟩ :: rest)
      (hcalls : i.Calls s calls) :
      Step s { i.effect s with frames := ⟨calls ++ code, irq, i.sections sections⟩ :: rest }
  /-- Through an interrupt gate, into `irq_handler`. -/
  | accept {s : State} (irq : Fin 16) (spurious : Bool) (hflag : s.flag = true)
      (hdelivers : s.pic.Delivers irq spurious) :
      Step s { s with
        flag := false
        pic := s.pic.acknowledge irq spurious s.accepted
        accepted := s.accepted + 1
        frames := ⟨Code.irqHandler irq, some s.accepted, 0⟩ :: s.frames }
  /-- `iret` brings back the flag, which was set. -/
  | iret {s : State} {irq sections : Nat} {rest : List Frame}
      (hframes : s.frames = ⟨[], some irq, sections⟩ :: rest) :
      Step s { s with flag := true, frames := rest }

abbrev State.Steps : State → State → Prop :=
  Relation.ReflTransGen State.Step

def State.Reachable (drives : Fin 4 → Code.Probe) (mask : Fin 16 → Bool) (s : State) : Prop :=
  State.Steps (State.boot drives mask) s

/-- Code that calls nothing can be gone through without an interrupt. -/
theorem State.steps_plain {pre code : List Instr} (hplain : ∀ i ∈ pre, i.plain = true) {s : State}
    {irq : Option Nat} {sections : Nat} {rest : List Frame}
    (hframes : s.frames = ⟨pre ++ code, irq, sections⟩ :: rest) :
    ∃ s', s.Steps s' ∧
      s'.frames = ⟨code, irq, pre.foldl (fun n i => i.sections n) sections⟩ :: rest := by
  induction pre generalizing s sections with
  | nil => exact ⟨s, .refl, hframes⟩
  | cons i pre ih =>
    obtain ⟨s', hsteps, hs'⟩ := ih (fun j hj => hplain j (List.mem_cons_of_mem _ hj))
      (s := { i.effect s with frames := ⟨pre ++ code, irq, i.sections sections⟩ :: rest }) rfl
    exact ⟨s', .head (.exec hframes (.plain (hplain i (List.mem_cons_self ..)))) hsteps, hs'⟩

/-- A key is echoed where the keyboard says so. -/
theorem pressKey_echoes (k : Keyboard) (scancode : UInt8) :
    Instr.putChar ∈ (Code.pressKey k scancode).2 ↔
      (Drivers.keyboardHandler k scancode).console ≠ k.console := by
  rw [Drivers.keyboardHandler_eq, Code.pressKey]
  cases Drivers.keyOf scancode with
  | nothing => simp
  | enter => simp
  | erase => split_ifs <;> simp
  | char c => split_ifs <;> simp

end ScratchOs.Cpu
