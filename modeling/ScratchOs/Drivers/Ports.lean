import Mathlib.Data.UInt

/-!
# Ports

`arch/x86/io/ports.h`. Most devices of this machine are reached through `in` and `out` alone, and
that is all their drivers are given of it. `IoPorts` is the machine as such a driver sees it: a
state of any type, and what the three instructions the drivers use make of it. An `in` changes the
state as well, since reading a port can have an effect: the identify data of a drive comes out of
one port word by word.

A driver is written once, over any instance, and its device is an instance. That keeps apart
what is translated from the source and what is assumed of the hardware: no driver can depend on
more of the device than its answers. Where a theorem holds whatever the device answers it takes
the class as it is; where it is about a particular device it names the instance, and those stand
beside the drivers: the timer chip, the CMOS, the registers of the VGA, a drive being identified,
the two interrupt controllers.

`outw` is missing here. Only a transfer to a drive uses it, and transfers share the machine with
an interrupt handler and with the drive itself, so they are not functions of one state (`Op`).
-/

set_option autoImplicit false

namespace ScratchOs.Drivers

/-- Whatever answers at the ports. -/
class IoPorts (σ : Type) where
  inb : σ → UInt16 → UInt8 × σ
  inw : σ → UInt16 → UInt16 × σ
  outb : σ → UInt16 → UInt8 → σ

end ScratchOs.Drivers
