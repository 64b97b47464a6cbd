import ScratchOs.Mem.PmmOwners
import ScratchOs.Mem.PmmBoot
import ScratchOs.Mem.DirectMap
import ScratchOs.Mem.HeapSafety
import ScratchOs.Mem.HeapTiles
import ScratchOs.Mem.TablesReachable
import ScratchOs.Mem.HeapFailure
import ScratchOs.Mem.HeapLinks
import ScratchOs.Mem.VideoWindow
import ScratchOs.Mem.MapRegion
import ScratchOs.Drivers.Keyboard
import ScratchOs.Drivers.AtaSectors
import ScratchOs.Drivers.Console
import ScratchOs.Drivers.Clock
import ScratchOs.Cpp.UniquePtr
import ScratchOs.Cpu.EndOfInterrupt
import ScratchOs.Cpu.CriticalSections
import ScratchOs.Cpu.ConsoleReady
import ScratchOs.Boot.MemoryMapWalks
import ScratchOs.Drivers.AtaIdentify
import ScratchOs.Drivers.AtaSizes
import ScratchOs.Drivers.Rtc
import ScratchOs.Libc.Printk
import ScratchOs.Drivers.Vbe
import ScratchOs.Drivers.ClockSlots
import ScratchOs.Drivers.Echo
import ScratchOs.Drivers.Pit
import ScratchOs.Drivers.Screen
import ScratchOs.Lib.Decimal
import ScratchOs.Libc.Int2String
import ScratchOs.Libc.Strcmp
import ScratchOs.Drivers.ClockSleep
import ScratchOs.Drivers.RtcUpdates
import ScratchOs.Lib.X86
import ScratchOs.Cpu.Stubs
import ScratchOs.Cpu.Idt
import ScratchOs.Cpu.Remap
import ScratchOs.Cpu.Nesting
import ScratchOs.Drivers.BlockStore
import ScratchOs.Kernel.Shell
import ScratchOs.Kernel.Terminal
import ScratchOs.Kernel.ShellRuns
import ScratchOs.Drivers.TextGrid
import ScratchOs.Kernel.Panic
import ScratchOs.Kernel.LibcTest
import ScratchOs.Mem.DeviceFrames
import ScratchOs.Mem.DoubleBuffer
import ScratchOs.Mem.SwapRaces
import ScratchOs.Mem.FrameAccounts
import ScratchOs.Cpu.Exceptions
import ScratchOs.Lib.MemBitmap
