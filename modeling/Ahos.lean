import Ahos.Mem.Metadata
import Ahos.Mem.Pmm.MmapBytes
import Ahos.Mem.Pmm.Place
import Ahos.Mem.Pmm.Sort
import Ahos.Mem.Paging.Bootstrap
import Ahos.Mem.Paging.Structure
import Ahos.Mem.Paging.Window
import Ahos.Mem.Kmalloc.Release
import Ahos.Mem.Kmalloc.Sizes
import Ahos.Mem.Kmalloc.Rollback
import Ahos.Arch.Gdt
import Ahos.Arch.Irq
import Ahos.Drivers.Terminal
import Ahos.Drivers.Ps2ctrl.Drivers
import Ahos.Drivers.Keyboard.Runs
import Ahos.Drivers.Keyboard.Commands
import Ahos.Drivers.Keyboard.Scan
import Ahos.Kernel.HeapMemory
import Ahos.Kernel.List.Runs
import Ahos.Libc.Copy
import Ahos.Libc.Printf.ReadBack
import Ahos.Libc.Printf.Ends
import Ahos.Kernel.Panic
import Ahos.Kernel.Timeout
import Ahos.Kernel.Symbol.Outside
import Ahos.Kernel.Symbol.Find
