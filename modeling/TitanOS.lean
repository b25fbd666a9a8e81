import TitanOS.Pmm.Holding
import TitanOS.Pmm.Pages
import TitanOS.Hashmap.PartialMap
import TitanOS.Hashmap.Walks
import TitanOS.Heap.GrowRuns
import TitanOS.Heap.Reuse
import TitanOS.Heap.Lengthened
import TitanOS.Sched.Contexts
import TitanOS.Vmm.PointUpdate
import TitanOS.Vmm.Spaces
import TitanOS.Vmm.Undo
import TitanOS.Vmm.Registry
import TitanOS.Vmm.PmmInit
import TitanOS.Vmm.Exhaust
import TitanOS.Vmm.Agree
import TitanOS.Vmm.Recursion
import TitanOS.Vmm.Shared
import TitanOS.Proc.Leak
import TitanOS.Vmm.Areas
import TitanOS.Vmm.Sorted
import TitanOS.Vmm.Independent
import TitanOS.Vmm.Coverage
import TitanOS.Vmm.Failures
import TitanOS.Console.Window
import TitanOS.Fs.Handles
import TitanOS.Fs.Reads
import TitanOS.Fs.Parse
import TitanOS.Fs.Syscalls
import TitanOS.Boot.E820
import TitanOS.Boot.Tags
import TitanOS.Boot.Reserved
import TitanOS.Drivers.Acpi
import TitanOS.Drivers.Apic
import TitanOS.Libtitan.Strncmp
import TitanOS.Drivers.Keyboard
import TitanOS.Fs.Mount
import TitanOS.Fs.Elf
import TitanOS.Console.Printf
import TitanOS.Console.Messages
import TitanOS.Sched.Waiting
import TitanOS.Cpu.Interrupts
import TitanOS.Vmm.Bootstrap
import TitanOS.Boot.Loader
import TitanOS.Fs.Image
