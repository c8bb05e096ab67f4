import Alix.Fs.Proofs.Follow
import Alix.Fs.Proofs.Mirror
import Alix.Fs.Proofs.Archive
import Alix.Sys.Proofs.SchedBlock
import Alix.Sys.Proofs.Switch
import Alix.Sys.Proofs.Preempt
import Alix.Sys.Proofs.Asleep
import Alix.Sys.Proofs.Guard
import Alix.Sys.Proofs.Timer
import Alix.Mm.Proofs.Pfndb
import Alix.Mm.Proofs.PageAccess
import Alix.Mm.Proofs.Clean
import Alix.Mm.Proofs.DoubleFree
import Alix.Mm.Proofs.UserStart
import Alix.Mm.Proofs.Kernel
import Alix.Mm.Proofs.Wrapped
import Alix.Drivers.Proofs.Ps2
import Alix.Mm.Proofs.MapPhys
import Alix.Mm.Proofs.UserAccess
import Alix.Mm.Proofs.Clone
import Alix.Mm.Proofs.SlabCache
import Alix.Sys.Proofs.Pids
import Alix.Mm.Proofs.Krealloc
import Alix.Sdi.Proofs.Loaded
import Alix.Sdi.Proofs.Alloc
import Alix.Sdi.Proofs.ElfMem
import Alix.Sdi.Proofs.LoadDrivers
import Alix.Klib.Proofs.String
import Alix.Drivers.Proofs.Ps2Keys
import Alix.Sys.Proofs.RqRun
import Alix.Acpi.Proofs.Madt
import Alix.Sys.Proofs.Apic
import Alix.Klib.Proofs.Width
import Alix.Klib.Proofs.Arguments
import Alix.Klib.Proofs.Numbers
import Alix.Debug.Proofs.Kallsyms
import Alix.Sys.Proofs.Time
import Alix.Sys.Proofs.ContextSwitch
import Alix.Log.Proofs.LogStuck
import Alix.Log.Proofs.LogRecords
import Alix.Debug.Proofs.Panic
import Alix.Mm.Proofs.BootMap
import Alix.Cpu.Proofs.Smp
