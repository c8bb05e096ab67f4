/-
`sdi_load_drivers` of `sdi/elf.c`.

The directory is read eight entries at a time. The offset that the next
ones are read from is counted here, one for each entry, and is not taken
from `d_off`. The directory stays open while the drivers in it are read
and loaded.

A driver runs its own code when it is loaded, so that `load` is a
parameter; `driverLoader` is the one of the kernel, with `register` for
`sdi_kernel_register_loaded_driver` and the hooks it calls. None of the
functions that a driver can import touches the files. Which `vfs_read`
fails is up to `fault`, by the path and the round. The list of attempts
stands for the log lines and the count in the last of them.
-/
import Alix.Fs.Dirents
import Alix.Klib.String
import Alix.Sdi.Elf
import Alix.Sdi.ReadFile

namespace Alix

open Bytes (Memory Byte)
open Klib (strlcpy)

variable (fault : CStr → Nat → Bool) (load : Loader)

end Alix
