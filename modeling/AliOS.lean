import AliOS.Path.Stores
import AliOS.Alfs.Capacity
import AliOS.Pmm.Ledger
import AliOS.Pmm.LowMemory
import AliOS.Heap.Requests
import AliOS.Uvm.Undo
import AliOS.Pipe.Waiting
import AliOS.Sched.Zombie
import AliOS.Sched.Sleep
import AliOS.Sched.Parents
import AliOS.Sched.Fair
import AliOS.Elf.Order
import AliOS.Elf.Args
import AliOS.Process.Exec
import AliOS.Process.Brk
import AliOS.System.Staging
import AliOS.Shell.History
import AliOS.Shell.Glob
import AliOS.Shell.Foreground
import AliOS.Shell.Moving
import AliOS.User.Filters
import AliOS.User.Sort
import AliOS.User.Count
import AliOS.Vga
import AliOS.Keyboard
