import CabbagePKE.Pmm.Boot
import CabbagePKE.Sched.Semaphore
import CabbagePKE.Vfs.Cache
import CabbagePKE.Sched.ReadyQueue
import CabbagePKE.Sched.Accounting
import CabbagePKE.Sched.Lineage
import CabbagePKE.Sched.Harts
import CabbagePKE.Process.OpenCount
import CabbagePKE.Process.Inherit
import CabbagePKE.Vfs.Listing
import CabbagePKE.Rfs.CachePages
import CabbagePKE.Process.ExecReturn
import CabbagePKE.Heap.Split
import CabbagePKE.Heap.Fork
import CabbagePKE.Vm.Resolve
import CabbagePKE.Process.OpenPages
import CabbagePKE.Vfs.Offsets
import CabbagePKE.Heap.Capacity
import CabbagePKE.Heap.Misfree
import CabbagePKE.Vm.StackGrowth
import CabbagePKE.Vm.Translate
import CabbagePKE.Process.Read
import CabbagePKE.Process.ReadLoop
import CabbagePKE.Rfs.Limit
import CabbagePKE.Process.Cwd
import CabbagePKE.Trap.Vector
import CabbagePKE.Debug.Leb128
import CabbagePKE.Symbols.Lookup
