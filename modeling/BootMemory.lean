import BootMemory.Address.LowAlias
import BootMemory.Lock
import BootMemory.Proofs.CommandLine.Slots
import BootMemory.Proofs.Frames.Building
import BootMemory.Proofs.Frames.Occupancy
import BootMemory.Proofs.Frames.Placement
import BootMemory.Proofs.Frames.Provenance
import BootMemory.Proofs.Frames.StoredBitmap
import BootMemory.Proofs.Heap.GiveBack
import BootMemory.Proofs.Heap.Insertion
import BootMemory.Proofs.Heap.NextFit
import BootMemory.Proofs.Heap.Routing
import BootMemory.Proofs.Memory.BringUp
import BootMemory.Proofs.Memory.FreshPage
import BootMemory.Proofs.Memory.Stack
import BootMemory.Proofs.Memory.Startup
import BootMemory.Proofs.MemoryMap.Idempotence
import BootMemory.Proofs.MemoryMap.Refusal
import BootMemory.Proofs.Paging.Lifecycle
import BootMemory.Proofs.Paging.Refinement
import BootMemory.Proofs.Paging.Rights
import BootMemory.Proofs.Paging.Windows
import BootMemory.Report.Layout
