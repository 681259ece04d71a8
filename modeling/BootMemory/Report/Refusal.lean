import BootMemory.Boot.Error
import BootMemory.Heap.FreeList
import BootMemory.Report.Basic

/-!
# Reports of refusals

Every refusal is told about by its name and its words. Faults whose words would say no more
than their name go by the name alone, and so do blocks that belong to nobody, whose words
hold an address that differs from run to run.
-/

set_option autoImplicit false

namespace BootMemory

instance : Reportable ArgumentError := ⟨fun e => .refusal e.name e.message⟩

instance : Reportable MemoryMapError := ⟨fun e => .refusal e.name e.message⟩

instance : Reportable FrameError := ⟨fun e => .refusal e.name e.message⟩

instance : Reportable MappingError := ⟨fun e => .refusal e.name e.message⟩

instance : Reportable GrowthError := ⟨fun e => .refusal e.name e.message⟩

instance : Reportable HeapError := ⟨fun e => .refusal e.name e.message⟩

instance : Reportable BootError := ⟨fun e => .refusal e.name e.message⟩

instance : Reportable Fault where
  report
    | .overflow => .named "overflow"
    | .bounds => .named "bounds"
    | .assertion => .named "assertion"
    | .foreignBlock _ => .named "not_owned"
    | .unownedBlock _ => .named "not_owned"
    | cause => .refusal "panic" cause.message

end BootMemory
