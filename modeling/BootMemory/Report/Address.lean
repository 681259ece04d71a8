import BootMemory.Address.Align
import BootMemory.Report.Refusal

/-!
# Reports of addresses and pages

An address alone is its number. A survey of an address shows its page of either size, its
place in that page, and what it gives together with another address.
-/

set_option autoImplicit false

namespace BootMemory

open Report

instance : Reportable PhysAddr := ⟨fun addr => report addr.toNat⟩

instance : Reportable VirtAddr := ⟨fun addr => report addr.toNat⟩

instance : Reportable Frame := ⟨fun frame => report frame.index⟩

def PageSize.parts (part : PageSize → Report) : List (String × Report) :=
  [small, large].map fun size => (size.label, part size)

def PhysPage.survey {size : PageSize} (page : PhysPage size) : Report :=
  record [("base", report page.base), ("index", report page.index), ("end", report page.stop),
    ("next", report page.next.base), ("display", report page.text),
    ("debug", report page.describe)]

/-- How a number compares with another one: below, equal or above. -/
def comparison (a b : Nat) : Int := if a < b then -1 else if a = b then 0 else 1

def PhysAddr.survey (addr other : PhysAddr) : Report :=
  record <| PageSize.parts (fun size => record [("page", (addr.page size).survey),
      ("offset", report (addr.offset size)), ("align_down", report (addr.alignDown size)),
      ("align_up", report (addr.alignUp size)), ("is_aligned", report (addr.isAligned size)),
      ("from_aligned", report ((PhysPage.ofAligned? size addr).map PhysPage.base))]) ++
    [("display", report addr.text), ("debug", report addr.describe),
      ("is_zero", report (addr.toNat == 0)), ("checked_add", report (addr.add? other.toNat)),
      ("add", report (addr.add other.toNat)), ("add_assign", report (addr.add other.toNat)),
      ("sub", report (addr.sub other)), ("cmp", number (comparison addr.toNat other.toNat))]

/-- An address, its indices, and what it gives together with another one. -/
def VirtAddr.survey (addr other : VirtAddr) : Report :=
  record <| PageSize.parts (fun size =>
      let page := addr.page size
      record [("base", report page.base), ("next", report page.next.base),
        ("display", report page.text), ("debug", report page.describe),
        ("align_down", report (addr.alignDown size)),
        ("is_aligned", report (addr.isAligned size))]) ++
    [("directory_index", tally addr.directoryIndex.val),
      ("table_index", tally addr.tableIndex.val), ("page_offset", tally addr.pageOffset.val),
      ("as_u64", report addr.toNat), ("as_usize", report addr.toNat),
      ("display", report addr.text), ("debug", report addr.describe),
      ("is_zero", report (addr.toNat == 0)), ("checked_add", report (addr.add? other.toNat)),
      ("add", report (addr.add other.toNat)), ("add_assign", report (addr.add other.toNat)),
      ("sub", report (addr.sub other)), ("cmp", number (comparison addr.toNat other.toNat))]

end BootMemory
