import BootMemory.KernelMemory

/-!
# A ledger of pages

The plainest page backing: it keeps a list of the pages that are backed and no memory at
all. It can be told to refuse one page, and to refuse every page once a number of them is
backed, so that growth can be watched when it fails.
-/

set_option autoImplicit false

namespace BootMemory

/-- The pages that are backed, in the order in which they were, and what is refused. -/
structure PageLedger where
  live : Array VirtAddr
  /-- How many pages may be backed at one time; no limit if it is not given. -/
  budget : Option Nat
  /-- A page that is always refused, and why. -/
  refused : Option (VirtAddr × MappingError)

namespace PageLedger

def back (addr : VirtAddr) (ledger : PageLedger) : Except MappingError Unit × PageLedger :=
  let refusal := ledger.refused.filter (·.1 = addr)
  if ledger.budget.any (· ≤ ledger.live.size) then (.error .outOfFrames, ledger)
  else match refusal with
    | some (_, cause) => (.error cause, ledger)
    | none => (.ok (), { ledger with live := ledger.live.push addr })

def release (addr : VirtAddr) (ledger : PageLedger) : PageLedger :=
  { ledger with live := ledger.live.filter (· != addr) }

instance : PageBacking PageLedger where
  back addr ledger := pure (ledger.back addr)
  release addr ledger := pure (ledger.release addr)

end PageLedger

end BootMemory
