import BootMemory.MemoryMap.Region

/-!
# Coalescing

Regions of one kind that touch are one region. `coalesce` goes through a list from the
left, drops regions without bytes and joins each region to the one before it if they touch
and share their kind. It faults where an end or a joined length does not fit a word.
-/

set_option autoImplicit false

namespace BootMemory.Region

/-- Adds a region behind the newest region of a list that is kept newest first. -/
def push (done : List Region) (region : Region) : Except Fault (List Region) :=
  if region.length = 0 then .ok done
  else match done with
    | [] => .ok [region]
    | last :: earlier =>
      if last.kind = region.kind then do
        let stop ← last.end?
        if stop = region.base then
          let length ← Word.add last.length region.length
          return { last with length } :: earlier
        else
          return region :: last :: earlier
      else
        .ok (region :: last :: earlier)

/-- A region that is joined to the one in front of it ends where it ended. -/
theorem stop_joined {last region : Region} (h : last.stop = region.base) :
    ({ last with length := last.length + region.length } : Region).stop = region.stop := by
  unfold stop at *
  simp only
  omega

/-- The list without empty regions and with touching regions of one kind joined. -/
def coalesce (regions : List Region) : Except Fault (List Region) := do
  let newestFirst ← regions.foldlM push []
  return newestFirst.reverse

/-- What a region becomes when the bytes from `first` up to `stop` are reserved: itself if
it lies aside, else its parts below, inside and above. -/
def cut (first stop : Nat) (region : Region) : Except Fault (List Region) := do
  if ← region.overlaps first stop then
    let regionStop ← region.end?
    let low := max region.base first
    let high := min regionStop stop
    return [⟨region.base, low - region.base, region.kind⟩, ⟨low, high - low, .reserved⟩,
      ⟨high, regionStop - high, region.kind⟩]
  else
    return [region]

/-- The regions with the bytes from `first` up to `stop` reserved where they are covered. -/
def reserve (first stop : Nat) (regions : List Region) : Except Fault (List Region) := do
  let pieces ← regions.mapM (cut first stop)
  coalesce pieces.flatten

end BootMemory.Region
