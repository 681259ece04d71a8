import BootMemory.Frames.Bitmap
import BootMemory.MemoryMap.Region

/-!
# Tracked stretches of RAM

A stretch of RAM is tracked by a bitmap with one bit for each of its frames, set when the
frame is reserved or in use. Two counters go with it: how many frames are unavailable, and
how many have been reserved. Freeing a reserved frame lowers only the first.

The stretches of an allocator form a ring in address order; each names the next one.
-/

set_option autoImplicit false

namespace BootMemory

/-- The frames from number `first` on, one for each bit of the bitmap. -/
structure FrameRegion where
  kind : MemoryKind
  first : Nat
  bitmap : Bitmap
  used : Nat
  reserved : Nat
  next : Nat

namespace FrameRegion

def total (region : FrameRegion) : Nat := region.bitmap.bits

def stop (region : FrameRegion) : Nat := region.first + region.total

def firstByte (region : FrameRegion) : Nat := region.first * pageBytes

def lastByte (region : FrameRegion) : Nat := region.stop * pageBytes - 1

def contains (region : FrameRegion) (frame : Frame) : Bool :=
  region.first ≤ frame.index && frame.index < region.stop

def bitOf (region : FrameRegion) (frame : Frame) : Nat := frame.index - region.first

def frameAt (region : FrameRegion) (bit : Nat) : Frame := Frame.ofIndex (region.first + bit)

/-- The bit of the lowest free frame. -/
def lowestFree (region : FrameRegion) : Option Nat :=
  if region.used = region.total then none else region.bitmap.firstUnset

def take (region : FrameRegion) (bit : Nat) : FrameRegion :=
  { region with bitmap := region.bitmap.insert bit, used := region.used + 1 }

def release (region : FrameRegion) (bit : Nat) : FrameRegion :=
  { region with bitmap := region.bitmap.erase bit, used := region.used - 1 }

/-- Sets `count` bits from `bit` on, and adds to `fresh` how many were clear. -/
def insertRun (map : Bitmap) (bit fresh : Nat) : Nat → Bitmap × Nat
  | 0 => (map, fresh)
  | count + 1 =>
    if map.contains bit then insertRun map (bit + 1) fresh count
    else insertRun (map.insert bit) (bit + 1) (fresh + 1) count

/-- Reserves the frames that share a byte with the addresses from `start` up to `stop`, and
says how many were free. -/
def reserve (region : FrameRegion) (start stop : Nat) : FrameRegion × Nat :=
  let low := max start region.firstByte
  let high := min stop (region.stop * pageBytes)
  if high ≤ low then (region, 0)
  else
    let firstBit := low / pageBytes - region.first
    let lastBit := (high - 1) / pageBytes - region.first
    let (bitmap, fresh) := insertRun region.bitmap firstBit 0 (lastBit + 1 - firstBit)
    ({ region with
        bitmap
        used := region.used + fresh
        reserved := region.reserved + fresh }, fresh)

def describe (region : FrameRegion) : String :=
  "BitmapRegion \x7b kind: " ++ region.kind.name ++
    ", first_addr: PA(" ++ Text.hexAddress region.firstByte ++
    "), last_addr: PA(" ++ Text.hexAddress region.lastByte ++
    "), total_blocks: " ++ toString region.total ++
    ", reserved_blocks: " ++ toString region.reserved ++
    ", used_blocks: " ++ toString region.used ++
    ", next: " ++ toString region.next ++ ", .. \x7d"

end FrameRegion

end BootMemory
