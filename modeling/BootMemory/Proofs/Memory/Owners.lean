import BootMemory.KernelMemory
import BootMemory.Proofs.Frames.Operations
import BootMemory.Proofs.Paging.View

/-!
# Owners of frames

A used frame of a kernel memory belongs to somebody. It was used from the start, it was
reserved, a caller took it from the frame allocator, or the address space has it: for a page
that is mapped, or for the table of a slot. `Divided` says that every used frame has exactly one
owner. A frame that gets used finds an owner, and a frame that is given back loses its owner;
these are the only two ways in which ownership changes (`Divided.give`, `Divided.take`).

`KernelMemory.Owned` is what all operations keep: a sound allocator, sound tables, one owner for
every used frame, and a directory that is not among the free frames.
-/

set_option autoImplicit false

namespace BootMemory

open TableIndex (recursive)

/-- Whom a frame may belong to. -/
inductive Owner where
  /-- It was used from the start. -/
  | initial
  /-- It was free when it was reserved. -/
  | reservation
  /-- It was taken from the allocator and not given back. -/
  | caller
  /-- A page is mapped to it. -/
  | page (page : VirtPage .small)
  /-- It is the table of a directory slot. -/
  | table (slot : TableIndex)
  deriving DecidableEq

/-- The frames that do not belong to the address space. -/
structure Outside where
  initial : Finset Nat
  reserved : Finset Nat
  raw : Finset Nat

/-- Whether a frame belongs to somebody. -/
def Owns (outside : Outside) (mmu : SoftMmu) : Owner → Nat → Prop
  | .initial, frame => frame ∈ outside.initial
  | .reservation, frame => frame ∈ outside.reserved
  | .caller, frame => frame ∈ outside.raw
  | .page page, frame => ∃ target, mmu.view page = some target ∧ frame = target.frame.index
  | .table slot, frame => slot ≠ recursive ∧ (mmu.slotEntry slot).present = true ∧
      frame = (mmu.slotEntry slot).frame.index

/-! ## One owner for every frame -/

/-- The used frames are those that belong to somebody, and each belongs to one owner. -/
structure Divided (used : Finset Nat) (owns : Owner → Nat → Prop) : Prop where
  used_iff : ∀ frame, frame ∈ used ↔ ∃ owner, owns owner frame
  unique : ∀ {owner other : Owner} {frame : Nat}, owns owner frame → owns other frame →
    owner = other

namespace Divided

variable {used given : Finset Nat} {owns owns' : Owner → Nat → Prop} {owner : Owner} {frame : Nat}

/-- A frame that belongs to somebody is used. -/
theorem mem (h : Divided used owns) (howner : owns owner frame) : frame ∈ used :=
  (h.used_iff frame).mpr ⟨owner, howner⟩

/-- What belongs to whom may be said in another way. -/
theorem congr (h : Divided used owns)
    (howns : ∀ other frame, owns' other frame ↔ owns other frame) : Divided used owns' := by
  obtain rfl : owns' = owns := by
    funext other frame
    exact propext (howns other frame)
  exact h

/-- An owner may be given frames that are not used. -/
theorem give (h : Divided used owns) (owner : Owner) (hfree : Disjoint used given)
    (howns : ∀ other frame, owns' other frame ↔ owns other frame ∨ other = owner ∧ frame ∈ given) :
    Divided (used ∪ given) owns' := by
  constructor
  · intro frame
    rw [Finset.mem_union, h.used_iff]
    constructor
    · rintro (⟨other, hother⟩ | hgiven)
      · exact ⟨other, (howns other frame).mpr (.inl hother)⟩
      · exact ⟨owner, (howns owner frame).mpr (.inr ⟨rfl, hgiven⟩)⟩
    · rintro ⟨other, hother⟩
      exact ((howns other frame).mp hother).imp (fun hold => ⟨other, hold⟩) And.right
  · intro first second frame hfirst hsecond
    have hnot : ∀ {other}, owns other frame → frame ∉ given := fun hother =>
      Finset.disjoint_left.mp hfree (h.mem hother)
    rcases (howns first frame).mp hfirst with hfirst | ⟨rfl, hgiven⟩
    · rcases (howns second frame).mp hsecond with hsecond | ⟨-, hgiven⟩
      · exact h.unique hfirst hsecond
      · exact absurd hgiven (hnot hfirst)
    · rcases (howns second frame).mp hsecond with hsecond | ⟨rfl, -⟩
      · exact absurd hgiven (hnot hsecond)
      · rfl

/-- An owner may be given a frame that is not used. -/
theorem give_frame (h : Divided used owns) (owner : Owner) (hfree : frame ∉ used)
    (howns : ∀ other number,
      owns' other number ↔ owns other number ∨ other = owner ∧ number = frame) :
    Divided (insert frame used) owns' := by
  rw [Finset.insert_eq, Finset.union_comm]
  refine h.give owner (Finset.disjoint_singleton_right.mpr hfree) fun other number => ?_
  rw [howns, Finset.mem_singleton]

/-- An owner may give a frame back. -/
theorem take (h : Divided used owns) (howner : owns owner frame) (howns : ∀ other number,
      owns' other number ↔ owns other number ∧ ¬ (other = owner ∧ number = frame)) :
    Divided (used.erase frame) owns' := by
  constructor
  · intro number
    rw [Finset.mem_erase, h.used_iff]
    constructor
    · rintro ⟨hne, other, hother⟩
      exact ⟨other, (howns other number).mpr ⟨hother, fun hsame => hne hsame.2⟩⟩
    · rintro ⟨other, hother⟩
      obtain ⟨hold, hnot⟩ := (howns other number).mp hother
      refine ⟨?_, other, hold⟩
      rintro rfl
      exact hnot ⟨h.unique hold howner, rfl⟩
  · intro first second number hfirst hsecond
    exact h.unique ((howns first number).mp hfirst).1 ((howns second number).mp hsecond).1

end Divided

/-! ## Frames of the address space -/

section Space

open SoftMmu

variable {outside : Outside} {mmu next : SoftMmu} {page : VirtPage .small} {target : Mapping}

/-- Tables that show the same pages have their frames in the same places. -/
theorem owns_of_view_eq (h : mmu.Sound) (h' : next.Sound) (hview : next.view = mmu.view)
    (steady : Steady mmu next) (owner : Owner) (frame : Nat) :
    Owns outside next owner frame ↔ Owns outside mmu owner frame := by
  cases owner with
  | initial | reservation | caller => exact Iff.rfl
  | page page => simp only [Owns, hview]
  | table slot =>
    have hpresent := h.present_eq_of_view_eq h' hview slot
    simp only [Owns, hpresent]
    refine and_congr_right fun _ => and_congr_right fun hthere => ?_
    rw [steady.frame_eq hthere (hpresent.trans hthere)]

/-- A page that gets mapped owns its frame from then on, and its slot the frame of a table, if it
had none. -/
theorem owns_of_map (outside : Outside) (h : mmu.Sound) (h' : next.Sound)
    (hview : next.view = Function.update mmu.view page (some target))
    (hfree : mmu.view page = none) (steady : Steady mmu next) (owner : Owner) (frame : Nat) :
    Owns outside next owner frame ↔ (Owns outside mmu owner frame ∨
        owner = .page page ∧ frame = target.frame.index) ∨
      owner = .table page.slot ∧ (mmu.slotEntry page.slot).present = false ∧
        frame = (next.slotEntry page.slot).frame.index := by
  obtain ⟨hslot, hpresent⟩ : page.slot ≠ recursive ∧ (next.slotEntry page.slot).present = true :=
    slot_of_view_eq_some (by rw [hview, Function.update_self])
  cases owner with
  | initial | reservation | caller => simp [Owns]
  | page other =>
    by_cases hother : other = page
    · subst hother
      simp [Owns, hview, hfree]
    · simp [Owns, hview, hother]
  | table slot =>
    by_cases hsame : slot = page.slot
    · subst hsame
      cases hbefore : (mmu.slotEntry page.slot).present with
      | true => simp [Owns, hslot, hpresent, hbefore, steady.frame_eq hbefore hpresent]
      | false => simp [Owns, hslot, hpresent, hbefore]
    · simp only [Owns, reduceCtorEq, false_and, or_false, Owner.table.injEq, hsame]
      refine and_congr_right fun hslot' => ?_
      have hsamepresent := present_of_update h h' hview hslot' hsame
      rw [hsamepresent]
      refine and_congr_right fun hthere => ?_
      rw [steady.frame_eq hthere (hsamepresent.trans hthere)]

/-- A page that gets unmapped loses its frame, and its slot the frame of the table, if it has none
then. -/
theorem owns_of_unmap (outside : Outside) (h : mmu.Sound) (h' : next.Sound)
    (hview : next.view = Function.update mmu.view page none)
    (hmapped : mmu.view page = some target) (steady : Steady mmu next) (owner : Owner)
    (frame : Nat) :
    Owns outside next owner frame ↔ (Owns outside mmu owner frame ∧
        ¬ (owner = .page page ∧ frame = target.frame.index)) ∧
      ¬ (owner = .table page.slot ∧ (next.slotEntry page.slot).present = false ∧
        frame = (mmu.slotEntry page.slot).frame.index) := by
  obtain ⟨hslot, hpresent⟩ := slot_of_view_eq_some hmapped
  cases owner with
  | initial | reservation | caller => simp [Owns]
  | page other =>
    by_cases hother : other = page
    · subst hother
      simp [Owns, hview, hmapped]
    · simp [Owns, hview, hother]
  | table slot =>
    by_cases hsame : slot = page.slot
    · subst hsame
      cases hafter : (next.slotEntry page.slot).present with
      | true => simp [Owns, hslot, hpresent, hafter, steady.frame_eq hpresent hafter]
      | false => simp [Owns, hslot, hpresent, hafter]
    · simp only [Owns, reduceCtorEq, false_and, not_false_eq_true, and_true, Owner.table.injEq,
        hsame]
      refine and_congr_right fun hslot' => ?_
      have hsamepresent := present_of_update h h' hview hslot' hsame
      rw [hsamepresent]
      refine and_congr_right fun hthere => ?_
      rw [steady.frame_eq hthere (hsamepresent.trans hthere)]

end Space

/-! ## Kernel memory -/

namespace KernelMemory

open FrameAllocator

/-- What the operations of a kernel memory keep, with the frames that belong to somebody else. -/
structure Owned (outside : Outside) (memory : KernelMemory SoftMmu) : Prop where
  frames : memory.frames.Sound
  space : memory.space.Sound
  divided : Divided memory.frames.unavailable (Owns outside memory.space)
  /-- The directory was used from the start, or is none of the allocator's frames. -/
  directory : memory.space.directory.index ∈ memory.frames.tracked →
    memory.space.directory.index ∈ outside.initial

namespace Owned

variable {outside : Outside} {memory : KernelMemory SoftMmu} {frame : Frame}
  {frames : FrameAllocator}

/-- Who has nothing but the frames that are used from the start. -/
theorem start {frames : FrameAllocator} {mmu : SoftMmu} (hframes : frames.Sound)
    (hblank : mmu.Blank) (hdirectory : frames.isUsed mmu.directory = true) :
    Owned ⟨frames.unavailable, ∅, ∅⟩ ⟨frames, mmu⟩ := by
  have howner : ∀ {owner : Owner} {number : Nat},
      Owns ⟨frames.unavailable, ∅, ∅⟩ mmu owner number →
        owner = .initial ∧ number ∈ frames.unavailable := by
    intro owner number howns
    cases owner with
    | initial => exact ⟨rfl, howns⟩
    | reservation | caller => exact absurd howns (Finset.notMem_empty _)
    | page page =>
      obtain ⟨target, htarget, -⟩ := howns
      rw [hblank.view_eq] at htarget
      exact nomatch htarget
    | table slot => exact absurd ((hblank.present_iff slot).mp howns.2.1) howns.1
  refine ⟨hframes, hblank.sound, ⟨fun number => ⟨fun hused => ⟨.initial, hused⟩, ?_⟩, ?_⟩, ?_⟩
  · rintro ⟨owner, howns⟩
    exact (howner howns).2
  · intro first second number hfirst hsecond
    rw [(howner hfirst).1, (howner hsecond).1]
  · intro htracked
    exact ((hframes.isUsed_iff _).mp hdirectory).resolve_left (not_not_intro htracked)

/-- A frame that is taken from the allocator belongs to the caller. -/
theorem allocate (h : Owned outside memory)
    (hallocate : memory.frames.allocate = some (frame, frames)) :
    Owned { outside with raw := insert frame.index outside.raw } { memory with frames } ∧
      frames.tracked = memory.frames.tracked := by
  rcases h.frames.allocate with ⟨-, hnone⟩ | ⟨frame', other, hsome, out⟩
  · rw [hnone] at hallocate
    exact nomatch hallocate
  · rw [hsome] at hallocate
    cases hallocate
    have hfree := (Finset.mem_sdiff.mp out.free).2
    refine ⟨⟨out.becomes.sound, h.space, ?_, ?_⟩, out.becomes.tracked_eq⟩
    · show Divided frames.unavailable _
      rw [out.becomes.unavailable_eq]
      refine h.divided.give_frame .caller hfree ?_
      intro owner number
      cases owner <;> simp [Owns, or_comm]
    · show _ ∈ frames.tracked → _
      rw [out.becomes.tracked_eq]
      exact h.directory

/-- A frame that a caller has taken can be given back. -/
theorem free (h : Owned outside memory) (hraw : frame.index ∈ outside.raw) :
    ∃ frames, (memory.frames.free frame).outcome = .ok frames ∧
      Owned { outside with raw := outside.raw.erase frame.index } { memory with frames } ∧
      frames.tracked = memory.frames.tracked := by
  have howner : Owns outside memory.space .caller frame.index := hraw
  obtain ⟨frames, houtcome, becomes⟩ := h.frames.free (h.divided.mem howner)
  refine ⟨frames, houtcome, ⟨becomes.sound, h.space, ?_, ?_⟩, becomes.tracked_eq⟩
  · show Divided frames.unavailable _
    rw [becomes.unavailable_eq]
    refine h.divided.take howner ?_
    intro owner number
    cases owner <;> simp [Owns, and_comm]
  · show _ ∈ frames.tracked → _
    rw [becomes.tracked_eq]
    exact h.directory

/-- Frames that get used because they are reserved belong to the reservation. -/
theorem reserveRange (h : Owned outside memory) (start stop : Nat) :
    Owned { outside with
        reserved := outside.reserved ∪
          ((memory.frames.reserveRange start stop).1.unavailable \ memory.frames.unavailable) }
      { memory with frames := (memory.frames.reserveRange start stop).1 } ∧
      (memory.frames.reserveRange start stop).1.tracked = memory.frames.tracked := by
  obtain ⟨-, becomes⟩ := h.frames.reserveRange start stop
  refine ⟨⟨becomes.sound, h.space, ?_, ?_⟩, becomes.tracked_eq⟩
  · have hsubset : memory.frames.unavailable ⊆
        (memory.frames.reserveRange start stop).1.unavailable := by
      rw [becomes.unavailable_eq]
      exact Finset.subset_union_left
    have hdivided : Divided (memory.frames.unavailable ∪
          ((memory.frames.reserveRange start stop).1.unavailable \ memory.frames.unavailable))
        (Owns { outside with
          reserved := outside.reserved ∪ ((memory.frames.reserveRange start stop).1.unavailable \
            memory.frames.unavailable) } memory.space) := by
      refine h.divided.give .reservation Finset.disjoint_sdiff ?_
      intro owner number
      cases owner <;> simp [Owns]
    rwa [Finset.union_sdiff_of_subset hsubset] at hdivided
  · show _ ∈ (memory.frames.reserveRange start stop).1.tracked → _
    rw [becomes.tracked_eq]
    exact h.directory

end Owned

end KernelMemory

end BootMemory
