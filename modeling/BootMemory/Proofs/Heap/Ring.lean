import BootMemory.Heap.FreeList
import BootMemory.Proofs.Heap.Span
import BootMemory.Proofs.Outcome
import Mathlib.Algebra.BigOperators.Group.List.Basic

/-!
# The ring of free blocks

`Heap.FreeBlocks heap free` says that the free blocks of a heap are the spans `free`: the
links lead from the sentinel through their headers and back, every header holds its size,
the spans ascend with live units in between, the cursor stands on one of them or on the
sentinel, and the counter of free units is their sum.

The ring is seen as a list. `Heap.Leads` follows the links of a list of headers one by one
and ends at a given index, so a ring is a list of headers that starts with the sentinel and
leads to it. A list can be cut anywhere (`leads_append`), and a part of it whose links are
untouched still leads where it did (`Leads.congr`): an edit of the ring is a statement about
the few headers that it writes.
-/

set_option autoImplicit false

namespace BootMemory.Heap

open BootMemory.Span

variable {γ : Type} {heap : Heap γ} {free : List Span}

/-- The sentinel as a span without units. -/
abbrev sentinelSpan : Span := (sentinel, 0)

/-- The link at an index. -/
def linkOf (heap : Heap γ) (index : Nat) : Nat :=
  if index = sentinel then heap.first else (heap.arena.get index).link

/-- The size at an index; the sentinel has none. -/
def sizeOf (heap : Heap γ) (index : Nat) : Nat :=
  if index = sentinel then 0 else (heap.arena.get index).size

/-- Whether there is a header at an index: the sentinel, or a unit of the arena. -/
def Within (heap : Heap γ) (index : Nat) : Prop := index = sentinel ∨ index < heap.arenaUnits

/-- The heap with another header at an index, whether or not the index is within. -/
def put (heap : Heap γ) (index : Nat) (unit : HeapUnit) : Heap γ :=
  if index = sentinel then { heap with first := unit.link }
  else { heap with arena := heap.arena.set index unit }

/-- A header within the heap is read without a fault. -/
theorem node_eq {index : Nat} (h : heap.Within index) :
    heap.node index = .ok ⟨heap.linkOf index, heap.sizeOf index⟩ := by
  unfold node linkOf sizeOf
  rcases h with rfl | h
  · simp
  · split_ifs <;> rfl

/-- A header within the heap is written without a fault. -/
theorem setNode_eq {index : Nat} (unit : HeapUnit) (h : heap.Within index) :
    heap.setNode index unit = .ok (heap.put index unit) := by
  unfold setNode put
  rcases h with rfl | h
  · simp
  · split_ifs <;> rfl

/-- The link of a header within the heap is written without a fault, and the size stays. -/
theorem setLink_eq {index : Nat} (link : Nat) (h : heap.Within index) :
    heap.setLink index link = .ok (heap.put index ⟨link, heap.sizeOf index⟩) := by
  rw [setLink, node_eq h, Outcome.ok_bind, setNode_eq _ h]

section Put

variable (heap) (index : Nat) (unit : HeapUnit)

/-- Writing a header does not change the length of the arena. -/
@[simp] theorem arenaUnits_put : (heap.put index unit).arenaUnits = heap.arenaUnits := by
  unfold put
  split_ifs <;> rfl

/-- Writing a header does not change the counter of free units. -/
@[simp] theorem freeUnits_put : (heap.put index unit).freeUnits = heap.freeUnits := by
  unfold put
  split_ifs <;> rfl

/-- Writing a header does not change the strategy. -/
@[simp] theorem growth_put : (heap.put index unit).growth = heap.growth := by
  unfold put
  split_ifs <;> rfl

/-- Writing a header does not change which headers are within. -/
@[simp] theorem within_put (other : Nat) :
    (heap.put index unit).Within other ↔ heap.Within other := by
  unfold Within
  rw [arenaUnits_put]

/-- Writing a header changes the link at its index and no other. -/
theorem linkOf_put (other : Nat) :
    (heap.put index unit).linkOf other =
      if other = index then unit.link else heap.linkOf other := by
  unfold put linkOf
  by_cases hi : index = sentinel
  · by_cases ho : other = sentinel
    · simp [hi, ho]
    · simp [hi, ho]
  · by_cases ho : other = sentinel
    · subst ho
      simp [hi, Ne.symm hi]
    · simp only [hi, ho, ↓reduceIte, Arena.get_set]
      split_ifs <;> rfl

/-- Writing a header changes no size at another index. -/
theorem sizeOf_put_of_ne {other : Nat} (h : other ≠ index) :
    (heap.put index unit).sizeOf other = heap.sizeOf other := by
  unfold put sizeOf
  split_ifs
  · rfl
  · rfl
  · simp only [Arena.get_set, if_neg h]

/-- A header that was written, unless it is the sentinel, has the size that was written. -/
theorem sizeOf_put_self (h : index ≠ sentinel) :
    (heap.put index unit).sizeOf index = unit.size := by
  unfold put sizeOf
  rw [if_neg h, if_neg h, Arena.get_set, if_pos rfl]

/-- Writing a link keeps all sizes. -/
theorem sizeOf_put_link (link other : Nat) :
    (heap.put index ⟨link, heap.sizeOf index⟩).sizeOf other = heap.sizeOf other := by
  by_cases h : other = index
  · subst h
    unfold put sizeOf
    split_ifs with hs
    · rfl
    · rw [Arena.get_set, if_pos rfl]
  · exact sizeOf_put_of_ne heap index _ h

/-- Only the unit at the index is written. -/
theorem get_put_of_ne {other : Nat} (h : other ≠ index) :
    (heap.put index unit).arena.get other = heap.arena.get other := by
  unfold put
  split_ifs
  · rfl
  · rw [Arena.get_set, if_neg h]

end Put

/-! ## Following the links -/

/-- The index of the first span of a list, or an index to go to if there is none. -/
def entry (spans : List Span) (stop : Nat) : Nat :=
  match spans with
  | [] => stop
  | span :: _ => span.1

/-- Without spans there is only the index to go to. -/
@[simp] theorem entry_nil (stop : Nat) : entry [] stop = stop := rfl

/-- The first span of a list says where the list is entered. -/
@[simp] theorem entry_cons (span : Span) (rest : List Span) (stop : Nat) :
    entry (span :: rest) stop = span.1 := rfl

/-- The links lead from each span of a list to the next one, and from the last to `stop`. -/
def Leads (heap : Heap γ) (stop : Nat) : List Span → Prop
  | [] => True
  | span :: rest => heap.linkOf span.1 = entry rest stop ∧ Leads heap stop rest

/-- A list leads on exactly if its first part leads to its second part, and the second part
leads on. -/
theorem leads_append (first second : List Span) (stop : Nat) :
    heap.Leads stop (first ++ second) ↔
      heap.Leads (entry second stop) first ∧ heap.Leads stop second := by
  induction first with
  | nil => simp [Leads]
  | cons span rest ih =>
    have hentry : entry (rest ++ second) stop = entry rest (entry second stop) := by
      cases rest <;> rfl
    simp only [List.cons_append, Leads, hentry, ih, and_assoc]

/-- A list whose links are untouched leads where it did. -/
theorem Leads.congr {other : Heap γ} {stop : Nat} {spans : List Span}
    (h : heap.Leads stop spans)
    (same : ∀ span ∈ spans, other.linkOf span.1 = heap.linkOf span.1) :
    other.Leads stop spans := by
  induction spans with
  | nil => trivial
  | cons span rest ih =>
    obtain ⟨hspan, hrest⟩ := List.forall_mem_cons.mp same
    exact ⟨hspan.trans h.1, ih h.2 hrest⟩

/-- A piece of a list may be replaced if the new piece starts where the old one did and leads
on to the same place. -/
theorem Leads.splice {other : Heap γ} {stop : Nat} {before after : List Span}
    {first : Span} (first' : Span) (old new : List Span)
    (h : heap.Leads stop (before ++ first :: (old ++ after)))
    (hfirst : first'.1 = first.1)
    (hbefore : ∀ span ∈ before, other.linkOf span.1 = heap.linkOf span.1)
    (hnew : other.Leads (entry after stop) (first' :: new))
    (hafter : ∀ span ∈ after, other.linkOf span.1 = heap.linkOf span.1) :
    other.Leads stop (before ++ first' :: (new ++ after)) := by
  rw [leads_append] at h
  obtain ⟨hto, hfrom⟩ := h
  rw [← List.cons_append, leads_append] at hfrom
  rw [leads_append, ← List.cons_append, leads_append]
  refine ⟨?_, hnew, hfrom.2.congr hafter⟩
  have hentry : entry (first' :: new ++ after) stop = entry (first :: (old ++ after)) stop := hfirst
  rw [hentry]
  exact hto.congr hbefore

/-- Two heaps have the same memory outside some spans. -/
def AgreeOutside (spans : List Span) (heap other : Heap γ) : Prop :=
  ∀ unit, (∀ span ∈ spans, covers unit span = false) → other.arena.get unit = heap.arena.get unit

/-! ## The free blocks of a heap -/

/-- The free blocks of a heap are the spans of a list. -/
structure FreeBlocks (heap : Heap γ) (free : List Span) : Prop where
  /-- The links lead once around. -/
  leads : heap.Leads sentinel (sentinelSpan :: free)
  /-- Every header holds the size of its block. -/
  sizes : ∀ span ∈ free, heap.sizeOf span.1 = span.2
  /-- The blocks ascend, with at least one unit between two of them. -/
  apart : free.Pairwise Apart
  /-- Every block has units, all of them in the arena. -/
  inside : ∀ span ∈ free, 0 < span.2 ∧ span.1 + span.2 ≤ heap.arenaUnits
  /-- The cursor stands on a free block or on the sentinel. -/
  cursor : heap.cursor ∈ (sentinelSpan :: free).map Prod.fst
  /-- The counter of free units is exact. -/
  counted : heap.freeUnits = (free.map Prod.snd).sum
  /-- The arena is so small that the address of a unit fits a word. -/
  bounded : heap.arenaUnits ≤ 2 ^ 60

namespace FreeBlocks

/-- The sentinel is above every unit of the arena. -/
theorem lt_sentinel_of_lt (h : heap.FreeBlocks free) {unit : Nat} (hlt : unit < heap.arenaUnits) :
    unit < sentinel := by
  have := h.bounded
  unfold sentinel
  omega

/-- The headers of free blocks are below the sentinel. -/
theorem lt_sentinel (h : heap.FreeBlocks free) {span : Span} (hm : span ∈ free) :
    span.1 < sentinel := by
  have := h.inside span hm
  exact h.lt_sentinel_of_lt (by omega)

/-- No free block has its header at the sentinel. -/
theorem ne_sentinel (h : heap.FreeBlocks free) {span : Span} (hm : span ∈ free) :
    span.1 ≠ sentinel := Nat.ne_of_lt (h.lt_sentinel hm)

/-- Every header of the ring is within the heap. -/
theorem within (h : heap.FreeBlocks free) {span : Span} (hm : span ∈ sentinelSpan :: free) :
    heap.Within span.1 := by
  rcases List.mem_cons.mp hm with rfl | hm
  · exact .inl rfl
  · have := h.inside span hm
    right
    omega

/-- Every header of the ring holds the size of its block, the sentinel none. -/
theorem sizeOf_eq (h : heap.FreeBlocks free) {span : Span} (hm : span ∈ sentinelSpan :: free) :
    heap.sizeOf span.1 = span.2 := by
  rcases List.mem_cons.mp hm with rfl | hm
  · exact if_pos rfl
  · exact h.sizes span hm

/-- Every header of the ring is read without a fault. -/
theorem node_eq (h : heap.FreeBlocks free) {span : Span} (hm : span ∈ sentinelSpan :: free) :
    heap.node span.1 = .ok ⟨heap.linkOf span.1, span.2⟩ := by
  rw [Heap.node_eq (h.within hm), h.sizeOf_eq hm]

/-- Every header of the ring leads to the one that follows it, and the last to the
sentinel. -/
theorem linkOf_eq (h : heap.FreeBlocks free) (before : List Span) (span : Span)
    (after : List Span) (he : sentinelSpan :: free = before ++ span :: after) :
    heap.linkOf span.1 = entry after sentinel := by
  have hl := h.leads
  rw [he, leads_append] at hl
  exact hl.2.1

/-- Headers of the ring are told apart by their indices. -/
theorem eq_of_fst_eq (h : heap.FreeBlocks free) {a b : Span} (ha : a ∈ sentinelSpan :: free)
    (hb : b ∈ sentinelSpan :: free) (hab : a.1 = b.1) : a = b := by
  have hsa := h.sizeOf_eq ha
  have hsb := h.sizeOf_eq hb
  rw [hab, hsb] at hsa
  exact Prod.ext hab hsa.symm

/-- No two headers of the ring are at one index. -/
theorem pairwise_ne (h : heap.FreeBlocks free) :
    (sentinelSpan :: free).Pairwise fun a b => a.1 ≠ b.1 := by
  refine List.pairwise_cons.mpr ⟨fun span hm => (h.ne_sentinel hm).symm, ?_⟩
  refine h.apart.imp fun hab => ?_
  unfold Apart at hab
  omega

/-- The other headers of the ring are on the ring, at other indices. -/
theorem mem_others (h : heap.FreeBlocks free) {front behind : List Span} {span : Span}
    (he : sentinelSpan :: free = front ++ span :: behind) {other : Span}
    (hm : other ∈ front ++ behind) : other ∈ sentinelSpan :: free ∧ other.1 ≠ span.1 := by
  have hne := h.pairwise_ne
  rw [he] at hne ⊢
  obtain ⟨-, hbehind, hcross⟩ := List.pairwise_append.mp hne
  rcases List.mem_append.mp hm with hm | hm
  · exact ⟨List.mem_append_left _ hm, hcross other hm span List.mem_cons_self⟩
  · exact ⟨List.mem_append_right _ (List.mem_cons_of_mem _ hm),
      ((List.pairwise_cons.mp hbehind).1 other hm).symm⟩

/-- A piece of the ring may be replaced in memory if the new piece starts where the old one did,
leads on to the same place and has its sizes, and all other headers are read as before. -/
theorem spliced (h : heap.FreeBlocks free) {other : Heap γ} {free' front above : List Span}
    {first first' : Span} {old new : List Span}
    (he : sentinelSpan :: free = front ++ first :: (old ++ above))
    (he' : sentinelSpan :: free' = front ++ first' :: (new ++ above)) (hfirst : first'.1 = first.1)
    (hleads : other.Leads (entry above sentinel) (first' :: new))
    (hsizes : ∀ span ∈ first' :: new, other.sizeOf span.1 = span.2)
    (hsame : ∀ span ∈ front ++ above, other.linkOf span.1 = heap.linkOf span.1 ∧
      other.sizeOf span.1 = heap.sizeOf span.1) :
    other.Leads sentinel (sentinelSpan :: free') ∧
      ∀ span ∈ free', other.sizeOf span.1 = span.2 := by
  constructor
  · have hl := h.leads
    rw [he] at hl
    rw [he']
    refine Leads.splice first' old new hl hfirst ?_ hleads ?_
    · exact fun span hm => (hsame span (List.mem_append_left _ hm)).1
    · exact fun span hm => (hsame span (List.mem_append_right _ hm)).1
  · intro span hm
    have hkept : ∀ kept ∈ front ++ above, other.sizeOf kept.1 = kept.2 := by
      intro kept hm
      rw [(hsame kept hm).2]
      apply h.sizeOf_eq
      rw [he]
      rcases List.mem_append.mp hm with hm | hm
      · exact List.mem_append_left _ hm
      · simp [hm]
    have hring := List.mem_cons_of_mem sentinelSpan hm
    rw [he', List.mem_append, ← List.cons_append, List.mem_append] at hring
    rcases hring with hm | hm | hm
    · exact hkept span (List.mem_append_left _ hm)
    · exact hsizes span hm
    · exact hkept span (List.mem_append_right _ hm)

/-- What stands behind a header of the ring is the upper part of the free blocks. -/
theorem exists_lower {before : List Span} {span : Span} {after : List Span}
    (he : sentinelSpan :: free = before ++ span :: after) :
    ∃ lower, free = lower ++ after ∧ sentinelSpan :: lower = before ++ [span] := by
  cases before with
  | nil =>
    obtain ⟨rfl, rfl⟩ := List.cons.inj he
    exact ⟨[], rfl, rfl⟩
  | cons first rest =>
    obtain ⟨rfl, rfl⟩ := List.cons.inj he
    exact ⟨rest ++ [span], by simp, rfl⟩

/-- The cursor stands on a header of the ring. -/
theorem exists_cursor (h : heap.FreeBlocks free) :
    ∃ span ∈ sentinelSpan :: free, heap.cursor = span.1 := by
  obtain ⟨span, hm, hs⟩ := List.mem_map.mp h.cursor
  exact ⟨span, hm, hs.symm⟩

/-- Writing where a header of the ring is leaves everything outside the free blocks as it
was. -/
theorem agreeOutside_put (h : heap.FreeBlocks free) (other : Heap γ) {span : Span}
    (hm : span ∈ sentinelSpan :: free) (unit : HeapUnit) :
    AgreeOutside free other (other.put span.1 unit) := by
  intro index hout
  rcases List.mem_cons.mp hm with rfl | hm
  · unfold put
    rw [if_pos rfl]
  · apply get_put_of_ne other span.1 unit
    intro hindex
    have hcover := hout span hm
    have := (h.inside span hm).1
    rw [hindex, ← Bool.not_eq_true, covers_iff] at hcover
    omega

/-- Any other free block lies apart from a free block, on one side or the other. -/
theorem apart_or_apart (h : heap.FreeBlocks free) {lower : List Span} {span : Span}
    {upper : List Span} (he : free = lower ++ span :: upper) {other : Span}
    (hm : other ∈ lower ++ upper) : Apart other span ∨ Apart span other := by
  have hp := h.apart
  rw [he] at hp
  obtain ⟨-, hspan, hcross⟩ := List.pairwise_append.mp hp
  rcases List.mem_append.mp hm with hm | hm
  · exact .inl (hcross other hm span List.mem_cons_self)
  · exact .inr ((List.pairwise_cons.mp hspan).1 other hm)

/-- The ring can be read from any of its headers on: first the headers behind it, and then those in
front of it lead back to it. -/
theorem exists_lap (h : heap.FreeBlocks free) {start : Span}
    (hm : start ∈ sentinelSpan :: free) :
    ∃ front behind, sentinelSpan :: free = front ++ start :: behind ∧
      (start :: (behind ++ front)).Perm (sentinelSpan :: free) ∧
      heap.Leads start.1 (start :: (behind ++ front)) := by
  obtain ⟨front, behind, he⟩ := List.append_of_mem hm
  refine ⟨front, behind, he, ?_, ?_⟩
  · rw [he]
    exact @List.perm_append_comm _ (start :: behind) front
  · have hl := h.leads
    rw [he, leads_append] at hl
    rw [← List.cons_append, leads_append]
    cases front with
    | nil =>
      obtain rfl : start = sentinelSpan := (List.cons.inj he).1.symm
      exact ⟨hl.2, trivial⟩
    | cons first rest =>
      obtain ⟨rfl, -⟩ := List.cons.inj he
      exact ⟨hl.2, hl.1⟩

/-- Free blocks have units of their own, so they have at most as many as the arena. -/
theorem sum_le (h : heap.FreeBlocks free) : (free.map Prod.snd).sum ≤ heap.arenaUnits := by
  suffices hs : ∀ (spans : List Span) (low : Nat), low ≤ heap.arenaUnits →
      spans.Pairwise Apart → (∀ span ∈ spans, span.1 + span.2 ≤ heap.arenaUnits) →
      (∀ span ∈ spans, low ≤ span.1) → low + (spans.map Prod.snd).sum ≤ heap.arenaUnits by
    simpa using hs free 0 (Nat.zero_le _) h.apart (fun span hm => (h.inside span hm).2)
      (fun _ _ => Nat.zero_le _)
  intro spans
  induction spans with
  | nil =>
    intro low hlow _ _ _
    simpa using hlow
  | cons span rest ih =>
    intro low _ hp hin hge
    obtain ⟨hspan, hrest⟩ := List.pairwise_cons.mp hp
    obtain ⟨hspanin, hrestin⟩ := List.forall_mem_cons.mp hin
    have hlow := hge span List.mem_cons_self
    have := ih (low + span.2) (by omega) hrest hrestin fun other hmem => by
      have := hspan other hmem
      unfold Apart at this
      omega
    rw [List.map_cons, List.sum_cons]
    omega

/-- There are at most as many free blocks as units. -/
theorem length_le (h : heap.FreeBlocks free) : free.length ≤ heap.arenaUnits := by
  have hone : ∀ size ∈ free.map Prod.snd, 1 ≤ size := by
    intro size hm
    obtain ⟨span, hspan, rfl⟩ := List.mem_map.mp hm
    exact (h.inside span hspan).1
  have := List.length_le_sum_of_one_le _ hone
  have := h.sum_le
  rw [List.length_map] at *
  omega

/-! ### The order of the ring -/

/-- A free block leads to an index above its own. -/
theorem lt_linkOf (h : heap.FreeBlocks free) {span : Span} (hm : span ∈ free) :
    span.1 < heap.linkOf span.1 := by
  obtain ⟨before, after, rfl⟩ := List.append_of_mem hm
  rw [h.linkOf_eq (sentinelSpan :: before) span after rfl]
  cases after with
  | nil => exact h.lt_sentinel hm
  | cons next rest =>
    have := (List.pairwise_append.mp h.apart).2.1
    have := (List.pairwise_cons.mp this).1 next List.mem_cons_self
    unfold Apart at this
    simp only [entry]
    omega

/-- No header leads past a free block that is behind it on the ring. -/
theorem linkOf_le (h : heap.FreeBlocks free) {front behind : List Span} {node span : Span}
    (he : sentinelSpan :: free = front ++ node :: behind) (hm : span ∈ behind) :
    heap.linkOf node.1 ≤ span.1 := by
  rw [h.linkOf_eq front node behind he]
  obtain ⟨lower, hfree, -⟩ := exists_lower he
  have hapart := h.apart
  rw [hfree] at hapart
  cases behind with
  | nil => exact nomatch hm
  | cons next rest =>
    rcases List.mem_cons.mp hm with rfl | hm
    · exact Nat.le_refl _
    · have := (List.pairwise_cons.mp (List.pairwise_append.mp hapart).2.1).1 span hm
      unfold Apart at this
      simp only [entry_cons]
      omega

end FreeBlocks

end BootMemory.Heap
