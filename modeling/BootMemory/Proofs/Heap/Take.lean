import BootMemory.Proofs.Heap.Ring

/-!
# Taking a block

A search goes once around the ring and finds the first free block that is large enough,
which it names together with the block in front of it (`search_eq`). The list of the free blocks
says which one that is: `nextFit` looks behind the cursor first, and at the block on which the
cursor stands last. What is taken off the ring is that block, or its upper part if it has units to
spare (`take_eq`). Apart from headers inside free blocks nothing is written.
-/

set_option autoImplicit false

namespace BootMemory.Heap

open BootMemory.Span

variable {γ : Type} {heap : Heap γ} {free : List Span}

/-! ### Which block is the first -/

/-- The free blocks in the order in which a search looks at them: those behind the cursor, and
then, from the lowest on, those up to the one on which it stands. -/
def aheadOf (cursor : Nat) (free : List Span) : List Span :=
  free.filter (cursor < ·.1) ++ free.filter (·.1 ≤ cursor)

/-- The first block of at least `units` behind the cursor. -/
def nextFit (cursor units : Nat) (free : List Span) : Option Span :=
  (aheadOf cursor free).find? fun span => units ≤ span.2

/-- A search looks at all free blocks, and at no others. -/
theorem mem_aheadOf {cursor : Nat} {span : Span} : span ∈ aheadOf cursor free ↔ span ∈ free := by
  unfold aheadOf
  rw [List.mem_append, List.mem_filter, List.mem_filter, ← and_or_left, and_iff_left_iff_imp]
  intro
  rw [decide_eq_true_eq, decide_eq_true_eq]
  exact Nat.lt_or_ge _ _

/-- The block that next fit finds is free and large enough. -/
theorem nextFit_eq_some {cursor units : Nat} {span : Span}
    (h : nextFit cursor units free = some span) : span ∈ free ∧ units ≤ span.2 :=
  ⟨mem_aheadOf.mp (List.mem_of_find?_eq_some h), by simpa using List.find?_some h⟩

/-- Next fit finds none exactly if every free block is too small. -/
theorem nextFit_eq_none_iff {cursor units : Nat} :
    nextFit cursor units free = none ↔ ∀ span ∈ free, span.2 < units := by
  simp [nextFit, List.find?_eq_none, mem_aheadOf]

/-- A lap that ends at the header on which the cursor stands meets the free blocks in this order,
and the sentinel is never large enough. -/
theorem FreeBlocks.find?_lap (h : heap.FreeBlocks free) {front behind : List Span} {start : Span}
    (he : sentinelSpan :: free = front ++ start :: behind) {units : Nat} (hpos : 0 < units) :
    ((behind ++ front) ++ [start]).find? (fun span => units ≤ span.2) =
      nextFit start.1 units free := by
  have hskip : ∀ spans : List Span, (sentinelSpan :: spans).find? (fun span => units ≤ span.2) =
      spans.find? fun span => units ≤ span.2 := fun spans =>
    List.find?_cons_of_neg (by simpa using Nat.ne_of_gt hpos)
  unfold nextFit aheadOf
  cases front with
  | nil =>
    obtain ⟨rfl, rfl⟩ := List.cons.inj he
    have hnone : free.filter (sentinelSpan.1 < ·.1) = [] := by
      apply List.filter_eq_nil_iff.mpr
      intro span hm
      rw [decide_eq_true_eq]
      exact Nat.lt_asymm (h.lt_sentinel hm)
    have hall : free.filter (·.1 ≤ sentinelSpan.1) = free := by
      apply List.filter_eq_self.mpr
      intro span hm
      rw [decide_eq_true_eq]
      exact Nat.le_of_lt (h.lt_sentinel hm)
    rw [hnone, hall, List.append_nil, List.nil_append, List.find?_append, hskip]
    exact Option.or_none
  | cons first lower =>
    obtain ⟨rfl, hfree⟩ := List.cons.inj he
    obtain rfl : free = lower ++ start :: behind := hfree
    obtain ⟨-, hbehind, hcross⟩ := List.pairwise_append.mp h.apart
    have hlower : ∀ span ∈ lower, span.1 < start.1 := by
      intro span hm
      have := hcross span hm start List.mem_cons_self
      unfold Apart at this
      omega
    have hupper : ∀ span ∈ behind, start.1 < span.1 := by
      intro span hm
      have := (List.pairwise_cons.mp hbehind).1 span hm
      unfold Apart at this
      omega
    have hahead : (lower ++ start :: behind).filter (start.1 < ·.1) = behind := by
      rw [List.filter_append, List.filter_cons_of_neg (by simp),
        List.filter_eq_nil_iff.mpr fun span hm => by simpa using Nat.le_of_lt (hlower span hm),
        List.filter_eq_self.mpr fun span hm => by simpa using hupper span hm, List.nil_append]
    have hrest : (lower ++ start :: behind).filter (·.1 ≤ start.1) = lower ++ [start] := by
      rw [List.filter_append, List.filter_cons_of_pos (by simp),
        List.filter_eq_self.mpr fun span hm => by simpa using Nat.le_of_lt (hlower span hm),
        List.filter_eq_nil_iff.mpr fun span hm => by simpa using hupper span hm]
    rw [hahead, hrest, List.append_assoc, List.cons_append, List.find?_append, hskip,
      ← List.find?_append]

/-! ### Searching -/

/-- What a search answers when a block is the first that is large enough, or when none is. -/
def Finds (heap : Heap γ) (free : List Span) : Option Fit → Option Span → Prop
  | none, none => True
  | some fit, some span =>
    ∃ before ∈ sentinelSpan :: free, heap.linkOf before.1 = span.1 ∧
      fit = ⟨before.1, span.1, ⟨heap.linkOf span.1, span.2⟩⟩
  | _, _ => False

/-- A search that has come to `before` looks at the headers behind it, and at the cursor
last. -/
theorem searchFrom_eq (h : heap.FreeBlocks free) (units : Nat) {start : Span}
    (hstart : start ∈ sentinelSpan :: free) (hcursor : heap.cursor = start.1) (ahead : List Span)
    (before : Span) (steps : Nat) (hl : heap.Leads start.1 (before :: ahead))
    (hm : ∀ span ∈ before :: ahead, span ∈ sentinelSpan :: free)
    (hne : ∀ span ∈ ahead, span.1 ≠ start.1) (hsteps : ahead.length + 1 ≤ steps) :
    ∃ found, heap.searchFrom units steps before.1 (heap.linkOf before.1) = .ok found ∧
      heap.Finds free found ((ahead ++ [start]).find? fun span => units ≤ span.2) := by
  -- The induction goes along the headers that are still ahead.
  induction ahead generalizing before steps with
  | nil =>
    obtain ⟨k, rfl⟩ : ∃ k, steps = k + 1 := ⟨steps - 1, by simp at hsteps; omega⟩
    have hlink : heap.linkOf before.1 = start.1 := hl.1
    rw [hlink, searchFrom, h.node_eq hstart, Outcome.ok_bind, List.nil_append]
    by_cases large : units ≤ start.2
    · refine ⟨some ⟨before.1, start.1, ⟨heap.linkOf start.1, start.2⟩⟩, by simp [large], ?_⟩
      simp only [List.find?, large, decide_true]
      exact ⟨before, hm before List.mem_cons_self, hlink, rfl⟩
    · refine ⟨none, by simp [large, hcursor], ?_⟩
      simp [List.find?, large, Finds]
  | cons next rest ih =>
    obtain ⟨k, rfl⟩ : ∃ k, steps = k + 1 := ⟨steps - 1, by simp at hsteps; omega⟩
    obtain ⟨hbefore, hahead⟩ := List.forall_mem_cons.mp hm
    have hlink : heap.linkOf before.1 = next.1 := hl.1
    rw [hlink, searchFrom, h.node_eq (hahead next List.mem_cons_self), Outcome.ok_bind,
      List.cons_append]
    by_cases large : units ≤ next.2
    · refine ⟨some ⟨before.1, next.1, ⟨heap.linkOf next.1, next.2⟩⟩, by simp [large], ?_⟩
      simp only [List.find?, large, decide_true]
      exact ⟨before, hbefore, hlink, rfl⟩
    · obtain ⟨hother, hrest⟩ := List.forall_mem_cons.mp hne
      obtain ⟨found, hfound, hfinds⟩ := ih next k hl.2 hahead hrest
        (by simpa using hsteps)
      refine ⟨found, ?_, ?_⟩
      · simpa [large, hcursor, hother] using hfound
      · simpa [List.find?, large] using hfinds

/-- A search looks at every header once, from the one behind the cursor on, and finds the
first that is large enough. -/
theorem search_eq (h : heap.FreeBlocks free) {units : Nat} (hpos : 0 < units) :
    ∃ found, heap.search units = .ok found ∧
      heap.Finds free found (nextFit heap.cursor units free) := by
  obtain ⟨start, hstart, hcursor⟩ := h.exists_cursor
  obtain ⟨front, behind, he, hperm, hl⟩ := h.exists_lap hstart
  have hne : ∀ span ∈ behind ++ front, span.1 ≠ start.1 := by
    have := (hperm.pairwise_iff (fun hab => Ne.symm hab)).mpr h.pairwise_ne
    intro span hm
    exact ((List.pairwise_cons.mp this).1 span hm).symm
  have hlen : (behind ++ front).length + 1 ≤ heap.arenaUnits + 1 := by
    have := hperm.length_eq
    have := h.length_le
    simp only [List.length_cons] at *
    omega
  obtain ⟨found, hfound, hfinds⟩ := searchFrom_eq h units hstart hcursor (behind ++ front) start
    (heap.arenaUnits + 1) hl (fun span hm => hperm.mem_iff.mp hm) hne hlen
  rw [h.find?_lap he hpos, ← hcursor] at hfinds
  refine ⟨found, ?_, hfinds⟩
  rw [search, hcursor, h.node_eq hstart, Outcome.ok_bind]
  exact hfound

/-- Where a free block is: `lower` are the free blocks below it and `upper` those above it, and
`before` is the last header of the ring in front of it. -/
structure Stands (free front : List Span) (before : Span) (lower : List Span) (span : Span)
    (upper : List Span) : Prop where
  split : free = lower ++ span :: upper
  last : sentinelSpan :: lower = front ++ [before]

namespace Stands

variable {front lower upper : List Span} {before span : Span}

/-- The ring goes through the header in front of the block to the block and to those above it. -/
theorem ring_eq (p : Stands free front before lower span upper) :
    sentinelSpan :: free = front ++ before :: span :: upper := by
  rw [p.split, ← List.cons_append, p.last, List.append_assoc]
  rfl

/-- The block is free. -/
theorem mem_span (p : Stands free front before lower span upper) : span ∈ free := by
  rw [p.split]
  simp

/-- The header in front of the block is the sentinel or a free block below it. -/
theorem mem_before (p : Stands free front before lower span upper) :
    before ∈ sentinelSpan :: lower := by
  rw [p.last]
  simp

/-- The header in front of the block is on the ring. -/
theorem before_mem_ring (p : Stands free front before lower span upper) :
    before ∈ sentinelSpan :: free := by
  rw [p.ring_eq]
  simp

/-- The units of a free block are counted. -/
theorem size_le (p : Stands free front before lower span upper) (h : heap.FreeBlocks free) :
    span.2 ≤ heap.freeUnits := by
  rw [h.counted, p.split]
  simp only [List.map_append, List.map_cons, List.sum_append, List.sum_cons]
  omega

end Stands

/-- A free block to which a header of the ring leads stands behind that header. -/
theorem FreeBlocks.stands (h : heap.FreeBlocks free) {before span : Span}
    (hbefore : before ∈ sentinelSpan :: free) (hspan : span ∈ free)
    (hlink : heap.linkOf before.1 = span.1) :
    ∃ front lower upper, Stands free front before lower span upper := by
  obtain ⟨front, after, he⟩ := List.append_of_mem hbefore
  have hnext := h.linkOf_eq front before after he
  rw [hlink] at hnext
  cases after with
  | nil => exact absurd hnext (h.ne_sentinel hspan)
  | cons next upper =>
    have hmem : next ∈ sentinelSpan :: free := by
      rw [he]
      simp
    obtain rfl := h.eq_of_fst_eq (List.mem_cons_of_mem _ hspan) hmem hnext
    obtain ⟨lower, hfree, hlower⟩ := exists_lower he
    exact ⟨front, lower, upper, hfree, hlower⟩

/-- The free blocks after `units` of them are taken out of one: without it, or with what is
left of it. -/
def keep (units : Nat) (span : Span) : List Span :=
  if span.2 = units then [] else [(span.1, span.2 - units)]

/-- What is left of a block and what is taken from it cover each unit as often as the block. -/
theorem countP_keep (unit : Nat) {units : Nat} {span : Span} (h : units ≤ span.2) :
    (keep units span ++ [(span.1 + (span.2 - units), units)]).countP (covers unit) =
      [span].countP (covers unit) := by
  unfold keep
  split_ifs with all
  · subst all
    simp
  · rw [List.singleton_append, ← countP_touching, Nat.sub_add_cancel h]

/-- What is left of a block has the units that were not taken. -/
theorem sum_keep (units : Nat) (span : Span) :
    ((keep units span).map Prod.snd).sum = span.2 - units := by
  unfold keep
  split_ifs with all
  · simp [all]
  · simp

/-- What is left of a block starts where the block does and does not reach further. -/
theorem mem_keep {units : Nat} {span other : Span} (hpos : 0 < units) (h : units ≤ span.2)
    (hm : other ∈ keep units span) :
    other.1 = span.1 ∧ 0 < other.2 ∧ other.1 + other.2 ≤ span.1 + span.2 := by
  unfold keep at hm
  split_ifs at hm with all
  · simp at hm
  · rw [List.mem_singleton] at hm
    subst hm
    refine ⟨rfl, ?_, ?_⟩
    · simp only
      omega
    · simp only
      omega

/-- Free blocks stay apart when one of them shrinks or goes. -/
theorem pairwise_keep {units : Nat} {span : Span} {lower upper : List Span} (hpos : 0 < units)
    (h : units ≤ span.2) (hp : (lower ++ span :: upper).Pairwise Apart) :
    (lower ++ (keep units span ++ upper)).Pairwise Apart := by
  obtain ⟨hlower, hspan, hcross⟩ := List.pairwise_append.mp hp
  obtain ⟨hbelow, hupper⟩ := List.pairwise_cons.mp hspan
  have hkeep : (keep units span).Pairwise Apart := by
    unfold keep
    split_ifs
    · exact List.Pairwise.nil
    · exact List.pairwise_singleton _ _
  refine List.pairwise_append.mpr ⟨hlower, ?_, ?_⟩
  · refine List.pairwise_append.mpr ⟨hkeep, hupper, ?_⟩
    intro a ha b hb
    have hleft := mem_keep hpos h ha
    have hright := hbelow b hb
    unfold Apart at hright ⊢
    omega
  · intro a ha b hb
    rcases List.mem_append.mp hb with hb | hb
    · have hleft := mem_keep hpos h hb
      have hright := hcross a ha span List.mem_cons_self
      unfold Apart at hright ⊢
      omega
    · exact hcross a ha b (List.mem_cons_of_mem _ hb)

/-- What it means that `block` is now a block of `units`, taken out of a free block. -/
structure Taken (heap : Heap γ) (free : List Span) (units : Nat) (other : Heap γ) (block : Nat)
    (lower : List Span) (span : Span) (upper : List Span) : Prop where
  /-- There was a free block that is large enough. -/
  split : free = lower ++ span :: upper
  large : units ≤ span.2
  /-- The upper end of it was taken. -/
  block_eq : block = span.1 + (span.2 - units)
  /-- What is left of it is still free. -/
  freeBlocks : other.FreeBlocks (lower ++ (keep units span ++ upper))
  /-- The header of the new block holds its size. -/
  header : (other.arena.get block).size = units
  /-- Units that were not free are as they were. -/
  agree : AgreeOutside free heap other
  arenaUnits_eq : other.arenaUnits = heap.arenaUnits
  growth_eq : other.growth = heap.growth

/-- The list facts about the free blocks after a part of one was taken follow from those
before; what is left to show is that the links, the sizes and the counters say so. -/
theorem FreeBlocks.of_keep (h : heap.FreeBlocks free) {other : Heap γ} {units : Nat}
    {lower upper : List Span} {before span : Span} (hpos : 0 < units) (hlarge : units ≤ span.2)
    (hfree : free = lower ++ span :: upper) (hbefore : before ∈ sentinelSpan :: lower)
    (hleads : other.Leads sentinel (sentinelSpan :: (lower ++ (keep units span ++ upper))))
    (hsizes : ∀ kept ∈ lower ++ (keep units span ++ upper), other.sizeOf kept.1 = kept.2)
    (hcursor : other.cursor = before.1) (hunits : other.arenaUnits = heap.arenaUnits)
    (hcounted : other.freeUnits = heap.freeUnits - units) :
    other.FreeBlocks (lower ++ (keep units span ++ upper)) := by
  have hinside := h.inside
  have hapart := h.apart
  have hsum := h.counted
  rw [hfree] at hinside hapart hsum
  refine ⟨hleads, hsizes, pairwise_keep hpos hlarge hapart, ?_, ?_, ?_, ?_⟩
  · intro kept hm
    rw [hunits]
    rcases List.mem_append.mp hm with hm | hm
    · exact hinside kept (List.mem_append_left _ hm)
    · rcases List.mem_append.mp hm with hm | hm
      · have := mem_keep hpos hlarge hm
        have := hinside span (List.mem_append_right _ List.mem_cons_self)
        omega
      · exact hinside kept (List.mem_append_right _ (List.mem_cons_of_mem _ hm))
  · rw [hcursor]
    apply List.mem_map_of_mem
    rw [← List.cons_append]
    exact List.mem_append_left _ hbefore
  · simp only [List.map_append, List.map_cons, List.sum_append, List.sum_cons] at hsum ⊢
    rw [hcounted, hsum, sum_keep]
    omega
  · rw [hunits]
    exact h.bounded

section Carve

variable {front lower upper : List Span} {before span : Span} {units : Nat}

/-! ### A whole block -/

/-- The heap without the block behind `before`. -/
def withoutBlock (heap : Heap γ) (before span : Span) : Heap γ :=
  { heap.put before.1 ⟨heap.linkOf span.1, heap.sizeOf before.1⟩ with
    cursor := before.1
    freeUnits := heap.freeUnits - span.2 }

/-- A block of exactly the right size goes off the ring as a whole. -/
theorem carve_whole (h : heap.FreeBlocks free) (p : Stands free front before lower span upper) :
    heap.carve span.2 ⟨before.1, span.1, ⟨heap.linkOf span.1, span.2⟩⟩ =
      .ok (heap.withoutBlock before span, span.1) := by
  simp only [carve, ↓reduceIte, setLink_eq _ (h.within p.before_mem_ring), Outcome.ok_bind,
    Outcome.pure_eq_ok, freeUnits_put, Word.sub_eq_ok (p.size_le h)]
  rfl

/-- Taking a whole block writes no size. -/
theorem sizeOf_withoutBlock (index : Nat) :
    (heap.withoutBlock before span).sizeOf index = heap.sizeOf index :=
  sizeOf_put_link heap before.1 (heap.linkOf span.1) index

/-- Taking a whole block writes the link of the header in front of it, which then leads past it.
-/
theorem linkOf_withoutBlock (index : Nat) : (heap.withoutBlock before span).linkOf index =
    if index = before.1 then heap.linkOf span.1 else heap.linkOf index :=
  linkOf_put heap before.1 ⟨heap.linkOf span.1, heap.sizeOf before.1⟩ index

/-- Leading the ring past a block takes the block as a whole. -/
theorem taken_withoutBlock (h : heap.FreeBlocks free)
    (p : Stands free front before lower span upper) (hpos : 0 < span.2) :
    Taken heap free span.2 (heap.withoutBlock before span) span.1 lower span upper := by
  have hkeep : keep span.2 span = [] := if_pos rfl
  have hring : sentinelSpan :: free = front ++ before :: ([span] ++ upper) := p.ring_eq
  have hring' : sentinelSpan :: (lower ++ (keep span.2 span ++ upper)) =
      front ++ before :: ([] ++ upper) := by
    rw [hkeep, ← List.cons_append, p.last, List.append_assoc]
    rfl
  have hbehind : (heap.withoutBlock before span).linkOf before.1 = entry upper sentinel := by
    rw [linkOf_withoutBlock, if_pos rfl]
    exact h.linkOf_eq (front ++ [before]) span upper (by rw [p.ring_eq]; simp)
  have hsize : ∀ node ∈ [before], (heap.withoutBlock before span).sizeOf node.1 = node.2 := by
    intro node hm
    rw [sizeOf_withoutBlock, List.mem_singleton.mp hm, h.sizeOf_eq p.before_mem_ring]
  have hsame : ∀ node ∈ front ++ upper,
      (heap.withoutBlock before span).linkOf node.1 = heap.linkOf node.1 ∧
        (heap.withoutBlock before span).sizeOf node.1 = heap.sizeOf node.1 := by
    intro node hm
    have hothers : node ∈ front ++ ([span] ++ upper) := by
      rw [List.mem_append] at hm ⊢
      apply hm.imp_right
      exact List.mem_append_right _
    obtain ⟨-, hne⟩ := h.mem_others hring hothers
    rw [linkOf_withoutBlock, if_neg hne]
    exact ⟨rfl, sizeOf_withoutBlock _⟩
  obtain ⟨hleads, hsizes⟩ := h.spliced hring hring' rfl ⟨hbehind, trivial⟩ hsize hsame
  refine ⟨p.split, Nat.le_refl _, by omega, ?_, ?_, ?_, ?_, ?_⟩
  · exact h.of_keep hpos (Nat.le_refl _) p.split p.mem_before hleads hsizes rfl
      (arenaUnits_put heap before.1 _) rfl
  · have hheader : (heap.withoutBlock before span).sizeOf span.1 = span.2 := by
      rw [sizeOf_withoutBlock, h.sizes span p.mem_span]
    unfold sizeOf at hheader
    rwa [if_neg (h.ne_sentinel p.mem_span)] at hheader
  · exact h.agreeOutside_put heap p.before_mem_ring _
  · exact arenaUnits_put heap before.1 _
  · exact growth_put heap before.1 _

/-! ### The upper end of a block -/

/-- The heap without the last `units` of a block. -/
def withoutEnd (heap : Heap γ) (units : Nat) (before span : Span) : Heap γ :=
  { (heap.put span.1 ⟨heap.linkOf span.1, span.2 - units⟩).put (span.1 + (span.2 - units))
      ⟨0, units⟩ with
    cursor := before.1
    freeUnits := heap.freeUnits - units }

/-- A block with units to spare keeps its place on the ring and loses its upper end. -/
theorem carve_part (h : heap.FreeBlocks free) (p : Stands free front before lower span upper)
    (hpos : 0 < units) (hless : units < span.2) :
    heap.carve units ⟨before.1, span.1, ⟨heap.linkOf span.1, span.2⟩⟩ =
      .ok (heap.withoutEnd units before span, span.1 + (span.2 - units)) := by
  have hinside := h.inside span p.mem_span
  have hbounded := h.bounded
  have hcount := p.size_le h
  have hwithin := h.within (List.mem_cons_of_mem _ p.mem_span)
  have htail : (heap.put span.1 ⟨heap.linkOf span.1, span.2 - units⟩).Within
      (span.1 + (span.2 - units)) := by
    rw [within_put]
    right
    omega
  simp only [carve, Nat.ne_of_gt hless, ↓reduceIte, setNode_eq _ hwithin, Outcome.ok_bind,
    Outcome.pure_eq_ok]
  rw [Word.add_eq_ok (by omega), Outcome.ok_bind, setNode_eq _ htail, Outcome.ok_bind]
  simp only [freeUnits_put, Word.sub_eq_ok (Nat.le_trans (Nat.le_of_lt hless) hcount),
    Outcome.ok_bind]
  rfl

/-- The new header lies inside the old block, where no header of the ring is. -/
theorem Stands.ne_tail (p : Stands free front before lower span upper) (h : heap.FreeBlocks free)
    (hpos : 0 < units) (hless : units < span.2) {node : Span} (hm : node ∈ sentinelSpan :: free) :
    node.1 ≠ span.1 + (span.2 - units) := by
  have hinside := h.inside span p.mem_span
  have hbounded := h.bounded
  rcases List.mem_cons.mp hm with rfl | hm
  · show sentinel ≠ _
    unfold sentinel
    omega
  · rw [p.split, List.mem_append, List.mem_cons] at hm
    have hother : node = span ∨ node ∈ lower ++ upper := by
      rw [List.mem_append]
      tauto
    rcases hother with rfl | hother
    · omega
    · rcases h.apart_or_apart p.split hother with hap | hap <;> unfold Apart at hap <;> omega

/-- Taking the end of a block writes no link but that of the new header. -/
theorem linkOf_withoutEnd {index : Nat} (h : index ≠ span.1 + (span.2 - units)) :
    (heap.withoutEnd units before span).linkOf index = heap.linkOf index := by
  show ((heap.put span.1 _).put (span.1 + (span.2 - units)) ⟨0, units⟩).linkOf index = _
  rw [linkOf_put, if_neg h, linkOf_put]
  split_ifs with hindex
  · rw [hindex]
  · rfl

/-- Taking the end of a block writes no sizes but those of the block and of the new header. -/
theorem sizeOf_withoutEnd {index : Nat} (h : index ≠ span.1 + (span.2 - units))
    (hne : index ≠ span.1) :
    (heap.withoutEnd units before span).sizeOf index = heap.sizeOf index := by
  show ((heap.put span.1 _).put (span.1 + (span.2 - units)) ⟨0, units⟩).sizeOf index = _
  rw [sizeOf_put_of_ne _ _ _ h, sizeOf_put_of_ne _ _ _ hne]

/-- Cutting a block short takes its upper end: the lower part keeps its place on the ring, and the
new header stands behind it, where no other header is. -/
theorem taken_withoutEnd (h : heap.FreeBlocks free)
    (p : Stands free front before lower span upper) (hpos : 0 < units) (hless : units < span.2) :
    Taken heap free units (heap.withoutEnd units before span) (span.1 + (span.2 - units)) lower
      span upper := by
  have hspan := List.mem_cons_of_mem sentinelSpan p.mem_span
  have htail := p.ne_tail h hpos hless hspan
  have hkeep : keep units span = [(span.1, span.2 - units)] := if_neg (Nat.ne_of_gt hless)
  have hring : sentinelSpan :: free = (front ++ [before]) ++ span :: ([] ++ upper) := by
    rw [p.ring_eq]
    simp
  have hring' : sentinelSpan :: (lower ++ (keep units span ++ upper)) =
      (front ++ [before]) ++ (span.1, span.2 - units) :: ([] ++ upper) := by
    rw [hkeep, ← List.cons_append, p.last]
    rfl
  have hlink : (heap.withoutEnd units before span).linkOf span.1 = entry upper sentinel := by
    rw [linkOf_withoutEnd htail]
    exact h.linkOf_eq (front ++ [before]) span upper hring
  have hsize : ∀ node ∈ [(span.1, span.2 - units)],
      (heap.withoutEnd units before span).sizeOf node.1 = node.2 := by
    intro node hm
    rw [List.mem_singleton.mp hm]
    show ((heap.put span.1 _).put (span.1 + (span.2 - units)) ⟨0, units⟩).sizeOf span.1 = _
    rw [sizeOf_put_of_ne _ _ _ htail, sizeOf_put_self _ _ _ (h.ne_sentinel p.mem_span)]
  have hsame : ∀ node ∈ front ++ [before] ++ upper,
      (heap.withoutEnd units before span).linkOf node.1 = heap.linkOf node.1 ∧
        (heap.withoutEnd units before span).sizeOf node.1 = heap.sizeOf node.1 := by
    intro node hm
    obtain ⟨hmem, hne⟩ := h.mem_others hring hm
    have hnot := p.ne_tail h hpos hless hmem
    exact ⟨linkOf_withoutEnd hnot, sizeOf_withoutEnd hnot hne⟩
  obtain ⟨hleads, hsizes⟩ := h.spliced hring hring' rfl ⟨hlink, trivial⟩ hsize hsame
  refine ⟨p.split, Nat.le_of_lt hless, rfl, ?_, ?_, ?_, ?_, ?_⟩
  · exact h.of_keep hpos (Nat.le_of_lt hless) p.split p.mem_before hleads hsizes rfl
      (by simp [withoutEnd]) rfl
  · have hstart := (p.ne_tail h hpos hless List.mem_cons_self).symm
    have hheader := sizeOf_put_self (heap.put span.1 ⟨heap.linkOf span.1, span.2 - units⟩)
      (span.1 + (span.2 - units)) ⟨0, units⟩ hstart
    unfold sizeOf at hheader
    rwa [if_neg hstart] at hheader
  · intro index hout
    have hcover := hout span p.mem_span
    rw [← Bool.not_eq_true, covers_iff] at hcover
    show ((heap.put span.1 _).put (span.1 + (span.2 - units)) ⟨0, units⟩).arena.get index = _
    rw [get_put_of_ne _ _ _ (by omega), get_put_of_ne _ _ _ (by omega)]
  · simp [withoutEnd]
  · simp [withoutEnd]

end Carve

/-- Taking a block either finds that none is large enough and changes nothing, or takes the
upper end of the first that is. -/
theorem take_eq (h : heap.FreeBlocks free) {units : Nat} (hpos : 0 < units) :
    ((take units heap).outcome = .ok (none, heap) ∧ ∀ span ∈ free, span.2 < units) ∨
      ∃ other block lower span upper, (take units heap).outcome = .ok (some block, other) ∧
        Taken heap free units other block lower span upper ∧
        nextFit heap.cursor units free = some span := by
  obtain ⟨found, hsearch, hfinds⟩ := search_eq h hpos
  cases hfirst : nextFit heap.cursor units free with
  | none =>
    left
    rw [hfirst] at hfinds
    cases found with
    | some fit => exact hfinds.elim
    | none => exact ⟨by simp [take, hsearch], nextFit_eq_none_iff.mp hfirst⟩
  | some span =>
    right
    rw [hfirst] at hfinds
    cases found with
    | none => exact hfinds.elim
    | some fit =>
      obtain ⟨before, hbefore, hlink, rfl⟩ := hfinds
      obtain ⟨hspan, hlarge⟩ := nextFit_eq_some hfirst
      obtain ⟨front, lower, upper, p⟩ := h.stands hbefore hspan hlink
      obtain ⟨other, hcarve, htaken⟩ : ∃ other,
          heap.carve units ⟨before.1, span.1, ⟨heap.linkOf span.1, span.2⟩⟩ =
            .ok (other, span.1 + (span.2 - units)) ∧
          Taken heap free units other (span.1 + (span.2 - units)) lower span upper := by
        rcases Nat.lt_or_eq_of_le hlarge with hless | rfl
        · exact ⟨_, carve_part h p hpos hless, taken_withoutEnd h p hpos hless⟩
        · rw [Nat.sub_self, Nat.add_zero]
          exact ⟨_, carve_whole h p, taken_withoutBlock h p hpos⟩
      refine ⟨other, _, lower, span, upper, ?_, htaken, rfl⟩
      simp [take, hsearch, hcarve]

end BootMemory.Heap
