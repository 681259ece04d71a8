import BootMemory.Arithmetic
import Mathlib.Data.List.Count
import Mathlib.Data.List.Pairwise
import Mathlib.Algebra.Order.Group.Nat

/-!
# Spans of units

A span is a run of units: the index of its first unit and how many units it has. A list of
spans tiles an arena when every unit of the arena lies in exactly one span of the list and
no span reaches past the arena.

A span is put back among free spans by `Span.insert`, which keeps them in ascending order
and joins spans that touch. Joining never changes how often a unit is covered
(`countP_insert`), so putting a span back keeps a tiling. Free spans that lie apart stay
apart (`pairwise_insert`): the spans of a free list are always as large as they can be. That is a
normal form: spans that lie apart are told by the units that they cover (`eq_of_countP_eq`).
-/

set_option autoImplicit false

namespace BootMemory

/-- A run of units: the index of the first, and how many there are. -/
abbrev Span := Nat × Nat

namespace Span

/-- Whether a unit lies in a span. -/
def covers (unit : Nat) (span : Span) : Bool := span.1 ≤ unit && unit < span.1 + span.2

/-- Every unit below a bound lies in exactly one of the spans, and no other unit in any. -/
def Tiles (spans : List Span) (units : Nat) : Prop :=
  ∀ unit, spans.countP (covers unit) = if unit < units then 1 else 0

/-- The first span ends before the second starts, with at least one unit between them. -/
def Apart (a b : Span) : Prop := a.1 + a.2 < b.1

/-- Puts a span in front of spans that start behind it, as one with the first if they
touch. -/
def join (span : Span) : List Span → List Span
  | [] => [span]
  | next :: rest =>
    if span.1 + span.2 = next.1 then (span.1, span.2 + next.2) :: rest
    else span :: next :: rest

/-- Puts a span among ascending spans, as one with those that it touches. -/
def insert (span : Span) : List Span → List Span
  | [] => [span]
  | first :: rest =>
    if span.1 < first.1 then join span (first :: rest) else join first (insert span rest)

/-- A unit lies in a span exactly if it lies between the bounds of the span. -/
theorem covers_iff {unit : Nat} {span : Span} :
    covers unit span = true ↔ span.1 ≤ unit ∧ unit < span.1 + span.2 := by
  simp [covers]

namespace Tiles

variable {units : Nat} {first second : List Span} {a b : Span}

/-- Spans of a tiling end within the bound. -/
theorem le (h : Tiles first units) (ha : a ∈ first) (hpos : 0 < a.2) : a.1 + a.2 ≤ units := by
  have hcount : 0 < first.countP (covers (a.1 + a.2 - 1)) :=
    List.countP_pos_iff.mpr ⟨a, ha, covers_iff.mpr (by omega)⟩
  rw [h] at hcount
  split_ifs at hcount with hlt
  · omega
  · omega

/-- A unit that lies in one part of a tiling does not lie in the other part. -/
theorem not_covers (h : Tiles (first ++ second) units) {unit : Nat} (hb : b ∈ second)
    (hcover : covers unit b = true) : ∀ a ∈ first, covers unit a = false := by
  have hcount : 0 < second.countP (covers unit) := List.countP_pos_iff.mpr ⟨b, hb, hcover⟩
  have hall := h unit
  rw [List.countP_append] at hall
  have hzero : first.countP (covers unit) = 0 := by
    split_ifs at hall
    · omega
    · omega
  intro a ha
  apply Bool.eq_false_iff.mpr
  exact List.countP_eq_zero.mp hzero a ha

/-- Spans of the two parts of a tiling share no unit. -/
theorem disjoint (h : Tiles (first ++ second) units) (ha : a ∈ first) (hb : b ∈ second)
    (hapos : 0 < a.2) (hbpos : 0 < b.2) : a.1 + a.2 ≤ b.1 ∨ b.1 + b.2 ≤ a.1 := by
  by_contra hmeet
  -- The larger of the two starts would lie in both.
  have hcover : covers (max a.1 b.1) b = true := covers_iff.mpr (by omega)
  have hnot := h.not_covers hb hcover a ha
  rw [← Bool.not_eq_true, covers_iff] at hnot
  omega

/-- No unit lies in two spans of a tiling. -/
theorem pairwise (h : Tiles first units) :
    first.Pairwise fun a b => ∀ unit, ¬ (covers unit a = true ∧ covers unit b = true) := by
  have hone : ∀ unit, first.countP (covers unit) ≤ 1 := by
    intro unit
    rw [h unit]
    split_ifs <;> omega
  clear h
  induction first with
  | nil => exact List.Pairwise.nil
  | cons a rest ih =>
    refine List.pairwise_cons.mpr ⟨?_, ih ?_⟩
    · rintro b hb unit ⟨ha, hcover⟩
      have hcount : 0 < rest.countP (covers unit) := List.countP_pos_iff.mpr ⟨b, hb, hcover⟩
      have := hone unit
      rw [List.countP_cons, if_pos ha] at this
      omega
    · intro unit
      have := hone unit
      rw [List.countP_cons] at this
      omega

/-- The order of the spans of a tiling does not matter. -/
theorem perm (h : Tiles first units) (hp : second.Perm first) : Tiles second units := by
  intro unit
  rw [hp.countP_eq, h unit]

/-- A span of a tiling can be put in front of the others. -/
theorem focus {lower upper : List Span} (h : Tiles (lower ++ a :: upper) units) :
    Tiles ([a] ++ (lower ++ upper)) units :=
  h.perm (List.perm_middle.symm : (a :: (lower ++ upper)).Perm _)

/-- A unit lies in one span of a tiling only. -/
theorem eq_of_covers (h : Tiles first units) {unit : Nat} (ha : a ∈ first) (hb : b ∈ first)
    (hcovera : covers unit a = true) (hcoverb : covers unit b = true) : a = b := by
  obtain ⟨lower, upper, rfl⟩ := List.append_of_mem ha
  by_contra hne
  have hb : b ∈ lower ++ upper := by
    simp only [List.mem_append, List.mem_cons] at hb ⊢
    rcases hb with hb | rfl | hb
    · exact .inl hb
    · exact absurd rfl hne
    · exact .inr hb
  have := h.focus.not_covers hb hcoverb a (List.mem_singleton.mpr rfl)
  rw [hcovera] at this
  exact Bool.noConfusion this

end Tiles

/-- A unit lies in the union of two spans that touch as often as in both of them. -/
theorem countP_touching (unit a m n : Nat) (rest : List Span) :
    ((a, m + n) :: rest).countP (covers unit) =
      ((a, m) :: (a + m, n) :: rest).countP (covers unit) := by
  simp only [List.countP_cons, covers_iff]
  split_ifs <;> omega

/-- Joining a span to others covers each unit as often as before. -/
theorem countP_join (unit : Nat) (span : Span) (spans : List Span) :
    (join span spans).countP (covers unit) = (span :: spans).countP (covers unit) := by
  cases spans with
  | nil => rfl
  | cons next rest =>
    simp only [join]
    split_ifs with touch
    · rw [countP_touching, touch]
    · rfl

/-- Putting a span back covers every unit as often as having it beside the others. -/
theorem countP_insert (unit : Nat) (span : Span) (spans : List Span) :
    (insert span spans).countP (covers unit) = (span :: spans).countP (covers unit) := by
  induction spans with
  | nil => rfl
  | cons first rest ih =>
    unfold insert
    split_ifs with below
    · exact countP_join unit span (first :: rest)
    · rw [countP_join, List.countP_cons, ih]
      simp only [List.countP_cons]
      omega

/-- Joining a span to others adds its length to theirs. -/
theorem sum_join (span : Span) (spans : List Span) :
    ((join span spans).map Prod.snd).sum = span.2 + (spans.map Prod.snd).sum := by
  cases spans with
  | nil => simp [join]
  | cons next rest =>
    simp only [join]
    split_ifs
    · simp only [List.map_cons, List.sum_cons]
      omega
    · simp

/-- Putting a span among others adds its length to theirs. -/
theorem sum_insert (span : Span) (spans : List Span) :
    ((insert span spans).map Prod.snd).sum = span.2 + (spans.map Prod.snd).sum := by
  induction spans with
  | nil => simp [insert]
  | cons first rest ih =>
    unfold insert
    split_ifs
    · exact sum_join span (first :: rest)
    · rw [sum_join, ih]
      simp only [List.map_cons, List.sum_cons]
      omega

/-- Nothing gets smaller when spans that touch become one. -/
theorem exists_le_join {span : Span} {spans : List Span} {a : Span} (ha : a ∈ span :: spans) :
    ∃ other ∈ join span spans, a.2 ≤ other.2 := by
  cases spans with
  | nil => exact ⟨a, ha, Nat.le_refl _⟩
  | cons next rest =>
    simp only [join]
    split_ifs
    · rcases List.mem_cons.mp ha with rfl | ha
      · exact ⟨_, List.mem_cons_self, Nat.le_add_right _ _⟩
      · rcases List.mem_cons.mp ha with rfl | ha
        · exact ⟨_, List.mem_cons_self, Nat.le_add_left _ _⟩
        · exact ⟨a, List.mem_cons_of_mem _ ha, Nat.le_refl _⟩
    · exact ⟨a, ha, Nat.le_refl _⟩

/-- A span that is put among others is in one that is at least as large. -/
theorem exists_le_insert (span : Span) (spans : List Span) :
    ∃ other ∈ insert span spans, span.2 ≤ other.2 := by
  induction spans with
  | nil => exact ⟨span, List.mem_singleton_self span, Nat.le_refl _⟩
  | cons first rest ih =>
    unfold insert
    split_ifs
    · exact exists_le_join List.mem_cons_self
    · obtain ⟨middle, hmiddle, hle⟩ := ih
      obtain ⟨other, hother, hle'⟩ := exists_le_join (List.mem_cons_of_mem first hmiddle)
      exact ⟨other, hother, Nat.le_trans hle hle'⟩

section Forall

variable {P : Span → Prop}

/-- What holds of spans, and of two that touch as one, holds after one is joined to the others. -/
theorem forall_join (hjoin : ∀ a m n, P (a, m) → P (a + m, n) → P (a, m + n)) {span : Span}
    {spans : List Span} (hs : P span) (h : ∀ other ∈ spans, P other) :
    ∀ other ∈ join span spans, P other := by
  cases spans with
  | nil => simpa [join] using hs
  | cons next rest =>
    obtain ⟨hnext, hrest⟩ := List.forall_mem_cons.mp h
    simp only [join]
    split_ifs with touch
    · refine List.forall_mem_cons.mpr ⟨hjoin _ _ _ hs ?_, hrest⟩
      rw [touch]
      exact hnext
    · exact List.forall_mem_cons.mpr ⟨hs, h⟩

/-- What holds of all spans and of the new one, and is kept when two spans that touch become
one, holds of all spans afterwards. -/
theorem forall_insert (hjoin : ∀ a m n, P (a, m) → P (a + m, n) → P (a, m + n)) {span : Span}
    {spans : List Span} (hs : P span) (h : ∀ other ∈ spans, P other) :
    ∀ other ∈ insert span spans, P other := by
  induction spans with
  | nil => simpa [insert] using hs
  | cons first rest ih =>
    obtain ⟨hfirst, hrest⟩ := List.forall_mem_cons.mp h
    unfold insert
    split_ifs
    · exact forall_join hjoin hs h
    · exact forall_join hjoin hfirst (ih hrest)

end Forall

/-- A span put in front of spans that lie apart, and that start at its end or behind it,
leaves them apart. -/
theorem pairwise_join {span : Span} {spans : List Span} (hp : spans.Pairwise Apart)
    (hpos : ∀ other ∈ spans, 0 < other.2)
    (hle : ∀ other ∈ spans, span.1 + span.2 ≤ other.1) : (join span spans).Pairwise Apart := by
  cases spans with
  | nil => exact List.pairwise_singleton _ _
  | cons next rest =>
    obtain ⟨hnext, hrest⟩ := List.pairwise_cons.mp hp
    have hnextle := hle next List.mem_cons_self
    have hnextpos := hpos next List.mem_cons_self
    simp only [join]
    split_ifs with touch
    · refine List.pairwise_cons.mpr ⟨?_, hrest⟩
      intro other hmem
      have := hnext other hmem
      unfold Apart at this ⊢
      simp only
      omega
    · refine List.pairwise_cons.mpr ⟨?_, hp⟩
      intro other hmem
      unfold Apart
      rcases List.mem_cons.mp hmem with rfl | hmem
      · omega
      · have := hnext other hmem
        unfold Apart at this
        omega

/-- A span that shares no unit with spans that lie apart is put among them so that all
spans lie apart. -/
theorem pairwise_insert {span : Span} {spans : List Span} (hp : spans.Pairwise Apart)
    (hspan : 0 < span.2) (hpos : ∀ other ∈ spans, 0 < other.2)
    (hdis : ∀ other ∈ spans, other.1 + other.2 ≤ span.1 ∨ span.1 + span.2 ≤ other.1) :
    (insert span spans).Pairwise Apart := by
  induction spans with
  | nil => exact List.pairwise_singleton _ _
  | cons first rest ih =>
    obtain ⟨hfirst, hrest⟩ := List.pairwise_cons.mp hp
    obtain ⟨hfirstpos, hrestpos⟩ := List.forall_mem_cons.mp hpos
    obtain ⟨hfirstdis, hrestdis⟩ := List.forall_mem_cons.mp hdis
    unfold insert
    split_ifs with below
    · apply pairwise_join hp hpos
      intro other hmem
      rcases List.mem_cons.mp hmem with rfl | hmem
      · omega
      · have := hfirst other hmem
        unfold Apart at this
        omega
    · apply pairwise_join (ih hrest hrestpos hrestdis)
      · exact forall_insert (fun a m n hm hn => Nat.add_pos_left hm n) hspan hrestpos
      · refine forall_insert (P := fun other => first.1 + first.2 ≤ other.1)
          (fun a m n hm hn => hm) (by omega) fun other hmem => ?_
        have := hfirst other hmem
        unfold Apart at this
        omega

/-- A span goes in front of spans that all start behind it. -/
theorem insert_of_lt {span : Span} {spans : List Span}
    (h : ∀ other ∈ spans, span.1 < other.1) : insert span spans = join span spans := by
  cases spans with
  | nil => rfl
  | cons first rest =>
    have := h first List.mem_cons_self
    simp [insert, this]

/-- Where the spans of a list that start below a new span are known, the new span goes behind
them, and only the last of them can be joined to it. -/
theorem insert_append {span last : Span} {lower upper : List Span}
    (hp : (lower ++ [last]).Pairwise Apart) (hlast : last.1 < span.1)
    (hlower : ∀ other ∈ lower, other.1 < span.1)
    (hupper : ∀ other ∈ upper, span.1 < other.1) :
    insert span (lower ++ last :: upper) = lower ++ join last (join span upper) := by
  induction lower with
  | nil =>
    rw [List.nil_append, List.nil_append, insert, if_neg (by omega), insert_of_lt hupper]
  | cons first rest ih =>
    rw [List.cons_append, List.pairwise_cons] at hp
    obtain ⟨hfirst, hrest⟩ := List.forall_mem_cons.mp hlower
    rw [List.cons_append, insert, if_neg (by omega), ih hp.2 hrest]
    -- The next span still starts where it did, so `first` does not touch it.
    cases rest with
    | nil =>
      have := hp.1 last (by simp)
      unfold Apart at this
      rw [List.nil_append, List.singleton_append]
      cases join span upper with
      | nil => rw [join, join, if_neg (by omega)]
      | cons next others =>
        rw [join.eq_2 last]
        split_ifs
        · rw [join, if_neg (by simp only; omega)]
        · rw [join, if_neg (by omega)]
    | cons next others =>
      have := hp.1 next (by simp)
      unfold Apart at this
      simp only [List.cons_append, join]
      rw [if_neg (by omega)]

/-- A span that starts where the last of the others ends becomes one with it. -/
theorem insert_touching {front : List Span} {last span : Span}
    (hp : (front ++ [last]).Pairwise Apart) (hpos : 0 < last.2)
    (hend : last.1 + last.2 = span.1) :
    insert span (front ++ [last]) = front ++ [(last.1, last.2 + span.2)] := by
  have hfront : ∀ other ∈ front, other.1 < span.1 := by
    intro other hm
    have := (List.pairwise_append.mp hp).2.2 other hm last (List.mem_singleton_self last)
    unfold Apart at this
    omega
  have happend := insert_append hp (by omega) hfront (fun _ hm => nomatch hm : ∀ other ∈ [], _)
  rw [happend, join, join, if_pos hend]

/-- A span that starts behind the end of all others goes behind them. -/
theorem insert_beyond {spans : List Span} {span : Span} (hp : spans.Pairwise Apart)
    (hend : ∀ other ∈ spans, other.1 + other.2 < span.1) : insert span spans = spans ++ [span] := by
  induction spans with
  | nil => rfl
  | cons first rest ih =>
    obtain ⟨hfirst, hrest⟩ := List.pairwise_cons.mp hp
    obtain ⟨hend, hendrest⟩ := List.forall_mem_cons.mp hend
    rw [insert, if_neg (by omega), ih hrest hendrest]
    cases rest with
    | nil => rw [List.nil_append, join, if_neg (by omega), List.singleton_append]
    | cons next others =>
      have := hfirst next List.mem_cons_self
      unfold Apart at this
      rw [List.cons_append, join, if_neg (by omega), List.cons_append, List.cons_append]

/-- A span behind the bound of the others goes to the end of the list. It becomes one with the last
of them if that one reaches the bound. -/
theorem insert_at_end {spans : List Span} {units : Nat} (hp : spans.Pairwise Apart)
    (hpos : ∀ span ∈ spans, 0 < span.2) (hle : ∀ span ∈ spans, span.1 + span.2 ≤ units)
    (added : Nat) :
    (∃ front start size, spans = front ++ [(start, size)] ∧ start + size = units ∧
        insert (units, added) spans = front ++ [(start, size + added)]) ∨
      (∀ span ∈ spans, span.1 + span.2 ≠ units) ∧
        insert (units, added) spans = spans ++ [(units, added)] := by
  by_cases hends : ∃ span ∈ spans, span.1 + span.2 = units
  · left
    obtain ⟨⟨start, size⟩, hm, hend⟩ := hends
    obtain ⟨front, behind, rfl⟩ := List.append_of_mem hm
    have hbehind : behind = [] := by
      apply List.eq_nil_iff_forall_not_mem.mpr
      intro other hother
      have hapart := (List.pairwise_cons.mp (List.pairwise_append.mp hp).2.1).1 other hother
      have hother := hle other (by simp [hother])
      unfold Apart at hapart
      omega
    subst hbehind
    exact ⟨front, start, size, rfl, hend, insert_touching hp (hpos _ hm) hend⟩
  · right
    have hne : ∀ span ∈ spans, span.1 + span.2 ≠ units := fun span hm hend =>
      hends ⟨span, hm, hend⟩
    exact ⟨hne, insert_beyond hp fun span hm => Nat.lt_of_le_of_ne (hle span hm) (hne span hm)⟩

/-- What is covered after a span was put among others is what was covered before, and the span. -/
theorem exists_covers_insert {unit : Nat} {span : Span} {spans : List Span} :
    (∃ other ∈ insert span spans, covers unit other = true) ↔
      covers unit span = true ∨ ∃ other ∈ spans, covers unit other = true := by
  rw [← List.countP_pos_iff, countP_insert, List.countP_pos_iff]
  simp only [List.mem_cons, exists_eq_or_imp]

/-- A span of a tiling can be put among the others instead of beside them. -/
theorem Tiles.insert {free live : List Span} {span : Span} {units : Nat}
    (h : Tiles (free ++ span :: live) units) : Tiles (Span.insert span free ++ live) units := by
  have hperm : (span :: free ++ live).Perm (free ++ span :: live) := List.perm_middle.symm
  intro unit
  rw [← h unit, ← hperm.countP_eq, List.countP_append, countP_insert, ← List.countP_append]

/-- A tiling goes on behind its end with one more span. -/
theorem Tiles.lengthen {free live : List Span} {units : Nat} (h : Tiles (free ++ live) units)
    (added : Nat) : Tiles (free ++ (units, added) :: live) (units + added) := by
  intro unit
  have hall := h unit
  simp only [List.countP_append, List.countP_cons, covers_iff] at hall ⊢
  split_ifs at * <;> omega

/-! ## Normal form -/

/-- What ascending spans cover starts with the first of them, and leaves out the unit right behind
that one. -/
theorem bounds_of_countP_pos {first : Span} {rest : List Span}
    (hp : (first :: rest).Pairwise Apart) {unit : Nat}
    (hcount : 0 < (first :: rest).countP (covers unit)) :
    first.1 ≤ unit ∧ unit ≠ first.1 + first.2 := by
  obtain ⟨span, hm, hcover⟩ := List.countP_pos_iff.mp hcount
  rw [covers_iff] at hcover
  rcases List.mem_cons.mp hm with rfl | hm
  · omega
  · have := (List.pairwise_cons.mp hp).1 span hm
    unfold Apart at this
    omega

/-- Of two lists that cover the same units, neither starts in front of the other, and neither goes
on where the first span of the other has ended. -/
theorem head_le_of_countP_eq {first other : Span} {rest rest' : List Span}
    (hp : (first :: rest).Pairwise Apart) (hp' : (other :: rest').Pairwise Apart)
    (hpos : 0 < first.2)
    (h : ∀ unit, (first :: rest).countP (covers unit) = (other :: rest').countP (covers unit)) :
    other.1 ≤ first.1 ∧ (first.1 = other.1 → other.2 ≤ first.2) := by
  constructor
  · have hcount : 0 < (first :: rest).countP (covers first.1) :=
      List.countP_pos_iff.mpr ⟨first, List.mem_cons_self, covers_iff.mpr (by omega)⟩
    rw [h] at hcount
    exact (bounds_of_countP_pos hp' hcount).1
  · intro hstart
    by_contra hlonger
    have hcount : 0 < (other :: rest').countP (covers (first.1 + first.2)) :=
      List.countP_pos_iff.mpr ⟨other, List.mem_cons_self, covers_iff.mpr (by omega)⟩
    rw [← h] at hcount
    exact (bounds_of_countP_pos hp hcount).2 rfl

/-- Spans that lie apart are in normal form: the units that they cover tell which they are. -/
theorem eq_of_countP_eq {spans others : List Span} (hp : spans.Pairwise Apart)
    (hp' : others.Pairwise Apart) (hpos : ∀ span ∈ spans, 0 < span.2)
    (hpos' : ∀ span ∈ others, 0 < span.2)
    (h : ∀ unit, spans.countP (covers unit) = others.countP (covers unit)) : spans = others := by
  have hnonempty : ∀ (span : Span) (rest : List Span), 0 < span.2 →
      0 < (span :: rest).countP (covers span.1) := fun span rest hlen =>
    List.countP_pos_iff.mpr ⟨span, List.mem_cons_self, covers_iff.mpr (by omega)⟩
  induction spans generalizing others with
  | nil =>
    cases others with
    | nil => rfl
    | cons other rest =>
      have hcount := hnonempty other rest (hpos' other List.mem_cons_self)
      rw [← h] at hcount
      exact absurd hcount (Nat.lt_irrefl 0)
  | cons span rest ih =>
    obtain ⟨hlen, hrest⟩ := List.forall_mem_cons.mp hpos
    cases others with
    | nil =>
      have hcount := hnonempty span rest hlen
      rw [h] at hcount
      exact absurd hcount (Nat.lt_irrefl 0)
    | cons other rest' =>
      obtain ⟨hlen', hrest'⟩ := List.forall_mem_cons.mp hpos'
      have hle := head_le_of_countP_eq hp hp' hlen h
      have hge := head_le_of_countP_eq hp' hp hlen' fun unit => (h unit).symm
      have hstart : span.1 = other.1 := Nat.le_antisymm hge.1 hle.1
      have hsize : span.2 = other.2 := Nat.le_antisymm (hge.2 hstart.symm) (hle.2 hstart)
      obtain rfl : span = other := Prod.ext hstart hsize
      congr 1
      apply ih (List.pairwise_cons.mp hp).2 (List.pairwise_cons.mp hp').2 hrest hrest'
      intro unit
      have := h unit
      rw [List.countP_cons, List.countP_cons] at this
      omega

/-- The spans of a tiling that lie apart are told by the others. -/
theorem Tiles.unique {free free' live live' : List Span} {units : Nat}
    (h : Tiles (free ++ live) units) (h' : Tiles (free' ++ live') units) (hlive : live.Perm live')
    (hp : free.Pairwise Apart) (hp' : free'.Pairwise Apart) (hpos : ∀ span ∈ free, 0 < span.2)
    (hpos' : ∀ span ∈ free', 0 < span.2) : free = free' := by
  apply eq_of_countP_eq hp hp' hpos hpos'
  intro unit
  have hall := (h unit).trans (h' unit).symm
  rw [List.countP_append, List.countP_append, hlive.countP_eq] at hall
  exact Nat.add_right_cancel hall

end Span

end BootMemory
