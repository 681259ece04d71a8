import BootMemory.Address.Align
import BootMemory.Proofs.Outcome
import Mathlib.Data.Finset.Card
import Mathlib.Order.Bounds.Basic
import Mathlib.Order.Interval.Finset.Nat

/-!
# Rounding, up to the last address

Rounding down gives the greatest multiple that is not above a number, and rounding up the least one
that is not below it. A power of two that fits a word divides 2 ^ 64, so the multiples below 2 ^ 64
end with `2 ^ 64 - granule`, and a number above that is rounded up to it, which is down.

A machine rounds by clearing the low bits of a word, after a sum that is taken only if it fits.
`Masked` writes this down on words of 64 bits, with every difference checked. A mask of low bits
clears the remainder (`Masked.toNat_clear`), so the words are the numbers of `alignDown`, `alignUp`
and `wholePages`, and there is no fault.

The pages inside a range are counted by the distance of its rounded ends. The count is right for
every range, because a range that starts above the last multiple holds no page and is rounded to
nothing (`card_pagesInside`).
-/

set_option autoImplicit false

namespace BootMemory

variable {n m granule : Nat}

/-! ## Multiples -/

/-- A number rounded down is a multiple of the granule. -/
theorem dvd_roundDown (n granule : Nat) : granule ∣ roundDown n granule := Nat.dvd_mul_left _ _

/-- A number rounded up is a multiple of the granule. -/
theorem dvd_roundUp (n granule : Nat) : granule ∣ roundUp n granule := by
  unfold roundUp
  split_ifs
  · exact dvd_roundDown _ _
  · exact dvd_roundDown _ _

/-- A multiple is not above a number exactly if it is not above the number rounded down. -/
theorem le_roundDown_iff (hm : granule ∣ m) : m ≤ roundDown n granule ↔ m ≤ n := by
  refine ⟨fun h => h.trans (roundDown_le _ _), fun h => ?_⟩
  obtain ⟨k, rfl⟩ := hm
  rcases Nat.eq_zero_or_pos granule with rfl | hpos
  · rw [Nat.zero_mul]
    exact Nat.zero_le _
  · rw [roundDown, Nat.mul_comm granule k]
    apply Nat.mul_le_mul_right
    rwa [Nat.le_div_iff_mul_le hpos, Nat.mul_comm]

/-- The multiple that is found by adding all of a granule but one and rounding down is not above
another one exactly if the number is not. -/
theorem roundDown_add_le_iff (hpos : 0 < granule) (hm : granule ∣ m) :
    roundDown (n + (granule - 1)) granule ≤ m ↔ n ≤ m := by
  obtain ⟨k, rfl⟩ := hm
  rw [roundDown, Nat.mul_comm granule k, Nat.mul_le_mul_right_iff hpos]
  rw [← Nat.lt_succ_iff, Nat.div_lt_iff_lt_mul hpos, Nat.succ_mul]
  omega

/-- The greatest multiple that is not above a number, and the least one that is not below it. If
that is not below 2 ^ 64, the last multiple takes its place. -/
structure Rounds (n granule down up : Nat) : Prop where
  down : IsGreatest {m | granule ∣ m ∧ m ≤ n} down
  up : ∃ least, IsLeast {m | granule ∣ m ∧ n ≤ m} least ∧
    up = if least < 2 ^ 64 then least else 2 ^ 64 - granule

/-- Rounding down gives the greatest multiple that is not above the number. -/
theorem isGreatest_roundDown (n granule : Nat) :
    IsGreatest {m | granule ∣ m ∧ m ≤ n} (roundDown n granule) :=
  ⟨⟨dvd_roundDown n granule, roundDown_le n granule⟩, fun _ h => (le_roundDown_iff h.1).mpr h.2⟩

/-- Rounding down after adding all but one of the granule gives the least multiple that is not
below the number. -/
theorem isLeast_roundDown_add (hpos : 0 < granule) (n : Nat) :
    IsLeast {m | granule ∣ m ∧ n ≤ m} (roundDown (n + (granule - 1)) granule) := by
  refine ⟨⟨dvd_roundDown _ _, ?_⟩, fun _ h => (roundDown_add_le_iff hpos h.1).mpr h.2⟩
  exact (roundDown_add_le_iff hpos (dvd_roundDown _ _)).mp le_rfl

/-- Rounding down gets below a multiple exactly from below it. -/
theorem roundDown_lt_iff (hm : granule ∣ m) : roundDown n granule < m ↔ n < m := by
  rw [← Nat.not_le, le_roundDown_iff hm, Nat.not_le]

/-- The last multiple below 2 ^ 64 is `2 ^ 64 - granule`. -/
theorem roundDown_le_last (hword : granule ∣ 2 ^ 64) (hn : n < 2 ^ 64) :
    roundDown n granule ≤ 2 ^ 64 - granule := by
  have hlt : roundDown n granule < 2 ^ 64 := (roundDown_lt_iff hword).mpr hn
  have hgap : granule ∣ 2 ^ 64 - roundDown n granule := Nat.dvd_sub hword (dvd_roundDown n granule)
  have := Nat.le_of_dvd (by omega) hgap
  omega

/-- A number from which the next multiple does not fit a word is rounded down to the last one. -/
theorem roundDown_eq_last (hword : granule ∣ 2 ^ 64) (hn : n < 2 ^ 64)
    (hlast : 2 ^ 64 ≤ n + (granule - 1)) : roundDown n granule = 2 ^ 64 - granule := by
  apply Nat.le_antisymm (roundDown_le_last hword hn)
  rw [le_roundDown_iff (Nat.dvd_sub hword (Nat.dvd_refl granule))]
  omega

/-- For every granule that divides the address space, the two roundings of a word are the nearest
multiples on either side, the upper one saturated. -/
theorem rounds (hpos : 0 < granule) (hword : granule ∣ 2 ^ 64) (hn : n < 2 ^ 64) :
    Rounds n granule (roundDown n granule) (roundUp n granule) := by
  refine ⟨isGreatest_roundDown n granule, _, isLeast_roundDown_add hpos n, ?_⟩
  simp only [roundDown_lt_iff hword]
  unfold roundUp
  split_ifs with hfits
  · rfl
  · exact roundDown_eq_last hword hn (Nat.not_lt.mp hfits)

/-! ## Pages inside a range -/

/-- The pages whose bytes all lie from `first` up to, but not including, `stop`. -/
def pagesInside (size : PageSize) (first stop : Nat) : Finset Nat :=
  Finset.Ico ((first + (size.bytes - 1)) / size.bytes) (stop / size.bytes)

/-- A page lies inside a range exactly when its first and its last byte do. -/
theorem mem_pagesInside {size : PageSize} {first stop page : Nat} :
    page ∈ pagesInside size first stop ↔
      first ≤ page * size.bytes ∧ (page + 1) * size.bytes ≤ stop := by
  have hpos := size.bytes_pos
  rw [pagesInside, Finset.mem_Ico, ← Nat.lt_succ_iff, Nat.div_lt_iff_lt_mul hpos,
    Nat.lt_iff_add_one_le (m := page), Nat.le_div_iff_mul_le hpos, Nat.succ_mul]
  refine and_congr_left' ?_
  omega

/-- Both page sizes divide the 64-bit address space. -/
theorem PageSize.bytes_dvd (size : PageSize) : size.bytes ∣ 2 ^ 64 :=
  ⟨PhysPage.count size, by rw [Nat.mul_comm, PhysPage.count_mul_bytes]⟩

/-- The pages are counted exactly, also in a range that starts above the last multiple. -/
theorem card_pagesInside (size : PageSize) {first stop : Nat} (hfirst : first < 2 ^ 64)
    (hstop : stop < 2 ^ 64) :
    (pagesInside size first stop).card = wholePages size first stop := by
  rw [pagesInside, Nat.card_Ico]
  by_cases hfits : first + (size.bytes - 1) < 2 ^ 64
  · rw [wholePages, roundUp, if_pos hfits, roundDown, roundDown, ← Nat.sub_mul,
      Nat.mul_div_cancel _ size.bytes_pos]
  · -- The range ends before a page can start, and both its ends are rounded to the last multiple.
    have hnone : stop / size.bytes ≤ (first + (size.bytes - 1)) / size.bytes :=
      Nat.div_le_div_right (by omega)
    rw [wholePages, roundUp, if_neg hfits,
      roundDown_eq_last size.bytes_dvd hfirst (Nat.not_lt.mp hfits),
      Nat.sub_eq_zero_of_le (roundDown_le_last size.bytes_dvd hstop), Nat.zero_div,
      Nat.sub_eq_zero_of_le hnone]

/-! ## Rounding by masks -/

/-- The test for a power of two accepts exactly the powers of two. -/
theorem isPowerOfTwo_iff : isPowerOfTwo n = true ↔ ∃ k, n = 2 ^ k := by
  unfold isPowerOfTwo
  rw [beq_iff_eq]
  constructor
  · exact fun h => ⟨n.log2, h.symm⟩
  · rintro ⟨k, rfl⟩
    rw [Nat.log2_two_pow]

namespace Masked

/-- The difference of two words, if it is not negative. -/
def sub (a b : BitVec 64) : Except Fault (BitVec 64) :=
  if b ≤ a then .ok (a - b) else .error .overflow

/-- The sum of two words, if it fits a word. -/
def add? (a b : BitVec 64) : Option (BitVec 64) :=
  if a.toNat + b.toNat < 2 ^ 64 then some (a + b) else none

/-- Rounds down to a power of two by clearing the bits below it. -/
def alignDown (x granule : BitVec 64) : Except Fault (BitVec 64) :=
  if isPowerOfTwo granule.toNat then do
    let mask ← sub granule 1
    return x &&& ~~~mask
  else .error .assertion

/-- Rounds up to a power of two, and down where the sum does not fit a word. -/
def alignUp (x granule : BitVec 64) : Except Fault (BitVec 64) :=
  if isPowerOfTwo granule.toNat then do
    let mask ← sub granule 1
    match add? x mask with
    | some sum => return sum &&& ~~~mask
    | none => return x &&& ~~~mask
  else .error .assertion

/-- The number of pages that lie inside the bytes from `first` up to, but not including, `stop`. -/
def wholePages (size : PageSize) (first stop : BitVec 64) : Except Fault (BitVec 64) := do
  let low ← alignUp first (.ofNat 64 size.bytes)
  let high ← alignDown stop (.ofNat 64 size.bytes)
  if low < high then
    let bytes ← sub high low
    return bytes >>> size.shift
  else
    return 0

variable {x granule : BitVec 64} {k : Nat}

/-- One less than a power of two is the mask of the bits below it. -/
theorem sub_one_eq (h : granule.toNat = 2 ^ k) :
    ∃ mask, sub granule 1 = .ok mask ∧ mask.toNat = 2 ^ k - 1 := by
  have hle : (1 : BitVec 64) ≤ granule := by
    rw [BitVec.le_def, h]
    exact Nat.one_le_two_pow
  refine ⟨granule - 1, if_pos hle, ?_⟩
  rw [BitVec.toNat_sub_of_le hle, h]
  rfl

/-- Clearing the bits of a mask below a power of two takes the remainder away. -/
theorem toNat_clear {mask : BitVec 64} (x : BitVec 64) (h : mask.toNat = 2 ^ k - 1) :
    (x &&& ~~~mask).toNat = roundDown x.toNat (2 ^ k) := by
  apply Nat.eq_of_testBit_eq
  intro i
  have hmask : mask.getLsbD i = decide (i < k) := by
    rw [BitVec.getLsbD, h, Nat.testBit_two_pow_sub_one]
  rw [roundDown, Nat.testBit_mul_two_pow, Nat.testBit_div_two_pow, BitVec.testBit_toNat,
    BitVec.testBit_toNat, BitVec.getLsbD_and, BitVec.getLsbD_not, hmask]
  by_cases hi : i < k
  · simp [hi]
  · rw [Nat.sub_add_cancel (Nat.not_lt.mp hi)]
    by_cases hword : i < 64
    · simp [hi, hword, Nat.not_lt.mp hi]
    · rw [BitVec.getLsbD_of_ge x i (Nat.not_lt.mp hword), Bool.false_and, Bool.and_false]

/-- The masked bits give the multiple that a division gives. -/
theorem alignDown_eq (x granule : BitVec 64) :
    (alignDown x granule).map BitVec.toNat = BootMemory.alignDown x.toNat granule.toNat := by
  unfold alignDown BootMemory.alignDown
  split_ifs with hpower
  · obtain ⟨k, hk⟩ := isPowerOfTwo_iff.mp hpower
    obtain ⟨mask, hsub, hmask⟩ := sub_one_eq hk
    rw [hsub, Outcome.ok_bind, Outcome.pure_eq_ok, Outcome.map_ok, toNat_clear x hmask, hk]
  · rfl

/-- The sum is taken exactly where it does not run over, so nothing of it is lost. -/
theorem alignUp_eq (x granule : BitVec 64) :
    (alignUp x granule).map BitVec.toNat = BootMemory.alignUp x.toNat granule.toNat := by
  unfold alignUp BootMemory.alignUp
  split_ifs with hpower
  · obtain ⟨k, hk⟩ := isPowerOfTwo_iff.mp hpower
    obtain ⟨mask, hsub, hmask⟩ := sub_one_eq hk
    rw [hsub, Outcome.ok_bind, roundUp, hk, ← hmask, add?]
    split_ifs with hfits
    · show Except.ok ((x + mask) &&& ~~~mask).toNat = _
      rw [toNat_clear _ hmask, BitVec.toNat_add_of_lt hfits]
    · show Except.ok (x &&& ~~~mask).toNat = _
      rw [toNat_clear _ hmask]
  · rfl

/-- Both page sizes are powers of two. -/
theorem isPowerOfTwo_bytes (size : PageSize) : isPowerOfTwo size.bytes = true :=
  isPowerOfTwo_iff.mpr ⟨size.shift, size.bytes_eq_two_pow⟩

/-- Both page sizes fit a 64-bit word. -/
theorem toNat_bytes (size : PageSize) : (BitVec.ofNat 64 size.bytes).toNat = size.bytes := by
  cases size <;> rfl

/-- The guarded difference of the rounded ends is the number of pages, and nothing runs over. -/
theorem wholePages_eq (size : PageSize) (first stop : BitVec 64) :
    (wholePages size first stop).map BitVec.toNat =
      .ok (BootMemory.wholePages size first.toNat stop.toNat) := by
  have hup := alignUp_eq first (.ofNat 64 size.bytes)
  have hdown := alignDown_eq stop (.ofNat 64 size.bytes)
  rw [toNat_bytes, BootMemory.alignUp, if_pos (isPowerOfTwo_bytes size)] at hup
  rw [toNat_bytes, BootMemory.alignDown, if_pos (isPowerOfTwo_bytes size)] at hdown
  obtain ⟨low, hlow, hlow'⟩ := Outcome.map_eq_ok.mp hup
  obtain ⟨high, hhigh, hhigh'⟩ := Outcome.map_eq_ok.mp hdown
  rw [wholePages, hlow, Outcome.ok_bind, hhigh, Outcome.ok_bind, BootMemory.wholePages, ← hlow',
    ← hhigh']
  by_cases hlt : low < high
  · have hle : low ≤ high := BitVec.le_of_lt hlt
    rw [if_pos hlt, sub, if_pos hle, Outcome.ok_bind, Outcome.pure_eq_ok, Outcome.map_ok,
      BitVec.toNat_ushiftRight, BitVec.toNat_sub_of_le hle, Nat.shiftRight_eq_div_pow,
      size.bytes_eq_two_pow]
  · have hle : high.toNat ≤ low.toNat := BitVec.not_lt.mp hlt
    rw [if_neg hlt, Nat.sub_eq_zero_of_le hle, Nat.zero_div]
    rfl

end Masked

/-! ## Exact up to the top -/

/-- For every word and every power of two that is a word: rounding down gives the greatest multiple
that is not above the word, and rounding up the least one that is not below it, or the last multiple
if that does not fit a word. For both sizes of pages and every range, the pages inside are counted
exactly, whether the range is inverted, empty or ends with the last address. Taken bit by bit in
words of 64 bits, the answers are the same, and nothing runs over. -/
theorem rounding_exact :
    (∀ x granule : BitVec 64, (∃ k, granule.toNat = 2 ^ k) → ∃ down up,
      alignDown x.toNat granule.toNat = .ok down ∧ alignUp x.toNat granule.toNat = .ok up ∧
      (Masked.alignDown x granule).map BitVec.toNat = .ok down ∧
      (Masked.alignUp x granule).map BitVec.toNat = .ok up ∧
      Rounds x.toNat granule.toNat down up) ∧
    ∀ (size : PageSize) (first stop : BitVec 64), ∃ pages : Finset Nat,
      (∀ page, page ∈ pages ↔
        first.toNat ≤ page * size.bytes ∧ (page + 1) * size.bytes ≤ stop.toNat) ∧
      wholePages size first.toNat stop.toNat = pages.card ∧
      (Masked.wholePages size first stop).map BitVec.toNat = .ok pages.card := by
  constructor
  · intro x granule hpower
    have hchecked := isPowerOfTwo_iff.mpr hpower
    have hdown : alignDown x.toNat granule.toNat = .ok (roundDown x.toNat granule.toNat) :=
      if_pos hchecked
    have hup : alignUp x.toNat granule.toNat = .ok (roundUp x.toNat granule.toNat) :=
      if_pos hchecked
    refine ⟨_, _, hdown, hup, (Masked.alignDown_eq x granule).trans hdown,
      (Masked.alignUp_eq x granule).trans hup, ?_⟩
    obtain ⟨k, hk⟩ := hpower
    have hpos : 0 < granule.toNat := by
      rw [hk]
      exact Nat.two_pow_pos k
    have hword : granule.toNat ∣ 2 ^ 64 := by
      rw [hk]
      apply Nat.pow_dvd_pow 2
      exact Nat.le_of_lt ((Nat.pow_lt_pow_iff_right (by decide)).mp (hk ▸ granule.isLt))
    exact rounds hpos hword x.isLt
  · intro size first stop
    have hcard := card_pagesInside size first.isLt stop.isLt
    refine ⟨pagesInside size first.toNat stop.toNat, fun page => mem_pagesInside, hcard.symm, ?_⟩
    rw [Masked.wholePages_eq, hcard]

/-- The last address is rounded up to the last page, which is below it, and the range from there to
itself holds no page. -/
theorem rounding_exact_last_address :
    (∃ k, (0x1000 : BitVec 64).toNat = 2 ^ k) ∧
      Rounds (2 ^ 64 - 1) 0x1000 (2 ^ 64 - 0x1000) (2 ^ 64 - 0x1000) ∧
      ∃ pages : Finset Nat, (∀ page, page ∈ pages ↔
        2 ^ 64 - 0xFFF ≤ page * 0x1000 ∧ (page + 1) * 0x1000 ≤ 2 ^ 64 - 1) ∧ pages.card = 0 := by
  have hpower : ∃ k, (0x1000 : BitVec 64).toNat = 2 ^ k := ⟨12, rfl⟩
  obtain ⟨down, up, hdown, hup, -, -, hrounds⟩ :=
    rounding_exact.1 0xFFFFFFFFFFFFFFFF 0x1000 hpower
  cases hdown
  cases hup
  obtain ⟨pages, hmem, hcard, -⟩ :=
    rounding_exact.2 .small 0xFFFFFFFFFFFFF001 0xFFFFFFFFFFFFFFFF
  exact ⟨hpower, hrounds, pages, hmem, hcard.symm⟩

end BootMemory
