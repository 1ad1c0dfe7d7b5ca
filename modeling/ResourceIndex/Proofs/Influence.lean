import ResourceIndex.Proofs.Addressing
import ResourceIndex.Proofs.Folding

set_option autoImplicit false

/-! # Which bits of a number bear on its first bucket

Folding makes copies of each bit of a word, at places lower by sums of the shifts. Each shift is
greater than all later ones together (`dominant_halvings`), so no two copies of a bit cancel, and
the lowest copy is where the shifts lead that are taken off the place of the bit greedily
(`landing`, `lowestBit_foldl`). A bit bears on the index into a fresh table if its lowest copy is
among the bits of that index.

All bits of the width that is folded bear on it if that width does not exceed the bits of the
index and the sum of the shifts. This is so when halving comes down to the bits of the index
without a remainder, as it does from a power of two. A remainder is rounded away and each one
leaves a place uncovered: of three bits folded for an index of one bit, the highest is copied
to the middle place only (`firstIndex_of_three_bits`).
-/

namespace ResourceIndex

/-! ## Shifts -/

/-- Each number is greater than those after it together. -/
def Dominant : List Nat → Prop
  | [] => True
  | s :: shifts => shifts.sum < s ∧ Dominant shifts

theorem sum_halvings_lt (least : Nat) {width : Nat} (h : 0 < width) :
    (halvings least width).sum < width := by
  fun_induction halvings least width with
  | case1 width h0 => simpa using h
  | case2 width h0 hle =>
      rw [List.sum_singleton]
      omega
  | case3 width h0 hle ih =>
      have := ih (by omega)
      rw [List.sum_cons]
      omega

theorem dominant_halvings (least width : Nat) : Dominant (halvings least width) := by
  fun_induction halvings least width with
  | case1 width h0 => trivial
  | case2 width h0 hle => exact ⟨by rw [List.sum_nil]; omega, trivial⟩
  | case3 width h0 hle ih => exact ⟨sum_halvings_lt least (by omega), ih⟩

/-- Halving without a remainder leaves no more than the bits of the index uncovered. -/
theorem le_add_sum_halvings {least q : Nat} (hq : q ≤ least) (e : Nat) :
    q * 2 ^ e ≤ least + (halvings least (q * 2 ^ e)).sum := by
  induction e with
  | zero =>
      rw [Nat.pow_zero, Nat.mul_one]
      omega
  | succ e ih =>
      have hhalf : q * 2 ^ (e + 1) / 2 = q * 2 ^ e := by
        rw [Nat.pow_succ, ← Nat.mul_assoc, Nat.mul_div_cancel _ (by decide)]
      have htwice : q * 2 ^ (e + 1) = q * 2 ^ e + q * 2 ^ e := by
        rw [Nat.pow_succ]
        ring
      rw [halvings, hhalf]
      split
      · omega
      · split
        · rw [List.sum_singleton]
          omega
        · rw [List.sum_cons]
          omega

/-! ## Where a bit is copied to -/

/-- The place that the lowest copy of the bit at the place `i` comes to: each shift is taken off
that does not lead below place zero. -/
def landing (shifts : List Nat) (i : Nat) : Nat :=
  shifts.foldl (fun i s => if s ≤ i then i - s else i) i

@[simp] theorem landing_nil (i : Nat) : landing [] i = i := rfl

theorem landing_cons (s : Nat) (shifts : List Nat) (i : Nat) :
    landing (s :: shifts) i = landing shifts (if s ≤ i then i - s else i) := rfl

theorem landing_le (shifts : List Nat) (i : Nat) : landing shifts i ≤ i := by
  induction shifts generalizing i with
  | nil => exact Nat.le_refl i
  | cons s shifts ih =>
      rw [landing_cons]
      split
      · exact (ih (i - s)).trans (Nat.sub_le i s)
      · exact ih i

theorem le_landing_add_sum (shifts : List Nat) (i : Nat) : i ≤ landing shifts i + shifts.sum := by
  induction shifts generalizing i with
  | nil => simp
  | cons s shifts ih =>
      rw [landing_cons, List.sum_cons]
      split
      · have := ih (i - s)
        omega
      · have := ih i
        omega

/-- A place far enough up is lowered by all shifts. -/
theorem landing_of_sum_le {shifts : List Nat} {i : Nat} (h : shifts.sum ≤ i) :
    landing shifts i = i - shifts.sum := by
  induction shifts generalizing i with
  | nil => simp
  | cons s shifts ih =>
      rw [List.sum_cons] at h
      rw [landing_cons, if_pos (by omega), ih (by omega), List.sum_cons]
      omega

/-- No bit below the place `c` lands above the place that the sum of the shifts leads to
from there. -/
theorem landing_add_sum_lt (least : Nat) {width c i : Nat} (hc : width ≤ c) (hi : i < c) :
    landing (halvings least width) i + (halvings least width).sum < c := by
  fun_induction halvings least width generalizing c i with
  | case1 width h0 => simpa using hi
  | case2 width h0 hle =>
      rw [landing_cons, landing_nil, List.sum_singleton]
      split <;> omega
  | case3 width h0 hle ih =>
      rw [landing_cons, List.sum_cons]
      have hlower : (if width / 2 ≤ i then i - width / 2 else i) < c - width / 2 := by
        split <;> omega
      have := ih (by omega) hlower
      omega

theorem landing_lt_iff (least : Nat) {width : Nat} :
    (∀ i < width, landing (halvings least width) i < least)
      ↔ width ≤ least + (halvings least width).sum := by
  constructor
  · intro hall
    rcases Nat.eq_zero_or_pos width with h0 | hpos
    · omega
    · have hsum := sum_halvings_lt least hpos
      have hlast := hall (width - 1) (by omega)
      rw [landing_of_sum_le (by omega)] at hlast
      omega
  · intro hle i hi
    have := landing_add_sum_lt least (Nat.le_refl width) hi
    omega

/-! ## The lowest copy of a bit -/

/-- The lowest set bit of a word is at the place `n`. -/
structure LowestBit (w : Word) (n : Nat) : Prop where
  set : w.getLsbD n = true
  clear : ∀ j < n, w.getLsbD j = false

namespace LowestBit

variable {a b w : Word} {m n : Nat}

theorem twoPow {i : Nat} (hi : i < 64) : LowestBit (BitVec.twoPow 64 i) i := by
  refine ⟨by simp [hi], ?_⟩
  intro j hj
  rw [BitVec.getLsbD_twoPow]
  simp [Nat.ne_of_gt hj]

theorem xor (ha : LowestBit a m) (hb : LowestBit b n) (hlt : n < m) :
    LowestBit (a ^^^ b) n := by
  refine ⟨?_, ?_⟩
  · rw [BitVec.getLsbD_xor, ha.clear n hlt, hb.set]
    rfl
  · intro j hj
    rw [BitVec.getLsbD_xor, ha.clear j (hj.trans hlt), hb.clear j hj]
    rfl

/-- The lowest bits of a word are zero up to its lowest set bit. -/
theorem mod_two_pow_eq_zero_iff (h : LowestBit w n) (least : Nat) :
    w.toNat % 2 ^ least = 0 ↔ least ≤ n := by
  constructor
  · intro h0
    by_contra hlt
    have hset : (w.toNat % 2 ^ least).testBit n = true := by
      rw [Nat.testBit_mod_two_pow, ← BitVec.getLsbD, h.set]
      simpa using hlt
    rw [h0, Nat.zero_testBit] at hset
    cases hset
  · intro hle
    apply Nat.eq_of_testBit_eq
    intro j
    rw [Nat.testBit_mod_two_pow, Nat.zero_testBit, ← BitVec.getLsbD]
    by_cases hj : j < least
    · rw [h.clear j (by omega), Bool.and_false]
    · simp [hj]

end LowestBit

/-- A round copies a bit to the place that the shift leads to. -/
theorem shiftXor_twoPow {i s : Nat} (hi : i < 64) (hs : s ≤ i) :
    shiftXor (BitVec.twoPow 64 i) s = BitVec.twoPow 64 i ^^^ BitVec.twoPow 64 (i - s) := by
  have hshift : BitVec.twoPow 64 i >>> s = BitVec.twoPow 64 (i - s) := by
    apply BitVec.eq_of_getLsbD_eq
    intro j hj
    have hplace : i = s + j ↔ i - s = j := by omega
    have hi' : i - s < 64 := by omega
    rw [BitVec.getLsbD_ushiftRight, BitVec.getLsbD_twoPow, BitVec.getLsbD_twoPow]
    simp [hplace, hi, hi']
  unfold shiftXor
  rw [hshift]

theorem shiftXor_twoPow_of_lt {i s : Nat} (hs : i < s) :
    shiftXor (BitVec.twoPow 64 i) s = BitVec.twoPow 64 i := by
  have hshift : BitVec.twoPow 64 i >>> s = 0 := by
    apply BitVec.eq_of_getLsbD_eq
    intro j hj
    have hplace : i ≠ s + j := by omega
    rw [BitVec.getLsbD_ushiftRight, BitVec.getLsbD_twoPow]
    simp [hplace]
  unfold shiftXor
  rw [hshift]
  exact BitVec.xor_zero

/-- **The lowest copy of a bit** is where the shifts lead it. -/
theorem lowestBit_foldl {shifts : List Nat} (hd : Dominant shifts) {i : Nat} (hi : i < 64) :
    LowestBit (shifts.foldl shiftXor (BitVec.twoPow 64 i)) (landing shifts i) := by
  induction shifts generalizing i with
  | nil => exact .twoPow hi
  | cons s shifts ih =>
      obtain ⟨hsum, hrest⟩ := hd
      rw [List.foldl_cons, landing_cons]
      by_cases hs : s ≤ i
      · rw [if_pos hs, shiftXor_twoPow hi hs, foldl_shiftXor_xor]
        -- the copies of the copy made in this round reach lower than those of the bit itself
        refine (ih hrest hi).xor (ih hrest (by omega)) ?_
        have hle := landing_le shifts (i - s)
        have hge := le_landing_add_sum shifts i
        omega
      · rw [if_neg hs, shiftXor_twoPow_of_lt (by omega)]
        exact ih hrest hi

theorem lowestBit_fold (least width : Nat) {i : Nat} (hi : i < 64) :
    LowestBit (fold least width (BitVec.twoPow 64 i))
      (landing (halvings least (min width 64)) i) := by
  rw [fold_eq]
  exact lowestBit_foldl (dominant_halvings least _) hi

/-! ## The index into a fresh table -/

/-- The bucket of a word in a fresh table of `2 ^ least` buckets. -/
def firstIndex (least width : Nat) (w : Word) : Nat :=
  (Geometry.start (2 ^ least)).route (fold least width w)

theorem firstIndex_eq (least width : Nat) (w : Word) :
    firstIndex least width w = (fold least width w).toNat % 2 ^ least := by
  unfold firstIndex
  rw [(Geometry.spans_start least).route_def]
  exact if_pos (Nat.zero_le _)

/-- A bit bears on the index if its lowest copy is among the bits of the index. -/
theorem firstIndex_ne_iff (least width : Nat) (w : Word) {i : Nat} (hi : i < 64) :
    firstIndex least width (w ^^^ BitVec.twoPow 64 i) ≠ firstIndex least width w
      ↔ landing (halvings least (min width 64)) i < least := by
  have hzero := (lowestBit_fold least width hi).mod_two_pow_eq_zero_iff least
  rw [firstIndex_eq, firstIndex_eq, fold_xor, BitVec.toNat_xor, Nat.xor_mod_two_pow, Ne,
    xor_left_eq_self_iff, hzero, Nat.not_le]

theorem forall_firstIndex_ne_iff (least width : Nat) :
    (∀ i < min width 64, ∀ w,
        firstIndex least width (w ^^^ BitVec.twoPow 64 i) ≠ firstIndex least width w)
      ↔ min width 64 ≤ least + (halvings least (min width 64)).sum := by
  rw [← landing_lt_iff]
  constructor
  · intro hall i hi
    exact (firstIndex_ne_iff least width 0 (by omega)).mp (hall i hi 0)
  · intro hall i hi w
    exact (firstIndex_ne_iff least width w (by omega)).mpr (hall i hi)

/-- **Which bits bear on the index into a fresh table.** The index is the low bits of the fold.
Changing one bit of a word changes it when, and only when, the shifts lead the place of the bit to
one of the bits of the index. All bits of the width that is folded do so when, and only when, this
width does not exceed the bits of the index and the sum of the shifts, and therefore whenever
halving leads from the width to at most the bits of the index without a remainder. -/
theorem firstIndex_responds (least width : Nat) :
    (∀ w, firstIndex least width w = (fold least width w).toNat % 2 ^ least)
      ∧ (∀ i < 64, ∀ w,
          firstIndex least width (w ^^^ BitVec.twoPow 64 i) ≠ firstIndex least width w
            ↔ landing (halvings least (min width 64)) i < least)
      ∧ ((∀ i < min width 64, ∀ w,
          firstIndex least width (w ^^^ BitVec.twoPow 64 i) ≠ firstIndex least width w)
            ↔ min width 64 ≤ least + (halvings least (min width 64)).sum)
      ∧ ∀ q e, q ≤ least → min width 64 = q * 2 ^ e → ∀ i < min width 64, ∀ w,
          firstIndex least width (w ^^^ BitVec.twoPow 64 i) ≠ firstIndex least width w := by
  refine ⟨firstIndex_eq least width, fun i hi w => firstIndex_ne_iff least width w hi,
    forall_firstIndex_ne_iff least width, fun q e hq hw => ?_⟩
  rw [forall_firstIndex_ne_iff, hw]
  exact le_add_sum_halvings hq e

/-- From 40 bits halving comes down to the 5 bits of the index without a remainder. -/
theorem firstIndex_responds_forty :
    5 ≤ 5 ∧ min 40 64 = 5 * 2 ^ 3 ∧ 39 < min 40 64
      ∧ firstIndex 5 40 (0xdeadbeef ^^^ BitVec.twoPow 64 39) ≠ firstIndex 5 40 0xdeadbeef
      ∧ landing (halvings 5 (min 40 64)) 39 < 5 := by
  obtain ⟨-, hiff, -, hexact⟩ := firstIndex_responds 5 40
  have hne := hexact 5 3 (by decide) (by decide) 39 (by decide) 0xdeadbeef
  exact ⟨by decide, by decide, by decide, hne, (hiff 39 (by decide) 0xdeadbeef).mp hne⟩

/-- The half of three is rounded down to one, and no shift leads from place two to place zero. -/
theorem firstIndex_of_three_bits :
    firstIndex 1 3 (0 ^^^ BitVec.twoPow 64 2) = firstIndex 1 3 0
      ∧ ¬ ∀ least width, 1 ≤ least → ∀ i < min width 64, ∀ w,
        firstIndex least width (w ^^^ BitVec.twoPow 64 i) ≠ firstIndex least width w := by
  have heq : firstIndex 1 3 (0 ^^^ BitVec.twoPow 64 2) = firstIndex 1 3 0 := by
    simp [firstIndex, fold, foldRounds, Geometry.start, Geometry.route]
  exact ⟨heq, fun hall => hall 1 3 (by decide) 2 (by decide) 0 heq⟩

end ResourceIndex
