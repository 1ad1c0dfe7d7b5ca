import Mathlib
import ResourceIndex.Geometry

set_option autoImplicit false

/-! # Linear-hashing addresses

A geometry *spans* `n` buckets at level `k` when its masks are those of `2 ^ k` and `2 ^ (k + 1)`
buckets and `n` is `2 ^ k` and as many more as the cursor says. It then routes every hash by
the rule of linear hashing (`route_eq`), to one of the `n` buckets (`route_lt`), and `n` alone
decides to which (`route_congr`): the end of one generation addresses as the beginning of the
next.

`route_advance` is the fact that makes growth by one bucket work: moving the cursor on changes
the bucket of those hashes only that were routed to the bucket at the cursor, and these then
go to that bucket or to the new one.
-/

namespace ResourceIndex

/-- The rule of linear hashing with `n` buckets, of which `p` made up the generation's
beginning: a hash modulo `2 * p` if there is such a bucket, and modulo `p` otherwise. -/
def linearIndex (p n : Nat) (hash : Word) : Nat :=
  if hash.toNat % (2 * p) < n then hash.toNat % (2 * p) else hash.toNat % p

namespace Geometry

/-- The geometry `g` addresses `n` buckets, `2 ^ k` of them from the beginning of the
generation. -/
structure Spans (g : Geometry) (k n : Nat) : Prop where
  low : g.lowMask + 1 = 2 ^ k
  high : g.highMask + 1 = 2 ^ (k + 1)
  cursor : g.nextSplit ≤ 2 ^ k
  count : n = 2 ^ k + g.nextSplit

theorem spans_start (k : Nat) : (start (2 ^ k)).Spans k (2 ^ k) := by
  have hpos : 0 < 2 ^ k := Nat.two_pow_pos k
  refine ⟨?_, ?_, Nat.zero_le _, rfl⟩
  · simp only [start]
    omega
  · simp only [start, widen, Nat.pow_succ]
    omega

/-- A remainder modulo `2 * p` is the one modulo `p`, or `p` more. -/
theorem mod_two_mul_cases (x p : Nat) :
    x % (2 * p) = x % p ∨ x % (2 * p) = x % p + p := by
  rw [Nat.mul_comm, Nat.mod_mul]
  rcases Nat.mod_two_eq_zero_or_one (x / p) with hb | hb
  · left
    rw [hb, Nat.mul_zero, Nat.add_zero]
  · right
    rw [hb, Nat.mul_one]

namespace Spans

variable {g g' : Geometry} {k k' n : Nat}

/-- The two masks cut a hash down to its remainders. -/
theorem and_masks (hg : g.Spans k n) (x : Nat) :
    x &&& g.lowMask = x % 2 ^ k ∧ x &&& g.highMask = x % (2 * 2 ^ k) := by
  have hlow : g.lowMask = 2 ^ k - 1 := by
    have := hg.low
    omega
  have hhigh : g.highMask = 2 ^ (k + 1) - 1 := by
    have := hg.high
    omega
  rw [hlow, hhigh, Nat.and_two_pow_sub_one_eq_mod, Nat.and_two_pow_sub_one_eq_mod,
    Nat.pow_succ, Nat.mul_comm]
  exact ⟨rfl, rfl⟩

theorem route_def (hg : g.Spans k n) (hash : Word) :
    g.route hash =
      if g.nextSplit ≤ hash.toNat % 2 ^ k then hash.toNat % 2 ^ k
      else hash.toNat % (2 * 2 ^ k) := by
  obtain ⟨hl, hh⟩ := hg.and_masks hash.toNat
  unfold route
  rw [hl, hh]

/-- **Routing follows the rule of linear hashing.** -/
theorem route_eq (hg : g.Spans k n) (hash : Word) :
    g.route hash = linearIndex (g.lowMask + 1) n hash := by
  have hlt : hash.toNat % 2 ^ k < 2 ^ k := Nat.mod_lt _ (Nat.two_pow_pos k)
  have hn := hg.count
  have hc := hg.cursor
  rw [hg.route_def, hg.low]
  unfold linearIndex
  -- when the remainders differ, the larger one is a bucket if the cursor has passed the smaller
  rcases mod_two_mul_cases hash.toNat (2 ^ k) with hm | hm
  · rw [hm, ite_self, ite_self]
  · by_cases hs : g.nextSplit ≤ hash.toNat % 2 ^ k
    · rw [if_pos hs, if_neg (by omega)]
    · rw [if_neg hs, if_pos (by omega)]

theorem route_lt (hg : g.Spans k n) (hash : Word) : g.route hash < n := by
  have hlt : hash.toNat % 2 ^ k < 2 ^ k := Nat.mod_lt _ (Nat.two_pow_pos k)
  have hn := hg.count
  rw [hg.route_def]
  split
  · omega
  · rcases mod_two_mul_cases hash.toNat (2 ^ k) with hm | hm <;> omega

theorem cursor_lt (hg : g.Spans k n) : g.nextSplit < n := by
  have hpos : 0 < 2 ^ k := Nat.two_pow_pos k
  have hn := hg.count
  omega

/-- The level is that of the buckets, or one less at the end of a generation. -/
theorem level_cases (hg : g.Spans k n) (hg' : g'.Spans k' n) (hle : k ≤ k') :
    k' = k ∨ (k' = k + 1 ∧ n = 2 ^ (k + 1)) := by
  have hn := hg.count
  have hc := hg.cursor
  have hn' := hg'.count
  have hsucc : 2 ^ (k + 1) = 2 ^ k + 2 ^ k := Nat.two_pow_succ k
  -- a level two higher would have more buckets at its beginning than this one has at its end
  have hub : k' ≤ k + 1 := by
    by_contra hlt
    have hpow : 2 ^ (k + 2) ≤ 2 ^ k' := Nat.pow_le_pow_right (by omega) (by omega)
    have hpos : 0 < 2 ^ k := Nat.two_pow_pos k
    have hsq : 2 ^ (k + 2) = 2 ^ (k + 1) + 2 ^ (k + 1) := Nat.two_pow_succ (k + 1)
    omega
  rcases Nat.lt_or_ge k k' with hlt | hge
  · obtain rfl : k' = k + 1 := by omega
    right
    exact ⟨rfl, by omega⟩
  · left
    omega

/-- Two geometries over the same buckets route alike, the first one not being at the higher
level. -/
theorem route_congr_of_le (hg : g.Spans k n) (hg' : g'.Spans k' n) (hle : k ≤ k')
    (hash : Word) : g.route hash = g'.route hash := by
  rw [hg.route_eq, hg'.route_eq, hg.low, hg'.low]
  rcases hg.level_cases hg' hle with rfl | ⟨rfl, hn⟩
  · rfl
  · -- all buckets of the generation are there, so the lower level uses its larger modulus
    have hpos : 0 < 2 ^ k := Nat.two_pow_pos k
    have hp : 2 ^ (k + 1) = 2 * 2 ^ k := by rw [Nat.pow_succ, Nat.mul_comm]
    have hlt : hash.toNat % (2 * 2 ^ k) < n := by
      rw [hn, hp]
      exact Nat.mod_lt _ (by omega)
    unfold linearIndex
    rw [if_pos hlt, ← hp]
    split
    · rename_i hlt'
      rcases mod_two_mul_cases hash.toNat (2 ^ (k + 1)) with hm | hm
      · exact hm.symm
      · omega
    · rfl

/-- **The number of buckets decides the routing.** -/
theorem route_congr (hg : g.Spans k n) (hg' : g'.Spans k' n) (hash : Word) :
    g.route hash = g'.route hash := by
  rcases Nat.le_total k k' with hle | hle
  · exact hg.route_congr_of_le hg' hle hash
  · exact (hg'.route_congr_of_le hg hle hash).symm

/-! ## Moving the cursor on -/

/-- The geometry of the next split spans the same buckets and is not finished. -/
theorem forSplit (hg : g.Spans k n) :
    ∃ j, g.forSplit.Spans j n ∧ g.forSplit.nextSplit < 2 ^ j
      ∧ ((j = k ∧ g.forSplit = g) ∨ (j = k + 1 ∧ n = 2 ^ j ∧ g.forSplit.nextSplit = 0)) := by
  have hlow := hg.low
  have hc := hg.cursor
  have hn := hg.count
  unfold Geometry.forSplit finished
  by_cases hf : g.lowMask < g.nextSplit
  · rw [if_pos (by simpa using hf)]
    have hp : 2 ^ (k + 1) = 2 ^ k + 2 ^ k := Nat.two_pow_succ k
    have hn' : n = 2 ^ (k + 1) := by omega
    refine ⟨k + 1, ⟨hg.high, ?_, Nat.zero_le _, hn'⟩, Nat.two_pow_pos _,
      Or.inr ⟨rfl, hn', rfl⟩⟩
    have hhigh := hg.high
    show widen g.highMask + 1 = 2 ^ (k + 1 + 1)
    rw [widen, Nat.pow_succ]
    omega
  · rw [if_neg (by simpa using hf)]
    exact ⟨k, hg, by omega, Or.inl ⟨rfl, rfl⟩⟩

theorem advance (hg : g.Spans k n) (hlt : g.nextSplit < 2 ^ k) :
    g.advance.Spans k (n + 1) := by
  refine ⟨hg.low, hg.high, hlt, ?_⟩
  have hn := hg.count
  simp only [Geometry.advance]
  omega

/-- **Moving the cursor on** re-routes only the hashes of the bucket at the cursor, and these
to that bucket or to the new one. -/
theorem route_advance (hg : g.Spans k n) (hlt : g.nextSplit < 2 ^ k) (hash : Word) :
    (g.route hash ≠ g.nextSplit ∧ g.advance.route hash = g.route hash)
    ∨ (g.route hash = g.nextSplit
        ∧ (g.advance.route hash = g.nextSplit ∨ g.advance.route hash = n)) := by
  have hmod : hash.toNat % 2 ^ k < 2 ^ k := Nat.mod_lt _ (Nat.two_pow_pos k)
  have hn := hg.count
  have hadv : g.advance.nextSplit = g.nextSplit + 1 := rfl
  rw [hg.route_def, (hg.advance hlt).route_def, hadv]
  -- by where the smaller remainder is: before the cursor, at it or behind it
  rcases Nat.lt_trichotomy (hash.toNat % 2 ^ k) g.nextSplit with hs | hs | hs
  · left
    rw [if_neg (by omega), if_neg (by omega)]
    refine ⟨?_, rfl⟩
    rcases mod_two_mul_cases hash.toNat (2 ^ k) with hm | hm <;> omega
  · right
    rw [if_pos (by omega), if_neg (by omega)]
    refine ⟨hs, ?_⟩
    rcases mod_two_mul_cases hash.toNat (2 ^ k) with hm | hm <;> omega
  · left
    rw [if_pos (by omega), if_pos (by omega)]
    exact ⟨by omega, rfl⟩

/-- The number of buckets tells the level and the cursor of a generation that is not finished. -/
theorem log2_eq (hg : g.Spans k n) (hlt : g.nextSplit < 2 ^ k) :
    Nat.log2 n = k ∧ n - 2 ^ Nat.log2 n = g.nextSplit := by
  have hn := hg.count
  have hpos : 0 < 2 ^ k := Nat.two_pow_pos k
  have hp : 2 ^ (k + 1) = 2 ^ k + 2 ^ k := Nat.two_pow_succ k
  have hlog : Nat.log2 n = k := (Nat.log2_eq_iff (by omega)).mpr ⟨by omega, by omega⟩
  exact ⟨hlog, by rw [hlog]; omega⟩

/-- The hashes of the bucket at the cursor are divided by the next bit. -/
theorem route_advance_of_eq (hg : g.Spans k n) (hlt : g.nextSplit < 2 ^ k) {hash : Word}
    (hr : g.route hash = g.nextSplit) :
    g.advance.route hash = if hash.toNat.testBit k then n else g.nextSplit := by
  have hmod : hash.toNat % 2 ^ k < 2 ^ k := Nat.mod_lt _ (Nat.two_pow_pos k)
  have hn := hg.count
  have hadv : g.advance.nextSplit = g.nextSplit + 1 := rfl
  have hlow : hash.toNat % 2 ^ k = g.nextSplit := by
    rw [hg.route_def] at hr
    split at hr
    · exact hr
    · rcases mod_two_mul_cases hash.toNat (2 ^ k) with hm | hm <;> omega
  rw [(hg.advance hlt).route_def, hadv, if_neg (by omega), Nat.mul_comm, Nat.mod_mul, hlow,
    Nat.testBit_eq_decide_div_mod_eq]
  rcases Nat.mod_two_eq_zero_or_one (hash.toNat / 2 ^ k) with hb | hb
  · rw [hb, Nat.mul_zero, Nat.add_zero, if_neg (by decide)]
  · rw [hb, Nat.mul_one, if_pos (by decide)]
    omega

end Spans

end Geometry

end ResourceIndex
