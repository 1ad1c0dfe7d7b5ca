import ResourceIndex.Proofs.Partition

set_option autoImplicit false

/-! # Which hashes a split re-routes

The number of buckets alone tells where a hash is routed (`Geometry.Spans.route_eq_linearIndex`),
whether the masks are those of a generation at its end or of the next one at its beginning
(`Geometry.Spans.route_forSplit`). When the geometry moves on from `n` buckets to one more, the
hashes congruent to `n` modulo the next power of two above `n` go to the new bucket, all of them
from the bucket that is split, and no other hash moves (`Geometry.Spans.route_advance_forSplit`).

The main statement is `Table.run_routing`, for the table that any run of requests leaves behind.
-/

namespace ResourceIndex

namespace Geometry.Spans

variable {g : Geometry} {k n : Nat}

/-! ## The number of buckets decides -/

/-- The masks of the next generation address as those of the finished one. -/
theorem route_forSplit (hg : g.Spans k n) (hash : Word) : g.forSplit.route hash = g.route hash := by
  obtain ⟨j, hj, -⟩ := hg.forSplit
  exact hj.route_congr hg hash

/-- **Where a hash is routed**, by the number of buckets. -/
theorem route_eq_linearIndex (hg : g.Spans k n) (hash : Word) :
    g.route hash = linearIndex (2 ^ Nat.log2 n) n hash := by
  obtain ⟨j, hj, hlt, -⟩ := hg.forSplit
  obtain ⟨hlog, -⟩ := hj.log2_eq hlt
  calc g.route hash = g.forSplit.route hash := (hg.route_forSplit hash).symm
    _ = linearIndex (g.forSplit.lowMask + 1) n hash := hj.route_eq hash
    _ = linearIndex (2 ^ Nat.log2 n) n hash := by rw [hj.low, hlog]

/-! ## Moving on by one bucket -/

/-- The hashes that go to the new bucket. -/
theorem route_advance_eq (hg : g.Spans k n) (hlt : g.nextSplit < 2 ^ k) (hash : Word) :
    g.advance.route hash = if hash.toNat ≡ n [MOD 2 ^ (k + 1)] then n else g.route hash := by
  have hn := hg.count
  have hsucc : 2 ^ (k + 1) = 2 * 2 ^ k := Nat.pow_succ'
  have hself : n % (2 * 2 ^ k) = n := Nat.mod_eq_of_lt (by omega)
  have hiff : hash.toNat ≡ n [MOD 2 ^ (k + 1)] ↔ hash.toNat % (2 * 2 ^ k) = n := by
    rw [hsucc, Nat.ModEq, hself]
  have hlow : g.advance.lowMask + 1 = 2 ^ k := hg.low
  rw [if_congr hiff rfl rfl, (hg.advance hlt).route_eq, hg.route_eq, hlow, hg.low]
  unfold linearIndex
  -- the larger remainder is that of a bucket there was, of the new bucket, or of none
  rcases Nat.lt_trichotomy (hash.toNat % (2 * 2 ^ k)) n with hr | hr | hr
  · rw [if_pos (by omega), if_neg (by omega), if_pos hr]
  · rw [if_pos (by omega), if_pos hr, hr]
  · rw [if_neg (by omega), if_neg (by omega), if_neg (by omega)]

/-- They come from the bucket at the cursor. -/
theorem route_of_modEq (hg : g.Spans k n) (hlt : g.nextSplit < 2 ^ k) {hash : Word}
    (hmod : hash.toNat ≡ n [MOD 2 ^ (k + 1)]) : g.route hash = g.nextSplit := by
  have hnew := hg.route_advance_eq hlt hash
  rw [if_pos hmod] at hnew
  rcases hg.route_advance hlt hash with ⟨-, heq⟩ | ⟨heq, -⟩
  · exact absurd (heq.symm.trans hnew) (Nat.ne_of_lt (hg.route_lt hash))
  · exact heq

/-- **Moving on from `n` buckets**, with a change of generation or without, takes the hashes
congruent to `n` from the bucket that is split to the new one. -/
theorem route_advance_forSplit (hg : g.Spans k n) (hash : Word) :
    (g.forSplit.advance.route hash =
        if hash.toNat ≡ n [MOD 2 ^ (Nat.log2 n + 1)] then n else g.route hash)
      ∧ (hash.toNat ≡ n [MOD 2 ^ (Nat.log2 n + 1)] → g.route hash = n - 2 ^ Nat.log2 n) := by
  obtain ⟨j, hj, hlt, -⟩ := hg.forSplit
  obtain ⟨hlog, hcursor⟩ := hj.log2_eq hlt
  rw [hcursor, hlog, ← hg.route_forSplit hash]
  exact ⟨hj.route_advance_eq hlt hash, hj.route_of_modEq hlt⟩

end Geometry.Spans

/-! ## Runs -/

namespace Table

variable {ρ ι : Type} [Resource ρ ι] [Identifier ι]

/-- A request leaves the geometry as it is or, if the table may have more buckets, moves it on by
one. -/
theorem perform_geometry {t : Table ρ} {q : Request ρ ι} {o : Outcome (Table ρ) q.Answer}
    (hp : t.perform q = .ok o) :
    (o.state.geometry = t.geometry ∧ o.state.buckets.size = t.buckets.size)
      ∨ (t.buckets.size < (Identifier.widths ι).mostBuckets
        ∧ o.state.geometry = t.geometry.forSplit.advance
        ∧ o.state.buckets.size = t.buckets.size + 1) := by
  rcases perform_cases hp with ⟨-, hs⟩ | ⟨granted, r, grown, -, hg, hs⟩
  · exact Or.inl ⟨hs.geometry, hs.buckets⟩
  · rw [hs.geometry, hs.buckets]
    unfold growIfOverfull at hg
    split at hg
    · rcases grow_cases hg with ⟨hst, -⟩ | ⟨hmost, o', hsplit, hst, -⟩
      · rw [hst]
        exact Or.inl ⟨rfl, rfl⟩
      · obtain ⟨hsize, hgeometry, -⟩ := split_cases hsplit
        rw [provisioned_buckets] at hsize
        rw [hst]
        exact Or.inr ⟨hmost, hgeometry, hsize⟩
    · cases hg
      exact Or.inl ⟨rfl, rfl⟩

/-- **Which hashes a split re-routes**, after any run of requests to a fresh table. Every hash is
routed to one of the `n` buckets, which `n` and the hash alone decide. Beginning the next generation
re-routes no hash. The geometry of one bucket more routes to the new bucket the hashes congruent to
`n` modulo twice the greatest power of two up to `n`, which were all routed to the bucket that is
split, and every other hash as before. A request leaves the geometry as it is or moves it on to this
one, the latter only if the table may have more buckets. -/
theorem run_routing (qs : List (Request ρ ι)) {t : Table ρ} {exchanges : List (Exchange ρ ι)}
    (hr : (new : Table ρ).run qs = .ok (exchanges, t)) :
    let g := t.geometry
    let g' := t.geometry.forSplit.advance
    let n := t.buckets.size
    (∀ hash, g.route hash < n ∧ g.route hash = linearIndex (2 ^ Nat.log2 n) n hash)
      ∧ (g.finished → ∀ hash,
          (⟨g.highMask, Geometry.widen g.highMask, 0⟩ : Geometry).route hash = g.route hash)
      ∧ (∀ hash, (g'.route hash = n ↔ hash.toNat ≡ n [MOD 2 ^ (Nat.log2 n + 1)])
          ∧ (g'.route hash = n → g.route hash = n - 2 ^ Nat.log2 n)
          ∧ (g'.route hash ≠ n → g'.route hash = g.route hash))
      ∧ ∀ (q : Request ρ ι) (o : Outcome (Table ρ) q.Answer), t.perform q = .ok o →
          (o.state.geometry = g ∧ o.state.buckets.size = n)
            ∨ (n < (Identifier.widths ι).mostBuckets ∧ o.state.geometry = g'
              ∧ o.state.buckets.size = n + 1) := by
  obtain ⟨⟨k, ht⟩, -⟩ := run_atLevel qs new_atLevel hr
  have hg := ht.spans
  refine ⟨fun hash => ⟨hg.route_lt hash, hg.route_eq_linearIndex hash⟩, fun hf hash => ?_,
    fun hash => ?_, fun q o => perform_geometry⟩
  · have hnext := hg.route_forSplit hash
    rwa [Geometry.forSplit, if_pos hf] at hnext
  · obtain ⟨hnew, hold⟩ := hg.route_advance_forSplit hash
    by_cases hmod : hash.toNat ≡ t.buckets.size [MOD 2 ^ (Nat.log2 t.buckets.size + 1)]
    · rw [if_pos hmod] at hnew
      exact ⟨iff_of_true hnew hmod, fun _ => hold hmod, fun hne => absurd hnew hne⟩
    · rw [if_neg hmod] at hnew
      have hne : t.geometry.forSplit.advance.route hash ≠ t.buckets.size := by
        rw [hnew]
        exact Nat.ne_of_lt (hg.route_lt hash)
      exact ⟨iff_of_false hne hmod, fun heq => absurd heq hne, fun _ => hnew⟩

/-- Three resources, the last of which has the only bucket split: the first generation is
finished. -/
def twoBuckets : List (Request (Record WideId) WideId) :=
  [.add true ⟨⟨some 1, some 0⟩, "a"⟩, .add true ⟨⟨some 2, some 6⟩, "b"⟩,
    .add true ⟨⟨some 3, some 3⟩, "c"⟩]

/-- The hash `6` is of the first of two buckets, in either generation, and goes to the third one
when there is one. -/
theorem run_routing_twoBuckets :
    ∃ exchanges t, (new : Table (Record WideId)).run twoBuckets = .ok (exchanges, t)
      ∧ t.buckets.size = 2 ∧ t.geometry.finished
      ∧ t.geometry.route 6 = 0
      ∧ (⟨t.geometry.highMask, Geometry.widen t.geometry.highMask, 0⟩ : Geometry).route 6 = 0
      ∧ t.geometry.forSplit.advance.route 6 = 2 := by
  obtain ⟨-, hnext, hmove, -⟩ := run_routing twoBuckets rfl
  obtain ⟨hiff, hold, -⟩ := hmove 6
  have hnew := hiff.mpr (by decide)
  exact ⟨_, _, rfl, rfl, rfl, hold hnew, (hnext rfl 6).trans (hold hnew), hnew⟩

end Table

end ResourceIndex
