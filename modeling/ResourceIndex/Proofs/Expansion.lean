import ResourceIndex.Identifier.Keyed
import ResourceIndex.Record
import ResourceIndex.Proofs.Addressing
import ResourceIndex.Proofs.Frame

set_option autoImplicit false

/-! # How far a table has grown

A table that has come about by requests is at a *level* `k`: its geometry spans its buckets at
that level, and either nothing has been split yet or the space for the generation has been
provided and a bucket of the generation has been split (`Table.AtLevel`). The masks, the
cursor, the space and the number of doublings all follow from the number of buckets.

The main statement is `run_growth`. It holds of every run, whatever becomes of the memory asked
for, of identifiers changed in place and of hashes that turn out not to be available in the
middle of a split. A split that such a hash cuts short has added its bucket but is not counted;
`abandonments` counts these.
-/

namespace ResourceIndex

namespace Table

variable {ρ ι : Type} [Resource ρ ι] [Identifier ι]

/-- The table, whose identifiers have the widths `w`, is at the level `k`: it has at least `2 ^ k`
buckets and at most twice as many. Either it is fresh in that nothing has been split, or the
cursor has left zero and space has been doubled once for each generation. -/
structure AtLevel (w : IndexWidths) (k : Nat) (t : Table ρ) : Prop where
  spans : t.geometry.Spans k t.buckets.size
  least_le : w.least ≤ k
  le_most : t.buckets.size ≤ w.mostBuckets
  generation :
    (k = w.least ∧ t.geometry.nextSplit = 0 ∧ t.doublings = 0)
    ∨ (0 < t.geometry.nextSplit ∧ t.doublings = k - w.least + 1)
  reserved : t.reserved = 2 ^ w.least * 2 ^ t.doublings

theorem size_buckets_new : (new : Table ρ).buckets.size = 2 ^ (Identifier.widths ι).least := by
  simp [new, ofBucketCount, IndexWidths.leastBuckets]

theorem new_atLevel :
    (new : Table ρ).AtLevel (Identifier.widths ι) (Identifier.widths ι).least := by
  refine ⟨?_, Nat.le_refl _, ?_, Or.inl ⟨rfl, rfl, rfl⟩, ?_⟩
  · rw [size_buckets_new]
    exact Geometry.spans_start _
  · rw [size_buckets_new]
    have hmost := (Identifier.widths ι).least_le_most
    have hlt := (Identifier.widths ι).least_lt
    exact Nat.pow_le_pow_right (by omega) (by omega)
  · show 2 ^ (Identifier.widths ι).least = _
    simp [new, ofBucketCount]

theorem SameGrowth.atLevel {t t' : Table ρ} {w : IndexWidths} {k : Nat} (hs : SameGrowth t t')
    (ht : t.AtLevel w k) : t'.AtLevel w k := by
  obtain ⟨h₁, h₂, h₃, h₄, h₅⟩ := ht
  refine ⟨?_, h₂, ?_, ?_, ?_⟩
  · rw [hs.geometry, hs.buckets]; exact h₁
  · rw [hs.buckets]; exact h₃
  · rw [hs.geometry, hs.doublings]; exact h₄
  · rw [hs.reserved, hs.doublings]; exact h₅

namespace AtLevel

variable {t : Table ρ} {w : IndexWidths} {k : Nat}

omit [Resource ρ ι] in
/-- Every identifier that can be hashed belongs in a bucket of the table. -/
theorem address?_lt (ht : t.AtLevel w k) {id : ι} {b : Nat} (hb : t.address? id = some b) :
    b < t.buckets.size := by
  obtain ⟨hash, -, rfl⟩ := Option.map_eq_some_iff.mp hb
  exact ht.spans.route_lt hash

/-- The least number of buckets, doubled once for each generation up to the one at level `j`. -/
theorem pow_least_mul {least j : Nat} (hle : least ≤ j) :
    2 ^ least * 2 ^ (j - least + 1) = 2 ^ (j + 1) := by
  have hexp : least + (j - least + 1) = j + 1 := by omega
  rw [← Nat.pow_add, hexp]

/-- Once a bucket of a generation has been split there is space for all its buckets. -/
theorem reserved_of_pos (ht : t.AtLevel w k) (hpos : 0 < t.geometry.nextSplit) :
    t.reserved = 2 ^ (k + 1) := by
  rcases ht.generation with ⟨-, h0, -⟩ | ⟨-, hd⟩
  · omega
  · calc t.reserved = 2 ^ w.least * 2 ^ (k - w.least + 1) := by rw [ht.reserved, hd]
      _ = 2 ^ (k + 1) := pow_least_mul ht.least_le

theorem reserved_of_zero (ht : t.AtLevel w k) (hzero : t.geometry.nextSplit = 0) :
    t.reserved = 2 ^ k ∧ t.doublings = 0 ∧ k = w.least := by
  rcases ht.generation with ⟨hk, -, hd⟩ | ⟨hpos, -⟩
  · refine ⟨?_, hd, hk⟩
    calc t.reserved = 2 ^ w.least * 2 ^ 0 := by rw [ht.reserved, hd]
      _ = 2 ^ k := by rw [hk, Nat.pow_zero, Nat.mul_one]
  · omega

theorem size_le_reserved (ht : t.AtLevel w k) : t.buckets.size ≤ t.reserved := by
  have hn := ht.spans.count
  have hc := ht.spans.cursor
  rcases Nat.eq_zero_or_pos t.geometry.nextSplit with hz | hp
  · have := (ht.reserved_of_zero hz).1
    omega
  · have hr := ht.reserved_of_pos hp
    rw [Nat.pow_succ] at hr
    omega

/-- The buckets at the end of the generation of the next split are more than there are, and can
be counted. -/
theorem target_bounds (ht : t.AtLevel w k)
    (hmost : t.buckets.size < w.mostBuckets) :
    t.buckets.size < t.geometry.forSplit.target ∧ t.geometry.forSplit.target < 2 ^ 64 := by
  obtain ⟨j, hj, hlt, -⟩ := ht.spans.forSplit
  have hn := hj.count
  have htarget : t.geometry.forSplit.target = 2 ^ (j + 1) := hj.high
  have hcap : w.mostBuckets ≤ 2 ^ 63 :=
    Nat.pow_le_pow_right (by omega) (Nat.min_le_right _ _)
  rw [htarget, Nat.two_pow_succ]
  omega

/-- The geometry passes its check. -/
theorem check (ht : t.AtLevel w k) : t.geometry.check t.buckets.size = .ok () := by
  have hlow := ht.spans.low
  have hhigh := ht.spans.high
  have hcursor := ht.spans.cursor
  have hn := ht.spans.count
  rw [Nat.pow_succ] at hhigh
  unfold Geometry.check Geometry.widen
  rw [if_neg (by omega), if_neg (by omega), if_neg (by omega)]

/-- Whether or not space has had to be provided for the next split, there is space for the whole
of its generation, doubled once for each generation so far. -/
theorem provisioned_space (ht : t.AtLevel w k) :
    ∃ j, t.geometry.forSplit.Spans j t.buckets.size ∧ t.geometry.forSplit.nextSplit < 2 ^ j
      ∧ w.least ≤ j ∧ (t.provisioned t.geometry.forSplit).reserved = 2 ^ (j + 1)
      ∧ (t.provisioned t.geometry.forSplit).doublings = j - w.least + 1 := by
  obtain ⟨j, hj, hlt, hcase⟩ := ht.spans.forSplit
  have htarget : t.geometry.forSplit.target = 2 ^ (j + 1) := hj.high
  have hpow : 2 ^ (j + 1) = 2 ^ j + 2 ^ j := Nat.two_pow_succ j
  have hpos : 0 < 2 ^ j := Nat.two_pow_pos j
  have hcount := ht.spans.count
  have hle := ht.least_le
  have hlej : w.least ≤ j := by
    rcases hcase with ⟨rfl, -⟩ | ⟨rfl, -⟩ <;> omega
  refine ⟨j, hj, hlt, hlej, ?_⟩
  unfold provisioned
  rcases hcase with ⟨rfl, -⟩ | ⟨rfl, hend, -⟩
  · rcases Nat.eq_zero_or_pos t.geometry.nextSplit with hz | hp
    · -- the first split of all
      obtain ⟨hr, hd, hk⟩ := ht.reserved_of_zero hz
      rw [if_neg (by omega)]
      refine ⟨htarget, ?_⟩
      show t.doublings + 1 = _
      omega
    · -- another split of the same generation
      have hr := ht.reserved_of_pos hp
      rw [if_pos (by omega)]
      refine ⟨hr, ?_⟩
      rcases ht.generation with ⟨-, h0, -⟩ | ⟨-, hd⟩
      · omega
      · exact hd
  · -- the first split of the next generation
    have hk : 2 ^ (k + 1) = 2 ^ k + 2 ^ k := Nat.two_pow_succ k
    have hp : 0 < t.geometry.nextSplit := by omega
    have hr := ht.reserved_of_pos hp
    rw [if_neg (by omega)]
    refine ⟨htarget, ?_⟩
    show t.doublings + 1 = _
    rcases ht.generation with ⟨-, h0, -⟩ | ⟨-, hd⟩ <;> omega

/-- **A split keeps the table at a level**, the next one if it begins a generation, and its new
bucket has a place in the space there already is. -/
theorem split (ht : t.AtLevel (Identifier.widths ι) k)
    (hmost : t.buckets.size < (Identifier.widths ι).mostBuckets)
    {o : Outcome (Table ρ) Unit}
    (hs : (t.provisioned t.geometry.forSplit).split t.geometry.forSplit = .ok o) :
    (∃ j, o.state.AtLevel (Identifier.widths ι) j) ∧ t.buckets.size < o.state.reserved := by
  obtain ⟨hsize, hgeo, hres, hdoub, -⟩ := split_cases hs
  obtain ⟨j, hj, hlt, hle, hr, hd⟩ := ht.provisioned_space
  rw [provisioned_buckets] at hsize
  rw [← hres] at hr
  rw [← hdoub] at hd
  have hn := hj.count
  refine ⟨⟨j, ?_, hle, ?_, ?_, ?_⟩, ?_⟩
  · rw [hgeo, hsize]
    exact hj.advance hlt
  · rw [hsize]
    exact hmost
  · right
    rw [hgeo]
    exact ⟨Nat.succ_pos _, hd⟩
  · rw [hr, hd, pow_least_mul hle]
  · rw [hr, Nat.two_pow_succ]
    omega

/-- Growing keeps the table at a level and adds a bucket, with a place in the space there is, or
leaves the table alone. -/
theorem growIfOverfull (ht : t.AtLevel (Identifier.widths ι) k) {granted : Bool}
    {o : Outcome (Table ρ) Unit} (hg : t.growIfOverfull granted = .ok o) :
    o.state = t ∧ o.answer = .ok ()
    ∨ (∃ j, o.state.AtLevel (Identifier.widths ι) j) ∧ t.buckets.size < o.state.reserved
      ∧ o.state.buckets.size = t.buckets.size + 1
      ∧ ((o.answer = .ok () ∧ o.state.splits = t.splits + 1)
        ∨ (∃ fault, o.answer = .error fault) ∧ o.state.splits = t.splits) := by
  unfold Table.growIfOverfull at hg
  split at hg
  · rcases grow_cases hg with ⟨hst, han, -⟩ | ⟨hmost, o', hs, hst, han, -⟩
    · exact Or.inl ⟨hst, han⟩
    · right
      obtain ⟨hlevel, hlt⟩ := ht.split hmost hs
      obtain ⟨hsize, -, -, -, hcount⟩ := split_cases hs
      rw [provisioned_buckets] at hsize
      rw [provisioned_splits] at hcount
      rw [hst, han]
      exact ⟨hlevel, hlt, hsize, hcount⟩
  · cases hg
    exact Or.inl ⟨rfl, rfl⟩

end AtLevel

/-! ## Splits that are cut short -/

/-- Whether a request sets a split going that does not come to its end. -/
def abandons (t : Table ρ) : Request ρ ι → Bool
  | .add granted _ =>
      match t.growIfOverfull granted with
      | .ok ⟨_, .error _, _⟩ => true
      | _ => false
  | _ => false

/-- The splits in a run of requests that do not come to their end. -/
def abandonments : Table ρ → List (Request ρ ι) → Nat
  | _, [] => 0
  | t, q :: qs =>
      (if t.abandons q then 1 else 0) +
        match t.perform q with
        | .error _ => 0
        | .ok o => o.state.abandonments qs

theorem abandons_add {t : Table ρ} {granted : Bool} {r : ρ} {o : Outcome (Table ρ) Unit}
    (hg : t.growIfOverfull granted = .ok o) :
    t.abandons (.add granted r) = true ↔ ∃ fault, o.answer = .error fault := by
  obtain ⟨state, answer, events⟩ := o
  simp only [abandons, hg]
  cases answer <;> simp

theorem abandons_of_ne_add {t : Table ρ} {q : Request ρ ι}
    (hq : ∀ granted r, q ≠ .add granted r) : t.abandons q = false := by
  cases q with
  | add granted r => exact absurd rfl (hq granted r)
  | _ => rfl

/-! ## Requests and runs -/

/-- The number of buckets goes up by one when a split is begun and never down, and a bucket is
added only where there is space for it. -/
structure Extends (t t' : Table ρ) : Prop where
  le : t.buckets.size ≤ t'.buckets.size
  grown : t'.buckets.size ≠ t.buckets.size →
    t'.buckets.size = t.buckets.size + 1 ∧ t.buckets.size < t'.reserved

theorem SameGrowth.extends {t t' : Table ρ} (hs : SameGrowth t t') : t.Extends t' where
  le := Nat.le_of_eq hs.buckets.symm
  grown h := absurd hs.buckets h

/-- **One request.** The table stays at a level, extends the one before, and has one bucket more
for each split that was counted or abandoned. -/
theorem perform_growth {t : Table ρ} {k : Nat} (ht : t.AtLevel (Identifier.widths ι) k)
    {q : Request ρ ι} {o : Outcome (Table ρ) q.Answer} (hp : t.perform q = .ok o) :
    (∃ j, o.state.AtLevel (Identifier.widths ι) j) ∧ t.Extends o.state
      ∧ o.state.buckets.size + t.splits =
          t.buckets.size + o.state.splits + (if t.abandons q then 1 else 0) := by
  rcases perform_cases hp with ⟨hq, hs⟩ | ⟨granted, r, grown, rfl, hg, hs⟩
  · refine ⟨⟨k, hs.atLevel ht⟩, hs.extends, ?_⟩
    rw [abandons_of_ne_add hq, hs.buckets, hs.splits]
    rfl
  · have hab := abandons_add (r := r) hg
    -- whether the resource is then accepted makes no difference to the size of the table
    rcases ht.growIfOverfull hg with ⟨hst, han⟩ | ⟨⟨j, hj⟩, hres, hsize, hcount⟩
    · rw [hst] at hs
      have hno : ¬ t.abandons (.add granted r) = true := by
        rw [hab, han]
        rintro ⟨fault, hf⟩
        cases hf
      refine ⟨⟨k, hs.atLevel ht⟩, hs.extends, ?_⟩
      rw [if_neg hno, hs.buckets, hs.splits]
      rfl
    · refine ⟨⟨j, hs.atLevel hj⟩, ⟨?_, fun _ => ?_⟩, ?_⟩
      · rw [hs.buckets]
        omega
      · rw [hs.buckets, hs.reserved]
        exact ⟨hsize, hres⟩
      · rw [hs.buckets, hs.splits]
        rcases hcount with ⟨han, hsp⟩ | ⟨hfault, hsp⟩
        · have hno : ¬ t.abandons (.add granted r) = true := by
            rw [hab, han]
            rintro ⟨fault, hf⟩
            cases hf
          rw [if_neg hno]
          omega
        · rw [if_pos (hab.mpr hfault)]
          omega

/-- A run keeps a table at a level, with one bucket more for each split begun. -/
theorem run_atLevel (qs : List (Request ρ ι)) :
    ∀ {t t' : Table ρ} {k : Nat} {exchanges : List (Exchange ρ ι)},
      t.AtLevel (Identifier.widths ι) k →
      t.run qs = .ok (exchanges, t') →
        (∃ j, t'.AtLevel (Identifier.widths ι) j)
          ∧ t'.buckets.size + t.splits = t.buckets.size + t'.splits + t.abandonments qs := by
  induction qs with
  | nil =>
      intro t t' k exchanges ht hr
      cases hr
      exact ⟨⟨k, ht⟩, rfl⟩
  | cons q qs ih =>
      intro t t' k exchanges ht hr
      obtain ⟨o, rest, hp, hrest, -⟩ := run_cons_eq_ok hr
      obtain ⟨⟨j, hj⟩, -, hcount⟩ := perform_growth ht hp
      obtain ⟨hlevel, hcounts⟩ := ih hj hrest
      refine ⟨hlevel, ?_⟩
      rw [abandonments, hp]
      dsimp only
      omega

/-- **How far a table has grown**, after any run of requests to a fresh one. The number of buckets
decides the masks, the cursor, the space provided and the number of doublings; it is the number
at the beginning, one more for each split counted and for each one abandoned; and no request
lowers it or adds a bucket for which there is no space. -/
theorem run_growth (qs : List (Request ρ ι)) {t : Table ρ} {exchanges : List (Exchange ρ ι)}
    (hr : (new : Table ρ).run qs = .ok (exchanges, t)) :
    let least := (Identifier.widths ι).least
    let n := t.buckets.size
    let p := t.geometry.lowMask + 1
    ((∃ k, p = 2 ^ k) ∧ t.geometry.highMask = 2 * p - 1 ∧ t.geometry.nextSplit ≤ p
      ∧ n = p + t.geometry.nextSplit)
    ∧ (2 ^ least ≤ n ∧ n ≤ 2 ^ min (Identifier.widths ι).most 63)
    ∧ (n = 2 ^ least → p = n ∧ t.geometry.nextSplit = 0 ∧ t.doublings = 0)
    ∧ (n ≠ 2 ^ least → p < n ∧ n ≤ 2 * p ∧ least ≤ Nat.log2 p
        ∧ t.doublings = Nat.log2 p - least + 1)
    ∧ (t.reserved = 2 ^ least * 2 ^ t.doublings ∧ n ≤ t.reserved)
    ∧ n = 2 ^ least + t.splits + (new : Table ρ).abandonments qs
    ∧ ∀ (q : Request ρ ι) (o : Outcome (Table ρ) q.Answer), t.perform q = .ok o →
        n ≤ o.state.buckets.size
          ∧ (o.state.buckets.size ≠ n →
              o.state.buckets.size = n + 1 ∧ n < o.state.reserved) := by
  obtain ⟨⟨k, ht⟩, hcount⟩ := run_atLevel qs new_atLevel hr
  have hsplits : (new : Table ρ).splits = 0 := rfl
  rw [size_buckets_new, hsplits] at hcount
  -- what is to be shown of `p` is the level `k` read off from it
  have hlow := ht.spans.low
  have hhigh := ht.spans.high
  have hcursor := ht.spans.cursor
  have hsize := ht.spans.count
  have hleast : 2 ^ (Identifier.widths ι).least ≤ 2 ^ k :=
    Nat.pow_le_pow_right (by omega) ht.least_le
  rw [Nat.pow_succ] at hhigh
  dsimp only
  rw [hlow, Nat.log2_two_pow]
  refine ⟨⟨⟨k, rfl⟩, by omega, hcursor, hsize⟩, ⟨by omega, ht.le_most⟩, ?_, ?_,
    ⟨ht.reserved, ht.size_le_reserved⟩, by omega, ?_⟩
  · intro hn
    have hz : t.geometry.nextSplit = 0 := by omega
    exact ⟨by omega, hz, (ht.reserved_of_zero hz).2.1⟩
  · intro hn
    rcases ht.generation with ⟨rfl, hz, -⟩ | ⟨hpos, hd⟩
    · omega
    · exact ⟨by omega, by omega, ht.least_le, hd⟩
  · intro q o hp
    obtain ⟨-, hext, -⟩ := perform_growth ht hp
    exact ⟨hext.le, hext.grown⟩

/-- Identifiers that carry their hash, for tables that begin with one bucket. -/
abbrev WideId := KeyedId ⟨0, 64, by decide, by decide⟩

/-- The hash of a resource becomes unavailable, so that the split before the third one is added is
cut short. -/
def cutShort : List (Request (Record WideId) WideId) :=
  [.add true ⟨⟨some 1, some 0⟩, "a"⟩, .modifyHandle ⟨0⟩ fun r => { r with id := ⟨some 1, none⟩ },
    .add true ⟨⟨some 2, some 1⟩, "b"⟩, .add true ⟨⟨some 3, some 1⟩, "c"⟩]

theorem run_growth_cutShort :
    ∃ exchanges t, (new : Table (Record WideId)).run cutShort = .ok (exchanges, t)
      ∧ t.buckets.size = 2 ∧ t.splits = 0
      ∧ t.buckets.size = 2 ^ 0 + t.splits + (new : Table (Record WideId)).abandonments cutShort :=
  ⟨_, _, rfl, rfl, rfl, (run_growth cutShort rfl).2.2.2.2.2.1⟩

end Table

end ResourceIndex
