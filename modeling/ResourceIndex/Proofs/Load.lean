import ResourceIndex.Proofs.Loss

set_option autoImplicit false

/-! # How full a table is

A table that holds more resources than it has buckets begins to split one before a further resource
is added. So it gains a bucket for each resource that is one too many, unless it may not have more
buckets or the split is put off for want of memory. A split that has been put off is not made up
for, since each addition begins one split at most (`add_load`), and a bucket that has been added
stays when resources are removed.

The main statement is `run_load`: how many resources there are for the buckets, and how many buckets
for the resources, after any run of requests.
-/

namespace ResourceIndex

/-! ## What is logged of splits -/

namespace Event

/-- A split was put off. -/
def isDeferral : Event → Bool
  | splitDeferred _ _ => true
  | _ => false

/-- A bucket was split. -/
def isSplit : Event → Bool
  | bucketSplit _ _ => true
  | _ => false

end Event

/-- The splits that were put off in a run. -/
def deferrals {ρ ι : Type} (exchanges : List (Exchange ρ ι)) : Nat :=
  (exchanges.flatMap Exchange.events).countP Event.isDeferral

theorem deferrals_cons {ρ ι : Type} (x : Exchange ρ ι) (exchanges : List (Exchange ρ ι)) :
    deferrals (x :: exchanges) = x.events.countP Event.isDeferral + deferrals exchanges := by
  unfold deferrals
  rw [List.flatMap_cons, List.countP_append]

namespace Table

variable {ρ ι : Type}

/-! ## Requests that add nothing -/

/-- A table that is reworked gains no resource, and cursors take no notice of it. -/
theorem Reworked.size_le {t t' : Table ρ} (hw : Reworked t t') :
    t'.size ≤ t.size ∧ t'.epoch = t.epoch := by
  induction hw with
  | refl => exact ⟨Nat.le_refl _, rfl⟩
  | change h f _ ih => exact ih
  | @unlink t' t'' bucket h r _ hu ih =>
      refine ⟨?_, (unlink_epoch hu).trans ih.2⟩
      unfold Table.unlink at hu
      obtain ⟨e, -, hu⟩ := Checked.bind_eq_ok.mp hu
      obtain ⟨c, -, hu⟩ := Checked.bind_eq_ok.mp hu
      obtain ⟨⟨c', s⟩, hun, hu⟩ := Checked.bind_eq_ok.mp hu
      cases hu
      have hr := Chain.rewired_of_unlink hun
      have hlive : (s.erase h).live ≤ s.live := by
        unfold Slots.erase
        split
        · exact Nat.sub_le _ _
        · exact Nat.le_refl _
      exact hlive.trans ((Nat.le_of_eq hr.live).trans ih.1)

variable [Resource ρ ι] [Identifier ι]

/-- A request that adds nothing logs nothing. -/
theorem perform_quiet {t : Table ρ} {q : Request ρ ι} {o : Outcome (Table ρ) q.Answer}
    (hadd : ∀ granted r, q ≠ .add granted r) (hp : t.perform q = .ok o) : o.events = [] := by
  cases q with
  | add granted r => exact absurd rfl (hadd granted r)
  | remove id =>
      replace hp : t.remove id = .ok o := hp
      unfold Table.remove at hp
      split at hp
      · cases hp; rfl
      · obtain ⟨found, -, hp⟩ := Checked.bind_eq_ok.mp hp
        cases found with
        | none => cases hp; rfl
        | some h =>
            obtain ⟨p, -, hp⟩ := Checked.bind_eq_ok.mp hp
            cases hp
            rfl
  | modify id f =>
      obtain ⟨found, -, hp⟩ := Checked.bind_eq_ok.mp hp
      rcases found with fault | (_ | h)
      all_goals
        cases hp
        rfl
  | removeHandle h | traverse visit s | find id | lookup id | contains id | verify =>
      obtain ⟨a, -, hp⟩ := Checked.bind_eq_ok.mp hp
      cases hp
      rfl
  | modifyHandle h f | get h =>
      cases hp
      rfl

/-! ## Additions -/

/-- **All that growing does**, and what it logs: the table is left alone, because there is room in
it, because it may not have more buckets or because the split is put off; or a bucket is added. -/
theorem growIfOverfull_cases {t : Table ρ} {granted : Bool} {o : Outcome (Table ρ) Unit}
    (hg : t.growIfOverfull granted = .ok o) :
    (o.state = t ∧ o.answer = .ok ()
      ∧ ((t.size ≤ t.buckets.size ∨ (Identifier.widths ι).mostBuckets ≤ t.buckets.size)
          ∧ o.events = []
        ∨ ∃ requested, o.events = [.splitDeferred t.buckets.size requested]))
    ∨ (t.buckets.size < t.size ∧ o.state.buckets.size = t.buckets.size + 1
      ∧ (o.answer = .ok () ∧ o.state.splits = t.splits + 1 ∧ o.state.epoch = t.epoch + 1
          ∧ o.events = t.provisionEvents t.geometry.forSplit
            ++ [.bucketSplit t.geometry.forSplit.nextSplit (t.buckets.size + 1)]
        ∨ o.answer = .error .hashUnavailable ∧ o.state.splits = t.splits
          ∧ o.state.epoch = t.epoch ∧ o.events = t.provisionEvents t.geometry.forSplit)) := by
  unfold growIfOverfull at hg
  split at hg
  · rename_i hover
    rcases grow_cases hg with ⟨hst, han, hev⟩ | ⟨-, o', hs, hst, han, hev⟩
    · exact Or.inl ⟨hst, han, hev.imp_left fun h => ⟨Or.inr h.1, h.2⟩⟩
    · right
      have hsize := (split_cases hs).1
      rw [provisioned_buckets] at hsize
      rw [hst, han, hev]
      refine ⟨of_decide_eq_true hover, hsize, ?_⟩
      rcases split_outcome hs with ⟨hok, hsplits, hepoch, hlog⟩ | ⟨herr, hsplits, hepoch, hlog⟩
      · rw [provisioned_splits] at hsplits
        rw [provisioned_epoch] at hepoch
        rw [provisioned_buckets] at hlog
        exact Or.inl ⟨hok, hsplits, hepoch, by rw [hlog]⟩
      · rw [provisioned_splits] at hsplits
        rw [provisioned_epoch] at hepoch
        exact Or.inr ⟨herr, hsplits, hepoch, by rw [hlog, List.append_nil]⟩
  · rename_i hover
    cases hg
    refine Or.inl ⟨rfl, rfl, Or.inl ⟨Or.inl (Nat.le_of_not_lt fun hlt => hover ?_), rfl⟩⟩
    exact decide_eq_true hlt

theorem provisionEvents_countP {p : Event → Bool} (hp : ∀ b m, ¬ p (.arrayDoubled b m))
    (t : Table ρ) (g : Geometry) : (t.provisionEvents g).countP p = 0 := by
  refine List.countP_eq_zero.mpr fun e hm => ?_
  obtain ⟨buckets, lowMask, rfl⟩ := eq_arrayDoubled_of_mem hm
  exact hp buckets lowMask

/-- **An addition begins one split at most.** One that is begun comes to its end and is logged, or
is cut short. None is begun where there is room, and where there is none it is because the split is
put off or there may not be more buckets. -/
theorem add_load {t : Table ρ} {granted : Bool} {r : ρ} {o : Outcome (Table ρ) (Admission ρ)}
    (ha : t.add granted r = .ok o) :
    ∃ made short : Nat, o.events.countP Event.isSplit = made
      ∧ (if t.abandons (.add granted r) then 1 else 0) = short
      ∧ o.state.buckets.size = t.buckets.size + made + short
      ∧ o.state.splits = t.splits + made
      ∧ made + short + o.events.countP Event.isDeferral ≤ 1
      ∧ (0 < made + short → t.buckets.size < t.size)
      ∧ (made + short + o.events.countP Event.isDeferral = 0 →
          t.size ≤ t.buckets.size ∨ (Identifier.widths ι).mostBuckets ≤ t.buckets.size) := by
  obtain ⟨grown, hg, hev, -⟩ := add_cases ha
  have hab := abandons_add (r := r) hg
  have hgrowth := add_sameGrowth ha hg
  have hprov := provisionEvents_countP (p := Event.isSplit) nofun t t.geometry.forSplit
  have hprov' := provisionEvents_countP (p := Event.isDeferral) nofun t t.geometry.forSplit
  rw [hgrowth.buckets, hgrowth.splits, hev]
  rcases growIfOverfull_cases hg with ⟨hst, han, hroom⟩ | ⟨hlt, hsize, hcase⟩
  · have hno : ¬ t.abandons (.add granted r) = true := by
      rw [hab, han]
      nofun
    rw [hst]
    rcases hroom with ⟨hroom, hlog⟩ | ⟨requested, hlog⟩
    · rw [hlog]
      exact ⟨0, 0, rfl, if_neg hno, rfl, rfl, Nat.zero_le 1, nofun, fun _ => hroom⟩
    · rw [hlog]
      exact ⟨0, 0, rfl, if_neg hno, rfl, rfl, Nat.le_refl 1, nofun, nofun⟩
  · rcases hcase with ⟨han, hsplits, -, hlog⟩ | ⟨han, hsplits, -, hlog⟩
    · have hno : ¬ t.abandons (.add granted r) = true := by
        rw [hab, han]
        nofun
      rw [hlog, List.countP_append, List.countP_append, hprov, hprov']
      exact ⟨1, 0, rfl, if_neg hno, hsize, hsplits, Nat.le_refl 1, fun _ => hlt, nofun⟩
    · rw [hlog, hprov, hprov']
      exact ⟨0, 1, rfl, if_pos (hab.mpr ⟨_, han⟩), hsize, hsplits, Nat.le_refl 1, fun _ => hlt,
        nofun⟩

/-! ## Every request -/

/-- What a request does to the number of buckets and to that of resources. -/
theorem perform_load {t : Table ρ} {q : Request ρ ι} {o : Outcome (Table ρ) q.Answer}
    (hp : t.perform q = .ok o) :
    ∃ begun, o.state.buckets.size = t.buckets.size + begun
      ∧ begun + o.events.countP Event.isDeferral ≤ 1
      ∧ (0 < begun → t.buckets.size < t.size)
      ∧ o.state.size ≤ t.size + 1
      ∧ (begun + o.events.countP Event.isDeferral = 0 → o.state.size ≤ t.size
          ∨ t.size ≤ t.buckets.size ∨ (Identifier.widths ι).mostBuckets ≤ t.buckets.size) := by
  rcases q.add_or_ne with ⟨granted, r, rfl⟩ | hne
  · obtain ⟨made, short, -, -, hsize, -, hone, hover, hroom⟩ := add_load hp
    have hle : o.state.size ≤ t.size + 1 := by
      rcases add_enters hp with ⟨-, henters⟩ | ⟨-, hr⟩
      · exact Nat.le_of_eq henters.size
      · exact Nat.le_succ_of_le (Nat.le_of_eq hr.live)
    exact ⟨made + short, by rw [hsize, Nat.add_assoc], hone, hover, hle,
      fun hnone => Or.inr (hroom hnone)⟩
  · have hw := perform_reworked hne hp
    have hle := hw.size_le.1
    rw [perform_quiet hne hp]
    exact ⟨0, hw.sameGrowth.buckets, Nat.zero_le 1, nofun, Nat.le_succ_of_le hle,
      fun _ => Or.inl hle⟩

/-! ## Every run -/

/-- The greatest number of resources that a table holds in a run. -/
def peak : Table ρ → List (Request ρ ι) → Nat
  | t, [] => t.size
  | t, q :: qs =>
      max t.size <|
        match t.perform q with
        | .error _ => 0
        | .ok o => o.state.peak qs

/-- In a run the buckets are not more than there were or than there have been resources. -/
theorem run_buckets_le (qs : List (Request ρ ι)) :
    ∀ {t t' : Table ρ} {exchanges : List (Exchange ρ ι)}, t.run qs = .ok (exchanges, t') →
      t'.buckets.size ≤ max t.buckets.size (t.peak qs) := by
  induction qs with
  | nil =>
      intro t t' exchanges hr
      cases hr
      exact Nat.le_max_left _ _
  | cons q qs ih =>
      intro t t' exchanges hr
      obtain ⟨o, rest, hp, hrest, -⟩ := run_cons_eq_ok hr
      obtain ⟨begun, hsize, hone, hover, -⟩ := perform_load hp
      have hle := ih hrest
      have hpeak : t.peak (q :: qs) = max t.size (o.state.peak qs) := by
        rw [peak, hp]
      rw [hpeak]
      omega

/-- In a run a table has as many buckets as it may have, or the resources are one more than the
buckets at most, apart from one for each split put off. -/
theorem run_size_le (qs : List (Request ρ ι)) :
    ∀ {t t' : Table ρ} {k deferred : Nat} {exchanges : List (Exchange ρ ι)},
      t.AtLevel (Identifier.widths ι) k →
      (t.buckets.size = (Identifier.widths ι).mostBuckets
        ∨ t.size ≤ t.buckets.size + 1 + deferred) →
      t.run qs = .ok (exchanges, t') →
        t'.buckets.size = (Identifier.widths ι).mostBuckets
          ∨ t'.size ≤ t'.buckets.size + 1 + (deferred + deferrals exchanges) := by
  induction qs with
  | nil =>
      intro t t' k deferred exchanges _ hload hr
      cases hr
      exact hload
  | cons q qs ih =>
      intro t t' k deferred exchanges ht hload hr
      obtain ⟨o, rest, hp, hrest, rfl⟩ := run_cons_eq_ok hr
      obtain ⟨⟨j, hj⟩, -⟩ := perform_growth ht hp
      obtain ⟨begun, hsize, hone, -, hle, hroom⟩ := perform_load hp
      have hmost := ht.le_most
      have hmost' := hj.le_most
      have hload' : o.state.buckets.size = (Identifier.widths ι).mostBuckets
          ∨ o.state.size ≤ o.state.buckets.size + 1
            + (deferred + o.events.countP Event.isDeferral) := by
        omega
      rw [deferrals_cons, ← Nat.add_assoc deferred]
      exact ih hj hload' hrest

/-- **How full a table is**, after any run of requests to a fresh one. It has as many buckets as it
may have, or the resources are not more than the buckets and one and one more for each split that
was put off. It has no more buckets than a fresh table or than it has held resources at some time.
An addition begins one split at most, whatever becomes of the resource: one that is logged and
counted, or one that is cut short. -/
theorem run_load (qs : List (Request ρ ι)) {t : Table ρ} {exchanges : List (Exchange ρ ι)}
    (hr : (new : Table ρ).run qs = .ok (exchanges, t)) :
    (t.buckets.size = 2 ^ min (Identifier.widths ι).most 63
      ∨ t.size ≤ t.buckets.size + 1 + deferrals exchanges)
    ∧ t.buckets.size ≤ max (2 ^ (Identifier.widths ι).least) ((new : Table ρ).peak qs)
    ∧ ∀ granted r o, t.add granted r = .ok o →
        o.state.buckets.size = t.buckets.size + o.events.countP Event.isSplit
            + (if t.abandons (.add granted r) then 1 else 0)
          ∧ o.state.splits = t.splits + o.events.countP Event.isSplit
          ∧ o.events.countP Event.isSplit + (if t.abandons (.add granted r) then 1 else 0) ≤ 1 := by
  refine ⟨?_, ?_, fun granted r o ha => ?_⟩
  · have hload : t.buckets.size = (Identifier.widths ι).mostBuckets
        ∨ t.size ≤ t.buckets.size + 1 + (0 + deferrals exchanges) :=
      run_size_le qs new_atLevel (Or.inr (Nat.zero_le _)) hr
    rwa [Nat.zero_add] at hload
  · have hbuckets := run_buckets_le qs hr
    rwa [size_buckets_new] at hbuckets
  · obtain ⟨made, short, hmade, hshort, hsize, hsplits, hone, -⟩ := add_load ha
    rw [hmade, hshort]
    exact ⟨hsize, hsplits, by omega⟩

/-- There is no memory to split the only bucket before the third resource is added. -/
def crowded : List (Request (Record WideId) WideId) :=
  [.add true ⟨⟨some 1, some 0⟩, "a"⟩, .add true ⟨⟨some 2, some 1⟩, "b"⟩,
    .add false ⟨⟨some 3, some 0⟩, "c"⟩]

/-- The bound is met: three resources in one bucket, after one split put off. -/
theorem run_load_crowded :
    ∃ exchanges t, (new : Table (Record WideId)).run crowded = .ok (exchanges, t)
      ∧ t.size = 3 ∧ t.buckets.size + 1 + deferrals exchanges = 3
      ∧ (t.buckets.size = 2 ^ min 64 63 ∨ t.size ≤ t.buckets.size + 1 + deferrals exchanges)
      ∧ t.buckets.size ≤ max (2 ^ 0) ((new : Table (Record WideId)).peak crowded) :=
  ⟨_, _, rfl, rfl, rfl, (run_load crowded rfl).1, (run_load crowded rfl).2.1⟩

end Table

end ResourceIndex
