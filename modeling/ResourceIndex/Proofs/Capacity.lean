import ResourceIndex.Proofs.Aftermath
import ResourceIndex.Proofs.Counter

set_option autoImplicit false

/-! # Counters that do not overflow

A table counts the resources installed and the buckets split for as long as it is used, in words
of 64 bits. The epoch takes a step for each resource that is installed, and another one for each
bucket that is split. One request installs one resource at most, though it may remove all there
are. So if a table holds few resources all along, nearly every request that installs one has
another one to make up for (`Table.Spent.installs`), and few buckets are ever split.

That is why no counter overflows in fewer than `2 ^ 64` requests to a table that never holds
`2 ^ 32 - 1` resources or more (`Table.Spent.fits`).
-/

namespace ResourceIndex

/-- The most resources that a table has handles for. -/
def mostResources : Nat := 2 ^ 32 - 2

namespace Table

variable {ρ ι : Type}

/-! ## What requests add to the counters -/

/-- What `ops` requests may have added to the counters of a table that has held no more resources
than there are handles for. -/
structure Spent (t : Table ρ) (ops : Nat) : Prop where
  /-- The epoch is one for each bucket split and for each resource installed. Of the resources
  installed all but those there are have been removed, at most as many as there are handles for by
  each request that has installed none. -/
  installs : ∃ count, t.epoch = t.splits + count
    ∧ count * (mostResources + 1) ≤ mostResources * ops + t.size
  splits_lt : t.splits < t.buckets.size
  splits_le : t.splits ≤ mostResources

variable [Resource ρ ι] [Identifier ι]

theorem new_spent : (new : Table ρ).Spent 0 where
  installs := ⟨0, rfl, Nat.zero_le _⟩
  splits_lt := by
    rw [size_buckets_new]
    exact Nat.two_pow_pos _
  splits_le := Nat.zero_le _

/-- What an addition adds to the epoch. -/
theorem add_epoch {t : Table ρ} {granted : Bool} {r : ρ} {o : Outcome (Table ρ) (Admission ρ)}
    (ha : t.add granted r = .ok o) :
    ((∃ h, o.answer = .ok (.installed h)) ∧ o.state.size = t.size + 1
        ∧ o.state.epoch + t.splits = t.epoch + o.state.splits + 1)
      ∨ (∀ h, o.answer ≠ .ok (.installed h)) ∧ o.state.size = t.size
        ∧ o.state.epoch + t.splits = t.epoch + o.state.splits := by
  obtain ⟨grown, hg, -, hc⟩ := add_cases ha
  have hgrown : grown.state.epoch + t.splits = t.epoch + grown.state.splits := by
    rcases growIfOverfull_cases hg with ⟨hst, -⟩ | ⟨-, -, ⟨-, hsplits, hepoch, -⟩ |
      ⟨-, hsplits, hepoch, -⟩⟩
    · rw [hst]
    · omega
    · omega
  have hlive : grown.state.size = t.size := (growIfOverfull_rewired hg).live
  rcases hc with ⟨fault, -, hs, hans⟩ | ⟨-, hc⟩
  · rw [hs, hans]
    exact Or.inr ⟨nofun, hlive, hgrown⟩
  · have hsplits : o.state.splits = grown.state.splits := (accept_sameGrowth hc).splits
    rcases accept_cases hc with ⟨hs, hans⟩ | ⟨bucket, h, hi, hans⟩
    · have hs' : o.state = grown.state := hs
      rw [hs']
      exact Or.inr ⟨hans, hlive, hgrown⟩
    · have hepoch : o.state.epoch = grown.state.epoch + 1 := install_epoch hi
      have hsize : o.state.size = grown.state.size + 1 := (install_enters hi).2.size
      exact Or.inl ⟨⟨h, hans⟩, by omega, by omega⟩

namespace Spent

variable {t : Table ρ} {ops : Nat}

omit [Resource ρ ι] [Identifier ι] in
theorem mono (hs : t.Spent ops) {more : Nat} (hle : ops ≤ more) : t.Spent more := by
  obtain ⟨⟨count, hepoch, hcount⟩, hlt, hmost⟩ := hs
  exact ⟨⟨count, hepoch, hcount.trans (Nat.add_le_add_right (Nat.mul_le_mul_left _ hle) _)⟩, hlt,
    hmost⟩

/-- An addition counts as a request if the resource is installed. -/
theorem add (hs : t.Spent ops) (hsize : t.size ≤ mostResources) {granted : Bool} {r : ρ}
    {o : Outcome (Table ρ) (Admission ρ)} (ha : t.add granted r = .ok o) :
    ((∃ h, o.answer = .ok (.installed h)) ∧ o.state.Spent (ops + 1))
      ∨ (∀ h, o.answer ≠ .ok (.installed h)) ∧ o.state.size = t.size ∧ o.state.Spent ops := by
  obtain ⟨⟨count, hepoch, hcount⟩, hlt, hmost⟩ := hs
  obtain ⟨made, short, -, -, hbuckets, hsplits, hone, hover, -⟩ := add_load ha
  have hlt' : o.state.splits < o.state.buckets.size := by omega
  have hmost' : o.state.splits ≤ mostResources := by omega
  rcases add_epoch ha with ⟨hans, hsize', hepoch'⟩ | ⟨hans, hsize', hepoch'⟩
  · refine Or.inl ⟨hans, ⟨count + 1, by omega, ?_⟩, hlt', hmost'⟩
    rw [Nat.add_mul, Nat.mul_add mostResources]
    omega
  · exact Or.inr ⟨hans, hsize', ⟨count, by omega, by omega⟩, hlt', hmost'⟩

/-- **Every request** counts as one at most. -/
theorem perform (hs : t.Spent ops) (hsize : t.size ≤ mostResources) {q : Request ρ ι}
    {o : Outcome (Table ρ) q.Answer} (hp : t.perform q = .ok o) : o.state.Spent (ops + 1) := by
  rcases q.add_or_ne with ⟨granted, r, rfl⟩ | hne
  · rcases hs.add hsize hp with ⟨-, hs'⟩ | ⟨-, -, hs'⟩
    · exact hs'
    · exact hs'.mono (Nat.le_succ ops)
  · have hw := perform_reworked hne hp
    obtain ⟨hle, hepoch'⟩ := hw.size_le
    have hgrowth := hw.sameGrowth
    obtain ⟨⟨count, hepoch, hcount⟩, hlt, hmost⟩ := hs
    rw [← hgrowth.splits] at hepoch hlt hmost
    rw [← hgrowth.buckets] at hlt
    refine ⟨⟨count, hepoch'.trans hepoch, ?_⟩, hlt, hmost⟩
    rw [Nat.mul_add mostResources]
    omega

end Spent

/-! ## What the counters can hold -/

/-- No table is at a level beyond the 62nd. -/
theorem AtLevel.level_lt {t : Table ρ} {w : IndexWidths} {k : Nat} (ht : t.AtLevel w k) :
    k < 63 := by
  have hcount := ht.spans.count
  have hmost : t.buckets.size ≤ 2 ^ 63 :=
    ht.le_most.trans (Nat.pow_le_pow_right (by decide) (Nat.min_le_right _ _))
  rcases ht.generation with ⟨rfl, -⟩ | ⟨hpos, -⟩
  · exact w.least_lt
  · refine (Nat.pow_lt_pow_iff_right (a := 2) (by decide)).mp ?_
    omega

/-- The counters of a table and of its buckets can hold what they have come to, and so can the
square of the number of entries in a bucket. -/
structure Fits (t : Table ρ) : Prop where
  epoch : t.epoch < 2 ^ 64
  splits : t.splits < 2 ^ 64
  doublings : t.doublings < 2 ^ 32
  buckets : t.buckets.size < 2 ^ 64
  reserved : t.reserved < 2 ^ 64
  lengths : ∀ c ∈ t.buckets.toList, c.length * c.length < 2 ^ 64

/-- **No counter overflows** in fewer than `2 ^ 64` requests. -/
theorem Spent.fits {t : Table ρ} {ops : Nat} (hs : t.Spent ops) (hops : ops < 2 ^ 64)
    (hsize : t.size ≤ mostResources) {lost : List Handle} (ha : t.Accounted lost) : t.Fits := by
  obtain ⟨⟨count, hepoch, hcount⟩, -, hmost⟩ := hs
  obtain ⟨k, hk⟩ := ha.level
  have hlevel := hk.level_lt
  have hpow : 2 ^ (k + 1) ≤ 2 ^ 63 := Nat.pow_le_pow_right (by decide) hlevel
  have hbuckets := hk.spans.count
  have hcursor := hk.spans.cursor
  have hreserved : t.reserved ≤ 2 ^ (k + 1) := by
    rcases Nat.eq_zero_or_pos t.geometry.nextSplit with hzero | hpos
    · rw [(hk.reserved_of_zero hzero).1]
      exact Nat.pow_le_pow_right (by decide) (Nat.le_succ k)
    · exact Nat.le_of_eq (hk.reserved_of_pos hpos)
  unfold mostResources at hsize hmost hcount
  refine ⟨by omega, by omega, ?_, ?_, by omega, fun c hc => ?_⟩
  · rcases hk.generation with ⟨-, -, hzero⟩ | ⟨-, hdoublings⟩ <;> omega
  · rw [Nat.pow_succ] at hpow
    omega
  · have hlength : c.length ≤ 2 ^ 32 - 2 :=
      calc c.length ≤ t.linked := List.le_sum_of_mem (List.mem_map_of_mem hc)
        _ ≤ t.size := by rw [ha.size_eq]; exact Nat.le_add_right _ _
        _ ≤ 2 ^ 32 - 2 := hsize
    calc c.length * c.length ≤ (2 ^ 32 - 2) * (2 ^ 32 - 2) := Nat.mul_le_mul hlength hlength
      _ < 2 ^ 64 := by decide

end Table

/-! ## Every session -/

namespace Session

variable {ρ ι : Type} [Resource ρ ι] [Identifier ι]

/-- There is a handle for every resource, at every time in the session. -/
def Roomy (s : Session ρ ι) (acts : List (Act ρ ι)) : Prop :=
  ∀ done s', done <+: acts → s.run done = .ok s' → s'.table.size ≤ mostResources

/-- An act installs one resource at most. -/
theorem run_size_le (acts : List (Act ρ ι)) :
    ∀ {s s' : Session ρ ι}, s.run acts = .ok s' →
      s'.table.size ≤ s.table.size + acts.length := by
  induction acts with
  | nil =>
      intro s s' hr
      cases hr
      exact Nat.le_refl _
  | cons a acts ih =>
      intro s s' hr
      obtain ⟨s₁, ha, hr⟩ := run_cons_eq_ok hr
      have hrest := ih hr
      have hstep : s₁.table.size ≤ s.table.size + 1 := by
        rcases act_cases ha with ⟨q, o, -, hp, ht, -⟩ | ⟨ht, -⟩
        · obtain ⟨-, -, -, -, hle, -⟩ := Table.perform_load hp
          rwa [ht]
        · rw [ht]
          exact Nat.le_succ _
      rw [List.length_cons]
      omega

/-- There is room for as many resources as there are acts. -/
theorem roomy_of_length {s : Session ρ ι} {acts : List (Act ρ ι)}
    (hlength : s.table.size + acts.length ≤ mostResources) : s.Roomy acts := fun done _ hdone hr =>
  (run_size_le done hr).trans
    ((Nat.add_le_add_left hdone.length_le s.table.size).trans hlength)

/-- Acts count as requests. -/
theorem run_spent (acts : List (Act ρ ι)) :
    ∀ {s s' : Session ρ ι} {ops : Nat}, s.table.Spent ops → s.Roomy acts → s.run acts = .ok s' →
      s'.table.Spent (ops + acts.length) := by
  induction acts with
  | nil =>
      intro s s' ops hs _ hr
      cases hr
      exact hs
  | cons a acts ih =>
      intro s s' ops hs hroomy hr
      obtain ⟨s₁, ha, hr⟩ := run_cons_eq_ok hr
      have hsize : s.table.size ≤ mostResources := hroomy [] s List.nil_prefix rfl
      have hs₁ : s₁.table.Spent (ops + 1) := by
        rcases act_cases ha with ⟨q, o, -, hp, ht, -⟩ | ⟨ht, -⟩
        · rw [ht]
          exact hs.perform hsize hp
        · rw [ht]
          exact hs.mono (Nat.le_succ ops)
      have hroomy₁ : s₁.Roomy acts := by
        intro done s₂ hdone hrun
        refine hroomy (a :: done) s₂ ((List.prefix_cons_inj a).mpr hdone) ?_
        rw [Session.run, ha]
        exact hrun
      rw [List.length_cons, Nat.add_comm acts.length 1, ← Nat.add_assoc]
      exact ih hs₁ hroomy₁ hr

end Session

namespace SerialTable

variable {ρ : Type} [Serialized ρ]

/-! ## Every run of a serial table -/

/-- There is a handle for every resource, at every time in the run. -/
def Roomy (s : SerialTable ρ) (qs : List (SerialRequest ρ)) : Prop :=
  ∀ done s', done <+: qs → s.run done = .ok s' → s'.table.size ≤ mostResources

/-- Attempts at one resource count as one request, for only one of them installs it. -/
theorem addWithin_spent (bound : Nat) :
    ∀ {s : SerialTable ρ} {granted : Nat → Bool} {r : ρ} {ops : Nat}
      {o : Outcome (SerialTable ρ) (Numbering ρ)}, s.table.Spent ops →
      s.table.size ≤ mostResources → addWithin bound granted s r = .ok o →
        o.state.table.Spent (ops + 1) := by
  induction bound with
  | zero => exact fun _ _ ha => nomatch ha
  | succ bound ih =>
      intro s granted r ops o hs hsize ha
      rw [addWithin] at ha
      obtain ⟨first, hfirst, ha⟩ := Checked.bind_eq_ok.mp ha
      obtain ⟨tried, hadd, hfirst⟩ := Checked.bind_eq_ok.mp hfirst
      cases hfirst
      rcases hs.add hsize hadd with ⟨⟨h, hans⟩, hs'⟩ | ⟨hans, hsize', hs'⟩
      · dsimp only at ha
        rw [hans] at ha
        cases ha
        exact hs'
      · cases hanswer : tried.answer with
        | error fault =>
            dsimp only at ha
            rw [hanswer] at ha
            cases ha
            exact hs'.mono (Nat.le_succ ops)
        | ok admission =>
            cases admission with
            | installed h => exact absurd hanswer (hans h)
            | duplicate r' =>
                dsimp only at ha
                rw [hanswer] at ha
                obtain ⟨rest, hrest, ha⟩ := Checked.bind_eq_ok.mp ha
                cases ha
                have hspent := ih hs' (hsize'.symm ▸ hsize) hrest
                exact hspent

/-- A request counts as one. -/
theorem Steady.perform_spent {s : SerialTable ρ} (hs : s.Steady) {q : SerialRequest ρ} {ops : Nat}
    (hspent : s.table.Spent ops) (hsize : s.table.size ≤ mostResources)
    {o : Outcome (SerialTable ρ) q.Answer} (hp : s.perform q = .ok o) :
    o.state.table.Spent (ops + 1) := by
  rcases q.add_or_inside with ⟨granted, r, rfl⟩ | ⟨q', hin⟩
  · rw [SerialTable.perform, SerialTable.add] at hp
    split at hp
    · cases hp
      exact hspent.mono (Nat.le_succ ops)
    · exact addWithin_spent _ hspent hsize hp
  · obtain ⟨o', hp', -⟩ := hs.table.perform q'.spares_nil
    obtain ⟨o₁, hp₁, hst, -⟩ := s.perform_inside hin hp'
    obtain rfl : o₁ = o := Except.ok.inj (hp₁.symm.trans hp)
    rw [hst]
    exact hspent.perform hsize hp'

/-- Requests count as requests. -/
theorem Steady.run_spent (qs : List (SerialRequest ρ)) :
    ∀ {s s' : SerialTable ρ} {ops : Nat}, s.Steady → s.table.Spent ops → s.Roomy qs →
      s.run qs = .ok s' → s'.table.Spent (ops + qs.length) := by
  induction qs with
  | nil =>
      intro s s' ops _ hspent _ hr
      cases hr
      exact hspent
  | cons q qs ih =>
      intro s s' ops hs hspent hroomy hr
      obtain ⟨o, hp, hs₁, -⟩ := hs.perform q
      have hsize : s.table.size ≤ mostResources := hroomy [] s List.nil_prefix rfl
      have hroomy₁ : o.state.Roomy qs := fun done s₂ hdone hrun =>
        hroomy (q :: done) s₂ ((List.prefix_cons_inj q).mpr hdone) ((run_cons hp done).trans hrun)
      rw [List.length_cons, Nat.add_comm qs.length 1, ← Nat.add_assoc]
      exact ih hs₁ (hs.perform_spent hspent hsize hp) hroomy₁ ((run_cons hp qs).symm.trans hr)

end SerialTable

end ResourceIndex
