import ResourceIndex.Proofs.Request

set_option autoImplicit false

/-! # What an operation leaves alone

Only a split adds a bucket or moves the masks and the cursor. Every other operation leaves a
table *as grown* as it was: `SameGrowth`. A request that adds nothing changes resources in place
and unlinks handles (`perform_reworked`), so that what these two steps preserve it preserves.

All this holds of any table whatever, whether or not its chains are sound, and so do the
inversions: `split_cases` says all that a split does to the size of a table, `add_enters` all that
an addition does to what handles name, and `perform_cases` that a request leaves the table as grown
as it was or goes through one split.
-/

namespace ResourceIndex

/-! ## Chains -/

namespace Chain

variable {ρ : Type} {c c' : Chain} {s s' : Slots (Entry ρ)} {h : Handle}

theorem rewired_of_pushBack {bucket : Nat} (hp : c.pushBack s h bucket = .ok (c', s')) :
    c'.length = c.length + 1 ∧ s.Rewired s' := by
  unfold pushBack at hp
  obtain ⟨s₁, h₁, hp⟩ := Checked.bind_eq_ok.mp hp
  obtain ⟨s₂, h₂, hp⟩ := Checked.bind_eq_ok.mp hp
  cases hp
  exact ⟨rfl, (Slots.Rewired.of_adjust h₁ fun _ => rfl).trans (.of_adjust h₂ fun _ => rfl)⟩

theorem rewired_of_unlink (hu : c.unlink s h = .ok (c', s')) : s.Rewired s' := by
  unfold unlink at hu
  obtain ⟨e, -, hu⟩ := Checked.bind_eq_ok.mp hu
  dsimp only at hu
  obtain ⟨s₁, h₁, hu⟩ := Checked.bind_eq_ok.mp hu
  obtain ⟨s₂, h₂, hu⟩ := Checked.bind_eq_ok.mp hu
  have hdetached := Slots.Rewired.touch s (some h) Entry.detached fun _ => rfl
  cases hu
  exact (hdetached.trans (.of_adjust h₁ fun _ => rfl)).trans (.of_adjust h₂ fun _ => rfl)

theorem rewired_of_popFront {popped : Option Handle}
    (hp : c.popFront s = .ok (popped, c', s')) : s.Rewired s' := by
  unfold popFront at hp
  cases hh : c.head with
  | none =>
      rw [hh] at hp
      cases hp
      exact .refl s
  | some k =>
      rw [hh] at hp
      obtain ⟨⟨c₁, s₁⟩, hu, hp⟩ := Checked.bind_eq_ok.mp hp
      cases hp
      exact rewired_of_unlink hu

end Chain

namespace Table

variable {ρ ι : Type}

/-- The table `t'` is as grown as `t`. -/
structure SameGrowth (t t' : Table ρ) : Prop where
  buckets : t'.buckets.size = t.buckets.size
  geometry : t'.geometry = t.geometry
  reserved : t'.reserved = t.reserved
  splits : t'.splits = t.splits
  doublings : t'.doublings = t.doublings

namespace SameGrowth

variable {t t' t'' : Table ρ}

theorem refl (t : Table ρ) : SameGrowth t t := ⟨rfl, rfl, rfl, rfl, rfl⟩

theorem trans (h₁ : SameGrowth t t') (h₂ : SameGrowth t' t'') : SameGrowth t t'' where
  buckets := h₂.buckets.trans h₁.buckets
  geometry := h₂.geometry.trans h₁.geometry
  reserved := h₂.reserved.trans h₁.reserved
  splits := h₂.splits.trans h₁.splits
  doublings := h₂.doublings.trans h₁.doublings

/-- Replacing the chain of a bucket and the store, and noting whether a length has gone wrong. -/
theorem store (t : Table ρ) (bucket : Nat) (c : Chain) (s : Slots (Entry ρ)) (u : Bool) :
    SameGrowth t { t with
      buckets := t.buckets.setIfInBounds bucket c, slots := s, underflowed := u } where
  buckets := Array.size_setIfInBounds
  geometry := rfl
  reserved := rfl
  splits := rfl
  doublings := rfl

end SameGrowth

/-! ## Linking and unlinking -/

theorem link_sameGrowth {t t' : Table ρ} {bucket : Nat} {h : Handle}
    (hl : t.link bucket h = .ok t') : SameGrowth t t' := by
  unfold link at hl
  obtain ⟨c, -, hl⟩ := Checked.bind_eq_ok.mp hl
  obtain ⟨⟨c', s⟩, -, hl⟩ := Checked.bind_eq_ok.mp hl
  cases hl
  exact .store t bucket c' s t.underflowed

theorem link_underflowed {t t' : Table ρ} {bucket : Nat} {h : Handle}
    (hl : t.link bucket h = .ok t') : t'.underflowed = t.underflowed := by
  unfold link at hl
  obtain ⟨c, -, hl⟩ := Checked.bind_eq_ok.mp hl
  obtain ⟨⟨c', s⟩, -, hl⟩ := Checked.bind_eq_ok.mp hl
  cases hl
  rfl

/-- Linking moves no resource to another handle. -/
theorem link_rewired {t t' : Table ρ} {bucket : Nat} {h : Handle}
    (hl : t.link bucket h = .ok t') : t.slots.Rewired t'.slots := by
  unfold link at hl
  obtain ⟨c, -, hl⟩ := Checked.bind_eq_ok.mp hl
  obtain ⟨⟨c', s⟩, hp, hl⟩ := Checked.bind_eq_ok.mp hl
  cases hl
  exact (Chain.rewired_of_pushBack hp).2

theorem unlink_sameGrowth {t : Table ρ} {p : Table ρ × ρ} {bucket : Nat} {h : Handle}
    (hu : t.unlink bucket h = .ok p) : SameGrowth t p.1 := by
  unfold unlink at hu
  obtain ⟨e, -, hu⟩ := Checked.bind_eq_ok.mp hu
  obtain ⟨c, -, hu⟩ := Checked.bind_eq_ok.mp hu
  obtain ⟨⟨c', s⟩, -, hu⟩ := Checked.bind_eq_ok.mp hu
  cases hu
  exact .store t bucket c' (s.erase h) (t.underflowed || c.length == 0)

theorem modifyHandle_sameGrowth (t : Table ρ) (h : Handle) (f : ρ → ρ) :
    SameGrowth t (t.modifyHandle h f) := ⟨rfl, rfl, rfl, rfl, rfl⟩

/-! ## Reworking a table -/

/-- The table `t'` comes from `t` by changing resources in place and by unlinking handles. -/
inductive Reworked (t : Table ρ) : Table ρ → Prop
  | refl : Reworked t t
  | change {t' : Table ρ} (h : Handle) (f : ρ → ρ) (hw : Reworked t t') :
      Reworked t (t'.modifyHandle h f)
  | unlink {t' t'' : Table ρ} {bucket : Nat} {h : Handle} {r : ρ} (hw : Reworked t t')
      (hu : t'.unlink bucket h = .ok (t'', r)) : Reworked t t''

namespace Reworked

variable {t t' t'' : Table ρ}

theorem trans (h₁ : Reworked t t') (h₂ : Reworked t' t'') : Reworked t t'' := by
  induction h₂ with
  | refl => exact h₁
  | change h f _ ih => exact .change h f ih
  | unlink _ hu ih => exact .unlink ih hu

theorem sameGrowth (hw : Reworked t t') : SameGrowth t t' := by
  induction hw with
  | refl => exact .refl t
  | change h f _ ih => exact ih.trans (modifyHandle_sameGrowth _ h f)
  | unlink _ hu ih => exact ih.trans (unlink_sameGrowth hu)

end Reworked

theorem removeHandle_reworked {t : Table ρ} {p : Table ρ × Option ρ} {h : Handle}
    (hr : t.removeHandle h = .ok p) : Reworked t p.1 := by
  unfold removeHandle at hr
  cases hg : t.slots.get? h with
  | none =>
      rw [hg] at hr
      cases hr
      exact .refl
  | some e =>
      rw [hg] at hr
      obtain ⟨⟨t', r⟩, hu, hr⟩ := Checked.bind_eq_ok.mp hr
      cases hr
      exact .unlink .refl hu

section Traversal

variable {σ : Type} {visit : Visitor σ ρ}

theorem visitFrom_reworked {bucket : Nat} (bound : Nat) :
    ∀ {link : Option Handle} {t : Table ρ} {s : σ} {p : Table ρ × σ},
      visitFrom visit bucket bound link t s = .ok p → Reworked t p.1 := by
  induction bound with
  | zero =>
      intro link t s p hv
      cases link with
      | none => cases hv; exact .refl
      | some h => cases hv
  | succ bound ih =>
      intro link t s p hv
      cases link with
      | none => cases hv; exact .refl
      | some h =>
          rw [visitFrom] at hv
          obtain ⟨e, -, hv⟩ := Checked.bind_eq_ok.mp hv
          rcases hs : visit s e.resource with ⟨s', r, verdict⟩
          rw [hs] at hv
          -- the resource is changed in place before the verdict on it is carried out
          have hchange : Reworked t (t.modifyHandle h fun _ => r) := .change h _ .refl
          cases verdict with
          | keep => exact hchange.trans (ih hv)
          | remove =>
              obtain ⟨⟨t', r'⟩, hu, hv⟩ := Checked.bind_eq_ok.mp hv
              exact (hchange.unlink hu).trans (ih hv)

theorem visitBucket_reworked {bucket : Nat} {t : Table ρ} {s : σ} {p : Table ρ × σ}
    (hv : t.visitBucket visit bucket s = .ok p) : Reworked t p.1 := by
  unfold visitBucket at hv
  obtain ⟨c, -, hv⟩ := Checked.bind_eq_ok.mp hv
  exact visitFrom_reworked t.slots.live hv

theorem visitBuckets_reworked (indices : List Nat) :
    ∀ {t : Table ρ} {s : σ} {p : Table ρ × σ},
      indices.foldlM (fun (t, s) bucket => t.visitBucket visit bucket s) (t, s) = .ok p →
        Reworked t p.1 := by
  induction indices with
  | nil =>
      intro t s p hf
      cases hf
      exact .refl
  | cons i indices ih =>
      intro t s p hf
      rw [List.foldlM_cons] at hf
      obtain ⟨⟨t', s'⟩, hv, hf⟩ := Checked.bind_eq_ok.mp hf
      exact (visitBucket_reworked hv).trans (ih hf)

theorem traverse_reworked {t : Table ρ} {s : σ} {p : Table ρ × σ}
    (ht : t.traverse visit s = .ok p) : Reworked t p.1 :=
  visitBuckets_reworked _ ht

end Traversal

variable [Resource ρ ι] [Identifier ι]

theorem remove_reworked {t : Table ρ} {id : ι} {o : Outcome (Table ρ) (Option ρ)}
    (hr : t.remove id = .ok o) : Reworked t o.state := by
  unfold remove at hr
  cases ha : t.address? id with
  | none =>
      rw [ha] at hr
      cases hr
      exact .refl
  | some bucket =>
      rw [ha] at hr
      obtain ⟨found, -, hr⟩ := Checked.bind_eq_ok.mp hr
      cases found with
      | none => cases hr; exact .refl
      | some h =>
          obtain ⟨⟨t', r⟩, hu, hr⟩ := Checked.bind_eq_ok.mp hr
          cases hr
          exact .unlink .refl hu

theorem modify_reworked {t : Table ρ} {id : ι} {f : ρ → ρ} {o : Outcome (Table ρ) (Option ρ)}
    (hm : t.modify id f = .ok o) : Reworked t o.state := by
  unfold modify at hm
  obtain ⟨found, -, hm⟩ := Checked.bind_eq_ok.mp hm
  cases found with
  | error fault => cases hm; exact .refl
  | ok found =>
      cases found with
      | none => cases hm; exact .refl
      | some h => cases hm; exact .change h f .refl

/-- **Every request but an addition** reworks a table. -/
theorem perform_reworked {t : Table ρ} {q : Request ρ ι} {o : Outcome (Table ρ) q.Answer}
    (hadd : ∀ granted r, q ≠ .add granted r) (hp : t.perform q = .ok o) :
    Reworked t o.state := by
  cases q with
  | add granted r => exact absurd rfl (hadd granted r)
  | remove id => exact remove_reworked hp
  | modify id f => exact modify_reworked hp
  | removeHandle h =>
      obtain ⟨p, hr, hp⟩ := Checked.bind_eq_ok.mp hp
      cases hp
      exact removeHandle_reworked hr
  | modifyHandle h f =>
      cases hp
      exact .change h f .refl
  | traverse visit s =>
      obtain ⟨p, ht, hp⟩ := Checked.bind_eq_ok.mp hp
      cases hp
      exact traverse_reworked ht
  | find id | lookup id | contains id | verify =>
      obtain ⟨a, -, hp⟩ := Checked.bind_eq_ok.mp hp
      cases hp
      exact .refl
  | get h =>
      cases hp
      exact .refl

/-! ## Accepting a resource -/

/-- Accepting a resource installs it in a bucket or leaves the table alone. -/
theorem accept_cases {t : Table ρ} {r : ρ} {p : Table ρ × Except Fault (Admission ρ)}
    (ha : t.accept r = .ok p) :
    (p.1 = t ∧ ∀ h, p.2 ≠ .ok (.installed h))
      ∨ ∃ bucket h, t.install bucket r = .ok (p.1, h) ∧ p.2 = .ok (.installed h) := by
  unfold accept at ha
  cases hd : t.address? (Resource.id r) with
  | none =>
      rw [hd] at ha
      cases ha
      exact Or.inl ⟨rfl, nofun⟩
  | some bucket =>
      rw [hd] at ha
      obtain ⟨found, -, ha⟩ := Checked.bind_eq_ok.mp ha
      cases found with
      | some h => cases ha; exact Or.inl ⟨rfl, nofun⟩
      | none =>
          obtain ⟨⟨t', h⟩, hi, ha⟩ := Checked.bind_eq_ok.mp ha
          cases ha
          exact Or.inr ⟨bucket, h, hi, rfl⟩

theorem accept_sameGrowth {t : Table ρ} {r : ρ} {p : Table ρ × Except Fault (Admission ρ)}
    (ha : t.accept r = .ok p) : SameGrowth t p.1 := by
  obtain ⟨t', answer⟩ := p
  rcases accept_cases ha with ⟨rfl, -⟩ | ⟨bucket, h, hi, -⟩
  · exact .refl _
  · unfold install at hi
    obtain ⟨t₁, hl, hi⟩ := Checked.bind_eq_ok.mp hi
    have hgrowth := link_sameGrowth hl
    cases hi
    exact ⟨hgrowth.buckets, hgrowth.geometry, hgrowth.reserved, hgrowth.splits,
      hgrowth.doublings⟩

/-! ## Splitting -/

/-- **What the loop of a split preserves.** A relation between tables that taking out a handle and
linking it again preserve holds between the table before the loop and the one after it. -/
theorem relink_preserves {R : Table ρ → Table ρ → Prop} (hrefl : ∀ t, R t t)
    (htrans : ∀ {t t' t''}, R t t' → R t' t'' → R t t'')
    (hpop : ∀ (t : Table ρ) (s : Slots (Entry ρ)) (u : Bool), t.slots.Rewired s →
      R t { t with slots := s, underflowed := u })
    (hlink : ∀ (t : Table ρ) b h t', t.link b h = .ok t' → R t t') (count : Nat) :
    ∀ {c : Chain} {t : Table ρ} {p : Table ρ × Except Fault Unit}, relink count c t = .ok p →
      R t p.1 ∧ (p.2 = .ok () ∨ p.2 = .error .hashUnavailable) := by
  induction count with
  | zero =>
      intro c t p hr
      rw [relink] at hr
      split at hr
      · cases hr
      · cases hr
        exact ⟨hrefl t, Or.inl rfl⟩
  | succ count ih =>
      intro c t p hr
      rw [relink] at hr
      obtain ⟨⟨popped, c', s⟩, hp, hr⟩ := Checked.bind_eq_ok.mp hr
      cases popped with
      | none => cases hr; exact ⟨hrefl t, Or.inl rfl⟩
      | some h =>
          have hs := hpop t s (t.underflowed || c.length == 0) (Chain.rewired_of_popFront hp)
          obtain ⟨e, -, hr⟩ := Checked.bind_eq_ok.mp hr
          -- either the loop ends here or it goes on with one handle linked
          split at hr
          · cases hr; exact ⟨hs, Or.inr rfl⟩
          · obtain ⟨t', hl, hr⟩ := Checked.bind_eq_ok.mp hr
            obtain ⟨hrest, hans⟩ := ih hr
            exact ⟨htrans (htrans hs (hlink _ _ _ _ hl)) hrest, hans⟩

theorem relink_sameGrowth {count : Nat} {c : Chain} {t : Table ρ}
    {p : Table ρ × Except Fault Unit} (hr : relink count c t = .ok p) : SameGrowth t p.1 :=
  (relink_preserves SameGrowth.refl SameGrowth.trans (fun _ _ _ _ => ⟨rfl, rfl, rfl, rfl, rfl⟩)
    (fun _ _ _ _ => link_sameGrowth) count hr).1

theorem relink_rewired {count : Nat} {c : Chain} {t : Table ρ}
    {p : Table ρ × Except Fault Unit} (hr : relink count c t = .ok p) :
    t.slots.Rewired p.1.slots :=
  (relink_preserves (R := fun t t' => t.slots.Rewired t'.slots) (fun _ => .refl _)
    Slots.Rewired.trans (fun _ _ _ hs => hs) (fun _ _ _ _ => link_rewired) count hr).1

/-- **All that a split does to the size of a table.** It adds a bucket and moves the cursor on; it
is counted unless a hash that is not available cuts it short. -/
theorem split_cases {t : Table ρ} {g : Geometry} {o : Outcome (Table ρ) Unit}
    (hs : t.split g = .ok o) :
    o.state.buckets.size = t.buckets.size + 1 ∧ o.state.geometry = g.advance
      ∧ o.state.reserved = t.reserved ∧ o.state.doublings = t.doublings
      ∧ ((o.answer = .ok () ∧ o.state.splits = t.splits + 1)
        ∨ (∃ fault, o.answer = .error fault) ∧ o.state.splits = t.splits) := by
  unfold split at hs
  obtain ⟨c, -, hs⟩ := Checked.bind_eq_ok.mp hs
  obtain ⟨⟨t', answer⟩, hr, hs⟩ := Checked.bind_eq_ok.mp hs
  have hgrowth := relink_sameGrowth hr
  have hsize : t'.buckets.size = t.buckets.size + 1 := by
    rw [hgrowth.buckets]
    simp
  cases answer with
  | error fault =>
      cases hs
      exact ⟨hsize, hgrowth.geometry, hgrowth.reserved, hgrowth.doublings,
        Or.inr ⟨⟨fault, rfl⟩, hgrowth.splits⟩⟩
  | ok u =>
      cases hs
      exact ⟨hsize, hgrowth.geometry, hgrowth.reserved, hgrowth.doublings,
        Or.inl ⟨rfl, congrArg (· + 1) hgrowth.splits⟩⟩

theorem split_rewired {t : Table ρ} {g : Geometry} {o : Outcome (Table ρ) Unit}
    (hs : t.split g = .ok o) : t.slots.Rewired o.state.slots := by
  unfold split at hs
  obtain ⟨c, -, hs⟩ := Checked.bind_eq_ok.mp hs
  obtain ⟨⟨t', answer⟩, hr, hs⟩ := Checked.bind_eq_ok.mp hs
  have hrelink := relink_rewired hr
  cases answer with
  | error fault => cases hs; exact hrelink
  | ok u => cases hs; exact hrelink

/-- The table in which the split with the geometry `g` takes place: space is provided for the
buckets of a generation that has none yet. -/
def provisioned (t : Table ρ) (g : Geometry) : Table ρ :=
  if g.target ≤ t.reserved then t else t.provision g

section Provisioned

variable (t : Table ρ) (g : Geometry)

@[simp] theorem provisioned_buckets : (t.provisioned g).buckets = t.buckets := by
  unfold provisioned
  split <;> rfl

@[simp] theorem provisioned_slots : (t.provisioned g).slots = t.slots := by
  unfold provisioned
  split <;> rfl

@[simp] theorem provisioned_splits : (t.provisioned g).splits = t.splits := by
  unfold provisioned
  split <;> rfl

@[simp] theorem provisioned_epoch : (t.provisioned g).epoch = t.epoch := by
  unfold provisioned
  split <;> rfl

theorem provisioned_reserved : (t.provisioned g).reserved = max t.reserved g.target := by
  unfold provisioned
  split
  · rename_i hle
    exact (Nat.max_eq_left hle).symm
  · rename_i hlt
    exact (Nat.max_eq_right (Nat.le_of_not_le hlt)).symm

theorem provisioned_doublings : (t.provisioned g).doublings =
    if g.target ≤ t.reserved then t.doublings else t.doublings + 1 := by
  unfold provisioned
  split <;> rfl

end Provisioned

/-- The events of providing space for the generation of the geometry `g`. -/
def provisionEvents (t : Table ρ) (g : Geometry) : List Event :=
  if g.target ≤ t.reserved then [] else [.arrayDoubled g.target g.lowMask]

/-- All that is logged of providing space is that the array has been doubled. -/
theorem eq_arrayDoubled_of_mem {t : Table ρ} {g : Geometry} {e : Event}
    (hm : e ∈ t.provisionEvents g) : ∃ buckets lowMask, e = .arrayDoubled buckets lowMask := by
  unfold provisionEvents at hm
  split at hm
  · cases hm
  · exact ⟨_, _, List.mem_singleton.mp hm⟩

/-- Growing leaves a table alone, if it has as many buckets as it may have or, which is logged, if
the split is put off; or it splits a bucket of it. -/
theorem grow_cases {t : Table ρ} {granted : Bool} {o : Outcome (Table ρ) Unit}
    (hg : t.grow granted = .ok o) :
    (o.state = t ∧ o.answer = .ok ()
      ∧ ((Identifier.widths ι).mostBuckets ≤ t.buckets.size ∧ o.events = []
        ∨ ∃ requested, o.events = [.splitDeferred t.buckets.size requested]))
    ∨ (t.buckets.size < (Identifier.widths ι).mostBuckets
        ∧ ∃ o', (t.provisioned t.geometry.forSplit).split t.geometry.forSplit = .ok o'
          ∧ o.state = o'.state ∧ o.answer = o'.answer
          ∧ o.events = t.provisionEvents t.geometry.forSplit ++ o'.events) := by
  unfold grow at hg
  dsimp only at hg
  unfold provisioned provisionEvents
  split at hg
  · rename_i hmost
    cases hg
    exact Or.inl ⟨rfl, rfl, Or.inl ⟨hmost, rfl⟩⟩
  rename_i hmost
  split at hg
  · cases hg
  split at hg
  · rename_i hle
    rw [if_pos hle, if_pos hle]
    exact Or.inr ⟨Nat.lt_of_not_le hmost, o, hg, rfl, rfl, rfl⟩
  rename_i hle
  rw [if_neg hle, if_neg hle]
  split at hg
  · obtain ⟨o', hs, hg⟩ := Checked.bind_eq_ok.mp hg
    cases hg
    exact Or.inr ⟨Nat.lt_of_not_le hmost, o', hs, rfl, rfl, rfl⟩
  · cases hg
    exact Or.inl ⟨rfl, rfl, Or.inr ⟨_, rfl⟩⟩

/-- The growth that comes before a resource is added. -/
def growIfOverfull (t : Table ρ) (granted : Bool) : Checked (Outcome (Table ρ) Unit) :=
  if t.overfull then t.grow granted else .ok { state := t, answer := .ok () }

/-- Growing moves no resource to another handle. -/
theorem growIfOverfull_rewired {t : Table ρ} {granted : Bool} {o : Outcome (Table ρ) Unit}
    (hg : t.growIfOverfull granted = .ok o) : t.slots.Rewired o.state.slots := by
  unfold growIfOverfull at hg
  split at hg
  · rcases grow_cases hg with ⟨hst, -⟩ | ⟨-, o', hs, hst, -⟩
    · rw [hst]
      exact .refl _
    · have hsplit := split_rewired hs
      rw [provisioned_slots] at hsplit
      rwa [hst]
  · cases hg
    exact .refl _

theorem add_eq (t : Table ρ) (granted : Bool) (r : ρ) :
    t.add granted r = (do
      let grown ← t.growIfOverfull granted
      match grown.answer with
      | .error fault => return { grown with answer := .error fault }
      | .ok () =>
          let (t, answer) ← grown.state.accept r
          return { state := t, answer := answer, events := grown.events }) := by
  unfold add growIfOverfull
  split <;> rfl

/-- Adding a resource is growing and then, unless that was cut short, accepting it. -/
theorem add_cases {t : Table ρ} {granted : Bool} {r : ρ} {o : Outcome (Table ρ) (Admission ρ)}
    (ha : t.add granted r = .ok o) :
    ∃ grown, t.growIfOverfull granted = .ok grown ∧ o.events = grown.events
      ∧ ((∃ fault, grown.answer = .error fault ∧ o.state = grown.state
            ∧ o.answer = .error fault)
        ∨ (grown.answer = .ok () ∧ grown.state.accept r = .ok (o.state, o.answer))) := by
  rw [add_eq] at ha
  obtain ⟨grown, hg, ha⟩ := Checked.bind_eq_ok.mp ha
  refine ⟨grown, hg, ?_⟩
  cases hw : grown.answer with
  | error fault =>
      rw [hw] at ha
      cases ha
      exact ⟨rfl, Or.inl ⟨fault, rfl, rfl, rfl⟩⟩
  | ok u =>
      rw [hw] at ha
      obtain ⟨⟨t', answer⟩, hc, ha⟩ := Checked.bind_eq_ok.mp ha
      cases ha
      exact ⟨rfl, Or.inr ⟨rfl, hc⟩⟩

/-- Whether the resource is then accepted makes no difference to how grown the table is. -/
theorem add_sameGrowth {t : Table ρ} {granted : Bool} {r : ρ}
    {o : Outcome (Table ρ) (Admission ρ)} (ha : t.add granted r = .ok o)
    {grown : Outcome (Table ρ) Unit} (hg : t.growIfOverfull granted = .ok grown) :
    SameGrowth grown.state o.state := by
  obtain ⟨grown', hg', -, hc⟩ := add_cases ha
  obtain rfl : grown' = grown := Except.ok.inj (hg'.symm.trans hg)
  rcases hc with ⟨fault, -, hs, -⟩ | ⟨-, hc⟩
  · rw [hs]
    exact .refl _
  · exact accept_sameGrowth hc

/-- The table `t'` names one resource more than `t`, by the handle that `t` issues next. -/
structure Enters (t : Table ρ) (r : ρ) (t' : Table ρ) : Prop where
  get : ∀ h, t'.get? h = if h = t.slots.fresh then some r else t.get? h
  size : t'.size = t.size + 1

theorem install_enters {t t' : Table ρ} {bucket : Nat} {r : ρ} {h : Handle}
    (hi : t.install bucket r = .ok (t', h)) : h = t.slots.fresh ∧ Enters t r t' := by
  unfold install at hi
  obtain ⟨t₁, hl, hi⟩ := Checked.bind_eq_ok.mp hi
  have hr := link_rewired hl
  cases hi
  refine ⟨rfl, fun k => ?_, hr.live⟩
  show t₁.slots.resource? k = _
  rw [hr.resource, Slots.resource?, Slots.get?_insert]
  split <;> rfl

/-- **All that an addition does to what handles name**: it enters one resource, or nothing. -/
theorem add_enters {t : Table ρ} {granted : Bool} {r : ρ} {o : Outcome (Table ρ) (Admission ρ)}
    (ha : t.add granted r = .ok o) :
    (o.answer = .ok (.installed t.slots.fresh) ∧ Enters t r o.state)
      ∨ (∀ h, o.answer ≠ .ok (.installed h)) ∧ t.slots.Rewired o.state.slots := by
  obtain ⟨grown, hg, -, hc⟩ := add_cases ha
  have hr := growIfOverfull_rewired hg
  rcases hc with ⟨fault, -, hs, hans⟩ | ⟨-, hc⟩
  · rw [hs, hans]
    exact Or.inr ⟨nofun, hr⟩
  · rcases accept_cases hc with ⟨hs, hans⟩ | ⟨bucket, h, hi, hans⟩
    · have hs' : o.state = grown.state := hs
      rw [hs']
      exact Or.inr ⟨hans, hr⟩
    · obtain ⟨rfl, he⟩ := install_enters hi
      have hfresh := hr.fresh
      refine Or.inl ⟨hfresh ▸ hans, fun k => ?_, ?_⟩
      · rw [he.get, hfresh]
        split
        · rfl
        · exact hr.resource k
      · rw [he.size]
        exact congrArg (· + 1) hr.live

/-- **All that a request does to the size of a table**: nothing, or what one split does. -/
theorem perform_cases {t : Table ρ} {q : Request ρ ι} {o : Outcome (Table ρ) q.Answer}
    (hp : t.perform q = .ok o) :
    (∀ granted r, q ≠ .add granted r) ∧ SameGrowth t o.state
    ∨ ∃ granted r grown, q = .add granted r ∧ t.growIfOverfull granted = .ok grown
        ∧ SameGrowth grown.state o.state := by
  rcases q.add_or_ne with ⟨granted, r, rfl⟩ | hne
  · obtain ⟨grown, hg, -⟩ := add_cases hp
    exact Or.inr ⟨granted, r, grown, rfl, hg, add_sameGrowth hp hg⟩
  · exact Or.inl ⟨hne, (perform_reworked hne hp).sameGrowth⟩

end Table

end ResourceIndex
