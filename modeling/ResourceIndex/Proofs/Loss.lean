import ResourceIndex.Proofs.Editing

set_option autoImplicit false

/-! # Resources that are lost

When an identifier turns out not to be hashable in the middle of a split, its resource and those
after it in the bucket are cast off (`Table.castOff`): they are in no bucket from then on. The
geometry is that of the finished split, which is not counted, however, and of which nothing shows
but the space that has been provided (`Accounted.split`).

`Accounted.perform` is all that a request can do to a table that is accounted for: edit it, make
it gain a resource or a bucket, or cast off resources. Whatever it is, the table stays accounted
for, with the handles cast off added to the lost ones.
-/

namespace ResourceIndex

/-- A resource has been installed or a bucket has been split. -/
def Exchange.Gains {ρ ι : Type} : Exchange ρ ι → Prop
  | ⟨.add _ _, answer, events⟩ => (∃ h, answer = .ok (.installed h))
      ∨ ∃ split buckets, Event.bucketSplit split buckets ∈ events
  | _ => False

namespace Table

variable {ρ ι : Type} [Resource ρ ι] [Identifier ι]

/-! ## What a split leaves behind -/

/-- Whether the identifier under a handle can be hashed. -/
def hashable (t : Table ρ) (h : Handle) : Bool :=
  (t.get? h).any fun r => (Identifier.hash? (Resource.id r)).isSome

theorem isSome_owner (g : Geometry) (t : Table ρ) (h : Handle) :
    (owner g t.slots h).isSome = t.hashable h := by
  show ((t.get? h).bind fun r => (Identifier.hash? (Resource.id r)).map g.route).isSome = _
  unfold hashable
  cases t.get? h with
  | none => rfl
  | some r => simp

/-- The handles that a request leaves in no bucket. If it sets a split going that is cut short,
these are the ones of the bucket being split, from the first one that cannot be hashed. -/
def castOff (t : Table ρ) (q : Request ρ ι) : List Handle :=
  if t.abandons q then (t.handlesIn t.geometry.forSplit.nextSplit).dropWhile t.hashable else []

theorem castOff_of_ne_add {t : Table ρ} {q : Request ρ ι} (hne : ∀ granted r, q ≠ .add granted r) :
    t.castOff q = [] := by
  unfold castOff
  rw [abandons_of_ne_add hne]
  rfl

section CastOff

variable {t : Table ρ} {granted : Bool} {r : ρ} {grown : Outcome (Table ρ) Unit}
  (hg : t.growIfOverfull granted = .ok grown)

include hg

theorem castOff_of_ok (ha : grown.answer = .ok ()) : t.castOff (.add granted r) = [] := by
  unfold castOff
  rw [if_neg]
  rw [abandons_add hg, ha]
  nofun

theorem castOff_of_error {fault : Fault} (ha : grown.answer = .error fault) :
    t.castOff (.add granted r) =
      (t.handlesIn t.geometry.forSplit.nextSplit).dropWhile t.hashable := by
  unfold castOff
  rw [if_pos ((abandons_add hg).mpr ⟨fault, ha⟩)]

end CastOff

theorem link_epoch {t t' : Table ρ} {bucket : Nat} {h : Handle} (hl : t.link bucket h = .ok t') :
    t'.epoch = t.epoch := by
  unfold link at hl
  obtain ⟨c, -, hl⟩ := Checked.bind_eq_ok.mp hl
  obtain ⟨⟨c', s⟩, -, hl⟩ := Checked.bind_eq_ok.mp hl
  cases hl
  rfl

theorem install_epoch {t t' : Table ρ} {bucket : Nat} {r : ρ} {h : Handle}
    (hi : t.install bucket r = .ok (t', h)) : t'.epoch = t.epoch + 1 := by
  unfold install at hi
  obtain ⟨t₁, hl, hi⟩ := Checked.bind_eq_ok.mp hi
  have hlink := link_epoch hl
  cases hi
  exact congrArg (· + 1) hlink

/-- A split that comes to its end is counted and logged, and one that is cut short is not. -/
theorem split_outcome {t : Table ρ} {g : Geometry} {o : Outcome (Table ρ) Unit}
    (hs : t.split g = .ok o) :
    (o.answer = .ok () ∧ o.state.splits = t.splits + 1 ∧ o.state.epoch = t.epoch + 1
      ∧ o.events = [.bucketSplit g.nextSplit (t.buckets.size + 1)])
    ∨ (o.answer = .error .hashUnavailable ∧ o.state.splits = t.splits
      ∧ o.state.epoch = t.epoch ∧ o.events = []) := by
  unfold split at hs
  obtain ⟨c, -, hs⟩ := Checked.bind_eq_ok.mp hs
  obtain ⟨⟨t', answer⟩, hr, hs⟩ := Checked.bind_eq_ok.mp hs
  have hgrowth := relink_sameGrowth hr
  obtain ⟨hepoch, hans⟩ := relink_preserves (R := fun t t' => t'.epoch = t.epoch) (fun _ => rfl)
    (fun h₁ h₂ => h₂.trans h₁) (fun _ _ _ _ => rfl) (fun _ _ _ _ => link_epoch) t.slots.live hr
  rcases hans with rfl | rfl
  · cases hs
    refine Or.inl ⟨rfl, congrArg (· + 1) hgrowth.splits, congrArg (· + 1) hepoch, ?_⟩
    have hsize : t'.buckets.size = t.buckets.size + 1 := by
      rw [hgrowth.buckets]
      simp
    rw [hsize]
  · cases hs
    exact Or.inr ⟨rfl, hgrowth.splits, hepoch, rfl⟩

/-- The table `t'` is `t` after the bucket at the cursor has been split, whether or not the split
has come to its end. -/
structure SplitTo (t t' : Table ρ) : Prop where
  geometry : t'.geometry = t.geometry.forSplit.advance
  buckets : t'.buckets.size = t.buckets.size + 1
  reserved : t'.reserved = (t.provisioned t.geometry.forSplit).reserved
  doublings : t'.doublings = (t.provisioned t.geometry.forSplit).doublings
  handlesIn : t'.handlesIn = listsAfterSplit t.geometry.forSplit t.slots t.handlesIn
  get : ∀ h, t'.get? h = t.get? h
  size : t'.size = t.size
  fresh : t'.slots.fresh = t.slots.fresh

/-- Where handles belong after a split. -/
theorem SplitTo.owner_eq {t t' : Table ρ} (hs : t.SplitTo t') (h : Handle) :
    owner t'.geometry t'.slots h = owner t.geometry.forSplit.advance t.slots h := by
  have hget : t'.slots.resource? h = t.slots.resource? h := hs.get h
  unfold owner
  rw [hs.geometry, hget]

/-- Of the handles of the bucket at the cursor, a split hands on those before the first one that
cannot be hashed. -/
theorem mem_listsAfterSplit {t : Table ρ} {g : Geometry} {lists : Nat → List Handle}
    {h : Handle} :
    (∃ i, h ∈ listsAfterSplit g t.slots lists i) ↔
      (∃ i, i ≠ g.nextSplit ∧ h ∈ lists i) ∨ h ∈ (lists g.nextSplit).takeWhile t.hashable := by
  have hall : (fun h => (owner g.advance t.slots h).isSome) = t.hashable :=
    funext (isSome_owner g.advance t)
  unfold listsAfterSplit arrivals
  rw [hall]
  constructor
  · rintro ⟨i, hi⟩
    rcases List.mem_append.mp hi with hi | hi
    · by_cases his : i = g.nextSplit
      · subst his
        rw [Function.update_self] at hi
        cases hi
      · rw [Function.update_of_ne his] at hi
        exact Or.inl ⟨i, his, hi⟩
    · exact Or.inr (List.mem_filter.mp hi).1
  · rintro (⟨i, his, hi⟩ | hm)
    · refine ⟨i, List.mem_append_left _ ?_⟩
      rw [Function.update_of_ne his]
      exact hi
    · -- a handle that can be hashed has a bucket to go to
      have hsome := List.mem_takeWhile_imp hm
      rw [← isSome_owner g.advance] at hsome
      obtain ⟨b, hb⟩ := Option.isSome_iff_exists.mp hsome
      exact ⟨b, List.mem_append_right _ (List.mem_filter.mpr ⟨hm, by simpa using hb⟩)⟩

namespace Accounted

variable {t t' : Table ρ} {lost : List Handle}

/-- After a split the lost handles are those of before and those cast off. -/
theorem of_splitTo (ha : t.Accounted lost) (hs : t.SplitTo t')
    (hholds : t'.Holds t'.handlesIn) (hlevel : ∃ k, t'.AtLevel (Identifier.widths ι) k) :
    t'.Accounted (lost ++ (t.handlesIn t.geometry.forSplit.nextSplit).dropWhile t.hashable) := by
  -- the bucket split is what is handed on of it and what is cast off
  set g := t.geometry.forSplit with hg
  have hparts : ∀ h, h ∈ t.handlesIn g.nextSplit ↔
      h ∈ (t.handlesIn g.nextSplit).takeWhile t.hashable
        ∨ h ∈ (t.handlesIn g.nextSplit).dropWhile t.hashable := by
    intro h
    rw [← List.mem_append, List.takeWhile_append_dropWhile]
  have hdisjoint : ∀ h, h ∈ (t.handlesIn g.nextSplit).takeWhile t.hashable →
      h ∉ (t.handlesIn g.nextSplit).dropWhile t.hashable := by
    intro h htake hdrop
    have hnd := ha.holds.nodup g.nextSplit
    rw [← List.takeWhile_append_dropWhile (p := t.hashable) (l := t.handlesIn g.nextSplit)] at hnd
    exact (List.nodup_append.mp hnd).2.2 h htake h hdrop rfl
  have horder : ∀ h, h ∈ t'.order ↔ (∃ i, i ≠ g.nextSplit ∧ h ∈ t.handlesIn i)
      ∨ h ∈ (t.handlesIn g.nextSplit).takeWhile t.hashable := by
    intro h
    rw [hholds.mem_order, hs.handlesIn]
    exact mem_listsAfterSplit
  have hold : ∀ h, h ∈ t.order ↔
      h ∈ t'.order ∨ h ∈ (t.handlesIn g.nextSplit).dropWhile t.hashable := by
    intro h
    rw [ha.holds.mem_order, horder, or_assoc, ← hparts]
    constructor
    · rintro ⟨i, hi⟩
      by_cases his : i = g.nextSplit
      · exact Or.inr (his ▸ hi)
      · exact Or.inl ⟨i, his, hi⟩
    · rintro (⟨i, -, hi⟩ | hi)
      · exact ⟨i, hi⟩
      · exact ⟨_, hi⟩
  refine ⟨hholds, hlevel, fun h => ?_, fun h hm ho => ?_, ?_⟩
  · rw [hs.get, ha.live_iff, hold, List.mem_append, or_assoc, or_comm (a := h ∈ List.dropWhile _ _)]
  · rcases List.mem_append.mp hm with hm | hm
    · exact ha.apart h hm ((hold h).mpr (Or.inl ho))
    · rcases (horder h).mp ho with ⟨i, his, hi⟩ | htake
      · exact his (ha.holds.eq_of_mem hi ((hparts h).mpr (Or.inr hm)))
      · exact hdisjoint h htake hm
  · refine List.nodup_append.mpr
      ⟨ha.nodup, (ha.holds.nodup _).sublist (List.dropWhile_sublist _), fun h hm k hk he => ?_⟩
    subst he
    exact ha.apart h hm ((hold h).mpr (Or.inr hk))

/-- **A split** of the bucket at the cursor hands on the handles up to the first one that cannot
be hashed. If there is none it has come to its end, and otherwise the rest is lost. -/
theorem split (ha : t.Accounted lost) {o : Outcome (Table ρ) Unit}
    (hmost : t.buckets.size < (Identifier.widths ι).mostBuckets)
    (hs : (t.provisioned t.geometry.forSplit).split t.geometry.forSplit = .ok o) :
    t.SplitTo o.state
      ∧ o.state.Accounted
          (lost ++ (t.handlesIn t.geometry.forSplit.nextSplit).dropWhile t.hashable)
      ∧ (o.answer = .ok () ↔
          (t.handlesIn t.geometry.forSplit.nextSplit).dropWhile t.hashable = []) := by
  obtain ⟨k, hk⟩ := ha.level
  obtain ⟨j, hj, hlt, -⟩ := hk.spans.forSplit
  obtain ⟨o', hsplit, ho, hr, hans⟩ := split_spec (ha.holds.provisioned t.geometry.forSplit)
    (by rw [provisioned_buckets]; exact hj) hlt
  obtain rfl : o' = o := Except.ok.inj (hsplit.symm.trans hs)
  obtain ⟨hsize, hgeo, hres, hdoub, -⟩ := split_cases hsplit
  rw [provisioned_slots] at ho hr hans
  rw [provisioned_buckets] at hsize
  have hlists := ho.handlesIn_eq
  have hst : t.SplitTo o'.state :=
    ⟨hgeo, hsize, hres, hdoub, hlists, hr.resource, hr.live, hr.fresh⟩
  refine ⟨hst, ha.of_splitTo hst (by rw [hlists]; exact ho) (hk.split hmost hsplit).1, ?_⟩
  rw [hans, List.dropWhile_eq_nil_iff]
  simp only [isSome_owner]

/-- **Growing** before a resource is added leaves the table alone, or splits a bucket of it, or
begins to split one and casts off resources. -/
theorem grow (ha : t.Accounted lost) (granted : Bool) :
    ∃ o, t.growIfOverfull granted = .ok o
      ∧ (o.state = t ∧ o.answer = .ok ()
          ∧ (∀ split buckets, Event.bucketSplit split buckets ∉ o.events)
        ∨ o.answer = .ok () ∧ t.SplitTo o.state ∧ o.state.Accounted lost
          ∧ (t.handlesIn t.geometry.forSplit.nextSplit).dropWhile t.hashable = []
          ∧ o.state.splits = t.splits + 1 ∧ o.state.epoch = t.epoch + 1
          ∧ o.events = t.provisionEvents t.geometry.forSplit
              ++ [.bucketSplit t.geometry.forSplit.nextSplit (t.buckets.size + 1)]
        ∨ o.answer = .error .hashUnavailable ∧ t.SplitTo o.state
          ∧ o.state.Accounted
              (lost ++ (t.handlesIn t.geometry.forSplit.nextSplit).dropWhile t.hashable)
          ∧ (t.handlesIn t.geometry.forSplit.nextSplit).dropWhile t.hashable ≠ []
          ∧ o.state.splits = t.splits ∧ o.state.epoch = t.epoch
          ∧ o.events = t.provisionEvents t.geometry.forSplit) := by
  obtain ⟨k, hk⟩ := ha.level
  obtain ⟨o, hgrow, -⟩ := growIfOverfull_spec ha.holds hk granted
  refine ⟨o, hgrow, ?_⟩
  unfold growIfOverfull at hgrow
  split at hgrow
  · rcases grow_cases hgrow with ⟨hst, han, hev⟩ | ⟨hmost, o', hs, hst, han, hev⟩
    · refine Or.inl ⟨hst, han, fun split buckets hm => ?_⟩
      rcases hev with ⟨-, hev⟩ | ⟨requested, hev⟩ <;> simp [hev] at hm
    · obtain ⟨hto, ha', hiff⟩ := ha.split hmost hs
      rw [hst, han, hev]
      right
      rcases split_outcome hs with ⟨hok, hsplits, hep, hlog⟩ | ⟨herr, hsplits, hep, hlog⟩
      · left
        rw [hiff.mp hok, List.append_nil] at ha'
        rw [provisioned_splits] at hsplits
        rw [provisioned_buckets] at hlog
        rw [provisioned_epoch] at hep
        exact ⟨hok, hto, ha', hiff.mp hok, hsplits, hep, by rw [hlog]⟩
      · right
        rw [provisioned_splits] at hsplits
        rw [provisioned_epoch] at hep
        refine ⟨herr, hto, ha', fun hnil => ?_, hsplits, hep, by rw [hlog, List.append_nil]⟩
        rw [hiff.mpr hnil] at herr
        cases herr
  · cases hgrow
    exact Or.inl ⟨rfl, rfl, nofun⟩

/-- Growing that comes to its end loses nothing. -/
theorem growIfOverfull_ok (ha : t.Accounted lost) {granted : Bool} {o : Outcome (Table ρ) Unit}
    (hg : t.growIfOverfull granted = .ok o) (han : o.answer = .ok ()) :
    o.state.Accounted lost := by
  obtain ⟨o', hg', hcase⟩ := ha.grow granted
  obtain rfl : o' = o := Except.ok.inj (hg'.symm.trans hg)
  rcases hcase with ⟨hst, -⟩ | ⟨-, -, ha', -⟩ | ⟨herr, -⟩
  · exact hst.symm ▸ ha
  · exact ha'
  · rw [han] at herr
    cases herr

/-- Growing is cut short only where a resource has an identifier that cannot be hashed. -/
theorem growIfOverfull_error (ha : t.Accounted lost) {granted : Bool}
    {o : Outcome (Table ρ) Unit} (hg : t.growIfOverfull granted = .ok o) {fault : Fault}
    (han : o.answer = .error fault) :
    fault = .hashUnavailable
      ∧ ∃ h r, t.get? h = some r ∧ Identifier.hash? (Resource.id r) = none := by
  obtain ⟨o', hg', hcase⟩ := ha.grow granted
  obtain rfl : o' = o := Except.ok.inj (hg'.symm.trans hg)
  rw [han] at hcase
  rcases hcase with ⟨-, hok, -⟩ | ⟨hok, -⟩ | ⟨herr, -, -, hne, -⟩
  · cases hok
  · cases hok
  · refine ⟨Except.error.inj herr, ?_⟩
    -- if all identifiers could be hashed, nothing would be cast off
    by_contra hnone
    refine hne (List.dropWhile_eq_nil_iff.mpr fun h hm => ?_)
    obtain ⟨r, hr⟩ := Option.isSome_iff_exists.mp (ha.isSome_of_mem hm)
    unfold hashable
    rw [hr]
    by_contra hno
    exact hnone ⟨h, r, hr, Option.not_isSome_iff_eq_none.mp hno⟩

/-! ## Accepting a resource -/

/-- A resource that is installed is in a bucket, so that the lost handles are the same. -/
theorem of_installs (ha : t.Accounted lost) {b : Nat} {r : ρ}
    (hi : t.Installs t.handlesIn b r t') : t'.Accounted lost := by
  have hlists := hi.holds.handlesIn_eq
  have hholds : t'.Holds t'.handlesIn := by
    rw [hlists]
    exact hi.holds
  have horder : ∀ k, k ∈ t'.order ↔ k ∈ t.order ∨ k = t.slots.fresh := by
    intro k
    rw [hholds.mem_order, ha.holds.mem_order, hlists]
    constructor
    · rintro ⟨i, hi⟩
      by_cases hib : i = b
      · subst hib
        rw [Function.update_self, List.mem_append, List.mem_singleton] at hi
        exact hi.imp (fun hk => ⟨i, hk⟩) id
      · rw [Function.update_of_ne hib] at hi
        exact Or.inl ⟨i, hi⟩
    · rintro (⟨i, hk⟩ | rfl)
      · refine ⟨i, ?_⟩
        by_cases hib : i = b
        · subst hib
          rw [Function.update_self]
          exact List.mem_append_left _ hk
        · rw [Function.update_of_ne hib]
          exact hk
      · refine ⟨b, ?_⟩
        rw [Function.update_self]
        exact List.mem_append_right _ List.mem_cons_self
  have hfresh : t.get? t.slots.fresh = none := by
    rw [get?, Slots.get?_fresh]
    rfl
  refine ⟨hholds, ha.level.imp fun _ hk => hi.growth.atLevel hk, fun k => ?_, fun k hk hm => ?_,
    ha.nodup⟩
  · rw [hi.get, horder]
    by_cases hk : k = t.slots.fresh
    · simp [hk]
    · simp [hk, ha.live_iff]
  · rcases (horder k).mp hm with hm | rfl
    · exact ha.apart k hk hm
    · have hlive := ha.isSome_of_lost hk
      rw [hfresh] at hlive
      cases hlive

/-- **Accepting a resource** leaves the table alone or installs it. -/
theorem accept (ha : t.Accounted lost) (r : ρ) :
    ∃ t' answer, t.accept r = .ok (t', answer)
      ∧ (t' = t ∧ (answer = .ok (.duplicate r) ∨ answer = .error .hashUnavailable)
        ∨ answer = .ok (.installed t.slots.fresh) ∧ t'.epoch = t.epoch + 1
          ∧ ∃ b, t.address? (Resource.id r) = some b ∧ t.Installs t.handlesIn b r t') := by
  obtain ⟨t', answer, hacc, hcase⟩ := ha.holds.accept_eq ha.level r
  refine ⟨t', answer, hacc, ?_⟩
  cases hf : t.found t.handlesIn (Resource.id r) with
  | error fault =>
      rw [hf] at hcase
      obtain rfl := found_eq_error hf
      exact Or.inl ⟨hcase.1, Or.inr hcase.2⟩
  | ok found =>
      rw [hf] at hcase
      cases found with
      | some h => exact Or.inl ⟨hcase.1, Or.inl hcase.2⟩
      | none =>
          obtain ⟨hans, b, hb, hin, hi⟩ := hcase
          exact Or.inr ⟨hans, install_epoch hin, b, hb, hi⟩

/-- Adding a resource to a table that has been made room in, or has room. -/
theorem add_of_grown {granted : Bool} {grown : Outcome (Table ρ) Unit}
    (hg : t.growIfOverfull granted = .ok grown) (han : grown.answer = .ok ())
    (ha : grown.state.Accounted lost) (r : ρ) :
    ∃ o, t.add granted r = .ok o ∧ o.events = grown.events ∧ o.state.Accounted lost
      ∧ (o.state = grown.state ∧ (∀ h, o.answer ≠ .ok (.installed h))
        ∨ (∃ h, o.answer = .ok (.installed h)) ∧ o.state.epoch = grown.state.epoch + 1) := by
  obtain ⟨t', answer, hacc, hcase⟩ := ha.accept r
  refine ⟨{ state := t', answer := answer, events := grown.events }, ?_, rfl, ?_⟩
  · rw [add_eq, hg, Checked.ok_bind, han]
    dsimp only
    rw [hacc]
    rfl
  · rcases hcase with ⟨rfl, rfl | rfl⟩ | ⟨rfl, hepoch, b, -, hi⟩
    · exact ⟨ha, Or.inl ⟨rfl, nofun⟩⟩
    · exact ⟨ha, Or.inl ⟨rfl, nofun⟩⟩
    · exact ⟨ha.of_installs hi, Or.inr ⟨⟨_, rfl⟩, hepoch⟩⟩

/-! ## Every request -/

/-- **All that a request can do** to a table that is accounted for, if it does not take out a lost
resource by its handle: edit it, or make it gain a resource or a bucket, or cut short a split and
cast off resources. -/
theorem perform (ha : t.Accounted lost) {q : Request ρ ι} (hq : q.Spares lost) :
    ∃ o, t.perform q = .ok o ∧ o.state.Accounted (lost ++ t.castOff q)
      ∧ (t.Edits (fun _ _ => True) o.state ∧ t.castOff q = []
            ∧ ¬ (⟨q, o.answer, o.events⟩ : Exchange ρ ι).Gains
        ∨ t.epoch < o.state.epoch ∧ t.castOff q = []
            ∧ (⟨q, o.answer, o.events⟩ : Exchange ρ ι).Gains
        ∨ o.answer = .error .hashUnavailable ∧ t.castOff q ≠ [] ∧ o.state.epoch = t.epoch
            ∧ ¬ (⟨q, o.answer, o.events⟩ : Exchange ρ ι).Gains) := by
  rcases q.add_or_ne with ⟨granted, r, rfl⟩ | hne
  · obtain ⟨grown, hgrow, hcase⟩ := ha.grow granted
    rcases hcase with ⟨hst, han, hev⟩ | ⟨han, hto, ha', -, -, hepoch, hev⟩
      | ⟨han, hto, ha', hne, -, hepoch, hev⟩
    · -- the table has not grown
      have hno := castOff_of_ok (r := r) hgrow han
      obtain ⟨o, hadd, hlog, ha', hcase⟩ := add_of_grown hgrow han (hst.symm ▸ ha) r
      refine ⟨o, hadd, by rwa [hno, List.append_nil], ?_⟩
      rcases hcase with ⟨hs, hans⟩ | ⟨hans, hep⟩
      · refine Or.inl ⟨by rw [hs, hst]; exact .refl, hno, ?_⟩
        rintro (⟨h, hin⟩ | ⟨split, buckets, hm⟩)
        · exact hans h hin
        · have hm' : Event.bucketSplit split buckets ∈ o.events := hm
          rw [hlog] at hm'
          exact hev split buckets hm'
      · refine Or.inr (Or.inl ⟨?_, hno, Or.inl hans⟩)
        rw [hep, hst]
        exact Nat.lt_succ_self _
    · -- a bucket has been split
      have hno := castOff_of_ok (r := r) hgrow han
      obtain ⟨o, hadd, hlog, ha'', hcase⟩ := add_of_grown hgrow han ha' r
      have hsplit : Event.bucketSplit t.geometry.forSplit.nextSplit (t.buckets.size + 1)
          ∈ o.events := by
        rw [hlog, hev]
        exact List.mem_append_right _ List.mem_cons_self
      have hlt : t.epoch < o.state.epoch := by
        rcases hcase with ⟨hs, -⟩ | ⟨-, hep⟩
        · rw [hs]
          omega
        · omega
      exact ⟨o, hadd, by rwa [hno, List.append_nil],
        Or.inr (Or.inl ⟨hlt, hno, Or.inr ⟨_, _, hsplit⟩⟩)⟩
    · -- the split has been cut short
      have hcast := castOff_of_error (r := r) hgrow han
      show ∃ o, t.add granted r = .ok o ∧ _
      rw [add_eq, hgrow, Checked.ok_bind, hcast, han]
      refine ⟨_, rfl, ha', Or.inr (Or.inr ⟨rfl, hne, hepoch, ?_⟩)⟩
      rintro (⟨h, hin⟩ | ⟨split, buckets, hm⟩)
      · cases hin
      · have hm' : Event.bucketSplit split buckets ∈ grown.events := hm
        rw [hev] at hm'
        obtain ⟨_, _, he⟩ := eq_arrayDoubled_of_mem hm'
        cases he
  · obtain ⟨o, hp, he⟩ := ha.perform_edits hq q.changesOnly_true hne
    rw [castOff_of_ne_add hne, List.append_nil]
    refine ⟨o, hp, (ha.edits he).1, Or.inl ⟨he, rfl, ?_⟩⟩
    cases q with
    | add granted r => exact absurd rfl (hne granted r)
    | _ => exact id

end Accounted

end Table

end ResourceIndex
