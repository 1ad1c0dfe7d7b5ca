import ResourceIndex.Proofs.Account
import ResourceIndex.Proofs.Progress

set_option autoImplicit false

/-! # Edits of a table

All that a request can do to a table, unless it adds a resource, is to change resources where they
are and to take some out: the table is *edited* (`Table.Edits`). What every edit preserves is
proved once, by induction on it. So an edited table is accounted for by the same lost handles, and
its buckets are those it had, without the handles that are not live any more (`Prunes`).

Every request but an addition can be carried out on a table that is accounted for, and edits it,
as long as it does not take out a lost resource by its handle (`Accounted.perform_edits`). What a
traversal does is said in full by `Accounted.traverse_spec`: it sweeps over the handles of the
buckets in their order, and over no others.
-/

namespace ResourceIndex

/-- The request does not take out one of the resources `lost` by its handle. -/
def Request.Spares {ρ ι : Type} (lost : List Handle) : Request ρ ι → Prop
  | removeHandle h => h ∉ lost
  | _ => True

theorem Request.spares_nil {ρ ι : Type} (q : Request ρ ι) : q.Spares [] := by
  cases q with
  | removeHandle h => exact List.not_mem_nil
  | _ => trivial

namespace Table

variable {σ ρ ι : Type}

/-! ## Edits -/

/-- The table `t'` comes from `t` by changing resources where they are, as `P` allows, and by taking
out resources of buckets, each of which may have been changed in any way before. -/
inductive Edits (P : ρ → ρ → Prop) (t : Table ρ) : Table ρ → Prop
  | refl : Edits P t t
  | change {t' : Table ρ} (h : Handle) (f : ρ → ρ) (hf : ∀ r, t'.get? h = some r → P r (f r))
      (he : Edits P t t') : Edits P t (t'.modifyHandle h f)
  | unlink {t' t'' : Table ρ} {b : Nat} {h : Handle} {r : ρ} (f : ρ → ρ)
      (hm : h ∈ t'.handlesIn b) (hu : (t'.modifyHandle h f).unlink b h = .ok (t'', r))
      (he : Edits P t t') : Edits P t t''

/-- Taking out one resource of a bucket. -/
theorem Edits.unlink_one {P : ρ → ρ → Prop} {t t' : Table ρ} {b : Nat} {h : Handle} {r : ρ}
    (hm : h ∈ t.handlesIn b) (hu : t.unlink b h = .ok (t', r)) : t.Edits P t' :=
  .unlink id hm (by rwa [modifyHandle_id]) .refl

/-- Of what there is in `t`, the table `t'` has some left, in the same buckets and in the same
order. Neither has it grown nor has a resource been added. -/
structure Prunes (t t' : Table ρ) : Prop where
  growth : SameGrowth t t'
  epoch : t'.epoch = t.epoch
  live : ∀ h, (t'.get? h).isSome → (t.get? h).isSome
  handlesIn : ∀ i, t'.handlesIn i = (t.handlesIn i).filter fun h => (t'.get? h).isSome

theorem Prunes.trans {t t' t'' : Table ρ} (h₁ : t.Prunes t') (h₂ : t'.Prunes t'') :
    t.Prunes t'' where
  growth := h₁.growth.trans h₂.growth
  epoch := h₂.epoch.trans h₁.epoch
  live h hl := h₁.live h (h₂.live h hl)
  handlesIn i := by
    rw [h₂.handlesIn, h₁.handlesIn, List.filter_filter]
    apply List.filter_congr
    intro h _
    cases hl : (t''.get? h).isSome with
    | false => rfl
    | true => rw [h₂.live h hl]; rfl

theorem unlink_epoch {t : Table ρ} {p : Table ρ × ρ} {bucket : Nat} {h : Handle}
    (hu : t.unlink bucket h = .ok p) : p.1.epoch = t.epoch := by
  unfold unlink at hu
  obtain ⟨e, -, hu⟩ := Checked.bind_eq_ok.mp hu
  obtain ⟨c, -, hu⟩ := Checked.bind_eq_ok.mp hu
  obtain ⟨⟨c', s⟩, -, hu⟩ := Checked.bind_eq_ok.mp hu
  cases hu
  rfl

/-! ## Sweeps -/

/-- Visits the resources that `names` gives to the handles of a list, one after another: what the
handles name afterwards, and the state of the visitor. -/
def sweep (visit : Visitor σ ρ) :
    (order : List Handle) → (names : Handle → Option ρ) → σ → (Handle → Option ρ) × σ
  | [], names, s => (names, s)
  | h :: order, names, s =>
      match names h with
      | none => sweep visit order names s
      | some r =>
          match visit s r with
          | (s', r', .keep) => sweep visit order (Function.update names h (some r')) s'
          | (s', _, .remove) => sweep visit order (Function.update names h none) s'

theorem sweep_cons (visit : Visitor σ ρ) {names : Handle → Option ρ} {h : Handle} {r : ρ}
    (hr : names h = some r) (order : List Handle) (s : σ) :
    sweep visit (h :: order) names s =
      match visit s r with
      | (s', r', .keep) => sweep visit order (Function.update names h (some r')) s'
      | (s', _, .remove) => sweep visit order (Function.update names h none) s' := by
  rw [sweep, hr]

theorem sweep_append (visit : Visitor σ ρ) (l₁ l₂ : List Handle) :
    ∀ (names : Handle → Option ρ) (s : σ), sweep visit (l₁ ++ l₂) names s =
      sweep visit l₂ (sweep visit l₁ names s).1 (sweep visit l₁ names s).2 := by
  induction l₁ with
  | nil => exact fun _ _ => rfl
  | cons h l₁ ih =>
      intro names s
      rw [List.cons_append, sweep, sweep]
      cases names h with
      | none => exact ih names s
      | some r =>
          dsimp only
          rcases visit s r with ⟨s', r', verdict⟩
          cases verdict with
          | keep => exact ih _ s'
          | remove => exact ih _ s'

section Requests

variable [Resource ρ ι] [Identifier ι]

namespace Accounted

variable {t t' : Table ρ} {lost : List Handle}

theorem handlesIn_modifyHandle (ha : t.Accounted lost) (h : Handle) (f : ρ → ρ) :
    (t.modifyHandle h f).handlesIn = t.handlesIn :=
  (ha.holds.modifyHandle h f).handlesIn_eq

theorem isSome_modifyHandle (t : Table ρ) (h : Handle) (f : ρ → ρ) (k : Handle) :
    ((t.modifyHandle h f).get? k).isSome = (t.get? k).isSome := by
  rw [get?_modifyHandle]
  split <;> simp

theorem change (ha : t.Accounted lost) (h : Handle) (f : ρ → ρ) :
    (t.modifyHandle h f).Accounted lost := by
  have hlists := ha.handlesIn_modifyHandle h f
  have horder : (t.modifyHandle h f).order = t.order := by
    unfold order
    rw [hlists]
    rfl
  refine ⟨?_, ha.level.imp fun _ hk => (modifyHandle_sameGrowth t h f).atLevel hk, fun k => ?_, ?_,
    ha.nodup⟩
  · rw [hlists]
    exact ha.holds.modifyHandle h f
  · rw [isSome_modifyHandle, horder]
    exact ha.live_iff k
  · rw [horder]
    exact ha.apart

theorem prunes_refl (ha : t.Accounted lost) : t.Prunes t where
  growth := .refl t
  epoch := rfl
  live _ hl := hl
  handlesIn _ := (List.filter_eq_self.mpr fun _ hm => ha.isSome_of_mem hm).symm

theorem prunes_change (ha : t.Accounted lost) (h : Handle) (f : ρ → ρ) :
    t.Prunes (t.modifyHandle h f) where
  growth := modifyHandle_sameGrowth t h f
  epoch := rfl
  live k hk := by rwa [isSome_modifyHandle] at hk
  handlesIn i := by
    rw [ha.handlesIn_modifyHandle]
    refine (List.filter_eq_self.mpr fun k hk => ?_).symm
    rw [isSome_modifyHandle]
    exact ha.isSome_of_mem hk

/-- A handle is taken out of the lists. -/
theorem of_unlinks (ha : t.Accounted lost) {b : Nat} {h : Handle} (hm : h ∈ t.handlesIn b)
    (hu : t.Unlinks t.handlesIn h t') : t'.Accounted lost := by
  have hlists := hu.holds.handlesIn_eq
  have hholds : t'.Holds t'.handlesIn := by
    rw [hlists]
    exact hu.holds
  have horder : ∀ k, k ∈ t'.order ↔ k ∈ t.order ∧ k ≠ h := by
    intro k
    rw [hholds.mem_order, ha.holds.mem_order, hlists]
    unfold without
    simp only [List.mem_filter, decide_eq_true_iff]
    exact ⟨fun ⟨i, hi, hk⟩ => ⟨⟨i, hi⟩, hk⟩, fun ⟨⟨i, hi⟩, hk⟩ => ⟨i, hi, hk⟩⟩
  refine ⟨hholds, ha.level.imp fun _ hk => hu.growth.atLevel hk, fun k => ?_, fun k hk hm => ?_,
    ha.nodup⟩
  · rw [hu.get, horder]
    by_cases hk : k = h
    · subst hk
      have hno : k ∉ lost := fun hl => ha.not_mem_of_lost hl b hm
      simp [hno]
    · rw [if_neg hk, ha.live_iff]
      simp [hk]
  · exact ha.apart k hk ((horder k).mp hm).1

theorem prunes_of_unlinks (ha : t.Accounted lost) {h : Handle}
    (hu : t.Unlinks t.handlesIn h t') (hepoch : t'.epoch = t.epoch) : t.Prunes t' where
  growth := hu.growth
  epoch := hepoch
  live k hk := by
    rw [hu.get] at hk
    split at hk
    · cases hk
    · exact hk
  handlesIn i := by
    rw [hu.holds.handlesIn_eq]
    apply List.filter_congr
    intro k hk
    rw [hu.get]
    by_cases hkh : k = h
    · simp [hkh]
    · simp [hkh, ha.isSome_of_mem hk]

/-- **An edit prunes a table** and leaves what it has lost. -/
theorem edits {P : ρ → ρ → Prop} (ha : t.Accounted lost) (he : t.Edits P t') :
    t'.Accounted lost ∧ t.Prunes t' := by
  induction he with
  | refl => exact ⟨ha, ha.prunes_refl⟩
  | change h f hf he ih =>
      obtain ⟨ha', hp⟩ := ih
      exact ⟨ha'.change h f, hp.trans (ha'.prunes_change h f)⟩
  | @unlink t' t'' b h r f hm hu he ih =>
      obtain ⟨ha', hp⟩ := ih
      obtain ⟨t₁, r₁, -, hun, hu₁⟩ := unlink_changed ha'.holds hm f
      obtain ⟨rfl, -⟩ := Prod.mk.inj (Except.ok.inj (hun.symm.trans hu))
      exact ⟨ha'.of_unlinks hm hu₁, hp.trans (ha'.prunes_of_unlinks hu₁ (unlink_epoch hu))⟩

/-! ## Requests by identifier and by handle -/

theorem find_eq (ha : t.Accounted lost) (id : ι) : t.find id = .ok (t.found t.handlesIn id) :=
  ha.holds.reads.find_eq ha.level id

/-- **Removing by handle**, unless the resource is lost, takes it out of the bucket it is in. -/
theorem removeHandle_spec (ha : t.Accounted lost) {h : Handle} (hn : h ∉ lost) :
    ∃ t', t.removeHandle h = .ok (t', t.get? h)
      ∧ (t.get? h = none ∧ t' = t
        ∨ ∃ b r, h ∈ t.handlesIn b ∧ t.unlink b h = .ok (t', r)
          ∧ t.Unlinks t.handlesIn h t') := by
  cases hg : t.get? h with
  | none => exact ⟨t, removeHandle_of_stale hg, Or.inl ⟨rfl, rfl⟩⟩
  | some r =>
      obtain ⟨i, hi⟩ := ha.exists_mem (by rw [hg]; rfl) hn
      obtain ⟨t', r', hrem, hr, hun, hu⟩ := ha.holds.removeHandle_eq hi
      exact ⟨t', by rw [hrem, ← hr, hg], Or.inr ⟨i, r', hi, hun, hu⟩⟩

/-! ## Traversal -/

section Traversal

variable {P : ρ → ρ → Prop} {visit : Visitor σ ρ}
  (hv : ∀ s r, (visit s r).2.2 = .keep → P r (visit s r).2.1) (ha : t.Accounted lost)

include hv ha

/-- Visiting the rest of a bucket. -/
theorem visitFrom_spec {i : Nat} (rest : List Handle) :
    ∀ (before : List Handle) {bound : Nat} {t' : Table ρ} (s : σ),
      t.Edits P t' → t'.handlesIn i = before ++ rest → rest.length ≤ bound →
      ∃ t'', Table.visitFrom visit i bound rest.head? t' s
          = .ok (t'', (sweep visit rest t'.get? s).2)
        ∧ t''.get? = (sweep visit rest t'.get? s).1 ∧ t.Edits P t''
        ∧ ∀ j, j ≠ i → t''.handlesIn j = t'.handlesIn j := by
  -- by induction on the handles not yet visited; those before them are what is left of the bucket
  induction rest with
  | nil =>
      intro before bound t' s he _ _
      refine ⟨t', ?_, rfl, he, fun _ _ => rfl⟩
      cases bound <;> rfl
  | cons h rest ih =>
      intro before bound t' s he hl hb
      obtain ⟨bound, rfl⟩ : ∃ b, bound = b + 1 := ⟨bound - 1, by simp at hb; omega⟩
      have hb' : rest.length ≤ bound := by simpa using hb
      obtain ⟨ha', -⟩ := ha.edits he
      have hm : h ∈ t'.handlesIn i := by
        rw [hl]
        exact List.mem_append_right _ List.mem_cons_self
      obtain ⟨r, hr⟩ := Option.isSome_iff_exists.mp (ha'.isSome_of_mem hm)
      obtain ⟨e, hge, her, hnext⟩ := ha'.holds.next_eq hl hr
      rw [List.head?_cons, Table.visitFrom, Slots.require_eq hge, Checked.ok_bind, her, hnext,
        sweep_cons visit hr]
      rcases hvr : visit s r with ⟨s', r', verdict⟩
      cases verdict with
      | keep =>
          have hallowed : ∀ r₀, t'.get? h = some r₀ → P r₀ r' := by
            intro r₀ hr₀
            obtain rfl : r = r₀ := Option.some.inj (hr.symm.trans hr₀)
            have := hv s r
            rw [hvr] at this
            exact this rfl
          have he' : t.Edits P (t'.modifyHandle h fun _ => r') := .change h _ hallowed he
          have hnames : (t'.modifyHandle h fun _ => r').get? =
              Function.update t'.get? h (some r') := by
            funext k
            rw [get?_modifyHandle, Function.update_apply]
            split
            · rename_i hkh
              rw [hkh, hr]
              rfl
            · rfl
          have hlist := ha'.handlesIn_modifyHandle h fun _ => r'
          have hl' : (t'.modifyHandle h fun _ => r').handlesIn i = (before ++ [h]) ++ rest := by
            rw [hlist, hl, List.append_assoc]
            rfl
          obtain ⟨t'', hvisit, hget, he'', hlists⟩ := ih (before ++ [h]) s' he' hl' hb'
          rw [hnames] at hvisit hget
          exact ⟨t'', hvisit, hget, he'', fun j hj => by rw [hlists j hj, hlist]⟩
      | remove =>
          obtain ⟨t₁, r₁, -, hun, hu⟩ := unlink_changed ha'.holds hm fun _ => r'
          have he' : t.Edits P t₁ := .unlink _ hm hun he
          have hnames : t₁.get? = Function.update t'.get? h none := by
            funext k
            rw [hu.get, Function.update_apply]
          have hlist := hu.holds.handlesIn_eq
          have hl' : t₁.handlesIn i = before ++ rest := by
            rw [hlist, ha'.holds.without_middle hl]
          obtain ⟨t'', hvisit, hget, he'', hlists⟩ := ih before s' he' hl' hb'
          rw [hnames] at hvisit hget
          refine ⟨t'', ?_, hget, he'', fun j hj => ?_⟩
          · dsimp only
            rw [hun]
            exact hvisit
          · rw [hlists j hj, hlist, ha'.holds.without_of_ne hm hj]

/-- Visiting the buckets of a list of indices. -/
theorem visitBuckets_spec (indices : List Nat) :
    ∀ {t' : Table ρ} {s : σ}, t.Edits P t' → indices.Nodup →
      (∀ i ∈ indices, i < t'.buckets.size) →
      ∃ t'', indices.foldlM (fun (t, s) bucket => t.visitBucket visit bucket s) (t', s)
          = .ok (t'', (sweep visit (indices.flatMap t'.handlesIn) t'.get? s).2)
        ∧ t''.get? = (sweep visit (indices.flatMap t'.handlesIn) t'.get? s).1
        ∧ t.Edits P t'' := by
  induction indices with
  | nil => exact fun {t' s} he _ _ => ⟨t', rfl, rfl, he⟩
  | cons i indices ih =>
      intro t' s he hnd hlt
      obtain ⟨hi, hnd⟩ := List.nodup_cons.mp hnd
      obtain ⟨ha', -⟩ := ha.edits he
      obtain ⟨c, hc, hcl⟩ := ha'.holds.chain_eq (hlt i List.mem_cons_self)
      obtain ⟨t₁, hvisit, hget, he₁, hsame⟩ :=
        visitFrom_spec hv ha (t'.handlesIn i) [] s he rfl hcl.length_le_live
      have hbucket : t'.visitBucket visit i s
          = .ok (t₁, (sweep visit (t'.handlesIn i) t'.get? s).2) := by
        unfold visitBucket
        rw [hc, Checked.ok_bind, hcl.head]
        exact hvisit
      have hsize : t₁.buckets.size = t'.buckets.size :=
        (visitBucket_reworked hbucket).sameGrowth.buckets
      -- the visits to this bucket leave the others as they were
      have hrest : indices.flatMap t₁.handlesIn = indices.flatMap t'.handlesIn :=
        List.flatMap_congr fun j hj => hsame j fun hji => hi (hji ▸ hj)
      obtain ⟨t'', hfold, hget'', he''⟩ :=
        ih (s := (sweep visit (t'.handlesIn i) t'.get? s).2) he₁ hnd fun j hj =>
          hsize.symm ▸ hlt j (List.mem_cons_of_mem i hj)
      rw [hrest, hget] at hfold hget''
      refine ⟨t'', ?_, ?_, he''⟩
      · rw [List.foldlM_cons, List.flatMap_cons, sweep_append]
        show (t'.visitBucket visit i s >>= _) = _
        rw [hbucket]
        exact hfold
      · rw [List.flatMap_cons, sweep_append]
        exact hget''

/-- **A traversal** sweeps over the handles of the buckets in their order. -/
theorem traverse_spec (s : σ) :
    ∃ t', t.traverse visit s = .ok (t', (sweep visit t.order t.get? s).2)
      ∧ t'.get? = (sweep visit t.order t.get? s).1 ∧ t.Edits P t' :=
  visitBuckets_spec hv ha _ .refl List.nodup_range fun _ => List.mem_range.mp

end Traversal

/-! ## Every request but an addition -/

/-- **Every request but an addition** can be carried out and edits the table, unless it takes out a
lost resource by its handle. -/
theorem perform_edits {P : ρ → ρ → Prop} (ha : t.Accounted lost) {q : Request ρ ι}
    (hq : q.Spares lost) (hP : q.ChangesOnly P) (hadd : ∀ granted r, q ≠ .add granted r) :
    ∃ o, t.perform q = .ok o ∧ t.Edits P o.state := by
  cases q with
  | add granted r => exact absurd rfl (hadd granted r)
  | remove id =>
      obtain ⟨o, hrem, hcase⟩ := ha.holds.remove_eq ha.level id
      refine ⟨o, hrem, ?_⟩
      split at hcase
      · rw [hcase.1]
        exact .refl
      · rw [hcase.1]
        exact .refl
      · obtain ⟨b, r, hm, -, hun, -, -⟩ := hcase
        exact .unlink_one hm hun
  | removeHandle h =>
      obtain ⟨t', hrem, hcase⟩ := ha.removeHandle_spec hq
      refine ⟨{ state := t', answer := .ok (t.get? h) }, ?_, ?_⟩
      · show (t.removeHandle h >>= _) = _
        rw [hrem]
        rfl
      · rcases hcase with ⟨-, rfl⟩ | ⟨b, r, hm, hun, -⟩
        · exact .refl
        · exact .unlink_one hm hun
  | modify id f =>
      show ∃ o, t.modify id f = .ok o ∧ _
      unfold Table.modify
      rw [ha.find_eq, Checked.ok_bind]
      rcases t.found t.handlesIn id with fault | (_ | h)
      · exact ⟨_, rfl, .refl⟩
      · exact ⟨_, rfl, .refl⟩
      · exact ⟨_, rfl, .change h f (fun r _ => hP r) .refl⟩
  | modifyHandle h f => exact ⟨_, rfl, .change h f (fun r _ => hP r) .refl⟩
  | traverse visit s =>
      obtain ⟨t', htrav, -, he⟩ := traverse_spec hP ha s
      refine ⟨{ state := t', answer := .ok (sweep visit t.order t.get? s).2 }, ?_, he⟩
      show (t.traverse visit s >>= _) = _
      rw [htrav]
      rfl
  | find id =>
      refine ⟨{ state := t, answer := t.found t.handlesIn id }, ?_, .refl⟩
      show (t.find id >>= _) = _
      rw [ha.find_eq]
      rfl
  | lookup id =>
      refine ⟨{ state := t, answer := (t.found t.handlesIn id).map fun h => h.bind t.get? }, ?_,
        .refl⟩
      show (t.lookup id >>= _) = _
      unfold Table.lookup
      rw [ha.find_eq]
      rfl
  | contains id =>
      refine ⟨{ state := t, answer := (t.found t.handlesIn id).map Option.isSome }, ?_, .refl⟩
      show (t.contains id >>= _) = _
      unfold Table.contains
      rw [ha.find_eq]
      rfl
  | get h => exact ⟨_, rfl, .refl⟩
  | verify =>
      obtain ⟨answer, hver⟩ := ha.holds.reads.verify_total ha.level
      refine ⟨{ state := t, answer := answer }, ?_, .refl⟩
      show (t.verify >>= _) = _
      rw [hver]
      rfl

end Accounted

end Requests

end Table

end ResourceIndex
