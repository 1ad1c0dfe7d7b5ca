import ResourceIndex.Proofs.Agreement

set_option autoImplicit false

/-! # Requests to a table that agrees with a ledger

Every request takes a table and a ledger that agree to ones that agree, and its answer is one that
the ledger allows: `Agrees.perform`. By induction so does every run from the fresh table
(`run_agrees`). None of them ever comes upon a broken invariant.

What a lookup by identifier comes to depends on whether identifiers have been changed in place, so
that it is left to the relation `L`, of which only `hL` is asked.
-/

namespace ResourceIndex

namespace Table

variable {σ ρ ι : Type} [Resource ρ ι] [Identifier ι]

section Sound

variable {t : Table ρ} {lists : Nat → List Handle} (ht : t.Holds lists)

include ht

omit [Resource ρ ι] [Identifier ι] in
/-- **Removing by handle** takes it out of the list it is in, whether or not its identifier would
lead to it. -/
theorem Holds.removeHandle_eq {i : Nat} {h : Handle} (hm : h ∈ lists i) :
    ∃ t' r, t.removeHandle h = .ok (t', some r) ∧ t.get? h = some r
      ∧ t.unlink i h = .ok (t', r) ∧ t.Unlinks lists h t' := by
  -- the index recorded with the entry is that of the list the handle is in
  obtain ⟨e, he, rfl⟩ := Slots.home_eq_some.mp (ht.home i h hm)
  obtain ⟨t', r, hr, hun, hu⟩ := unlink_changed ht hm id
  rw [modifyHandle_id] at hun
  refine ⟨t', r, ?_, hr, hun, hu⟩
  unfold Table.removeHandle
  rw [he]
  dsimp only
  rw [hun]
  rfl

variable (hlevel : ∃ k, t.AtLevel (Identifier.widths ι) k)

include hlevel

/-- **Removing by identifier** takes out what is found under it. -/
theorem Holds.remove_eq (name : ι) :
    ∃ o, t.remove name = .ok o
      ∧ match t.found lists name with
        | .error fault => o.state = t ∧ o.answer = .error fault
        | .ok none => o.state = t ∧ o.answer = .ok none
        | .ok (some h) => ∃ b r, h ∈ lists b ∧ t.get? h = some r
            ∧ t.unlink b h = .ok (o.state, r) ∧ o.answer = .ok (some r)
            ∧ t.Unlinks lists h o.state := by
  obtain ⟨k, hk⟩ := hlevel
  unfold Table.remove found
  cases hb : t.address? name with
  | none => exact ⟨_, rfl, rfl, rfl⟩
  | some b =>
      dsimp only
      rw [ht.reads.findIn_eq (hk.address?_lt hb), Checked.ok_bind]
      cases hf : (lists b).find? (t.answers name) with
      | none => exact ⟨_, rfl, rfl, rfl⟩
      | some h =>
          have hm := List.mem_of_find?_eq_some hf
          obtain ⟨t', r, hr, hun, hu⟩ := unlink_changed ht hm id
          rw [modifyHandle_id] at hun
          refine ⟨{ state := t', answer := .ok (some r) }, ?_, b, r, hm, hr, hun, rfl, hu⟩
          dsimp only
          rw [hun]
          rfl

/-- **Accepting a resource** installs it in the bucket it belongs in, unless its identifier is
found. -/
theorem Holds.accept_eq (r : ρ) :
    ∃ t' answer, t.accept r = .ok (t', answer)
      ∧ match t.found lists (Resource.id r) with
        | .error fault => t' = t ∧ answer = .error fault
        | .ok (some _) => t' = t ∧ answer = .ok (.duplicate r)
        | .ok none => answer = .ok (.installed t.slots.fresh)
            ∧ ∃ b, t.address? (Resource.id r) = some b
              ∧ t.install b r = .ok (t', t.slots.fresh) ∧ t.Installs lists b r t' := by
  obtain ⟨k, hk⟩ := hlevel
  unfold Table.accept found
  cases hb : t.address? (Resource.id r) with
  | none => exact ⟨t, _, rfl, rfl, rfl⟩
  | some b =>
      dsimp only
      rw [ht.reads.findIn_eq (hk.address?_lt hb), Checked.ok_bind]
      cases (lists b).find? (t.answers (Resource.id r)) with
      | some h => exact ⟨t, _, rfl, rfl, rfl⟩
      | none =>
          obtain ⟨t', hin, hi⟩ := install_spec ht (hk.address?_lt hb) r
          refine ⟨t', .ok (.installed t.slots.fresh), ?_, rfl, b, rfl, hin, hi⟩
          dsimp only
          rw [hin]
          rfl

end Sound

namespace Agrees

variable {kept : Prop} {m : Ledger ρ} {t t' : Table ρ} {lists : Nat → List Handle}

theorem address?_lt (ha : Agrees kept m t lists) {id : ι} {b : Nat}
    (hb : t.address? id = some b) : b < t.buckets.size :=
  ha.level.elim fun _ hk => hk.address?_lt hb

theorem find_eq (ha : Agrees kept m t lists) (id : ι) : t.find id = .ok (t.found lists id) :=
  ha.holds.reads.find_eq ha.level id

theorem mayFind (ha : Agrees kept m t lists) (id : ι) : m.MayFind id (t.found lists id) := by
  have hfound : ∀ h, t.found lists id = .ok (some h) →
      ∃ r, m.get? h = some r ∧ Identifier.same (Resource.id r) id := by
    intro h hf
    obtain ⟨-, r, -, -, hr, hs⟩ := ha.holds.reads.mem_of_found hf
    exact ⟨r, (ha.get h).symm.trans hr, hs⟩
  unfold found at hfound ⊢
  cases hb : t.address? id with
  | none => exact ⟨rfl, Option.map_eq_none_iff.mp hb⟩
  | some b =>
      have hh : (Identifier.hash? id).isSome := by
        obtain ⟨hash, hh, -⟩ := Option.map_eq_some_iff.mp hb
        rw [hh]
        rfl
      rw [hb] at hfound
      dsimp only at hfound ⊢
      cases hf : (lists b).find? (t.answers id) with
      | none => exact hh
      | some h => exact ⟨hh, hfound h (congrArg Except.ok hf)⟩

/-! ## Carrying out single requests -/

/-- Taking out the resource under an identifier. -/
theorem remove (ha : Agrees kept m t lists) (id : ι) :
    ∃ o lists', t.remove id = .ok o ∧ o.answer = m.resolve (t.found lists id)
      ∧ Agrees kept (m.atFound (t.found lists id) m.erase) o.state lists' := by
  obtain ⟨o, hrem, hcase⟩ := ha.holds.remove_eq ha.level id
  generalize t.found lists id = found at hcase
  rcases found with fault | (_ | h)
  · exact ⟨o, lists, hrem, hcase.2, hcase.1.symm ▸ ha⟩
  · exact ⟨o, lists, hrem, hcase.2, hcase.1.symm ▸ ha⟩
  · obtain ⟨b, r, hm, hr, -, hans, hu⟩ := hcase
    refine ⟨o, without lists h, hrem, ?_, ha.erase (ha.mem_handles hm) hu⟩
    rw [hans, ← hr, ha.get]
    rfl

/-- Taking out the resource under a handle. -/
theorem removeHandle (ha : Agrees kept m t lists) (h : Handle) :
    ∃ t' lists', t.removeHandle h = .ok (t', m.get? h) ∧ Agrees kept (m.erase h) t' lists' := by
  by_cases hm : h ∈ m.handles
  · obtain ⟨i, hi⟩ := ha.placed h hm
    obtain ⟨t', r, hrem, hr, -, hu⟩ := ha.holds.removeHandle_eq hi
    refine ⟨t', without lists h, ?_, ha.erase hm hu⟩
    rw [hrem, ← ha.get, hr]
  · have hn : m.get? h = none := by
      rwa [← Option.not_isSome_iff_eq_none, m.isSome_get?]
    refine ⟨t, lists, ?_, ?_⟩
    · rw [removeHandle_of_stale ((ha.get h).trans hn), hn]
    · rw [Ledger.erase_of_get?_eq_none hn]
      exact ha

/-- Changing the resource under an identifier. -/
theorem modify (ha : Agrees kept m t lists) (id : ι) (f : ρ → ρ)
    (hhash : ∀ r, (Identifier.hash? (Resource.id r)).isSome →
      (Identifier.hash? (Resource.id (f r))).isSome)
    (hid : kept → ∀ r, Resource.id (f r) = Resource.id r) :
    ∃ o, t.modify id f = .ok o
      ∧ o.answer = (m.atFound (t.found lists id) fun h => m.change h f).resolve (t.found lists id)
      ∧ Agrees kept (m.atFound (t.found lists id) fun h => m.change h f) o.state lists := by
  unfold Table.modify
  rw [ha.find_eq, Checked.ok_bind]
  cases t.found lists id with
  | error fault => exact ⟨_, rfl, rfl, ha⟩
  | ok found =>
      cases found with
      | none => exact ⟨_, rfl, rfl, ha⟩
      | some h =>
          have ha' := ha.change h f (fun r _ => hhash r) fun hk r _ => hid hk r
          refine ⟨_, rfl, ?_, ha'⟩
          show Except.ok ((t.modifyHandle h f).get? h) = Except.ok ((m.change h f).get? h)
          rw [ha'.get]

/-- Installing a resource unless its identifier is found. -/
theorem accept (ha : Agrees kept m t lists) (r : ρ) :
    ∃ t' answer m' lists', t.accept r = .ok (t', answer)
      ∧ m.Admits r (t.found lists (Resource.id r)) answer m' ∧ Agrees kept m' t' lists' := by
  obtain ⟨t', answer, hacc, hcase⟩ := ha.holds.accept_eq ha.level r
  generalize t.found lists (Resource.id r) = found at hcase
  rcases found with fault | (_ | h)
  · obtain ⟨rfl, rfl⟩ := hcase
    exact ⟨t', _, m, lists, hacc, ⟨rfl, rfl⟩, ha⟩
  · obtain ⟨rfl, b, hb, -, hi⟩ := hcase
    exact ⟨t', _, m.add t.slots.fresh r, _, hacc, ⟨_, ha.fresh_not_mem, rfl, rfl⟩,
      ha.install hb hi⟩
  · obtain ⟨rfl, rfl⟩ := hcase
    exact ⟨t', _, m, lists, hacc, ⟨rfl, rfl⟩, ha⟩

/-! ## Visiting every resource -/

section Visits

variable {visit : Visitor σ ρ}
  (hhash : ∀ s r, (visit s r).2.2 = .keep → (Identifier.hash? (Resource.id r)).isSome →
    (Identifier.hash? (Resource.id (visit s r).2.1)).isSome)
  (hid : kept → ∀ s r, (visit s r).2.2 = .keep → Resource.id (visit s r).2.1 = Resource.id r)

include hhash hid

/-- Visiting the rest of a bucket. -/
theorem visitFrom {i : Nat} (rest : List Handle) :
    ∀ (before : List Handle) {bound : Nat} {m : Ledger ρ} {t : Table ρ}
      {lists : Nat → List Handle} (s : σ),
      Agrees kept m t lists → lists i = before ++ rest → rest.length ≤ bound →
      ∃ t' lists', Table.visitFrom visit i bound rest.head? t s
          = .ok (t', (Ledger.visitAll visit rest m s).2)
        ∧ Agrees kept (Ledger.visitAll visit rest m s).1 t' lists'
        ∧ ∀ j, j ≠ i → lists' j = lists j := by
  -- by induction on the handles not yet visited; those before them are what is left of the list
  induction rest with
  | nil =>
      intro before bound m t lists s ha _ _
      refine ⟨t, lists, ?_, ha, fun _ _ => rfl⟩
      cases bound <;> rfl
  | cons h rest ih =>
      intro before bound m t lists s ha hl hb
      obtain ⟨bound, rfl⟩ : ∃ b, bound = b + 1 := ⟨bound - 1, by simp at hb; omega⟩
      have hb' : rest.length ≤ bound := by simpa using hb
      have hm : h ∈ lists i := by
        rw [hl]
        exact List.mem_append_right _ List.mem_cons_self
      obtain ⟨r, hr, -⟩ := ha.exists_get? (ha.mem_handles hm)
      have hmr : m.get? h = some r := (ha.get h).symm.trans hr
      obtain ⟨e, he, her, hnext⟩ := ha.holds.next_eq hl hr
      rw [List.head?_cons, Table.visitFrom, Slots.require_eq he, Checked.ok_bind, her, hnext,
        Ledger.visitAll_cons visit hmr]
      rcases hv : visit s r with ⟨s', r', verdict⟩
      cases verdict with
      | keep =>
          have hkeep : (visit s r).2.2 = .keep := by rw [hv]
          have hr' : r' = (visit s r).2.1 := by rw [hv]
          have hlist : lists i = (before ++ [h]) ++ rest := by
            rw [hl, List.append_assoc]
            rfl
          refine ih (before ++ [h]) s' ?_ hlist hb'
          apply ha.change h fun _ => r'
          · intro r₀ hr₀
            obtain rfl : r = r₀ := Option.some.inj (hmr.symm.trans hr₀)
            rw [hr']
            exact hhash s r hkeep
          · intro hk r₀ hr₀
            obtain rfl : r = r₀ := Option.some.inj (hmr.symm.trans hr₀)
            rw [hr']
            exact hid hk s r hkeep
      | remove =>
          -- what the visitor has done to a resource that it has removed makes no difference
          obtain ⟨t', -, -, hun, hu⟩ := unlink_changed ha.holds hm fun _ => r'
          have ha' := ha.erase (ha.mem_handles hm) hu
          have hlist : without lists h i = before ++ rest := ha.holds.without_middle hl
          obtain ⟨t'', lists'', hrest, ha'', hlists⟩ := ih before s' ha' hlist hb'
          refine ⟨t'', lists'', ?_, ha'', fun j hj => ?_⟩
          · dsimp only
            rw [hun]
            exact hrest
          · rw [hlists j hj, ha.holds.without_of_ne hm hj]

/-- Visiting the buckets of a list of indices. -/
theorem visitBuckets (indices : List Nat) :
    ∀ {m : Ledger ρ} {t : Table ρ} {lists : Nat → List Handle} {s : σ},
      Agrees kept m t lists → indices.Nodup → (∀ i ∈ indices, i < t.buckets.size) →
      ∃ t' lists', indices.foldlM (fun (t, s) bucket => t.visitBucket visit bucket s) (t, s)
          = .ok (t', (Ledger.visitAll visit (indices.flatMap lists) m s).2)
        ∧ Agrees kept (Ledger.visitAll visit (indices.flatMap lists) m s).1 t' lists' := by
  induction indices with
  | nil => exact fun {m t lists s} ha _ _ => ⟨t, lists, rfl, ha⟩
  | cons i indices ih =>
      intro m t lists s ha hnd hlt
      obtain ⟨hi, hnd⟩ := List.nodup_cons.mp hnd
      obtain ⟨c, hc, hcl⟩ := ha.holds.chain_eq (hlt i List.mem_cons_self)
      obtain ⟨t', lists', hv, ha', hsame⟩ :=
        visitFrom hhash hid (lists i) [] s ha rfl hcl.length_le_live
      have hbucket : t.visitBucket visit i s
          = .ok (t', (Ledger.visitAll visit (lists i) m s).2) := by
        unfold visitBucket
        rw [hc, Checked.ok_bind, hcl.head]
        exact hv
      have hsize : t'.buckets.size = t.buckets.size :=
        (visitBucket_reworked hbucket).sameGrowth.buckets
      -- the visits to this bucket leave the lists of the others as they were
      have hrest : indices.flatMap lists' = indices.flatMap lists :=
        List.flatMap_congr fun j hj => hsame j fun hji => hi (hji ▸ hj)
      have hlt' : ∀ j ∈ indices, j < t'.buckets.size := fun j hj =>
        hsize.symm ▸ hlt j (List.mem_cons_of_mem i hj)
      obtain ⟨t'', lists'', hfold, ha''⟩ :=
        ih (s := (Ledger.visitAll visit (lists i) m s).2) ha' hnd hlt'
      rw [hrest] at hfold ha''
      refine ⟨t'', lists'', ?_, ?_⟩
      · rw [List.foldlM_cons, List.flatMap_cons, Ledger.visitAll_append]
        show (t.visitBucket visit i s >>= _) = _
        rw [hbucket]
        exact hfold
      · rw [List.flatMap_cons, Ledger.visitAll_append]
        exact ha''

variable (visit) in
/-- **A traversal** visits the lists in the order of the buckets. -/
theorem traverse (ha : Agrees kept m t lists) (s : σ) :
    ∃ t' lists', t.traverse visit s
        = .ok (t', (Ledger.visitAll visit ((List.range t.buckets.size).flatMap lists) m s).2)
      ∧ Agrees kept
          (Ledger.visitAll visit ((List.range t.buckets.size).flatMap lists) m s).1 t' lists' :=
  visitBuckets hhash hid _ ha List.nodup_range fun _ => List.mem_range.mp

end Visits

/-! ## Carrying out any request -/

/-- Growing, which the ledger does not see, and then installing. -/
theorem add (ha : Agrees kept m t lists) (granted : Bool) (r : ρ)
    {L : Ledger ρ → ι → Except Fault (Option Handle) → Prop}
    (hL : ∀ {m t lists}, Agrees kept m t lists → ∀ id, L m id (t.found lists id)) :
    ∃ o m' lists', t.add granted r = .ok o
      ∧ (∃ found, L m (Resource.id r) found ∧ m.Admits r found o.answer m')
      ∧ Agrees kept m' o.state lists' := by
  obtain ⟨o, lists₁, hgrow, han, ha₁⟩ := ha.grow granted
  obtain ⟨t', answer, m', lists', hacc, hadm, ha'⟩ := ha₁.accept r
  refine ⟨{ state := t', answer := answer, events := o.events }, m', lists', ?_,
    ⟨_, hL ha₁ _, hadm⟩, ha'⟩
  rw [add_eq, hgrow, Checked.ok_bind, han]
  dsimp only
  rw [hacc]
  rfl

/-- **Every request** is carried out, with an answer that the ledger allows, and leaves a table that
agrees with the ledger as it then is. -/
theorem perform (ha : Agrees kept m t lists)
    {L : Ledger ρ → ι → Except Fault (Option Handle) → Prop}
    (hL : ∀ {m t lists}, Agrees kept m t lists → ∀ id, L m id (t.found lists id))
    {q : Request ρ ι} (hq : q.KeepsHashable) (hk : kept → q.KeepsIds) :
    ∃ o m', t.perform q = .ok o ∧ Ledger.Step L m ⟨q, o.answer, o.events⟩ m'
      ∧ ∃ lists', Agrees kept m' o.state lists' := by
  cases q with
  | add granted r =>
      obtain ⟨o, m', lists', hadd, hs, ha'⟩ := ha.add granted r hL
      exact ⟨o, m', hadd, hs, lists', ha'⟩
  | remove id =>
      obtain ⟨o, lists', hrem, han, ha'⟩ := ha.remove id
      exact ⟨o, _, hrem, ⟨_, hL ha id, han, rfl⟩, lists', ha'⟩
  | removeHandle h =>
      obtain ⟨t', lists', hrem, ha'⟩ := ha.removeHandle h
      refine ⟨{ state := t', answer := .ok (m.get? h) }, m.erase h, ?_, ⟨rfl, rfl⟩, lists', ha'⟩
      show (t.removeHandle h >>= _) = _
      rw [hrem]
      rfl
  | modify id f =>
      obtain ⟨o, hmod, han, ha'⟩ := ha.modify id f hq hk
      exact ⟨o, _, hmod, ⟨_, hL ha id, han, rfl⟩, lists, ha'⟩
  | modifyHandle h f =>
      have ha' := ha.change h f (fun r _ => hq r) fun hkept r _ => hk hkept r
      refine ⟨_, m.change h f, rfl, ⟨?_, rfl⟩, lists, ha'⟩
      rw [ha'.get]
  | traverse visit s =>
      obtain ⟨t', lists', htrav, ha'⟩ := traverse visit hq hk ha s
      refine ⟨{ state := t', answer := .ok _ }, _, ?_, ⟨_, ha.flatMap_perm, rfl, rfl⟩,
        lists', ha'⟩
      show (t.traverse visit s >>= _) = _
      rw [htrav]
      rfl
  | find id =>
      refine ⟨{ state := t, answer := t.found lists id }, m, ?_, ⟨hL ha id, rfl⟩, lists, ha⟩
      show (t.find id >>= _) = _
      rw [ha.find_eq]
      rfl
  | lookup id =>
      refine ⟨{ state := t, answer := m.resolve (t.found lists id) }, m, ?_,
        ⟨_, hL ha id, rfl, rfl⟩, lists, ha⟩
      have hget : t.get? = m.get? := funext ha.get
      show (t.lookup id >>= _) = _
      unfold Table.lookup Ledger.resolve
      rw [ha.find_eq, hget]
      rfl
  | contains id =>
      refine ⟨{ state := t, answer := (t.found lists id).map Option.isSome }, m, ?_,
        ⟨_, hL ha id, rfl, rfl⟩, lists, ha⟩
      show (t.contains id >>= _) = _
      unfold Table.contains
      rw [ha.find_eq]
      rfl
  | get h =>
      refine ⟨_, m, rfl, ⟨?_, rfl⟩, lists, ha⟩
      rw [ha.get]
  | verify =>
      obtain ⟨answer, hver⟩ := ha.holds.reads.verify_total ha.level
      refine ⟨{ state := t, answer := answer }, m, ?_, rfl, lists, ha⟩
      show (t.verify >>= _) = _
      rw [hver]
      rfl

end Agrees

/-- **Every run** from the fresh table comes to its end, its exchanges are those of a ledger, and
the table it ends with agrees with that ledger. -/
theorem run_agrees (kept : Prop) {L : Ledger ρ → ι → Except Fault (Option Handle) → Prop}
    (hL : ∀ {m t lists}, Agrees kept m t lists → ∀ id, L m id (t.found lists id))
    (qs : List (Request ρ ι)) (hqs : ∀ q ∈ qs, q.KeepsHashable ∧ (kept → q.KeepsIds)) :
    ∃ exchanges t m, (new : Table ρ).run qs = .ok (exchanges, t)
      ∧ exchanges.map Exchange.request = qs ∧ Follows (Ledger.Step L) {} exchanges m
      ∧ ∃ lists, Agrees kept m t lists := by
  refine run_follows (I := fun m t => ∃ lists, Agrees kept m t lists) ?_ qs hqs
    ⟨_, agrees_of_empty kept new_atLevel rfl rfl rfl⟩
  rintro m t q ⟨hq, hk⟩ ⟨lists, ha⟩
  exact ha.perform hL hq hk

end Table

end ResourceIndex
