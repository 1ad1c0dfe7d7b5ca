import ResourceIndex.Proofs.Astray
import ResourceIndex.Proofs.Itinerary

set_option autoImplicit false

/-! # Visiting and removing

A traversal takes handles out of the very chains that it goes along, and its visitor may change
what it is shown, the identifiers included. The place is not lost on the way, because the link read
before a visit leads to the next entry of the strand that is left after it
(`Table.Wired.visitFrom_follows`). So a traversal makes its stops one after another, and what it
leaves behind follows: `Table.Tours`. The main statement is `Session.run_tours`.
-/

namespace ResourceIndex

namespace Table

variable {σ ρ ι : Type}

/-! ## Going along a strand -/

/-- The tables `t` and `t'` are the same beside the bucket `b` and the entries that have it on
record. -/
structure Beside (b : Nat) (t t' : Table ρ) : Prop where
  size : t'.buckets.size = t.buckets.size
  buckets : ∀ i, i ≠ b → t'.buckets[i]? = t.buckets[i]?
  entries : ∀ k, t.slots.home k ≠ some b → t'.slots.get? k = t.slots.get? k

namespace Beside

variable {b : Nat} {t t' t'' : Table ρ}

theorem refl (b : Nat) (t : Table ρ) : Beside b t t := ⟨rfl, fun _ _ => rfl, fun _ _ => rfl⟩

theorem trans (h₁ : Beside b t t') (h₂ : Beside b t' t'') : Beside b t t'' where
  size := h₂.size.trans h₁.size
  buckets i hi := (h₂.buckets i hi).trans (h₁.buckets i hi)
  entries k hk := by
    have hsame := h₁.entries k hk
    refine (h₂.entries k ?_).trans hsame
    unfold Slots.home
    rw [hsame]
    exact hk

theorem modifyHandle {h : Handle} (hh : t.slots.home h = some b) (f : ρ → ρ) :
    Beside b t (t.modifyHandle h f) where
  size := rfl
  buckets _ _ := rfl
  entries k hk := by
    have hkh : k ≠ h := fun he => hk (he ▸ hh)
    show (t.slots.modify h _).get? k = _
    rw [Slots.get?_modify, if_neg hkh]

/-- Another bucket has the handles that it had. -/
theorem handlesIn_eq (hbe : Beside b t t') (ht : t.Wired) {i : Nat} (hi : i ≠ b) :
    t'.handlesIn i = t.handlesIn i := by
  obtain ⟨hfirst, hst⟩ := ht.handlesIn_strand i
  have hfirst' : t'.first? i = (t.handlesIn i).head? := by
    rw [← hfirst, first?, first?, hbe.buckets i hi]
  refine handlesIn_of_strand hfirst' (hst.congr fun k hk => ?_)
  have hget : t'.slots.get? k = t.slots.get? k :=
    hbe.entries k fun hb => hi (Option.some.inj ((hst.home k hk).symm.trans hb))
  unfold Slots.links Slots.home
  rw [hget]
  exact ⟨rfl, rfl⟩

theorem get?_eq (hbe : Beside b t t') (ht : t.Wired) {i : Nat} (hi : i ≠ b) {k : Handle}
    (hk : k ∈ t.handlesIn i) : t'.get? k = t.get? k := by
  have hhome := ht.home_of_mem hk
  unfold get?
  rw [hbe.entries k fun hb => hi (Option.some.inj (hhome.symm.trans hb))]

end Beside

/-- What comes after a handle in a list without repetitions is another one. -/
theorem ne_of_mem_after {before rest : List Handle} {h k : Handle}
    (hnd : (before ++ h :: rest).Nodup) (hk : k ∈ rest) : k ≠ h := fun he =>
  (List.nodup_cons.mp (List.nodup_append.mp hnd).2.1).1 (he ▸ hk)

/-- Taking an entry out of a strand closes it up and changes nothing beside its bucket. -/
theorem Wired.unlink_middle {t t' : Table ρ} {b : Nat} {h : Handle} {l₁ l₂ : List Handle} {r : ρ}
    (ht : t.Wired) (hst : t.slots.Strand b (l₁ ++ h :: l₂)) (hu : t.unlink b h = .ok (t', r)) :
    t'.slots.Strand b (l₁ ++ l₂) ∧ Beside b t t' ∧ ∀ k, k ≠ h → t'.get? k = t.get? k := by
  obtain ⟨c, c', -, hbuckets, -, hslots, -⟩ := ht.unlink_cases hst hu
  refine ⟨?_, ⟨?_, fun i hi => ?_, fun k hk => ?_⟩, fun k hk => ?_⟩
  · rw [hslots]
    exact hst.erase_middle
  · rw [hbuckets, Array.size_setIfInBounds]
  · rw [hbuckets, Array.getElem?_setIfInBounds_ne (Ne.symm hi)]
  · -- the entry taken out and its neighbours have the bucket on record
    have hne : ∀ j ∈ l₁ ++ h :: l₂, k ≠ j := fun j hj he => hk (he ▸ hst.home j hj)
    have hprev : l₁.getLast? ≠ some k := fun hl =>
      hne k (List.mem_append_left _ (List.mem_of_getLast? hl)) rfl
    have hnext : l₂.head? ≠ some k := fun hl =>
      hne k (List.mem_append_right _ (List.mem_cons_of_mem h (List.mem_of_head? hl))) rfl
    have hkh := hne h (List.mem_append_right _ List.mem_cons_self)
    rw [hslots, Slots.get?_erase, if_neg hkh]
    unfold Chain.bridge
    rw [Slots.get?_touch, if_neg hnext, Slots.get?_touch, if_neg hprev, Slots.get?_touch,
      if_neg fun he => hkh (Option.some.inj he).symm]
  · unfold get?
    rw [hslots, Slots.get?_erase, if_neg hk]
    exact (Chain.rewired_bridge t.slots h l₁.getLast? l₂.head?).resource k

namespace Wired

variable {visit : Visitor σ ρ}

section Visits

variable {t t' : Table ρ} {b : Nat} {before rest : List Handle} {h : Handle}
  (ht : t.Wired) (hst : t.slots.Strand b (before ++ h :: rest))

include ht hst

/-- A visit changes the resource under a handle, which leaves the place and what is still to be
visited. -/
theorem change_visited (r : ρ) :
    (t.modifyHandle h fun _ => r).Wired
      ∧ (t.modifyHandle h fun _ => r).slots.Strand b (before ++ h :: rest)
      ∧ Beside b t (t.modifyHandle h fun _ => r)
      ∧ (t.modifyHandle h fun _ => r).named rest = t.named rest := by
  have hhome := hst.home h (List.mem_append_right _ List.mem_cons_self)
  have hchanged := fun k => t.slots.observe_modify h k fun _ => r
  refine ⟨ht.modifyHandle h _, hst.congr fun k _ => hchanged k, Beside.modifyHandle hhome _,
    named_congr fun k hk => ?_⟩
  rw [get?_modifyHandle, if_neg (ne_of_mem_after hst.nodup hk)]

/-- It may go on to take the resource out, and so do removals by handle. -/
theorem unlink_visited {r : ρ} (hu : t.unlink b h = .ok (t', r)) :
    t.removeHandle h = .ok (t', some r) ∧ t'.Wired ∧ t'.slots.Strand b (before ++ rest)
      ∧ Beside b t t' ∧ t'.named rest = t.named rest := by
  have hhome := hst.home h (List.mem_append_right _ List.mem_cons_self)
  have hremove := removeHandle_of_unlink hhome hu
  obtain ⟨hst', hbe, hget⟩ := ht.unlink_middle hst hu
  exact ⟨hremove, ht.of_removeHandle hremove, hst', hbe,
    named_congr fun k hk => hget k (ne_of_mem_after hst.nodup hk)⟩

end Visits

/-- **Along a strand the place is not lost.** The visits to the rest of it are its stops. -/
theorem visitFrom_follows {b : Nat} (rest : List Handle) :
    ∀ {before : List Handle} {bound : Nat} {t : Table ρ} {a : σ} {p : Table ρ × σ}, t.Wired →
      t.slots.Strand b (before ++ rest) →
      Table.visitFrom visit b bound rest.head? t a = .ok p →
        follow (stops visit (t.named rest) a) t = .ok p.1
          ∧ p.2 = stateAfter visit (t.named rest) a ∧ p.1.Wired ∧ Beside b t p.1 := by
  -- by induction on the handles not yet visited; those before them are what is left of the strand
  induction rest with
  | nil =>
      intro before bound t a p ht _ hv
      cases bound <;> cases hv <;> exact ⟨rfl, rfl, ht, .refl b t⟩
  | cons h rest ih =>
      intro before bound t a p ht hst hv
      cases bound with
      | zero => cases hv
      | succ bound =>
          rw [List.head?_cons, Table.visitFrom] at hv
          obtain ⟨e, he, hv⟩ := Checked.bind_eq_ok.mp hv
          have hge := Slots.require_eq_ok.mp he
          have hget : t.get? h = some e.resource := by
            unfold Table.get?
            rw [hge]
            rfl
          have hnext : e.next = rest.head? := by
            obtain ⟨e', he', -, hn⟩ := Slots.links_eq_some.mp hst.linked.links_eq
            rw [hge] at he'
            rwa [Option.some.inj he']
          rw [named_cons hget, stops, stateAfter, List.map_cons, List.foldl_cons]
          rcases hvisit : visit a e.resource with ⟨a', r, verdict⟩
          rw [hvisit] at hv
          dsimp only
          obtain ⟨ht₁, hst₁, hbe₁, hnamed₁⟩ := ht.change_visited hst r
          cases verdict with
          | keep =>
              rw [List.append_cons] at hst₁
              rw [hnext] at hv
              obtain ⟨hfollow, hstate, ht', hbe⟩ := ih ht₁ hst₁ hv
              rw [hnamed₁] at hfollow hstate
              exact ⟨hfollow, hstate, ht', hbe₁.trans hbe⟩
          | remove =>
              obtain ⟨⟨t₂, r₂⟩, hu, hv⟩ := Checked.bind_eq_ok.mp hv
              obtain ⟨hremove, ht₂, hst₂, hbe₂, hnamed₂⟩ := ht₁.unlink_visited hst₁ hu
              rw [hnext] at hv
              obtain ⟨hfollow, hstate, ht', hbe⟩ := ih ht₂ hst₂ hv
              rw [hnamed₂, hnamed₁] at hfollow hstate
              refine ⟨?_, hstate, ht', (hbe₁.trans hbe₂).trans hbe⟩
              rw [follow, hremove]
              exact hfollow

/-- The visits to some buckets are the stops along their strands. -/
theorem visitBuckets_follows (indices : List Nat) :
    ∀ {t : Table ρ} {a : σ} {p : Table ρ × σ}, t.Wired → indices.Nodup →
      indices.foldlM (fun (t, a) bucket => t.visitBucket visit bucket a) (t, a) = .ok p →
        follow (stops visit (t.named (indices.flatMap t.handlesIn)) a) t = .ok p.1
          ∧ p.2 = stateAfter visit (t.named (indices.flatMap t.handlesIn)) a := by
  induction indices with
  | nil =>
      intro t a p _ _ hf
      cases hf
      exact ⟨rfl, rfl⟩
  | cons b indices ih =>
      intro t a p ht hnd hf
      obtain ⟨hb, hnd⟩ := List.nodup_cons.mp hnd
      rw [List.foldlM_cons] at hf
      obtain ⟨⟨t₁, a₁⟩, hv, hf⟩ := Checked.bind_eq_ok.mp hf
      replace hv : t.visitBucket visit b a = .ok (t₁, a₁) := hv
      unfold Table.visitBucket at hv
      obtain ⟨c, hchain, hv⟩ := Checked.bind_eq_ok.mp hv
      obtain ⟨hfirst, hst⟩ := ht.handlesIn_strand b
      rw [← first?_of_some (chain_eq_ok.mp hchain), hfirst] at hv
      obtain ⟨hfollow, hstate, ht₁, hbe⟩ := ht.visitFrom_follows (t.handlesIn b)
        (show t.slots.Strand b ([] ++ t.handlesIn b) from hst) hv
      obtain ⟨hfollows, hstates⟩ := ih ht₁ hnd hf
      -- the visits to this bucket leave the others as they were
      have hne : ∀ i ∈ indices, i ≠ b := fun i hi he => hb (he ▸ hi)
      have hlists : indices.flatMap t₁.handlesIn = indices.flatMap t.handlesIn :=
        List.flatMap_congr fun i hi => hbe.handlesIn_eq ht (hne i hi)
      have hnamed : t₁.named (indices.flatMap t.handlesIn) =
          t.named (indices.flatMap t.handlesIn) :=
        named_congr fun k hk => by
          obtain ⟨i, hi, hk⟩ := List.mem_flatMap.mp hk
          exact hbe.get?_eq ht (hne i hi) hk
      rw [hlists, hnamed] at hfollows hstates
      constructor
      · rw [List.flatMap_cons, named_append, stops_append, follow_append, hfollow, ← hstate]
        exact hfollows
      · rw [List.flatMap_cons, named_append, stateAfter_append, ← hstate]
        exact hstates

/-- **A traversal** makes its stops one after another. -/
theorem traverse_follows {t t' : Table ρ} {a a' : σ} (ht : t.Wired)
    (htrav : t.traverse visit a = .ok (t', a')) :
    follow (t.itinerary visit a) t = .ok t' ∧ a' = stateAfter visit (t.named t.order) a :=
  ht.visitBuckets_follows _ List.nodup_range htrav

end Wired

/-! ## What a traversal leaves behind -/

/-- A visitor with the state `a` that has traversed the table `t` leaves behind the table `t'`, and
has the state `a'` in the end. -/
structure Tours (t : Table ρ) (visit : Visitor σ ρ) (a : σ) (t' : Table ρ) (a' : σ) : Prop where
  /-- The handles of the buckets have been visited in their order. -/
  visited : (t.itinerary visit a).map Stop.handle = t.order
  /-- The visitor has been shown what they named before the traversal. -/
  state : a' = (t.order.filterMap t.get?).foldl (fun a r => (visit a r).1) a
  /-- In each bucket the handles that have not been taken out stay in their order. -/
  handlesIn : ∀ b, t'.handlesIn b =
    (t.handlesIn b).filter fun h => h ∉ departures (t.itinerary visit a)
  /-- They name what the visitor has left. -/
  kept : ∀ x ∈ t.itinerary visit a, x.verdict = .keep → t'.get? x.handle = some x.resource
  /-- The handles taken out have become stale, and no others. -/
  stale : ∀ h, (t.get? h).isSome ∧ t'.get? h = none ↔ h ∈ departures (t.itinerary visit a)
  /-- A resource that is in no bucket is not visited. -/
  others : ∀ h, h ∉ t.order → t'.get? h = t.get? h
  size : t'.size + (departures (t.itinerary visit a)).length = t.size
  growth : SameGrowth t t'
  epoch : t'.epoch = t.epoch
  /-- A stored length is lowered below zero if it has been less than what is taken out. -/
  underflowed : t'.underflowed = true ↔ t.underflowed = true ∨ t.Overdraws t'
  /-- The table is the one that comes of making all changes in place and then taking out, in the
  order of the visits, the handles that are to be taken out. -/
  replay : withdraw (departures (t.itinerary visit a)) (t.change (t.itinerary visit a)) = .ok t'

namespace Wired

variable {t t' : Table ρ} {visit : Visitor σ ρ} {a a' : σ}

/-- The stops are at the handles of the buckets, in their order. -/
theorem map_handle_itinerary (ht : t.Wired) (visit : Visitor σ ρ) (a : σ) :
    (t.itinerary visit a).map Stop.handle = t.order :=
  (map_handle_stops _ a).trans (map_fst_named fun _ => ht.isSome_of_mem_order)

/-- **What a traversal leaves behind.** -/
theorem tours (ht : t.Wired) (htrav : t.traverse visit a = .ok (t', a')) :
    t.Tours visit a t' a' := by
  obtain ⟨hfollow, hstate⟩ := ht.traverse_follows htrav
  have hhandles := ht.map_handle_itinerary visit a
  have hnd : ((t.itinerary visit a).map Stop.handle).Nodup := hhandles.symm ▸ ht.nodup_order
  have hsub : (departures (t.itinerary visit a)).Sublist t.order := by
    rw [← hhandles]
    exact List.filter_sublist.map Stop.handle
  rw [follow_eq _ t hnd] at hfollow
  -- the changes leave the handles in the buckets, from which the removals take them out
  obtain ⟨hw, hlists, hgrowth, hepoch, hsize, hlive, hunder, hlengths⟩ :=
    change_spec (t.itinerary visit a) ht
  obtain ⟨t₁, hwithdraw, hr⟩ := hw.withdraw_spec (departures (t.itinerary visit a))
    (ht.nodup_order.sublist hsub) fun h hm => by
      rw [hlists]
      exact ht.mem_order.mp (hsub.subset hm)
  obtain rfl : t₁ = t' := Except.ok.inj (hwithdraw.symm.trans hfollow)
  refine ⟨hhandles, ?_, fun b => ?_, fun x hx hv => ?_, fun h => ?_, fun h hn => ?_, ?_,
    hgrowth.trans hr.growth, hr.epoch.trans hepoch, ?_, hwithdraw⟩
  · rw [hstate, stateAfter, map_snd_named]
  · rw [hr.handlesIn, hlists]
  · have hstays : x.handle ∉ departures (t.itinerary visit a) := fun hm => by
      rw [(mem_departures hnd hx).mp hm] at hv
      cases hv
    rw [hr.get, if_neg hstays, get?_change_of_mem _ t hnd hx]
    exact ht.isSome_of_mem_order (hhandles ▸ List.mem_map_of_mem hx)
  · rw [hr.get]
    constructor
    · rintro ⟨hl, hgone⟩
      by_contra hstays
      rw [if_neg hstays] at hgone
      rw [← hlive, hgone] at hl
      cases hl
    · exact fun hm => ⟨ht.isSome_of_mem_order (hsub.subset hm), if_pos hm⟩
  · rw [hr.get, if_neg fun hm => hn (hsub.subset hm),
      get?_change_of_not_mem _ t (by rwa [hhandles])]
  · rw [hr.size, hsize]
  · rw [hr.underflowed, hunder, Overdraws, Overdraws, hlists, hlengths]

end Wired

end Table

namespace Session

variable {ρ ι : Type} [Resource ρ ι] [Identifier ι]

/-- Of four resources in the only bucket the last one is lost to a split. -/
def docked : List (Act (Record Table.WideId) Table.WideId) :=
  [.request (.add true ⟨⟨some 1, some 0⟩, "a"⟩), .request (.add true ⟨⟨some 2, some 0⟩, "b"⟩),
    .request (.add false ⟨⟨some 3, some 0⟩, "c"⟩), .request (.add false ⟨⟨some 4, some 0⟩, "d"⟩),
    .request (.modifyHandle ⟨3⟩ fun r => { r with id := ⟨some 4, none⟩ }),
    .request (.add true ⟨⟨some 5, some 0⟩, "e"⟩)]

end Session

end ResourceIndex
