import ResourceIndex.Proofs.Arrangement
import ResourceIndex.Proofs.Interchange
import ResourceIndex.Proofs.Withdrawal

set_option autoImplicit false

/-! # The stops of a traversal

What becomes of a table that is traversed is said by the *stops* of the traversal
(`Table.itinerary`): the handles of the buckets in their order, each with the resource as the
visitor leaves it and with what is to become of it. The stops depend on the table before the
traversal only.

They may be made one after another (`Table.follow`), or all changes may be made in place first and
then all removals, which comes to the same: `Table.follow_eq`. A removal is known to take a handle
out of the bucket it is in, and so what is left in the end is known as well
(`Table.Wired.withdraw_spec`).
-/

namespace ResourceIndex

/-! ## Stops -/

/-- A stop of a traversal: a handle, its resource as the visitor leaves it, and what is to become of
it. -/
structure Stop (ρ : Type) where
  handle : Handle
  resource : ρ
  verdict : Visit

namespace Table

variable {σ ρ ι : Type}

/-- The stops of a visitor that is shown the resources of a list. -/
def stops (visit : Visitor σ ρ) : List (Handle × ρ) → σ → List (Stop ρ)
  | [], _ => []
  | (h, r) :: rows, a => ⟨h, (visit a r).2.1, (visit a r).2.2⟩ :: stops visit rows (visit a r).1

/-- The state of a visitor that has been shown the resources of a list. -/
def stateAfter (visit : Visitor σ ρ) (rows : List (Handle × ρ)) (a : σ) : σ :=
  (rows.map Prod.snd).foldl (fun a r => (visit a r).1) a

/-- The stops of a traversal. -/
def itinerary (t : Table ρ) (visit : Visitor σ ρ) (a : σ) : List (Stop ρ) :=
  stops visit (t.named t.order) a

/-- The handles that are to be taken out, in the order of the stops. -/
def departures (stops : List (Stop ρ)) : List Handle :=
  (stops.filter fun x => x.verdict = .remove).map Stop.handle

/-- Makes the changes of a list of stops in place. -/
def change (t : Table ρ) (stops : List (Stop ρ)) : Table ρ :=
  stops.foldl (fun t x => t.modifyHandle x.handle fun _ => x.resource) t

/-- Takes the handles of a list out, one after another. -/
def withdraw : List Handle → Table ρ → Checked (Table ρ)
  | [], t => .ok t
  | h :: l, t => do
      let (t, _) ← t.removeHandle h
      withdraw l t

/-- Makes stops one after another: at each one the change in place, and then the removal if there is
to be one. -/
def follow : List (Stop ρ) → Table ρ → Checked (Table ρ)
  | [], t => .ok t
  | ⟨h, r, .keep⟩ :: rest, t => follow rest (t.modifyHandle h fun _ => r)
  | ⟨h, r, .remove⟩ :: rest, t => do
      let (t, _) ← (t.modifyHandle h fun _ => r).removeHandle h
      follow rest t

section Lists

variable {t t' : Table ρ} {visit : Visitor σ ρ}

theorem named_append (t : Table ρ) (l l' : List Handle) :
    t.named (l ++ l') = t.named l ++ t.named l' :=
  List.filterMap_append

theorem named_congr {l : List Handle} (hl : ∀ h ∈ l, t'.get? h = t.get? h) :
    t'.named l = t.named l :=
  List.filterMap_congr fun h hm => by rw [hl h hm]

theorem named_cons {h : Handle} {r : ρ} (hr : t.get? h = some r) (l : List Handle) :
    t.named (h :: l) = (h, r) :: t.named l := by
  unfold named
  rw [List.filterMap_cons, hr]
  rfl

theorem map_fst_named {l : List Handle} (hl : ∀ h ∈ l, (t.get? h).isSome) :
    (t.named l).map Prod.fst = l := by
  induction l with
  | nil => rfl
  | cons h l ih =>
      obtain ⟨r, hr⟩ := Option.isSome_iff_exists.mp (hl h List.mem_cons_self)
      rw [named_cons hr, List.map_cons, ih fun k hk => hl k (List.mem_cons_of_mem h hk)]

theorem stops_append (rows rows' : List (Handle × ρ)) :
    ∀ a : σ, stops visit (rows ++ rows') a =
      stops visit rows a ++ stops visit rows' (stateAfter visit rows a) := by
  induction rows with
  | nil => exact fun _ => rfl
  | cons row rows ih => exact fun a => congrArg (_ :: ·) (ih _)

theorem stateAfter_append (rows rows' : List (Handle × ρ)) (a : σ) :
    stateAfter visit (rows ++ rows') a = stateAfter visit rows' (stateAfter visit rows a) := by
  unfold stateAfter
  rw [List.map_append, List.foldl_append]

theorem map_handle_stops (rows : List (Handle × ρ)) :
    ∀ a : σ, (stops visit rows a).map Stop.handle = rows.map Prod.fst := by
  induction rows with
  | nil => exact fun _ => rfl
  | cons row rows ih => exact fun a => congrArg (_ :: ·) (ih _)

/-- The handles to be taken out are those of the stops that say so. -/
theorem mem_departures {stops : List (Stop ρ)} (hnd : (stops.map Stop.handle).Nodup) {x : Stop ρ}
    (hx : x ∈ stops) : x.handle ∈ departures stops ↔ x.verdict = .remove := by
  unfold departures
  rw [List.mem_map]
  constructor
  · rintro ⟨y, hy, hyx⟩
    obtain ⟨hy, hv⟩ := List.mem_filter.mp hy
    obtain rfl := List.inj_on_of_nodup_map hnd hy hx hyx
    exact of_decide_eq_true hv
  · exact fun hv => ⟨x, List.mem_filter.mpr ⟨hx, decide_eq_true hv⟩, rfl⟩

theorem follow_append (stops stops' : List (Stop ρ)) :
    ∀ t : Table ρ, follow (stops ++ stops') t = follow stops t >>= follow stops' := by
  induction stops with
  | nil => exact fun _ => rfl
  | cons x stops ih =>
      intro t
      obtain ⟨h, r, verdict⟩ := x
      cases verdict with
      | keep => exact ih _
      | remove =>
          rw [List.cons_append, follow, follow]
          cases (t.modifyHandle h fun _ => r).removeHandle h with
          | error c => rfl
          | ok p => exact ih p.1

end Lists

/-! ## Changes first, removals afterwards -/

section Reordering

variable {t : Table ρ}

theorem change_cons (t : Table ρ) (x : Stop ρ) (stops : List (Stop ρ)) :
    t.change (x :: stops) = (t.modifyHandle x.handle fun _ => x.resource).change stops := rfl

/-- Changes elsewhere may as well come after a removal. -/
theorem removeHandle_change {h : Handle} (stops : List (Stop ρ)) :
    ∀ t : Table ρ, h ∉ stops.map Stop.handle →
      (t.change stops).removeHandle h =
        (t.removeHandle h).map fun p => (p.1.change stops, p.2) := by
  induction stops with
  | nil =>
      intro t _
      show t.removeHandle h = _
      cases t.removeHandle h <;> rfl
  | cons x stops ih =>
      intro t hn
      obtain ⟨hx, hn⟩ := not_or.mp fun hm => hn (List.mem_cons.mpr hm)
      rw [change_cons, ih _ hn, removeHandle_modifyHandle (Ne.symm hx)]
      cases t.removeHandle h <;> rfl

/-- **Making stops one after another** comes to the same as making all changes in place and then
taking out what is to be taken out. -/
theorem follow_eq (stops : List (Stop ρ)) :
    ∀ t : Table ρ, (stops.map Stop.handle).Nodup →
      follow stops t = withdraw (departures stops) (t.change stops) := by
  induction stops with
  | nil => exact fun _ _ => rfl
  | cons x stops ih =>
      intro t hnd
      obtain ⟨h, r, verdict⟩ := x
      obtain ⟨hx, hnd'⟩ := List.nodup_cons.mp hnd
      cases verdict with
      | keep => exact ih _ hnd'
      | remove =>
          have hgone : departures (⟨h, r, .remove⟩ :: stops) = h :: departures stops := rfl
          rw [follow, hgone, withdraw, change_cons, removeHandle_change stops _ hx]
          cases (t.modifyHandle h fun _ => r).removeHandle h with
          | error c => rfl
          | ok p => exact ih p.1 hnd'

end Reordering

/-! ## What the changes and the removals do -/

section Effects

variable {t : Table ρ}

theorem get?_change_of_not_mem {h : Handle} (stops : List (Stop ρ)) :
    ∀ t : Table ρ, h ∉ stops.map Stop.handle → (t.change stops).get? h = t.get? h := by
  induction stops with
  | nil => exact fun _ _ => rfl
  | cons x stops ih =>
      intro t hn
      obtain ⟨hx, hn⟩ := not_or.mp fun hm => hn (List.mem_cons.mpr hm)
      rw [change_cons, ih _ hn, get?_modifyHandle, if_neg hx]

/-- A change in place is what its handle names afterwards. -/
theorem get?_change_of_mem {x : Stop ρ} (stops : List (Stop ρ)) :
    ∀ t : Table ρ, (stops.map Stop.handle).Nodup → x ∈ stops → (t.get? x.handle).isSome →
      (t.change stops).get? x.handle = some x.resource := by
  induction stops with
  | nil => exact fun _ _ => nofun
  | cons y stops ih =>
      intro t hnd hx hl
      obtain ⟨hy, hnd⟩ := List.nodup_cons.mp hnd
      rw [change_cons]
      rcases List.mem_cons.mp hx with rfl | hx
      · obtain ⟨r, hr⟩ := Option.isSome_iff_exists.mp hl
        rw [get?_change_of_not_mem stops _ hy, get?_modifyHandle, if_pos rfl, hr]
        rfl
      · refine ih _ hnd hx ?_
        rw [get?_modifyHandle]
        split
        · rwa [Option.isSome_map]
        · exact hl

namespace Wired

/-- A change in place leaves the buckets as they are. -/
theorem handlesIn_modifyHandle (ht : t.Wired) (h : Handle) (f : ρ → ρ) :
    (t.modifyHandle h f).handlesIn = t.handlesIn := by
  funext b
  obtain ⟨hfirst, hst⟩ := ht.handlesIn_strand b
  exact handlesIn_of_strand (t := t.modifyHandle h f) hfirst
    (hst.congr fun k _ => t.slots.observe_modify h k f)

/-- **Changing resources in place** leaves everything as it is but the resources. -/
theorem change_spec (stops : List (Stop ρ)) :
    ∀ {t : Table ρ}, t.Wired →
      (t.change stops).Wired ∧ (t.change stops).handlesIn = t.handlesIn
        ∧ SameGrowth t (t.change stops) ∧ (t.change stops).epoch = t.epoch
        ∧ (t.change stops).size = t.size
        ∧ (∀ h, ((t.change stops).get? h).isSome = (t.get? h).isSome)
        ∧ (t.change stops).underflowed = t.underflowed
        ∧ (t.change stops).lengthIn = t.lengthIn := by
  induction stops with
  | nil => exact fun ht => ⟨ht, rfl, .refl _, rfl, rfl, fun _ => rfl, rfl, rfl⟩
  | cons x stops ih =>
      intro t ht
      obtain ⟨hw, hlists, hgrowth, hepoch, hsize, hlive, hunder, hlengths⟩ :=
        ih (ht.modifyHandle x.handle fun _ => x.resource)
      exact ⟨hw, hlists.trans (ht.handlesIn_modifyHandle _ _),
        (modifyHandle_sameGrowth t _ _).trans hgrowth, hepoch, hsize,
        fun h => (hlive h).trans (Accounted.isSome_modifyHandle t _ _ h), hunder, hlengths⟩

/-- A handle that is taken out is in no bucket any more, and the others are where they were. -/
theorem handlesIn_of_withdraws (ht : t.Wired) {t' : Table ρ} {b : Nat} {h : Handle}
    (hb : h ∈ t.handlesIn b) (hw : t.Withdraws b h t') (i : Nat) :
    t'.handlesIn i = without t.handlesIn h i := by
  unfold without
  by_cases hib : i = b
  · subst hib
    rw [hw.inside, (ht.handlesIn_strand i).2.nodup.erase_eq_filter]
    exact List.filter_congr fun k _ => by simp [bne, beq_eq_decide]
  · rw [hw.outside i hib]
    refine (List.filter_eq_self.mpr fun k hk => ?_).symm
    have hkh : k ≠ h := by
      rintro rfl
      exact hib (ht.eq_of_mem hk hb)
    exact decide_eq_true hkh

end Wired

/-- More handles have gone from some bucket of `t`, in which only those of `t'` are left, than its
stored length says are there. -/
def Overdraws (t t' : Table ρ) : Prop :=
  ∃ b, t.lengthIn b + (t'.handlesIn b).length < (t.handlesIn b).length

/-- The table `t'` is `t` without the handles `gone`. -/
structure Relieves (t : Table ρ) (gone : List Handle) (t' : Table ρ) : Prop where
  growth : SameGrowth t t'
  epoch : t'.epoch = t.epoch
  handlesIn : ∀ b, t'.handlesIn b = (t.handlesIn b).filter fun h => h ∉ gone
  get : ∀ h, t'.get? h = if h ∈ gone then none else t.get? h
  size : t'.size + gone.length = t.size
  /-- A stored length is lowered below zero if it has been less than what is taken out. -/
  underflowed : t'.underflowed = true ↔ t.underflowed = true ∨ t.Overdraws t'

/-- Whether what is left overdraws a table can be told after one of the removals as well. -/
theorem Withdraws.overdraws {t₁ t' : Table ρ} {b : Nat} {h : Handle} (hw : t.Withdraws b h t₁)
    (hb : h ∈ t.handlesIn b) (hle : (t'.handlesIn b).length ≤ (t₁.handlesIn b).length) :
    t₁.underflowed = true ∨ t₁.Overdraws t' ↔ t.underflowed = true ∨ t.Overdraws t' := by
  have hpos := List.length_pos_of_mem hb
  have hlen : (t₁.handlesIn b).length = (t.handlesIn b).length - 1 := by
    rw [hw.inside, List.length_erase_of_mem hb]
  by_cases hzero : t.lengthIn b = 0
  · refine iff_of_true (Or.inl ?_) (Or.inr ⟨b, by omega⟩)
    rw [hw.underflowed, hzero]
    exact Bool.or_true _
  · rw [hw.underflowed, beq_eq_false_iff_ne.mpr hzero, Bool.or_false]
    refine or_congr_right (exists_congr fun i => ?_)
    have hlengths := hw.lengths hzero i
    by_cases hib : i = b
    · subst hib
      rw [if_pos rfl] at hlengths
      omega
    · rw [if_neg hib] at hlengths
      rw [hlengths, hw.outside i hib]

/-- **Taking out handles of buckets**, one after another. -/
theorem Wired.withdraw_spec (gone : List Handle) :
    ∀ {t : Table ρ}, t.Wired → gone.Nodup → (∀ h ∈ gone, ∃ b, h ∈ t.handlesIn b) →
      ∃ t', withdraw gone t = .ok t' ∧ t.Relieves gone t' := by
  induction gone with
  | nil =>
      intro t _ _ _
      refine ⟨t, rfl, .refl t, rfl, fun b => ?_, fun h => ?_, rfl, ?_⟩
      · exact (List.filter_eq_self.mpr fun h _ => decide_eq_true List.not_mem_nil).symm
      · rw [if_neg List.not_mem_nil]
      · rw [or_iff_left]
        rintro ⟨b, hlt⟩
        omega
  | cons h gone ih =>
      intro t ht hnd hin
      obtain ⟨hh, hnd⟩ := List.nodup_cons.mp hnd
      obtain ⟨b, hb⟩ := hin h List.mem_cons_self
      obtain ⟨t₁, r, -, hremove, hw⟩ := ht.removeHandle_spec hb
      have hlists := ht.handlesIn_of_withdraws hb hw
      -- the other handles are still in buckets
      have hin₁ : ∀ k ∈ gone, ∃ i, k ∈ t₁.handlesIn i := fun k hk => by
        obtain ⟨i, hi⟩ := hin k (List.mem_cons_of_mem h hk)
        have hkh : k ≠ h := fun he => hh (he ▸ hk)
        refine ⟨i, ?_⟩
        rw [hlists]
        exact List.mem_filter.mpr ⟨hi, decide_eq_true hkh⟩
      obtain ⟨t', hrest, hr⟩ := ih (ht.of_removeHandle hremove) hnd hin₁
      refine ⟨t', ?_, hw.growth.trans hr.growth, hr.epoch.trans hw.epoch, fun i => ?_,
        fun k => ?_, ?_, ?_⟩
      · rw [withdraw, hremove]
        exact hrest
      · rw [hr.handlesIn, hlists, without, List.filter_filter]
        exact List.filter_congr fun k _ => by simp [Bool.and_comm]
      · rw [hr.get, hw.get]
        simp only [List.mem_cons]
        by_cases hkh : k = h
        · simp [hkh]
        · simp [hkh]
      · rw [List.length_cons, ← hw.size, ← hr.size]
        omega
      · refine hr.underflowed.trans (hw.overdraws hb ?_)
        rw [hr.handlesIn]
        exact List.length_filter_le ..

end Effects

end Table

end ResourceIndex
