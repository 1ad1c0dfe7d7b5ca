import ResourceIndex.Proofs.Splitting
import ResourceIndex.Proofs.Ledger

set_option autoImplicit false

/-! # Tables that agree with a ledger

A table agrees with a ledger when it names the same resources by the same handles and each of
them is in one of its lists (`Agrees`). This module has what keeps them in agreement: a resource
installed, taken out or changed on both sides, and a split, which is nothing to the ledger.

Where in the lists the handles are is a matter of its own. As long as no identifier is changed in
place, the list of a bucket has exactly the handles that belong there, in the order they were
issued. Once one has been changed, its handle may be in any list, and remains so until a split
moves it to any other. The proposition `kept` says whether the first is to be shown, so that one
development of the invariant serves both.
-/

namespace ResourceIndex

namespace Table

variable {σ ρ ι : Type} [Resource ρ ι] [Identifier ι]

/-- The bucket that the resource under a handle belongs in, by its identifier as it now is. -/
def owner? (t : Table ρ) (h : Handle) : Option Nat := owner t.geometry t.slots h

theorem SameGrowth.owner? {t t' : Table ρ} (hs : SameGrowth t t') {h : Handle}
    (hg : t'.get? h = t.get? h) : t'.owner? h = t.owner? h := by
  show (t'.get? h).bind _ = (t.get? h).bind _
  rw [hg, hs.geometry]

/-- The table `t`, with the lists `lists`, agrees with the ledger `m`. If the identifiers have been
`kept` as they were, every handle is in the list it belongs in, and the lists are in order. -/
structure Agrees (kept : Prop) (m : Ledger ρ) (t : Table ρ) (lists : Nat → List Handle) :
    Prop where
  holds : t.Holds lists
  level : ∃ k, t.AtLevel (Identifier.widths ι) k
  get : ∀ h, t.get? h = m.get? h
  size : t.size = m.handles.length
  ordered : m.Ordered
  fresh : ∀ h ∈ m.issued, h.index < t.slots.fresh.index
  placed : ∀ h ∈ m.handles, ∃ i, h ∈ lists i
  hashable : ∀ h r, m.get? h = some r → (Identifier.hash? (Resource.id r)).isSome
  arranged : kept → ∀ i, lists i = m.handles.filter fun h => t.owner? h = some i

/-- A table without resources agrees with the blank ledger. -/
theorem agrees_of_empty (kept : Prop) {t : Table ρ} {k n : Nat}
    (hk : t.AtLevel (Identifier.widths ι) k) (hb : t.buckets = Array.replicate n Chain.empty)
    (hs : t.slots = Slots.empty) (hu : t.underflowed = false) :
    Agrees kept {} t fun _ => [] where
  holds := holds_replicate hb hu
  level := ⟨k, hk⟩
  get h := by
    rw [get?, hs, Slots.get?_empty]
    rfl
  size := by
    rw [size, hs]
    rfl
  ordered := ⟨List.nodup_nil, List.Sublist.refl _⟩
  fresh := nofun
  placed := nofun
  hashable := nofun
  arranged _ _ := rfl

namespace Agrees

variable {kept : Prop} {m : Ledger ρ} {t t' : Table ρ} {lists : Nat → List Handle}

theorem isSome_get? (ha : Agrees kept m t lists) (h : Handle) :
    (t.get? h).isSome ↔ h ∈ m.handles := by
  rw [ha.get]
  exact m.isSome_get? h

theorem mem_handles (ha : Agrees kept m t lists) {i : Nat} {h : Handle} (hm : h ∈ lists i) :
    h ∈ m.handles := by
  rw [← ha.isSome_get?]
  exact (Slots.isSome_resource? t.slots h).trans (ha.holds.isSome_of_mem hm)

theorem exists_get? (ha : Agrees kept m t lists) {h : Handle} (hm : h ∈ m.handles) :
    ∃ r, t.get? h = some r ∧ (Identifier.hash? (Resource.id r)).isSome := by
  obtain ⟨r, hr⟩ := Option.isSome_iff_exists.mp ((ha.isSome_get? h).mpr hm)
  exact ⟨r, hr, ha.hashable h r ((ha.get h).symm.trans hr)⟩

theorem fresh_not_mem (ha : Agrees kept m t lists) : t.slots.fresh ∉ m.issued := fun hm =>
  Nat.lt_irrefl _ (ha.fresh _ hm)

theorem get?_fresh (ha : Agrees kept m t lists) : m.get? t.slots.fresh = none :=
  ha.ordered.get?_of_not_mem ha.fresh_not_mem

theorem ne_fresh (ha : Agrees kept m t lists) {h : Handle} (hm : h ∈ m.handles) :
    h ≠ t.slots.fresh := fun he =>
  ha.fresh_not_mem (he ▸ ha.ordered.sublist.subset hm)

/-- The lists together are the handles of the ledger. -/
theorem flatMap_perm (ha : Agrees kept m t lists) :
    ((List.range t.buckets.size).flatMap lists).Perm m.handles := by
  -- neither list has a handle twice, so that it is enough that they have the same ones
  apply (List.perm_ext_iff_of_nodup ha.holds.nodup_flatMap ha.ordered.handles_nodup).mpr
  intro h
  rw [ha.holds.mem_flatMap]
  constructor
  · rintro ⟨i, hi⟩
    exact ha.mem_handles hi
  · exact ha.placed h

/-! ## One resource more, one less, one changed -/

/-- Installing a resource in the bucket it belongs in. -/
theorem install (ha : Agrees kept m t lists) {r : ρ} {b : Nat}
    (hb : t.address? (Resource.id r) = some b) (hi : t.Installs lists b r t') :
    Agrees kept (m.add t.slots.fresh r) t'
      (Function.update lists b (lists b ++ [t.slots.fresh])) where
  holds := hi.holds
  level := ha.level.imp fun _ hk => hi.growth.atLevel hk
  get k := by rw [hi.get, Ledger.get?_add m ha.get?_fresh, ha.get]
  size := by
    rw [hi.size, ha.size, Ledger.handles_add, List.length_append]
    rfl
  ordered := ha.ordered.add ha.fresh_not_mem r
  fresh k hk := by
    rw [hi.fresh]
    rcases List.mem_append.mp hk with hk | hk
    · exact Nat.lt_succ_of_lt (ha.fresh k hk)
    · rw [List.mem_singleton.mp hk]
      exact Nat.lt_succ_self _
  placed k hk := by
    rw [Ledger.handles_add, List.mem_append] at hk
    rcases hk with hk | hk
    · obtain ⟨i, hki⟩ := ha.placed k hk
      refine ⟨i, ?_⟩
      by_cases hib : i = b
      · subst hib
        rw [Function.update_self]
        exact List.mem_append_left _ hki
      · rw [Function.update_of_ne hib]
        exact hki
    · refine ⟨b, ?_⟩
      rw [Function.update_self]
      exact List.mem_append_right _ hk
  hashable k r' hk := by
    rw [Ledger.get?_add m ha.get?_fresh] at hk
    split at hk
    · cases hk
      have hsome : ((Identifier.hash? (Resource.id r)).map t.geometry.route).isSome := by
        rw [show (Identifier.hash? (Resource.id r)).map t.geometry.route = some b from hb]
        rfl
      simpa using hsome
    · exact ha.hashable k r' hk
  arranged hk i := by
    have hold : ∀ k ∈ m.handles, t'.owner? k = t.owner? k := fun k hm =>
      hi.growth.owner? (by rw [hi.get, if_neg (ha.ne_fresh hm)])
    have hnew : t'.owner? t.slots.fresh = some b := by
      show (t'.get? t.slots.fresh).bind _ = _
      rw [hi.get, if_pos rfl, hi.growth.geometry]
      exact hb
    have hfilter : (m.handles.filter fun k => t'.owner? k = some i) = lists i := by
      rw [ha.arranged hk i]
      exact List.filter_congr fun k hm => by rw [hold k hm]
    rw [Ledger.handles_add, List.filter_append, hfilter]
    by_cases hib : i = b
    · subst hib
      rw [Function.update_self]
      simp [hnew]
    · rw [Function.update_of_ne hib]
      simp [hnew, Ne.symm hib]

/-- Taking out a resource, wherever it is. -/
theorem erase (ha : Agrees kept m t lists) {h : Handle} (hm : h ∈ m.handles)
    (hu : t.Unlinks lists h t') : Agrees kept (m.erase h) t' (without lists h) where
  holds := hu.holds
  level := ha.level.imp fun _ hk => hu.growth.atLevel hk
  get k := by rw [hu.get, Ledger.get?_erase, ha.get]
  size := by
    have hlen := List.length_erase_add_one hm
    have hsize := hu.size
    rw [ha.ordered.handles_nodup.erase_eq_filter] at hlen
    have heq : (m.erase h).handles = m.handles.filter (· != h) := by
      rw [Ledger.handles_erase]
      exact List.filter_congr fun k _ => by simp [bne, beq_eq_decide]
    rw [heq]
    have := ha.size
    omega
  ordered := ha.ordered.edits (P := fun _ _ => True) (.erase h (.refl m))
  fresh k hk := by
    rw [hu.fresh]
    exact ha.fresh k hk
  placed k hk := by
    rw [Ledger.handles_erase] at hk
    obtain ⟨hk, hkh⟩ := List.mem_filter.mp hk
    obtain ⟨i, hki⟩ := ha.placed k hk
    exact ⟨i, List.mem_filter.mpr ⟨hki, hkh⟩⟩
  hashable k r hk := by
    rw [Ledger.get?_erase] at hk
    split at hk
    · cases hk
    · exact ha.hashable k r hk
  arranged hk i := by
    have hold : ∀ k, k ≠ h → t'.owner? k = t.owner? k := fun k hkh =>
      hu.growth.owner? (by rw [hu.get, if_neg hkh])
    unfold without
    rw [ha.arranged hk i, Ledger.handles_erase, List.filter_filter, List.filter_filter]
    apply List.filter_congr
    intro k _
    by_cases hkh : k = h
    · simp [hkh]
    · simp [hkh, hold k hkh]

/-- Changing a resource in place. -/
theorem change (ha : Agrees kept m t lists) (h : Handle) (f : ρ → ρ)
    (hhash : ∀ r, m.get? h = some r → (Identifier.hash? (Resource.id r)).isSome →
      (Identifier.hash? (Resource.id (f r))).isSome)
    (hid : kept → ∀ r, m.get? h = some r → Resource.id (f r) = Resource.id r) :
    Agrees kept (m.change h f) (t.modifyHandle h f) lists where
  holds := ha.holds.modifyHandle h f
  level := ha.level.imp fun _ hk => (modifyHandle_sameGrowth t h f).atLevel hk
  get k := by rw [get?_modifyHandle, Ledger.get?_change, ha.get]
  size := by
    rw [Ledger.handles_change]
    exact ha.size
  ordered := ha.ordered.edits (P := fun _ _ => True) (.change h f (fun _ _ => trivial) (.refl m))
  fresh k hk := by
    show k.index < (t.slots.modify h _).fresh.index
    rw [Slots.fresh_modify]
    exact ha.fresh k hk
  placed k hk := by
    rw [Ledger.handles_change] at hk
    exact ha.placed k hk
  hashable k r hk := by
    rw [Ledger.get?_change] at hk
    split at hk
    · rename_i hkh
      obtain ⟨r', hr', rfl⟩ := Option.map_eq_some_iff.mp hk
      exact hhash r' (hkh ▸ hr') (ha.hashable k r' hr')
    · exact ha.hashable k r hk
  arranged hk i := by
    have hold : ∀ k, (t.modifyHandle h f).owner? k = t.owner? k := by
      intro k
      show ((t.modifyHandle h f).get? k).bind _ = (t.get? k).bind _
      rw [get?_modifyHandle]
      split
      · rename_i hkh
        cases hr : t.get? k with
        | none => rfl
        | some r =>
            have hmr : m.get? h = some r := by rw [← hkh, ← ha.get, hr]
            show (Identifier.hash? (Resource.id (f r))).map _ = _
            rw [hid hk r hmr]
            rfl
      · rfl
    rw [Ledger.handles_change, ha.arranged hk i]
    exact List.filter_congr fun k _ => by rw [hold k]

/-! ## Growing -/

/-- Every handle has a bucket it belongs in. -/
theorem owner_isSome (ha : Agrees kept m t lists) (g : Geometry) {h : Handle}
    (hm : h ∈ m.handles) : (owner g t.slots h).isSome := by
  obtain ⟨r, hr, hh⟩ := ha.exists_get? hm
  show ((t.get? h).bind fun r => (Identifier.hash? (Resource.id r)).map g.route).isSome
  rw [hr]
  simpa using hh

/-- After the cursor has moved on, the lists are those of the handles that now belong there. -/
theorem arranged_split (ha : Agrees kept m t lists) (hk : kept) {g : Geometry} {j : Nat}
    (hg : g.Spans j t.buckets.size) (hlt : g.nextSplit < 2 ^ j) (i : Nat) :
    listsAfterSplit g t.slots lists i =
      m.handles.filter fun h => owner g.advance t.slots h = some i := by
  obtain ⟨k, hlevel⟩ := ha.level
  -- as the table routes before the split, so does the geometry of the split
  have harr : ∀ b, lists b = m.handles.filter fun h => owner g t.slots h = some b := by
    intro b
    rw [ha.arranged hk b]
    apply List.filter_congr
    intro h _
    rw [owner?, owner_spans hlevel.spans hg]
  have hall : ∀ h ∈ lists g.nextSplit, (owner g.advance t.slots h).isSome := fun h hm =>
    ha.owner_isSome _ (ha.mem_handles hm)
  have hns : g.nextSplit < t.buckets.size := hg.cursor_lt
  unfold listsAfterSplit
  rw [arrivals_of_isSome _ _ _ hall, harr g.nextSplit, List.filter_filter]
  by_cases hi : i = g.nextSplit
  · subst hi
    rw [Function.update_self, List.nil_append]
    apply List.filter_congr
    intro h _
    rcases owner_advance hg hlt t.slots h with ⟨hne, -, heq⟩ | ⟨heq, -⟩
    · simp [hne, heq]
    · simp [heq]
  · rw [Function.update_of_ne hi]
    by_cases hn : i = t.buckets.size
    · subst hn
      rw [ha.holds.beyond _ (Nat.le_refl _), List.nil_append]
      apply List.filter_congr
      intro h _
      rcases owner_advance hg hlt t.slots h with ⟨-, hne, heq⟩ | ⟨heq, -⟩
      · simp [hne, heq]
      · simp [heq]
    · -- nothing arrives at any other bucket, and nothing leaves it
      have hkeep : ∀ h, owner g.advance t.slots h = some i ↔ owner g t.slots h = some i :=
        fun h => owner_advance_eq_iff hg hlt t.slots h hi hn
      have hnone : (m.handles.filter fun h => decide (owner g.advance t.slots h = some i)
          && decide (owner g t.slots h = some g.nextSplit)) = [] := by
        apply List.filter_eq_nil_iff.mpr
        intro h _
        rw [Bool.and_eq_true, decide_eq_true_iff, decide_eq_true_iff, hkeep h]
        rintro ⟨heq, heq'⟩
        exact hi (Option.some.inj (heq.symm.trans heq'))
      rw [hnone, List.append_nil, harr i]
      exact List.filter_congr fun h _ => by simp only [hkeep h]

/-- A split leaves every resource in a list. -/
theorem split (ha : Agrees kept m t lists) {g : Geometry} {j : Nat}
    (hg : g.Spans j t.buckets.size) (hlt : g.nextSplit < 2 ^ j)
    (hlevel : ∃ k, t'.AtLevel (Identifier.widths ι) k) (hgeo : t'.geometry = g.advance)
    (ht' : t'.Holds (listsAfterSplit g t.slots lists)) (hr : t.slots.Rewired t'.slots) :
    Agrees kept m t' (listsAfterSplit g t.slots lists) where
  holds := ht'
  level := hlevel
  get h := (hr.resource h).trans (ha.get h)
  size := hr.live.trans ha.size
  ordered := ha.ordered
  fresh h hm := by
    rw [hr.fresh]
    exact ha.fresh h hm
  placed h hm := by
    obtain ⟨i, hi⟩ := ha.placed h hm
    obtain ⟨b, hb⟩ := Option.isSome_iff_exists.mp (ha.owner_isSome g.advance hm)
    by_cases hin : i = g.nextSplit
    · subst hin
      refine ⟨b, List.mem_append_right _ ?_⟩
      rw [arrivals_of_isSome _ _ _ fun k hk => ha.owner_isSome _ (ha.mem_handles hk)]
      exact List.mem_filter.mpr ⟨hi, by simpa using hb⟩
    · refine ⟨i, List.mem_append_left _ ?_⟩
      rw [Function.update_of_ne hin]
      exact hi
  hashable := ha.hashable
  arranged hk i := by
    rw [ha.arranged_split hk hg hlt]
    apply List.filter_congr
    intro h _
    rw [owner?, hgeo, owner_congr _ hr]

/-- **Growing** succeeds and leaves the ledger as it is. -/
theorem grow (ha : Agrees kept m t lists) (granted : Bool) :
    ∃ o lists', t.growIfOverfull granted = .ok o ∧ o.answer = .ok ()
      ∧ Agrees kept m o.state lists' := by
  obtain ⟨k, hlevel⟩ := ha.level
  obtain ⟨o, hgrow, hcase⟩ := growIfOverfull_spec ha.holds hlevel granted
  rcases hcase with ⟨hst, han⟩ | ⟨g, j, hg, hlt, hgeo, hsize, ht', hr, hans⟩
  · refine ⟨o, lists, hgrow, han, ?_⟩
    rw [hst]
    exact ha
  · refine ⟨o, listsAfterSplit g t.slots lists, hgrow,
      hans.mpr fun h hm => ha.owner_isSome _ (ha.mem_handles hm), ?_⟩
    have hlevel' : ∃ k, o.state.AtLevel (Identifier.widths ι) k := by
      rcases hlevel.growIfOverfull hgrow with ⟨hst, -⟩ | ⟨hlevel', -⟩
      · rw [hst] at hsize
        omega
      · exact hlevel'
    exact ha.split hg hlt hlevel' hgeo ht' hr

end Agrees

end Table

end ResourceIndex
