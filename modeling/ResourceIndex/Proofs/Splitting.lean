import Mathlib.Data.List.TakeWhile
import ResourceIndex.Proofs.Expansion
import ResourceIndex.Proofs.Layout

set_option autoImplicit false

/-! # What a split does to the lists

A split empties the list of the bucket at the cursor, adds an empty list, and hands the handles it
has taken out to the lists their identifiers belong in, each at the end and in the order they
came in. It stops at the first handle whose identifier cannot be hashed, so what a list receives
is given by `arrivals`: the handles before that one, if there is one, that belong there.

`relink_spec` is the loop, `split_spec` the split and `growIfOverfull_spec` all the growth that
comes before a resource is added. No assumption is made on where the handles were before, so a
handle may well go to a bucket that is neither the one split nor the new one.
-/

namespace ResourceIndex

namespace Table

variable {ρ ι : Type} [Resource ρ ι] [Identifier ι]

/-! ## Where handles belong -/

/-- The bucket that the identifier under a handle belongs in by the geometry `g`. -/
def owner (g : Geometry) (s : Slots (Entry ρ)) (h : Handle) : Option Nat :=
  (s.resource? h).bind fun r => (Identifier.hash? (Resource.id r)).map g.route

theorem owner_congr (g : Geometry) {s s' : Slots (Entry ρ)} (hr : s.Rewired s') (h : Handle) :
    owner g s' h = owner g s h := by
  unfold owner
  rw [hr.resource]

/-- Two geometries that span the same buckets agree on where a handle belongs. -/
theorem owner_spans {g g' : Geometry} {k k' n : Nat} (hg : g.Spans k n) (hg' : g'.Spans k' n)
    (s : Slots (Entry ρ)) (h : Handle) : owner g s h = owner g' s h := by
  have hroute : g.route = g'.route := funext (hg.route_congr hg')
  unfold owner
  rw [hroute]

/-- When the cursor moves on, a handle of the bucket at the cursor belongs there or in the new
bucket, and any other handle belongs where it did. -/
theorem owner_advance {g : Geometry} {k n : Nat} (hg : g.Spans k n) (hlt : g.nextSplit < 2 ^ k)
    (s : Slots (Entry ρ)) (h : Handle) :
    (owner g s h ≠ some g.nextSplit ∧ owner g s h ≠ some n
      ∧ owner g.advance s h = owner g s h)
    ∨ (owner g s h = some g.nextSplit
      ∧ (owner g.advance s h = some g.nextSplit ∨ owner g.advance s h = some n)) := by
  unfold owner
  cases s.resource? h with
  | none => exact Or.inl ⟨nofun, nofun, rfl⟩
  | some r =>
      cases hh : Identifier.hash? (Resource.id r) with
      | none => simp [hh]
      | some hash =>
          have hbound := hg.route_lt hash
          have hne : g.route hash ≠ n := by omega
          simpa [hh, hne] using hg.route_advance hlt hash

/-- A bucket other than the new one and the one at the cursor has the same handles belong in it
before and after the cursor moves on. -/
theorem owner_advance_eq_iff {g : Geometry} {k n : Nat} (hg : g.Spans k n)
    (hlt : g.nextSplit < 2 ^ k) (s : Slots (Entry ρ)) (h : Handle) {i : Nat}
    (hi : i ≠ g.nextSplit) (hin : i ≠ n) :
    owner g.advance s h = some i ↔ owner g s h = some i := by
  rcases owner_advance hg hlt s h with ⟨-, -, heq⟩ | ⟨heq, hadv⟩
  · rw [heq]
  · -- the handle is of the bucket at the cursor, and `i` is neither bucket it may go to
    rw [heq]
    constructor
    · intro hs
      rcases hadv with hadv | hadv
      · exact absurd (Option.some.inj (hs.symm.trans hadv)) hi
      · exact absurd (Option.some.inj (hs.symm.trans hadv)) hin
    · intro hs
      exact absurd (Option.some.inj hs).symm hi

/-- The handles of `l` that are handed to the bucket `i`. -/
def arrivals (g : Geometry) (s : Slots (Entry ρ)) (l : List Handle) (i : Nat) : List Handle :=
  (l.takeWhile fun h => (owner g s h).isSome).filter fun h => owner g s h = some i

section Arrivals

variable (g : Geometry) (s : Slots (Entry ρ)) (l : List Handle)

theorem arrivals_cons_none {h : Handle} (hn : owner g s h = none) (i : Nat) :
    arrivals g s (h :: l) i = [] := by
  simp [arrivals, hn]

theorem arrivals_cons_some {h : Handle} {b : Nat} (hb : owner g s h = some b) (i : Nat) :
    arrivals g s (h :: l) i = if i = b then h :: arrivals g s l i else arrivals g s l i := by
  by_cases hi : i = b
  · simp [arrivals, hb, hi]
  · simp [arrivals, hb, hi, Ne.symm hi]

/-- If every identifier can be hashed, every handle is handed on. -/
theorem arrivals_of_isSome (hall : ∀ h ∈ l, (owner g s h).isSome) (i : Nat) :
    arrivals g s l i = l.filter fun h => owner g s h = some i := by
  unfold arrivals
  rw [List.takeWhile_eq_self_iff.mpr hall]

end Arrivals

/-! ## The loop -/

/-- Handing one handle on before the others. -/
theorem append_arrivals {g : Geometry} {s : Slots (Entry ρ)} {h : Handle} {b : Nat}
    (hb : owner g s h = some b) (lists : Nat → List Handle) (l : List Handle) (i : Nat) :
    Function.update lists b (lists b ++ [h]) i ++ arrivals g s l i =
      lists i ++ arrivals g s (h :: l) i := by
  rw [arrivals_cons_some g s l hb]
  by_cases hi : i = b
  · subst hi
    rw [Function.update_self, if_pos rfl, List.append_assoc]
    rfl
  · rw [Function.update_of_ne hi, if_neg hi]

/-- A handle that is in no list is in none after another one has been appended to one. -/
theorem not_mem_update_append {lists : Nat → List Handle} {h k : Handle} (hkh : k ≠ h)
    (hk : ∀ j, k ∉ lists j) (b j : Nat) : k ∉ Function.update lists b (lists b ++ [h]) j := by
  by_cases hjb : j = b
  · subst hjb
    rw [Function.update_self, List.mem_append]
    rintro (hkj | hkj)
    · exact hk j hkj
    · exact hkh (List.mem_singleton.mp hkj)
  · rw [Function.update_of_ne hjb]
    exact hk j

theorem relink_of_empty {c : Chain} (hc : c.head = none) (count : Nat) (t : Table ρ) :
    relink count c t = .ok (t, .ok ()) := by
  cases count with
  | zero =>
      rw [relink, hc]
      rfl
  | succ count =>
      rw [relink, Chain.popFront, hc]
      rfl

/-- **The loop of a split.** The handles of a detached chain go to the lists they belong in, up to
the first whose identifier cannot be hashed. -/
theorem relink_spec (l : List Handle) :
    ∀ {c : Chain} {t : Table ρ} {lists : Nat → List Handle} {count : Nat}, l.length ≤ count →
      t.Holds lists → c.Holds t.slots l → (∀ h ∈ l, ∀ j, h ∉ lists j) →
      (∀ hash, t.geometry.route hash < t.buckets.size) →
      ∃ t' answer, relink count c t = .ok (t', answer)
        ∧ t'.Holds (fun i => lists i ++ arrivals t.geometry t.slots l i)
        ∧ t.slots.Rewired t'.slots
        ∧ (answer = .ok () ↔ ∀ h ∈ l, (owner t.geometry t.slots h).isSome) := by
  -- by induction on the handles still to be handed on, none of which is in a list of the table
  induction l with
  | nil =>
      intro c t lists count _ ht hc _ _
      refine ⟨t, .ok (), relink_of_empty hc.head count t, ?_, .refl _,
        iff_of_true rfl (List.forall_mem_nil _)⟩
      simpa [arrivals] using ht
  | cons h l ih =>
      intro c t lists count hcount ht hc hn hroute
      obtain ⟨count, rfl⟩ := Nat.exists_eq_add_one.mpr (Nat.lt_of_lt_of_le l.length.succ_pos hcount)
      obtain ⟨c', s, hpop, hc', hr, hlinks, hhome⟩ := Chain.popFront_spec hc
      obtain ⟨hhl, -⟩ := List.nodup_cons.mp hc.nodup
      have hlive : (s.get? h).isSome := by
        rw [hr.isSome]
        exact hc.isSome_of_mem List.mem_cons_self
      obtain ⟨e, he⟩ := Option.isSome_iff_exists.mp hlive
      have hres : t.slots.resource? h = some e.resource := by
        rw [← hr.resource, Slots.resource?, he]
        rfl
      -- the handle has been taken out of the detached chain, and no list has changed
      have hsame : Holds { t with slots := s } lists := ht.restore fun j k hk =>
        ⟨hlinks k fun hkl => hn k hkl j hk, hhome k⟩
      have ht₁ : Holds { t with
          slots := s, underflowed := t.underflowed || c.length == 0 } lists :=
        ⟨hsame.chain, hsame.beyond, hsame.home, ht.not_underflowed hc List.mem_cons_self⟩
      have haddr : address? { t with
          slots := s, underflowed := t.underflowed || c.length == 0 } (Resource.id e.resource) =
          owner t.geometry t.slots h := by
        rw [owner, hres]
        rfl
      rw [relink, hpop, Checked.ok_bind]
      dsimp only
      rw [Slots.require_eq he, Checked.ok_bind, haddr]
      cases hown : owner t.geometry t.slots h with
      | none =>
          -- the loop ends here, with nothing handed on from this handle onwards
          refine ⟨_, _, rfl, ?_, hr, ?_⟩
          · have hnone : (fun i => lists i ++ arrivals t.geometry t.slots (h :: l) i) = lists := by
              funext i
              rw [arrivals_cons_none _ _ _ hown, List.append_nil]
            rw [hnone]
            exact ht₁
          · refine iff_of_false (fun he => by cases he) fun hall => ?_
            have hsome := hall h List.mem_cons_self
            rw [hown] at hsome
            cases hsome
      | some b =>
          obtain ⟨hash, -, hb⟩ := Option.map_eq_some_iff.mp (haddr.trans hown)
          obtain ⟨t₂, hlink, ht₂, hr₂, hlinks₂⟩ :=
            link_spec ht₁ (hb ▸ hroute hash) hlive (hn h List.mem_cons_self)
          have hgrowth := link_sameGrowth hlink
          have hrew : t.slots.Rewired t₂.slots := hr.trans hr₂
          have hgeo : t₂.geometry = t.geometry := hgrowth.geometry
          have hne : ∀ k ∈ l, k ≠ h := fun k hk hkh => hhl (hkh ▸ hk)
          have hrest : ∀ k ∈ l, ∀ j, k ∉ lists j := fun k hk => hn k (List.mem_cons_of_mem h hk)
          have hc₂ : c'.Holds t₂.slots l := hc'.congr fun k hk =>
            hlinks₂ k (hne k hk) (hrest k hk)
          have hn₂ : ∀ k ∈ l, ∀ j, k ∉ Function.update lists b (lists b ++ [h]) j :=
            fun k hk => not_mem_update_append (hne k hk) (hrest k hk) b
          -- the rest of the loop finds the same owners, since linking only rewires the store
          obtain ⟨t', answer, hloop, ht', hr', hans⟩ := ih (Nat.le_of_succ_le_succ hcount) ht₂ hc₂
            hn₂ fun hash => by
              rw [hgeo, hgrowth.buckets]
              exact hroute hash
          have hsame : ∀ k, owner t₂.geometry t₂.slots k = owner t.geometry t.slots k :=
            fun k => by rw [hgeo, owner_congr _ hrew]
          refine ⟨t', answer, ?_, ?_, hrew.trans hr', ?_⟩
          · dsimp only
            rw [hlink]
            exact hloop
          · have hlists : (fun i => Function.update lists b (lists b ++ [h]) i
                ++ arrivals t₂.geometry t₂.slots l i) =
                fun i => lists i ++ arrivals t.geometry t.slots (h :: l) i := by
              funext i
              rw [← append_arrivals hown]
              simp only [arrivals, hsame]
            rw [← hlists]
            exact ht'
          · rw [hans, List.forall_mem_cons, hown]
            simp only [hsame, Option.isSome_some, true_and]

/-! ## The split -/

/-- The lists after the bucket at the cursor of `g` has been split. -/
def listsAfterSplit (g : Geometry) (s : Slots (Entry ρ)) (lists : Nat → List Handle) (i : Nat) :
    List Handle :=
  Function.update lists g.nextSplit [] i ++ arrivals g.advance s (lists g.nextSplit) i

/-- A new empty bucket. -/
theorem Holds.push {t : Table ρ} {lists : Nat → List Handle} (ht : t.Holds lists)
    (g : Geometry) :
    Holds { t with buckets := t.buckets.push Chain.empty, geometry := g } lists := by
  refine ⟨fun i c hc => ?_, fun i hi => ht.beyond i ?_, ht.home, ht.underflowed⟩
  · rw [Array.getElem?_push] at hc
    split at hc
    · rename_i hi
      cases hc
      rw [ht.beyond i (Nat.le_of_eq hi.symm)]
      exact Chain.holds_empty _
    · exact ht.chain i c hc
  · rw [Array.size_push] at hi
    omega

/-- **A split** hands the list of the bucket at the cursor out again. -/
theorem split_spec {t : Table ρ} {lists : Nat → List Handle} (ht : t.Holds lists)
    {g : Geometry} {j : Nat} (hg : g.Spans j t.buckets.size) (hlt : g.nextSplit < 2 ^ j) :
    ∃ o, t.split g = .ok o ∧ o.state.Holds (listsAfterSplit g t.slots lists)
      ∧ t.slots.Rewired o.state.slots
      ∧ (o.answer = .ok () ↔
          ∀ h ∈ lists g.nextSplit, (owner g.advance t.slots h).isSome) := by
  obtain ⟨c, hc, hcl⟩ := ht.chain_eq hg.cursor_lt
  have hempty : ∀ k ∈ ([] : List Handle), t.slots.home k = some g.nextSplit := nofun
  -- the loop starts from the table whose bucket at the cursor has been emptied
  have ht₁ := (ht.replace hg.cursor_lt (Chain.holds_empty t.slots) hempty
    fun _ _ _ _ => ⟨rfl, rfl⟩).push g.advance
  have hn : ∀ h ∈ lists g.nextSplit, ∀ i, h ∉ Function.update lists g.nextSplit [] i := by
    intro h hm i hi
    by_cases his : i = g.nextSplit
    · subst his
      rw [Function.update_self] at hi
      cases hi
    · rw [Function.update_of_ne his] at hi
      exact his (ht.eq_of_mem hi hm)
  have hroute : ∀ hash, g.advance.route hash
      < ((t.buckets.setIfInBounds g.nextSplit Chain.empty).push Chain.empty).size := by
    intro hash
    rw [Array.size_push, Array.size_setIfInBounds]
    exact (hg.advance hlt).route_lt hash
  obtain ⟨t', answer, hrelink, ht', hr, hans⟩ := relink_spec _ hcl.length_le_live ht₁ hcl hn hroute
  unfold split
  rw [hc, Checked.ok_bind]
  dsimp only [Chain.take]
  rw [hrelink, Checked.ok_bind]
  cases answer with
  | error fault => exact ⟨_, rfl, ht', hr, iff_of_false nofun fun h => nomatch hans.mpr h⟩
  | ok u =>
      exact ⟨_, rfl, ⟨ht'.chain, ht'.beyond, ht'.home, ht'.underflowed⟩, hr,
        iff_of_true rfl (hans.mp rfl)⟩

/-! ## Growing -/

theorem Holds.provisioned {t : Table ρ} {lists : Nat → List Handle} (ht : t.Holds lists)
    (g : Geometry) : (t.provisioned g).Holds lists := by
  unfold Table.provisioned
  split
  · exact ht
  · exact ⟨ht.chain, ht.beyond, ht.home, ht.underflowed⟩

/-- Growing does not get stuck: at a level there are always numbers for the buckets asked for. -/
theorem growIfOverfull_of_split {t : Table ρ} {k : Nat}
    (hk : t.AtLevel (Identifier.widths ι) k) (granted : Bool) {o : Outcome (Table ρ) Unit}
    (hs : (t.provisioned t.geometry.forSplit).split t.geometry.forSplit = .ok o) :
    ∃ o', t.growIfOverfull granted = .ok o'
      ∧ (o'.state = t ∧ o'.answer = .ok () ∨ o'.state = o.state ∧ o'.answer = o.answer) := by
  unfold growIfOverfull
  by_cases hover : t.overfull = true
  · rw [if_pos hover]
    unfold grow
    dsimp only
    by_cases hmost : (Identifier.widths ι).mostBuckets ≤ t.buckets.size
    · rw [if_pos hmost]
      exact ⟨_, rfl, Or.inl ⟨rfl, rfl⟩⟩
    · obtain ⟨hlt, hcap⟩ := hk.target_bounds (Nat.lt_of_not_le hmost)
      rw [if_neg hmost, Nat.pow_eq, if_neg (by omega)]
      unfold provisioned at hs
      by_cases hspace : t.geometry.forSplit.target ≤ t.reserved
      · rw [if_pos hspace] at hs ⊢
        exact ⟨o, hs, Or.inr ⟨rfl, rfl⟩⟩
      · rw [if_neg hspace] at hs ⊢
        cases granted with
        | false => exact ⟨_, rfl, Or.inl ⟨rfl, rfl⟩⟩
        | true =>
            rw [if_pos rfl, hs]
            exact ⟨_, rfl, Or.inr ⟨rfl, rfl⟩⟩
  · rw [if_neg hover]
    exact ⟨_, rfl, Or.inl ⟨rfl, rfl⟩⟩

/-- **Growing** leaves the table alone or splits one bucket. -/
theorem growIfOverfull_spec {t : Table ρ} {lists : Nat → List Handle} (ht : t.Holds lists)
    {k : Nat} (hk : t.AtLevel (Identifier.widths ι) k) (granted : Bool) :
    ∃ o, t.growIfOverfull granted = .ok o
      ∧ (o.state = t ∧ o.answer = .ok ()
        ∨ ∃ g j, g.Spans j t.buckets.size ∧ g.nextSplit < 2 ^ j
          ∧ o.state.geometry = g.advance ∧ o.state.buckets.size = t.buckets.size + 1
          ∧ o.state.Holds (listsAfterSplit g t.slots lists) ∧ t.slots.Rewired o.state.slots
          ∧ (o.answer = .ok () ↔
              ∀ h ∈ lists g.nextSplit, (owner g.advance t.slots h).isSome)) := by
  obtain ⟨j, hj, hlt, -⟩ := hk.spans.forSplit
  have htp := ht.provisioned t.geometry.forSplit
  obtain ⟨o, hsplit, ho, hr, hans⟩ :=
    split_spec htp (by rw [provisioned_buckets]; exact hj) hlt
  obtain ⟨hsize, hgeo, -⟩ := split_cases hsplit
  rw [provisioned_slots] at ho hr hans
  rw [provisioned_buckets] at hsize
  obtain ⟨o', hgrow, hcase⟩ := growIfOverfull_of_split hk granted hsplit
  refine ⟨o', hgrow, hcase.imp id ?_⟩
  rintro ⟨hst, han⟩
  rw [hst, han]
  exact ⟨_, j, hj, hlt, hgeo, hsize, ho, hr, hans⟩

end Table

end ResourceIndex
