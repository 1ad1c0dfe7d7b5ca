import ResourceIndex.Cursor
import ResourceIndex.Proofs.Loss

set_option autoImplicit false

/-! # Lost resources stay out of reach

The entries of lost resources are still in the store, with links that lead somewhere. What counts
is that nothing leads to them: a store is *sealed* off from a set of handles when the entries of
all other handles lead on to other handles (`Slots.Sealed`). When resources are lost the store is
sealed off from them, since what is in a bucket leads on to what is in the same bucket
(`Table.Accounted.isSealed`), and every request leaves it so (`Table.Accounted.perform_sealed`).

So a cursor that is not at one of these handles never comes to one (`Cursor.step_sealed`), even if
it is itself at a handle that has been lost later.
-/

namespace ResourceIndex

namespace Slots

variable {ρ : Type}

/-- An entry under a handle outside of `X` leads on to a handle outside of `X`, if it leads
anywhere. -/
def Sealed (X : List Handle) (s : Slots (Entry ρ)) : Prop :=
  ∀ k e, s.get? k = some e → k ∉ X → ∀ n, e.next = some n → n ∉ X

namespace Sealed

variable {X : List Handle} {s s' : Slots (Entry ρ)}

/-- A change of an entry that makes it lead nowhere else than outside of `X`. -/
theorem touch (hs : s.Sealed X) (link : Option Handle) (f : Entry ρ → Entry ρ)
    (hf : ∀ e n, (f e).next = some n → e.next = some n ∨ n ∉ X) : (s.touch link f).Sealed X := by
  intro k e he hk n hn
  rw [get?_touch] at he
  split at he
  · obtain ⟨e₀, he₀, rfl⟩ := Option.map_eq_some_iff.mp he
    exact (hf e₀ n hn).elim (hs k e₀ he₀ hk n) id
  · exact hs k e he hk n hn

theorem adjust (hs : s.Sealed X) {link : Option Handle} {f : Entry ρ → Entry ρ}
    (ha : s.adjust link f = .ok s')
    (hf : ∀ e n, (f e).next = some n → e.next = some n ∨ n ∉ X) : s'.Sealed X := by
  rw [eq_touch_of_adjust ha]
  exact hs.touch link f hf

theorem insert (hs : s.Sealed X) (r : ρ) :
    (s.insert ({ resource := r } : Entry ρ)).Sealed X := by
  intro k e he hk n hn
  rw [get?_insert] at he
  split at he
  · cases he
    cases hn
  · exact hs k e he hk n hn

theorem erase (hs : s.Sealed X) (h : Handle) : (s.erase h).Sealed X := by
  intro k e he hk n hn
  rw [get?_erase] at he
  split at he
  · cases he
  · exact hs k e he hk n hn

end Sealed

end Slots

/-! ## Chains -/

namespace Chain

variable {ρ : Type} {X : List Handle} {c c' : Chain} {s s' : Slots (Entry ρ)} {h : Handle}

theorem pushBack_sealed {bucket : Nat} (hp : c.pushBack s h bucket = .ok (c', s'))
    (hs : s.Sealed X) (hh : h ∉ X) : s'.Sealed X := by
  unfold pushBack at hp
  obtain ⟨s₁, h₁, hp⟩ := Checked.bind_eq_ok.mp hp
  obtain ⟨s₂, h₂, hp⟩ := Checked.bind_eq_ok.mp hp
  cases hp
  refine (hs.adjust h₁ fun e n hn => nomatch hn).adjust h₂ fun e n hn => Or.inr ?_
  obtain rfl : h = n := Option.some.inj hn
  exact hh

/-- What a chain begins with after a handle outside of `X` has been taken out. -/
theorem unlink_sealed (hu : c.unlink s h = .ok (c', s')) (hs : s.Sealed X) (hh : h ∉ X) :
    s'.Sealed X ∧ ((∀ k, c.head = some k → k ∉ X) → ∀ k, c'.head = some k → k ∉ X) := by
  unfold unlink at hu
  obtain ⟨e, he, hu⟩ := Checked.bind_eq_ok.mp hu
  dsimp only at hu
  obtain ⟨s₁, h₁, hu⟩ := Checked.bind_eq_ok.mp hu
  obtain ⟨s₂, h₂, hu⟩ := Checked.bind_eq_ok.mp hu
  have hget := Slots.require_eq_ok.mp he
  -- the entry before is made to lead on to the one after
  have hnext := hs h e hget hh
  have hdetached : (s.touch (some h) Entry.detached).Sealed X :=
    hs.touch (some h) Entry.detached fun _ _ hn => nomatch hn
  have hsealed : s₂.Sealed X :=
    (hdetached.adjust h₁ fun _ n hn => Or.inr (hnext n hn)).adjust h₂ fun _ _ hn => Or.inl hn
  cases hu
  refine ⟨hsealed, fun hhead k hk => ?_⟩
  dsimp only at hk
  split at hk
  · exact hnext k hk
  · exact hhead k hk

theorem popFront_sealed {popped : Option Handle} (hp : c.popFront s = .ok (popped, c', s'))
    (hs : s.Sealed X) (hhead : ∀ k, c.head = some k → k ∉ X) :
    s'.Sealed X ∧ (∀ k, c'.head = some k → k ∉ X) ∧ ∀ k, popped = some k → k ∉ X := by
  unfold popFront at hp
  cases hh : c.head with
  | none =>
      rw [hh] at hp
      cases hp
      exact ⟨hs, hhead, nofun⟩
  | some k =>
      rw [hh] at hp
      obtain ⟨⟨c₁, s₁⟩, hu, hp⟩ := Checked.bind_eq_ok.mp hp
      cases hp
      obtain ⟨hsealed, hrest⟩ := unlink_sealed hu hs (hhead k hh)
      refine ⟨hsealed, hrest hhead, fun j hj => ?_⟩
      rw [← Option.some.inj hj]
      exact hhead k hh

end Chain

namespace Table

variable {ρ ι : Type} {X : List Handle}

/-! ## Operations on a table -/

theorem unlink_isSealed {t t' : Table ρ} {bucket : Nat} {h : Handle} {r : ρ}
    (hu : t.unlink bucket h = .ok (t', r)) (hs : t.slots.Sealed X) (hh : h ∉ X) :
    t'.slots.Sealed X := by
  unfold unlink at hu
  obtain ⟨e, -, hu⟩ := Checked.bind_eq_ok.mp hu
  obtain ⟨c, -, hu⟩ := Checked.bind_eq_ok.mp hu
  obtain ⟨⟨c', s⟩, hun, hu⟩ := Checked.bind_eq_ok.mp hu
  cases hu
  exact (Chain.unlink_sealed hun hs hh).1.erase h

theorem link_isSealed {t t' : Table ρ} {bucket : Nat} {h : Handle}
    (hl : t.link bucket h = .ok t') (hs : t.slots.Sealed X) (hh : h ∉ X) :
    t'.slots.Sealed X := by
  unfold link at hl
  obtain ⟨c, -, hl⟩ := Checked.bind_eq_ok.mp hl
  obtain ⟨⟨c', s⟩, hp, hl⟩ := Checked.bind_eq_ok.mp hl
  cases hl
  exact Chain.pushBack_sealed hp hs hh

theorem modifyHandle_isSealed {t : Table ρ} (hs : t.slots.Sealed X) (h : Handle) (f : ρ → ρ) :
    (t.modifyHandle h f).slots.Sealed X :=
  hs.touch (some h) _ fun _ _ hn => Or.inl hn

variable [Resource ρ ι] [Identifier ι]

theorem install_isSealed {t t' : Table ρ} {bucket : Nat} {r : ρ} {h : Handle}
    (hi : t.install bucket r = .ok (t', h)) (hs : t.slots.Sealed X)
    (hfresh : t.slots.fresh ∉ X) : t'.slots.Sealed X := by
  unfold install at hi
  obtain ⟨t₁, hl, hi⟩ := Checked.bind_eq_ok.mp hi
  cases hi
  have hsealed := link_isSealed hl (hs.insert r) hfresh
  exact hsealed

theorem relink_isSealed (count : Nat) :
    ∀ {c : Chain} {t : Table ρ} {p : Table ρ × Except Fault Unit}, relink count c t = .ok p →
      t.slots.Sealed X → (∀ k, c.head = some k → k ∉ X) → p.1.slots.Sealed X := by
  induction count with
  | zero =>
      intro c t p hr hs _
      rw [relink] at hr
      split at hr
      · cases hr
      · cases hr
        exact hs
  | succ count ih =>
      intro c t p hr hs hhead
      rw [relink] at hr
      obtain ⟨⟨popped, c', s⟩, hpop, hr⟩ := Checked.bind_eq_ok.mp hr
      obtain ⟨hs', hhead', hpopped⟩ := Chain.popFront_sealed hpop hs hhead
      cases popped with
      | none => cases hr; exact hs
      | some h =>
          obtain ⟨e, -, hr⟩ := Checked.bind_eq_ok.mp hr
          split at hr
          · cases hr; exact hs'
          · obtain ⟨t', hl, hr⟩ := Checked.bind_eq_ok.mp hr
            exact ih hr (link_isSealed hl hs' (hpopped h rfl)) hhead'

theorem split_isSealed {t : Table ρ} {g : Geometry} {o : Outcome (Table ρ) Unit}
    (hsplit : t.split g = .ok o) (hs : t.slots.Sealed X)
    (hfirst : ∀ k, t.first? g.nextSplit = some k → k ∉ X) : o.state.slots.Sealed X := by
  unfold split at hsplit
  obtain ⟨c, hc, hsplit⟩ := Checked.bind_eq_ok.mp hsplit
  obtain ⟨⟨t', answer⟩, hr, hsplit⟩ := Checked.bind_eq_ok.mp hsplit
  have hhead : ∀ k, c.head = some k → k ∉ X := by
    intro k hk
    apply hfirst
    unfold first?
    rw [chain_eq_ok.mp hc]
    exact hk
  have hs' : t'.slots.Sealed X := relink_isSealed t.slots.live hr hs hhead
  cases answer with
  | error fault => cases hsplit; exact hs'
  | ok u => cases hsplit; exact hs'

/-! ## Tables that have lost resources -/

namespace Accounted

variable {t t' : Table ρ} {lost : List Handle}

/-- A table is sealed off from what it has lost. -/
theorem isSealed (ha : t.Accounted lost) : t.slots.Sealed lost := by
  intro k e he hk n hn
  have hget : t.get? k = some e.resource := by
    rw [get?, he]
    rfl
  obtain ⟨i, hi⟩ := ha.exists_mem (by rw [hget]; rfl) hk
  obtain ⟨l₁, l₂, hl⟩ := List.append_of_mem hi
  obtain ⟨e', he', -, hnext⟩ := ha.holds.next_eq hl hget
  obtain rfl : e = e' := Option.some.inj (he.symm.trans he')
  refine fun hlost => ha.not_mem_of_lost hlost i ?_
  rw [hl]
  exact List.mem_append_right _
    (List.mem_cons_of_mem k (List.mem_of_head? (hnext.symm.trans hn)))

theorem first?_not_mem (ha : t.Accounted lost) (hX : X ⊆ lost) {bucket : Nat} {h : Handle}
    (hf : t.first? bucket = some h) : h ∉ X := by
  rw [ha.holds.first?_eq] at hf
  exact fun hx => ha.not_mem_of_lost (hX hx) bucket (List.mem_of_head? hf)

theorem edits_sealed {P : ρ → ρ → Prop} (ha : t.Accounted lost) (hX : X ⊆ lost)
    (he : t.Edits P t') (hs : t.slots.Sealed X) : t'.slots.Sealed X := by
  induction he with
  | refl => exact hs
  | change h f _ _ ih => exact modifyHandle_isSealed ih h f
  | unlink f hm hu he ih =>
      refine unlink_isSealed hu (modifyHandle_isSealed ih _ f) fun hx => ?_
      exact (ha.edits he).1.not_mem_of_lost (hX hx) _ hm

theorem growIfOverfull_sealed (ha : t.Accounted lost) (hX : X ⊆ lost) {granted : Bool}
    {o : Outcome (Table ρ) Unit} (hg : t.growIfOverfull granted = .ok o)
    (hs : t.slots.Sealed X) : o.state.slots.Sealed X := by
  unfold growIfOverfull at hg
  split at hg
  · rcases grow_cases hg with ⟨hst, -⟩ | ⟨-, o', hsplit, hst, -⟩
    · rw [hst]
      exact hs
    · rw [hst]
      refine split_isSealed hsplit (by rwa [provisioned_slots]) fun k hk => ?_
      unfold first? at hk
      rw [provisioned_buckets] at hk
      exact ha.first?_not_mem hX hk
  · cases hg
    exact hs

/-- **Every request leaves a table sealed** off from resources that it has lost, unless it takes
out one of these by its handle. -/
theorem perform_sealed (ha : t.Accounted lost) (hX : X ⊆ lost) {q : Request ρ ι}
    (hq : q.Spares lost) {o : Outcome (Table ρ) q.Answer} (hp : t.perform q = .ok o)
    (hs : t.slots.Sealed X) : o.state.slots.Sealed X := by
  rcases q.add_or_ne with ⟨granted, r, rfl⟩ | hne
  · obtain ⟨grown, hg, -, hc⟩ := add_cases hp
    have hgrown := ha.growIfOverfull_sealed hX hg hs
    rcases hc with ⟨fault, -, hst, -⟩ | ⟨-, hc⟩
    · rw [hst]
      exact hgrown
    · rcases accept_cases hc with ⟨hst, -⟩ | ⟨bucket, h, hi, -⟩
      · have hst' : o.state = grown.state := hst
        rw [hst']
        exact hgrown
      · refine install_isSealed hi hgrown fun hx => ?_
        -- a lost handle is still live once the table has grown, and the one issued next is not
        have hlive : (grown.state.get? grown.state.slots.fresh).isSome := by
          obtain ⟨o', hg', hcase⟩ := ha.grow granted
          obtain rfl : o' = grown := Except.ok.inj (hg'.symm.trans hg)
          rcases hcase with ⟨hst, -⟩ | ⟨-, hto, -⟩ | ⟨-, hto, -⟩
          · rw [hst] at hx ⊢
            exact ha.isSome_of_lost (hX hx)
          · rw [hto.get]
            exact ha.isSome_of_lost (hX hx)
          · rw [hto.get]
            exact ha.isSome_of_lost (hX hx)
        rw [get?, Slots.get?_fresh] at hlive
        cases hlive
  · obtain ⟨o', hp', he⟩ := ha.perform_edits hq q.changesOnly_true hne
    obtain rfl : o' = o := Except.ok.inj (hp'.symm.trans hp)
    exact ha.edits_sealed hX he hs

end Accounted

end Table

/-! ## Cursors -/

namespace Cursor

variable {ρ : Type} {X : List Handle} {t : Table ρ}

theorem settle_not_mem (hfirst : ∀ b h, t.first? b = some h → h ∉ X) (count : Nat) :
    ∀ {c : Cursor}, (∀ h, c.next = some h → h ∉ X) →
      ∀ h, (c.settle t count).next = some h → h ∉ X := by
  induction count with
  | zero => exact fun hc => hc
  | succ count ih =>
      intro c hc
      rw [settle]
      split
      · exact hc
      · exact ih (hfirst (c.bucket + 1))

/-- A cursor outside of `X` returns a handle outside of `X` and stays outside of it. -/
theorem step_sealed (hs : t.slots.Sealed X) (hfirst : ∀ b h, t.first? b = some h → h ∉ X)
    {c c' : Cursor} {answer : Option Handle} (hstep : c.step t = .ok (answer, c'))
    (hc : ∀ h, c.next = some h → h ∉ X) :
    (∀ h, answer = some h → h ∉ X) ∧ ∀ h, c'.next = some h → h ∉ X := by
  have hsettle := settle_not_mem hfirst (t.buckets.size - c.bucket) hc
  unfold step at hstep
  split at hstep
  · cases hstep
  · dsimp only at hstep
    split at hstep
    · cases hstep
      exact ⟨nofun, hsettle⟩
    · rename_i k hk
      split at hstep
      · cases hstep
      · rename_i e he
        cases hstep
        refine ⟨fun h hh => ?_, hs k e he (hsettle k hk)⟩
        rw [← Option.some.inj hh]
        exact hsettle k hk

end Cursor

end ResourceIndex
