import ResourceIndex.Proofs.Session
import ResourceIndex.Proofs.Wiring

set_option autoImplicit false

/-! # No request gets stuck

A table is *sound* when its links are in order and its masks, cursor and buckets fit together
(`Table.Sound`). Every request to a sound table is carried out and leaves a sound table behind
(`Sound.perform`), whatever has become of identifiers, whichever splits have been cut short, and
whether or not lost resources are taken out. So every run and every session comes to its end and
leaves a sound table (`Sound.run`, `Session.run_total`, `Session.run_sound`).
-/

namespace ResourceIndex

namespace Table

variable {ρ ι : Type}

/-- A table whose links are in order and whose masks, cursor and buckets fit together. -/
structure Sound [Resource ρ ι] [Identifier ι] (t : Table ρ) : Prop where
  wired : t.Wired
  level : ∃ k, t.AtLevel (Identifier.widths ι) k

namespace Sound

variable [Resource ρ ι] [Identifier ι] {t : Table ρ}

theorem find_eq (ht : t.Sound) (id : ι) : t.find id = .ok (t.found t.handlesIn id) :=
  ht.wired.reads.find_eq ht.level id

theorem growIfOverfull (ht : t.Sound) (granted : Bool) :
    ∃ o, t.growIfOverfull granted = .ok o ∧ o.state.Sound := by
  obtain ⟨k, hk⟩ := ht.level
  obtain ⟨j, hj, hlt, -⟩ := hk.spans.forSplit
  obtain ⟨o, hsplit, ho, -⟩ := (ht.wired.provisioned t.geometry.forSplit).split
    (by rw [provisioned_buckets]; exact hj) hlt
  obtain ⟨o', hgrow, hcase⟩ := growIfOverfull_of_split hk granted hsplit
  refine ⟨o', hgrow, ?_, ?_⟩
  · rcases hcase with ⟨hst, -⟩ | ⟨hst, -⟩
    · exact hst ▸ ht.wired
    · exact hst ▸ ho
  · rcases hk.growIfOverfull hgrow with ⟨hst, -⟩ | ⟨hlevel, -⟩
    · exact hst ▸ ht.level
    · exact hlevel

theorem accept (ht : t.Sound) (r : ρ) :
    ∃ t' answer, t.accept r = .ok (t', answer) ∧ t'.Wired := by
  obtain ⟨k, hk⟩ := ht.level
  unfold Table.accept
  cases hb : t.address? (Resource.id r) with
  | none => exact ⟨t, _, rfl, ht.wired⟩
  | some b =>
      have hlt := hk.address?_lt hb
      dsimp only
      rw [ht.wired.reads.findIn_eq hlt, Checked.ok_bind]
      cases (t.handlesIn b).find? (t.answers (Resource.id r)) with
      | some h => exact ⟨t, _, rfl, ht.wired⟩
      | none =>
          obtain ⟨t', hi, ht'⟩ := ht.wired.install hlt r
          refine ⟨t', .ok (.installed t.slots.fresh), ?_, ht'⟩
          dsimp only
          rw [hi]
          rfl

theorem add (ht : t.Sound) (granted : Bool) (r : ρ) :
    ∃ o, t.add granted r = .ok o ∧ o.state.Wired := by
  obtain ⟨grown, hgrow, hgrown⟩ := ht.growIfOverfull granted
  rw [add_eq, hgrow, Checked.ok_bind]
  cases grown.answer with
  | error fault => exact ⟨_, rfl, hgrown.wired⟩
  | ok u =>
      obtain ⟨t', answer, hacc, ht'⟩ := hgrown.accept r
      refine ⟨{ state := t', answer := answer, events := grown.events }, ?_, ht'⟩
      dsimp only
      rw [hacc]
      rfl

theorem remove (ht : t.Sound) (id : ι) : ∃ o, t.remove id = .ok o ∧ o.state.Wired := by
  obtain ⟨k, hk⟩ := ht.level
  unfold Table.remove
  cases hb : t.address? id with
  | none => exact ⟨_, rfl, ht.wired⟩
  | some b =>
      dsimp only
      rw [ht.wired.reads.findIn_eq (hk.address?_lt hb), Checked.ok_bind]
      cases hf : (t.handlesIn b).find? (t.answers id) with
      | none => exact ⟨_, rfl, ht.wired⟩
      | some h =>
          obtain ⟨t', r, hu, ht'⟩ :=
            ht.wired.unlink (ht.wired.home_of_mem (List.mem_of_find?_eq_some hf))
          refine ⟨{ state := t', answer := .ok (some r) }, ?_, ht'⟩
          dsimp only
          rw [hu]
          rfl

theorem modify (ht : t.Sound) (id : ι) (f : ρ → ρ) :
    ∃ o, t.modify id f = .ok o ∧ o.state.Wired := by
  unfold Table.modify
  rw [ht.find_eq, Checked.ok_bind]
  rcases t.found t.handlesIn id with fault | (_ | h)
  · exact ⟨_, rfl, ht.wired⟩
  · exact ⟨_, rfl, ht.wired⟩
  · exact ⟨_, rfl, ht.wired.modifyHandle h f⟩

/-- **Every request is carried out**, and leaves the links in order. -/
theorem perform (ht : t.Sound) (q : Request ρ ι) : ∃ o, t.perform q = .ok o ∧ o.state.Sound := by
  obtain ⟨k, hk⟩ := ht.level
  suffices hw : ∃ o, t.perform q = .ok o ∧ o.state.Wired by
    obtain ⟨o, hp, ho⟩ := hw
    exact ⟨o, hp, ho, (perform_growth hk hp).1⟩
  cases q with
  | add granted r => exact ht.add granted r
  | remove id => exact ht.remove id
  | modify id f => exact ht.modify id f
  | modifyHandle h f => exact ⟨_, rfl, ht.wired.modifyHandle h f⟩
  | get h => exact ⟨_, rfl, ht.wired⟩
  | removeHandle h =>
      obtain ⟨t', answer, hr, ht'⟩ := ht.wired.removeHandle h
      refine ⟨{ state := t', answer := .ok answer }, ?_, ht'⟩
      show (t.removeHandle h >>= _) = _
      rw [hr]
      rfl
  | traverse visit a =>
      obtain ⟨t', a', hv, ht'⟩ := ht.wired.traverse visit a
      refine ⟨{ state := t', answer := .ok a' }, ?_, ht'⟩
      show (t.traverse visit a >>= _) = _
      rw [hv]
      rfl
  | find id =>
      refine ⟨{ state := t, answer := t.found t.handlesIn id }, ?_, ht.wired⟩
      show (t.find id >>= _) = _
      rw [ht.find_eq]
      rfl
  | lookup id =>
      refine ⟨{ state := t, answer := (t.found t.handlesIn id).map fun h => h.bind t.get? }, ?_,
        ht.wired⟩
      show (t.lookup id >>= _) = _
      unfold Table.lookup
      rw [ht.find_eq]
      rfl
  | contains id =>
      refine ⟨{ state := t, answer := (t.found t.handlesIn id).map Option.isSome }, ?_, ht.wired⟩
      show (t.contains id >>= _) = _
      unfold Table.contains
      rw [ht.find_eq]
      rfl
  | verify =>
      obtain ⟨answer, hv⟩ := ht.wired.reads.verify_total ht.level
      refine ⟨{ state := t, answer := answer }, ?_, ht.wired⟩
      show (t.verify >>= _) = _
      rw [hv]
      rfl

theorem fresh : (new : Table ρ).Sound := ⟨.of_empty rfl rfl, _, new_atLevel⟩

/-- **Every run comes to its end**, whatever is requested, and leaves a sound table. -/
theorem run (qs : List (Request ρ ι)) :
    ∀ {t : Table ρ}, t.Sound → ∃ exchanges t', t.run qs = .ok (exchanges, t') ∧ t'.Sound := by
  induction qs with
  | nil => exact fun {t} ht => ⟨[], t, rfl, ht⟩
  | cons q qs ih =>
      intro t ht
      obtain ⟨o, hp, ho⟩ := ht.perform q
      obtain ⟨rest, t', hrest, ht'⟩ := ih ho
      exact ⟨_, t', run_cons hp hrest, ht'⟩

end Sound

end Table

namespace Session

variable {ρ ι : Type} [Resource ρ ι] [Identifier ι]

/-- What every act does to a sound table. -/
theorem act_sound {s : Session ρ ι} (hs : s.table.Sound) (a : Act ρ ι) :
    ∃ s', s.act a = .ok s' ∧ s'.table.Sound := by
  cases a with
  | request q =>
      obtain ⟨o, hp, ho⟩ := hs.perform q
      unfold act
      dsimp only
      rw [hp]
      exact ⟨_, rfl, ho⟩
  | start | copy i | resume i => exact ⟨_, rfl, hs⟩

/-- **Every session comes to its end**, whatever is done in it, and leaves a sound table. -/
theorem run_total (acts : List (Act ρ ι)) :
    ∀ {s : Session ρ ι}, s.table.Sound → ∃ s', s.run acts = .ok s' ∧ s'.table.Sound := by
  induction acts with
  | nil => exact fun {s} hs => ⟨s, rfl, hs⟩
  | cons a acts ih =>
      intro s hs
      obtain ⟨s₁, ha, hs₁⟩ := act_sound hs a
      obtain ⟨s', hr, hs'⟩ := ih hs₁
      refine ⟨s', ?_, hs'⟩
      rw [run, ha]
      exact hr

theorem run_sound {acts : List (Act ρ ι)} {s : Session ρ ι}
    (hr : (fresh : Session ρ ι).run acts = .ok s) : s.table.Sound := by
  obtain ⟨s', hr', hs'⟩ := run_total (s := fresh) acts Table.Sound.fresh
  obtain rfl : s' = s := Except.ok.inj (hr'.symm.trans hr)
  exact hs'

end Session

end ResourceIndex
