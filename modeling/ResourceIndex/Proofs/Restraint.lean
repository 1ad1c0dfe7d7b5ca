import ResourceIndex.Proofs.Load
import ResourceIndex.Proofs.Withdrawal

set_option autoImplicit false

/-! # What comes to nothing changes nothing

An addition grows the table before it is known whether the resource will be accepted. If it is not,
the table is as it was when no bucket was to be split, and otherwise it is what that one split has
made of it (`Table.Declines`). A split that is put off leaves the table alone, so that the addition
goes on as if there had been room (`Table.add_of_not_splits`). Of the other requests those that come
to nothing, or are cut short by an identifier that cannot be hashed, leave the table alone.

All this holds after every run of requests: see `Table.run_restrained`.
-/

namespace ResourceIndex

/-- The identifier that a request looks up. -/
def Request.sought? {ρ ι : Type} : Request ρ ι → Option ι
  | .remove id => some id
  | .modify id _ => some id
  | .find id => some id
  | .lookup id => some id
  | .contains id => some id
  | _ => none

namespace Table

variable {ρ ι : Type}

/-! ## Growing -/

/-- What is logged before a resource is added to a table of which no bucket is split: that the split
is put off, if there were to be one. -/
def postponed [Resource ρ ι] [Identifier ι] (t : Table ρ) : List Event :=
  if t.buckets.size < t.size ∧ t.buckets.size < (Identifier.widths ι).mostBuckets then
    [.splitDeferred t.buckets.size t.geometry.forSplit.target]
  else []

variable [Resource ρ ι] [Identifier ι]

/-- Adding a resource to the table that has become of one when room was to be made in it. -/
def acceptAfter (grown : Outcome (Table ρ) Unit) (r : ρ) :
    Checked (Outcome (Table ρ) (Admission ρ)) := do
  let (t, answer) ← grown.state.accept r
  return { state := t, answer := answer, events := grown.events }

section Growing

variable {t : Table ρ} {granted : Bool}

/-- No bucket is split: there is room, there may not be more buckets, or there is no space for one
and memory is not granted. -/
theorem not_splits_iff : ¬ t.Splits granted ↔
    t.size ≤ t.buckets.size ∨ (Identifier.widths ι).mostBuckets ≤ t.buckets.size
      ∨ t.reserved < t.geometry.forSplit.target ∧ granted = false := by
  constructor
  · intro hs
    by_contra hno
    simp only [not_or, not_and, Nat.not_le] at hno
    obtain ⟨hover, hmost, hspace⟩ := hno
    refine hs ⟨hover, hmost, ?_⟩
    by_contra hno
    obtain ⟨htarget, hgranted⟩ := not_or.mp hno
    exact hspace (Nat.lt_of_not_le htarget) (Bool.eq_false_iff.mpr hgranted)
  · rintro (hroom | hmost | ⟨hspace, rfl⟩) hs
    · exact absurd hs.overfull (Nat.not_lt.mpr hroom)
    · exact absurd hs.most (Nat.not_lt.mpr hmost)
    · rcases hs.space with htarget | hgranted
      · exact absurd hspace (Nat.not_lt.mpr htarget)
      · cases hgranted

/-- **When no bucket is split the table is left alone**, also when a split is put off. -/
theorem growIfOverfull_of_not_splits {k : Nat} (hk : t.AtLevel (Identifier.widths ι) k)
    (hs : ¬ t.Splits granted) :
    t.growIfOverfull granted = .ok { state := t, answer := .ok (), events := t.postponed } := by
  unfold growIfOverfull postponed
  by_cases hover : t.buckets.size < t.size
  · have hover' : t.overfull = true := decide_eq_true hover
    rw [if_pos hover']
    unfold grow
    dsimp only
    by_cases hmost : (Identifier.widths ι).mostBuckets ≤ t.buckets.size
    · rw [if_pos hmost, if_neg fun h => absurd h.2 (Nat.not_lt.mpr hmost)]
    · obtain ⟨hspace, rfl⟩ := (not_splits_iff.mp hs).resolve_left (Nat.not_le.mpr hover)
        |>.resolve_left hmost
      obtain ⟨hlt, hcap⟩ := hk.target_bounds (Nat.lt_of_not_le hmost)
      rw [if_neg hmost, Nat.pow_eq, if_neg (by omega), if_neg (Nat.not_le.mpr hspace),
        if_neg nofun, if_pos ⟨hover, Nat.lt_of_not_le hmost⟩]
  · have hroom : ¬ t.overfull = true := fun h => hover (of_decide_eq_true h)
    rw [if_neg hroom, if_neg fun h => hover h.1]

theorem add_of_grown {grown : Outcome (Table ρ) Unit} (hg : t.growIfOverfull granted = .ok grown)
    (han : grown.answer = .ok ()) (r : ρ) : t.add granted r = acceptAfter grown r := by
  rw [add_eq, hg, Checked.ok_bind, han]
  rfl

/-- **An addition for which no bucket is split** is accepting the resource. -/
theorem add_of_not_splits {k : Nat} (hk : t.AtLevel (Identifier.widths ι) k)
    (hs : ¬ t.Splits granted) (r : ρ) :
    t.add granted r = acceptAfter { state := t, answer := .ok (), events := t.postponed } r :=
  add_of_grown (growIfOverfull_of_not_splits hk hs) rfl r

/-- **A split that is begun** adds a bucket, and is counted if it comes to its end. -/
theorem growIfOverfull_of_splits (hs : t.Splits granted) {grown : Outcome (Table ρ) Unit}
    (hg : t.growIfOverfull granted = .ok grown) :
    grown.state.buckets.size = t.buckets.size + 1
      ∧ (grown.answer = .ok () ∧ grown.state.splits = t.splits + 1
          ∧ grown.state.epoch = t.epoch + 1
        ∨ grown.answer = .error .hashUnavailable ∧ grown.state.splits = t.splits
          ∧ grown.state.epoch = t.epoch) := by
  have hsize := size_of_splits hs hg
  refine ⟨hsize, ?_⟩
  rcases growIfOverfull_cases hg with ⟨hst, -⟩ | ⟨-, -, hcase⟩
  · rw [hst] at hsize
    omega
  · rcases hcase with ⟨han, hsplits, hepoch, -⟩ | ⟨han, hsplits, hepoch, -⟩
    · exact Or.inl ⟨han, hsplits, hepoch⟩
    · exact Or.inr ⟨han, hsplits, hepoch⟩

end Growing

/-! ## Resources that are not accepted -/

/-- A resource that is not accepted leaves the table alone and is handed back, unless its identifier
cannot be hashed. -/
theorem accept_declined {t t' : Table ρ} {r : ρ} {answer : Except Fault (Admission ρ)}
    (ha : t.accept r = .ok (t', answer)) (hno : ∀ h, answer ≠ .ok (.installed h)) :
    t' = t ∧ (answer = .ok (.duplicate r)
      ∨ answer = .error .hashUnavailable ∧ Identifier.hash? (Resource.id r) = none) := by
  unfold accept at ha
  split at ha
  · rename_i hnone
    cases ha
    exact ⟨rfl, Or.inr ⟨rfl, Option.map_eq_none_iff.mp hnone⟩⟩
  · obtain ⟨found, -, ha⟩ := Checked.bind_eq_ok.mp ha
    cases found with
    | some h =>
        cases ha
        exact ⟨rfl, Or.inl rfl⟩
    | none =>
        obtain ⟨⟨t₁, h⟩, -, ha⟩ := Checked.bind_eq_ok.mp ha
        cases ha
        exact absurd rfl (hno h)

/-- The addition of `r` to `t` has ended with `o` and has not installed it. -/
structure Declines (t : Table ρ) (granted : Bool) (r : ρ) (o : Outcome (Table ρ) (Admission ρ)) :
    Prop where
  /-- What is handed back is the resource itself. -/
  back : ∀ r', o.answer = .ok (.duplicate r') → r' = r
  /-- If no bucket was to be split the table is as it was, and cursors go on. -/
  unsplit : ¬ t.Splits granted →
    o.state = t ∧ o.events = t.postponed ∧ ∀ c : Cursor, c.step o.state = c.step t
  /-- Otherwise it is what one split has made of it, which has come to its end unless the addition
  was cut short by it. -/
  split : t.Splits granted → ∃ grown, t.growIfOverfull granted = .ok grown
    ∧ o.state = grown.state ∧ o.events = grown.events
    ∧ grown.state.buckets.size = t.buckets.size + 1
    ∧ (grown.answer = .ok () ∧ grown.state.splits = t.splits + 1
        ∧ grown.state.epoch = t.epoch + 1
        ∧ (o.answer = .ok (.duplicate r)
          ∨ o.answer = .error .hashUnavailable ∧ Identifier.hash? (Resource.id r) = none)
      ∨ grown.answer = .error .hashUnavailable ∧ o.answer = .error .hashUnavailable)

/-- **An addition that installs nothing.** -/
theorem add_declines {t : Table ρ} {k : Nat} (hk : t.AtLevel (Identifier.widths ι) k)
    {granted : Bool} {r : ρ} {o : Outcome (Table ρ) (Admission ρ)} (ha : t.add granted r = .ok o)
    (hno : ∀ h, o.answer ≠ .ok (.installed h)) : t.Declines granted r o := by
  obtain ⟨grown, hg, hev, hcase⟩ := add_cases ha
  -- whether the growth was cut short or the resource was not accepted, nothing came after it
  have hst : o.state = grown.state := by
    rcases hcase with ⟨fault, -, hst, -⟩ | ⟨-, hacc⟩
    · exact hst
    · exact (accept_declined hacc hno).1
  refine ⟨fun r' hdup => ?_, fun hs => ?_, fun hs => ?_⟩
  · rcases hcase with ⟨fault, -, -, han⟩ | ⟨-, hacc⟩
    · rw [han] at hdup
      cases hdup
    · rcases (accept_declined hacc hno).2 with han | ⟨han, -⟩
      · rw [han] at hdup
        cases hdup
        rfl
      · rw [han] at hdup
        cases hdup
  · rw [growIfOverfull_of_not_splits hk hs] at hg
    cases hg
    exact ⟨hst, hev, fun c => by rw [hst]⟩
  · obtain ⟨hsize, hgrown⟩ := growIfOverfull_of_splits hs hg
    refine ⟨grown, hg, hst, hev, hsize, ?_⟩
    rcases hgrown with ⟨han, hsplits, hepoch⟩ | ⟨han, -⟩
    · rcases hcase with ⟨fault, hfault, -⟩ | ⟨-, hacc⟩
      · rw [han] at hfault
        cases hfault
      · exact Or.inl ⟨han, hsplits, hepoch, (accept_declined hacc hno).2⟩
    · rcases hcase with ⟨fault, hfault, -, hans⟩ | ⟨hok, -⟩
      · rw [han] at hfault
        cases hfault
        exact Or.inr ⟨han, hans⟩
      · rw [han] at hok
        cases hok

/-- A resource whose identifier cannot be hashed comes to nothing after the growth. -/
theorem acceptAfter_of_unhashable (grown : Outcome (Table ρ) Unit) {r : ρ}
    (hr : Identifier.hash? (Resource.id r) = none) :
    acceptAfter grown r =
      .ok { state := grown.state, answer := .error .hashUnavailable, events := grown.events } := by
  unfold acceptAfter accept address?
  rw [hr]
  rfl

/-! ## Other requests -/

/-- An identifier that cannot be hashed ends the request that looks it up. -/
theorem perform_of_unhashable (t : Table ρ) {q : Request ρ ι} {id : ι} (hq : q.sought? = some id)
    (hid : Identifier.hash? id = none) :
    t.perform q = .ok { state := t, answer := .error .hashUnavailable } := by
  have haddr : t.address? id = none := Option.map_eq_none_iff.mpr hid
  have hfind : t.find id = .ok (.error .hashUnavailable) := by
    unfold find
    rw [haddr]
  cases q with
  | remove id' =>
      cases hq
      unfold perform remove
      dsimp only
      rw [haddr]
      rfl
  | modify id' f =>
      cases hq
      unfold perform modify
      dsimp only
      rw [hfind]
      rfl
  | find id' =>
      cases hq
      unfold perform
      dsimp only
      rw [hfind]
      rfl
  | lookup id' =>
      cases hq
      unfold perform lookup
      dsimp only
      rw [hfind]
      rfl
  | contains id' =>
      cases hq
      unfold perform contains
      dsimp only
      rw [hfind]
      rfl
  | add | removeHandle | modifyHandle | traverse | get | verify => cases hq

/-- **A request that ends with a fault** and is not an addition leaves the table alone. -/
theorem perform_of_fault {t : Table ρ} {q : Request ρ ι} (hadd : ∀ granted r, q ≠ .add granted r)
    {o : Outcome (Table ρ) q.Answer} (hp : t.perform q = .ok o) {fault : Fault}
    (hf : o.answer = .error fault) : o.state = t ∧ o.events = [] := by
  refine ⟨?_, perform_quiet hadd hp⟩
  cases q with
  | add granted r => exact absurd rfl (hadd granted r)
  | remove id =>
      replace hp : t.remove id = .ok o := hp
      unfold Table.remove at hp
      split at hp
      · cases hp; rfl
      · obtain ⟨found, -, hp⟩ := Checked.bind_eq_ok.mp hp
        cases found with
        | none => cases hp; rfl
        | some h =>
            obtain ⟨p, -, hp⟩ := Checked.bind_eq_ok.mp hp
            cases hp
            cases hf
  | modify id f =>
      obtain ⟨found, -, hp⟩ := Checked.bind_eq_ok.mp hp
      rcases found with fault | (_ | h)
      · cases hp; rfl
      · cases hp; rfl
      · cases hp; cases hf
  | removeHandle h | traverse visit s =>
      obtain ⟨p, -, hp⟩ := Checked.bind_eq_ok.mp hp
      cases hp
      cases hf
  | find id | lookup id | contains id | verify =>
      obtain ⟨_, -, hp⟩ := Checked.bind_eq_ok.mp hp
      cases hp
      rfl
  | modifyHandle h f | get h =>
      cases hp
      cases hf

/-! ## Every run -/

/-- **What comes to nothing changes nothing**, after any run of requests to a fresh table.

* If no bucket is to be split, and also if a split is put off, an addition is accepting the resource,
  apart from what is logged.
* An addition that installs nothing leaves the table as it was, or as the one split has left it that
  was due. So it does in particular when the resource has an identifier that cannot be hashed.
* Nothing is taken out by an identifier that is not found or by a handle that is stale.
* A request that looks up an identifier that cannot be hashed, and any other one that ends with a
  fault and is not an addition, leaves the table alone. -/
theorem run_restrained (qs : List (Request ρ ι)) {t : Table ρ} {exchanges : List (Exchange ρ ι)}
    (hr : (new : Table ρ).run qs = .ok (exchanges, t)) :
    (∀ granted, ¬ t.Splits granted ↔
      t.size ≤ t.buckets.size ∨ (Identifier.widths ι).mostBuckets ≤ t.buckets.size
        ∨ t.reserved < t.geometry.forSplit.target ∧ granted = false)
    ∧ (∀ granted, ¬ t.Splits granted →
        t.growIfOverfull granted = .ok { state := t, answer := .ok (), events := t.postponed }
        ∧ ∀ r, t.add granted r =
            acceptAfter { state := t, answer := .ok (), events := t.postponed } r)
    ∧ (∀ granted r o, t.add granted r = .ok o → (∀ h, o.answer ≠ .ok (.installed h)) →
        t.Declines granted r o)
    ∧ (∀ granted r grown, t.growIfOverfull granted = .ok grown → grown.answer = .ok () →
        Identifier.hash? (Resource.id r) = none →
          t.add granted r =
            .ok { state := grown.state, answer := .error .hashUnavailable, events := grown.events })
    ∧ (∀ id : ι, t.find id = .ok (.ok none) →
        t.remove id = .ok { state := t, answer := .ok none })
    ∧ (∀ h, t.get? h = none → t.removeHandle h = .ok (t, none))
    ∧ (∀ (q : Request ρ ι) (id : ι), q.sought? = some id → Identifier.hash? id = none →
        t.perform q = .ok { state := t, answer := .error .hashUnavailable })
    ∧ ∀ (q : Request ρ ι) (o : Outcome (Table ρ) q.Answer) (fault : Fault),
        (∀ granted r, q ≠ .add granted r) → t.perform q = .ok o → o.answer = .error fault →
          o.state = t ∧ o.events = [] := by
  obtain ⟨⟨k, hk⟩, -⟩ := run_atLevel qs new_atLevel hr
  refine ⟨fun granted => not_splits_iff, fun granted hs =>
      ⟨growIfOverfull_of_not_splits hk hs, add_of_not_splits hk hs⟩,
    fun granted r o => add_declines hk, fun granted r grown hg han hid => ?_,
    fun id => remove_of_find_none, fun h => removeHandle_of_stale,
    fun q id => perform_of_unhashable t, fun q o fault hadd hp => perform_of_fault hadd hp⟩
  rw [add_of_grown hg han, acceptAfter_of_unhashable grown hid]

/-- Two resources in the only bucket, so that it is to be split before the next one is added. -/
def filled : List (Request (Record WideId) WideId) :=
  [.add true ⟨⟨some 1, some 0⟩, "a"⟩, .add true ⟨⟨some 2, some 1⟩, "b"⟩]

/-- A resource with the identifier of the second one is turned down, without memory for a split and
after a split. -/
theorem run_restrained_filled :
    ∃ exchanges t o o', (new : Table (Record WideId)).run filled = .ok (exchanges, t)
      ∧ t.add false ⟨⟨some 2, some 1⟩, "c"⟩ = .ok o
      ∧ o.answer = .ok (.duplicate ⟨⟨some 2, some 1⟩, "c"⟩)
      ∧ o.state.buckets.size = 1 ∧ t.Declines false ⟨⟨some 2, some 1⟩, "c"⟩ o
      ∧ t.add true ⟨⟨some 2, some 1⟩, "c"⟩ = .ok o'
      ∧ o'.answer = .ok (.duplicate ⟨⟨some 2, some 1⟩, "c"⟩)
      ∧ o'.state.buckets.size = 2 ∧ t.Declines true ⟨⟨some 2, some 1⟩, "c"⟩ o' :=
  ⟨_, _, _, _, rfl, rfl, rfl, rfl, (run_restrained filled rfl).2.2.1 _ _ _ rfl nofun, rfl, rfl, rfl,
    (run_restrained filled rfl).2.2.1 _ _ _ rfl nofun⟩

end Table

end ResourceIndex
