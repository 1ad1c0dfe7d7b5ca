import ResourceIndex.Table.Report
import ResourceIndex.Proofs.Capacity
import ResourceIndex.Proofs.Checking
import ResourceIndex.Proofs.Repetition

set_option autoImplicit false

/-! # What cannot go wrong

A caller can give a resource an identifier that cannot be hashed, change identifiers so that
resources are misplaced, or resume a cursor at the wrong time, and is told so by a fault
(`Table.MayEnd`). Nothing else goes wrong: no operation on a table comes upon a bucket that there is
not, a handle that names nothing, a length that is not the right one, or a number that is too great
for its word (`Table.Safe`, `Table.Fits`).

The main statement is `run_safe`, for every session and every run of a serial table. The table
inside a serial table may be taken out, and sessions go on with it.
-/

namespace ResourceIndex

/-! ## Cursors and iterators -/

section Positions

variable {ρ : Type} {t : Table ρ}

/-- The faults of a cursor, wherever it comes from. -/
theorem Cursor.step_fault {c : Cursor} {fault : Fault} (hs : c.step t = .error fault) :
    fault = .grown ∨ fault = .successorRemoved := by
  unfold Cursor.step at hs
  split at hs
  · cases hs
    exact Or.inl rfl
  · dsimp only at hs
    split at hs
    · cases hs
    · split at hs
      · cases hs
        exact Or.inr rfl
      · cases hs

/-- The iterators over a table: what a step at a time makes of the one before the first resource. -/
inductive Iterator.Over (t : Table ρ) : Iterator ρ → Prop
  | start : Over t (Iterator.start t)
  | next {it it' : Iterator ρ} {answer : Option ρ} (h : Over t it)
      (hn : it.next = .ok (answer, it')) : Over t it'

/-- The iterator is at a place in its table, and counts the resources it has not come to. -/
structure Iterator.Placed (t : Table ρ) (it : Iterator ρ) : Prop where
  table : it.table = t
  epoch : it.cursor.epoch = t.epoch
  place : ∃ returned passed rest, it.cursor.At t t returned passed rest
    ∧ returned.length + it.remaining = t.size

variable {ι : Type} [Resource ρ ι] [Identifier ι] {lost : List Handle} (ha : t.Accounted lost)

include ha

/-- A step of an iterator meets no fault and leaves it at a place. -/
theorem Iterator.Placed.next {it : Iterator ρ} (hp : it.Placed t) :
    ∃ p, it.next = .ok p ∧ p.2.Placed t := by
  obtain ⟨t', c, remaining⟩ := it
  obtain ⟨rfl, hepoch, returned, passed, rest, hat, hcount⟩ := hp
  unfold Iterator.next
  dsimp only at hepoch hat hcount ⊢
  rcases ha.step hat hepoch with ⟨c', passed', rest', hstep, hepoch', -, hat'⟩
    | ⟨h, c', passed', rest', hstep, -, hepoch', ⟨before, after, horder, hsub, -⟩, hat'⟩
  · rw [hstep]
    exact ⟨_, rfl, rfl, hepoch', returned, passed', rest', hat', hcount⟩
  · -- the resources it has come to, with this one, are not more than there are
    have hcome : (returned ++ [h]).length ≤ t'.size :=
      calc (returned ++ [h]).length
          ≤ (before ++ h :: after).length :=
            (hsub.append (List.singleton_sublist.mpr List.mem_cons_self)).length_le
        _ = t'.linked := by rw [← horder, ha.holds.linked_eq]
        _ ≤ t'.size := by rw [ha.size_eq]; exact Nat.le_add_right _ _
    rw [List.length_append, List.length_singleton] at hcome
    obtain ⟨remaining, rfl⟩ : ∃ n, remaining = n + 1 := ⟨remaining - 1, by omega⟩
    rw [hstep]
    refine ⟨_, rfl, rfl, hepoch', returned ++ [h], passed', rest', hat', ?_⟩
    rw [List.length_append, List.length_singleton]
    dsimp only
    omega

theorem Iterator.Over.placed {it : Iterator ρ} (hit : it.Over t) : it.Placed t := by
  induction hit with
  | start =>
      exact ⟨rfl, rfl, [], [], t.handlesIn 0, ⟨Nat.zero_le _, rfl, ha.holds.first?_eq 0,
        List.nil_sublist _, nofun⟩, Nat.zero_add _⟩
  | next h hn ih =>
      obtain ⟨p, hp, hplaced⟩ := ih.next ha
      obtain rfl := Except.ok.inj (hp.symm.trans hn)
      exact hplaced

end Positions

namespace Table

variable {ρ ι : Type} [Resource ρ ι] [Identifier ι]

/-! ## Faults -/

/-- A resource is installed whose identifier cannot be hashed. -/
def HasUnhashable (t : Table ρ) : Prop :=
  ∃ h r, t.get? h = some r ∧ Identifier.hash? (Resource.id r) = none

/-- The faults that may end a request, and what each of them is due to. -/
def MayEnd (t : Table ρ) : Request ρ ι → Fault → Prop
  | .add _ r, fault =>
      fault = .hashUnavailable ∧ (Identifier.hash? (Resource.id r) = none ∨ t.HasUnhashable)
  | .remove id, fault | .modify id _, fault | .find id, fault | .lookup id, fault
  | .contains id, fault => fault = .hashUnavailable ∧ Identifier.hash? id = none
  | .removeHandle _, _ | .modifyHandle _ _, _ | .traverse _ _, _ | .get _, _ => False
  | .verify, .hashUnavailable => t.HasUnhashable
  | .verify, .misplaced _ _ | .verify, .duplicated _ | .verify, .countMismatch => True
  | .verify, .grown | .verify, .successorRemoved | .verify, .staleLength _ => False

/-- A lookup is cut short if the identifier cannot be hashed. -/
theorem hash?_of_found {t : Table ρ} {lists : Nat → List Handle} {id : ι} {fault : Fault}
    (hf : t.found lists id = .error fault) :
    fault = .hashUnavailable ∧ Identifier.hash? id = none := by
  refine ⟨found_eq_error hf, ?_⟩
  unfold found address? at hf
  cases hh : Identifier.hash? id with
  | none => rfl
  | some hash => rw [hh] at hf; cases hf

/-- What the check of an entry may end with. -/
theorem verifyEntry_fault {t : Table ρ} {b : Nat} {all : List (Handle × Entry ρ)}
    {row : Handle × Entry ρ} {fault : Fault} (hv : t.verifyEntry b all row = .error fault) :
    (fault = .hashUnavailable ∧ Identifier.hash? (Resource.id row.2.resource) = none)
      ∨ (∃ expected, fault = .misplaced b expected) ∨ fault = .duplicated b := by
  unfold verifyEntry at hv
  dsimp only at hv
  cases hb : t.address? (Resource.id row.2.resource) with
  | none =>
      rw [hb] at hv
      exact Or.inl ⟨(Except.error.inj hv).symm, Option.map_eq_none_iff.mp hb⟩
  | some expected =>
      rw [hb] at hv
      dsimp only at hv
      split at hv
      · exact Or.inr (Or.inl ⟨expected, (Except.error.inj hv).symm⟩)
      · split at hv
        · exact Or.inr (Or.inr (Except.error.inj hv).symm)
        · cases hv

namespace Accounted

variable {t : Table ρ} {lost : List Handle}

/-- What an addition may be cut short by. -/
theorem add_fault (ha : t.Accounted lost) {granted : Bool} {r : ρ}
    {o : Outcome (Table ρ) (Admission ρ)} (hadd : t.add granted r = .ok o) {fault : Fault}
    (hf : o.answer = .error fault) : t.MayEnd (.add granted r) fault := by
  obtain ⟨grown, hg, -, hc⟩ := add_cases hadd
  rcases hc with ⟨fault', han, -, hans⟩ | ⟨han, hc⟩
  · obtain rfl := Except.error.inj (hans.symm.trans hf)
    obtain ⟨hhash, hno⟩ := ha.growIfOverfull_error hg han
    exact ⟨hhash, Or.inr hno⟩
  · have ha' := ha.growIfOverfull_ok hg han
    obtain ⟨t', answer, hacc, hfound⟩ := ha'.holds.accept_eq ha'.level r
    obtain ⟨rfl, rfl⟩ := Prod.mk.inj (Except.ok.inj (hacc.symm.trans hc))
    cases hfo : grown.state.found grown.state.handlesIn (Resource.id r) with
    | error fault' =>
        rw [hfo] at hfound
        obtain ⟨rfl, hhash⟩ := hash?_of_found hfo
        obtain rfl := Except.error.inj (hf.symm.trans hfound.2)
        exact ⟨rfl, Or.inl hhash⟩
    | ok found =>
        rw [hfo] at hfound
        cases found with
        | some h => cases hf.symm.trans hfound.2
        | none => cases hf.symm.trans hfound.1

/-- What a check may end with. -/
theorem verify_fault (ha : t.Accounted lost) {fault : Fault}
    (hv : t.verify = .ok (.error fault)) : t.MayEnd .verify fault := by
  rcases ha.holds.reads.verify_cases ha.level with ⟨hok, -⟩ | ⟨fault', herr, hfails⟩
  · cases hok.symm.trans hv
  · cases herr.symm.trans hv
    cases hfails with
    | @entry b h e _ hm hg hentry =>
        rcases verifyEntry_fault hentry with ⟨rfl, hhash⟩ | ⟨expected, rfl⟩ | rfl
        · exact ⟨h, e.resource, get?_of_entry hg, hhash⟩
        · trivial
        · trivial
    | @length b c hc hlen => exact absurd (ha.holds.measured b c hc) hlen
    | size hsize => trivial

/-- **Every request** is carried out, lowers no stored length below zero, and is cut short only by
what may end it. -/
theorem perform_fault (ha : t.Accounted lost) {q : Request ρ ι} (hq : q.Spares lost) :
    ∃ o, t.perform q = .ok o ∧ o.state.underflowed = false
      ∧ ∀ fault, o.answer = .error fault → t.MayEnd q fault := by
  obtain ⟨o, hp, ha', -⟩ := ha.perform hq
  refine ⟨o, hp, ha'.holds.underflowed, fun fault hf => ?_⟩
  -- what a request for an identifier answers comes from looking it up
  have hlookup : ∀ {α : Type} {id : ι} {f : Option Handle → α} {fault : Fault},
      (t.found t.handlesIn id).map f = .error fault →
        fault = .hashUnavailable ∧ Identifier.hash? id = none := fun {α id f fault} he => by
    cases hfo : t.found t.handlesIn id with
    | error fault' =>
        rw [hfo] at he
        cases he
        exact hash?_of_found hfo
    | ok found =>
        rw [hfo] at he
        cases he
  cases q with
  | add granted r => exact ha.add_fault hp hf
  | remove id =>
      obtain ⟨o', hp', hcase⟩ := ha.holds.remove_eq ha.level id
      obtain rfl : o' = o := Except.ok.inj (hp'.symm.trans hp)
      cases hfo : t.found t.handlesIn id with
      | error fault' =>
          rw [hfo] at hcase
          obtain rfl := Except.error.inj (hf.symm.trans hcase.2)
          exact hash?_of_found hfo
      | ok found =>
          rw [hfo] at hcase
          cases found with
          | none => cases hf.symm.trans hcase.2
          | some h =>
              obtain ⟨b, r, -, -, -, hans, -⟩ := hcase
              cases hf.symm.trans hans
  | modify id f =>
      obtain ⟨found, hfind, hp⟩ := Checked.bind_eq_ok.mp hp
      obtain rfl := Except.ok.inj ((ha.find_eq id).symm.trans hfind)
      cases hfo : t.found t.handlesIn id with
      | error fault' =>
          rw [hfo] at hp
          cases hp
          cases hf
          exact hash?_of_found hfo
      | ok found =>
          rw [hfo] at hp
          cases found <;> cases hp <;> cases hf
  | find id =>
      obtain ⟨found, hfind, hp⟩ := Checked.bind_eq_ok.mp hp
      obtain rfl := Except.ok.inj ((ha.find_eq id).symm.trans hfind)
      cases hp
      exact hash?_of_found hf
  | lookup id =>
      obtain ⟨answer, hl, hp⟩ := Checked.bind_eq_ok.mp hp
      obtain ⟨found, hfind, hl⟩ := Checked.bind_eq_ok.mp hl
      obtain rfl := Except.ok.inj ((ha.find_eq id).symm.trans hfind)
      cases hl
      cases hp
      exact hlookup hf
  | contains id =>
      obtain ⟨answer, hl, hp⟩ := Checked.bind_eq_ok.mp hp
      obtain ⟨found, hfind, hl⟩ := Checked.bind_eq_ok.mp hl
      obtain rfl := Except.ok.inj ((ha.find_eq id).symm.trans hfind)
      cases hl
      cases hp
      exact hlookup hf
  | verify =>
      obtain ⟨answer, hv, hp⟩ := Checked.bind_eq_ok.mp hp
      cases hp
      exact ha.verify_fault (hv.trans (congrArg Except.ok hf))
  | removeHandle h | traverse visit a =>
      obtain ⟨p, -, hp⟩ := Checked.bind_eq_ok.mp hp
      cases hp
      cases hf
  | modifyHandle h f | get h =>
      cases hp
      cases hf

end Accounted

/-! ## What a table is safe from -/

/-- All goes well with a table that has lost the resources of the handles `lost`. -/
structure Safe (t : Table ρ) (lost : List Handle) : Prop where
  /-- Every request but one to take out a lost resource by its handle is carried out, lowers no
  stored length below zero, and is cut short only by what may end it. -/
  requests : ∀ q : Request ρ ι, q.Spares lost →
    ∃ o, t.perform q = .ok o ∧ o.state.underflowed = false
      ∧ ∀ fault, o.answer = .error fault → t.MayEnd q fault
  /-- No stored length has been lowered below zero before. -/
  underflowed : t.underflowed = false
  /-- A cursor comes to a resource or to the end, unless it is resumed at the wrong time. -/
  cursors : ∀ (c : Cursor) fault, c.step t = .error fault →
    fault = .grown ∨ fault = .successorRemoved
  /-- An iterator comes to a resource or to the end. -/
  iterators : ∀ it : Iterator ρ, it.Over t → ∃ p, it.next = .ok p
  report : ∀ [Describe ρ] level, ∃ entries, t.report level = .ok entries
  /-- The masks, the cursor and the number of buckets fit together. -/
  check : t.geometry.check t.buckets.size = .ok ()
  /-- The masks can be held, and so can those of the next split, if there is one, and the number of
  buckets for which space is provided then. -/
  masks : t.geometry.lowMask ≤ t.geometry.highMask ∧ t.geometry.highMask < 2 ^ 64
  target : t.buckets.size < (Identifier.widths ι).mostBuckets →
    t.geometry.forSplit.highMask < 2 ^ 64 ∧ t.geometry.forSplit.target < 2 ^ 64
      ∧ t.buckets.size ≤ t.geometry.forSplit.target

theorem Accounted.safe {t : Table ρ} {lost : List Handle} (ha : t.Accounted lost) :
    t.Safe lost where
  requests _ hq := ha.perform_fault hq
  underflowed := ha.holds.underflowed
  cursors _ _ := Cursor.step_fault
  iterators it hit := by
    obtain ⟨p, hp, -⟩ := (hit.placed ha).next ha
    exact ⟨p, hp⟩
  report level := by
    unfold report
    rw [ha.toList_eq]
    by_cases hall : 3 ≤ level
    · simp only [if_pos hall]
      exact ⟨_, rfl⟩
    · simp only [if_neg hall]
      exact ⟨_, rfl⟩
  check := ha.level.elim fun _ hk => hk.check
  masks := by
    obtain ⟨k, hk⟩ := ha.level
    have hlow := hk.spans.low
    have hhigh := hk.spans.high
    have hpow : 2 ^ (k + 1) ≤ 2 ^ 63 := Nat.pow_le_pow_right (by decide) hk.level_lt
    rw [Nat.pow_succ] at hhigh hpow
    omega
  target hmost := by
    obtain ⟨k, hk⟩ := ha.level
    obtain ⟨hlt, htarget⟩ := hk.target_bounds hmost
    exact ⟨Nat.lt_of_succ_lt htarget, htarget, Nat.le_of_lt hlt⟩

end Table

/-! ## Every session and every run of a serial table -/

/-- The session with the table `t`, before any act. -/
def Session.over {ρ ι : Type} (t : Table ρ) : Session ρ ι := ⟨t, [], [], []⟩

section Sessions

variable {ρ ι : Type} [Resource ρ ι] [Identifier ι]

/-- A careful session with a table that has lost nothing. -/
theorem Table.Accounted.session {t : Table ρ} (ha : t.Accounted []) {acts : List (Act ρ ι)}
    (hc : (Session.over t : Session ρ ι).Careful acts) :
    ∃ s, (Session.over t : Session ρ ι).run acts = .ok s ∧ s.table.Safe s.lost
      ∧ ∀ ops, t.Spent ops → ops + acts.length < 2 ^ 64 →
          (Session.over t : Session ρ ι).Roomy acts → s.table.Fits := by
  have hkept : (Session.over t : Session ρ ι).Kept := ⟨ha, fun _ hm => absurd hm List.not_mem_nil⟩
  obtain ⟨s, hrun, hs⟩ := Session.Careful.run acts hkept hc
  refine ⟨s, hrun, hs.table.safe, fun ops hspent hops hroomy => ?_⟩
  have hsize : s.table.size ≤ mostResources := hroomy acts s (List.prefix_refl _) hrun
  exact (Session.run_spent acts hspent hroomy hrun).fits hops hsize hs.table

end Sessions

namespace SerialTable

variable {ρ : Type} [Serialized ρ]

/-- No request to a serial table is cut short. -/
theorem Steady.perform_ok {s : SerialTable ρ} (hs : s.Steady) (q : SerialRequest ρ) :
    ∃ o answer, s.perform q = .ok o ∧ o.answer = .ok answer := by
  rcases q.add_or_inside with ⟨granted, r, rfl⟩ | ⟨q', hin⟩
  · rcases hs.add granted r with ⟨-, hadd⟩ | ⟨o, passed, n, hadd, -, -, hans, -⟩
    · exact ⟨_, _, hadd, rfl⟩
    · exact ⟨o, _, hadd, hans⟩
  · obtain ⟨o, hp, -, hfault⟩ := hs.table.perform_fault q'.spares_nil
    obtain ⟨o', hp', -, -, herr⟩ := s.perform_inside hin hp
    cases hans : o'.answer with
    | ok answer => exact ⟨o', answer, hp', hans⟩
    | error fault =>
        have hmay := hfault fault (herr fault hans)
        have hsome : ∀ id : SerialId, Identifier.hash? id ≠ none := fun id hnone => by
          have hhash := LawfulIdentifier.hashable id
          rw [hnone] at hhash
          cases hhash
        cases q <;> cases hin
        · exact absurd hmay.2 (hsome _)
        · exact hmay.elim
        · exact absurd hmay.2 (hsome _)
        · exact hmay.elim
        · exact hmay.elim

/-- Every run comes to its end and leaves a steady table. -/
theorem Steady.run (qs : List (SerialRequest ρ)) :
    ∀ {s : SerialTable ρ}, s.Steady → ∃ s', s.run qs = .ok s' ∧ s'.Steady := by
  induction qs with
  | nil => exact fun {s} hs => ⟨s, rfl, hs⟩
  | cons q qs ih =>
      intro s hs
      obtain ⟨o, hp, hs₁, -⟩ := hs.perform q
      obtain ⟨s', hrun, hs'⟩ := ih hs₁
      exact ⟨s', (run_cons hp qs).trans hrun, hs'⟩

end SerialTable

open SerialTable in
/-- **Nothing goes wrong that a caller is not told of.** A session is carried out in which no
resource is taken out by its handle that has been lost by then, whatever becomes of memory,
identifiers and hashes. So is every run of a serial table, of any limit, with numbers changed in any
way, and no request to a serial table is cut short; and so is a session with the table that was
inside one. At any time, then, the table is safe: requests, cursors and iterators are cut short only
by the faults that a caller is told of, no stored length is lowered below zero, and the masks can be
held. If there have been fewer than `2 ^ 64` requests, and at no time more resources than there are
handles for, the counters can be held as well. -/
theorem run_safe {ρ ι σ : Type} [Resource ρ ι] [Identifier ι] [Serialized σ] :
    (∀ acts : List (Act ρ ι), (Session.fresh : Session ρ ι).Careful acts →
      ∃ s, (Session.fresh : Session ρ ι).run acts = .ok s ∧ s.table.Safe s.lost
        ∧ (acts.length < 2 ^ 64 → (Session.fresh : Session ρ ι).Roomy acts → s.table.Fits))
    ∧ ∀ (limit : UInt32) (qs : List (SerialRequest σ)),
      ∃ s, (withLimit limit : SerialTable σ).run qs = .ok s
        ∧ (∀ q, ∃ o answer, s.perform q = .ok o ∧ o.answer = .ok answer)
        ∧ (∀ number < s.limit, (number + 1).toNat = number.toNat + 1)
        ∧ s.table.Safe []
        ∧ (qs.length < 2 ^ 64 → (withLimit limit : SerialTable σ).Roomy qs → s.table.Fits)
        ∧ ∀ acts : List (Act σ SerialId), (Session.over s.table).Careful acts →
          ∃ s', (Session.over s.table).run acts = .ok s' ∧ s'.table.Safe s'.lost
            ∧ (qs.length + acts.length < 2 ^ 64 → (withLimit limit : SerialTable σ).Roomy qs →
                (Session.over s.table).Roomy acts → s'.table.Fits) := by
  refine ⟨fun acts hc => ?_, fun limit qs => ?_⟩
  · obtain ⟨s, hrun, hsafe, hfits⟩ := Table.accounted_new.session hc
    refine ⟨s, hrun, hsafe, fun hlength => hfits 0 Table.new_spent ?_⟩
    rwa [Nat.zero_add]
  · obtain ⟨s, hrun, hs⟩ := (withLimit_steady (ρ := σ) limit).run qs
    have hspent : (withLimit limit : SerialTable σ).Roomy qs → s.table.Spent qs.length :=
      fun hroomy => by
        have hall := (withLimit_steady limit).run_spent qs Table.new_spent hroomy hrun
        rwa [Nat.zero_add] at hall
    refine ⟨s, hrun, hs.perform_ok, fun number hlt => ?_, hs.table.safe, fun hlength hroomy => ?_,
      fun acts hc => ?_⟩
    · have hlt' := UInt32.lt_iff_toNat_lt.mp hlt
      have hlimit := s.limit.toNat_lt
      have hone : (1 : UInt32).toNat = 1 := rfl
      rw [UInt32.toNat_add, hone, Nat.mod_eq_of_lt (by omega)]
    · exact (hspent hroomy).fits hlength (hroomy qs s (List.prefix_refl _) hrun) hs.table
    · obtain ⟨s', hrun', hsafe, hfits⟩ := hs.table.session hc
      exact ⟨s', hrun', hsafe, fun hlength hroomy => hfits _ (hspent hroomy) hlength⟩

/-- A session with a split that is cut short, and one that goes on from a serial table. -/
theorem run_safe_retraced :
    (∃ s, (Session.fresh : Session (Record Table.WideId) Table.WideId).run Session.retraced = .ok s
      ∧ s.lost = [⟨1⟩] ∧ s.table.Safe s.lost ∧ s.table.Fits)
    ∧ ∃ s, (SerialTable.withLimit 3 : SerialTable (Record SerialId)).run SerialTable.renumbered
        = .ok s
      ∧ ∃ s', (Session.over s.table).run [.start, .resume 0, .request .verify] = .ok s'
        ∧ s'.table.Safe s'.lost := by
  obtain ⟨hsessions, hserial⟩ :=
    run_safe (ρ := Record Table.WideId) (σ := Record SerialId)
  constructor
  · obtain ⟨s, hrun, hsafe, hfits⟩ := hsessions Session.retraced Session.careful_retraced
    have hlost : ((Session.fresh : Session (Record Table.WideId) Table.WideId).run
        Session.retraced).map Session.lost = .ok [⟨1⟩] := rfl
    rw [hrun] at hlost
    have hroomy : (Session.fresh : Session (Record Table.WideId) Table.WideId).Roomy
        Session.retraced := Session.roomy_of_length (by decide)
    exact ⟨s, hrun, Except.ok.inj hlost, hsafe, hfits (by decide) hroomy⟩
  · obtain ⟨s, hrun, -, -, -, -, hover⟩ := hserial 3 SerialTable.renumbered
    have hcareful : (Session.over s.table : Session (Record SerialId) SerialId).Careful
        [.start, .resume 0, .request .verify] :=
      ⟨nofun, fun _ _ => ⟨nofun, fun _ _ => ⟨by rintro q ⟨⟩; trivial, fun _ _ => trivial⟩⟩⟩
    obtain ⟨s', hrun', hsafe, -⟩ := hover _ hcareful
    exact ⟨s, hrun, s', hrun', hsafe⟩

end ResourceIndex
