import ResourceIndex.Proofs.Aftermath

set_option autoImplicit false

/-! # What a cursor returns twice

A cursor goes by the epoch of the table, which moves on when a resource has been installed or a
bucket has been split to the end. A split that is cut short has handed on handles of its bucket,
but the epoch is the one there was. So a cursor is turned away exactly when something has been
gained since it was made (`Reader.Dated`), and a split cut short is not among that: the cursor goes
on in buckets that are not the ones it was made for, and may come to a handle again
(`Session.run_retraced`).

This is the only way to it. The main statement is `Session.run_unrepeated`: a cursor returns no
handle twice as long as nothing has been lost since it was made, whatever had been lost before.
-/

namespace ResourceIndex

variable {ρ ι : Type}

/-- The reader takes note of all that is gained, and it is sound while nothing more is lost than
had been when it was made. -/
structure Reader.Followed [Resource ρ ι] [Identifier ι] (s : Session ρ ι) (rd : Reader ρ ι) :
    Prop where
  missing : rd.missing <+: s.lost
  dated : rd.Dated s.table
  sound : rd.missing = s.lost → rd.Sound s.table

namespace Reader.Followed

variable [Resource ρ ι] [Identifier ι] {s s' : Session ρ ι} {rd : Reader ρ ι}

theorem start (hs : s.Kept) : (Reader.start s.table s.lost : Reader ρ ι).Followed s :=
  ⟨List.prefix_refl _, .start _ _, fun _ => .start hs.table⟩

/-- The cursor is resumed. -/
theorem resume (hrd : rd.Followed s) (hs : s.Kept) : (rd.resume s.table).Followed s := by
  have hmissing := rd.missing_resume s.table
  refine ⟨by rw [hmissing]; exact hrd.missing, hrd.dated.resume, fun hall => ?_⟩
  rw [hmissing] at hall
  exact (hrd.sound hall).resume hs.table

/-- The table stays as it is. -/
theorem congr (hrd : rd.Followed s) (ht : s'.table = s.table) (hl : s'.lost = s.lost) :
    rd.Followed s' := by
  obtain ⟨hmissing, hdated, hsound⟩ := hrd
  rw [← hl] at hmissing hsound
  rw [← ht] at hdated hsound
  exact ⟨hmissing, hdated, hsound⟩

/-- A request is carried out. -/
theorem note (hrd : rd.Followed s) (hs : s.Kept) {q : Request ρ ι} (hq : q.Spares s.lost)
    {o : Outcome (Table ρ) q.Answer} (hp : s.table.perform q = .ok o) (ht : s'.table = o.state)
    (hl : s'.lost = s.lost ++ s.table.castOff q) :
    (rd.note ⟨q, o.answer, o.events⟩).Followed s' := by
  obtain ⟨o', hp', -, hcase⟩ := hs.table.perform hq
  obtain rfl : o' = o := Except.ok.inj (hp'.symm.trans hp)
  have hdated : (rd.note ⟨q, o'.answer, o'.events⟩).Dated o'.state := by
    refine hrd.dated.note ?_
    rcases hcase with ⟨he, -, hg⟩ | ⟨hlt, -, hg⟩ | ⟨-, -, hepoch, hg⟩
    · exact Or.inl ⟨(hs.table.edits he).2.epoch, hg⟩
    · exact Or.inr ⟨hlt, hg⟩
    · exact Or.inl ⟨hepoch, hg⟩
  refine ⟨by rw [hl]; exact hrd.missing.trans (List.prefix_append _ _),
    by rw [ht]; exact hdated, fun hall => ?_⟩
  -- if nothing has been lost since, then nothing has been lost now
  have hall' : rd.missing = s.lost ++ s.table.castOff q := hall.trans hl
  have hlength := hrd.missing.length_le
  rw [hall', List.length_append] at hlength
  have hcast : s.table.castOff q = [] := List.length_eq_zero_iff.mp (by omega)
  rw [hcast, List.append_nil] at hall'
  rw [ht]
  refine (hrd.sound hall').note hs.table ?_
  rcases hcase with ⟨he, -, hg⟩ | ⟨hlt, -, hg⟩ | ⟨-, hne, -⟩
  · exact Or.inl ⟨he, hg⟩
  · exact Or.inr ⟨hlt, hg⟩
  · exact absurd hcast hne

end Reader.Followed

namespace Session

variable [Resource ρ ι] [Identifier ι]

/-- In a careful session every reader is followed. -/
theorem Kept.act_followed {s s' : Session ρ ι} {a : Act ρ ι} (hs : s.Kept)
    (ha : ∀ q, a = .request q → q.Spares s.lost) (hall : ∀ rd ∈ s.readers, rd.Followed s)
    (hact : s.act a = .ok s') : ∀ rd ∈ s'.readers, rd.Followed s' := by
  intro rd hm
  rcases act_cases hact with ⟨q, o, rfl, hp, ht, hl, -, hr⟩ | ⟨ht, hl, -, hr⟩
  · rw [hr] at hm
    obtain ⟨rd', hm', rfl⟩ := List.mem_map.mp hm
    exact (hall rd' hm').note hs (ha q rfl) hp ht hl
  · rcases hr rd hm with hm | rfl | ⟨rd', hm', rfl⟩
    · exact (hall rd hm).congr ht hl
    · exact (Reader.Followed.start hs).congr ht hl
    · exact ((hall rd' hm').resume hs).congr ht hl

/-- **What a cursor does not return twice.** In a session requests of every kind are carried out
and cursors are made, copied and resumed, with identifiers that cannot be hashed among others; only
is no resource taken out by its handle that has been lost by then. At any time, then, a cursor is
turned away if something has been gained since it was made and only then, and the handles it has
returned are distinct and in the order of traversal unless something has been lost since it was
made. -/
theorem run_unrepeated {acts : List (Act ρ ι)} (hc : (fresh : Session ρ ι).Careful acts) :
    ∃ s, (fresh : Session ρ ι).run acts = .ok s ∧ ∀ rd ∈ s.readers,
      (rd.cursor.step s.table = .error .grown ↔ ∃ x ∈ rd.since, x.Gains)
        ∧ (rd.missing = s.lost → rd.returned.Nodup ∧ rd.returned.Sublist rd.origin.order) := by
  obtain ⟨s, hrun, -, hall⟩ := Careful.preserves
    (P := fun s => ∀ rd ∈ s.readers, rd.Followed s) Kept.act_followed acts fresh_kept nofun hc
  refine ⟨s, hrun, fun rd hm => ⟨(hall rd hm).dated.step_eq_grown_iff, fun hmissing => ?_⟩⟩
  have hsound := (hall rd hm).sound hmissing
  exact ⟨hsound.nodup_returned, hsound.returned⟩

/-- A cursor has returned the first of two resources when a split is cut short that has handed
this one on and not the other. It goes on to the other one, and from there to the next bucket. -/
def retraced : List (Act (Record Table.WideId) Table.WideId) :=
  [.request (.add true ⟨⟨some 1, some 1⟩, "a"⟩), .request (.add true ⟨⟨some 2, some 0⟩, "b"⟩),
    .start, .resume 0, .request (.modifyHandle ⟨1⟩ fun r => { r with id := ⟨some 2, none⟩ }),
    .request (.add true ⟨⟨some 3, some 0⟩, "c"⟩), .resume 0, .resume 0, .start, .resume 1]

theorem careful_retraced :
    (fresh : Session (Record Table.WideId) Table.WideId).Careful retraced :=
  ⟨by rintro q ⟨⟩; trivial, fun _ _ => ⟨by rintro q ⟨⟩; trivial, fun _ _ => ⟨nofun, fun _ _ =>
    ⟨nofun, fun _ _ => ⟨by rintro q ⟨⟩; trivial, fun _ _ => ⟨by rintro q ⟨⟩; trivial, fun _ _ =>
      ⟨nofun, fun _ _ => ⟨nofun, fun _ _ => ⟨nofun, fun _ _ => ⟨nofun, fun _ _ =>
        trivial⟩⟩⟩⟩⟩⟩⟩⟩⟩⟩

/-- The cursor has returned the first resource twice. -/
theorem run_retraced :
    (fresh : Session (Record Table.WideId) Table.WideId).Careful retraced
      ∧ ∃ s, (fresh : Session (Record Table.WideId) Table.WideId).run retraced = .ok s
        ∧ ∃ rd ∈ s.readers, rd.returned = [⟨0⟩, ⟨1⟩, ⟨0⟩] ∧ ¬ rd.returned.Nodup := by
  refine ⟨careful_retraced, ?_⟩
  have hreturned : ((fresh : Session (Record Table.WideId) Table.WideId).run retraced).map
      (fun s => s.readers.map Reader.returned) = .ok [[⟨0⟩, ⟨1⟩, ⟨0⟩], [⟨0⟩]] := rfl
  obtain ⟨s, hrun⟩ :
      ∃ s, (fresh : Session (Record Table.WideId) Table.WideId).run retraced = .ok s := ⟨_, rfl⟩
  rw [hrun] at hreturned
  obtain ⟨rd, hm, hrd⟩ := List.mem_map.mp ((Except.ok.inj hreturned) ▸ List.mem_cons_self)
  refine ⟨s, hrun, rd, hm, hrd, ?_⟩
  rw [hrd]
  decide

/-- The other cursor was made after the loss. -/
theorem run_unrepeated_retraced :
    (fresh : Session (Record Table.WideId) Table.WideId).Careful retraced
      ∧ ∃ s, (fresh : Session (Record Table.WideId) Table.WideId).run retraced = .ok s
        ∧ ∃ rd ∈ s.readers, rd.missing = [⟨1⟩] ∧ s.lost = [⟨1⟩] ∧ rd.returned.Nodup
          ∧ rd.cursor.step s.table ≠ .error .grown := by
  obtain ⟨s, hrun, hall⟩ := run_unrepeated careful_retraced
  have hstate : ((fresh : Session (Record Table.WideId) Table.WideId).run retraced).map
      (fun s => (s.lost, (s.readers.drop 1).map fun rd => (rd.missing, rd.since))) =
      .ok ([⟨1⟩], [([⟨1⟩], [])]) := rfl
  rw [hrun] at hstate
  obtain ⟨hlost, hreaders⟩ := Prod.mk.inj (Except.ok.inj hstate)
  have hmem := List.mem_map.mp (hreaders ▸ List.mem_cons_self)
  obtain ⟨rd, hm, hrd⟩ := hmem
  obtain ⟨hmissing, hsince⟩ := Prod.mk.inj hrd
  obtain ⟨hgrown, hdistinct⟩ := hall rd (List.mem_of_mem_drop hm)
  refine ⟨careful_retraced, s, hrun, rd, List.mem_of_mem_drop hm, hmissing, hlost,
    (hdistinct (hmissing.trans hlost.symm)).1, fun hstep => ?_⟩
  obtain ⟨x, hx, -⟩ := hgrown.mp hstep
  rw [hsince] at hx
  cases hx

end Session

end ResourceIndex
