import ResourceIndex.Proofs.Counter

set_option autoImplicit false

/-! # When the attempts come to an end

A serial table goes on trying numbers until one is not in use. Callers may have given any numbers to
installed resources, and each attempt may split a bucket and so bring resources back into the
buckets that their numbers belong in. Whatever numbers turn out to be in use on the way, each of
them belongs to a resource of its own, so there is an end to it (`SerialTable.run_settles`).

The number of attempts is bounded in `SerialTable.addWithin`. It could do without: attempts that
come to an end within one bound do so after the same number of attempts within every other that
leaves room for these (`SerialTable.addWithin_eq`).
-/

namespace ResourceIndex

namespace SerialTable

variable {ρ : Type}

/-- The attempts that came to nothing, by what was logged of them. -/
def retries {α : Type} (o : Outcome (SerialTable ρ) α) : Nat :=
  o.events.countP fun e => e.retried?.isSome

variable [Serialized ρ]

/-- An attempt does not log that it came to nothing: this is up to the loop. -/
theorem retries_attempt {s : SerialTable ρ} {granted : Bool} {r : ρ}
    {o : Outcome (SerialTable ρ) (Admission ρ)} (ha : s.attempt granted r = .ok o) :
    retries o = 0 := by
  obtain ⟨outcome, hadd, ha⟩ := Checked.bind_eq_ok.mp ha
  cases ha
  refine List.countP_eq_zero.mpr fun e hm => ?_
  rcases List.mem_append.mp hm with hm | hm
  · unfold wrapEvents at hm
    split at hm
    · obtain rfl := List.mem_singleton.mp hm
      nofun
    · cases hm
  · rw [(Table.add_quiet hadd e hm).1]
    nofun

/-- **The bound is not what ends the loop.** Attempts that come to an end do so after one more than
were in vain: any bound that leaves room for these has the same outcome, and any other is too
small. -/
theorem addWithin_eq (bound : Nat) :
    ∀ {granted : Nat → Bool} {s : SerialTable ρ} {r : ρ}
      {o : Outcome (SerialTable ρ) (Numbering ρ)}, addWithin bound granted s r = .ok o →
      ∀ b, addWithin b granted s r = if b ≤ retries o then .error .endlessRetry else .ok o := by
  induction bound with
  | zero =>
      intro granted s r o h
      cases h
  | succ bound ih =>
      intro granted s r o h b
      obtain ⟨first, hatt, h⟩ := Checked.bind_eq_ok.mp h
      have hquiet := retries_attempt hatt
      -- whatever the bound is, the first attempt is the same
      rcases hans : first.answer with fault | (handle | rejected)
      · rw [hans] at h
        cases h
        have hnone : retries { first with answer := (.error fault : Except Fault (Numbering ρ)) }
            = 0 := hquiet
        rw [hnone]
        cases b with
        | zero => rfl
        | succ b =>
            rw [addWithin, hatt, Checked.ok_bind, hans, if_neg (Nat.not_succ_le_zero b)]
            rfl
      · rw [hans] at h
        cases h
        have hnone : retries { first with answer := (.ok (.numbered ⟨s.next⟩) :
            Except Fault (Numbering ρ)) } = 0 := hquiet
        rw [hnone]
        cases b with
        | zero => rfl
        | succ b =>
            rw [addWithin, hatt, Checked.ok_bind, hans, if_neg (Nat.not_succ_le_zero b)]
            rfl
      · rw [hans] at h
        obtain ⟨rest, hrest, h⟩ := Checked.bind_eq_ok.mp h
        cases h
        have hmore : retries { rest with
            events := first.events ++ .numberInUse s.next :: rest.events } = retries rest + 1 := by
          unfold retries at hquiet ⊢
          rw [List.countP_append, hquiet, Nat.zero_add, List.countP_cons]
          rfl
        rw [hmore]
        cases b with
        | zero => rfl
        | succ b =>
            rw [addWithin, hatt, Checked.ok_bind, hans]
            dsimp only
            rw [ih hrest b]
            by_cases hle : b ≤ retries rest
            · rw [if_pos hle, if_pos (Nat.succ_le_succ hle)]
              rfl
            · rw [if_neg hle, if_neg fun h => hle (Nat.le_of_succ_le_succ h)]
              rfl

/-- **The attempts at a resource come to an end**, in every state that a run of requests leaves
behind, whatever numbers callers have given to installed resources and whatever becomes of the memory
that each attempt asks for. There are none if there are as many resources as numbers. Otherwise
there is a number left for one more resource, and the resource is given one after no more attempts
than there are resources, and one more; a bound on the attempts that leaves room for these makes no
difference. -/
theorem run_settles (limit : UInt32) (qs : List (SerialRequest ρ)) :
    ∃ log s, (withLimit limit : SerialTable ρ).record qs = .ok (log, s) ∧ s.limit = limit
      ∧ ∀ (granted : Nat → Bool) (r : ρ),
        (limit.toNat ≤ s.table.size →
          s.add granted r = .ok { state := s, answer := .ok (.exhausted r) })
        ∧ (s.table.size < limit.toNat → s.table.size + 1 ≤ limit.toNat
          ∧ ∃ tries o id, tries ≤ s.table.size + 1 ∧ tries = retries o + 1
            ∧ (∀ bound, addWithin bound granted s r =
                if bound < tries then .error .endlessRetry else .ok o)
            ∧ s.add granted r = .ok o ∧ o.answer = .ok (.numbered id)) := by
  obtain ⟨log, s, hr, hs, hlimit, -⟩ := (withLimit_steady (ρ := ρ) limit).record qs
  have hlimit' : s.limit = limit := hlimit
  refine ⟨log, s, hr, hlimit', fun granted r => ⟨fun hfull => ?_, fun hroom => ⟨hroom, ?_⟩⟩⟩
  · exact if_pos (hlimit'.symm ▸ hfull)
  · have hnot : ¬ s.limit.toNat ≤ s.table.size := by
      rw [hlimit']
      exact Nat.not_le_of_lt hroom
    rcases hs.add granted r with ⟨hfull, -⟩ | ⟨o, passed, n, hadd, -, -, hans, hle, hpassed, -⟩
    · exact absurd hfull hnot
    · have hretries : retries o = passed.length := by
        rw [← hpassed, List.length_filterMap_eq_countP]
        rfl
      have hwithin : addWithin (s.table.size + 1) granted s r = .ok o :=
        (if_neg hnot).symm.trans hadd
      refine ⟨retries o + 1, o, ⟨n⟩, by omega, rfl, fun bound => ?_, hadd, hans⟩
      rw [addWithin_eq _ hwithin bound]
      simp only [Nat.lt_succ_iff]

/-- The second resource is given a number out of range while a third one takes the last number and is
taken out again, and is then given its own number back. The counter is about to start over. -/
def exchanged : List (SerialRequest (Record SerialId)) :=
  [.add (fun _ => true) ⟨.unassigned, "first"⟩, .add (fun _ => true) ⟨.unassigned, "second"⟩,
    .modifyHandle ⟨1⟩ fun r => { r with id := ⟨7⟩ },
    .add (fun _ => true) ⟨.unassigned, "third"⟩, .removeHandle ⟨2⟩,
    .modifyHandle ⟨1⟩ fun r => { r with id := ⟨2⟩ }]

/-- Both installed resources are met before a number is left for a third one. -/
theorem run_settles_exchanged : ∃ log s,
    (withLimit 3 : SerialTable (Record SerialId)).record exchanged = .ok (log, s)
      ∧ s.table.size < (3 : UInt32).toNat
      ∧ ∃ tries o id, tries ≤ 2 + 1
        ∧ s.add (fun _ => false) ⟨.unassigned, "fourth"⟩ = .ok o ∧ o.answer = .ok (.numbered id)
        ∧ id = ⟨3⟩ ∧ tries = 3
        ∧ addWithin 2 (fun _ => false) s ⟨.unassigned, "fourth"⟩ = .error .endlessRetry := by
  obtain ⟨log, s, hr, -, hsettles⟩ := run_settles (ρ := Record SerialId) 3 exchanged
  have hseen : ((withLimit 3 : SerialTable (Record SerialId)).record exchanged).map
      (fun p => (p.2.table.size,
        (p.2.add (fun _ => false) ⟨.unassigned, "fourth"⟩).map fun o =>
          (o.answer.toOption.map fun
            | .numbered id => id.number
            | .exhausted _ => 0, retries o))) =
      .ok (2, .ok (some 3, 2)) := by decide +kernel
  rw [hr] at hseen
  obtain ⟨hsize, hadded⟩ := Prod.mk.inj (Except.ok.inj hseen)
  have hroom : s.table.size < (3 : UInt32).toNat := by
    rw [show s.table.size = 2 from hsize]
    decide
  obtain ⟨-, tries, o, id, hle, htries, hbound, hadd, hans⟩ := (hsettles _ _).2 hroom
  rw [show s.table.size = 2 from hsize] at hle
  have hadded' : (s.add (fun _ => false) ⟨.unassigned, "fourth"⟩).map (fun o =>
      (o.answer.toOption.map fun
        | .numbered id => id.number
        | .exhausted _ => 0, retries o)) = .ok (some 3, 2) := hadded
  rw [hadd] at hadded'
  obtain ⟨hid, hcount⟩ := Prod.mk.inj (Except.ok.inj hadded')
  rw [hans] at hid
  have hthree : tries = 3 := htries.trans (congrArg (· + 1) hcount)
  refine ⟨log, s, hr, hroom, tries, o, id, hle, hadd, hans, ?_, hthree, ?_⟩
  · cases id
    exact congrArg SerialId.mk (Option.some.inj hid)
  · rw [hbound, hthree]
    rfl

end SerialTable

end ResourceIndex
