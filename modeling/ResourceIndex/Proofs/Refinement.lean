import Mathlib.Data.List.Find
import ResourceIndex.Identifier.Name
import ResourceIndex.Identifier.Serial
import ResourceIndex.Record
import ResourceIndex.Proofs.Arrangement

set_option autoImplicit false

/-! # Tables as finite maps

An identifier is lawful when answering to one another is symmetric and transitive, identifiers
that answer to one another have equal hashes, and every identifier can be hashed. It need not
answer to itself. As long as no identifier is changed in place, a table keyed by lawful
identifiers is a finite map: `run_refines` says that every run is one of a ledger in which no two
rows answer to one another and each lookup finds the one row that answers, if there is one.

Nothing is asked of how the hash spreads, so that it may as well be constant; nor of how many
buckets a table may have, nor of the memory granted to it.
-/

namespace ResourceIndex

/-- Answering to one another is symmetric and transitive and goes with equal hashes, of which
there is always one. -/
class LawfulIdentifier (ι : Type) [Identifier ι] : Prop where
  symm : ∀ {a b : ι}, Identifier.same a b → Identifier.same b a
  trans : ∀ {a b c : ι}, Identifier.same a b → Identifier.same b c → Identifier.same a c
  hash_eq : ∀ {a b : ι}, Identifier.same a b → Identifier.hash? a = Identifier.hash? b
  hashable : ∀ a : ι, (Identifier.hash? a).isSome

/-! ## Lawful identifiers -/

/-- An integer answers to itself alone. -/
theorem NumberId.same_iff {k : NumberKind} {a b : NumberId k} :
    Identifier.same a b ↔ a = b := by
  cases a
  cases b
  simp only [Identifier.same, beq_iff_eq, NumberId.mk.injEq]

instance (k : NumberKind) : LawfulIdentifier (NumberId k) where
  symm h := NumberId.same_iff.mpr (NumberId.same_iff.mp h).symm
  trans h₁ h₂ := NumberId.same_iff.mpr ((NumberId.same_iff.mp h₁).trans (NumberId.same_iff.mp h₂))
  hash_eq h := by rw [NumberId.same_iff.mp h]
  hashable _ := rfl

/-- A serial number answers to itself alone. -/
theorem SerialId.same_iff {a b : SerialId} : Identifier.same a b ↔ a = b := by
  show Identifier.same a.toNumberId b.toNumberId ↔ a = b
  rw [NumberId.same_iff]
  constructor
  · intro h
    cases a
    cases b
    exact congrArg SerialId.mk (UInt32.toBitVec_inj.mp (congrArg NumberId.pattern h))
  · exact congrArg SerialId.toNumberId

instance : LawfulIdentifier SerialId where
  symm h := LawfulIdentifier.symm (ι := NumberId serialKind) h
  trans h₁ h₂ := LawfulIdentifier.trans (ι := NumberId serialKind) h₁ h₂
  hash_eq h := LawfulIdentifier.hash_eq (ι := NumberId serialKind) h
  hashable _ := rfl

/-- Two names answer to one another when both have a text and it is the same. -/
theorem NameId.same_iff {a b : NameId} :
    Identifier.same a b ↔ a.text?.isSome ∧ a.text? = b.text? := by
  simp only [Identifier.same]
  cases a.text? <;> cases b.text? <;> simp

instance : LawfulIdentifier NameId where
  symm h := by
    obtain ⟨hs, he⟩ := NameId.same_iff.mp h
    exact NameId.same_iff.mpr ⟨he ▸ hs, he.symm⟩
  trans h₁ h₂ := by
    obtain ⟨hs, he₁⟩ := NameId.same_iff.mp h₁
    obtain ⟨-, he₂⟩ := NameId.same_iff.mp h₂
    exact NameId.same_iff.mpr ⟨hs, he₁.trans he₂⟩
  hash_eq {a b} h := by
    obtain ⟨-, he⟩ := NameId.same_iff.mp h
    show some (match a.text? with | none => 0 | some text => NameId.hashText text) = _
    rw [he]
    rfl
  hashable _ := rfl

variable {ρ ι : Type} [Resource ρ ι]

/-! ## Ledgers without equal identifiers -/

namespace Ledger

variable {m m' : Ledger ρ}

/-- Striking rows, and changing resources but not their identifiers, leaves some of these. -/
theorem Edits.ids_sublist (ho : m.Ordered)
    (he : Edits (fun r r' => Resource.id r' = Resource.id r) m m') :
    (m'.resources.map Resource.id).Sublist (m.resources.map Resource.id) := by
  induction he with
  | refl => exact List.Sublist.refl _
  | erase h he ih => exact ((List.filter_sublist.map _).map _).trans ih
  | @change m' h f hf he ih =>
      have hsame : (m'.change h f).resources.map Resource.id = m'.resources.map Resource.id := by
        unfold resources Ledger.change
        rw [List.map_map, List.map_map, List.map_map]
        apply List.map_congr_left
        intro row hm
        show Resource.id (if row.1 = h then f row.2 else row.2) = Resource.id row.2
        split
        · rename_i hh
          refine hf row.2 ?_
          rw [← hh]
          exact (mem_rows (ho.edits he).handles_nodup).mp hm
        · rfl
      rw [hsame]
      exact ih

variable [Identifier ι]

/-- No two rows answer to one another. -/
def Distinct (m : Ledger ρ) : Prop :=
  (m.resources.map Resource.id).Pairwise fun a b => ¬ Identifier.same a b

/-- A resource is added to the map when no row answers to its identifier. -/
theorem Distinct.add (hd : m.Distinct) {r : ρ} (hn : m.under? (Resource.id r) = none)
    (h : Handle) : (m.add h r).Distinct := by
  unfold Distinct resources Ledger.add
  rw [List.map_append, List.map_append, List.pairwise_append]
  refine ⟨hd, List.pairwise_singleton _ _, ?_⟩
  intro a ha b hb
  obtain rfl : b = Resource.id r := by simpa using hb
  obtain ⟨r', hr', rfl⟩ := List.mem_map.mp ha
  obtain ⟨row, hrow, rfl⟩ := List.mem_map.mp hr'
  exact List.find?_eq_none.mp hn row hrow

/-- **A map stays a map** with every step that changes no identifier. -/
theorem Distinct.step (hd : m.Distinct) (ho : m.Ordered) {x : Exchange ρ ι}
    (hs : Step Finds m x m') (hx : x.request.KeepsIds) : m'.Distinct := by
  rcases hs.cases hx with ⟨h, r, -, hf, -, rfl⟩ | ⟨-, he⟩
  · refine hd.add ?_ h
    have hnone : (m.under? (Resource.id r)).map Prod.fst = none :=
      (Except.ok.inj hf).symm
    exact Option.map_eq_none_iff.mp hnone
  · exact List.Pairwise.sublist (he.ids_sublist ho) hd

variable [LawfulIdentifier ι]

/-- **The row that answers** to an identifier is the only one. -/
theorem Distinct.under?_eq (hd : m.Distinct) {row : Handle × ρ} (hm : row ∈ m.rows) {id : ι}
    (hs : Identifier.same (Resource.id row.2) id) : m.under? id = some row := by
  cases hf : m.under? id with
  | none => exact absurd hs (List.find?_eq_none.mp hf row hm)
  | some first =>
      obtain ⟨hsame, as, bs, hrows, has⟩ := List.find?_eq_some_iff_append.mp hf
      have hpair := hd
      unfold Distinct resources at hpair
      rw [hrows] at hm hpair
      rw [List.map_map, List.map_append, List.map_cons, List.pairwise_append,
        List.pairwise_cons] at hpair
      obtain ⟨-, ⟨hafter, -⟩, -⟩ := hpair
      rcases List.mem_append.mp hm with hm | hm
      · have hno := has row hm
        rw [hs] at hno
        cases hno
      · rcases List.mem_cons.mp hm with rfl | hm
        · rfl
        · -- a second row would answer to the first
          have hboth := LawfulIdentifier.trans hsame (LawfulIdentifier.symm hs)
          exact absurd hboth (hafter _ (List.mem_map_of_mem hm))

end Ledger

namespace Table

variable [Identifier ι]

/-! ## Lookups -/

/-- **A lookup finds the row that answers**, since it is in the bucket looked in. -/
theorem Agrees.finds [LawfulIdentifier ι] {m : Ledger ρ} {t : Table ρ}
    {lists : Nat → List Handle} (ha : Agrees True m t lists) (id : ι) :
    m.Finds id (t.found lists id) := by
  obtain ⟨hash, hh⟩ := Option.isSome_iff_exists.mp (LawfulIdentifier.hashable id)
  have hb : t.address? id = some (t.geometry.route hash) := by
    unfold address?
    rw [hh]
    rfl
  have hrow : (lists (t.geometry.route hash)).find? (t.answers id) =
      ((t.named (lists (t.geometry.route hash))).find?
        fun row => Identifier.same (Resource.id row.2) id).map Prod.fst := by
    rw [← find?_rows, ← map_rows, List.find?_map, Option.map_map]
    rfl
  unfold Ledger.Finds found
  rw [hb]
  dsimp only
  rw [hrow, ha.named_lists trivial, List.find?_filter]
  congr 2
  -- a row that answers has the hash of the identifier, so it belongs in the bucket looked in
  apply List.find?_congr
  intro row _
  cases hs : Identifier.same (Resource.id row.2) id with
  | false => simp
  | true =>
      have haddr : t.address? (Resource.id row.2) = some (t.geometry.route hash) := by
        unfold address?
        rw [LawfulIdentifier.hash_eq hs]
        exact hb
      simp [haddr]

/-! ## Every run -/

/-- A run goes on as one of the ledger, from any table that agrees with one. -/
theorem Agrees.run_distinct [LawfulIdentifier ι] {m : Ledger ρ} {t : Table ρ}
    {lists : Nat → List Handle} (ha : Agrees True m t lists) (hd : m.Distinct)
    (qs : List (Request ρ ι)) (hqs : ∀ q ∈ qs, q.KeepsIds) :
    ∃ exchanges t' m', t.run qs = .ok (exchanges, t')
      ∧ exchanges.map Exchange.request = qs
      ∧ Follows (fun m x m' => m.Distinct ∧ Ledger.Step Ledger.Finds m x m') m exchanges m'
      ∧ m'.Distinct ∧ ∃ lists', Agrees True m' t' lists' := by
  refine run_follows (I := fun m t => m.Distinct ∧ ∃ lists, Agrees True m t lists) ?_ qs hqs
    ⟨hd, lists, ha⟩
  rintro m t q hq ⟨hd, lists, ha⟩
  obtain ⟨o, m', hp, hs, ha'⟩ := ha.perform (fun ha id => ha.finds id) hq.keepsHashable
    fun _ => hq
  exact ⟨o, m', hp, ⟨hd, hs⟩, hd.step ha.ordered hs hq, ha'⟩

/-- **A table is a finite map**, through every run of requests to a fresh one that change no
identifier. The exchanges are those of a ledger whose lookups find the row that answers, of
which there is never more than one, and the table names and counts what the ledger does. A
handle whose resource is gone names nothing however the run goes on. -/
theorem run_refines [LawfulIdentifier ι] (qs : List (Request ρ ι))
    (hqs : ∀ q ∈ qs, q.KeepsIds) :
    ∃ exchanges t m, (new : Table ρ).run qs = .ok (exchanges, t)
      ∧ exchanges.map Exchange.request = qs
      ∧ Follows (fun m x m' => m.Distinct ∧ Ledger.Step Ledger.Finds m x m') {} exchanges m
      ∧ (∀ h, t.get? h = m.get? h) ∧ t.size = m.rows.length
      ∧ (∀ id, t.find id = .ok (.ok ((m.under? id).map Prod.fst)))
      ∧ (∀ row ∈ m.rows, ∀ id, Identifier.same (Resource.id row.2) id →
          m.under? id = some row)
      ∧ ∀ more exchanges' t', (∀ q ∈ more, q.KeepsIds) → t.run more = .ok (exchanges', t') →
          ∀ h ∈ exchanges.filterMap Ledger.issued?, t.get? h = none → t'.get? h = none := by
  have hblank : Agrees True {} (new : Table ρ) fun _ => [] :=
    agrees_of_empty True new_atLevel rfl rfl rfl
  obtain ⟨exchanges, t, m, hrun, hreq, hfollows, hd, lists, ha⟩ :=
    hblank.run_distinct List.Pairwise.nil qs hqs
  refine ⟨exchanges, t, m, hrun, hreq, hfollows, ha.get, ?_, fun id => ?_,
    fun row hm id hs => hd.under?_eq hm hs, ?_⟩
  · rw [ha.size]
    exact List.length_map _
  · rw [ha.find_eq, ha.finds id]
  · intro more exchanges' t' hmore hrun' h hh hn
    have hsteps := Follows.mono (fun _ _ _ hs => hs.2) exchanges hfollows
    obtain ⟨-, hissued⟩ := Ledger.Follows.ordered exchanges hblank.ordered hsteps
    obtain ⟨xs, t₂, m', hrun₂, -, hfollows', -, lists', ha'⟩ := ha.run_distinct hd more hmore
    have heq := Except.ok.inj (hrun'.symm.trans hrun₂)
    obtain ⟨rfl, rfl⟩ := Prod.mk.inj heq
    rw [ha'.get]
    rw [ha.get] at hn
    have hmem : h ∈ m.issued := by
      rw [hissued]
      exact List.mem_append_right _ hh
    exact Ledger.Follows.stale exchanges' hmem hn
      (Follows.mono (fun _ _ _ hs => hs.2) exchanges' hfollows')

/-- Two resources without a name, which do not answer to one another, and what becomes of them. -/
def nameless : List (Request (Record NameId) NameId) :=
  [.add true ⟨.null, "first"⟩, .add false ⟨.null, "second"⟩,
    .modifyHandle ⟨0⟩ fun r => { r with tag := "changed" }, .find .null, .removeHandle ⟨1⟩,
    .get ⟨1⟩]

theorem run_refines_nameless : (∀ q ∈ nameless, q.KeepsIds)
    ∧ ∃ exchanges t m, (new : Table (Record NameId)).run nameless = .ok (exchanges, t)
      ∧ Follows (fun m x m' => m.Distinct ∧ Ledger.Step Ledger.Finds m x m') {} exchanges m
      ∧ t.size = m.rows.length
      ∧ t.find NameId.null = .ok (.ok ((m.under? .null).map Prod.fst)) := by
  have hkeeps : ∀ q ∈ nameless, q.KeepsIds := by
    unfold nameless
    simp only [List.forall_mem_cons]
    exact ⟨trivial, trivial, fun _ => rfl, trivial, trivial, trivial, nofun⟩
  obtain ⟨exchanges, t, m, hrun, -, hfollows, -, hsize, hfind, -⟩ := run_refines nameless hkeeps
  exact ⟨hkeeps, exchanges, t, m, hrun, hfollows, hsize, hfind .null⟩

end Table

end ResourceIndex
