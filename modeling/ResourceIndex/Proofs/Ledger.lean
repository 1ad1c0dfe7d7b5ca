import Mathlib.Data.List.Nodup
import ResourceIndex.Proofs.Request

set_option autoImplicit false

/-! # Ledgers

A ledger is what a table is to its user: the resources installed, each under the handle it was
given. It has no buckets, no hashes and no geometry. Its rows are in the order in which they were
added, and it remembers every handle it has ever issued, so as not to issue one again.

`Ledger.Step` says what each request does to a ledger and how it is answered. Only how an
identifier is looked up is left open, as a relation `L`: in a table whose resources are all where
they belong, a lookup finds the row that answers to the identifier (`Ledger.Finds`), and in one
whose identifiers have been changed in place it may miss it (`Ledger.MayFind`).
-/

namespace ResourceIndex

/-- The resources installed, each under its handle, in the order they were added, and the handles
issued so far. -/
structure Ledger (ρ : Type) where
  rows : List (Handle × ρ) := []
  issued : List Handle := []

namespace Ledger

variable {σ ρ ι : Type}

/-! ## Entering and striking rows -/

/-- The resource under a handle. -/
def get? (m : Ledger ρ) (h : Handle) : Option ρ := m.rows.lookup h

/-- The handles of the rows. -/
def handles (m : Ledger ρ) : List Handle := m.rows.map Prod.fst

/-- The resources of the rows. -/
def resources (m : Ledger ρ) : List ρ := m.rows.map Prod.snd

/-- Enters a resource under a handle that has not been issued. -/
def add (m : Ledger ρ) (h : Handle) (r : ρ) : Ledger ρ where
  rows := m.rows ++ [(h, r)]
  issued := m.issued ++ [h]

/-- Strikes the row of a handle. -/
def erase (m : Ledger ρ) (h : Handle) : Ledger ρ :=
  { m with rows := m.rows.filter fun row => row.1 ≠ h }

/-- Changes the resource under a handle. -/
def change (m : Ledger ρ) (h : Handle) (f : ρ → ρ) : Ledger ρ :=
  { m with rows := m.rows.map fun row => (row.1, if row.1 = h then f row.2 else row.2) }

section Rows

variable (m : Ledger ρ) (h k : Handle)

theorem isSome_get? : (m.get? h).isSome ↔ h ∈ m.handles := by
  unfold get? handles
  rw [List.lookup_isSome_iff, List.mem_map]
  constructor
  · rintro ⟨row, hm, he⟩
    exact ⟨row, hm, (eq_of_beq he).symm⟩
  · rintro ⟨row, hm, rfl⟩
    exact ⟨row, hm, beq_self_eq_true _⟩

theorem lookup_cons_eq (j : Handle) (r : ρ) (rows : List (Handle × ρ)) :
    ((j, r) :: rows).lookup k = if k = j then some r else rows.lookup k := by
  rw [List.lookup_cons]
  by_cases hk : k = j
  · rw [if_pos hk, hk, beq_self_eq_true]
  · rw [if_neg hk, beq_false_of_ne hk]

theorem get?_add {h : Handle} (hn : m.get? h = none) (r : ρ) (k : Handle) :
    (m.add h r).get? k = if k = h then some r else m.get? k := by
  unfold get? at hn ⊢
  unfold add
  rw [List.lookup_append, lookup_cons_eq]
  by_cases hk : k = h
  · rw [if_pos hk, if_pos hk, hk, hn, Option.none_or]
  · rw [if_neg hk, if_neg hk, List.lookup_nil, Option.or_none]

theorem get?_erase : (m.erase h).get? k = if k = h then none else m.get? k := by
  obtain ⟨rows, issued⟩ := m
  unfold get? erase
  dsimp only
  induction rows with
  | nil => simp
  | cons row rows ih =>
      obtain ⟨j, r⟩ := row
      rw [List.filter_cons, lookup_cons_eq]
      by_cases hj : j = h
      · subst hj
        rw [if_neg (by simp), ih]
        split <;> rfl
      · rw [if_pos (by simpa using hj), lookup_cons_eq, ih]
        by_cases hk : k = h
        · rw [if_neg fun hkj => hj (hkj.symm.trans hk), if_pos hk, if_pos hk]
        · rw [if_neg hk, if_neg hk]

theorem get?_change (f : ρ → ρ) :
    (m.change h f).get? k = if k = h then (m.get? k).map f else m.get? k := by
  obtain ⟨rows, issued⟩ := m
  unfold get? change
  dsimp only
  induction rows with
  | nil => simp
  | cons row rows ih =>
      obtain ⟨j, r⟩ := row
      rw [List.map_cons, lookup_cons_eq, lookup_cons_eq, ih]
      by_cases hkj : k = j
      · subst hkj
        by_cases hk : k = h <;> simp [hk]
      · rw [if_neg hkj, if_neg hkj]

@[simp] theorem handles_add (r : ρ) : (m.add h r).handles = m.handles ++ [h] := by
  simp [handles, add]

@[simp] theorem handles_erase : (m.erase h).handles = m.handles.filter fun k => k ≠ h := by
  unfold handles erase
  rw [List.filter_map]
  rfl

@[simp] theorem handles_change (f : ρ → ρ) : (m.change h f).handles = m.handles := by
  simp [handles, change]

end Rows

/-- Striking the row of a handle that has none. -/
theorem erase_of_get?_eq_none {m : Ledger ρ} {h : Handle} (hn : m.get? h = none) :
    m.erase h = m := by
  have hrows : m.rows.filter (fun row => row.1 ≠ h) = m.rows := by
    apply List.filter_eq_self.mpr
    intro row hm
    have hne : row.1 ≠ h := by
      rintro rfl
      have hlive := (m.isSome_get? row.1).mpr (List.mem_map_of_mem hm)
      rw [hn] at hlive
      cases hlive
    simpa using hne
  unfold erase
  rw [hrows]

/-- In a ledger without two rows for one handle, the rows are what the handles name. -/
theorem mem_rows {m : Ledger ρ} (hnd : m.handles.Nodup) {h : Handle} {r : ρ} :
    (h, r) ∈ m.rows ↔ m.get? h = some r := by
  obtain ⟨rows, issued⟩ := m
  unfold get?
  unfold handles at hnd
  dsimp only at hnd ⊢
  induction rows with
  | nil => simp
  | cons row rows ih =>
      obtain ⟨j, r'⟩ := row
      obtain ⟨hj, hnd'⟩ := List.nodup_cons.mp hnd
      rw [List.mem_cons, lookup_cons_eq, ih hnd']
      by_cases hk : h = j
      · subst hk
        have hn : rows.lookup h ≠ some r := fun hl =>
          hj (List.mem_map.mpr ⟨(h, r), (ih hnd').mpr hl, rfl⟩)
        simp [hn, eq_comm]
      · simp [hk]

/-! ## Visiting rows -/

/-- Visits the rows of the handles of a list, one after another. A handle without a row is passed
over. -/
def visitAll (visit : Visitor σ ρ) : (order : List Handle) → Ledger ρ → σ → Ledger ρ × σ
  | [], m, s => (m, s)
  | h :: order, m, s =>
      match m.get? h with
      | none => visitAll visit order m s
      | some r =>
          match visit s r with
          | (s', r', .keep) => visitAll visit order (m.change h fun _ => r') s'
          | (s', _, .remove) => visitAll visit order (m.erase h) s'

theorem visitAll_cons (visit : Visitor σ ρ) {m : Ledger ρ} {h : Handle} {r : ρ}
    (hr : m.get? h = some r) (order : List Handle) (s : σ) :
    visitAll visit (h :: order) m s =
      match visit s r with
      | (s', r', .keep) => visitAll visit order (m.change h fun _ => r') s'
      | (s', _, .remove) => visitAll visit order (m.erase h) s' := by
  rw [visitAll, hr]

theorem visitAll_append (visit : Visitor σ ρ) (l₁ l₂ : List Handle) :
    ∀ (m : Ledger ρ) (s : σ), visitAll visit (l₁ ++ l₂) m s =
      visitAll visit l₂ (visitAll visit l₁ m s).1 (visitAll visit l₁ m s).2 := by
  induction l₁ with
  | nil => exact fun _ _ => rfl
  | cons h l₁ ih =>
      intro m s
      rw [List.cons_append, visitAll, visitAll]
      cases m.get? h with
      | none => exact ih m s
      | some r =>
          dsimp only
          rcases visit s r with ⟨s', r', verdict⟩
          cases verdict with
          | keep => exact ih _ s'
          | remove => exact ih _ s'

/-! ## Editing -/

/-- One ledger comes from another by striking rows and by changes to resources that `P` allows. -/
inductive Edits (P : ρ → ρ → Prop) : Ledger ρ → Ledger ρ → Prop
  | refl (m : Ledger ρ) : Edits P m m
  | erase {m m' : Ledger ρ} (h : Handle) (he : Edits P m m') : Edits P m (m'.erase h)
  | change {m m' : Ledger ρ} (h : Handle) (f : ρ → ρ) (hf : ∀ r, m'.get? h = some r → P r (f r))
      (he : Edits P m m') : Edits P m (m'.change h f)

section Edits

variable {P : ρ → ρ → Prop} {m m' : Ledger ρ}

theorem Edits.issued (he : Edits P m m') : m'.issued = m.issued := by
  induction he with
  | refl => rfl
  | erase h he ih => exact ih
  | change h f hf he ih => exact ih

theorem Edits.handles_sublist (he : Edits P m m') : m'.handles.Sublist m.handles := by
  induction he with
  | refl => exact List.Sublist.refl _
  | erase h he ih =>
      rw [handles_erase]
      exact List.filter_sublist.trans ih
  | change h f hf he ih =>
      rw [handles_change]
      exact ih

theorem Edits.visitAll {visit : Visitor σ ρ}
    (hv : ∀ s r, (visit s r).2.2 = .keep → P r (visit s r).2.1) (order : List Handle) :
    ∀ {m' : Ledger ρ} {s : σ}, Edits P m m' → Edits P m (visitAll visit order m' s).1 := by
  induction order with
  | nil => exact fun he => he
  | cons h order ih =>
      intro m' s he
      cases hr : m'.get? h with
      | none =>
          rw [Ledger.visitAll, hr]
          exact ih he
      | some r =>
          rw [visitAll_cons visit hr]
          rcases hs : visit s r with ⟨s', r', verdict⟩
          cases verdict with
          | keep =>
              -- the change to this row is the one that `P` allows of its resource
              refine ih (.change h _ (fun r₀ hr₀ => ?_) he)
              obtain rfl : r = r₀ := Option.some.inj (hr.symm.trans hr₀)
              have hallowed := hv s r
              rw [hs] at hallowed
              exact hallowed rfl
          | remove => exact ih (.erase h he)

end Edits

/-- The rows are in the order in which their handles were issued, and no handle was issued
twice. -/
structure Ordered (m : Ledger ρ) : Prop where
  nodup : m.issued.Nodup
  sublist : m.handles.Sublist m.issued

namespace Ordered

variable {m m' : Ledger ρ}

theorem handles_nodup (ho : m.Ordered) : m.handles.Nodup := ho.nodup.sublist ho.sublist

theorem get?_of_not_mem (ho : m.Ordered) {h : Handle} (hn : h ∉ m.issued) : m.get? h = none := by
  rw [← Option.not_isSome_iff_eq_none, isSome_get?]
  exact fun hm => hn (ho.sublist.subset hm)

theorem add (ho : m.Ordered) {h : Handle} (hn : h ∉ m.issued) (r : ρ) : (m.add h r).Ordered where
  nodup := by
    show (m.issued ++ [h]).Nodup
    rw [← List.concat_eq_append]
    exact ho.nodup.concat hn
  sublist := by
    rw [handles_add]
    exact ho.sublist.append_right [h]

theorem edits {P : ρ → ρ → Prop} (ho : m.Ordered) (he : Edits P m m') : m'.Ordered where
  nodup := he.issued.symm ▸ ho.nodup
  sublist := he.issued.symm ▸ he.handles_sublist.trans ho.sublist

/-- The handles of the rows are the live ones among the handles issued, in the same order. -/
theorem handles_eq (ho : m.Ordered) :
    m.handles = m.issued.filter fun h => (m.get? h).isSome := by
  have hsub : m.handles.Sublist (m.issued.filter fun h => (m.get? h).isSome) := by
    have hself : m.handles.filter (fun h => (m.get? h).isSome) = m.handles :=
      List.filter_eq_self.mpr fun h hm => m.isSome_get? h |>.mpr hm
    rw [← hself]
    exact ho.sublist.filter _
  -- conversely all live handles are among those of the rows, and no handle is counted twice
  refine hsub.eq_of_length_le ((ho.nodup.filter _).length_le_of_subset fun h hm => ?_)
  exact (m.isSome_get? h).mp (List.mem_filter.mp hm).2

/-- The rows are what their handles name. -/
theorem rows_eq_handles (ho : m.Ordered) :
    m.rows = m.handles.filterMap fun h => (m.get? h).map (Prod.mk h) := by
  unfold handles
  rw [List.filterMap_map]
  refine (List.filterMap_some.symm).trans (List.filterMap_congr fun row hm => ?_)
  have hg := (mem_rows ho.handles_nodup).mp hm
  simp [hg]

/-- The rows are what the handles issued name, in the same order. -/
theorem rows_eq (ho : m.Ordered) :
    m.rows = m.issued.filterMap fun h => (m.get? h).map (Prod.mk h) := by
  calc m.rows = m.handles.filterMap fun h => (m.get? h).map (Prod.mk h) := ho.rows_eq_handles
    _ = m.issued.filterMap fun h =>
          if (m.get? h).isSome then (m.get? h).map (Prod.mk h) else none := by
        rw [ho.handles_eq, List.filterMap_filter]
    _ = m.issued.filterMap fun h => (m.get? h).map (Prod.mk h) := by
        apply List.filterMap_congr
        intro h _
        cases m.get? h with
        | none => rfl
        | some r => rfl

end Ordered

/-! ## Steps -/

section Lookup

variable [Resource ρ ι] [Identifier ι]

/-- The first row that answers to an identifier. -/
def under? (m : Ledger ρ) (id : ι) : Option (Handle × ρ) :=
  m.rows.find? fun row => Identifier.same (Resource.id row.2) id

/-- The lookup of an identifier finds the row that answers to it. -/
def Finds (m : Ledger ρ) (id : ι) (found : Except Fault (Option Handle)) : Prop :=
  found = .ok ((m.under? id).map Prod.fst)

/-- The lookup of an identifier may find a row that answers to it, and can be carried out if the
identifier can be hashed. -/
def MayFind (m : Ledger ρ) (id : ι) : Except Fault (Option Handle) → Prop
  | .error fault => fault = .hashUnavailable ∧ Identifier.hash? id = none
  | .ok none => (Identifier.hash? id).isSome
  | .ok (some h) => (Identifier.hash? id).isSome
      ∧ ∃ r, m.get? h = some r ∧ Identifier.same (Resource.id r) id

end Lookup

/-- The resource that a lookup by identifier comes to. -/
def resolve (m : Ledger ρ) (found : Except Fault (Option Handle)) : Except Fault (Option ρ) :=
  found.map fun h => h.bind m.get?

/-- The ledger after `f` has been done to the row that a lookup came to, if it did. -/
def atFound (m : Ledger ρ) (found : Except Fault (Option Handle)) (f : Handle → Ledger ρ) :
    Ledger ρ :=
  match found with
  | .ok (some h) => f h
  | _ => m

/-- The answer to a resource that is to be installed, according to what a lookup of its
identifier has come to. -/
def Admits (m : Ledger ρ) (r : ρ) (found : Except Fault (Option Handle))
    (answer : Except Fault (Admission ρ)) (m' : Ledger ρ) : Prop :=
  match found with
  | .error fault => answer = .error fault ∧ m' = m
  | .ok (some _) => answer = .ok (.duplicate r) ∧ m' = m
  | .ok none => ∃ h, h ∉ m.issued ∧ answer = .ok (.installed h) ∧ m' = m.add h r

variable [Resource ρ ι]

/-- A request takes a ledger to another and is answered, with `L` for what lookups come to. -/
def Step (L : Ledger ρ → ι → Except Fault (Option Handle) → Prop) (m : Ledger ρ) :
    Exchange ρ ι → Ledger ρ → Prop
  | ⟨.add _ r, answer, _⟩, m' =>
      ∃ found, L m (Resource.id r) found ∧ m.Admits r found answer m'
  | ⟨.remove id, answer, _⟩, m' =>
      ∃ found, L m id found ∧ answer = m.resolve found ∧ m' = m.atFound found m.erase
  | ⟨.removeHandle h, answer, _⟩, m' => answer = .ok (m.get? h) ∧ m' = m.erase h
  | ⟨.modify id f, answer, _⟩, m' =>
      ∃ found, L m id found ∧ answer = m'.resolve found
        ∧ m' = m.atFound found fun h => m.change h f
  | ⟨.modifyHandle h f, answer, _⟩, m' => answer = .ok (m'.get? h) ∧ m' = m.change h f
  | ⟨.traverse visit s, answer, _⟩, m' =>
      ∃ order, order.Perm m.handles ∧ answer = .ok (visitAll visit order m s).2
        ∧ m' = (visitAll visit order m s).1
  | ⟨.find id, answer, _⟩, m' => L m id answer ∧ m' = m
  | ⟨.lookup id, answer, _⟩, m' =>
      ∃ found, L m id found ∧ answer = m.resolve found ∧ m' = m
  | ⟨.contains id, answer, _⟩, m' =>
      ∃ found, L m id found ∧ answer = found.map Option.isSome ∧ m' = m
  | ⟨.get h, answer, _⟩, m' => answer = .ok (m.get? h) ∧ m' = m
  | ⟨.verify, _, _⟩, m' => m' = m

/-! ## What steps preserve -/

theorem edits_atFound {P : ρ → ρ → Prop} (m : Ledger ρ) (found : Except Fault (Option Handle))
    {f : Handle → Ledger ρ} (hf : ∀ h, Edits P m (f h)) : Edits P m (m.atFound found f) := by
  unfold atFound
  split
  · exact hf _
  · exact .refl m

/-- The handle issued in an exchange. -/
def issued? : Exchange ρ ι → Option Handle
  | ⟨.add _ _, .ok (.installed h), _⟩ => some h
  | _ => none

/-- **All that a step can do**: enter a row under a new handle if no row was found, or edit the rows
there are, with changes that the request allows. -/
theorem Step.cases {L : Ledger ρ → ι → Except Fault (Option Handle) → Prop}
    {P : ρ → ρ → Prop} {m m' : Ledger ρ} {x : Exchange ρ ι} (hs : Step L m x m')
    (hx : x.request.ChangesOnly P) :
    (∃ h r, h ∉ m.issued ∧ L m (Resource.id r) (.ok none) ∧ issued? x = some h
      ∧ m' = m.add h r)
    ∨ (issued? x = none ∧ Edits P m m') := by
  obtain ⟨q, answer, events⟩ := x
  cases q with
  | add granted r =>
      obtain ⟨found, hL, hs⟩ := hs
      unfold Admits at hs
      split at hs
      · obtain ⟨rfl, rfl⟩ := hs
        exact Or.inr ⟨rfl, .refl _⟩
      · obtain ⟨rfl, rfl⟩ := hs
        exact Or.inr ⟨rfl, .refl _⟩
      · obtain ⟨h, hn, rfl, rfl⟩ := hs
        exact Or.inl ⟨h, r, hn, hL, rfl, rfl⟩
  | remove id =>
      obtain ⟨found, -, -, rfl⟩ := hs
      exact Or.inr ⟨rfl, m.edits_atFound found fun h => .erase h (.refl m)⟩
  | removeHandle h =>
      obtain ⟨-, rfl⟩ := hs
      exact Or.inr ⟨rfl, .erase h (.refl m)⟩
  | modify id f =>
      obtain ⟨found, -, -, rfl⟩ := hs
      exact Or.inr ⟨rfl, m.edits_atFound found fun h => .change h f (fun r _ => hx r) (.refl m)⟩
  | modifyHandle h f =>
      obtain ⟨-, rfl⟩ := hs
      exact Or.inr ⟨rfl, .change h f (fun r _ => hx r) (.refl m)⟩
  | traverse visit s =>
      obtain ⟨order, -, -, rfl⟩ := hs
      exact Or.inr ⟨rfl, Edits.visitAll hx order (.refl m)⟩
  | find id | get h =>
      obtain ⟨-, rfl⟩ := hs
      exact Or.inr ⟨rfl, .refl _⟩
  | lookup id | contains id =>
      obtain ⟨-, -, -, rfl⟩ := hs
      exact Or.inr ⟨rfl, .refl _⟩
  | verify =>
      obtain rfl : m' = m := hs
      exact Or.inr ⟨rfl, .refl _⟩

section Runs

variable {L : Ledger ρ → ι → Except Fault (Option Handle) → Prop}

/-- The rows stay in order, and the handles issued are those of the exchanges. -/
theorem Follows.ordered (xs : List (Exchange ρ ι)) :
    ∀ {m m' : Ledger ρ}, m.Ordered → Follows (Step L) m xs m' →
      m'.Ordered ∧ m'.issued = m.issued ++ xs.filterMap issued? := by
  induction xs with
  | nil =>
      intro m m' ho hf
      obtain rfl : m' = m := hf
      exact ⟨ho, (List.append_nil _).symm⟩
  | cons x xs ih =>
      intro m m' ho hf
      obtain ⟨m₁, hs, hf⟩ := hf
      rcases hs.cases x.request.changesOnly_true with ⟨h, r, hn, -, hi, rfl⟩ | ⟨hi, he⟩
      · obtain ⟨ho', hissued⟩ := ih (ho.add hn r) hf
        refine ⟨ho', ?_⟩
        rw [hissued, List.filterMap_cons, hi]
        show m.issued ++ [h] ++ _ = _
        rw [List.append_assoc]
        rfl
      · obtain ⟨ho', hissued⟩ := ih (ho.edits he) hf
        refine ⟨ho', ?_⟩
        rw [hissued, List.filterMap_cons, hi, he.issued]

/-- **A handle that has gone stale stays stale.** -/
theorem Follows.stale (xs : List (Exchange ρ ι)) {h : Handle} :
    ∀ {m m' : Ledger ρ}, h ∈ m.issued → m.get? h = none → Follows (Step L) m xs m' →
      m'.get? h = none := by
  induction xs with
  | nil =>
      intro m m' _ hn hf
      obtain rfl : m' = m := hf
      exact hn
  | cons x xs ih =>
      intro m m' hi hn hf
      obtain ⟨m₁, hs, hf⟩ := hf
      rcases hs.cases x.request.changesOnly_true with ⟨k, r, hk, -, -, rfl⟩ | ⟨-, he⟩
      · -- a handle that is issued is not one that has been
        refine ih (List.mem_append_left _ hi) ?_ hf
        have hne : h ≠ k := fun hhk => hk (hhk ▸ hi)
        rw [← Option.not_isSome_iff_eq_none, isSome_get?] at hn ⊢
        rw [handles_add, List.mem_append]
        rintro (hm | hm)
        · exact hn hm
        · exact hne (List.mem_singleton.mp hm)
      · refine ih (he.issued.symm ▸ hi) ?_ hf
        rw [← Option.not_isSome_iff_eq_none, isSome_get?] at hn ⊢
        exact fun hm => hn (he.handles_sublist.subset hm)

end Runs

end Ledger

end ResourceIndex
