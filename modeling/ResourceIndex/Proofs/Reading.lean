import ResourceIndex.Proofs.Expansion
import ResourceIndex.Proofs.Segment

set_option autoImplicit false

/-! # Reading a table

All that goes through a bucket without changing it goes by the entries that the links lead to. So it
is the same for every table whose buckets *read* as some lists of live handles (`Table.Reads`),
whatever their stored lengths. A search comes to the first handle of the list that answers
(`Reads.findIn_eq`), and a check looks at each handle of each list. It is passed if and only if the
lists and the stored lengths are as they should be (`Reads.verify_iff`).
-/

namespace ResourceIndex

namespace Checked

variable {α ε : Type}

/-- A check of each element of a list is passed when each of them passes it. -/
theorem forM_eq_ok {f : α → Except ε Unit} {l : List α} :
    l.forM f = .ok () ↔ ∀ a ∈ l, f a = .ok () := by
  induction l with
  | nil => exact iff_of_true rfl (List.forall_mem_nil _)
  | cons a l ih =>
      rw [List.forall_mem_cons, ← ih]
      show (f a >>= fun _ => l.forM f) = .ok () ↔ _
      cases f a with
      | error e => exact iff_of_false nofun fun h => nomatch h.1
      | ok u => exact (and_iff_right rfl).symm

/-- A loop over a list ends with a fault of one of its steps. -/
theorem forM_eq_error {f : α → Except ε Unit} {l : List α} {e : ε}
    (h : l.forM f = .error e) : ∃ a ∈ l, f a = .error e := by
  induction l with
  | nil => cases h
  | cons a l ih =>
      have hstep : (f a >>= fun _ => l.forM f) = .error e := h
      cases hf : f a with
      | error e' =>
          rw [hf] at hstep
          cases hstep
          exact ⟨a, List.mem_cons_self, hf⟩
      | ok u =>
          rw [hf] at hstep
          obtain ⟨b, hb, he⟩ := ih hstep
          exact ⟨b, List.mem_cons_of_mem a hb, he⟩

end Checked

namespace Table

variable {ρ ι : Type}

theorem chain_eq_ok {t : Table ρ} {i : Nat} {c : Chain} :
    t.chain i = .ok c ↔ t.buckets[i]? = some c := by
  unfold chain
  cases t.buckets[i]? <;> simp

theorem chain_of_lt {t : Table ρ} {i : Nat} (hi : i < t.buckets.size) :
    ∃ c, t.buckets[i]? = some c ∧ t.chain i = .ok c :=
  ⟨_, Array.getElem?_eq_getElem hi, chain_eq_ok.mpr (Array.getElem?_eq_getElem hi)⟩

/-- What is met in each bucket of the table is its list of handles, and all of these are live. -/
structure Reads (t : Table ρ) (lists : Nat → List Handle) : Prop where
  entries : ∀ {i}, i < t.buckets.size → t.entries i = .ok (t.slots.rows (lists i))
  lt_size : ∀ {i h}, h ∈ lists i → i < t.buckets.size
  live : ∀ {i h}, h ∈ lists i → (t.slots.get? h).isSome

variable [Resource ρ ι] [Identifier ι]

/-! ## Searching a bucket -/

/-- Whether the resource under a handle answers to an identifier. -/
def answers (t : Table ρ) (id : ι) (h : Handle) : Bool :=
  (t.get? h).any fun r => Identifier.same (Resource.id r) id

theorem find?_rows (t : Table ρ) (id : ι) (l : List Handle) :
    ((t.slots.rows l).find? fun (_, e) => Identifier.same (Resource.id e.resource) id).map
      Prod.fst = l.find? (t.answers id) := by
  induction l with
  | nil => rfl
  | cons h l ih =>
      unfold Slots.rows at ih ⊢
      cases hg : t.slots.get? h with
      | none =>
          have hno : t.answers id h = false := by simp [answers, get?, hg]
          rw [List.find?_cons, hno, ← ih, List.filterMap_cons, hg]
          rfl
      | some e =>
          have han : t.answers id h = Identifier.same (Resource.id e.resource) id := by
            simp [answers, get?, hg]
          rw [List.find?_cons, han, List.filterMap_cons, hg]
          simp only [Option.map_some, List.find?_cons]
          cases Identifier.same (Resource.id e.resource) id with
          | true => rfl
          | false => exact ih

/-- What a lookup of an identifier comes to. -/
def found (t : Table ρ) (lists : Nat → List Handle) (id : ι) : Except Fault (Option Handle) :=
  match t.address? id with
  | none => .error .hashUnavailable
  | some b => .ok ((lists b).find? (t.answers id))

/-- A lookup is cut short only by a hash that is not available. -/
theorem found_eq_error {t : Table ρ} {lists : Nat → List Handle} {id : ι} {fault : Fault}
    (hf : t.found lists id = .error fault) : fault = .hashUnavailable := by
  unfold found at hf
  cases hb : t.address? id with
  | none => rw [hb] at hf; cases hf; rfl
  | some b => rw [hb] at hf; cases hf

namespace Reads

variable {t : Table ρ} {lists : Nat → List Handle}

theorem findIn_eq (hr : t.Reads lists) {i : Nat} (hi : i < t.buckets.size) (id : ι) :
    t.findIn i id = .ok ((lists i).find? (t.answers id)) := by
  unfold findIn
  rw [hr.entries hi, Checked.ok_bind, ← find?_rows]
  rfl

/-- What is found by an identifier is in the list of the bucket it belongs in, and answers to it. -/
theorem mem_of_found (hr : t.Reads lists) {id : ι} {h : Handle}
    (hf : t.found lists id = .ok (some h)) :
    ∃ b r, t.address? id = some b ∧ h ∈ lists b ∧ t.get? h = some r
      ∧ Identifier.same (Resource.id r) id := by
  unfold found at hf
  cases hb : t.address? id with
  | none => rw [hb] at hf; cases hf
  | some b =>
      rw [hb] at hf
      have hfind := Except.ok.inj hf
      have hm := List.mem_of_find?_eq_some hfind
      have hlive : (t.get? h).isSome := (Slots.isSome_resource? t.slots h).trans (hr.live hm)
      obtain ⟨r, hget⟩ := Option.isSome_iff_exists.mp hlive
      refine ⟨b, r, rfl, hm, hget, ?_⟩
      have hans := List.find?_some hfind
      rwa [answers, hget] at hans

theorem find_eq (hr : t.Reads lists) (hlevel : ∃ k, t.AtLevel (Identifier.widths ι) k) (id : ι) :
    t.find id = .ok (t.found lists id) := by
  obtain ⟨k, hk⟩ := hlevel
  unfold Table.find found
  cases hb : t.address? id with
  | none => rfl
  | some b =>
      dsimp only
      rw [hr.findIn_eq (hk.address?_lt hb)]
      rfl

end Reads

/-! ## Checking a bucket -/

/-- No entry of the handles `l` but that of `h` has an identifier that answers to `id`. -/
theorem any_rows_eq_false (t : Table ρ) (l : List Handle) (h : Handle) (id : ι) :
    ((t.slots.rows l).any fun row =>
        row.1 ≠ h && Identifier.same (Resource.id row.2.resource) id) = false ↔
      ∀ k ∈ l, t.answers id k → k = h := by
  rw [List.any_eq_false]
  constructor
  · intro hrows k hk hans
    -- a handle that answers has an entry, which is one of the rows
    unfold answers get? at hans
    cases hg : t.slots.get? k with
    | none => rw [hg] at hans; cases hans
    | some e' =>
        rw [hg] at hans
        by_contra hkh
        have hrow := hrows (k, e') (Slots.mem_rows.mpr ⟨hk, hg⟩)
        exact hrow (by simpa [hkh] using hans)
  · rintro hall ⟨k, e'⟩ hrow hans
    obtain ⟨hk, hg⟩ := Slots.mem_rows.mp hrow
    have hboth : k ≠ h ∧ Identifier.same (Resource.id e'.resource) id = true := by
      simpa using hans
    refine hboth.1 (hall k hk ?_)
    unfold answers get?
    rw [hg]
    exact hboth.2

/-- The check of one entry among those of the handles `l`. -/
theorem verifyEntry_eq_ok (t : Table ρ) (b : Nat) (l : List Handle) (h : Handle) (e : Entry ρ) :
    t.verifyEntry b (t.slots.rows l) (h, e) = .ok () ↔
      t.address? (Resource.id e.resource) = some b
        ∧ ∀ k ∈ l, t.answers (Resource.id e.resource) k → k = h := by
  have hany := t.any_rows_eq_false l h (Resource.id e.resource)
  unfold verifyEntry
  dsimp only
  cases t.address? (Resource.id e.resource) with
  | none => simp
  | some expected =>
      dsimp only
      by_cases hne : expected = b
      · subst hne
        rw [if_neg (fun hn => hn rfl), ← hany, and_iff_right rfl]
        split
        · rename_i hsome
          refine iff_of_false (by simp) fun hnone => ?_
          exact Bool.false_ne_true (hnone.symm.trans hsome)
        · rename_i hnone
          exact iff_of_true rfl (Bool.eq_false_iff.mpr hnone)
      · rw [if_pos hne]
        exact iff_of_false (by simp) fun hb => hne (Option.some.inj hb.1)

/-- The check of a bucket is passed, with the number of its entries, when every entry passes it and
the stored length is their number. -/
theorem verifyEntries_cases (t : Table ρ) (b : Nat) (c : Chain) (all : List (Handle × Entry ρ)) :
    (t.verifyEntries b c all = .ok all.length
      ∧ (∀ row ∈ all, t.verifyEntry b all row = .ok ()) ∧ all.length % Nat.pow 2 64 = c.word)
    ∨ ∃ fault, t.verifyEntries b c all = .error fault
      ∧ ((∃ row ∈ all, t.verifyEntry b all row = .error fault)
        ∨ fault = .staleLength b ∧ all.length % Nat.pow 2 64 ≠ c.word) := by
  unfold verifyEntries
  cases hrows : all.forM (t.verifyEntry b all) with
  | error fault => exact Or.inr ⟨fault, rfl, Or.inl (Checked.forM_eq_error hrows)⟩
  | ok u =>
      by_cases hlen : all.length % Nat.pow 2 64 = c.word
      · exact Or.inl ⟨if_pos hlen, Checked.forM_eq_ok.mp hrows, hlen⟩
      · exact Or.inr ⟨.staleLength b, if_neg hlen, Or.inr ⟨rfl, hlen⟩⟩

/-! ## Checking a table -/

/-- A handle names the resource of its entry. -/
theorem get?_of_entry {t : Table ρ} {h : Handle} {e : Entry ρ} (he : t.slots.get? h = some e) :
    t.get? h = some e.resource :=
  congrArg (Option.map Entry.resource) he

/-- What a check of a table looks at: each handle is in the list of the bucket that its identifier
belongs in, no other one there answers to it, the stored lengths are those of the lists, and these
have all resources in them. -/
structure Passes (t : Table ρ) (lists : Nat → List Handle) : Prop where
  placed : ∀ b, ∀ h ∈ lists b, ∀ r, t.get? h = some r → t.address? (Resource.id r) = some b
  alone : ∀ b, ∀ h ∈ lists b, ∀ k ∈ lists b, ∀ r, t.get? h = some r →
    t.answers (Resource.id r) k → k = h
  lengths : ∀ b c, t.buckets[b]? = some c → (lists b).length % Nat.pow 2 64 = c.word
  size : ((List.range t.buckets.size).flatMap lists).length = t.size

/-- What a check that ends with a fault has come upon. -/
inductive Fails (t : Table ρ) (lists : Nat → List Handle) : Fault → Prop
  | entry {b : Nat} {h : Handle} {e : Entry ρ} {fault : Fault} (hm : h ∈ lists b)
      (hg : t.slots.get? h = some e)
      (hv : t.verifyEntry b (t.slots.rows (lists b)) (h, e) = .error fault) : Fails t lists fault
  | length {b : Nat} {c : Chain} (hc : t.buckets[b]? = some c)
      (hlen : (lists b).length % Nat.pow 2 64 ≠ c.word) : Fails t lists (.staleLength b)
  | size (hsize : ((List.range t.buckets.size).flatMap lists).length ≠ t.size) :
      Fails t lists .countMismatch

theorem Passes.not_fails {t : Table ρ} {lists : Nat → List Handle} (hp : t.Passes lists)
    (fault : Fault) : ¬ t.Fails lists fault := by
  intro hf
  cases hf with
  | @entry b h e _ hm hg hv =>
      have hr := get?_of_entry hg
      have hok := (verifyEntry_eq_ok t b (lists b) h e).mpr
        ⟨hp.placed b h hm _ hr, fun k hk => hp.alone b h hm k hk _ hr⟩
      rw [hok] at hv
      cases hv
  | length hc hlen => exact hlen (hp.lengths _ _ hc)
  | size hsize => exact hsize hp.size

namespace Reads

variable {t : Table ρ} {lists : Nat → List Handle}

/-- The check of some buckets comes to the number of their handles, or to a fault of one of them. -/
theorem verifyBuckets_cases (hr : t.Reads lists) (indices : List Nat) :
    (∀ b ∈ indices, b < t.buckets.size) → ∀ total : Nat,
      (t.verifyBuckets indices total = .ok (.ok (total + (indices.flatMap lists).length))
        ∧ ∀ b ∈ indices, (∀ row ∈ t.slots.rows (lists b),
              t.verifyEntry b (t.slots.rows (lists b)) row = .ok ())
            ∧ ∀ c, t.buckets[b]? = some c → (lists b).length % Nat.pow 2 64 = c.word)
      ∨ ∃ fault, t.verifyBuckets indices total = .ok (.error fault) ∧ t.Fails lists fault := by
  induction indices with
  | nil => exact fun _ total => Or.inl ⟨rfl, nofun⟩
  | cons b indices ih =>
      intro hlt total
      obtain ⟨c, hc, hchain⟩ := chain_of_lt (hlt b List.mem_cons_self)
      have hentries : c.entries t.slots = .ok (t.slots.rows (lists b)) := by
        have hread := hr.entries (hlt b List.mem_cons_self)
        unfold Table.entries at hread
        rwa [hchain] at hread
      have hlength := Slots.length_rows fun h (hm : h ∈ lists b) => hr.live hm
      rw [verifyBuckets, hchain, Checked.ok_bind, hentries, Checked.ok_bind]
      rcases t.verifyEntries_cases b c (t.slots.rows (lists b)) with
        ⟨hok, hrows, hlen⟩ | ⟨fault, herr, hcause⟩
      · rw [hlength] at hok hlen
        rw [hok]
        dsimp only
        rcases ih (fun i hi => hlt i (List.mem_cons_of_mem b hi)) (total + (lists b).length) with
          ⟨hrest, hpass⟩ | hfault
        · refine Or.inl ⟨?_, List.forall_mem_cons.mpr ⟨⟨hrows, fun c' hc' => ?_⟩, hpass⟩⟩
          · rw [hrest, List.flatMap_cons, List.length_append, Nat.add_assoc]
          · obtain rfl := Option.some.inj (hc.symm.trans hc')
            exact hlen
        · exact Or.inr hfault
      · rw [herr]
        refine Or.inr ⟨fault, rfl, ?_⟩
        rcases hcause with ⟨⟨h, e⟩, hrow, hv⟩ | ⟨rfl, hlen⟩
        · obtain ⟨hm, hg⟩ := Slots.mem_rows.mp hrow
          exact .entry hm hg hv
        · rw [hlength] at hlen
          exact .length hc hlen

/-- **A check** comes to its end, and is passed or ends with a fault that says what is wrong. -/
theorem verify_cases (hr : t.Reads lists) (hlevel : ∃ k, t.AtLevel (Identifier.widths ι) k) :
    (t.verify = .ok (.ok ()) ∧ t.Passes lists)
      ∨ ∃ fault, t.verify = .ok (.error fault) ∧ t.Fails lists fault := by
  obtain ⟨k, hk⟩ := hlevel
  unfold verify
  rw [hk.check, Checked.ok_bind]
  rcases hr.verifyBuckets_cases (List.range t.buckets.size) (fun b => List.mem_range.mp) 0 with
    ⟨hbuckets, hpass⟩ | ⟨fault, hbuckets, hfails⟩
  · rw [hbuckets, Checked.ok_bind, Nat.zero_add]
    dsimp only
    by_cases hsize : ((List.range t.buckets.size).flatMap lists).length = t.size
    · rw [if_pos hsize]
      -- what has been checked of a handle is the check of its row
      have hcheck : ∀ b, ∀ h ∈ lists b, ∀ r, t.get? h = some r →
          t.address? (Resource.id r) = some b
            ∧ ∀ k ∈ lists b, t.answers (Resource.id r) k → k = h := by
        intro b h hm r hget
        obtain ⟨e, he, rfl⟩ := Option.map_eq_some_iff.mp hget
        exact (verifyEntry_eq_ok t b (lists b) h e).mp
          ((hpass b (List.mem_range.mpr (hr.lt_size hm))).1 _ (Slots.mem_rows.mpr ⟨hm, he⟩))
      refine Or.inl ⟨rfl, fun b h hm r hget => (hcheck b h hm r hget).1,
        fun b h hm k hk r hget => (hcheck b h hm r hget).2 k hk, fun b c hc => ?_, hsize⟩
      have hb := (Array.getElem?_eq_some_iff.mp hc).1
      exact (hpass b (List.mem_range.mpr hb)).2 c hc
    · rw [if_neg hsize]
      exact Or.inr ⟨_, rfl, .size hsize⟩
  · rw [hbuckets]
    exact Or.inr ⟨fault, rfl, hfails⟩

theorem verify_total (hr : t.Reads lists) (hlevel : ∃ k, t.AtLevel (Identifier.widths ι) k) :
    ∃ answer, t.verify = .ok answer := by
  rcases hr.verify_cases hlevel with ⟨hv, -⟩ | ⟨fault, hv, -⟩
  · exact ⟨_, hv⟩
  · exact ⟨_, hv⟩

/-- **A check is passed** when the lists and the stored lengths are as they should be. -/
theorem verify_iff (hr : t.Reads lists) (hlevel : ∃ k, t.AtLevel (Identifier.widths ι) k) :
    t.verify = .ok (.ok ()) ↔ t.Passes lists := by
  rcases hr.verify_cases hlevel with ⟨hv, hp⟩ | ⟨fault, hv, hf⟩
  · exact iff_of_true hv hp
  · refine iff_of_false (fun hok => ?_) fun hp => hp.not_fails fault hf
    rw [hv] at hok
    cases hok

end Reads

end Table

end ResourceIndex
