import ResourceIndex.Proofs.Aftermath
import ResourceIndex.Proofs.Arrangement
import ResourceIndex.Proofs.Astray
import ResourceIndex.Proofs.Soundness

set_option autoImplicit false

/-! # What it means that a table passes its check

A check goes through the buckets and looks at identifiers and at lengths; a lookup goes to one
bucket and stops at the first resource that answers. That every resource is found under its own
identifier means that the table is *well placed* (`Table.WellPlaced`): no resource is in no bucket,
misplaced or shadowed by another one. A check makes sure of this, and of the stored lengths as well
(`Table.Measured`), of which no lookup takes notice.

The main statement is `Session.run_verifies`. The stored lengths are right unless a lost resource
has been taken out by its handle. Once that has been done, every resource may be found and the check
may still fail (`Session.run_miscounted`).
-/

namespace ResourceIndex

namespace Table

variable {ρ ι : Type} [Resource ρ ι] [Identifier ι]

/-! ## What is checked -/

/-- Every resource is in a bucket, each is in the bucket that its identifier belongs in, and no
other one there answers to that identifier. -/
structure WellPlaced (t : Table ρ) : Prop where
  linked : ∀ h, (t.get? h).isSome → ∃ b, h ∈ t.handlesIn b
  placed : ∀ b, ∀ h ∈ t.handlesIn b, ∀ r, t.get? h = some r → t.address? (Resource.id r) = some b
  alone : ∀ b, ∀ h ∈ t.handlesIn b, ∀ k ∈ t.handlesIn b, ∀ r, t.get? h = some r →
    t.answers (Resource.id r) k → k = h

omit [Resource ρ ι] [Identifier ι] in
/-- The stored length of each bucket is the number of its entries, as far as a word goes. -/
def Measured (t : Table ρ) : Prop :=
  ∀ b c, t.buckets[b]? = some c → (t.handlesIn b).length % Nat.pow 2 64 = c.word

/-- Every resource is found under its own identifier. -/
def EveryFound (t : Table ρ) : Prop :=
  ∀ h r, t.get? h = some r → t.find (Resource.id r) = .ok (.ok (some h))

/-- Every installed identifier answers to itself. -/
def SelfSame (t : Table ρ) : Prop :=
  ∀ h r, t.get? h = some r → Identifier.same (Resource.id r) (Resource.id r)

/-- Installed identifiers answer to each other alike. -/
def Mutual (t : Table ρ) : Prop :=
  ∀ h k r r', t.get? h = some r → t.get? k = some r' →
    Identifier.same (Resource.id r) (Resource.id r') →
      Identifier.same (Resource.id r') (Resource.id r)

omit [Resource ρ ι] [Identifier ι] in
/-- The buckets hold as many resources as are installed when they hold every one. -/
theorem Wired.length_order_eq_iff {t : Table ρ} (ht : t.Wired) :
    t.order.length = t.size ↔ ∀ h, (t.get? h).isSome → ∃ b, h ∈ t.handlesIn b := by
  have hastray : t.order.length = t.size ↔ t.astray = [] := by
    rw [ht.size_eq, ← List.length_eq_zero_iff]
    omega
  rw [hastray, astray, List.filter_eq_nil_iff]
  refine forall_congr' fun h => ?_
  rw [Slots.mem_handles, ← Slots.isSome_resource?, decide_eq_true_iff, not_not, ht.mem_order]
  rfl

omit [Resource ρ ι] [Identifier ι] in
/-- What all handles of a table name. -/
theorem mem_named_handles {t : Table ρ} {h : Handle} {r : ρ} :
    (h, r) ∈ t.named t.slots.handles ↔ t.get? h = some r := by
  unfold named
  rw [List.mem_filterMap]
  constructor
  · rintro ⟨k, -, hk⟩
    obtain ⟨r', hr', he⟩ := Option.map_eq_some_iff.mp hk
    cases he
    exact hr'
  · intro hr
    refine ⟨h, ?_, by rw [hr]; rfl⟩
    rw [Slots.mem_handles, ← Slots.isSome_resource?]
    exact Option.isSome_of_eq_some hr

/-! ## Finding and placing -/

namespace Sound

variable {t : Table ρ}

/-- In a table that is well placed every resource is found, provided that identifiers answer to
themselves. -/
theorem everyFound (ht : t.Sound) (hself : t.SelfSame) (hw : t.WellPlaced) : t.EveryFound := by
  intro h r hr
  obtain ⟨b, hm⟩ := hw.linked h (by rw [hr]; rfl)
  have hb := hw.placed b h hm r hr
  have hans : t.answers (Resource.id r) h := by
    unfold answers
    rw [hr]
    exact hself h r hr
  -- something in the bucket answers, and nothing but `h` does
  obtain ⟨k, hk⟩ := Option.isSome_iff_exists.mp (List.find?_isSome.mpr ⟨h, hm, hans⟩)
  have hkh := hw.alone b h hm k (List.mem_of_find?_eq_some hk) r hr (List.find?_some hk)
  rw [ht.find_eq]
  unfold found
  rw [hb]
  dsimp only
  rw [hk, hkh]

/-- A resource that is found is the first one that answers in the bucket it belongs in. -/
theorem first_of_everyFound (ht : t.Sound) (hall : t.EveryFound) {h : Handle} {r : ρ}
    (hr : t.get? h = some r) : ∃ b, t.address? (Resource.id r) = some b ∧ h ∈ t.handlesIn b
      ∧ (t.handlesIn b).find? (t.answers (Resource.id r)) = some h := by
  have hfound := hall h r hr
  rw [ht.find_eq] at hfound
  unfold found at hfound
  cases hb : t.address? (Resource.id r) with
  | none => rw [hb] at hfound; cases hfound
  | some b =>
      rw [hb] at hfound
      have hfind := Except.ok.inj (Except.ok.inj hfound)
      exact ⟨b, rfl, List.mem_of_find?_eq_some hfind, hfind⟩

/-- A table in which every resource is found is well placed, provided that identifiers answer to
each other alike. -/
theorem wellPlaced (ht : t.Sound) (hmutual : t.Mutual) (hall : t.EveryFound) : t.WellPlaced := by
  -- a handle is found in the bucket that it is in
  have hfirst : ∀ {b h r}, h ∈ t.handlesIn b → t.get? h = some r →
      t.address? (Resource.id r) = some b
        ∧ (t.handlesIn b).find? (t.answers (Resource.id r)) = some h := by
    intro b h r hm hr
    obtain ⟨b', hb, hm', hfind⟩ := ht.first_of_everyFound hall hr
    obtain rfl : b' = b := ht.wired.eq_of_mem hm' hm
    exact ⟨hb, hfind⟩
  refine ⟨fun h hl => ?_, fun b h hm r hr => (hfirst hm hr).1, fun b h hm k hk r hr hans => ?_⟩
  · obtain ⟨r, hr⟩ := Option.isSome_iff_exists.mp hl
    obtain ⟨b, -, hm, -⟩ := ht.first_of_everyFound hall hr
    exact ⟨b, hm⟩
  · obtain ⟨r', hr'⟩ : ∃ r', t.get? k = some r' := by
      cases hg : t.get? k with
      | none => rw [answers, hg] at hans; cases hans
      | some r' => exact ⟨r', rfl⟩
    have hans' : t.answers (Resource.id r') h := by
      unfold answers at hans ⊢
      rw [hr'] at hans
      rw [hr]
      exact hmutual k h r' r hr' hr hans
    obtain ⟨-, i, hi, rfl, hbefore⟩ := List.find?_eq_some_iff_getElem.mp (hfirst hm hr).2
    obtain ⟨-, j, hj, rfl, hbefore'⟩ := List.find?_eq_some_iff_getElem.mp (hfirst hk hr').2
    -- each of the two answers to the other, so that neither comes before the other
    rcases Nat.lt_trichotomy j i with hlt | rfl | hlt
    · have hno := hbefore j hlt
      rw [hans] at hno
      cases hno
    · rfl
    · have hno := hbefore' i hlt
      rw [hans'] at hno
      cases hno

/-- **Finding every resource** is the same as their being well placed. -/
theorem everyFound_iff (ht : t.Sound) (hself : t.SelfSame) (hmutual : t.Mutual) :
    t.EveryFound ↔ t.WellPlaced :=
  ⟨ht.wellPlaced hmutual, ht.everyFound hself⟩

/-- **A check is passed** when the table is well placed and its stored lengths are right. -/
theorem verify_iff (ht : t.Sound) : t.verify = .ok (.ok ()) ↔ t.WellPlaced ∧ t.Measured := by
  rw [ht.wired.reads.verify_iff ht.level]
  constructor
  · exact fun hp => ⟨⟨ht.wired.length_order_eq_iff.mp hp.size, hp.placed, hp.alone⟩, hp.lengths⟩
  · exact fun ⟨hw, hm⟩ => ⟨hw.placed, hw.alone, hm, ht.wired.length_order_eq_iff.mpr hw.linked⟩

/-- The check of a table that is well placed can only find fault with a stored length. -/
theorem verify_of_wellPlaced (ht : t.Sound) (hw : t.WellPlaced) (hm : ¬ t.Measured) :
    ∃ b, t.verify = .ok (.error (.staleLength b)) := by
  rcases ht.wired.reads.verify_cases ht.level with ⟨-, hp⟩ | ⟨fault, hv, hf⟩
  · exact absurd hp.lengths hm
  · cases hf with
    | @entry b h e _ hmem hg hentry =>
        have hr := get?_of_entry hg
        have hok := (verifyEntry_eq_ok t b (t.handlesIn b) h e).mpr
          ⟨hw.placed b h hmem _ hr, fun k hk => hw.alone b h hmem k hk _ hr⟩
        cases hok.symm.trans hentry
    | @length b c hc hlen => exact ⟨b, hv⟩
    | size hsize => exact absurd (ht.wired.length_order_eq_iff.mpr hw.linked) hsize

end Sound

/-- The stored lengths of a table that holds its lists are right. -/
theorem Holds.measured {t : Table ρ} (ht : t.Holds t.handlesIn) : t.Measured := fun b c hc => by
  rw [← (ht.chain b c hc).length]
  rfl

end Table

namespace Session

variable {ρ ι : Type} [Resource ρ ι] [Identifier ι]

/-- **A check finds out whether every resource is found**, and whether the stored lengths are right.
Identifiers may have been changed in place to anything and splits may have been cut short; only
those that are installed have to answer to themselves and to each other alike.

* A check never gets stuck. It is passed if and only if every resource is found under its own
  identifier and the stored lengths are right.
* Every resource is found if and only if none of them is in no bucket, in a bucket that its
  identifier does not belong in, or in one with another that answers to its identifier.
* If every resource is found, all that a check can find fault with is a stored length.
* As long as no lost resource is taken out by its handle, the stored lengths are right, so that the
  check is passed if and only if every resource is found. -/
theorem run_verifies {acts : List (Act ρ ι)} {s : Session ρ ι}
    (hr : (fresh : Session ρ ι).run acts = .ok s) (hself : s.table.SelfSame)
    (hmutual : s.table.Mutual) :
    (∃ answer, s.table.verify = .ok answer)
      ∧ (s.table.verify = .ok (.ok ()) ↔ s.table.EveryFound ∧ s.table.Measured)
      ∧ (s.table.EveryFound ↔ s.table.WellPlaced)
      ∧ (s.table.EveryFound → s.table.verify ≠ .ok (.ok ()) →
          ∃ b, s.table.verify = .ok (.error (.staleLength b)))
      ∧ ((fresh : Session ρ ι).Careful acts → s.table.Measured
          ∧ (s.table.verify = .ok (.ok ()) ↔ s.table.EveryFound)) := by
  have ht := run_sound hr
  have hfound := ht.everyFound_iff hself hmutual
  have hverify : s.table.verify = .ok (.ok ()) ↔ s.table.EveryFound ∧ s.table.Measured := by
    rw [hfound]
    exact ht.verify_iff
  refine ⟨ht.wired.reads.verify_total ht.level, hverify, hfound, fun hall hno => ?_, fun hc => ?_⟩
  · exact ht.verify_of_wellPlaced (hfound.mp hall) fun hm => hno (hverify.mpr ⟨hall, hm⟩)
  · have hm := (hc.kept hr).table.holds.measured
    exact ⟨hm, hverify.trans (and_iff_left hm)⟩

/-- Keyed identifiers answer to each other alike. -/
theorem mutual_keyed {w : IndexWidths} (t : Table (Record (KeyedId w))) : t.Mutual := by
  intro h k r r' _ _ hsame
  have hkeys : r.id.key.isSome = true ∧ r.id.key = r'.id.key := by
    simpa [Identifier.same, Resource.id] using hsame
  simp [Identifier.same, Resource.id, ← hkeys.2, hkeys.1]

/-- Of two resources in the only bucket the first one is given an identifier that cannot be hashed,
so that the next split loses both. -/
def bereft : List (Act (Record Table.WideId) Table.WideId) := Table.cutShort.map Act.request

theorem run_verifies_bereft :
    ∃ s, (fresh : Session (Record Table.WideId) Table.WideId).run bereft = .ok s
      ∧ s.table.SelfSame ∧ s.table.Mutual ∧ (fresh : Session _ _).Careful bereft
      ∧ s.table.get? ⟨1⟩ = some ⟨⟨some 2, some 1⟩, "b"⟩
      ∧ s.table.find ⟨some 2, some 1⟩ = .ok (.ok none)
      ∧ s.table.verify ≠ .ok (.ok ()) := by
  have hcareful : (fresh : Session (Record Table.WideId) Table.WideId).Careful bereft :=
    ⟨by rintro q ⟨⟩; trivial, fun _ _ => ⟨by rintro q ⟨⟩; trivial, fun _ _ =>
      ⟨by rintro q ⟨⟩; trivial, fun _ _ => ⟨by rintro q ⟨⟩; trivial, fun _ _ => trivial⟩⟩⟩⟩
  obtain ⟨s, hr⟩ :
      ∃ s, (fresh : Session (Record Table.WideId) Table.WideId).run bereft = .ok s := ⟨_, rfl⟩
  have hstate : ((fresh : Session (Record Table.WideId) Table.WideId).run bereft).map (fun s =>
      (s.table.named s.table.slots.handles, s.table.find ⟨some 2, some 1⟩)) =
      .ok ([(⟨0⟩, ⟨⟨some 1, none⟩, "a"⟩), (⟨1⟩, ⟨⟨some 2, some 1⟩, "b"⟩)], .ok (.ok none)) := rfl
  rw [hr] at hstate
  obtain ⟨hnamed, hfind⟩ := Prod.mk.inj (Except.ok.inj hstate)
  have hself : s.table.SelfSame := fun h r hget => by
    have hm := Table.mem_named_handles.mpr hget
    rw [hnamed] at hm
    simp only [List.mem_cons, Prod.mk.injEq, List.not_mem_nil, or_false] at hm
    rcases hm with ⟨-, rfl⟩ | ⟨-, rfl⟩ <;> rfl
  have hget : s.table.get? ⟨1⟩ = some ⟨⟨some 2, some 1⟩, "b"⟩ := by
    rw [← Table.mem_named_handles, hnamed]
    exact List.mem_cons_of_mem _ List.mem_cons_self
  refine ⟨s, hr, hself, mutual_keyed _, hcareful, hget, hfind, fun hv => ?_⟩
  have hall := ((run_verifies hr hself (mutual_keyed _)).2.1.mp hv).1
  have hfound := hall ⟨1⟩ _ hget
  cases hfind.symm.trans hfound

/-- Three of four resources in the only bucket stay there when a split is cut short, and the last
one is lost. It is taken out by its handle, from the bucket that it is not in, and so is the first
one afterwards. -/
def miscounted : List (Act (Record Table.WideId) Table.WideId) :=
  [.request (.add true ⟨⟨some 1, some 0⟩, "a"⟩), .request (.add true ⟨⟨some 2, some 0⟩, "b"⟩),
    .request (.add false ⟨⟨some 3, some 0⟩, "c"⟩), .request (.add false ⟨⟨some 4, some 0⟩, "d"⟩),
    .request (.modifyHandle ⟨3⟩ fun r => { r with id := ⟨some 4, none⟩ }),
    .request (.add true ⟨⟨some 5, some 0⟩, "e"⟩), .request (.removeHandle ⟨3⟩),
    .request (.removeHandle ⟨0⟩)]

/-- The other two are in the bucket and are found, and every installed identifier can be hashed. But
the stored length of the bucket is one, and so the check fails. -/
theorem run_miscounted :
    ∃ s, (fresh : Session (Record Table.WideId) Table.WideId).run miscounted = .ok s
      ∧ (∀ h r, s.table.get? h = some r → (Identifier.hash? (Resource.id r)).isSome)
      ∧ s.table.SelfSame ∧ s.table.Mutual
      ∧ (List.range 2).map s.table.handlesIn = [[⟨1⟩, ⟨2⟩], []]
      ∧ s.table.EveryFound ∧ s.table.verify = .ok (.error (.staleLength 0)) := by
  obtain ⟨s, hr⟩ :
      ∃ s, (fresh : Session (Record Table.WideId) Table.WideId).run miscounted = .ok s := ⟨_, rfl⟩
  have hstate : ((fresh : Session (Record Table.WideId) Table.WideId).run miscounted).map
      (fun s => (s.table.named s.table.slots.handles, (List.range 2).map s.table.handlesIn,
        s.table.find ⟨some 2, some 0⟩, s.table.find ⟨some 3, some 0⟩, s.table.verify)) =
      .ok ([(⟨1⟩, ⟨⟨some 2, some 0⟩, "b"⟩), (⟨2⟩, ⟨⟨some 3, some 0⟩, "c"⟩)], [[⟨1⟩, ⟨2⟩], []],
        .ok (.ok (some ⟨1⟩)), .ok (.ok (some ⟨2⟩)), .ok (.error (.staleLength 0))) := rfl
  rw [hr] at hstate
  obtain ⟨hnamed, hrest⟩ := Prod.mk.inj (Except.ok.inj hstate)
  obtain ⟨hlists, hrest⟩ := Prod.mk.inj hrest
  obtain ⟨hfind, hrest⟩ := Prod.mk.inj hrest
  obtain ⟨hfind', hverify⟩ := Prod.mk.inj hrest
  have hcases : ∀ h r, s.table.get? h = some r → (h = ⟨1⟩ ∧ r = ⟨⟨some 2, some 0⟩, "b"⟩)
      ∨ (h = ⟨2⟩ ∧ r = ⟨⟨some 3, some 0⟩, "c"⟩) := fun h r hget => by
    have hm := Table.mem_named_handles.mpr hget
    rw [hnamed] at hm
    simpa only [List.mem_cons, Prod.mk.injEq, List.not_mem_nil, or_false] using hm
  refine ⟨s, hr, fun h r hget => ?_, fun h r hget => ?_, mutual_keyed _, hlists, fun h r hget => ?_,
    hverify⟩
  · rcases hcases h r hget with ⟨-, rfl⟩ | ⟨-, rfl⟩ <;> rfl
  · rcases hcases h r hget with ⟨-, rfl⟩ | ⟨-, rfl⟩ <;> rfl
  · rcases hcases h r hget with ⟨rfl, rfl⟩ | ⟨rfl, rfl⟩
    · exact hfind
    · exact hfind'

end Session

end ResourceIndex
