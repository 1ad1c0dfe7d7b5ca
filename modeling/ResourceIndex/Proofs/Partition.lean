import ResourceIndex.Proofs.Agreement
import ResourceIndex.Proofs.Restraint

set_option autoImplicit false

/-! # What a finished split leaves behind

A split empties the bucket at the cursor and hands its handles out again, by the geometry that has
one bucket more (`Table.Partitions`). Handles with identifiers that have been changed in place may
go to any bucket. If all of them belonged in the bucket, the next bit of their hashes divides them
between this bucket and the new one, in the order they were in.

The main statement is `Session.run_partitions`, for sessions in which no lost resource is taken out
by its handle. One that is taken out leaves a bucket whose last entry does not come after its first,
and what a split then links behind the last entry is not in the bucket (`Session.run_severed`).
-/

namespace ResourceIndex

namespace Table

variable {ρ ι : Type}

/-- Of `n` buckets the one that is split next. -/
def splitIndex (n : Nat) : Nat := n - 2 ^ Nat.log2 n

variable [Resource ρ ι] [Identifier ι]

/-- The bit `k` of the hash of the identifier under a handle. -/
def hashBit (t : Table ρ) (k : Nat) (h : Handle) : Bool :=
  (t.get? h).any fun r => (Identifier.hash? (Resource.id r)).any fun hash => hash.toNat.testBit k

/-- The table `t'` is what `t` has become when a split has come to its end. -/
structure Partitions (t t' : Table ρ) : Prop where
  buckets : t'.buckets.size = t.buckets.size + 1
  geometry : t'.geometry = t.geometry.forSplit.advance
  reserved : t'.reserved = max t.reserved t.geometry.forSplit.target
  doublings : t'.doublings =
    if t.geometry.forSplit.target ≤ t.reserved then t.doublings else t.doublings + 1
  /-- Each bucket keeps its handles, but for the one split, and gains those that now belong in it,
  in the order they were in. -/
  handlesIn : ∀ i, t'.handlesIn i =
    (if i = splitIndex t.buckets.size then [] else t.handlesIn i)
      ++ (t.handlesIn (splitIndex t.buckets.size)).filter fun h => t'.owner? h = some i
  /-- No resource has been added, removed or changed. -/
  size : t'.size = t.size
  get : ∀ h, t'.get? h = t.get? h
  fresh : t'.slots.fresh = t.slots.fresh
  splits : t'.splits = t.splits + 1
  epoch : t'.epoch = t.epoch + 1
  /-- If all handles of the bucket split belonged there, the next bit of the hash divides them
  between it and the new bucket, and no other bucket changes. -/
  aligned : (∀ h ∈ t.handlesIn (splitIndex t.buckets.size),
      t.owner? h = some (splitIndex t.buckets.size)) →
    t'.handlesIn (splitIndex t.buckets.size) =
        (t.handlesIn (splitIndex t.buckets.size)).filter
          (fun h => !t.hashBit (Nat.log2 t.buckets.size) h)
      ∧ t'.handlesIn t.buckets.size = (t.handlesIn (splitIndex t.buckets.size)).filter
          (t.hashBit (Nat.log2 t.buckets.size))
      ∧ ∀ i, i ≠ splitIndex t.buckets.size → i ≠ t.buckets.size →
          t'.handlesIn i = t.handlesIn i
  /-- What was in the bucket it belonged in is in the one it now belongs in. -/
  placed : ∀ i h, h ∈ t.handlesIn i → t.owner? h = some i →
    ∃ j, h ∈ t'.handlesIn j ∧ t'.owner? h = some j

namespace Accounted

variable {t t' : Table ρ} {lost : List Handle}

/-- The bucket split next, and where its handles go. -/
theorem cursor_eq (ha : t.Accounted lost) :
    ∃ g k, g = t.geometry.forSplit ∧ g.Spans k t.buckets.size ∧ g.nextSplit < 2 ^ k
      ∧ (∀ h, t.owner? h = owner g t.slots h)
      ∧ Nat.log2 t.buckets.size = k ∧ splitIndex t.buckets.size = g.nextSplit := by
  obtain ⟨k, hk⟩ := ha.level
  obtain ⟨j, hj, hlt, -⟩ := hk.spans.forSplit
  obtain ⟨hlog, hcursor⟩ := hj.log2_eq hlt
  exact ⟨_, j, rfl, hj, hlt, owner_spans hk.spans hj t.slots, hlog, hcursor⟩

/-- A handle of the bucket split that belonged there goes where the next bit of its hash says. -/
theorem owner?_of_splitTo (ha : t.Accounted lost) (hs : t.SplitTo t') {h : Handle}
    (ho : t.owner? h = some (splitIndex t.buckets.size)) :
    t'.owner? h = some (if t.hashBit (Nat.log2 t.buckets.size) h then t.buckets.size
      else splitIndex t.buckets.size) := by
  obtain ⟨g, k, hg, hspans, hlt, howner, hlog, hcursor⟩ := ha.cursor_eq
  rw [howner, hcursor] at ho
  unfold owner at ho
  obtain ⟨r, hr, ho⟩ := Option.bind_eq_some_iff.mp ho
  obtain ⟨hash, hhash, hroute⟩ := Option.map_eq_some_iff.mp ho
  have hget : t.get? h = some r := hr
  have hbit : t.hashBit k h = hash.toNat.testBit k := by
    unfold hashBit
    rw [hget, Option.any_some, hhash, Option.any_some]
  refine (hs.owner_eq h).trans ?_
  unfold owner
  rw [hr, Option.bind_some, hhash, Option.map_some, ← hg, hspans.route_advance_of_eq hlt hroute,
    hlog, hbit, hcursor]

/-- **A split that has come to its end.** -/
theorem partitions (ha : t.Accounted lost) (hs : t.SplitTo t')
    (hall : (t.handlesIn t.geometry.forSplit.nextSplit).dropWhile t.hashable = [])
    (hsplits : t'.splits = t.splits + 1) (hepoch : t'.epoch = t.epoch + 1) : t.Partitions t' := by
  obtain ⟨g, k, hg, hspans, hlt, howner, hlog, hcursor⟩ := ha.cursor_eq
  have howner' : ∀ h, t'.owner? h = owner g.advance t.slots h := by
    rw [hg]
    exact hs.owner_eq
  rw [← hg] at hall
  have hlists : ∀ i, t'.handlesIn i =
      (if i = splitIndex t.buckets.size then [] else t.handlesIn i)
        ++ (t.handlesIn (splitIndex t.buckets.size)).filter fun h => t'.owner? h = some i := by
    intro i
    rw [hs.handlesIn, ← hg]
    unfold listsAfterSplit
    rw [arrivals_of_isSome, hcursor, Function.update_apply]
    · simp only [howner']
    · intro h hm
      rw [isSome_owner]
      exact List.dropWhile_eq_nil_iff.mp hall h hm
  refine ⟨hs.buckets, hs.geometry, hs.reserved.trans (provisioned_reserved _ _),
    hs.doublings.trans (provisioned_doublings _ _), hlists, hs.size, hs.get, hs.fresh, hsplits,
    hepoch, fun hown => ?_, fun i h hm ho => ?_⟩
  · have hne : splitIndex t.buckets.size ≠ t.buckets.size := by
      rw [hcursor]
      exact Nat.ne_of_lt hspans.cursor_lt
    have hgoes : ∀ h ∈ t.handlesIn (splitIndex t.buckets.size), t'.owner? h = some
        (if t.hashBit (Nat.log2 t.buckets.size) h then t.buckets.size
          else splitIndex t.buckets.size) :=
      fun h hm => ha.owner?_of_splitTo hs (hown h hm)
    refine ⟨?_, ?_, fun i hic hin => ?_⟩
    · rw [hlists, if_pos rfl, List.nil_append]
      refine List.filter_congr fun h hm => ?_
      rw [hgoes h hm]
      cases t.hashBit (Nat.log2 t.buckets.size) h <;> simp [Ne.symm hne]
    · rw [hlists, if_neg (Ne.symm hne), ha.holds.beyond _ (Nat.le_refl _), List.nil_append]
      refine List.filter_congr fun h hm => ?_
      rw [hgoes h hm]
      cases t.hashBit (Nat.log2 t.buckets.size) h <;> simp [hne]
    · rw [hlists, if_neg hic, List.filter_eq_nil_iff.mpr, List.append_nil]
      intro h hm
      rw [hgoes h hm]
      cases t.hashBit (Nat.log2 t.buckets.size) h <;> simp [Ne.symm hic, Ne.symm hin]
  · by_cases hic : i = splitIndex t.buckets.size
    · subst hic
      have hgoes := ha.owner?_of_splitTo hs ho
      refine ⟨_, ?_, hgoes⟩
      rw [hlists]
      exact List.mem_append_right _ (List.mem_filter.mpr ⟨hm, by simpa using hgoes⟩)
    · -- the handle is not of the bucket at the cursor, so it belongs where it did
      have hstays : t'.owner? h = some i := by
        rw [howner] at ho
        rw [howner']
        rcases owner_advance hspans hlt t.slots h with ⟨-, -, heq⟩ | ⟨heq, -⟩
        · exact heq.trans ho
        · rw [ho] at heq
          exact absurd ((Option.some.inj heq).trans hcursor.symm) hic
      refine ⟨i, ?_, hstays⟩
      rw [hlists, if_neg hic]
      exact List.mem_append_left _ hm

end Accounted

end Table

namespace Session

variable {ρ ι : Type} [Resource ρ ι] [Identifier ι]

/-- **What a finished split leaves behind**, after any session in which no lost resource is taken
out by its handle. Every addition that counts a split consists of the split and of accepting the
resource afterwards. And an addition before which a bucket is to be split does count a split if all
identifiers in this bucket can be hashed. -/
theorem run_partitions {acts : List (Act ρ ι)} (hc : (fresh : Session ρ ι).Careful acts) :
    ∃ s, (fresh : Session ρ ι).run acts = .ok s
      ∧ (∀ granted r o, s.table.add granted r = .ok o → o.state.splits ≠ s.table.splits →
          ∃ grown, s.table.growIfOverfull granted = .ok grown ∧ grown.answer = .ok ()
            ∧ s.table.Partitions grown.state ∧ Table.acceptAfter grown r = .ok o)
      ∧ ∀ granted r, s.table.Splits granted →
          (∀ h ∈ s.table.handlesIn (Table.splitIndex s.table.buckets.size), s.table.hashable h) →
            ∃ o, s.table.add granted r = .ok o ∧ o.state.splits = s.table.splits + 1 := by
  obtain ⟨s, hrun, hs⟩ := Careful.run acts fresh_kept hc
  have ha := hs.table
  refine ⟨s, hrun, fun granted r o hadd hcounted => ?_, fun granted r hsplits hall => ?_⟩
  · obtain ⟨grown, hgrow, hcase⟩ := ha.grow granted
    rw [(Table.add_sameGrowth hadd hgrow).splits] at hcounted
    rcases hcase with ⟨hst, -⟩ | ⟨han, hto, -, hall, hsplits, hepoch, -⟩ | ⟨-, -, -, -, hsplits, -⟩
    · exact absurd (congrArg Table.splits hst) hcounted
    · refine ⟨grown, hgrow, han, ha.partitions hto hall hsplits hepoch, ?_⟩
      rw [← Table.add_of_grown hgrow han, hadd]
    · exact absurd hsplits hcounted
  · obtain ⟨g, -, hg, -, -, -, -, hcursor⟩ := ha.cursor_eq
    rw [hcursor, hg] at hall
    obtain ⟨grown, hgrow, hcase⟩ := ha.grow granted
    rcases hcase with ⟨hst, -⟩ | ⟨han, -, ha', -, hcount, -⟩ | ⟨-, -, -, hne, -⟩
    · have hsize := Table.size_of_splits hsplits hgrow
      rw [hst] at hsize
      omega
    · obtain ⟨o, hadd, -⟩ := Table.Accounted.add_of_grown hgrow han ha' r
      exact ⟨o, hadd, (Table.add_sameGrowth hadd hgrow).splits.trans hcount⟩
    · exact absurd (List.dropWhile_eq_nil_iff.mpr hall) hne

/-- Three resources are in the first of two buckets, and the last one is then given an identifier that
belongs in the second. -/
def divided : List (Act (Record Table.WideId) Table.WideId) :=
  [.request (.add true ⟨⟨some 1, some 0⟩, "a"⟩), .request (.add true ⟨⟨some 2, some 2⟩, "b"⟩),
    .request (.add true ⟨⟨some 3, some 4⟩, "c"⟩),
    .request (.modifyHandle ⟨2⟩ fun r => { r with id := ⟨some 3, some 1⟩ })]

/-- One stays where it is, one goes to the new bucket and one to the bucket in between. -/
theorem run_partitions_divided :
    (fresh : Session (Record Table.WideId) Table.WideId).Careful divided
      ∧ ∃ s grown, (fresh : Session (Record Table.WideId) Table.WideId).run divided = .ok s
        ∧ s.table.growIfOverfull true = .ok grown ∧ s.table.Partitions grown.state
        ∧ (List.range 3).map s.table.handlesIn = [[⟨0⟩, ⟨1⟩, ⟨2⟩], [], []]
        ∧ (List.range 3).map grown.state.handlesIn = [[⟨0⟩], [⟨2⟩], [⟨1⟩]] := by
  have hcareful : (fresh : Session (Record Table.WideId) Table.WideId).Careful divided :=
    ⟨by rintro q ⟨⟩; trivial, fun _ _ => ⟨by rintro q ⟨⟩; trivial, fun _ _ =>
      ⟨by rintro q ⟨⟩; trivial, fun _ _ => ⟨by rintro q ⟨⟩; trivial, fun _ _ => trivial⟩⟩⟩⟩
  obtain ⟨s, hrun, hall, -⟩ := run_partitions hcareful
  have hstate : ((fresh : Session (Record Table.WideId) Table.WideId).run divided).map (fun s =>
      ((List.range 3).map s.table.handlesIn, s.table.splits,
        (s.table.add true ⟨⟨some 4, some 3⟩, "d"⟩).map fun o => o.state.splits,
        (s.table.growIfOverfull true).map fun o => (List.range 3).map o.state.handlesIn)) =
      .ok ([[⟨0⟩, ⟨1⟩, ⟨2⟩], [], []], 1, .ok 2, .ok [[⟨0⟩], [⟨2⟩], [⟨1⟩]]) := rfl
  rw [hrun] at hstate
  obtain ⟨hbefore, hrest⟩ := Prod.mk.inj (Except.ok.inj hstate)
  obtain ⟨hsplits, hrest⟩ := Prod.mk.inj hrest
  obtain ⟨hadd, hafter⟩ := Prod.mk.inj hrest
  cases ho : s.table.add true ⟨⟨some 4, some 3⟩, "d"⟩ with
  | error c =>
      rw [ho] at hadd
      cases hadd
  | ok o =>
      rw [ho] at hadd
      have hcount : o.state.splits = 2 := Except.ok.inj hadd
      obtain ⟨grown, hgrow, -, hpart, -⟩ := hall true _ o ho (by omega)
      rw [hgrow] at hafter
      exact ⟨hcareful, s, grown, hrun, hgrow, hpart, hbefore, Except.ok.inj hafter⟩

/-- A split is cut short and loses the last three of the five resources of its bucket. The middle one
of these is taken out by its handle, from the bucket that it is not in any more: this bucket now
begins with the one after it and still ends with the second one, which is behind no entry of the
bucket. The resource of the bucket to be split next is given an identifier that belongs there. -/
def severed : List (Act (Record Table.WideId) Table.WideId) :=
  [.request (.add true ⟨⟨some 1, some 0⟩, "a"⟩), .request (.add true ⟨⟨some 2, some 0⟩, "b"⟩),
    .request (.add true ⟨⟨some 3, some 0⟩, "c"⟩), .request (.add false ⟨⟨some 4, some 0⟩, "d"⟩),
    .request (.add false ⟨⟨some 5, some 0⟩, "e"⟩), .request (.add false ⟨⟨some 6, some 1⟩, "f"⟩),
    .request (.modifyHandle ⟨2⟩ fun r => { r with id := ⟨some 3, none⟩ }),
    .request (.add true ⟨⟨some 7, some 0⟩, "g"⟩), .request (.removeHandle ⟨3⟩),
    .request (.modifyHandle ⟨5⟩ fun r => { r with id := ⟨some 6, some 0⟩ })]

/-- A split that comes to its end then hands this resource on to the bucket, behind its last entry,
and so it is not in the bucket. -/
theorem run_severed :
    ∃ s grown o, (fresh : Session (Record Table.WideId) Table.WideId).run severed = .ok s
      ∧ s.table.growIfOverfull true = .ok grown ∧ grown.answer = .ok ()
      ∧ s.table.add true ⟨⟨some 8, some 2⟩, "h"⟩ = .ok o ∧ o.state.splits = s.table.splits + 1
      ∧ Table.splitIndex s.table.buckets.size = 1
      ∧ (List.range 4).map s.table.handlesIn = [[⟨4⟩], [⟨5⟩], [], []]
      ∧ grown.state.owner? ⟨5⟩ = some 0
      ∧ (List.range 4).map grown.state.handlesIn = [[⟨4⟩], [], [], []]
      ∧ ¬ s.table.Partitions grown.state := by
  refine ⟨_, _, _, rfl, rfl, rfl, rfl, rfl, rfl, rfl, rfl, rfl, fun hp => ?_⟩
  have hlist := hp.handlesIn 0
  revert hlist
  decide

end Session

end ResourceIndex
