import ResourceIndex.Proofs.Account
import ResourceIndex.Proofs.Progress

set_option autoImplicit false

/-! # The structure of a table

`run_structure` is what can be relied on whatever callers do to the identifiers of installed
resources, as long as these can be hashed. A resource may then be in a bucket it does not belong
in and may not be found by its identifier, but it is in exactly one bucket, once, it is recorded
with the index of that bucket, and its handle leads to it.
-/

namespace ResourceIndex

namespace Table

variable {ρ ι : Type} [Resource ρ ι] [Identifier ι]

section Contents

/-- The entries of all buckets, in the order of the buckets. -/
def contents (t : Table ρ) : Checked (List (List (Handle × Entry ρ))) :=
  (List.range t.buckets.size).mapM t.entries

variable {kept : Prop} {m : Ledger ρ} {t : Table ρ} {lists : Nat → List Handle}

theorem Reads.contents_eq (hr : t.Reads lists) :
    t.contents = .ok ((List.range t.buckets.size).map fun i => t.slots.rows (lists i)) :=
  Checked.mapM_eq_ok fun _ hi => hr.entries (List.mem_range.mp hi)

/-- The handles in all buckets, bucket by bucket. -/
theorem map_fst_contents (ht : t.Holds lists) :
    ((List.range t.buckets.size).map fun i => t.slots.rows (lists i)).flatten.map Prod.fst =
      (List.range t.buckets.size).flatMap lists := by
  rw [List.map_flatten, List.map_map, List.flatMap_def]
  congr 1
  apply List.map_congr_left
  intro i _
  exact Slots.map_fst_rows fun h => ht.isSome_of_mem

/-- A handle is in the buckets once if it is live, and otherwise not at all. -/
theorem Agrees.count_contents (ha : Agrees kept m t lists) (h : Handle) :
    ((List.range t.buckets.size).flatMap lists).count h =
      if (t.get? h).isSome then 1 else 0 := by
  rw [ha.flatMap_perm.count_eq, ha.ordered.handles_nodup.count]
  by_cases hm : h ∈ m.handles
  · rw [if_pos hm, if_pos ((ha.isSome_get? h).mpr hm)]
  · rw [if_neg hm, if_neg fun hl => hm ((ha.isSome_get? h).mp hl)]

/-- The stored lengths of the chains add up to the number of resources. -/
theorem Agrees.sum_length (ha : Agrees kept m t lists) :
    (t.buckets.toList.map Chain.length).sum = t.size := by
  calc (t.buckets.toList.map Chain.length).sum
      = ((List.range t.buckets.size).flatMap lists).length := ha.holds.sum_length
    _ = m.handles.length := ha.flatMap_perm.length_eq
    _ = t.size := ha.size.symm

end Contents

/-- **The structure of a table**, after any run of requests to a fresh one that give no installed
resource an identifier that cannot be hashed. The run comes to its end, as a run of the ledger
`m` whose lookups by identifier may miss. The handles name what they name in the ledger. Each
live handle is in the buckets once, with its own entry, in the bucket of the index recorded
there; no other handle is; and the stored lengths are those of the buckets and add up to the
number of resources. -/
theorem run_structure (qs : List (Request ρ ι)) (hqs : ∀ q ∈ qs, q.KeepsHashable) :
    ∃ exchanges t m, (new : Table ρ).run qs = .ok (exchanges, t)
      ∧ exchanges.map Exchange.request = qs
      ∧ Follows (Ledger.Step Ledger.MayFind) {} exchanges m
      ∧ (∀ h, t.get? h = m.get? h)
      ∧ ∃ contents : List (List (Handle × Entry ρ)),
        t.contents = .ok contents ∧ contents.length = t.buckets.size
        ∧ (∀ (i : Nat) (bucket : List (Handle × Entry ρ)), contents[i]? = some bucket →
            t.buckets[i]?.map Chain.length = some bucket.length
              ∧ ∀ row ∈ bucket, row.2.bucket = i ∧ t.slots.get? row.1 = some row.2)
        ∧ (∀ h, (contents.flatten.map Prod.fst).count h = if (t.get? h).isSome then 1 else 0)
        ∧ t.size = (t.buckets.toList.map Chain.length).sum := by
  obtain ⟨exchanges, t, m, hrun, hreq, hfollows, lists, ha⟩ :=
    run_agrees False (fun ha id => ha.mayFind id) qs fun q hq => ⟨hqs q hq, nofun⟩
  refine ⟨exchanges, t, m, hrun, hreq, hfollows, ha.get, _, ha.holds.reads.contents_eq, by simp,
    ?_, ?_, ha.sum_length.symm⟩
  · intro i bucket hb
    rw [List.getElem?_map] at hb
    obtain ⟨j, hj, rfl⟩ := Option.map_eq_some_iff.mp hb
    obtain ⟨hi, rfl⟩ := List.getElem?_eq_some_iff.mp hj
    rw [List.getElem_range]
    rw [List.length_range] at hi
    have hc := ha.holds.chain i t.buckets[i] (Array.getElem?_eq_getElem hi)
    refine ⟨?_, fun row hrow => ?_⟩
    · rw [Array.getElem?_eq_getElem hi, hc.length_rows]
      rfl
    · obtain ⟨hm, hg⟩ := Slots.mem_rows.mp hrow
      obtain ⟨e, he, hb⟩ := Slots.home_eq_some.mp (ha.holds.home i row.1 hm)
      obtain rfl : e = row.2 := Option.some.inj (he.symm.trans hg)
      exact ⟨hb, hg⟩
  · intro h
    rw [map_fst_contents ha.holds]
    exact ha.count_contents h

/-- A resource is given another identifier before a split, which moves it accordingly. Another one
is given one after the split and is then taken out of a bucket that it does not belong in. -/
def rewritten : List (Request (Record WideId) WideId) :=
  [.add true ⟨⟨some 1, some 0⟩, "a"⟩, .add true ⟨⟨some 2, some 0⟩, "b"⟩,
    .modifyHandle ⟨0⟩ fun r => { r with id := ⟨some 1, some 1⟩ },
    .add true ⟨⟨some 3, some 0⟩, "c"⟩,
    .modifyHandle ⟨1⟩ fun r => { r with id := ⟨some 2, some 1⟩ }, .removeHandle ⟨1⟩]

theorem run_structure_rewritten : (∀ q ∈ rewritten, q.KeepsHashable)
    ∧ ∃ exchanges t contents, (new : Table (Record WideId)).run rewritten = .ok (exchanges, t)
      ∧ t.contents = .ok contents ∧ t.size = 2
      ∧ ∀ h, (contents.flatten.map Prod.fst).count h = if (t.get? h).isSome then 1 else 0 := by
  have hkeeps : ∀ q ∈ rewritten, q.KeepsHashable := by
    unfold rewritten
    simp only [List.forall_mem_cons]
    exact ⟨trivial, trivial, fun _ _ => rfl, trivial, fun _ _ => rfl, trivial, nofun⟩
  obtain ⟨exchanges, t, m, hrun, -, -, -, contents, hc, -, -, hcount, -⟩ :=
    run_structure rewritten hkeeps
  have hsize : ((new : Table (Record WideId)).run rewritten).map (fun p => p.2.size) = .ok 2 := rfl
  rw [hrun] at hsize
  exact ⟨hkeeps, exchanges, t, contents, hrun, hc, Except.ok.inj hsize, hcount⟩

end Table

end ResourceIndex
