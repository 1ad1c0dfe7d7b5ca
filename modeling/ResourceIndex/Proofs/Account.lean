import ResourceIndex.Proofs.Splitting

set_option autoImplicit false

/-! # Tables accounted for

A split that is cut short leaves resources in no bucket. They are *lost*: they have their handles
and count as installed, but nothing that goes through the buckets comes to them. A table is
*accounted for* by the handles it has lost (`Table.Accounted`) when every live handle is in one of
its buckets or among these, and not both. So the resources it counts are those of its buckets and
the lost ones (`Accounted.size_eq`).

Nothing is asked of the identifiers, some of which it may not be possible to hash.
-/

namespace ResourceIndex

namespace Table

variable {ρ ι : Type}

/-! ## The handles in the buckets -/

/-- The handles in a bucket, in their order, which are those that the links lead to from its first
entry on. -/
def handlesIn (t : Table ρ) (bucket : Nat) : List Handle :=
  match t.entries bucket with
  | .ok rows => rows.map Prod.fst
  | .error _ => []

/-- The handles in all buckets, bucket by bucket. -/
def order (t : Table ρ) : List Handle := (List.range t.buckets.size).flatMap t.handlesIn

/-- The stored length of a bucket, which is zero if there is no such bucket. -/
def lengthIn (t : Table ρ) (bucket : Nat) : Nat := (t.buckets[bucket]?.map Chain.length).getD 0

/-- The sum of the stored lengths of the buckets. -/
def linked (t : Table ρ) : Nat := (t.buckets.toList.map Chain.length).sum

theorem lengthIn_of_some {t : Table ρ} {b : Nat} {c : Chain} (hc : t.buckets[b]? = some c) :
    t.lengthIn b = c.length := by
  unfold lengthIn
  rw [hc]
  rfl

namespace Holds

variable {t : Table ρ} {lists : Nat → List Handle}

/-- The lists that a table holds are read off its buckets. -/
theorem handlesIn_eq (ht : t.Holds lists) : t.handlesIn = lists := by
  funext i
  unfold handlesIn
  by_cases hi : i < t.buckets.size
  · rw [ht.reads.entries hi]
    exact Slots.map_fst_rows fun h => ht.isSome_of_mem
  · have hnone : t.buckets[i]? = none := Array.getElem?_eq_none (Nat.le_of_not_lt hi)
    have herr : t.entries i = .error (.noBucket i) := by
      unfold entries Table.chain
      rw [hnone]
      rfl
    rw [herr, ht.beyond i (Nat.le_of_not_lt hi)]

theorem mem_order (ht : t.Holds t.handlesIn) {h : Handle} :
    h ∈ t.order ↔ ∃ i, h ∈ t.handlesIn i :=
  ht.mem_flatMap

theorem nodup_order (ht : t.Holds t.handlesIn) : t.order.Nodup := ht.nodup_flatMap

/-- The stored lengths add up to the number of handles in all lists. -/
theorem sum_length (ht : t.Holds lists) : (t.buckets.toList.map Chain.length).sum =
    ((List.range t.buckets.size).flatMap lists).length := by
  have hlengths : t.buckets.toList.map Chain.length =
      (List.range t.buckets.size).map fun i => (lists i).length := by
    refine List.ext_getElem (by simp) fun i hi _ => ?_
    have hlt : i < t.buckets.size := by simpa using hi
    have hc := ht.chain i t.buckets[i] (Array.getElem?_eq_getElem hlt)
    simpa using hc.length
  rw [hlengths, List.length_flatMap]

/-- The stored lengths are those of the lists. -/
theorem linked_eq (ht : t.Holds t.handlesIn) : t.linked = t.order.length := ht.sum_length

end Holds

/-! ## Accounting for every handle -/

/-- Every live handle of the table is in one of its buckets, or it is one of the handles `lost`
and in none. -/
structure Accounted [Resource ρ ι] [Identifier ι] (t : Table ρ) (lost : List Handle) : Prop where
  holds : t.Holds t.handlesIn
  level : ∃ k, t.AtLevel (Identifier.widths ι) k
  live_iff : ∀ h, (t.get? h).isSome ↔ h ∈ t.order ∨ h ∈ lost
  apart : ∀ h ∈ lost, h ∉ t.order
  nodup : lost.Nodup

variable [Resource ρ ι] [Identifier ι]

/-- A fresh table is accounted for. -/
theorem accounted_new : (new : Table ρ).Accounted [] := by
  have hb : (new : Table ρ).buckets = Array.replicate (Identifier.widths ι).leastBuckets
      Chain.empty := rfl
  have hholds := holds_replicate hb rfl
  have hlists := hholds.handlesIn_eq
  refine ⟨?_, ⟨_, new_atLevel⟩, fun h => ?_, nofun, List.nodup_nil⟩
  · rw [hlists]
    exact hholds
  · have hget : (new : Table ρ).get? h = none := by
      rw [get?, show (new : Table ρ).slots = Slots.empty from rfl, Slots.get?_empty]
      rfl
    simp [hget, order, hlists]

namespace Accounted

variable {t : Table ρ} {lost : List Handle}

theorem isSome_of_mem (ha : t.Accounted lost) {i : Nat} {h : Handle} (hm : h ∈ t.handlesIn i) :
    (t.get? h).isSome :=
  (ha.live_iff h).mpr (Or.inl (ha.holds.mem_order.mpr ⟨i, hm⟩))

theorem isSome_of_lost (ha : t.Accounted lost) {h : Handle} (hm : h ∈ lost) :
    (t.get? h).isSome :=
  (ha.live_iff h).mpr (Or.inr hm)

theorem not_mem_of_lost (ha : t.Accounted lost) {h : Handle} (hm : h ∈ lost) (i : Nat) :
    h ∉ t.handlesIn i := fun hi => ha.apart h hm (ha.holds.mem_order.mpr ⟨i, hi⟩)

theorem exists_mem (ha : t.Accounted lost) {h : Handle} (hl : (t.get? h).isSome)
    (hn : h ∉ lost) : ∃ i, h ∈ t.handlesIn i :=
  ha.holds.mem_order.mp (((ha.live_iff h).mp hl).resolve_right hn)

/-- A handle is in the buckets once, unless it is lost or names nothing. -/
theorem count_order (ha : t.Accounted lost) (h : Handle) :
    t.order.count h = if (t.get? h).isSome ∧ h ∉ lost then 1 else 0 := by
  rw [ha.holds.nodup_order.count]
  have hiff : h ∈ t.order ↔ (t.get? h).isSome ∧ h ∉ lost := by
    rw [ha.live_iff]
    constructor
    · exact fun hm => ⟨Or.inl hm, fun hl => ha.apart h hl hm⟩
    · rintro ⟨hm, hn⟩
      exact hm.resolve_right hn
  simp only [hiff]

/-- **The resources counted** are those in the buckets and those that are lost. -/
theorem size_eq (ha : t.Accounted lost) : t.size = t.linked + lost.length := by
  have hnd : (t.order ++ lost).Nodup :=
    List.nodup_append.mpr ⟨ha.holds.nodup_order, ha.nodup, fun h hm k hk he =>
      ha.apart k hk (he ▸ hm)⟩
  have hperm : (t.order ++ lost).Perm t.slots.handles := by
    apply (List.perm_ext_iff_of_nodup hnd t.slots.nodup_handles).mpr
    intro h
    rw [List.mem_append, ← ha.live_iff, Slots.mem_handles]
    exact Bool.coe_iff_coe.mpr (Slots.isSome_resource? t.slots h)
  calc t.size = t.slots.handles.length := t.slots.length_handles.symm
    _ = (t.order ++ lost).length := hperm.length_eq.symm
    _ = t.linked + lost.length := by rw [List.length_append, ha.holds.linked_eq]

end Accounted

end Table

end ResourceIndex
