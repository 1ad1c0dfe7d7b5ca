import ResourceIndex.Proofs.Wiring

set_option autoImplicit false

/-! # Resources that no bucket leads to

In a wired table the handles in the buckets are those of strands, so that none of them is in two
buckets or in one of them twice. The other installed resources are *astray* (`Table.astray`): the
ones that a split has lost, and those behind a lost one that has been taken out by its handle.
Together they are all resources that a table counts (`Table.Wired.size_eq`).
-/

namespace ResourceIndex

namespace Table

variable {ρ ι : Type}

/-- The installed resources that are in no bucket. -/
def astray (t : Table ρ) : List Handle := t.slots.handles.filter fun h => h ∉ t.order

namespace Wired

variable {t : Table ρ} {b : Nat} {h : Handle}

theorem mem_order (ht : t.Wired) : h ∈ t.order ↔ ∃ b, h ∈ t.handlesIn b :=
  mem_flatMap_range fun _ _ => ht.reads.lt_size

/-- No handle is in two buckets, or in one of them twice. -/
theorem nodup_order (ht : t.Wired) : t.order.Nodup :=
  nodup_flatMap_range (fun b => (ht.handlesIn_strand b).2.nodup) fun _ _ _ => ht.eq_of_mem

theorem isSome_of_mem_order (ht : t.Wired) (hm : h ∈ t.order) : (t.get? h).isSome := by
  obtain ⟨b, hm⟩ := ht.mem_order.mp hm
  exact (Slots.isSome_resource? t.slots h).trans (ht.reads.live hm)

/-- **Every installed resource is in a bucket, once, or astray.** -/
theorem size_eq (ht : t.Wired) : t.size = t.order.length + t.astray.length := by
  have hin : (t.slots.handles.filter fun h => h ∈ t.order).Perm t.order := by
    refine (List.perm_ext_iff_of_nodup (t.slots.nodup_handles.filter _) ht.nodup_order).mpr
      fun h => ?_
    rw [List.mem_filter, decide_eq_true_iff, and_iff_right_iff_imp, Slots.mem_handles,
      ← Slots.isSome_resource?]
    exact ht.isSome_of_mem_order
  calc t.size = t.slots.handles.length := t.slots.length_handles.symm
    _ = (t.slots.handles.filter fun h => h ∈ t.order).length + t.astray.length := by
      rw [astray, List.length_eq_length_filter_add (fun h => decide (h ∈ t.order))]
      simp only [decide_not]
    _ = t.order.length + t.astray.length := by rw [hin.length_eq]

end Wired

namespace Accounted

variable [Resource ρ ι] [Identifier ι] {t : Table ρ} {lost : List Handle}

/-- The handles astray are the lost ones. -/
theorem mem_astray (ha : t.Accounted lost) {h : Handle} : h ∈ t.astray ↔ h ∈ lost := by
  unfold astray
  rw [List.mem_filter, Slots.mem_handles, decide_eq_true_iff, ← Slots.isSome_resource?]
  constructor
  · rintro ⟨hl, hn⟩
    exact ((ha.live_iff h).mp hl).resolve_left hn
  · exact fun hm => ⟨ha.isSome_of_lost hm, ha.apart h hm⟩

theorem length_astray (ha : t.Accounted lost) : t.astray.length = lost.length := by
  refine ((List.perm_ext_iff_of_nodup ?_ ha.nodup).mpr fun h => ha.mem_astray).length_eq
  exact t.slots.nodup_handles.filter _

end Accounted

end Table

end ResourceIndex
