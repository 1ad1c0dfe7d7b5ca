import Mathlib.Logic.Function.Basic
import ResourceIndex.Proofs.Reading

set_option autoImplicit false

/-! # The lists of a table's buckets

A table *holds* the lists `lists i` of handles when the chain of each bucket `i` stands for
`lists i` and every entry of that list has `i` recorded as its bucket (`Table.Holds`). The
record is what keeps the lists apart: no handle is in two of them. Since the stored lengths are
those of the lists, none of them is ever lowered below zero.

Nothing here depends on where an identifier belongs, so that it holds as well of tables whose
identifiers have been changed in place, and of tables some of whose resources are in no bucket.

Each operation on a bucket is an operation on its list: `link_spec` and `install_spec` append a
handle and `unlink_spec` erases one. What is met in a bucket is its list (`Holds.reads`).
-/

namespace ResourceIndex

/-! ## Changes to a store, seen through the observations -/

namespace Slots

variable {ρ : Type} (s : Slots (Entry ρ)) {h k : Handle}

theorem observe_erase (hk : k ≠ h) :
    (s.erase h).links k = s.links k ∧ (s.erase h).home k = s.home k := by
  unfold links home
  rw [get?_erase, if_neg hk]
  exact ⟨rfl, rfl⟩

theorem observe_insert (e : Entry ρ) (hk : k ≠ s.fresh) :
    (s.insert e).links k = s.links k ∧ (s.insert e).home k = s.home k := by
  unfold links home
  rw [get?_insert, if_neg hk]
  exact ⟨rfl, rfl⟩

/-- A change to a resource in place. -/
theorem observe_modify (h k : Handle) (f : ρ → ρ) :
    (s.modify h fun e => { e with resource := f e.resource }).links k = s.links k
      ∧ (s.modify h fun e => { e with resource := f e.resource }).home k = s.home k := by
  unfold links home
  rw [get?_modify]
  split
  · rw [Option.map_map, Option.map_map]
    exact ⟨rfl, rfl⟩
  · exact ⟨rfl, rfl⟩

end Slots

namespace Table

variable {ρ : Type}

/-! ## Tables and their lists -/

/-- What is in the lists of all buckets. -/
theorem mem_flatMap_range {lists : Nat → List Handle} {n : Nat}
    (hlt : ∀ i h, h ∈ lists i → i < n) {h : Handle} :
    h ∈ (List.range n).flatMap lists ↔ ∃ i, h ∈ lists i := by
  rw [List.mem_flatMap]
  constructor
  · rintro ⟨i, -, hi⟩
    exact ⟨i, hi⟩
  · rintro ⟨i, hi⟩
    exact ⟨i, List.mem_range.mpr (hlt i h hi), hi⟩

/-- Lists that have no handle in common, and none of them twice, have none twice together. -/
theorem nodup_flatMap_range {lists : Nat → List Handle} {n : Nat}
    (hnd : ∀ i, (lists i).Nodup) (hone : ∀ i j h, h ∈ lists i → h ∈ lists j → i = j) :
    ((List.range n).flatMap lists).Nodup := by
  refine List.nodup_flatMap.mpr ⟨fun i _ => hnd i, ?_⟩
  refine List.nodup_range.imp ?_
  intro i j hij h hi hj
  exact hij (hone i j h hi hj)

/-- The chain of each bucket of the table stands for the list of the bucket, and no stored length
has ever been lowered below zero. -/
structure Holds (t : Table ρ) (lists : Nat → List Handle) : Prop where
  chain : ∀ (i : Nat) (c : Chain), t.buckets[i]? = some c → c.Holds t.slots (lists i)
  beyond : ∀ i, t.buckets.size ≤ i → lists i = []
  home : ∀ i h, h ∈ lists i → t.slots.home h = some i
  underflowed : t.underflowed = false

/-- A table of empty buckets. -/
theorem holds_replicate {t : Table ρ} {n : Nat} (hb : t.buckets = Array.replicate n Chain.empty)
    (hu : t.underflowed = false) : t.Holds fun _ => [] := by
  refine ⟨fun i c hc => ?_, fun _ _ => rfl, nofun, hu⟩
  rw [hb] at hc
  obtain ⟨hi, rfl⟩ := Array.getElem?_eq_some_iff.mp hc
  rw [Array.getElem_replicate]
  exact Chain.holds_empty _

namespace Holds

variable {t : Table ρ} {lists : Nat → List Handle}

theorem lt_size (ht : t.Holds lists) {i : Nat} {h : Handle} (hm : h ∈ lists i) :
    i < t.buckets.size := by
  apply Nat.lt_of_not_le
  intro hle
  rw [ht.beyond i hle] at hm
  cases hm

/-- No handle is in the lists of two buckets. -/
theorem eq_of_mem (ht : t.Holds lists) {i j : Nat} {h : Handle} (hi : h ∈ lists i)
    (hj : h ∈ lists j) : i = j := by
  have hij := (ht.home i h hi).symm.trans (ht.home j h hj)
  exact Option.some.inj hij

theorem chain_eq (ht : t.Holds lists) {i : Nat} (hi : i < t.buckets.size) :
    ∃ c, t.chain i = .ok c ∧ c.Holds t.slots (lists i) := by
  have hc : t.buckets[i]? = some t.buckets[i] := Array.getElem?_eq_getElem hi
  exact ⟨t.buckets[i], chain_eq_ok.mpr hc, ht.chain i _ hc⟩

theorem first?_eq (ht : t.Holds lists) (i : Nat) : t.first? i = (lists i).head? := by
  unfold first?
  cases hc : t.buckets[i]? with
  | none =>
      rw [ht.beyond i (Array.getElem?_eq_none_iff.mp hc)]
      rfl
  | some c => exact (ht.chain i c hc).head

theorem isSome_of_mem (ht : t.Holds lists) {i : Nat} {h : Handle} (hm : h ∈ lists i) :
    (t.slots.get? h).isSome := by
  obtain ⟨c, -, hc⟩ := ht.chain_eq (ht.lt_size hm)
  exact hc.isSome_of_mem hm

theorem nodup (ht : t.Holds lists) (i : Nat) : (lists i).Nodup := by
  by_cases hi : i < t.buckets.size
  · obtain ⟨c, -, hc⟩ := ht.chain_eq hi
    exact hc.nodup
  · rw [ht.beyond i (Nat.le_of_not_lt hi)]
    exact List.nodup_nil

theorem not_mem_fresh (ht : t.Holds lists) (i : Nat) : t.slots.fresh ∉ lists i := by
  intro hm
  have hlive := ht.isSome_of_mem hm
  rw [Slots.get?_fresh] at hlive
  cases hlive

/-- The entry of a handle leads on to the handle after it in the list. -/
theorem next_eq (ht : t.Holds lists) {i : Nat} {l₁ l₂ : List Handle} {h : Handle}
    (hl : lists i = l₁ ++ h :: l₂) {r : ρ} (hr : t.get? h = some r) :
    ∃ e, t.slots.get? h = some e ∧ e.resource = r ∧ e.next = l₂.head? := by
  have hm : h ∈ lists i := by
    rw [hl]
    exact List.mem_append_right _ List.mem_cons_self
  obtain ⟨c, -, hc⟩ := ht.chain_eq (ht.lt_size hm)
  have hlinked := hc.linked
  rw [hl] at hlinked
  obtain ⟨e, he, -, hnext⟩ := Slots.links_eq_some.mp hlinked.links_eq
  refine ⟨e, he, ?_, hnext⟩
  have hres : t.get? h = some e.resource := by
    rw [get?, he]
    rfl
  exact Option.some.inj (hres.symm.trans hr)

/-- Replacing the store by one that looks the same at the handles in the lists. -/
theorem restore (ht : t.Holds lists) {s : Slots (Entry ρ)}
    (hs : ∀ j, ∀ k ∈ lists j, s.links k = t.slots.links k ∧ s.home k = t.slots.home k) :
    Holds { t with slots := s } lists where
  chain i c hc := (ht.chain i c hc).congr fun k hk => (hs i k hk).1
  beyond := ht.beyond
  home i h hm := (hs i h hm).2.trans (ht.home i h hm)
  underflowed := ht.underflowed

/-- Replacing the list of one bucket. -/
theorem replace (ht : t.Holds lists) {i : Nat} (hi : i < t.buckets.size) {c : Chain}
    {s : Slots (Entry ρ)} {l : List Handle} (hc : c.Holds s l)
    (hin : ∀ k ∈ l, s.home k = some i)
    (hout : ∀ j k, j ≠ i → k ∈ lists j →
      s.links k = t.slots.links k ∧ s.home k = t.slots.home k) :
    Holds { t with buckets := t.buckets.setIfInBounds i c, slots := s }
      (Function.update lists i l) := by
  -- each part is about the new list at `i` and about an old one, which looks as before, elsewhere
  refine ⟨fun j c' hj => ?_, fun j hj => ?_, fun j h hm => ?_, ht.underflowed⟩
  · by_cases hji : j = i
    · subst hji
      rw [Function.update_self]
      rw [Array.getElem?_setIfInBounds_self_of_lt hi] at hj
      cases hj
      exact hc
    · rw [Function.update_of_ne hji]
      rw [Array.getElem?_setIfInBounds_ne (Ne.symm hji)] at hj
      exact (ht.chain j c' hj).congr fun k hk => (hout j k hji hk).1
  · rw [Array.size_setIfInBounds] at hj
    rw [Function.update_of_ne (by omega)]
    exact ht.beyond j hj
  · by_cases hji : j = i
    · subst hji
      rw [Function.update_self] at hm
      exact hin h hm
    · rw [Function.update_of_ne hji] at hm
      exact (hout j h hji hm).2.trans (ht.home j h hm)

/-- A chain that an entry is taken out of does not have the length zero. -/
theorem not_underflowed (ht : t.Holds lists) {c : Chain} {s : Slots (Entry ρ)} {l : List Handle}
    (hc : c.Holds s l) {h : Handle} (hm : h ∈ l) : (t.underflowed || c.length == 0) = false := by
  have hpos : 0 < c.length := by
    rw [hc.length]
    exact List.length_pos_of_mem hm
  rw [ht.underflowed, Bool.false_or, beq_eq_false_iff_ne]
  omega

/-! ## All buckets together -/

theorem mem_flatMap (ht : t.Holds lists) {h : Handle} :
    h ∈ (List.range t.buckets.size).flatMap lists ↔ ∃ i, h ∈ lists i :=
  mem_flatMap_range fun _ _ => ht.lt_size

theorem nodup_flatMap (ht : t.Holds lists) : ((List.range t.buckets.size).flatMap lists).Nodup :=
  nodup_flatMap_range ht.nodup fun _ _ _ => ht.eq_of_mem

end Holds

/-- The buckets read as the lists. -/
theorem Holds.reads {t : Table ρ} {lists : Nat → List Handle} (ht : t.Holds lists) :
    t.Reads lists where
  entries {i} hi := by
    obtain ⟨c, hc, hl⟩ := ht.chain_eq hi
    unfold entries
    rw [hc, Checked.ok_bind]
    exact hl.entries_eq
  lt_size := ht.lt_size
  live := ht.isSome_of_mem

/-! ## Linking and installing -/

section Linking

variable {t : Table ρ} {lists : Nat → List Handle}

/-- **Linking.** A handle that is in no list is appended to the list of a bucket. -/
theorem link_spec (ht : t.Holds lists) {i : Nat} (hi : i < t.buckets.size) {h : Handle}
    (hl : (t.slots.get? h).isSome) (hn : ∀ j, h ∉ lists j) :
    ∃ t', t.link i h = .ok t' ∧ t'.Holds (Function.update lists i (lists i ++ [h]))
      ∧ t.slots.Rewired t'.slots
      ∧ ∀ k, k ≠ h → (∀ j, k ∉ lists j) → t'.slots.links k = t.slots.links k := by
  obtain ⟨c, hc, hcl⟩ := ht.chain_eq hi
  obtain ⟨c', s, hpush, hc', hr, hlinks, hhome⟩ := Chain.pushBack_spec hcl hl (hn i) i
  refine ⟨{ t with buckets := t.buckets.setIfInBounds i c', slots := s }, ?_, ?_, hr, ?_⟩
  · unfold link
    rw [hc, Checked.ok_bind, hpush]
    rfl
  · refine ht.replace hi hc' (fun k hk => ?_) fun j k hji hk => ?_
    · rw [hhome]
      split
      · rfl
      · rename_i hkh
        rcases List.mem_append.mp hk with hk | hk
        · exact ht.home i k hk
        · exact absurd (List.mem_singleton.mp hk) hkh
    · have hkh : k ≠ h := fun he => hn j (he ▸ hk)
      refine ⟨hlinks k (fun hki => hji (ht.eq_of_mem hk hki)) hkh, ?_⟩
      rw [hhome, if_neg hkh]
  · exact fun k hkh hk => hlinks k (hk i) hkh

/-- The table `t'` is `t` with the resource `r` installed under the handle issued next, at the end
of the list of the bucket `i`. -/
structure Installs (t : Table ρ) (lists : Nat → List Handle) (i : Nat) (r : ρ) (t' : Table ρ) :
    Prop where
  growth : SameGrowth t t'
  holds : t'.Holds (Function.update lists i (lists i ++ [t.slots.fresh]))
  get : ∀ k, t'.get? k = if k = t.slots.fresh then some r else t.get? k
  size : t'.size = t.size + 1
  fresh : t'.slots.fresh.index = t.slots.fresh.index + 1

/-- **Installing** appends a handle to the list of a bucket. -/
theorem install_spec (ht : t.Holds lists) {i : Nat} (hi : i < t.buckets.size) (r : ρ) :
    ∃ t', t.install i r = .ok (t', t.slots.fresh) ∧ t.Installs lists i r t' := by
  -- between being inserted and being linked, the new entry is in no list
  have hins : Holds { t with slots := t.slots.insert { resource := r } } lists :=
    ht.restore fun j k hk =>
      t.slots.observe_insert _ fun he => ht.not_mem_fresh j (he ▸ hk)
  have hl : ((t.slots.insert ({ resource := r } : Entry ρ)).get? t.slots.fresh).isSome := by
    rw [Slots.get?_insert, if_pos rfl]
    rfl
  obtain ⟨t', hlink, ht', hr, -⟩ := link_spec hins hi hl ht.not_mem_fresh
  have hgrowth := link_sameGrowth hlink
  refine ⟨{ t' with epoch := t'.epoch + 1 }, ?_, ?_,
    ⟨ht'.chain, ht'.beyond, ht'.home, ht'.underflowed⟩, fun k => ?_, ?_, ?_⟩
  · unfold install
    dsimp only
    rw [hlink]
    rfl
  · exact ⟨hgrowth.buckets, hgrowth.geometry, hgrowth.reserved, hgrowth.splits,
      hgrowth.doublings⟩
  · refine (hr.resource k).trans ?_
    show ((t.slots.insert { resource := r }).get? k).map Entry.resource = _
    rw [Slots.get?_insert]
    split <;> rfl
  · exact hr.live
  · show t'.slots.fresh.index = _
    rw [hr.fresh, Slots.fresh_insert]

/-! ## Unlinking -/

/-- The lists without a handle. -/
def without (lists : Nat → List Handle) (h : Handle) (i : Nat) : List Handle :=
  (lists i).filter fun k => k ≠ h

/-- Erasing a handle from the only list it is in. -/
theorem Holds.update_erase (ht : t.Holds lists) {i : Nat} {h : Handle} (hm : h ∈ lists i) :
    Function.update lists i ((lists i).erase h) = without lists h := by
  funext j
  unfold without
  by_cases hji : j = i
  · subst hji
    rw [Function.update_self, (ht.nodup j).erase_eq_filter]
    exact List.filter_congr fun k _ => by simp [bne, beq_eq_decide]
  · rw [Function.update_of_ne hji]
    refine (List.filter_eq_self.mpr fun k hk => ?_).symm
    have hkh : k ≠ h := fun he => hji (ht.eq_of_mem hk (he ▸ hm))
    simpa using hkh

theorem Holds.without_middle (ht : t.Holds lists) {i : Nat} {l₁ l₂ : List Handle} {h : Handle}
    (hl : lists i = l₁ ++ h :: l₂) : without lists h i = l₁ ++ l₂ := by
  have hm : h ∈ lists i := by
    rw [hl]
    exact List.mem_append_right _ List.mem_cons_self
  have hnd := ht.nodup i
  rw [hl] at hnd
  rw [← ht.update_erase hm, Function.update_self, hl, Chain.erase_middle hnd]

/-- The lists that a handle is not in stay as they are without it. -/
theorem Holds.without_of_ne (ht : t.Holds lists) {i j : Nat} {h : Handle} (hm : h ∈ lists i)
    (hj : j ≠ i) : without lists h j = lists j := by
  rw [← ht.update_erase hm, Function.update_of_ne hj]

/-- The table `t'` is `t` without the handle `h`, which names nothing any more. -/
structure Unlinks (t : Table ρ) (lists : Nat → List Handle) (h : Handle) (t' : Table ρ) :
    Prop where
  growth : SameGrowth t t'
  holds : t'.Holds (without lists h)
  get : ∀ k, t'.get? k = if k = h then none else t.get? k
  size : t'.size + 1 = t.size
  fresh : t'.slots.fresh = t.slots.fresh

/-- **Unlinking** takes a handle out of the list of the bucket it is in. -/
theorem unlink_spec (ht : t.Holds lists) {i : Nat} {h : Handle} (hm : h ∈ lists i) {r : ρ}
    (hg : t.get? h = some r) :
    ∃ t', t.unlink i h = .ok (t', r) ∧ t.Unlinks lists h t' := by
  obtain ⟨c, hc, hcl⟩ := ht.chain_eq (ht.lt_size hm)
  obtain ⟨c', s, hun, hc', hr, hlinks, hhome⟩ := Chain.unlink_spec hcl hm
  obtain ⟨e, he, hre⟩ := Option.map_eq_some_iff.mp hg
  -- what is left of the list has nothing to do with the slot that is given up
  have hout : ∀ k ∈ (lists i).erase h, k ≠ h := fun k hk hkh =>
    (ht.nodup i).not_mem_erase (hkh ▸ hk)
  have hun' : t.unlink i h = .ok
      ({ t with
          buckets := t.buckets.setIfInBounds i c'
          slots := s.erase h
          underflowed := t.underflowed || c.length == 0 }, r) := by
    unfold unlink
    rw [Slots.require_eq he, Checked.ok_bind, hc, Checked.ok_bind, hun, ← hre]
    rfl
  refine ⟨_, hun', unlink_sameGrowth hun', ?_, fun k => ?_, ?_, ?_⟩
  · rw [← ht.update_erase hm]
    have hreplaced := ht.replace (ht.lt_size hm) (c := c') (s := s.erase h)
      (l := (lists i).erase h) ?_ (fun k hk => ?_) fun j k hji hk => ?_
    · exact ⟨hreplaced.chain, hreplaced.beyond, hreplaced.home, ht.not_underflowed hcl hm⟩
    · exact hc'.congr fun k hk => (s.observe_erase (hout k hk)).1
    · rw [(s.observe_erase (hout k hk)).2, hhome]
      exact ht.home i k (List.mem_of_mem_erase hk)
    · have hkh : k ≠ h := fun hkh => hji (ht.eq_of_mem hk (hkh ▸ hm))
      obtain ⟨hl, hh⟩ := s.observe_erase hkh
      rw [hl, hh, hhome]
      exact ⟨hlinks k fun hki => hji (ht.eq_of_mem hk hki), rfl⟩
  · show ((s.erase h).get? k).map Entry.resource = _
    rw [Slots.get?_erase]
    split
    · rfl
    · exact hr.resource k
  · show (s.erase h).live + 1 = t.slots.live
    rw [Slots.live_erase, hr.live]
    rw [hr.isSome]
    exact ht.isSome_of_mem hm
  · exact (Slots.fresh_erase s h).trans hr.fresh

/-! ## Changing in place -/

theorem get?_modifyHandle (t : Table ρ) (h : Handle) (f : ρ → ρ) (k : Handle) :
    (t.modifyHandle h f).get? k = if k = h then (t.get? k).map f else t.get? k := by
  unfold get? modifyHandle
  dsimp only
  rw [Slots.get?_modify]
  split
  · rw [Option.map_map, Option.map_map]
    rfl
  · rfl

theorem Holds.modifyHandle (ht : t.Holds lists) (h : Handle) (f : ρ → ρ) :
    (t.modifyHandle h f).Holds lists :=
  ht.restore fun _ k _ => t.slots.observe_modify h k f

/-- Taking a resource out that has just been changed is taking it out. -/
theorem Unlinks.of_modifyHandle {h : Handle} {f : ρ → ρ} {t' : Table ρ}
    (hu : (t.modifyHandle h f).Unlinks lists h t') : t.Unlinks lists h t' where
  growth := (modifyHandle_sameGrowth t h f).trans hu.growth
  holds := hu.holds
  get k := by
    rw [hu.get, get?_modifyHandle]
    split <;> rfl
  size := hu.size
  fresh := hu.fresh.trans (Slots.fresh_modify _ _ _)

/-- **Unlinking a handle whose resource has just been changed.** -/
theorem unlink_changed (ht : t.Holds lists) {i : Nat} {h : Handle} (hm : h ∈ lists i)
    (f : ρ → ρ) :
    ∃ t' r, t.get? h = some r ∧ (t.modifyHandle h f).unlink i h = .ok (t', f r)
      ∧ t.Unlinks lists h t' := by
  have hlive : (t.get? h).isSome :=
    (Slots.isSome_resource? t.slots h).trans (ht.isSome_of_mem hm)
  obtain ⟨r, hr⟩ := Option.isSome_iff_exists.mp hlive
  have hg : (t.modifyHandle h f).get? h = some (f r) := by
    rw [get?_modifyHandle, if_pos rfl, hr]
    rfl
  obtain ⟨t', hun, hu⟩ := unlink_spec (ht.modifyHandle h f) hm hg
  exact ⟨t', r, hr, hun, hu.of_modifyHandle⟩

/-- Putting a resource back as it was. -/
theorem modifyHandle_id (t : Table ρ) (h : Handle) : t.modifyHandle h id = t := by
  have hid : (fun e : Entry ρ => { e with resource := id e.resource }) = id := rfl
  have hcells : t.slots.cells.modify h.index (Option.map id) = t.slots.cells := by
    apply Array.ext
    · exact Array.size_modify
    · intro i _ _
      rw [Array.getElem_modify]
      split <;> simp
  unfold modifyHandle
  rw [hid]
  obtain ⟨buckets, ⟨cells, live, live_eq⟩, geometry, reserved, splits, doublings, epoch,
    underflowed⟩ := t
  unfold Slots.modify
  dsimp only at hcells ⊢
  simp only [hcells]

theorem removeHandle_of_stale {h : Handle} (hg : t.get? h = none) :
    t.removeHandle h = .ok (t, none) := by
  unfold removeHandle
  rw [Option.map_eq_none_iff.mp hg]

end Linking

end Table

end ResourceIndex
