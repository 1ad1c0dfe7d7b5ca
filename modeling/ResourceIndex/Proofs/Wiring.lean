import ResourceIndex.Proofs.Account
import ResourceIndex.Proofs.Strand

set_option autoImplicit false

/-! # Links that never tangle

After a split has been cut short a resource that is lost can still be taken out by its handle. Its
entry is then unlinked from a bucket that it is not in, which may leave this bucket with the wrong
first entry, last entry or length. Even so the links between entries stay in order: every entry is
in a strand, and a bucket begins with the first entry of some strand of its own and ends with the
last entry of one, which need not be the same strand (`Table.Wired`). What is in a bucket is the
strand that it begins with (`Table.Wired.handlesIn_strand`), whatever its length is said to be.

No operation on the links of a wired table gets stuck, and the table that it leaves behind is wired
again.
-/

namespace ResourceIndex

/-! ## Tables made of strands -/

namespace Table

variable {σ ρ ι : Type}

theorem getElem?_setIfInBounds_cases {α : Type} {a : Array α} {i j : Nat} {x y : α}
    (h : (a.setIfInBounds i x)[j]? = some y) : j = i ∧ y = x ∨ j ≠ i ∧ a[j]? = some y := by
  by_cases hji : j = i
  · subst hji
    obtain ⟨hj, -⟩ := Array.getElem?_eq_some_iff.mp h
    rw [Array.getElem?_setIfInBounds_self_of_lt (by rwa [Array.size_setIfInBounds] at hj)] at h
    exact Or.inl ⟨rfl, (Option.some.inj h).symm⟩
  · rw [Array.getElem?_setIfInBounds_ne (Ne.symm hji)] at h
    exact Or.inr ⟨hji, h⟩

/-- The bucket `i` begins or ends with the handle `h`. -/
def IsEnd (t : Table ρ) (i : Nat) (h : Handle) : Prop :=
  ∃ c, t.buckets[i]? = some c ∧ (c.head = some h ∨ c.tail = some h)

/-- Every entry is in a strand and has a bucket of the table on record, and each bucket begins with
the first entry of a strand of its own and ends with the last entry of one. -/
structure Wired (t : Table ρ) : Prop where
  slots : t.slots.Wired
  home_lt : ∀ {h i}, t.slots.home h = some i → i < t.buckets.size
  head : ∀ {i c h}, t.buckets[i]? = some c → c.head = some h → t.slots.Opens i h
  tail : ∀ {i c h}, t.buckets[i]? = some c → c.tail = some h → t.slots.Closes i h

theorem first?_of_none {t : Table ρ} {b : Nat} (hc : t.buckets[b]? = none) : t.first? b = none := by
  unfold first?
  rw [hc]
  rfl

theorem first?_of_some {t : Table ρ} {b : Nat} {c : Chain} (hc : t.buckets[b]? = some c) :
    t.first? b = c.head := by
  unfold first?
  rw [hc]
  rfl

/-- What is read in a bucket that begins with the first entry of a strand. -/
theorem entries_of_strand {t : Table ρ} {b i : Nat} {c : Chain} {l : List Handle}
    (hc : t.buckets[b]? = some c) (hhead : c.head = l.head?) (hst : t.slots.Strand i l) :
    t.entries b = .ok (t.slots.rows l) := by
  unfold entries
  rw [chain_eq_ok.mpr hc, Checked.ok_bind]
  unfold Chain.entries
  rw [hhead]
  exact hst.walk_eq

theorem handlesIn_of_strand {t : Table ρ} {b i : Nat} {l : List Handle}
    (hfirst : t.first? b = l.head?) (hst : t.slots.Strand i l) : t.handlesIn b = l := by
  unfold handlesIn
  cases hc : t.buckets[b]? with
  | none =>
      rw [first?_of_none hc] at hfirst
      rw [List.head?_eq_none_iff.mp hfirst.symm, entries, chain, hc]
      rfl
  | some c =>
      rw [first?_of_some hc] at hfirst
      rw [entries_of_strand hc hfirst hst]
      exact Slots.map_fst_rows fun h => hst.linked.isSome_of_mem

namespace Wired

variable {t : Table ρ} {b : Nat} {h : Handle}

/-- A table of empty buckets without entries. -/
theorem of_empty {n : Nat} (hb : t.buckets = Array.replicate n Chain.empty)
    (hs : t.slots = Slots.empty) : t.Wired := by
  have hnone : ∀ {i c}, t.buckets[i]? = some c → c = Chain.empty := fun hc => by
    rw [hb] at hc
    obtain ⟨hi, rfl⟩ := Array.getElem?_eq_some_iff.mp hc
    exact Array.getElem_replicate ..
  refine ⟨hs ▸ .empty, fun hh => ?_, fun hc hh => ?_, fun hc hh => ?_⟩
  · obtain ⟨e, he, -⟩ := Slots.home_eq_some.mp hh
    rw [hs, Slots.get?_empty] at he
    cases he
  · rw [hnone hc] at hh
    cases hh
  · rw [hnone hc] at hh
    cases hh

theorem home_of_isEnd (ht : t.Wired) {i : Nat} (he : t.IsEnd i h) : t.slots.home h = some i := by
  obtain ⟨c, hc, hh | hh⟩ := he
  · exact (ht.head hc hh).1
  · exact (ht.tail hc hh).1

/-- Replacing the store by one that looks the same at the ends of the buckets. -/
theorem restore (ht : t.Wired) {s : Slots (Entry ρ)} (hs : s.Wired)
    (hlt : ∀ {k i}, s.home k = some i → i < t.buckets.size)
    (hsame : ∀ i k, t.IsEnd i k → s.links k = t.slots.links k ∧ s.home k = t.slots.home k)
    (u : Bool) : Wired { t with slots := s, underflowed := u } where
  slots := hs
  home_lt := hlt
  head {i c k} hc hk := by
    obtain ⟨hl, hh⟩ := hsame i k ⟨c, hc, Or.inl hk⟩
    obtain ⟨hhome, n, hlinks⟩ := ht.head hc hk
    exact ⟨hh.trans hhome, n, hl.trans hlinks⟩
  tail {i c k} hc hk := by
    obtain ⟨hl, hh⟩ := hsame i k ⟨c, hc, Or.inr hk⟩
    obtain ⟨hhome, p, hlinks⟩ := ht.tail hc hk
    exact ⟨hh.trans hhome, p, hl.trans hlinks⟩

/-- Replacing the chain of a bucket and the store. -/
theorem replace (ht : t.Wired) {c : Chain} {s : Slots (Entry ρ)} (hs : s.Wired)
    (hlt : ∀ {k i}, s.home k = some i → i < t.buckets.size)
    (hhead : ∀ k, c.head = some k → s.Opens b k) (htail : ∀ k, c.tail = some k → s.Closes b k)
    (hout : ∀ i k, i ≠ b → t.IsEnd i k →
      s.links k = t.slots.links k ∧ s.home k = t.slots.home k) (u : Bool) :
    Wired { t with
      buckets := t.buckets.setIfInBounds b c, slots := s, underflowed := u } := by
  refine ⟨hs, fun hk => ?_, fun {i c' k} hc hk => ?_, fun {i c' k} hc hk => ?_⟩
  · exact Nat.lt_of_lt_of_eq (hlt hk) Array.size_setIfInBounds.symm
  · rcases getElem?_setIfInBounds_cases hc with ⟨rfl, rfl⟩ | ⟨hib, hc⟩
    · exact hhead k hk
    · obtain ⟨hl, hh⟩ := hout i k hib ⟨c', hc, Or.inl hk⟩
      obtain ⟨hhome, n, hlinks⟩ := ht.head hc hk
      exact ⟨hh.trans hhome, n, hl.trans hlinks⟩
  · rcases getElem?_setIfInBounds_cases hc with ⟨rfl, rfl⟩ | ⟨hib, hc⟩
    · exact htail k hk
    · obtain ⟨hl, hh⟩ := hout i k hib ⟨c', hc, Or.inr hk⟩
      obtain ⟨hhome, p, hlinks⟩ := ht.tail hc hk
      exact ⟨hh.trans hhome, p, hl.trans hlinks⟩

/-- Changing a resource where it is. -/
theorem modifyHandle (ht : t.Wired) (h : Handle) (f : ρ → ρ) : (t.modifyHandle h f).Wired := by
  refine ht.restore (ht.slots.congr (fun k hk => ?_) fun k => t.slots.observe_modify h k f)
    (fun {k i} hk => ht.home_lt ((t.slots.observe_modify h k f).2.symm.trans hk))
    (fun _ k _ => t.slots.observe_modify h k f) t.underflowed
  rw [Slots.get?_modify] at hk
  split at hk
  · simpa using hk
  · exact hk

/-! ## Reading -/

/-- A bucket begins with the first entry of a strand, or is empty. -/
theorem strand_eq (ht : t.Wired) {c : Chain} (hc : t.buckets[b]? = some c) :
    ∃ l, c.head = l.head? ∧ t.slots.Strand b l := by
  cases hh : c.head with
  | none => exact ⟨[], rfl, List.nodup_nil, trivial, nofun⟩
  | some h =>
      obtain ⟨hhome, n, hl⟩ := ht.head hc hh
      obtain ⟨l, hm, hst⟩ := ht.slots.strand hhome
      exact ⟨l, (hst.head?_eq hm hl).symm, hst⟩

/-- **What is in a bucket is the strand that it begins with.** -/
theorem handlesIn_strand (ht : t.Wired) (b : Nat) :
    t.first? b = (t.handlesIn b).head? ∧ t.slots.Strand b (t.handlesIn b) := by
  have hstrand : ∃ l, t.first? b = l.head? ∧ t.slots.Strand b l := by
    cases hc : t.buckets[b]? with
    | none => exact ⟨[], first?_of_none hc, List.nodup_nil, trivial, nofun⟩
    | some c =>
        obtain ⟨l, hhead, hst⟩ := ht.strand_eq hc
        exact ⟨l, (first?_of_some hc).trans hhead, hst⟩
  obtain ⟨l, hfirst, hst⟩ := hstrand
  rw [handlesIn_of_strand hfirst hst]
  exact ⟨hfirst, hst⟩

/-- A handle is in no other bucket than the one that its entry has on record. -/
theorem home_of_mem (ht : t.Wired) (hm : h ∈ t.handlesIn b) : t.slots.home h = some b :=
  (ht.handlesIn_strand b).2.home h hm

theorem eq_of_mem (ht : t.Wired) {i j : Nat} (hi : h ∈ t.handlesIn i) (hj : h ∈ t.handlesIn j) :
    i = j :=
  Option.some.inj ((ht.home_of_mem hi).symm.trans (ht.home_of_mem hj))

/-- **A wired table can be read.** -/
theorem reads (ht : t.Wired) : t.Reads t.handlesIn where
  entries {i} hi := by
    obtain ⟨c, hc, -⟩ := chain_of_lt hi
    obtain ⟨hfirst, hst⟩ := ht.handlesIn_strand i
    exact entries_of_strand hc ((first?_of_some hc).symm.trans hfirst) hst
  lt_size hm := ht.home_lt (ht.home_of_mem hm)
  live hm := (ht.handlesIn_strand _).2.linked.isSome_of_mem hm

end Wired

/-! ## Unlinking -/

/-- Taking an entry out from the middle of a strand, whatever its bucket begins and ends with. -/
theorem unlink_eq {t : Table ρ} {b : Nat} {h : Handle} {c : Chain} {l₁ l₂ : List Handle}
    {e : Entry ρ} (hc : t.buckets[b]? = some c) (hst : t.slots.Strand b (l₁ ++ h :: l₂))
    (he : t.slots.get? h = some e) :
    t.unlink b h = .ok ({ t with
      buckets := t.buckets.setIfInBounds b
        { head := if l₁.getLast?.isNone then l₂.head? else c.head
          tail := if l₂.head?.isNone then l₁.getLast? else c.tail
          length := c.lowered }
      slots := (Chain.bridge t.slots h l₁.getLast? l₂.head?).erase h
      underflowed := t.underflowed || c.length == 0 }, e.resource) := by
  unfold unlink
  rw [Slots.require_eq he, Checked.ok_bind, chain_eq_ok.mpr hc, Checked.ok_bind,
    Chain.unlink_eq hst.linked]
  rfl

namespace Wired

variable {t : Table ρ} {b : Nat} {h : Handle}

/-- **An entry can be taken out** of the bucket that it has on record. -/
theorem unlink (ht : t.Wired) (hb : t.slots.home h = some b) :
    ∃ t' r, t.unlink b h = .ok (t', r) ∧ t'.Wired := by
  obtain ⟨c, hc, -⟩ := chain_of_lt (ht.home_lt hb)
  obtain ⟨e, he, -⟩ := Slots.home_eq_some.mp hb
  obtain ⟨l, hm, hst⟩ := ht.slots.strand hb
  obtain ⟨l₁, l₂, rfl⟩ := List.append_of_mem hm
  have hl := hst.linked.links_eq
  obtain ⟨hw, hself⟩ := ht.slots.bridge hl
  have hhome : ∀ k, k ≠ h →
      ((Chain.bridge t.slots h l₁.getLast? l₂.head?).erase h).home k = t.slots.home k := fun k hk =>
    (Slots.observe_erase _ hk).2.trans (Chain.home_bridge ..)
  refine ⟨_, _, unlink_eq hc hst he, ht.replace (hw.erase hself) (fun {k i} hk => ?_)
    (fun k hk => ?_) (fun k hk => ?_) (fun i k hib hk => ?_) _⟩
  · by_cases hkh : k = h
    · obtain ⟨e', he', -⟩ := Slots.home_eq_some.mp hk
      rw [Slots.get?_erase, if_pos hkh] at he'
      cases he'
    · exact ht.home_lt ((hhome k hkh).symm.trans hk)
  · obtain ⟨hkh, hopens⟩ := ht.slots.opens_bridge hl hb (fun _ => ht.head hc) hk
    exact hopens.erase hkh
  · obtain ⟨hkh, hcloses⟩ := ht.slots.closes_bridge hl hb (fun _ => ht.tail hc) hk
    exact hcloses.erase hkh
  · -- no end of another bucket is next to `h`
    obtain ⟨hkh, hlinks⟩ := ht.slots.bridge_apart hl hb (k := k) (by
      rw [ht.home_of_isEnd hk]
      exact fun he => hib (Option.some.inj he))
    exact ⟨(Slots.observe_erase _ hkh).1.trans hlinks, hhome k hkh⟩

/-- All that taking out an entry from the middle of a strand does. -/
theorem unlink_cases (ht : t.Wired) {l₁ l₂ : List Handle} (hst : t.slots.Strand b (l₁ ++ h :: l₂))
    {t' : Table ρ} {r : ρ} (hu : t.unlink b h = .ok (t', r)) :
    ∃ c c', t.buckets[b]? = some c ∧ t'.buckets = t.buckets.setIfInBounds b c'
      ∧ c'.head = (if l₁.getLast?.isNone then l₂.head? else c.head)
      ∧ t'.slots = (Chain.bridge t.slots h l₁.getLast? l₂.head?).erase h
      ∧ t.get? h = some r ∧ t'.underflowed = (t.underflowed || c.length == 0)
      ∧ c'.length = c.lowered := by
  have hhome := hst.home h (List.mem_append_right _ List.mem_cons_self)
  obtain ⟨c, hc, -⟩ := chain_of_lt (ht.home_lt hhome)
  obtain ⟨e, he, -⟩ := Slots.home_eq_some.mp hhome
  rw [unlink_eq hc hst he] at hu
  cases hu
  exact ⟨c, _, hc, rfl, rfl, rfl, get?_of_entry he, rfl, rfl⟩

theorem removeHandle (ht : t.Wired) (h : Handle) :
    ∃ t' answer, t.removeHandle h = .ok (t', answer) ∧ t'.Wired := by
  unfold Table.removeHandle
  cases he : t.slots.get? h with
  | none => exact ⟨t, none, rfl, ht⟩
  | some e =>
      obtain ⟨t', r, hu, ht'⟩ := ht.unlink (Slots.home_eq_some.mpr ⟨e, he, rfl⟩)
      refine ⟨t', some r, ?_, ht'⟩
      dsimp only
      rw [hu]
      rfl

theorem of_removeHandle (ht : t.Wired) {t' : Table ρ} {answer : Option ρ}
    (hr : t.removeHandle h = .ok (t', answer)) : t'.Wired := by
  obtain ⟨t₁, answer₁, hr₁, ht₁⟩ := ht.removeHandle h
  cases hr₁.symm.trans hr
  exact ht₁

/-! ## Linking -/

/-- **An entry can be linked** if it has no links and no bucket begins or ends with it. -/
theorem link (ht : t.Wired) (hb : b < t.buckets.size) (hd : t.slots.links h = some (none, none))
    (hn : ∀ i, ¬ t.IsEnd i h) :
    ∃ t', t.link b h = .ok t' ∧ t'.Wired ∧ ∀ k, k ≠ h → (∀ i, ¬ t.IsEnd i k) →
      t'.slots.links k = t.slots.links k ∧ ∀ i, ¬ t'.IsEnd i k := by
  obtain ⟨c, hc, hchain⟩ := chain_of_lt hb
  have hlive := Slots.isSome_of_links hd
  have htail : ∀ k, c.tail = some k →
      k ≠ h ∧ t.slots.home k = some b ∧ ∃ p, t.slots.links k = some (p, none) := fun k hk =>
    ⟨fun he => hn b ⟨c, hc, Or.inr (he ▸ hk)⟩, ht.tail hc hk⟩
  have hpush := Chain.pushBack_eq (c := c)
    (fun k hk => Slots.isSome_of_links (htail k hk).2.2.choose_spec) hlive b
  have hhome := Chain.home_linkBehind_self t.slots c.tail b hlive
  have hlinks := Chain.links_linkBehind_self t.slots b (fun hk => (htail h hk).1 rfl) hlive
  have hother : ∀ {k}, k ≠ h → c.tail ≠ some k →
      (Chain.linkBehind t.slots c.tail h b).links k = t.slots.links k
        ∧ (Chain.linkBehind t.slots c.tail h b).home k = t.slots.home k := fun hkh hkt =>
    ⟨Chain.links_linkBehind_of_ne t.slots b hkh hkt,
      Chain.home_linkBehind_of_ne t.slots c.tail b hkh⟩
  refine ⟨{ t with
      buckets := t.buckets.setIfInBounds b
        { head := if c.tail.isNone then some h else c.head
          tail := some h
          length := c.length + 1 }
      slots := Chain.linkBehind t.slots c.tail h b }, ?_,
    ht.replace (ht.slots.linkBehind hd htail) (fun {k i} hk => ?_) (fun k hk => ?_)
      (fun k hk => ?_) (fun i k hib hk => ?_) t.underflowed,
    fun k hkh hk => ⟨(hother hkh ?_).1, fun i => ?_⟩⟩
  · unfold Table.link
    rw [hchain, Checked.ok_bind, hpush]
    rfl
  · by_cases hkh : k = h
    · rw [hkh, hhome] at hk
      exact Option.some.inj hk ▸ hb
    · exact ht.home_lt ((Chain.home_linkBehind_of_ne t.slots c.tail b hkh).symm.trans hk)
  · -- the bucket begins with `h` if it had no last entry, and otherwise as it did
    dsimp only at hk
    split at hk
    · rename_i hnone
      cases hk
      refine ⟨hhome, none, hlinks.trans ?_⟩
      rw [Option.isNone_iff_eq_none.mp hnone]
    · exact (ht.head hc hk).linkBehind (h := h) (fun he => hn b ⟨c, hc, Or.inl (he ▸ hk)⟩) _ _
  · cases hk
    exact ⟨hhome, c.tail, hlinks⟩
  · refine hother (fun he => hn i (he ▸ hk)) fun hkt => hib ?_
    have hki := ht.home_of_isEnd hk
    rw [(htail k hkt).2.1] at hki
    exact (Option.some.inj hki).symm
  · exact fun hkt => hk b ⟨c, hc, Or.inr hkt⟩
  · rintro ⟨c', hc', he⟩
    rcases getElem?_setIfInBounds_cases hc' with ⟨rfl, rfl⟩ | ⟨-, hc'⟩
    · dsimp only at he
      rcases he with he | he
      · split at he
        · exact hkh (Option.some.inj he).symm
        · exact hk i ⟨c, hc, Or.inl he⟩
      · exact hkh (Option.some.inj he).symm
    · exact hk i ⟨c', hc', he⟩

theorem install (ht : t.Wired) (hb : b < t.buckets.size) (r : ρ) :
    ∃ t', t.install b r = .ok (t', t.slots.fresh) ∧ t'.Wired := by
  obtain ⟨hw, hnew⟩ := ht.slots.insert r
  have hfresh : ∀ i, ¬ t.IsEnd i t.slots.fresh := fun i he => by
    obtain ⟨e, he, -⟩ := Slots.home_eq_some.mp (ht.home_of_isEnd he)
    rw [Slots.get?_fresh] at he
    cases he
  have hins : Wired { t with slots := t.slots.insert { resource := r } } := by
    refine ht.restore hw (fun {k i} hk => ?_)
      (fun i k hk => t.slots.observe_insert _ fun he => hfresh i (he ▸ hk)) t.underflowed
    by_cases hkf : k = t.slots.fresh
    · -- until it is linked the new entry has the first bucket on record
      obtain ⟨e, he, rfl⟩ := Slots.home_eq_some.mp hk
      rw [Slots.get?_insert, if_pos hkf] at he
      rw [← Option.some.inj he]
      exact Nat.zero_lt_of_lt hb
    · exact ht.home_lt ((t.slots.observe_insert _ hkf).2.symm.trans hk)
  obtain ⟨t₁, hl, ht₁, -⟩ := hins.link hb hnew hfresh
  refine ⟨{ t₁ with epoch := t₁.epoch + 1 }, ?_, ht₁.slots, ht₁.home_lt, ht₁.head, ht₁.tail⟩
  unfold Table.install
  dsimp only
  rw [hl]
  rfl

/-! ## Splitting -/

variable {ι : Type} [Resource ρ ι] [Identifier ι]

/-- The loop of a split, while the handles of `l` are still to be handed on. If it comes to its end
the length of the chain is lowered once for each of them. -/
theorem relink (l : List Handle) :
    ∀ {c : Chain} {t : Table ρ} {count : Nat}, t.Wired → l.length ≤ count →
      c.head = l.head? → l.Nodup → t.slots.Segment none l none → (∀ h ∈ l, ∀ i, ¬ t.IsEnd i h) →
      (∀ hash, t.geometry.route hash < t.buckets.size) →
      ∃ t' answer, Table.relink count c t = .ok (t', answer) ∧ t'.Wired
        ∧ (answer = .ok () →
          (t'.underflowed = true ↔ t.underflowed = true ∨ c.length < l.length)) := by
  induction l with
  | nil =>
      intro c t count ht _ hhead _ _ _ _
      exact ⟨t, .ok (), relink_of_empty hhead count t, ht,
        fun _ => (or_iff_left (Nat.not_lt_zero _)).symm⟩
  | cons h l ih =>
      intro c t count ht hcount hhead hnd hs hn hroute
      obtain ⟨count, rfl⟩ := Nat.exists_eq_add_one.mpr (Nat.lt_of_lt_of_le l.length.succ_pos hcount)
      have hlinks : t.slots.links h = some (none, l.head?) := by
        rw [hs.1, Option.or_none]
      obtain ⟨hw, hself⟩ := ht.slots.bridge hlinks
      obtain ⟨e, he⟩ := Option.isSome_iff_exists.mp (Slots.isSome_of_links hself)
      -- the entry taken out is next to none of the ends of buckets
      have ht₁ : Wired { t with
          slots := Chain.bridge t.slots h none l.head?
          underflowed := t.underflowed || c.length == 0 } := by
        refine ht.restore hw (fun {k i} hk => ?_) (fun i k hk => ?_) _
        · exact ht.home_lt ((Chain.home_bridge t.slots h none l.head? k).symm.trans hk)
        · have hkh : k ≠ h := fun he => hn h List.mem_cons_self i (he ▸ hk)
          have hkl : l.head? ≠ some k := fun he =>
            hn k (List.mem_cons_of_mem h (List.mem_of_head? he)) i hk
          refine ⟨?_, Chain.home_bridge ..⟩
          rw [Chain.links_bridge _ _ _ _ hkh, if_neg hkl, if_neg (Option.some_ne_none _).symm]
      rw [Table.relink, Chain.popFront_eq hhead hs, Checked.ok_bind]
      dsimp only
      rw [Slots.require_eq he, Checked.ok_bind]
      split
      · exact ⟨_, _, rfl, ht₁, fun hok => by cases hok⟩
      · rename_i b hb
        obtain ⟨hash, -, rfl⟩ := Option.map_eq_some_iff.mp hb
        obtain ⟨hhl, hndl⟩ := List.nodup_cons.mp hnd
        obtain ⟨t₂, hl, ht₂, hother⟩ :=
          ht₁.link (hroute hash) hself (hn h List.mem_cons_self)
        have hgrowth := link_sameGrowth hl
        have hrest : ∀ k ∈ l, _ := fun k hk =>
          hother k (fun he => hhl (he ▸ hk)) (hn k (List.mem_cons_of_mem h hk))
        have hs₂ : t₂.slots.Segment none l none :=
          (Chain.segment_bridge t.slots h (show t.slots.Segment none ([] ++ h :: l) none from hs)
            hnd).congr fun k hk => (hrest k hk).1
        obtain ⟨t', answer, hloop, ht', hunder⟩ := ih (c := ⟨l.head?, _, c.lowered⟩) ht₂
          (Nat.le_of_succ_le_succ hcount) rfl hndl hs₂ (fun k hk => (hrest k hk).2) fun hash => by
            rw [hgrowth.geometry, hgrowth.buckets]
            exact hroute hash
        refine ⟨t', answer, ?_, ht', fun hok => (hunder hok).trans ?_⟩
        · rw [hl]
          exact hloop
        · rw [link_underflowed hl, Chain.lowered, List.length_cons]
          by_cases hzero : c.length = 0
          · exact iff_of_true (Or.inl (by simp [hzero])) (Or.inr (by omega))
          · rw [if_neg hzero, beq_eq_false_iff_ne.mpr hzero, Bool.or_false]
            refine or_congr_right ?_
            dsimp only
            omega

/-- **A split** comes to its end or is cut short, and does not get stuck. If it comes to its end, a
stored length is lowered below zero if that of the bucket was less than the number of its
entries. -/
theorem split (ht : t.Wired) {g : Geometry} {j : Nat} (hg : g.Spans j t.buckets.size)
    (hlt : g.nextSplit < 2 ^ j) : ∃ o, t.split g = .ok o ∧ o.state.Wired
      ∧ (o.answer = .ok () → (o.state.underflowed = true ↔ t.underflowed = true
        ∨ t.lengthIn g.nextSplit < (t.handlesIn g.nextSplit).length)) := by
  obtain ⟨c, hc, hchain⟩ := chain_of_lt hg.cursor_lt
  obtain ⟨l, hhead, hst⟩ := ht.strand_eq hc
  have hemptied := ht.replace (b := g.nextSplit) (c := Chain.empty) ht.slots ht.home_lt nofun nofun
    (fun _ _ _ _ => ⟨rfl, rfl⟩) t.underflowed
  have hsize : ((t.buckets.setIfInBounds g.nextSplit Chain.empty).push Chain.empty).size =
      t.buckets.size + 1 := by
    rw [Array.size_push, Array.size_setIfInBounds]
  -- the new bucket is empty, and so is the one at the cursor
  have hcases : ∀ {i c'},
      ((t.buckets.setIfInBounds g.nextSplit Chain.empty).push Chain.empty)[i]? = some c' →
        c' = Chain.empty ∨ i ≠ g.nextSplit
          ∧ (t.buckets.setIfInBounds g.nextSplit Chain.empty)[i]? = some c'
          ∧ t.buckets[i]? = some c' := by
    intro i c' hc
    rw [Array.getElem?_push] at hc
    split at hc
    · exact Or.inl (Option.some.inj hc).symm
    · rcases getElem?_setIfInBounds_cases hc with ⟨-, rfl⟩ | ⟨hi, hc'⟩
      · exact Or.inl rfl
      · exact Or.inr ⟨hi, hc, hc'⟩
  have ht₁ : Wired { t with
      buckets := (t.buckets.setIfInBounds g.nextSplit Chain.empty).push Chain.empty
      geometry := g.advance } := by
    refine ⟨ht.slots, fun hk => ?_, fun {i c' k} hc hk => ?_, fun {i c' k} hc hk => ?_⟩
    · exact Nat.lt_of_lt_of_eq (Nat.lt_succ_of_lt (ht.home_lt hk)) hsize.symm
    · rcases hcases hc with rfl | ⟨-, hc, -⟩
      · cases hk
      · exact hemptied.head hc hk
    · rcases hcases hc with rfl | ⟨-, hc, -⟩
      · cases hk
      · exact hemptied.tail hc hk
  have hread : t.lengthIn g.nextSplit = c.length ∧ t.handlesIn g.nextSplit = l :=
    ⟨lengthIn_of_some hc, handlesIn_of_strand ((first?_of_some hc).trans hhead) hst⟩
  obtain ⟨t', answer, hr, ht', hunder⟩ := ht₁.relink l hst.length_le_live hhead hst.nodup hst.linked
    (fun h hm i he => by
      obtain ⟨c', hc, hk⟩ := he
      rcases hcases hc with rfl | ⟨hi, -, hc⟩
      · rcases hk with hk | hk <;> cases hk
      · have hhome := ht.home_of_isEnd ⟨c', hc, hk⟩
        rw [hst.home h hm] at hhome
        exact hi (Option.some.inj hhome).symm)
    (fun hash => Nat.lt_of_lt_of_eq ((hg.advance hlt).route_lt hash) hsize.symm)
  unfold Table.split
  rw [hchain, Checked.ok_bind]
  dsimp only [Chain.take]
  rw [hr, Checked.ok_bind]
  cases answer with
  | error fault => exact ⟨_, rfl, ht', fun hok => by cases hok⟩
  | ok u =>
      refine ⟨_, rfl, ⟨ht'.slots, ht'.home_lt, ht'.head, ht'.tail⟩, fun _ => ?_⟩
      rw [hread.1, hread.2]
      exact hunder rfl

theorem provisioned (ht : t.Wired) (g : Geometry) : (t.provisioned g).Wired := by
  unfold Table.provisioned
  split
  · exact ht
  · exact ⟨ht.slots, ht.home_lt, ht.head, ht.tail⟩

/-! ## Visiting -/

section Visits

variable {visit : Visitor σ ρ}

omit [Resource ρ ι] [Identifier ι] in
/-- Visits to the rest of a strand, which is what is left of it after those that came before. -/
theorem visitFrom (rest : List Handle) :
    ∀ {before : List Handle} {bound : Nat} {t : Table ρ} {a : σ}, t.Wired →
      t.slots.Strand b (before ++ rest) → rest.length ≤ bound →
      ∃ t' a', Table.visitFrom visit b bound rest.head? t a = .ok (t', a') ∧ t'.Wired := by
  induction rest with
  | nil =>
      intro before bound t a ht _ _
      exact ⟨t, a, by cases bound <;> rfl, ht⟩
  | cons h rest ih =>
      intro before bound t a ht hst hb
      obtain ⟨bound, rfl⟩ := Nat.exists_eq_add_one.mpr (Nat.lt_of_lt_of_le rest.length.succ_pos hb)
      have hrest := Nat.le_of_succ_le_succ hb
      obtain ⟨e, he, -, hnext⟩ := Slots.links_eq_some.mp hst.linked.links_eq
      rw [List.head?_cons, Table.visitFrom, Slots.require_eq he, Checked.ok_bind, hnext]
      rcases visit a e.resource with ⟨a', r, verdict⟩
      have ht₁ := ht.modifyHandle h fun _ => r
      have hst₁ : (t.modifyHandle h fun _ => r).slots.Strand b (before ++ h :: rest) :=
        hst.congr fun k _ => t.slots.observe_modify h k fun _ => r
      cases verdict with
      | keep =>
          rw [List.append_cons] at hst₁
          exact ih ht₁ hst₁ hrest
      | remove =>
          have hhome := hst₁.home h (List.mem_append_right _ List.mem_cons_self)
          obtain ⟨t₂, r₂, hu, ht₂⟩ := ht₁.unlink hhome
          have hst₂ : t₂.slots.Strand b (before ++ rest) := by
            obtain ⟨-, -, -, -, -, hslots, -⟩ := ht₁.unlink_cases hst₁ hu
            rw [hslots]
            exact hst₁.erase_middle
          obtain ⟨t', a'', hv, ht'⟩ := ih (a := a') ht₂ hst₂ hrest
          refine ⟨t', a'', ?_, ht'⟩
          dsimp only
          rw [hu]
          exact hv

omit [Resource ρ ι] [Identifier ι] in
theorem visitBuckets (indices : List Nat) :
    ∀ {t : Table ρ} {a : σ}, t.Wired → (∀ i ∈ indices, i < t.buckets.size) →
      ∃ t' a', indices.foldlM (fun (t, a) bucket => t.visitBucket visit bucket a) (t, a)
          = .ok (t', a') ∧ t'.Wired := by
  induction indices with
  | nil => exact fun {t a} ht _ => ⟨t, a, rfl, ht⟩
  | cons i indices ih =>
      intro t a ht hlt
      obtain ⟨c, hc, hchain⟩ := chain_of_lt (hlt i List.mem_cons_self)
      obtain ⟨l, hhead, hst⟩ := ht.strand_eq hc
      obtain ⟨t₁, a₁, hv, ht₁⟩ := ht.visitFrom (a := a) l
        (show t.slots.Strand i ([] ++ l) from hst) hst.length_le_live
      have hbucket : t.visitBucket visit i a = .ok (t₁, a₁) := by
        unfold visitBucket
        rw [hchain, Checked.ok_bind, hhead]
        exact hv
      have hsize := (visitBucket_reworked hbucket).sameGrowth.buckets
      obtain ⟨t', a', hf, ht'⟩ := ih (a := a₁) ht₁ fun j hj => by
        rw [hsize]
        exact hlt j (List.mem_cons_of_mem i hj)
      refine ⟨t', a', ?_, ht'⟩
      rw [List.foldlM_cons]
      show (t.visitBucket visit i a >>= _) = _
      rw [hbucket]
      exact hf

omit [Resource ρ ι] [Identifier ι] in
theorem traverse (ht : t.Wired) (visit : Visitor σ ρ) (a : σ) :
    ∃ t' a', t.traverse visit a = .ok (t', a') ∧ t'.Wired :=
  visitBuckets _ ht fun _ => List.mem_range.mp

end Visits

end Wired

end Table

end ResourceIndex
