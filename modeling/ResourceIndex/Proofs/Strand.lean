import ResourceIndex.Proofs.Layout

set_option autoImplicit false

/-! # Strands

Entries linked one after another, with nothing before the first and nothing after the last, and all
with the same bucket on record, make a *strand* (`Slots.Strand`). In a store that is *wired* every
entry is in one, whatever the buckets begin and end with (`Slots.Wired`). An entry that is taken out
leaves its strand closed up, and one that is linked behind the last entry of a strand extends it, so
a store stays wired.

Of a bucket what matters is that it begins with the first entry of some strand of its own and ends
with the last entry of one, not that the two strands are the same (`Slots.Opens`, `Slots.Closes`).
-/

namespace ResourceIndex

namespace Slots

variable {ρ : Type} {s : Slots (Entry ρ)} {l : List Handle} {h k : Handle}
  {p n : Option Handle} {b : Nat}

/-! ## Strands -/

/-- The place of a handle in a segment, by its links. -/
theorem Segment.around (hs : s.Segment none l none) (hm : h ∈ l) (hl : s.links h = some (p, n)) :
    ∃ l₁ l₂, l = l₁ ++ h :: l₂ ∧ p = l₁.getLast? ∧ n = l₂.head? := by
  obtain ⟨l₁, l₂, rfl⟩ := List.append_of_mem hm
  obtain ⟨rfl, rfl⟩ := Prod.mk.inj (Option.some.inj (hl.symm.trans hs.links_eq))
  exact ⟨l₁, l₂, rfl, rfl, rfl⟩

/-- The links of a segment lead to handles of it. -/
theorem Segment.mem_of_links (hs : s.Segment none l none) (hm : h ∈ l)
    (hl : s.links h = some (p, n)) : (p = some k → k ∈ l) ∧ (n = some k → k ∈ l) := by
  obtain ⟨l₁, l₂, rfl, rfl, rfl⟩ := hs.around hm hl
  exact ⟨fun hk => List.mem_append_left _ (List.mem_of_getLast? hk),
    fun hk => List.mem_append_right _ (List.mem_cons_of_mem h (List.mem_of_head? hk))⟩

/-- The handles of `l` are linked one after another and to no others, and all of them have the
bucket `b` on record. -/
structure Strand (s : Slots (Entry ρ)) (b : Nat) (l : List Handle) : Prop where
  nodup : l.Nodup
  linked : s.Segment none l none
  home : ∀ h ∈ l, s.home h = some b

namespace Strand

theorem congr (hl : s.Strand b l) {s' : Slots (Entry ρ)}
    (hs : ∀ h ∈ l, s'.links h = s.links h ∧ s'.home h = s.home h) : s'.Strand b l where
  nodup := hl.nodup
  linked := hl.linked.congr fun h hm => (hs h hm).1
  home h hm := (hs h hm).2.trans (hl.home h hm)

/-- An entry without links is a strand of its own. -/
theorem single (hl : s.links h = some (none, none)) (hh : s.home h = some b) : s.Strand b [h] where
  nodup := List.nodup_singleton h
  linked := ⟨hl, trivial⟩
  home k hk := by rwa [List.mem_singleton.mp hk]

/-- A handle without links is in no strand but its own. -/
theorem eq_single (hl : s.Strand b l) (hm : h ∈ l) (hd : s.links h = some (none, none)) :
    l = [h] := by
  obtain ⟨l₁, l₂, rfl, h₁, h₂⟩ := hl.linked.around hm hd
  rw [List.getLast?_eq_none_iff.mp h₁.symm, List.head?_eq_none_iff.mp h₂.symm]
  rfl

/-- A strand has no more entries than there are. -/
theorem length_le_live (hl : s.Strand b l) : l.length ≤ s.live :=
  Slots.length_le_live hl.nodup fun _ => hl.linked.isSome_of_mem

/-- A walk along a strand comes to all of it. -/
theorem walk_eq (hl : s.Strand b l) : s.walk s.live l.head? = .ok (s.rows l) :=
  Slots.walk_eq hl.linked hl.length_le_live

/-- A strand closes up when an entry is taken out of it. -/
theorem erase_middle {l₁ l₂ : List Handle} (hl : s.Strand b (l₁ ++ h :: l₂)) :
    ((Chain.bridge s h l₁.getLast? l₂.head?).erase h).Strand b (l₁ ++ l₂) := by
  have hrest : ∀ k ∈ l₁ ++ l₂, k ∈ l₁ ++ h :: l₂ ∧ k ≠ h := fun k hk => by
    rw [← Chain.erase_middle hl.nodup] at hk
    exact (List.Nodup.mem_erase_iff hl.nodup).mp hk |>.symm
  refine ⟨?_, ?_, fun k hk => ?_⟩
  · rw [← Chain.erase_middle hl.nodup]
    exact hl.nodup.erase h
  · exact (Chain.segment_bridge s h hl.linked hl.nodup).congr fun k hk =>
      (observe_erase _ (hrest k hk).2).1
  · rw [(observe_erase _ (hrest k hk).2).2, Chain.home_bridge]
    exact hl.home k (hrest k hk).1

theorem head?_eq (hl : s.Strand b l) (hm : h ∈ l) (hd : s.links h = some (none, n)) :
    l.head? = some h := by
  obtain ⟨l₁, l₂, rfl, h₁, -⟩ := hl.linked.around hm hd
  rw [List.getLast?_eq_none_iff.mp h₁.symm]
  rfl

theorem getLast?_eq (hl : s.Strand b l) (hm : h ∈ l) (hd : s.links h = some (p, none)) :
    l.getLast? = some h := by
  obtain ⟨l₁, l₂, rfl, -, h₂⟩ := hl.linked.around hm hd
  rw [List.head?_eq_none_iff.mp h₂.symm, List.getLast?_concat]

/-- No entry is linked to itself. -/
theorem ne_of_links (hl : s.Strand b l) (hm : h ∈ l) (hd : s.links h = some (p, n)) :
    p ≠ some h ∧ n ≠ some h := by
  obtain ⟨l₁, l₂, rfl, rfl, rfl⟩ := hl.linked.around hm hd
  obtain ⟨-, hnd, hdis⟩ := List.nodup_append.mp hl.nodup
  exact ⟨fun hk => hdis h (List.mem_of_getLast? hk) h List.mem_cons_self rfl,
    fun hk => (List.nodup_cons.mp hnd).1 (List.mem_of_head? hk)⟩

end Strand

/-! ## Stores made of strands -/

/-- Every entry is in a strand. -/
def Wired (s : Slots (Entry ρ)) : Prop :=
  ∀ h, (s.get? h).isSome → ∃ b l, h ∈ l ∧ s.Strand b l

namespace Wired

theorem empty : (Slots.empty : Slots (Entry ρ)).Wired := by
  intro h hl
  rw [get?_empty] at hl
  cases hl

theorem strand (hw : s.Wired) (hh : s.home h = some b) : ∃ l, h ∈ l ∧ s.Strand b l := by
  obtain ⟨e, he, -⟩ := home_eq_some.mp hh
  obtain ⟨b', l, hm, hl⟩ := hw h (by rw [he]; rfl)
  obtain rfl : b' = b := Option.some.inj ((hl.home h hm).symm.trans hh)
  exact ⟨l, hm, hl⟩

theorem strand_of_links (hw : s.Wired) (hl : s.links h = some (p, n)) :
    ∃ b l, h ∈ l ∧ s.Strand b l :=
  hw h (isSome_of_links hl)

/-- **Links are mutual.** -/
theorem links_back (hw : s.Wired) (hl : s.links h = some (p, n)) :
    (p = some k → ∃ q, s.links k = some (q, some h))
      ∧ (n = some k → ∃ q, s.links k = some (some h, q)) := by
  obtain ⟨b, l, hm, hst⟩ := hw.strand_of_links hl
  obtain ⟨l₁, l₂, rfl, rfl, rfl⟩ := hst.linked.around hm hl
  constructor
  · intro hk
    obtain ⟨l₁, rfl⟩ := List.getLast?_eq_some_iff.mp hk
    have hs := hst.linked
    rw [List.append_assoc, List.singleton_append, segment_middle] at hs
    exact ⟨_, hs.2.1⟩
  · intro hk
    obtain ⟨l₂, rfl⟩ : ∃ l, l₂ = k :: l := List.head?_eq_some_iff.mp hk
    have hs := hst.linked
    rw [← List.singleton_append, ← List.append_assoc, segment_middle, List.getLast?_concat] at hs
    exact ⟨_, hs.2.1⟩

/-- The links of an entry lead to entries with the same bucket on record. -/
theorem home_of_links (hw : s.Wired) (hl : s.links h = some (p, n)) (hk : p = some k ∨ n = some k) :
    s.home k = s.home h := by
  obtain ⟨b, l, hm, hst⟩ := hw.strand_of_links hl
  have hmk : k ∈ l := hk.elim (hst.linked.mem_of_links hm hl).1 (hst.linked.mem_of_links hm hl).2
  rw [hst.home k hmk, hst.home h hm]

/-- An entry outside a strand is not linked to one in it. -/
theorem not_mem_of_links (hw : s.Wired) (hst : s.Strand b l) (hn : h ∉ l)
    (hl : s.links h = some (p, n)) (hk : p = some k ∨ n = some k) : k ∉ l := by
  intro hm
  rcases hk with hk | hk
  · obtain ⟨q, hq⟩ := (hw.links_back hl).1 hk
    exact hn ((hst.linked.mem_of_links hm hq).2 rfl)
  · obtain ⟨q, hq⟩ := (hw.links_back hl).2 hk
    exact hn ((hst.linked.mem_of_links hm hq).1 rfl)

/-- A store that looks the same at every entry. -/
theorem congr (hw : s.Wired) {s' : Slots (Entry ρ)}
    (hlive : ∀ h, (s'.get? h).isSome → (s.get? h).isSome)
    (hs : ∀ h, s'.links h = s.links h ∧ s'.home h = s.home h) : s'.Wired := by
  intro h hl
  obtain ⟨b, l, hm, hst⟩ := hw h (hlive h hl)
  exact ⟨b, l, hm, hst.congr fun k _ => hs k⟩

/-! ## Linking and unlinking -/

/-- Taking an entry out from between its neighbours. -/
theorem bridge (hw : s.Wired) (hl : s.links h = some (p, n)) :
    (Chain.bridge s h p n).Wired ∧ (Chain.bridge s h p n).links h = some (none, none) := by
  obtain ⟨b, l, hm, hst⟩ := hw.strand_of_links hl
  obtain ⟨hp, hn⟩ := hst.ne_of_links hm hl
  have hself : (Chain.bridge s h p n).links h = some (none, none) := by
    unfold Chain.bridge
    rw [links_touch_withPrev, if_neg hn, links_touch_withNext, if_neg hp, links_touch_detached,
      if_pos rfl, hl]
    rfl
  refine ⟨fun k hk => ?_, hself⟩
  rw [(Chain.rewired_bridge s h p n).isSome] at hk
  by_cases hkh : k = h
  · subst hkh
    exact ⟨b, [k], List.mem_cons_self, .single hself ((Chain.home_bridge s k p n k).trans
      (hst.home k hm))⟩
  obtain ⟨b', l', hm', hst'⟩ := hw k hk
  by_cases hin : h ∈ l'
  · -- the strand that the entry was in closes up
    obtain ⟨l₁, l₂, rfl, rfl, rfl⟩ := hst'.linked.around hin hl
    refine ⟨b', l₁ ++ l₂, ?_, ?_, Chain.segment_bridge s h hst'.linked hst'.nodup, fun j hj => ?_⟩
    · simpa [hkh] using hm'
    · exact hst'.nodup.sublist (List.Sublist.append_left (List.sublist_cons_self h l₂) l₁)
    · rw [Chain.home_bridge]
      refine hst'.home j ?_
      rcases List.mem_append.mp hj with hj | hj
      · exact List.mem_append_left _ hj
      · exact List.mem_append_right _ (List.mem_cons_of_mem h hj)
  · refine ⟨b', l', hm', hst'.congr fun j hj => ⟨?_, Chain.home_bridge s h p n j⟩⟩
    have hjp : p ≠ some j := fun hk => hw.not_mem_of_links hst' hin hl (Or.inl hk) hj
    have hjn : n ≠ some j := fun hk => hw.not_mem_of_links hst' hin hl (Or.inr hk) hj
    rw [Chain.links_bridge s h p n (fun he => hin (he ▸ hj)), if_neg hjn, if_neg hjp]

/-- Taking an entry out leaves the links of the entries of other buckets alone. -/
theorem bridge_apart (hw : s.Wired) (hl : s.links h = some (p, n)) (hh : s.home h = some b)
    (hk : s.home k ≠ some b) : k ≠ h ∧ (Chain.bridge s h p n).links k = s.links k := by
  have hkh : k ≠ h := fun he => hk (he ▸ hh)
  refine ⟨hkh, ?_⟩
  rw [Chain.links_bridge s h p n hkh, if_neg, if_neg]
  · exact fun hp => hk ((hw.home_of_links hl (Or.inl hp)).trans hh)
  · exact fun hn => hk ((hw.home_of_links hl (Or.inr hn)).trans hh)

/-- Linking an entry without links behind the last entry of a strand, or nowhere. -/
theorem linkBehind (hw : s.Wired) (hd : s.links h = some (none, none)) {tail : Option Handle}
    (ht : ∀ k, tail = some k → k ≠ h ∧ s.home k = some b ∧ ∃ p, s.links k = some (p, none)) :
    (Chain.linkBehind s tail h b).Wired := by
  have hlive : (s.get? h).isSome := isSome_of_links hd
  have hhome := Chain.home_linkBehind_self s tail b hlive
  have hother : ∀ {b' : Nat} {l : List Handle}, s.Strand b' l → h ∉ l → ∀ j ∈ l,
      (Chain.linkBehind s tail h b).home j = s.home j := fun _ hh j hj =>
    Chain.home_linkBehind_of_ne s tail b fun he => hh (he ▸ hj)
  -- the strand that ends with the entry `k` goes on to `h`
  have hjoin : ∀ {k : Handle} {l : List Handle}, tail = some k → k ∈ l → s.Strand b l →
      (Chain.linkBehind s tail h b).Strand b (l ++ [h]) := by
    intro k l hk hm hst
    obtain ⟨hkh, -, q, hq⟩ := ht k hk
    have hh : h ∉ l := fun hh => hkh (by simpa [hst.eq_single hh hd] using hm)
    rw [hk, ← hst.getLast?_eq hm hq]
    refine ⟨?_, Chain.segment_linkBehind s h b hst.linked hst.nodup hlive hh, fun j hj => ?_⟩
    · rw [← List.concat_eq_append]
      exact hst.nodup.concat hh
    · rw [hst.getLast?_eq hm hq, ← hk]
      rcases List.mem_append.mp hj with hj | hj
      · rw [hother hst hh j hj, hst.home j hj]
      · rwa [List.mem_singleton.mp hj]
  intro j hj
  rw [(Chain.rewired_linkBehind s tail h b).isSome] at hj
  obtain ⟨b', l, hm, hst⟩ := hw j hj
  by_cases hjh : j = h
  · subst hjh
    cases tail with
    | none =>
        exact ⟨b, [j], List.mem_cons_self,
          .single (Chain.links_linkBehind_self s b (Option.some_ne_none j).symm hlive) hhome⟩
    | some k =>
        obtain ⟨-, hk, -⟩ := ht k rfl
        obtain ⟨l', hm', hst'⟩ := hw.strand hk
        exact ⟨b, l' ++ [j], List.mem_append_right _ List.mem_cons_self, hjoin rfl hm' hst'⟩
  · have hh : h ∉ l := fun hh => hjh (by simpa [hst.eq_single hh hd] using hm)
    by_cases htail : ∃ k, tail = some k ∧ k ∈ l
    · obtain ⟨k, hk, hkl⟩ := htail
      obtain rfl : b' = b := Option.some.inj ((hst.home k hkl).symm.trans (ht k hk).2.1)
      exact ⟨b', l ++ [h], List.mem_append_left _ hm, hjoin hk hkl hst⟩
    · refine ⟨b', l, hm, hst.congr fun i hi => ⟨?_, hother hst hh i hi⟩⟩
      exact Chain.links_linkBehind_of_ne s b (fun he => hh (he ▸ hi)) fun he => htail ⟨i, he, hi⟩

/-- Giving up the slot of an entry without links. -/
theorem erase (hw : s.Wired) (hd : s.links h = some (none, none)) : (s.erase h).Wired := by
  intro k hk
  have hkh : k ≠ h := by
    rintro rfl
    rw [get?_erase, if_pos rfl] at hk
    cases hk
  rw [get?_erase, if_neg hkh] at hk
  obtain ⟨b, l, hm, hst⟩ := hw k hk
  have hh : h ∉ l := fun hh => hkh (by simpa [hst.eq_single hh hd] using hm)
  exact ⟨b, l, hm, hst.congr fun j hj => s.observe_erase fun he => hh (he ▸ hj)⟩

/-- A new entry, which has no links. -/
theorem insert (hw : s.Wired) (r : ρ) : (s.insert { resource := r }).Wired
    ∧ (s.insert { resource := r }).links s.fresh = some (none, none) := by
  have hnew : (s.insert { resource := r }).get? s.fresh = some { resource := r } := by
    rw [get?_insert, if_pos rfl]
  have hself : (s.insert { resource := r }).links s.fresh = some (none, none) := by
    rw [Slots.links, hnew]
    rfl
  refine ⟨fun k hk => ?_, hself⟩
  by_cases hkf : k = s.fresh
  · subst hkf
    exact ⟨0, [s.fresh], List.mem_cons_self, .single hself (by rw [Slots.home, hnew]; rfl)⟩
  · rw [get?_insert, if_neg hkf] at hk
    obtain ⟨b, l, hm, hst⟩ := hw k hk
    refine ⟨b, l, hm, hst.congr fun j hj => s.observe_insert _ fun he => ?_⟩
    have hlive := hst.linked.isSome_of_mem hj
    rw [he, get?_fresh] at hlive
    cases hlive

end Wired

/-! ## The ends of strands -/

/-- The entry is the first one of a strand of the bucket `b`. -/
def Opens (s : Slots (Entry ρ)) (b : Nat) (h : Handle) : Prop :=
  s.home h = some b ∧ ∃ n, s.links h = some (none, n)

/-- The entry is the last one of a strand of the bucket `b`. -/
def Closes (s : Slots (Entry ρ)) (b : Nat) (h : Handle) : Prop :=
  s.home h = some b ∧ ∃ p, s.links h = some (p, none)

theorem Opens.bridge (hk : s.Opens b k) (hkh : k ≠ h) (hn : n ≠ some k) :
    (Chain.bridge s h p n).Opens b k := by
  obtain ⟨hhome, m, hl⟩ := hk
  refine ⟨(Chain.home_bridge s h p n k).trans hhome, ?_⟩
  rw [Chain.links_bridge s h p n hkh, if_neg hn, hl]
  split
  · exact ⟨n, rfl⟩
  · exact ⟨m, rfl⟩

theorem Closes.bridge (hk : s.Closes b k) (hkh : k ≠ h) (hp : p ≠ some k) :
    (Chain.bridge s h p n).Closes b k := by
  obtain ⟨hhome, m, hl⟩ := hk
  refine ⟨(Chain.home_bridge s h p n k).trans hhome, ?_⟩
  rw [Chain.links_bridge s h p n hkh, if_neg hp, hl]
  split
  · exact ⟨p, rfl⟩
  · exact ⟨m, rfl⟩

namespace Wired

/-- When the first entry of a strand is taken out, the next one is the first. -/
theorem opens_next (hw : s.Wired) (hl : s.links h = some (none, some k))
    (hh : s.home h = some b) : k ≠ h ∧ (Chain.bridge s h none (some k)).Opens b k := by
  obtain ⟨q, hq⟩ := (hw.links_back hl).2 rfl
  obtain ⟨_, l, hm, hst⟩ := hw.strand_of_links hl
  have hkh : k ≠ h := fun he => (hst.ne_of_links hm hl).2 (congrArg some he)
  refine ⟨hkh, ?_, q, ?_⟩
  · rw [Chain.home_bridge, hw.home_of_links hl (Or.inr rfl), hh]
  · rw [Chain.links_bridge s h none (some k) hkh, if_pos rfl,
      if_neg (Option.some_ne_none _).symm, hq]
    rfl

/-- When the last entry of a strand is taken out, the one before it is the last. -/
theorem closes_prev (hw : s.Wired) (hl : s.links h = some (some k, none))
    (hh : s.home h = some b) : k ≠ h ∧ (Chain.bridge s h (some k) none).Closes b k := by
  obtain ⟨q, hq⟩ := (hw.links_back hl).1 rfl
  obtain ⟨_, l, hm, hst⟩ := hw.strand_of_links hl
  have hkh : k ≠ h := fun he => (hst.ne_of_links hm hl).1 (congrArg some he)
  refine ⟨hkh, ?_, q, ?_⟩
  · rw [Chain.home_bridge, hw.home_of_links hl (Or.inl rfl), hh]
  · rw [Chain.links_bridge s h (some k) none hkh, if_neg (Option.some_ne_none _).symm,
      if_pos rfl, hq]
    rfl

/-- The first entry of a bucket from which `h` is taken out. -/
theorem opens_bridge (hw : s.Wired) (hl : s.links h = some (p, n)) (hh : s.home h = some b)
    {head : Option Handle} (hhead : ∀ k, head = some k → s.Opens b k)
    (hk : (if p.isNone then n else head) = some k) :
    k ≠ h ∧ (Chain.bridge s h p n).Opens b k := by
  cases p with
  | none =>
      obtain rfl : n = some k := hk
      exact hw.opens_next hl hh
  | some j =>
      have hopens := hhead k hk
      obtain ⟨-, m, hlinks⟩ := id hopens
      have hkh : k ≠ h := by
        rintro rfl
        rw [hl] at hlinks
        cases hlinks
      -- nothing is before `k`, so `h` is not
      refine ⟨hkh, hopens.bridge hkh fun hn => ?_⟩
      obtain ⟨q, hq⟩ := (hw.links_back hl).2 hn
      rw [hlinks] at hq
      cases hq

/-- The last entry of a bucket from which `h` is taken out. -/
theorem closes_bridge (hw : s.Wired) (hl : s.links h = some (p, n)) (hh : s.home h = some b)
    {tail : Option Handle} (htail : ∀ k, tail = some k → s.Closes b k)
    (hk : (if n.isNone then p else tail) = some k) :
    k ≠ h ∧ (Chain.bridge s h p n).Closes b k := by
  cases n with
  | none =>
      obtain rfl : p = some k := hk
      exact hw.closes_prev hl hh
  | some j =>
      have hcloses := htail k hk
      obtain ⟨-, m, hlinks⟩ := id hcloses
      have hkh : k ≠ h := by
        rintro rfl
        rw [hl] at hlinks
        cases hlinks
      refine ⟨hkh, hcloses.bridge hkh fun hp => ?_⟩
      obtain ⟨q, hq⟩ := (hw.links_back hl).1 hp
      rw [hlinks] at hq
      cases hq

end Wired

theorem Opens.erase (hk : s.Opens b k) (hkh : k ≠ h) : (s.erase h).Opens b k := by
  obtain ⟨hl, hh⟩ := s.observe_erase hkh
  exact ⟨hh.trans hk.1, hk.2.imp fun _ hn => hl.trans hn⟩

theorem Opens.linkBehind (hk : s.Opens b k) (hkh : k ≠ h) (tail : Option Handle) (b' : Nat) :
    (Chain.linkBehind s tail h b').Opens b k := by
  obtain ⟨hhome, m, hl⟩ := hk
  constructor
  · rw [Chain.home_linkBehind_of_ne s tail b' hkh, hhome]
  · rw [Chain.links_linkBehind, if_neg (Ne.symm hkh), hl]
    split
    · exact ⟨some h, rfl⟩
    · exact ⟨m, rfl⟩

theorem Closes.erase (hk : s.Closes b k) (hkh : k ≠ h) : (s.erase h).Closes b k := by
  obtain ⟨hl, hh⟩ := s.observe_erase hkh
  exact ⟨hh.trans hk.1, hk.2.imp fun _ hp => hl.trans hp⟩

end Slots

end ResourceIndex
