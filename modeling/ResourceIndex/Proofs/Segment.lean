import ResourceIndex.Proofs.Store

set_option autoImplicit false

/-! # Chains as lists of handles

A chain `c` *holds* the list `l` of handles in a store when its ends and its length are those of
`l` and the entries of `l` are linked in that order (`Chain.Holds`). The links are described
by segments: `s.Segment before l after` says that the entries of `l` are linked each to the
next and back, that the first one leads back to `before` and that the last one leads on to
`after`.

Each operation on a chain is then an operation on its list: `pushBack_spec` appends a handle,
`unlink_spec` erases one wherever it is, `popFront_spec` takes the first one, and `entries_eq`
reads the list off. All of them rewire the store and leave the links of handles outside the
chain alone, so that other chains in the store keep their lists.
-/

namespace ResourceIndex

namespace Slots

variable {ρ : Type}

/-! ## Segments -/

/-- The entries of `l` are linked in this order, from `before` to `after`. -/
def Segment (s : Slots (Entry ρ)) :
    (before : Option Handle) → List Handle → (after : Option Handle) → Prop
  | _, [], _ => True
  | before, h :: l, after =>
      s.links h = some (before, l.head?.or after) ∧ s.Segment (some h) l after

theorem segment_append (s : Slots (Entry ρ)) (before after : Option Handle)
    (l₁ l₂ : List Handle) :
    s.Segment before (l₁ ++ l₂) after ↔
      s.Segment before l₁ (l₂.head?.or after) ∧ s.Segment (l₁.getLast?.or before) l₂ after := by
  induction l₁ generalizing before with
  | nil => simp [Segment]
  | cons h l ih =>
      have hlast : ((h :: l).getLast?).or before = l.getLast?.or (some h) := by
        rw [List.getLast?_cons]
        cases l.getLast? <;> rfl
      rw [List.cons_append, Segment, Segment, ih, hlast, List.head?_append, Option.or_assoc,
        and_assoc]

/-- The links at a handle in the middle of a list. -/
theorem segment_middle (s : Slots (Entry ρ)) (before after : Option Handle)
    (l₁ l₂ : List Handle) (h : Handle) :
    s.Segment before (l₁ ++ h :: l₂) after ↔
      s.Segment before l₁ (some h)
      ∧ s.links h = some (l₁.getLast?.or before, l₂.head?.or after)
      ∧ s.Segment (some h) l₂ after := by
  rw [segment_append]
  rfl

namespace Segment

variable {s s' : Slots (Entry ρ)} {before after : Option Handle} {l : List Handle}

theorem isSome_of_mem (hs : s.Segment before l after) {h : Handle} (hm : h ∈ l) :
    (s.get? h).isSome := by
  -- by induction on the list, the entry before moving along with its head
  induction l generalizing before with
  | nil => cases hm
  | cons k l ih =>
      rcases List.mem_cons.mp hm with rfl | hm
      · exact isSome_of_links hs.1
      · exact ih hs.2 hm

/-- The links of a handle lead to the ones next to it in the list. -/
theorem links_eq {h : Handle} {l₁ l₂ : List Handle} (hs : s.Segment none (l₁ ++ h :: l₂) none) :
    s.links h = some (l₁.getLast?, l₂.head?) := by
  obtain ⟨-, hh, -⟩ := (segment_middle s none none l₁ l₂ h).mp hs
  rwa [Option.or_none, Option.or_none] at hh

theorem congr (hs : s.Segment before l after) (hl : ∀ h ∈ l, s'.links h = s.links h) :
    s'.Segment before l after := by
  induction l generalizing before with
  | nil => trivial
  | cons k l ih =>
      refine ⟨(hl k List.mem_cons_self).trans hs.1, ih hs.2 fun h hm => ?_⟩
      exact hl h (List.mem_cons_of_mem k hm)

/-- A segment whose last entry is made to lead elsewhere. -/
theorem relast (hs : s.Segment before l after) (hnd : l.Nodup) (after' : Option Handle)
    (hl : ∀ h ∈ l, s'.links h =
      if l.getLast? = some h then (s.links h).map fun p => (p.1, after') else s.links h) :
    s'.Segment before l after' := by
  induction l generalizing before with
  | nil => trivial
  | cons k l ih =>
      obtain ⟨hk, hnd⟩ := List.nodup_cons.mp hnd
      -- only the very last handle is given another link, so the cases are one handle and more
      cases l with
      | nil =>
          have hlk := hl k List.mem_cons_self
          rw [hs.1, List.getLast?_singleton, if_pos rfl] at hlk
          exact ⟨hlk, trivial⟩
      | cons j l =>
          have hlast : (k :: j :: l).getLast? = (j :: l).getLast? := List.getLast?_cons_cons
          refine ⟨?_, ih hs.2 hnd fun h hm => ?_⟩
          · have hne : (j :: l).getLast? ≠ some k := fun hlk =>
              hk (List.mem_of_getLast? hlk)
            rw [hl k List.mem_cons_self, hlast, if_neg hne, hs.1]
            rfl
          · rw [hl h (List.mem_cons_of_mem k hm), hlast]

/-- A segment whose first entry is made to lead back elsewhere. -/
theorem rehead (hs : s.Segment before l after) (hnd : l.Nodup) (before' : Option Handle)
    (hl : ∀ h ∈ l, s'.links h =
      if l.head? = some h then (s.links h).map fun p => (before', p.2) else s.links h) :
    s'.Segment before' l after := by
  cases l with
  | nil => trivial
  | cons k l =>
      obtain ⟨hk, -⟩ := List.nodup_cons.mp hnd
      refine ⟨?_, hs.2.congr fun h hm => ?_⟩
      · rw [hl k List.mem_cons_self, List.head?_cons, if_pos rfl, hs.1]
        rfl
      · have hne : (k :: l).head? ≠ some h := by
          rw [List.head?_cons]
          rintro ⟨⟩
          exact hk hm
        rw [hl h (List.mem_cons_of_mem k hm), if_neg hne]

end Segment

/-! ## Reading a list off the links -/

/-- The handles of `l` that name an entry, each with its entry. -/
def rows (s : Slots (Entry ρ)) (l : List Handle) : List (Handle × Entry ρ) :=
  l.filterMap fun h => (s.get? h).map (Prod.mk h)

theorem walk_eq {s : Slots (Entry ρ)} {before : Option Handle} {l : List Handle} {bound : Nat}
    (hs : s.Segment before l none) (hb : l.length ≤ bound) :
    s.walk bound l.head? = .ok (s.rows l) := by
  induction l generalizing before bound with
  | nil => cases bound <;> rfl
  | cons h l ih =>
      obtain ⟨bound, rfl⟩ : ∃ b, bound = b + 1 := ⟨bound - 1, by simp at hb; omega⟩
      obtain ⟨e, he, -, hn⟩ := links_eq_some.mp hs.1
      have hrest := ih hs.2 (by simpa using hb)
      rw [Option.or_none] at hn
      rw [List.head?_cons, walk, require_eq he]
      show (do
        let rest ← s.walk bound e.next
        pure ((h, e) :: rest) : Checked (List (Handle × Entry ρ))) = _
      rw [hn, hrest]
      simp [rows, he]

theorem mem_rows {s : Slots (Entry ρ)} {l : List Handle} {row : Handle × Entry ρ} :
    row ∈ s.rows l ↔ row.1 ∈ l ∧ s.get? row.1 = some row.2 := by
  obtain ⟨h, e⟩ := row
  unfold rows
  rw [List.mem_filterMap]
  constructor
  · rintro ⟨k, hk, heq⟩
    obtain ⟨e', he', heq⟩ := Option.map_eq_some_iff.mp heq
    cases heq
    exact ⟨hk, he'⟩
  · rintro ⟨hh, he⟩
    exact ⟨h, hh, by rw [he]; rfl⟩

theorem map_fst_rows {s : Slots (Entry ρ)} {l : List Handle}
    (hl : ∀ h ∈ l, (s.get? h).isSome) : (s.rows l).map Prod.fst = l := by
  induction l with
  | nil => rfl
  | cons h l ih =>
      obtain ⟨e, he⟩ := Option.isSome_iff_exists.mp (hl h List.mem_cons_self)
      have hrest := ih fun k hk => hl k (List.mem_cons_of_mem h hk)
      unfold rows at hrest ⊢
      simp [he, hrest]

theorem length_rows {s : Slots (Entry ρ)} {l : List Handle}
    (hl : ∀ h ∈ l, (s.get? h).isSome) : (s.rows l).length = l.length := by
  rw [← List.length_map Prod.fst, map_fst_rows hl]

end Slots

/-! ## Chains -/

namespace Chain

variable {ρ : Type}

/-- The chain `c` stands for the list `l` of handles. -/
structure Holds (c : Chain) (s : Slots (Entry ρ)) (l : List Handle) : Prop where
  head : c.head = l.head?
  tail : c.tail = l.getLast?
  length : c.length = l.length
  nodup : l.Nodup
  linked : s.Segment none l none

theorem holds_empty (s : Slots (Entry ρ)) : empty.Holds s [] :=
  ⟨rfl, rfl, rfl, List.nodup_nil, trivial⟩

namespace Holds

variable {c : Chain} {s s' : Slots (Entry ρ)} {l : List Handle}

theorem isSome_of_mem (hc : c.Holds s l) {h : Handle} (hm : h ∈ l) : (s.get? h).isSome :=
  hc.linked.isSome_of_mem hm

theorem congr (hc : c.Holds s l) (hl : ∀ h ∈ l, s'.links h = s.links h) : c.Holds s' l :=
  ⟨hc.head, hc.tail, hc.length, hc.nodup, hc.linked.congr hl⟩

/-- A chain has no more entries than there are. -/
theorem length_le_live (hc : c.Holds s l) : l.length ≤ s.live :=
  Slots.length_le_live hc.nodup fun _ => hc.isSome_of_mem

theorem entries_eq (hc : c.Holds s l) : c.entries s = .ok (s.rows l) := by
  unfold entries
  rw [hc.head]
  exact Slots.walk_eq hc.linked hc.length_le_live

/-- A chain has as many entries as its length says. -/
theorem length_rows (hc : c.Holds s l) : (s.rows l).length = c.length := by
  rw [Slots.length_rows fun _ => hc.isSome_of_mem, hc.length]

end Holds

/-! ## Appending -/

/-- The store after the handle `h` has been linked behind the entry `tail`, in `bucket`. -/
def linkBehind (s : Slots (Entry ρ)) (tail : Option Handle) (h : Handle) (bucket : Nat) :
    Slots (Entry ρ) :=
  (s.touch (some h) (Entry.placed bucket tail)).touch tail (Entry.withNext (some h))

section LinkBehind

variable (s : Slots (Entry ρ)) (tail : Option Handle) (h : Handle) (bucket : Nat)

theorem rewired_linkBehind : s.Rewired (linkBehind s tail h bucket) :=
  (Slots.Rewired.touch s (some h) (Entry.placed bucket tail) fun _ => rfl).trans
    (Slots.Rewired.touch _ tail (Entry.withNext (some h)) fun _ => rfl)

theorem links_linkBehind (k : Handle) :
    (linkBehind s tail h bucket).links k =
      if tail = some k then
        (if h = k then (s.links k).map fun _ => (tail, none) else s.links k).map
          fun p => (p.1, some h)
      else if h = k then (s.links k).map fun _ => (tail, none) else s.links k := by
  unfold linkBehind
  rw [Slots.links_touch_withNext, Slots.links_touch_placed]
  simp only [Option.some.injEq]

theorem home_linkBehind (k : Handle) :
    (linkBehind s tail h bucket).home k =
      if h = k then (s.home k).map fun _ => bucket else s.home k := by
  unfold linkBehind
  rw [Slots.home_touch _ _ _ (Entry.withNext (some h)) fun _ => rfl, Slots.home_touch_placed]
  simp only [Option.some.injEq]

variable {h}

theorem home_linkBehind_self (hl : (s.get? h).isSome) :
    (linkBehind s tail h bucket).home h = some bucket := by
  obtain ⟨e, he⟩ := Option.isSome_iff_exists.mp hl
  rw [home_linkBehind, if_pos rfl, Slots.home, he]
  rfl

theorem home_linkBehind_of_ne {k : Handle} (hk : k ≠ h) :
    (linkBehind s tail h bucket).home k = s.home k := by
  rw [home_linkBehind, if_neg (Ne.symm hk)]

variable {tail}

theorem links_linkBehind_self (ht : tail ≠ some h) (hl : (s.get? h).isSome) :
    (linkBehind s tail h bucket).links h = some (tail, none) := by
  obtain ⟨p, hp⟩ := Option.isSome_iff_exists.mp ((Slots.isSome_links s h).trans hl)
  rw [links_linkBehind, if_neg ht, if_pos rfl, hp]
  rfl

theorem links_linkBehind_of_ne {k : Handle} (hk : k ≠ h) (ht : tail ≠ some k) :
    (linkBehind s tail h bucket).links k = s.links k := by
  rw [links_linkBehind, if_neg ht, if_neg (Ne.symm hk)]

variable (h)

/-- A segment with another handle linked behind it. -/
theorem segment_linkBehind {l : List Handle} (hs : s.Segment none l none) (hnd : l.Nodup)
    (hl : (s.get? h).isSome) (hn : h ∉ l) :
    (linkBehind s l.getLast? h bucket).Segment none (l ++ [h]) none := by
  have hne : ∀ k ∈ l, h ≠ k := fun k hk hhk => hn (hhk ▸ hk)
  have hth : l.getLast? ≠ some h := fun ht => hn (List.mem_of_getLast? ht)
  -- the entry that was last leads on to `h`, and `h` leads back to it
  rw [Slots.segment_append]
  refine ⟨hs.relast hnd (some h) fun k hk => ?_, ?_, trivial⟩
  · rw [links_linkBehind, if_neg (hne k hk)]
  · rw [links_linkBehind_self s bucket hth hl]
    simp

end LinkBehind

theorem pushBack_eq {c : Chain} {s : Slots (Entry ρ)}
    (hc : ∀ k, c.tail = some k → (s.get? k).isSome) {h : Handle} (hl : (s.get? h).isSome)
    (bucket : Nat) :
    c.pushBack s h bucket = .ok
      ({ head := if c.tail.isNone then some h else c.head
         tail := some h
         length := c.length + 1 }, linkBehind s c.tail h bucket) := by
  -- the entry at the end is still there once the new one has been placed behind it
  have hlive : ∀ k, c.tail = some k →
      ((s.touch (some h) (Entry.placed bucket c.tail)).get? k).isSome := by
    intro k hk
    rw [(Slots.Rewired.touch s (some h) (Entry.placed bucket c.tail) fun _ => rfl).isSome k]
    exact hc k hk
  have hplace := Slots.adjust_eq s (some h) (Entry.placed bucket c.tail)
    (by rintro k ⟨⟩; exact hl)
  have hlink := Slots.adjust_eq _ _ (Entry.withNext (some h)) hlive
  show (do
    let s ← s.adjust (some h) (Entry.placed bucket c.tail)
    let s ← s.adjust c.tail (Entry.withNext (some h))
    pure (_, s) : Checked (Chain × Slots (Entry ρ))) = _
  rw [hplace, Checked.ok_bind, hlink, Checked.ok_bind]
  rfl

/-- **Appending.** A handle outside the chain is linked at the end of its list. -/
theorem pushBack_spec {c : Chain} {s : Slots (Entry ρ)} {l : List Handle} (hc : c.Holds s l)
    {h : Handle} (hl : (s.get? h).isSome) (hn : h ∉ l) (bucket : Nat) :
    ∃ c' s', c.pushBack s h bucket = .ok (c', s') ∧ c'.Holds s' (l ++ [h]) ∧ s.Rewired s'
      ∧ (∀ k, k ∉ l → k ≠ h → s'.links k = s.links k)
      ∧ (∀ k, s'.home k = if k = h then some bucket else s.home k) := by
  have htail : c.tail = l.getLast? := hc.tail
  refine ⟨_, _, pushBack_eq (fun k hk => hc.isSome_of_mem (List.mem_of_getLast? (htail ▸ hk))) hl
    bucket, ⟨?_, ?_, ?_, ?_, ?_⟩, rewired_linkBehind s c.tail h bucket, ?_, ?_⟩
  · cases l with
    | nil => simp [htail]
    | cons k l => simp [htail, hc.head]
  · simp
  · simp [hc.length]
  · rw [← List.concat_eq_append]
    exact hc.nodup.concat hn
  · rw [htail]
    exact segment_linkBehind s h bucket hc.linked hc.nodup hl hn
  · intro k hk hkh
    have hkt : c.tail ≠ some k := fun ht => hk (List.mem_of_getLast? (hc.tail.symm.trans ht))
    exact links_linkBehind_of_ne s bucket hkh hkt
  · intro k
    by_cases hk : k = h
    · subst hk
      rw [if_pos rfl, home_linkBehind_self s c.tail bucket hl]
    · rw [if_neg hk, home_linkBehind_of_ne s c.tail bucket hk]

/-! ## Unlinking -/

/-- Erasing a handle from the middle of a list that has it once. -/
theorem erase_middle {l₁ l₂ : List Handle} {h : Handle} (hnd : (l₁ ++ h :: l₂).Nodup) :
    (l₁ ++ h :: l₂).erase h = l₁ ++ l₂ := by
  have hh : h ∉ l₁ := fun hm => (List.nodup_append.mp hnd).2.2 h hm h List.mem_cons_self rfl
  rw [List.erase_append_right _ hh, List.erase_cons_head]

/-- The store after the handle `h` has been taken out from between `prev` and `next`. -/
def bridge (s : Slots (Entry ρ)) (h : Handle) (prev next : Option Handle) : Slots (Entry ρ) :=
  ((s.touch (some h) Entry.detached).touch prev (Entry.withNext next)).touch next
    (Entry.withPrev prev)

section Bridge

variable (s : Slots (Entry ρ)) (h : Handle) (prev next : Option Handle)

theorem rewired_bridge : s.Rewired (bridge s h prev next) :=
  ((Slots.Rewired.touch s (some h) Entry.detached fun _ => rfl).trans
    (Slots.Rewired.touch _ prev (Entry.withNext next) fun _ => rfl)).trans
    (Slots.Rewired.touch _ next (Entry.withPrev prev) fun _ => rfl)

theorem home_bridge (k : Handle) : (bridge s h prev next).home k = s.home k := by
  unfold bridge
  rw [Slots.home_touch _ _ _ (Entry.withPrev prev) fun _ => rfl,
    Slots.home_touch _ _ _ (Entry.withNext next) fun _ => rfl,
    Slots.home_touch _ _ _ Entry.detached fun _ => rfl]

/-- Of the handles other than `h`, the one before it leads on to `next` and the one after it
leads back to `prev`. -/
theorem links_bridge {k : Handle} (hk : k ≠ h) :
    (bridge s h prev next).links k =
      if next = some k then
        (if prev = some k then (s.links k).map fun p => (p.1, next) else s.links k).map
          fun p => (prev, p.2)
      else if prev = some k then (s.links k).map fun p => (p.1, next) else s.links k := by
  unfold bridge
  rw [Slots.links_touch_withPrev, Slots.links_touch_withNext, Slots.links_touch_detached,
    if_neg fun he => hk (Option.some.inj he).symm]

/-- A segment from which a handle has been taken out. -/
theorem segment_bridge {l₁ l₂ : List Handle} (hs : s.Segment none (l₁ ++ h :: l₂) none)
    (hnd : (l₁ ++ h :: l₂).Nodup) :
    (bridge s h l₁.getLast? l₂.head?).Segment none (l₁ ++ l₂) none := by
  obtain ⟨h₁, -, h₂⟩ := (Slots.segment_middle s none none l₁ l₂ h).mp hs
  obtain ⟨hnd₁, hnd₂, hdis⟩ := List.nodup_append.mp hnd
  obtain ⟨hh₂, hnd₂⟩ := List.nodup_cons.mp hnd₂
  have hh₁ : h ∉ l₁ := fun hh => hdis h hh h List.mem_cons_self rfl
  have hdis' : ∀ k ∈ l₁, k ∉ l₂ := fun k hk₁ hk₂ =>
    hdis k hk₁ k (List.mem_cons_of_mem h hk₂) rfl
  rw [Slots.segment_append]
  constructor
  · -- a handle before `h` is not the one after it, so only its forward link can change
    refine h₁.relast hnd₁ _ fun k hk => ?_
    have hkn : l₂.head? ≠ some k := fun hh => hdis' k hk (List.mem_of_head? hh)
    rw [links_bridge s h _ _ (fun he => hh₁ (he ▸ hk)), if_neg hkn, Option.or_none]
  · -- and a handle after `h` only has another one before it
    refine h₂.rehead hnd₂ _ fun k hk => ?_
    have hkp : l₁.getLast? ≠ some k := fun hh => hdis' k (List.mem_of_getLast? hh) hk
    rw [links_bridge s h _ _ (fun he => hh₂ (he ▸ hk)), if_neg hkp, Option.or_none]

end Bridge

/-- A chain from which a handle has been taken out of a segment, whatever the chain begins and ends
with. -/
theorem unlink_eq {c : Chain} {s : Slots (Entry ρ)} {l₁ l₂ : List Handle} {h : Handle}
    (hs : s.Segment none (l₁ ++ h :: l₂) none) :
    c.unlink s h = .ok
      ({ head := if l₁.getLast?.isNone then l₂.head? else c.head
         tail := if l₂.head?.isNone then l₁.getLast? else c.tail
         length := c.lowered }, bridge s h l₁.getLast? l₂.head?) := by
  obtain ⟨e, he, hp, hn⟩ := Slots.links_eq_some.mp hs.links_eq
  -- both neighbours are live, each in the store left by the changes before its own
  have hdet := Slots.Rewired.touch s (some h) Entry.detached fun _ => rfl
  have hnext := Slots.Rewired.touch (s.touch (some h) Entry.detached) l₁.getLast?
    (Entry.withNext l₂.head?) fun _ => rfl
  have hbefore := Slots.adjust_eq (s.touch (some h) Entry.detached) l₁.getLast?
    (Entry.withNext l₂.head?) fun k hk => by
      rw [hdet.isSome]
      exact hs.isSome_of_mem (List.mem_append_left _ (List.mem_of_getLast? hk))
  have hafter := Slots.adjust_eq
    ((s.touch (some h) Entry.detached).touch l₁.getLast? (Entry.withNext l₂.head?))
    l₂.head? (Entry.withPrev l₁.getLast?) fun k hk => by
      rw [hnext.isSome, hdet.isSome]
      exact hs.isSome_of_mem
        (List.mem_append_right _ (List.mem_cons_of_mem h (List.mem_of_head? hk)))
  unfold unlink
  rw [Slots.require_eq he]
  show (do
    let s ← (s.touch (some h) Entry.detached).adjust e.prev (Entry.withNext e.next)
    let s ← s.adjust e.next (Entry.withPrev e.prev)
    pure (_, s) : Checked (Chain × Slots (Entry ρ))) = _
  rw [hp, hn, hbefore, Checked.ok_bind, hafter, Checked.ok_bind]
  rfl

/-- **Unlinking.** A handle of the chain is erased from its list. -/
theorem unlink_spec {c : Chain} {s : Slots (Entry ρ)} {l : List Handle} (hc : c.Holds s l)
    {h : Handle} (hm : h ∈ l) :
    ∃ c' s', c.unlink s h = .ok (c', s') ∧ c'.Holds s' (l.erase h) ∧ s.Rewired s'
      ∧ (∀ k, k ∉ l → s'.links k = s.links k)
      ∧ (∀ k, s'.home k = s.home k) := by
  obtain ⟨l₁, l₂, rfl⟩ := List.append_of_mem hm
  have herase : (l₁ ++ h :: l₂).erase h = l₁ ++ l₂ := erase_middle hc.nodup
  have hlen : c.lowered = (l₁ ++ l₂).length := by
    unfold lowered
    rw [hc.length, List.length_append, List.length_append, List.length_cons, if_neg (by omega)]
    omega
  refine ⟨_, _, unlink_eq hc.linked, ?_, rewired_bridge s h _ _, ?_, home_bridge s h _ _⟩
  · rw [herase]
    refine ⟨?_, ?_, hlen, ?_, segment_bridge s h hc.linked hc.nodup⟩
    · cases l₁ with
      | nil => simp
      | cons k l₁ => simp [hc.head]
    · cases l₂ with
      | nil => simp
      | cons k l₂ => simp [hc.tail]
    · rw [← herase]
      exact hc.nodup.erase h
  · intro k hk
    have hkp : l₁.getLast? ≠ some k := fun hh =>
      hk (List.mem_append_left _ (List.mem_of_getLast? hh))
    have hkn : l₂.head? ≠ some k := fun hh =>
      hk (List.mem_append_right _ (List.mem_cons_of_mem h (List.mem_of_head? hh)))
    rw [links_bridge s h _ _ (fun he => hk (by rw [he]; exact hm)), if_neg hkn, if_neg hkp]

/-- The first handle of a segment is taken out, whatever the chain ends with. -/
theorem popFront_eq {c : Chain} {s : Slots (Entry ρ)} {h : Handle} {l : List Handle}
    (hh : c.head = some h) (hs : s.Segment none (h :: l) none) :
    c.popFront s = .ok (some h,
      { head := l.head?
        tail := if l.head?.isNone then none else c.tail
        length := c.lowered }, bridge s h none l.head?) := by
  have hu := unlink_eq (c := c) (show s.Segment none ([] ++ h :: l) none from hs)
  unfold popFront
  rw [hh]
  dsimp only
  rw [hu]
  rfl

/-- The first handle of a chain is taken out. -/
theorem popFront_spec {c : Chain} {s : Slots (Entry ρ)} {h : Handle} {l : List Handle}
    (hc : c.Holds s (h :: l)) :
    ∃ c' s', c.popFront s = .ok (some h, c', s') ∧ c'.Holds s' l ∧ s.Rewired s'
      ∧ (∀ k, k ∉ h :: l → s'.links k = s.links k)
      ∧ (∀ k, s'.home k = s.home k) := by
  obtain ⟨c', s', hu, hc', hr, hl, hh⟩ := unlink_spec hc List.mem_cons_self
  rw [List.erase_cons_head] at hc'
  refine ⟨c', s', ?_, hc', hr, hl, hh⟩
  unfold popFront
  rw [hc.head, List.head?_cons]
  dsimp only
  rw [hu]
  rfl

end Chain

end ResourceIndex
