import Mathlib.Data.List.Induction
import Mathlib.Logic.Function.Basic
import ResourceIndex.Proofs.Segment

set_option autoImplicit false

/-! # Chains that share a store

Any number of chains may be threaded through one store, and a handle in none of them may be linked
into any. `Bundle.Built` says which bundles of chains come about that way, each with the lists that
its operations make up: a list with a handle appended, one erased from it or the first one dropped,
or a list moved as a whole.

The main statement is `Bundle.Built.sequences`. In every such bundle each chain stands for its
list, whichever way it is read (`Chain.Reads`), no handle is in two chains, and each operation
succeeds and does to the list of its own chain what it should and to the other lists nothing.
-/

namespace ResourceIndex

/-! ## Following links one way -/

namespace Slots

variable {ρ : Type}

/-- From `start` the links that `link` gives lead through the handles of `l` to the end. -/
def Trail (s : Slots (Entry ρ)) (link : Entry ρ → Option Handle) :
    (start : Option Handle) → List Handle → Prop
  | start, [] => start = none
  | start, h :: l => start = some h ∧ ∃ e, s.get? h = some e ∧ s.Trail link (link e) l

variable {s : Slots (Entry ρ)}

/-- There is only one way to go. -/
theorem Trail.unique {link : Entry ρ → Option Handle} {start : Option Handle} {l l' : List Handle}
    (hl : s.Trail link start l) (hl' : s.Trail link start l') : l' = l := by
  induction l generalizing start l' with
  | nil =>
      obtain rfl : start = none := hl
      cases l' with
      | nil => rfl
      | cons h l' => cases hl'.1
  | cons h l ih =>
      obtain ⟨rfl, e, he, hl⟩ := hl
      cases l' with
      | nil => cases hl'
      | cons h' l' =>
          obtain ⟨hh, e', he', hl'⟩ := hl'
          obtain rfl : h = h' := Option.some.inj hh
          obtain rfl : e = e' := Option.some.inj (he.symm.trans he')
          rw [ih hl hl']

theorem Trail.iff {link : Entry ρ → Option Handle} {start : Option Handle} {l : List Handle}
    (hl : s.Trail link start l) (l' : List Handle) : s.Trail link start l' ↔ l' = l :=
  ⟨hl.unique, fun h => h ▸ hl⟩

/-- A segment is followed from its first entry on. -/
theorem Segment.trail_next {before : Option Handle} {l : List Handle}
    (hs : s.Segment before l none) : s.Trail Entry.next l.head? l := by
  induction l generalizing before with
  | nil => rfl
  | cons h l ih =>
      obtain ⟨e, he, -, hn⟩ := links_eq_some.mp hs.1
      rw [Option.or_none] at hn
      exact ⟨rfl, e, he, hn ▸ ih hs.2⟩

/-- And from its last entry back. -/
theorem Segment.trail_prev {after : Option Handle} {l : List Handle}
    (hs : s.Segment none l after) : s.Trail Entry.prev l.getLast? l.reverse := by
  -- by induction from the end, where the way back begins
  induction l using List.reverseRecOn generalizing after with
  | nil => rfl
  | append_singleton l h ih =>
      obtain ⟨hl, hh, -⟩ := (segment_middle s none after l [] h).mp hs
      obtain ⟨e, he, hp, -⟩ := links_eq_some.mp hh
      rw [Option.or_none] at hp
      rw [List.getLast?_concat, List.reverse_concat]
      exact ⟨rfl, e, he, hp ▸ ih hl⟩

end Slots

/-! ## Reading a chain -/

namespace Chain

variable {ρ : Type}

/-- All that can be read off a chain says that it stands for the list `l`. -/
structure Reads (c : Chain) (s : Slots (Entry ρ)) (l : List Handle) : Prop where
  nodup : l.Nodup
  forward : ∀ l', s.Trail Entry.next c.head l' ↔ l' = l
  backward : ∀ l', s.Trail Entry.prev c.tail l' ↔ l' = l.reverse
  length : c.length = l.length
  entries : ∃ rows, c.entries s = .ok rows ∧ rows.map Prod.fst = l

theorem Holds.reads {c : Chain} {s : Slots (Entry ρ)} {l : List Handle} (hc : c.Holds s l) :
    c.Reads s l where
  nodup := hc.nodup
  forward := by
    rw [hc.head]
    exact hc.linked.trail_next.iff
  backward := by
    rw [hc.tail]
    exact hc.linked.trail_prev.iff
  length := hc.length
  entries := ⟨s.rows l, hc.entries_eq, Slots.map_fst_rows fun _ => hc.isSome_of_mem⟩

end Chain

/-! ## Bundles -/

/-- Chains threaded through one store, by their names. -/
structure Bundle (β ρ : Type) where
  slots : Slots (Entry ρ)
  chains : β → Chain

namespace Bundle

variable {β ρ : Type}

/-- Each chain stands for its list, and no handle is in two of them. -/
structure Holds (f : Bundle β ρ) (lists : β → List Handle) : Prop where
  chain : ∀ b, (f.chains b).Holds f.slots (lists b)
  apart : ∀ {b b' h}, h ∈ lists b → h ∈ lists b' → b = b'

/-- Replacing the store by one that has the same links at the handles in the lists. -/
theorem Holds.restore {f : Bundle β ρ} {lists : β → List Handle} (hf : f.Holds lists)
    {s : Slots (Entry ρ)} (hs : ∀ b, ∀ k ∈ lists b, s.links k = f.slots.links k) :
    Holds ⟨s, f.chains⟩ lists where
  chain b := (hf.chain b).congr (hs b)
  apart := hf.apart

/-- All that can be read off the chains of a bundle says that they stand for these lists, no two
of which have a handle in common. -/
structure Reads (f : Bundle β ρ) (lists : β → List Handle) : Prop where
  chain : ∀ b, (f.chains b).Reads f.slots (lists b)
  apart : ∀ b b' h, h ∈ lists b → h ∈ lists b' → b = b'

theorem Holds.reads {f : Bundle β ρ} {lists : β → List Handle} (hf : f.Holds lists) :
    f.Reads lists :=
  ⟨fun b => (hf.chain b).reads, fun _ _ _ => hf.apart⟩

variable [DecidableEq β]

/-- The bundle with another chain named `b`, after an operation that has left the store `s`. -/
def put (f : Bundle β ρ) (b : β) (c : Chain) (s : Slots (Entry ρ)) : Bundle β ρ :=
  ⟨s, Function.update f.chains b c⟩

/-- The bundle with all entries of the chain `b` detached and named `b'`. -/
def move (f : Bundle β ρ) (b b' : β) : Bundle β ρ :=
  ⟨f.slots,
    Function.update (Function.update f.chains b (f.chains b).take.2) b' (f.chains b).take.1⟩

/-- The bundles that come about from empty chains in some store, with the lists that their chains
are to stand for. Entries may also come into the store and, unless they are linked, leave it. -/
inductive Built : Bundle β ρ → (β → List Handle) → Prop
  | new (s : Slots (Entry ρ)) : Built ⟨s, fun _ => Chain.empty⟩ fun _ => []
  | insert {f : Bundle β ρ} {lists : β → List Handle} (hf : Built f lists) (e : Entry ρ) :
      Built ⟨f.slots.insert e, f.chains⟩ lists
  | erase {f : Bundle β ρ} {lists : β → List Handle} (hf : Built f lists) (h : Handle)
      (hn : ∀ b, h ∉ lists b) : Built ⟨f.slots.erase h, f.chains⟩ lists
  | pushBack {f : Bundle β ρ} {lists : β → List Handle} {c : Chain} {s : Slots (Entry ρ)}
      (hf : Built f lists) (b : β) (h : Handle) (bucket : Nat) (hl : (f.slots.get? h).isSome)
      (hn : ∀ b, h ∉ lists b) (hp : (f.chains b).pushBack f.slots h bucket = .ok (c, s)) :
      Built (f.put b c s) (Function.update lists b (lists b ++ [h]))
  | unlink {f : Bundle β ρ} {lists : β → List Handle} {c : Chain} {s : Slots (Entry ρ)}
      (hf : Built f lists) (b : β) (h : Handle) (hm : h ∈ lists b)
      (hu : (f.chains b).unlink f.slots h = .ok (c, s)) :
      Built (f.put b c s) (Function.update lists b ((lists b).erase h))
  | popFront {f : Bundle β ρ} {lists : β → List Handle} {popped : Option Handle} {c : Chain}
      {s : Slots (Entry ρ)} (hf : Built f lists) (b : β)
      (hp : (f.chains b).popFront f.slots = .ok (popped, c, s)) :
      Built (f.put b c s) (Function.update lists b (lists b).tail)
  | take {f : Bundle β ρ} {lists : β → List Handle} (hf : Built f lists) (b b' : β)
      (he : lists b' = []) :
      Built (f.move b b') (Function.update (Function.update lists b []) b' (lists b))

namespace Holds

variable {f : Bundle β ρ} {lists : β → List Handle}

/-- Replacing one chain, by one of handles that are in no other chain. -/
theorem put (hf : f.Holds lists) {b : β} {c : Chain} {s : Slots (Entry ρ)} {l : List Handle}
    (hc : c.Holds s l) (hin : ∀ b' k, b' ≠ b → k ∈ lists b' → k ∉ l)
    (hout : ∀ b' k, b' ≠ b → k ∈ lists b' → s.links k = f.slots.links k) :
    (f.put b c s).Holds (Function.update lists b l) := by
  constructor
  · intro b'
    by_cases hb : b' = b
    · subst hb
      simpa [Bundle.put] using hc
    · have := (hf.chain b').congr (hout b' · hb)
      simpa [Bundle.put, hb] using this
  · intro b₁ b₂ k h₁ h₂
    by_cases hb₁ : b₁ = b
    · by_cases hb₂ : b₂ = b
      · rw [hb₁, hb₂]
      · rw [hb₁, Function.update_self] at h₁
        rw [Function.update_of_ne hb₂] at h₂
        exact absurd h₁ (hin b₂ k hb₂ h₂)
    · rw [Function.update_of_ne hb₁] at h₁
      by_cases hb₂ : b₂ = b
      · rw [hb₂, Function.update_self] at h₂
        exact absurd h₂ (hin b₁ k hb₁ h₁)
      · rw [Function.update_of_ne hb₂] at h₂
        exact hf.apart h₁ h₂

/-! ## Operations -/

theorem pushBack (hf : f.Holds lists) (b : β) {h : Handle} (bucket : Nat)
    (hl : (f.slots.get? h).isSome) (hn : ∀ b, h ∉ lists b) :
    ∃ c s, (f.chains b).pushBack f.slots h bucket = .ok (c, s)
      ∧ (f.put b c s).Holds (Function.update lists b (lists b ++ [h])) := by
  obtain ⟨c, s, hp, hc, -, hlinks, -⟩ := Chain.pushBack_spec (hf.chain b) hl (hn b) bucket
  refine ⟨c, s, hp, hf.put hc (fun b' k hb hk hm => ?_) fun b' k hb hk => ?_⟩
  · rcases List.mem_append.mp hm with hm | hm
    · exact hb (hf.apart hk hm)
    · rw [List.mem_singleton.mp hm] at hk
      exact hn b' hk
  · exact hlinks k (fun hm => hb (hf.apart hk hm)) fun heq => hn b' (heq ▸ hk)

theorem unlink (hf : f.Holds lists) {b : β} {h : Handle} (hm : h ∈ lists b) :
    ∃ c s, (f.chains b).unlink f.slots h = .ok (c, s)
      ∧ (f.put b c s).Holds (Function.update lists b ((lists b).erase h)) := by
  obtain ⟨c, s, hu, hc, -, hlinks, -⟩ := Chain.unlink_spec (hf.chain b) hm
  refine ⟨c, s, hu, hf.put hc (fun b' k hb hk hm => ?_) fun b' k hb hk => ?_⟩
  · exact hb (hf.apart hk (List.mem_of_mem_erase hm))
  · exact hlinks k fun hm => hb (hf.apart hk hm)

theorem popFront (hf : f.Holds lists) (b : β) :
    ∃ c s, (f.chains b).popFront f.slots = .ok ((lists b).head?, c, s)
      ∧ (f.put b c s).Holds (Function.update lists b (lists b).tail) := by
  have hc := hf.chain b
  cases hl : lists b with
  | nil =>
      rw [hl] at hc
      refine ⟨f.chains b, f.slots, ?_, hf.put hc nofun fun _ _ _ _ => rfl⟩
      rw [Chain.popFront, hc.head]
      rfl
  | cons h l =>
      rw [hl] at hc
      obtain ⟨c, s, hp, hc', -, hlinks, -⟩ := Chain.popFront_spec hc
      refine ⟨c, s, hp, hf.put hc' (fun b' k hb hk hm => ?_) fun b' k hb hk => ?_⟩
      · exact hb (hf.apart hk (hl ▸ List.mem_cons_of_mem h hm))
      · exact hlinks k fun hm => hb (hf.apart hk (hl ▸ hm))

theorem take (hf : f.Holds lists) (b b' : β) :
    (f.move b b').Holds (Function.update (Function.update lists b []) b' (lists b)) := by
  have hleft : (f.put b (f.chains b).take.2 f.slots).Holds (Function.update lists b []) :=
    hf.put (Chain.holds_empty f.slots) nofun fun _ _ _ _ => rfl
  refine hleft.put (hf.chain b) (fun b₁ k _ hk hm => ?_) fun _ _ _ _ => rfl
  by_cases hb : b₁ = b
  · rw [hb, Function.update_self] at hk
    cases hk
  · rw [Function.update_of_ne hb] at hk
    exact hb (hf.apart hk hm)

end Holds

/-! ## Bundles that have been built -/

variable {f : Bundle β ρ} {lists : β → List Handle}

/-- Every way of building a bundle keeps its chains in order. -/
theorem Built.holds (hf : f.Built lists) : f.Holds lists := by
  induction hf with
  | new s => exact ⟨fun _ => Chain.holds_empty s, nofun⟩
  | @insert f lists _ e ih =>
      refine ih.restore fun b k hk => ?_
      have hne : k ≠ f.slots.fresh := by
        rintro rfl
        have hlive := (ih.chain b).isSome_of_mem hk
        rw [Slots.get?_fresh] at hlive
        cases hlive
      unfold Slots.links
      rw [Slots.get?_insert, if_neg hne]
  | @erase f lists _ h hn ih =>
      refine ih.restore fun b k hk => ?_
      have hne : k ≠ h := fun heq => hn b (heq ▸ hk)
      unfold Slots.links
      rw [Slots.get?_erase, if_neg hne]
  | pushBack _ b h bucket hl hn hp ih =>
      obtain ⟨c, s, hp', hs⟩ := ih.pushBack b bucket hl hn
      cases hp'.symm.trans hp
      exact hs
  | unlink _ b h hm hu ih =>
      obtain ⟨c, s, hu', hs⟩ := ih.unlink hm
      cases hu'.symm.trans hu
      exact hs
  | popFront _ b hp ih =>
      obtain ⟨c, s, hp', hs⟩ := ih.popFront b
      cases hp'.symm.trans hp
      exact hs
  | take _ b b' _ ih => exact ih.take b b'

/-- **Chains that share a store are lists apart.** In a bundle that has been built the links from
the first entry of each chain on, and from its last entry back, lead through its list to an end, the
stored length is that of the list, and no list has a handle twice or one of another list. A handle
in the store that is in no chain can be linked into any, and is then the last one of its list. A
handle can be unlinked from the chain it is in, wherever it is there, and its list is then without
it. From every chain the first handle can be taken, if it has one. Taking a whole chain moves its
list and leaves an empty one behind. None of this changes the list of another chain. -/
theorem Built.sequences (hf : f.Built lists) :
    f.Reads lists
      ∧ (∀ b h bucket, (f.slots.get? h).isSome → (∀ b', h ∉ lists b') →
          ∃ c s, (f.chains b).pushBack f.slots h bucket = .ok (c, s)
            ∧ (f.put b c s).Reads (Function.update lists b (lists b ++ [h])))
      ∧ (∀ b h, h ∈ lists b →
          ∃ c s, (f.chains b).unlink f.slots h = .ok (c, s)
            ∧ (f.put b c s).Reads (Function.update lists b ((lists b).erase h)))
      ∧ (∀ b, ∃ c s, (f.chains b).popFront f.slots = .ok ((lists b).head?, c, s)
            ∧ (f.put b c s).Reads (Function.update lists b (lists b).tail))
      ∧ ∀ b b', lists b' = [] →
          (f.move b b').Reads (Function.update (Function.update lists b []) b' (lists b)) := by
  have h := hf.holds
  refine ⟨h.reads, fun b k bucket hl hn => ?_, fun b k hm => ?_, fun b => ?_,
    fun b b' _ => (h.take b b').reads⟩
  · obtain ⟨c, s, hp, hs⟩ := h.pushBack b bucket hl hn
    exact ⟨c, s, hp, hs.reads⟩
  · obtain ⟨c, s, hu, hs⟩ := h.unlink hm
    exact ⟨c, s, hu, hs.reads⟩
  · obtain ⟨c, s, hp, hs⟩ := h.popFront b
    exact ⟨c, s, hp, hs.reads⟩

/-- Three entries are linked into one chain, and the middle one is then moved to another. -/
theorem Built.sequences_two :
    ∃ (f : Bundle Bool String) (lists : Bool → List Handle), f.Built lists
      ∧ lists false = [⟨0⟩, ⟨2⟩] ∧ lists true = [⟨1⟩]
      ∧ f.slots.Trail Entry.next (f.chains false).head [⟨0⟩, ⟨2⟩]
      ∧ f.slots.Trail Entry.prev (f.chains false).tail [⟨2⟩, ⟨0⟩]
      ∧ (∃ c s, (f.chains false).unlink f.slots ⟨2⟩ = .ok (c, s)
          ∧ (f.put false c s).Reads (Function.update lists false [⟨0⟩]))
      ∧ ∃ c s, (f.chains true).popFront f.slots = .ok (some ⟨1⟩, c, s)
          ∧ (f.put true c s).Reads (Function.update lists true []) := by
  have hempty : (⟨Slots.empty, fun _ => Chain.empty⟩ : Bundle Bool String).Built fun _ => [] :=
    .new Slots.empty
  have hstored := ((hempty.insert ⟨"a", 0, none, none⟩).insert ⟨"b", 0, none, none⟩).insert
    ⟨"c", 0, none, none⟩
  have hlinked := ((hstored.pushBack false ⟨0⟩ 0 rfl (by decide) rfl).pushBack false ⟨1⟩ 0 rfl
    (by decide) rfl).pushBack false ⟨2⟩ 0 rfl (by decide) rfl
  have hmoved := (hlinked.unlink false ⟨1⟩ (by decide) rfl).pushBack true ⟨1⟩ 1 rfl (by decide) rfl
  obtain ⟨hreads, -, hunlink, hpop, -⟩ := hmoved.sequences
  exact ⟨_, _, hmoved, rfl, rfl, ((hreads.chain false).forward _).mpr rfl,
    ((hreads.chain false).backward _).mpr rfl, hunlink false ⟨2⟩ (by decide), hpop true⟩

end Bundle

end ResourceIndex
