import Mathlib.Data.List.TakeWhile
import ResourceIndex.Identifier.Keyed
import ResourceIndex.Iterator
import ResourceIndex.Record
import ResourceIndex.Proofs.Session

set_option autoImplicit false

/-! # What a cursor returns

A cursor is resumed in a table that may have been edited since it was made, but has not gained
anything: the buckets are those there were, without the handles that are not live any more. So the
cursor is at a place in the buckets as they were (`Cursor.At`). The handles before that place have
been returned or are not live any more, and the next one to be returned is the first one after it.
An edit leaves the cursor at its place, and a step takes it to the next one (`Cursor.At.step`).

The main statement is `Session.run_cursors`: what a step of any cursor answers, in every session
in which no identifier turned out not to be hashable. An iterator is a cursor in a table that stays
as it is, and comes to all that is in the buckets (`Table.Accounted.toList_eq`).
-/

namespace ResourceIndex

/-- The first element that a filter leaves. -/
theorem head?_filter_eq {α : Type} (p : α → Bool) (l : List α) :
    (l.filter p).head? = (l.dropWhile fun a => !p a).head? := by
  induction l with
  | nil => rfl
  | cons a l ih =>
      cases hp : p a with
      | true => simp [hp]
      | false => simpa [hp] using ih

namespace Table

variable {ρ : Type}

/-! ## The order of traversal -/

/-- The handles in the buckets before a bucket. -/
def before (t : Table ρ) (bucket : Nat) : List Handle := (List.range bucket).flatMap t.handlesIn

theorem before_succ (t : Table ρ) (bucket : Nat) :
    t.before (bucket + 1) = t.before bucket ++ t.handlesIn bucket := by
  unfold before
  rw [List.range_succ, List.flatMap_append, List.flatMap_singleton]

theorem before_append (t : Table ρ) (bucket : Nat) (count : Nat) :
    ∃ rest, t.before (bucket + count) = t.before bucket ++ rest := by
  induction count with
  | zero => exact ⟨[], (List.append_nil _).symm⟩
  | succ count ih =>
      obtain ⟨rest, hrest⟩ := ih
      exact ⟨rest ++ t.handlesIn (bucket + count), by
        rw [← Nat.add_assoc, before_succ, hrest, List.append_assoc]⟩

/-- The place of a bucket in the order of traversal. -/
theorem order_eq (t : Table ρ) {bucket : Nat} (hlt : bucket < t.buckets.size) :
    ∃ rest, t.order = t.before bucket ++ t.handlesIn bucket ++ rest := by
  obtain ⟨rest, hrest⟩ := t.before_append (bucket + 1) (t.buckets.size - (bucket + 1))
  refine ⟨rest, ?_⟩
  rw [← before_succ, ← hrest, Nat.add_sub_cancel' hlt]
  rfl

theorem Holds.follower_eq {t : Table ρ} (ht : t.Holds t.handlesIn) {bucket : Nat}
    {l₁ l₂ : List Handle} {h : Handle} (hl : t.handlesIn bucket = l₁ ++ h :: l₂) :
    t.follower h = l₂.head? := by
  have hm : h ∈ t.handlesIn bucket := by
    rw [hl]
    exact List.mem_append_right _ List.mem_cons_self
  have hnd := ht.nodup bucket
  rw [hl] at hnd
  -- the handle is not among those before it
  have hdrop : (l₁ ++ h :: l₂).dropWhile (fun k => k ≠ h) = h :: l₂ := by
    rw [List.dropWhile_append_of_pos, List.dropWhile_cons_of_neg (by simp)]
    intro k hk
    have hkh : k ≠ h := fun he =>
      (List.nodup_append.mp hnd).2.2 k hk h List.mem_cons_self he
    simpa using hkh
  unfold follower
  rw [ht.home bucket h hm, Option.bind_some, hl, hdrop, List.tail_cons]

end Table

/-! ## Steps -/

namespace Cursor

variable {ρ : Type} {t : Table ρ}

theorem settle_epoch (count : Nat) : ∀ c : Cursor, (c.settle t count).epoch = c.epoch := by
  induction count with
  | zero => exact fun _ => rfl
  | succ count ih =>
      intro c
      rw [settle]
      split
      · rfl
      · exact ih _

/-- A cursor keeps its epoch. -/
theorem step_epoch {c c' : Cursor} {answer : Option Handle} (hs : c.step t = .ok (answer, c')) :
    c'.epoch = c.epoch := by
  have hsettle := settle_epoch (t := t) (t.buckets.size - c.bucket) c
  unfold step at hs
  split at hs
  · cases hs
  · dsimp only at hs
    split at hs
    · cases hs
      exact hsettle
    · split at hs
      · cases hs
      · cases hs
        exact hsettle

theorem step_eq_grown_iff {c : Cursor} : c.step t = .error .grown ↔ c.epoch ≠ t.epoch := by
  unfold step
  split
  · rename_i hne
    exact iff_of_true rfl hne
  · rename_i heq
    refine iff_of_false (fun hs => ?_) heq
    dsimp only at hs
    split at hs
    · cases hs
    · split at hs <;> cases hs

variable {c : Cursor} (hc : c.epoch = t.epoch)

include hc

theorem step_of_end (hn : (c.settle t (t.buckets.size - c.bucket)).next = none) :
    c.step t = .ok (none, c.settle t (t.buckets.size - c.bucket)) := by
  simp [step, hc, hn]

theorem step_of_stale {h : Handle}
    (hn : (c.settle t (t.buckets.size - c.bucket)).next = some h) (hg : t.slots.get? h = none) :
    c.step t = .error .successorRemoved := by
  simp [step, hc, hn, hg]

theorem step_of_live {h : Handle} {e : Entry ρ}
    (hn : (c.settle t (t.buckets.size - c.bucket)).next = some h)
    (hg : t.slots.get? h = some e) :
    c.step t = .ok (some h, { c.settle t (t.buckets.size - c.bucket) with next := e.next }) := by
  simp [step, hc, hn, hg]

end Cursor

/-! ## Places -/

section Places

variable {ρ : Type}

/-- The cursor `c` is at a place in the buckets of `t₀`, behind the handles `passed` of its bucket
and before the handles `rest`. The handles before the place have been returned or are not live any
more in `t`. -/
structure Cursor.At (t₀ t : Table ρ) (returned : List Handle) (c : Cursor)
    (passed rest : List Handle) : Prop where
  bucket_le : c.bucket ≤ t₀.buckets.size
  split : t₀.handlesIn c.bucket = passed ++ rest
  next : c.next = rest.head?
  sublist : returned.Sublist (t₀.before c.bucket ++ passed)
  done : ∀ k ∈ t₀.before c.bucket ++ passed, k ∈ returned ∨ t.get? k = none

namespace Cursor.At

variable {t₀ t t' : Table ρ} {returned passed rest : List Handle} {c : Cursor}

/-- The handle to be returned next is in the bucket that the cursor is at. -/
theorem mem_next (hc : c.At t₀ t returned passed rest) {h : Handle} (hn : c.next = some h) :
    h ∈ t₀.handlesIn c.bucket := by
  rw [hc.split]
  exact List.mem_append_right _ (List.mem_of_head? (hc.next.symm.trans hn))

/-- Taking out resources leaves a cursor at its place. -/
theorem prunes (hc : c.At t₀ t returned passed rest) (hp : t.Prunes t') :
    c.At t₀ t' returned passed rest where
  bucket_le := hc.bucket_le
  split := hc.split
  next := hc.next
  sublist := hc.sublist
  done k hk := by
    refine (hc.done k hk).imp_right fun hdead => ?_
    have hlive := mt (hp.live k)
    rw [hdead] at hlive
    exact Option.not_isSome_iff_eq_none.mp (hlive nofun)

theorem eq_none_of_mem_takeWhile {h : Handle} {l : List Handle}
    (hm : h ∈ l.takeWhile fun k => !(t.get? k).isSome) : t.get? h = none := by
  have hdead := List.mem_takeWhile_imp hm
  simpa using hdead

variable (hp : t₀.Prunes t) (hholds : t.Holds t.handlesIn)

include hp hholds

/-- A cursor that has come to the end of its bucket goes on to the next one, where it passes the
handles that are not live any more. -/
theorem leave (hc : c.At t₀ t returned passed rest) (hn : c.next = none)
    (hlt : c.bucket < t₀.buckets.size) :
    Cursor.At t₀ t returned { c with bucket := c.bucket + 1, next := t.first? (c.bucket + 1) }
      ((t₀.handlesIn (c.bucket + 1)).takeWhile fun k => !(t.get? k).isSome)
      ((t₀.handlesIn (c.bucket + 1)).dropWhile fun k => !(t.get? k).isSome) := by
  have hrest : rest = [] := List.head?_eq_none_iff.mp (hc.next.symm.trans hn)
  have hsplit := hc.split
  rw [hrest, List.append_nil] at hsplit
  have hbefore : t₀.before (c.bucket + 1) = t₀.before c.bucket ++ passed := by
    rw [t₀.before_succ, hsplit]
  have hfirst : t.first? (c.bucket + 1) = ((t₀.handlesIn (c.bucket + 1)).dropWhile
      fun k => !(t.get? k).isSome).head? := by
    rw [hholds.first?_eq, hp.handlesIn, head?_filter_eq]
  refine ⟨hlt, List.takeWhile_append_dropWhile.symm, hfirst, ?_, fun k hk => ?_⟩
  · dsimp only
    rw [hbefore]
    exact hc.sublist.trans (List.sublist_append_left _ _)
  · dsimp only at hk
    rw [hbefore] at hk
    rcases List.mem_append.mp hk with hk | hk
    · exact hc.done k hk
    · exact Or.inr (eq_none_of_mem_takeWhile hk)

/-- **Settling** takes a cursor to the first live handle in the buckets after its own, unless it is
at one already. -/
theorem settle (count : Nat) :
    ∀ {c : Cursor} {passed rest : List Handle}, c.At t₀ t returned passed rest →
      c.bucket + count = t₀.buckets.size →
      ∃ passed' rest', (c.settle t count).At t₀ t returned passed' rest'
        ∧ c.bucket ≤ (c.settle t count).bucket ∧ (c.settle t count).epoch = c.epoch
        ∧ ((c.settle t count).next = none → (c.settle t count).bucket = t₀.buckets.size)
        ∧ (∀ h, c.next = some h → c.settle t count = c)
        ∧ (c.next = none → ∀ h, (c.settle t count).next = some h → (t.get? h).isSome) := by
  induction count with
  | zero =>
      intro c passed rest hc hcount
      refine ⟨passed, rest, hc, Nat.le_refl _, rfl, fun _ => hcount, fun _ _ => rfl,
        fun hnone h hsome => ?_⟩
      have hnext : c.next = some h := hsome
      rw [hnone] at hnext
      cases hnext
  | succ count ih =>
      intro c passed rest hc hcount
      rw [Cursor.settle]
      cases hn : c.next with
      | some h =>
          rw [Option.isSome_some, if_pos rfl]
          exact ⟨passed, rest, hc, Nat.le_refl _, rfl, fun hnone => (nomatch hn.symm.trans hnone),
            fun _ _ => rfl, nofun⟩
      | none =>
          rw [Option.isSome_none, if_neg nofun]
          obtain ⟨passed', rest', hat, hle, hepoch, hend, hstay, hlive⟩ :=
            ih (hc.leave hp hholds hn (by omega)) (by dsimp only; omega)
          refine ⟨passed', rest', hat, Nat.le_of_succ_le hle, hepoch, hend, nofun,
            fun _ h hsome => ?_⟩
          cases hf : t.first? (c.bucket + 1) with
          | none => exact hlive hf h hsome
          | some k =>
              rw [hstay k hf] at hsome
              have hhead : t.first? (c.bucket + 1) = some h := hsome
              rw [hholds.first?_eq] at hhead
              have hm := hholds.isSome_of_mem (List.mem_of_head? hhead)
              rwa [← Slots.isSome_resource?] at hm

/-- The live handle that a cursor is at is the next one in the order of traversal, and its follower
is the next one after it. -/
theorem advance (hc : c.At t₀ t returned passed rest) {h : Handle} (hn : c.next = some h) {r : ρ}
    (hr : t.get? h = some r) :
    ∃ e, t.slots.get? h = some e ∧ e.next = t.follower h ∧ c.bucket < t₀.buckets.size
      ∧ (∃ before after, t₀.order = before ++ h :: after ∧ returned.Sublist before
          ∧ ∀ k ∈ before, k ∈ returned ∨ t.get? k = none)
      ∧ ∃ passed' rest',
        ({ c with next := e.next } : Cursor).At t₀ t (returned ++ [h]) passed' rest' := by
  have hlive : (t.get? h).isSome := by
    rw [hr]
    rfl
  obtain ⟨after, rfl⟩ : ∃ after, rest = h :: after :=
    ⟨rest.tail, (List.cons_head?_tail (hc.next.symm.trans hn)).symm⟩
  -- in the bucket as it is now, the handle stands before the live ones of those after it
  have hnow : t.handlesIn c.bucket = passed.filter (fun k => (t.get? k).isSome)
      ++ h :: after.filter fun k => (t.get? k).isSome := by
    rw [hp.handlesIn, hc.split, List.filter_append, List.filter_cons, if_pos hlive]
  have hlt : c.bucket < t₀.buckets.size := by
    have hm : h ∈ t.handlesIn c.bucket := by
      rw [hnow]
      exact List.mem_append_right _ List.mem_cons_self
    have hsize := hholds.lt_size hm
    rwa [hp.growth.buckets] at hsize
  obtain ⟨e, he, -, hnext⟩ := hholds.next_eq hnow hr
  have hfollow := hholds.follower_eq hnow
  obtain ⟨tail, htail⟩ := t₀.order_eq hlt
  refine ⟨e, he, hnext.trans hfollow.symm, hlt,
    ⟨t₀.before c.bucket ++ passed, after ++ tail, ?_, hc.sublist, hc.done⟩,
    passed ++ h :: after.takeWhile (fun k => !(t.get? k).isSome),
    after.dropWhile (fun k => !(t.get? k).isSome), hc.bucket_le, ?_, ?_, ?_, fun k hk => ?_⟩
  · rw [htail, hc.split]
    simp
  · rw [List.append_assoc, List.cons_append, List.takeWhile_append_dropWhile]
    exact hc.split
  · rw [← head?_filter_eq]
    exact hnext
  · rw [← List.append_assoc]
    exact hc.sublist.append (List.singleton_sublist.mpr List.mem_cons_self)
  · rw [← List.append_assoc] at hk
    rcases List.mem_append.mp hk with hk | hk
    · exact (hc.done k hk).imp_left (List.mem_append_left _)
    · rcases List.mem_cons.mp hk with rfl | hk
      · exact Or.inl (List.mem_append_right _ List.mem_cons_self)
      · exact Or.inr (eq_none_of_mem_takeWhile hk)

/-- **A step** comes to the end, or returns the next live handle in the order of traversal and
goes on to its follower, unless the handle to be returned has been taken out. -/
theorem step (hc : c.At t₀ t returned passed rest) (hepoch : c.epoch = t₀.epoch) :
    (∃ h, c.next = some h ∧ t.get? h = none ∧ c.step t = .error .successorRemoved)
    ∨ (∃ c' passed' rest', c.step t = .ok (none, c') ∧ c.next = none ∧ c'.next = none
        ∧ c'.epoch = t₀.epoch ∧ c'.bucket = t₀.buckets.size
        ∧ c'.At t₀ t returned passed' rest')
    ∨ (∃ h c' passed' rest', c.step t = .ok (some h, c') ∧ (t.get? h).isSome
        ∧ (∀ k, c.next = some k → k = h) ∧ c'.next = t.follower h ∧ c'.epoch = t₀.epoch
        ∧ c.bucket < t₀.buckets.size
        ∧ (∃ before after, t₀.order = before ++ h :: after ∧ returned.Sublist before
            ∧ ∀ k ∈ before, k ∈ returned ∨ t.get? k = none)
        ∧ c'.At t₀ t (returned ++ [h]) passed' rest') := by
  have hsize : t.buckets.size = t₀.buckets.size := hp.growth.buckets
  obtain ⟨passed', rest', hat, hle, hsame, hend, hstay, hlive⟩ :=
    settle hp hholds (t.buckets.size - c.bucket) hc (by have := hc.bucket_le; omega)
  have hnow : c.epoch = t.epoch := hepoch.trans hp.epoch.symm
  cases hn : (c.settle t (t.buckets.size - c.bucket)).next with
  | none =>
      have hnone : c.next = none := by
        cases hcn : c.next with
        | none => rfl
        | some h =>
            rw [hstay h hcn, hcn] at hn
            cases hn
      exact Or.inr (Or.inl ⟨_, passed', rest', step_of_end hnow hn, hnone, hn,
        hsame.trans hepoch, hend hn, hat⟩)
  | some h =>
      have hnext : ∀ k, c.next = some k → k = h := by
        intro k hk
        rw [hstay k hk, hk] at hn
        exact Option.some.inj hn
      cases hr : t.get? h with
      | none =>
          have hstep := step_of_stale hnow hn (Option.map_eq_none_iff.mp hr)
          -- the cursor has been there before, for it settles at live handles only
          cases hcn : c.next with
          | none =>
              have hl := hlive hcn h hn
              rw [hr] at hl
              cases hl
          | some k =>
              obtain rfl := hnext k hcn
              exact Or.inl ⟨k, rfl, hr, hstep⟩
      | some r =>
          obtain ⟨e, he, hfollow, hlt, hbefore, passed'', rest'', hat'⟩ :=
            hat.advance hp hholds hn hr
          exact Or.inr (Or.inr ⟨h, _, passed'', rest'', step_of_live hnow hn he, by rw [hr]; rfl,
            hnext, hfollow, hsame.trans hepoch, Nat.lt_of_le_of_lt hle hlt, hbefore, hat'⟩)

omit hp hholds in
/-- Behind the last bucket there is nothing to be returned. -/
theorem next_eq_none (hc : c.At t₀ t returned passed rest) (ht₀ : t₀.Holds t₀.handlesIn)
    (hb : c.bucket = t₀.buckets.size) : c.next = none := by
  have hsplit := hc.split
  rw [ht₀.beyond c.bucket (Nat.le_of_eq hb.symm)] at hsplit
  rw [hc.next, (List.append_eq_nil_iff.mp hsplit.symm).2]
  rfl

end Cursor.At

end Places

/-! ## Iterators -/

section Iteration

variable {ρ ι : Type} [Resource ρ ι] [Identifier ι] {t : Table ρ} {lost : List Handle}

/-- In a table that stays as it is, every handle before a place has been returned. -/
theorem Table.Accounted.eq_of_sublist (ha : t.Accounted lost)
    {returned rest before after : List Handle} (horder : t.order = returned ++ rest)
    (hsplit : t.order = before ++ after)
    (hsub : returned.Sublist before)
    (hdone : ∀ k ∈ before, k ∈ returned ∨ t.get? k = none) : returned = before ∧ rest = after := by
  have hlive : ∀ k ∈ t.order, t.get? k ≠ none := fun k hk hnone => by
    have hsome := (ha.live_iff k).mpr (Or.inl hk)
    rw [hnone] at hsome
    cases hsome
  have hmem : before ⊆ returned := fun k hk => (hdone k hk).resolve_right
    (hlive k (by rw [hsplit]; exact List.mem_append_left _ hk))
  have hnd : before.Nodup := by
    have hall := ha.holds.nodup_order
    rw [hsplit] at hall
    exact (List.nodup_append.mp hall).1
  obtain rfl := hsub.eq_of_length_le (List.subperm_of_subset hnd hmem).length_le
  exact ⟨rfl, List.append_cancel_left (horder.symm.trans hsplit)⟩

/-- In a table that stays as it is, a step comes to the end or returns the next handle. -/
theorem Table.Accounted.step (ha : t.Accounted lost) {c : Cursor}
    {returned passed rest : List Handle} (hc : c.At t t returned passed rest)
    (hepoch : c.epoch = t.epoch) :
    (∃ c' passed' rest', c.step t = .ok (none, c') ∧ c'.epoch = t.epoch
        ∧ c'.bucket = t.buckets.size ∧ c'.At t t returned passed' rest')
    ∨ ∃ h c' passed' rest', c.step t = .ok (some h, c') ∧ (t.get? h).isSome
        ∧ c'.epoch = t.epoch
        ∧ (∃ before after, t.order = before ++ h :: after ∧ returned.Sublist before
            ∧ ∀ k ∈ before, k ∈ returned ∨ t.get? k = none)
        ∧ c'.At t t (returned ++ [h]) passed' rest' := by
  rcases hc.step ha.prunes_refl ha.holds hepoch with ⟨h, hn, hdead, -⟩
    | ⟨c', passed', rest', hstep, -, -, hepoch', hbucket, hat⟩
    | ⟨h, c', passed', rest', hstep, hl, -, -, hepoch', -, hbefore, hat⟩
  · -- nothing has been taken out
    have hl := ha.isSome_of_mem (hc.mem_next hn)
    rw [hdead] at hl
    cases hl
  · exact Or.inl ⟨c', passed', rest', hstep, hepoch', hbucket, hat⟩
  · exact Or.inr ⟨h, c', passed', rest', hstep, hl, hepoch', hbefore, hat⟩

/-- **An iterator** comes to the resources that are left in their order. -/
theorem Iterator.take_spec (ha : t.Accounted lost) (count : Nat) :
    ∀ {c : Cursor} {returned rest passed ahead : List Handle} {remaining : Nat},
      c.At t t returned passed ahead → c.epoch = t.epoch → t.order = returned ++ rest →
      rest.length ≤ remaining → rest.length ≤ count →
      Iterator.take count ⟨t, c, remaining⟩ = .ok (rest.filterMap t.get?) := by
  induction count with
  | zero =>
      intro c returned rest passed ahead remaining _ _ _ _ hcount
      rw [List.length_eq_zero_iff.mp (Nat.le_zero.mp hcount)]
      rfl
  | succ count ih =>
      intro c returned rest passed ahead remaining hc hepoch horder hremaining hcount
      rw [Iterator.take]
      unfold Iterator.next
      dsimp only
      rcases ha.step hc hepoch with ⟨c', passed', ahead', hstep, -, hbucket, hat⟩
        | ⟨h, c', passed', ahead', hstep, hl, hepoch', ⟨before, after, hsplit, hsub, hdone⟩, hat⟩
      · have hsub := hat.sublist
        have hdone := hat.done
        rw [hbucket] at hsub hdone
        have hpassed : passed' = [] := by
          have hsplit := hat.split
          rw [ha.holds.beyond _ (Nat.le_of_eq hbucket.symm)] at hsplit
          exact (List.append_eq_nil_iff.mp hsplit.symm).1
        rw [hpassed, List.append_nil] at hsub hdone
        obtain ⟨-, rfl⟩ := ha.eq_of_sublist horder (List.append_nil t.order).symm hsub hdone
        rw [hstep]
        rfl
      · obtain ⟨rfl, rfl⟩ := ha.eq_of_sublist horder hsplit hsub hdone
        obtain ⟨remaining, rfl⟩ : ∃ n, remaining = n + 1 :=
          ⟨remaining - 1, by simp at hremaining; omega⟩
        obtain ⟨r, hr⟩ := Option.isSome_iff_exists.mp hl
        have hnext : t.order = returned ++ [h] ++ after := by
          rw [hsplit, List.append_assoc]
          rfl
        have hrest := ih hat hepoch' hnext (Nat.le_of_succ_le_succ hremaining)
          (Nat.le_of_succ_le_succ hcount)
        rw [hstep]
        dsimp only
        rw [hr, List.filterMap_cons, hr, Checked.ok_bind]
        dsimp only
        rw [hrest]
        rfl

/-- The resources of a table in the order of traversal, without those that are lost. -/
theorem Table.Accounted.toList_eq (ha : t.Accounted lost) :
    t.toList = .ok (t.order.filterMap t.get?) := by
  have hsize := ha.size_eq
  have hlinked := ha.holds.linked_eq
  have hstart : (Cursor.start t).At t t [] [] (t.handlesIn 0) :=
    ⟨Nat.zero_le _, rfl, ha.holds.first?_eq 0, List.nil_sublist _, nofun⟩
  exact Iterator.take_spec ha t.size hstart rfl rfl (by omega) (by omega)

end Iteration

/-! ## Readers -/

namespace Reader

variable {ρ ι : Type}

/-- Nothing has been gained since the cursor was made. -/
def Undisturbed (rd : Reader ρ ι) : Prop := ∀ x ∈ rd.since, ¬ x.Gains

theorem not_undisturbed {rd : Reader ρ ι} : ¬ rd.Undisturbed ↔ ∃ x ∈ rd.since, x.Gains := by
  unfold Undisturbed
  push Not
  rfl

/-- The cursor has the epoch of the table it was made for, which lies behind as soon as something
has been gained and not before. -/
structure Dated (t : Table ρ) (rd : Reader ρ ι) : Prop where
  epoch : rd.cursor.epoch = rd.origin.epoch
  same : rd.Undisturbed → t.epoch = rd.origin.epoch
  behind : (∃ x ∈ rd.since, x.Gains) → rd.origin.epoch < t.epoch

namespace Dated

variable {t : Table ρ} {rd : Reader ρ ι}

theorem start (t : Table ρ) (lost : List Handle) : (Reader.start t lost : Reader ρ ι).Dated t :=
  ⟨rfl, fun _ => rfl, nofun⟩

/-- A request is carried out. -/
theorem note (hd : rd.Dated t) {t' : Table ρ} {x : Exchange ρ ι}
    (hx : t'.epoch = t.epoch ∧ ¬ x.Gains ∨ t.epoch < t'.epoch ∧ x.Gains) :
    (rd.note x).Dated t' := by
  have hle : rd.origin.epoch ≤ t.epoch := by
    by_cases hu : rd.Undisturbed
    · exact Nat.le_of_eq (hd.same hu).symm
    · exact Nat.le_of_lt (hd.behind (not_undisturbed.mp hu))
  refine ⟨hd.epoch, fun hu => ?_, ?_⟩
  · rcases hx with ⟨heq, -⟩ | ⟨-, hgains⟩
    · exact heq.trans (hd.same fun y hy => hu y (List.mem_append_left _ hy))
    · exact absurd hgains (hu x (List.mem_append_right _ List.mem_cons_self))
  · rintro ⟨y, hy, hgains⟩
    rcases hx with ⟨heq, hnot⟩ | ⟨hlt, -⟩
    · -- it has been gained before
      rcases List.mem_append.mp hy with hy | hy
      · exact heq.symm ▸ hd.behind ⟨y, hy, hgains⟩
      · rw [List.mem_singleton.mp hy] at hgains
        exact absurd hgains hnot
    · exact Nat.lt_of_le_of_lt hle hlt

/-- The cursor is resumed. -/
theorem resume (hd : rd.Dated t) : (rd.resume t).Dated t := by
  unfold Reader.resume
  cases hstep : rd.cursor.step t with
  | error fault => exact hd
  | ok p =>
      obtain ⟨answer, c⟩ := p
      have hepoch := (Cursor.step_epoch hstep).trans hd.epoch
      cases answer with
      | none => exact ⟨hepoch, hd.same, hd.behind⟩
      | some h => exact ⟨hepoch, hd.same, hd.behind⟩

/-- A cursor is turned away when something has been gained, and only then. -/
theorem step_eq_grown_iff (hd : rd.Dated t) :
    rd.cursor.step t = .error .grown ↔ ∃ x ∈ rd.since, x.Gains := by
  rw [Cursor.step_eq_grown_iff, hd.epoch]
  constructor
  · intro hne
    by_contra hno
    exact hne (hd.same fun x hx hg => hno ⟨x, hx, hg⟩).symm
  · exact fun hg => Nat.ne_of_lt (hd.behind hg)

end Dated

variable [Resource ρ ι] [Identifier ι]

/-- What a step of the cursor of a reader in the table `t` answers. The order of traversal is that
of the table the cursor was made for. -/
structure Contract (t : Table ρ) (rd : Reader ρ ι) : Prop where
  /-- The order of traversal has every handle that was live then, once. -/
  order : rd.origin.order.Nodup ∧ ∀ h, h ∈ rd.origin.order ↔ (rd.origin.get? h).isSome
  /-- The handles returned are distinct and follow the order of traversal. -/
  returned : rd.returned.Nodup ∧ rd.returned.Sublist rd.origin.order
  /-- The successor recorded was live when the cursor was made. -/
  recorded : ∀ h, rd.successor = some h → (rd.origin.get? h).isSome
  /-- The table has grown when a resource has been installed or a bucket has been split. -/
  grown : rd.cursor.step t = .error .grown ↔ ∃ x ∈ rd.since, x.Gains
  /-- Otherwise the successor has been removed when the handle recorded is not live any more. -/
  removed : rd.Undisturbed → (rd.cursor.step t = .error .successorRemoved ↔
    ∃ h, rd.successor = some h ∧ t.get? h = none)
  /-- Otherwise there is an answer. A handle returned is live, comes after all those returned
  before, and those it leaves out are not live any more. At the end nothing is left out but
  what is not live any more. -/
  answers : rd.Undisturbed → (∀ h, rd.successor = some h → (t.get? h).isSome) →
    ∃ answer c, rd.cursor.step t = .ok (answer, c) ∧
      match answer with
      | some h => (t.get? h).isSome ∧ ∃ before after, rd.origin.order = before ++ h :: after
          ∧ rd.returned.Sublist before ∧ ∀ k ∈ before, k ∈ rd.returned ∨ t.get? k = none
      | none => ∀ k, (rd.origin.get? k).isSome → k ∈ rd.returned ∨ t.get? k = none
  /-- The end is final. -/
  final : rd.Undisturbed → rd.ended → ∃ c, rd.cursor.step t = .ok (none, c)

/-- The reader is at a place in the table it was made for, unless that has gained something. -/
structure Sound (t : Table ρ) (rd : Reader ρ ι) : Prop where
  origin : rd.origin.Accounted rd.missing
  dated : rd.Dated t
  successor : rd.successor = rd.cursor.next
  recorded : ∀ h, rd.successor = some h → (rd.origin.get? h).isSome
  returned : rd.returned.Sublist rd.origin.order
  ended : rd.ended → rd.cursor.bucket = rd.origin.buckets.size
  undisturbed : rd.Undisturbed → rd.origin.Prunes t
    ∧ ∃ passed rest, rd.cursor.At rd.origin t rd.returned passed rest

namespace Sound

variable {t : Table ρ} {lost : List Handle} {rd : Reader ρ ι}

theorem start (ha : t.Accounted lost) : (Reader.start t lost : Reader ρ ι).Sound t := by
  have hfirst := ha.holds.first?_eq 0
  refine ⟨ha, .start t lost, hfirst.symm, fun h hh => ha.isSome_of_mem (List.mem_of_head? hh),
    List.nil_sublist _, nofun, fun _ => ⟨ha.prunes_refl, [], t.handlesIn 0, Nat.zero_le _, rfl,
    hfirst, List.nil_sublist _, nofun⟩⟩

/-- A request is carried out. -/
theorem note (hs : rd.Sound t) (ha : t.Accounted lost) {t' : Table ρ} {x : Exchange ρ ι}
    (hx : t.Edits (fun _ _ => True) t' ∧ ¬ x.Gains ∨ t.epoch < t'.epoch ∧ x.Gains) :
    (rd.note x).Sound t' := by
  have hdated : (rd.note x).Dated t' :=
    hs.dated.note (hx.imp_left fun h => ⟨(ha.edits h.1).2.epoch, h.2⟩)
  refine ⟨hs.origin, hdated, hs.successor, hs.recorded, hs.returned, hs.ended, fun hu => ?_⟩
  obtain ⟨hp, passed, rest, hat⟩ :=
    hs.undisturbed fun y hy => hu y (List.mem_append_left _ hy)
  rcases hx with ⟨he, -⟩ | ⟨-, hgains⟩
  · have hprunes := (ha.edits he).2
    exact ⟨hp.trans hprunes, passed, rest, hat.prunes hprunes⟩
  · exact absurd hgains (hu x (List.mem_append_right _ List.mem_cons_self))

/-- The cursor is resumed. -/
theorem resume (hs : rd.Sound t) (ha : t.Accounted lost) : (rd.resume t).Sound t := by
  have hdated := hs.dated.resume
  by_cases hu : rd.Undisturbed
  · obtain ⟨hp, passed, rest, hat⟩ := hs.undisturbed hu
    unfold Reader.resume at hdated ⊢
    rcases hat.step hp ha.holds hs.dated.epoch with ⟨h, -, -, hstep⟩
      | ⟨c, passed', rest', hstep, -, hnone, -, hbucket, hat'⟩
      | ⟨h, c, passed', rest', hstep, -, -, hnext, -, hlt, ⟨before, after, horder, hsub, -⟩,
        hat'⟩
    · rw [hstep]
      exact hs
    · rw [hstep] at hdated ⊢
      exact ⟨hs.origin, hdated, hnone.symm, nofun, hs.returned, fun _ => hbucket,
        fun _ => ⟨hp, passed', rest', hat'⟩⟩
    · rw [hstep] at hdated ⊢
      refine ⟨hs.origin, hdated, hnext.symm, fun k hk => ?_, ?_, fun hend => ?_,
        fun _ => ⟨hp, passed', rest', hat'⟩⟩
      · -- what comes after a handle in a bucket was in that bucket before
        exact hs.origin.isSome_of_mem (hat'.mem_next (hnext.trans hk))
      · show (rd.returned ++ [h]).Sublist rd.origin.order
        rw [horder]
        exact hsub.append (List.singleton_sublist.mpr List.mem_cons_self)
      · have hsize := hs.ended hend
        omega
  · unfold Reader.resume
    rw [hs.dated.step_eq_grown_iff.mpr (not_undisturbed.mp hu)]
    exact hs

/-- The handles returned are distinct. -/
theorem nodup_returned (hs : rd.Sound t) : rd.returned.Nodup :=
  hs.returned.nodup hs.origin.holds.nodup_order

/-- **The contract of a cursor.** -/
theorem contract (hs : rd.Sound t) (hm : rd.missing = []) (ha : t.Accounted []) :
    rd.Contract t := by
  have horder : ∀ h, h ∈ rd.origin.order ↔ (rd.origin.get? h).isSome := fun h => by
    rw [hs.origin.live_iff, hm]
    simp
  have hnd := hs.origin.holds.nodup_order
  refine ⟨⟨hnd, horder⟩, ⟨hs.nodup_returned, hs.returned⟩, hs.recorded,
    hs.dated.step_eq_grown_iff, fun hu => ⟨fun hstep => ?_, ?_⟩, fun hu hlive => ?_,
    fun hu hend => ?_⟩
  · obtain ⟨hp, passed, rest, hat⟩ := hs.undisturbed hu
    rcases hat.step hp ha.holds hs.dated.epoch with ⟨k, hk, hdead, -⟩ | ⟨_, _, _, h, -⟩
      | ⟨_, _, _, _, h, -⟩
    · exact ⟨k, hs.successor.trans hk, hdead⟩
    all_goals
      rw [h] at hstep
      cases hstep
  · rintro ⟨k, hk, hdead⟩
    rw [hs.successor] at hk
    obtain ⟨hp, passed, rest, hat⟩ := hs.undisturbed hu
    rcases hat.step hp ha.holds hs.dated.epoch with ⟨_, -, -, h⟩ | ⟨_, _, _, -, h, -⟩
      | ⟨h, _, _, _, -, hl, hsame, -⟩
    · exact h
    · rw [hk] at h
      cases h
    · rw [← hsame k hk, hdead] at hl
      cases hl
  · obtain ⟨hp, passed, rest, hat⟩ := hs.undisturbed hu
    rcases hat.step hp ha.holds hs.dated.epoch with ⟨k, hk, hdead, -⟩
      | ⟨c, passed', rest', hstep, -, -, -, hbucket, hat'⟩
      | ⟨h, c, _, _, hstep, hl, -, -, -, -, hbefore, -⟩
    · have hl := hlive k (hs.successor.trans hk)
      rw [hdead] at hl
      cases hl
    · refine ⟨none, c, hstep, fun k hk => ?_⟩
      have hm : k ∈ rd.origin.before c.bucket := by
        rw [hbucket]
        exact (horder k).mpr hk
      exact hat'.done k (List.mem_append_left _ hm)
    · exact ⟨some h, c, hstep, hl, hbefore⟩
  · obtain ⟨hp, passed, rest, hat⟩ := hs.undisturbed hu
    have hsize := hs.ended hend
    rcases hat.step hp ha.holds hs.dated.epoch with ⟨k, hk, -⟩ | ⟨c, _, _, hstep, -⟩
      | ⟨_, _, _, _, -, -, -, -, -, hlt, -⟩
    · rw [hat.next_eq_none hs.origin.holds hsize] at hk
      cases hk
    · exact ⟨c, hstep⟩
    · omega

end Sound

end Reader

/-! ## Every session -/

namespace Session

variable {ρ ι : Type} [Resource ρ ι] [Identifier ι]

/-- The table has lost nothing and its readers are sound. -/
structure Orderly (s : Session ρ ι) : Prop where
  lost : s.lost = []
  table : s.table.Accounted []
  readers : ∀ rd ∈ s.readers, rd.missing = [] ∧ rd.Sound s.table

theorem fresh_orderly : (fresh : Session ρ ι).Orderly := ⟨rfl, Table.accounted_new, nofun⟩

/-- A request that is not cut short by an identifier leaves a session orderly. -/
theorem Orderly.act {s s' : Session ρ ι} {a : Act ρ ι} (hs : s.Orderly) (ha : s.act a = .ok s')
    (hclean : ∀ x ∈ s'.log, x.answer ≠ .error .hashUnavailable) : s'.Orderly := by
  obtain ⟨hlost, htable, hreaders⟩ := hs
  rcases act_cases ha with ⟨q, o, rfl, hp, ht, hl, hlog, hr⟩ | ⟨ht, hl, hlog, hr⟩
  · obtain ⟨o', hp', ha', hcase⟩ := htable.perform q.spares_nil
    obtain rfl : o' = o := Except.ok.inj (hp'.symm.trans hp)
    have hanswer : o'.answer ≠ .error .hashUnavailable := by
      refine hclean ⟨q, o'.answer, o'.events⟩ ?_
      rw [hlog]
      exact List.mem_append_right _ List.mem_cons_self
    -- nothing has been cast off, for then an identifier could not be hashed
    have hboth : s.table.castOff q = []
        ∧ (s.table.Edits (fun _ _ => True) o'.state
            ∧ ¬ (⟨q, o'.answer, o'.events⟩ : Exchange ρ ι).Gains
          ∨ s.table.epoch < o'.state.epoch
            ∧ (⟨q, o'.answer, o'.events⟩ : Exchange ρ ι).Gains) := by
      rcases hcase with ⟨he, hcast, hg⟩ | ⟨hlt, hcast, hg⟩ | ⟨herr, -⟩
      · exact ⟨hcast, Or.inl ⟨he, hg⟩⟩
      · exact ⟨hcast, Or.inr ⟨hlt, hg⟩⟩
      · exact absurd herr hanswer
    obtain ⟨hcast, hx⟩ := hboth
    rw [hcast] at ha' hl
    refine ⟨by rw [hl, hlost]; rfl, by rw [ht]; exact ha', fun rd hm => ?_⟩
    rw [hr] at hm
    obtain ⟨rd', hm', rfl⟩ := List.mem_map.mp hm
    rw [ht]
    obtain ⟨hmissing, hsound⟩ := hreaders rd' hm'
    exact ⟨hmissing, hsound.note htable hx⟩
  · refine ⟨hl.trans hlost, by rw [ht]; exact htable, fun rd hm => ?_⟩
    rw [ht]
    rcases hr rd hm with hm | rfl | ⟨rd', hm', rfl⟩
    · exact hreaders rd hm
    · rw [hlost]
      exact ⟨rfl, .start htable⟩
    · obtain ⟨hmissing, hsound⟩ := hreaders rd' hm'
      exact ⟨(rd'.missing_resume _).trans hmissing, hsound.resume htable⟩

/-- **What cursors answer.** A session goes on from a fresh table by requests of every kind, and
cursors are made, copied and resumed at any time. As long as no identifier turns out not to be
hashable, everything can be carried out, and each cursor keeps its contract. -/
theorem run_cursors {acts : List (Act ρ ι)} {s : Session ρ ι}
    (hrun : (fresh : Session ρ ι).run acts = .ok s)
    (hclean : ∀ x ∈ s.log, x.answer ≠ .error .hashUnavailable) :
    (∀ a, ∃ s', s.act a = .ok s') ∧ ∀ rd ∈ s.readers, rd.Contract s.table := by
  have hs : (∀ x ∈ s.log, x.answer ≠ .error .hashUnavailable) → s.Orderly := by
    refine run_preserves (P := fun s => (∀ x ∈ s.log, x.answer ≠ .error .hashUnavailable) →
      s.Orderly) (fun s a s' ih ha hc => ?_) acts (fun _ => fresh_orderly) hrun
    -- the log only gets longer
    refine (ih fun x hx => hc x ?_).act ha hc
    rcases act_cases ha with ⟨q, o, -, -, -, -, hlog, -⟩ | ⟨-, -, hlog, -⟩
    · rw [hlog]
      exact List.mem_append_left _ hx
    · rw [hlog]
      exact hx
  obtain ⟨-, htable, hreaders⟩ := hs hclean
  refine ⟨fun a => ?_, fun rd hm => (hreaders rd hm).2.contract (hreaders rd hm).1 htable⟩
  cases a with
  | request q =>
      obtain ⟨o, hp, -⟩ := htable.perform q.spares_nil
      unfold Session.act
      dsimp only
      rw [hp]
      exact ⟨_, rfl⟩
  | start | copy i | resume i => exact ⟨_, rfl⟩

/-- A cursor has returned the first of two resources when both are taken out. -/
def overtaken : List (Act (Record Table.WideId) Table.WideId) :=
  [.request (.add true ⟨⟨some 1, some 0⟩, "a"⟩), .request (.add true ⟨⟨some 2, some 0⟩, "b"⟩),
    .start, .resume 0, .request (.removeHandle ⟨0⟩), .request (.removeHandle ⟨1⟩)]

theorem run_cursors_overtaken : ∃ s rd,
    (fresh : Session (Record Table.WideId) Table.WideId).run overtaken = .ok s
      ∧ (∀ x ∈ s.log, x.answer ≠ .error .hashUnavailable)
      ∧ rd ∈ s.readers ∧ rd.returned = [⟨0⟩]
      ∧ rd.cursor.step s.table = .error .successorRemoved := by
  obtain ⟨s, hrun⟩ :
      ∃ s, (fresh : Session (Record Table.WideId) Table.WideId).run overtaken = .ok s := ⟨_, rfl⟩
  have hlog : ((fresh : Session (Record Table.WideId) Table.WideId).run overtaken).map
      Session.log = .ok
      [⟨.add true ⟨⟨some 1, some 0⟩, "a"⟩, .ok (.installed ⟨0⟩), []⟩,
        ⟨.add true ⟨⟨some 2, some 0⟩, "b"⟩, .ok (.installed ⟨1⟩), []⟩,
        ⟨.removeHandle ⟨0⟩, .ok (some ⟨⟨some 1, some 0⟩, "a"⟩), []⟩,
        ⟨.removeHandle ⟨1⟩, .ok (some ⟨⟨some 2, some 0⟩, "b"⟩), []⟩] := rfl
  have hreaders : ((fresh : Session (Record Table.WideId) Table.WideId).run overtaken).map
      (fun s => (s.readers.map fun rd => (rd.returned, rd.successor, rd.since),
        s.table.get? ⟨1⟩)) = .ok
      ([([⟨0⟩], some ⟨1⟩,
        [⟨.removeHandle ⟨0⟩, .ok (some ⟨⟨some 1, some 0⟩, "a"⟩), []⟩,
          ⟨.removeHandle ⟨1⟩, .ok (some ⟨⟨some 2, some 0⟩, "b"⟩), []⟩])], none) := rfl
  rw [hrun] at hlog hreaders
  obtain ⟨hreaders, hget⟩ := Prod.mk.inj (Except.ok.inj hreaders)
  have hclean : ∀ x ∈ s.log, x.answer ≠ .error .hashUnavailable := by
    rw [Except.ok.inj hlog]
    simp only [List.forall_mem_cons]
    exact ⟨nofun, nofun, nofun, nofun, nofun⟩
  obtain ⟨rd, hm, hrd⟩ : ∃ rd ∈ s.readers, _ = (rd.returned, rd.successor, rd.since) := by
    have hmem := List.mem_map.mp (hreaders ▸ List.mem_cons_self)
    obtain ⟨rd, hm, hrd⟩ := hmem
    exact ⟨rd, hm, hrd.symm⟩
  obtain ⟨hreturned, hrest⟩ := Prod.mk.inj hrd
  obtain ⟨hsuccessor, hsince⟩ := Prod.mk.inj hrest
  have hu : rd.Undisturbed := by
    unfold Reader.Undisturbed
    rw [← hsince]
    simp only [List.forall_mem_cons]
    exact ⟨id, id, nofun⟩
  refine ⟨s, rd, hrun, hclean, hm, hreturned.symm, ?_⟩
  exact (((run_cursors hrun hclean).2 rd hm).removed hu).mpr ⟨⟨1⟩, hsuccessor.symm, hget⟩

end Session

end ResourceIndex
