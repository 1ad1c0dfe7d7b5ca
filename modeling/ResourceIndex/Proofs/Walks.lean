import ResourceIndex.Proofs.Visiting

set_option autoImplicit false

/-! # Walks that only read

There are three ways to go through a table that stays as it is: by a cursor, by an iterator, which
counts down the resources it still has to come to, and by showing all resources to a function. All
of them follow the links from bucket to bucket and so come to the handles of the table in their
order, one at each call (`Cursor.Ahead.step`). The count of an iterator begins with the number of
installed resources, and it stays ahead of what is to come by the number of those that no bucket
leads to.

The main statement is `Session.run_walks`, for any session whatever.
-/

namespace ResourceIndex

/-! ## What is ahead of a cursor -/

namespace Table

variable {ρ : Type}

/-- The handles in the buckets from `b` on. -/
def orderFrom (t : Table ρ) (b : Nat) : List Handle :=
  ((List.range t.buckets.size).drop b).flatMap t.handlesIn

theorem Wired.orderFrom_eq {t : Table ρ} (ht : t.Wired) (b : Nat) :
    t.orderFrom b = t.handlesIn b ++ t.orderFrom (b + 1) := by
  unfold orderFrom
  by_cases hb : b < t.buckets.size
  · have hdrop : (List.range t.buckets.size).drop b =
        b :: (List.range t.buckets.size).drop (b + 1) := by
      rw [List.drop_eq_getElem_cons (by rwa [List.length_range]), List.getElem_range]
    rw [hdrop, List.flatMap_cons]
  · have hnil : t.handlesIn b = [] :=
      List.eq_nil_iff_forall_not_mem.mpr fun _ hm => hb (ht.reads.lt_size hm)
    rw [hnil, List.drop_eq_nil_of_le (by rw [List.length_range]; omega),
      List.drop_eq_nil_of_le (by rw [List.length_range]; omega)]
    rfl

end Table

namespace Cursor

variable {ρ : Type} {t : Table ρ} {c : Cursor} {ahead : List Handle}

/-- The handles of the buckets that the cursor has still to come to are `ahead`. -/
structure Ahead (t : Table ρ) (c : Cursor) (ahead : List Handle) : Prop where
  epoch : c.epoch = t.epoch
  place : ∃ passed rest, t.handlesIn c.bucket = passed ++ rest ∧ c.next = rest.head?
    ∧ ahead = rest ++ t.orderFrom (c.bucket + 1)

theorem ahead_start (ht : t.Wired) : (start t).Ahead t t.order :=
  ⟨rfl, [], t.handlesIn 0, rfl, (ht.handlesIn_strand 0).1, ht.orderFrom_eq 0⟩

namespace Ahead

/-- Going on to the next bucket that has an entry, if the cursor is not at one already. -/
theorem settle (ht : t.Wired) (count : Nat) :
    ∀ {c : Cursor}, c.Ahead t ahead → t.buckets.size ≤ c.bucket + count →
      (c.settle t count).Ahead t ahead ∧ (c.settle t count).next = ahead.head? := by
  induction count with
  | zero =>
      intro c hc hle
      obtain ⟨passed, rest, hlist, hnext, hahead⟩ := hc.place
      -- the cursor is past the last bucket
      have hnil : t.orderFrom c.bucket = [] := by
        unfold Table.orderFrom
        rw [List.drop_eq_nil_of_le (by rwa [List.length_range])]
        rfl
      rw [ht.orderFrom_eq, hlist, List.append_assoc, ← hahead] at hnil
      obtain ⟨-, hnil⟩ := List.append_eq_nil_iff.mp hnil
      have hrest : rest = [] := (List.append_eq_nil_iff.mp (hahead.symm.trans hnil)).1
      refine ⟨hc, ?_⟩
      rw [Cursor.settle, hnext, hrest, hnil]
  | succ count ih =>
      intro c hc hle
      obtain ⟨passed, rest, hlist, hnext, hahead⟩ := hc.place
      rw [Cursor.settle]
      cases rest with
      | cons h rest =>
          rw [hnext, if_pos (show (h :: rest).head?.isSome = true from rfl)]
          refine ⟨hc, ?_⟩
          rw [hnext, hahead]
          rfl
      | nil =>
          have hend : ¬ ([] : List Handle).head?.isSome = true := Bool.false_ne_true
          rw [hnext, if_neg hend]
          refine ih ⟨hc.epoch, [], t.handlesIn (c.bucket + 1), rfl,
            (ht.handlesIn_strand _).1, ?_⟩ ?_
          · exact hahead.trans (ht.orderFrom_eq (c.bucket + 1))
          · show t.buckets.size ≤ c.bucket + 1 + count
            omega

/-- **A step** comes to the next handle ahead, or to the end. -/
theorem step (ht : t.Wired) (hc : c.Ahead t ahead) :
    ∃ c', c.step t = .ok (ahead.head?, c') ∧ c'.Ahead t ahead.tail := by
  obtain ⟨hsettled, hnext⟩ := hc.settle ht (t.buckets.size - c.bucket) (by omega)
  obtain ⟨passed, rest, hlist, hrest, hahead⟩ := hsettled.place
  cases ahead with
  | nil => exact ⟨_, step_of_end hc.epoch hnext, hsettled⟩
  | cons h ahead =>
      obtain ⟨rest, rfl⟩ := List.head?_eq_some_iff.mp (hrest.symm.trans hnext)
      have hlinked := (ht.handlesIn_strand (c.settle t (t.buckets.size - c.bucket)).bucket).2.linked
      rw [hlist] at hlinked
      obtain ⟨e, he, -, hlink⟩ := Slots.links_eq_some.mp hlinked.links_eq
      refine ⟨_, step_of_live hc.epoch hnext he, hsettled.epoch, passed ++ [h], rest, ?_, hlink, ?_⟩
      · rw [← List.append_cons]
        exact hlist
      · exact (List.cons.inj hahead).2

end Ahead

/-- The cursor after `k` steps. -/
def after (t : Table ρ) : Nat → Cursor → Except Fault Cursor
  | 0, c => .ok c
  | k + 1, c =>
      match c.step t with
      | .error fault => .error fault
      | .ok (_, c) => after t k c

theorem Ahead.after (ht : t.Wired) (k : Nat) :
    ∀ {c : Cursor} {ahead : List Handle}, c.Ahead t ahead →
      ∃ c', Cursor.after t k c = .ok c' ∧ c'.Ahead t (ahead.drop k) := by
  induction k with
  | zero => exact fun hc => ⟨_, rfl, hc⟩
  | succ k ih =>
      intro c ahead hc
      obtain ⟨c₁, hstep, hc₁⟩ := hc.step ht
      obtain ⟨c', hafter, hc'⟩ := ih hc₁
      rw [List.drop_tail] at hc'
      refine ⟨c', ?_, hc'⟩
      rw [Cursor.after, hstep]
      exact hafter

end Cursor

/-! ## Iterators -/

namespace Iterator

variable {ρ : Type} {t : Table ρ}

/-- The iterator after `k` calls. -/
def after : Nat → Iterator ρ → Checked (Iterator ρ)
  | 0, it => .ok it
  | k + 1, it => do
      let (_, it) ← it.next
      after k it

/-- **A call** comes to the next resource ahead and counts it, or to the end. -/
theorem next_eq (ht : t.Wired) {c : Cursor} {ahead : List Handle} (hc : c.Ahead t ahead)
    (extra : Nat) :
    ∃ c', (⟨t, c, ahead.length + extra⟩ : Iterator ρ).next =
        .ok (ahead.head?.bind t.get?, ⟨t, c', ahead.tail.length + extra⟩)
      ∧ c'.Ahead t ahead.tail := by
  obtain ⟨c', hstep, hc'⟩ := hc.step ht
  refine ⟨c', ?_, hc'⟩
  unfold next
  rw [hstep]
  cases ahead with
  | nil => rfl
  | cons h ahead =>
      obtain ⟨n, hn⟩ : ∃ n, ahead.length + 1 + extra = n + 1 := ⟨ahead.length + extra, by omega⟩
      simp only [List.head?_cons, List.length_cons, List.tail_cons, hn, Option.bind_some]
      obtain rfl : n = ahead.length + extra := by omega
      rfl

theorem after_eq (ht : t.Wired) (extra k : Nat) :
    ∀ {c : Cursor} {ahead : List Handle}, c.Ahead t ahead →
      ∃ c', (⟨t, c, ahead.length + extra⟩ : Iterator ρ).after k =
          .ok ⟨t, c', (ahead.drop k).length + extra⟩
        ∧ c'.Ahead t (ahead.drop k) := by
  induction k with
  | zero => exact fun hc => ⟨_, rfl, hc⟩
  | succ k ih =>
      intro c ahead hc
      obtain ⟨c₁, hnext, hc₁⟩ := next_eq ht hc extra
      obtain ⟨c', hafter, hc'⟩ := ih hc₁
      rw [List.drop_tail] at hafter hc'
      refine ⟨c', ?_, hc'⟩
      rw [after, hnext]
      exact hafter

/-- All that is ahead is taken, if it is not more than is asked for. -/
theorem take_eq (ht : t.Wired) (extra count : Nat) :
    ∀ {c : Cursor} {ahead : List Handle}, c.Ahead t ahead → ahead.length ≤ count →
      (∀ h ∈ ahead, (t.get? h).isSome) →
      (⟨t, c, ahead.length + extra⟩ : Iterator ρ).take count = .ok (ahead.filterMap t.get?) := by
  induction count with
  | zero =>
      intro c ahead _ hle _
      rw [List.length_eq_zero_iff.mp (Nat.le_zero.mp hle)]
      rfl
  | succ count ih =>
      intro c ahead hc hle hlive
      obtain ⟨c', hnext, hc'⟩ := next_eq ht hc extra
      rw [take, hnext]
      cases ahead with
      | nil => rfl
      | cons h ahead =>
          obtain ⟨r, hr⟩ := Option.isSome_iff_exists.mp (hlive h List.mem_cons_self)
          have hrest := ih hc' (Nat.le_of_succ_le_succ hle) fun k hk =>
            hlive k (List.mem_cons_of_mem h hk)
          rw [List.head?_cons, Option.bind_some, hr, List.filterMap_cons, hr, Checked.ok_bind]
          dsimp only
          rw [hrest]
          rfl

end Iterator

/-! ## All walks -/

namespace Table

variable {ρ ι : Type}

/-- All walks through the table come to the resources in its buckets, in their order. -/
structure Walks (t : Table ρ) : Prop where
  /-- No handle is in the buckets twice, and each of them names a resource. -/
  nodup : t.order.Nodup
  live : ∀ h ∈ t.order, (t.get? h).isSome
  /-- A fresh cursor comes to the handles of the buckets, one at each call, and then to the end, at
  which it stays. -/
  cursor : ∀ k, ∃ c c', (Cursor.start t).after t k = .ok c ∧ c.step t = .ok (t.order[k]?, c')
  /-- A fresh iterator comes to their resources, one at each call, and then to the end, at which it
  stays. Its count is that of the resources to come and of those that no bucket leads to. -/
  iterator : ∀ k, ∃ it it', (Iterator.start t).after k = .ok it
    ∧ it.next = .ok (t.order[k]?.bind t.get?, it')
    ∧ it.remaining = (t.order.length - k) + t.astray.length
  toList : t.toList = .ok (t.order.filterMap t.get?)
  survey : ∀ {σ : Type} (look : σ → ρ → σ) (a : σ),
    t.survey look a = .ok ((t.order.filterMap t.get?).foldl look a)
  /-- A traversal visits them as well. -/
  traverse : ∀ {σ : Type} (visit : Visitor σ ρ) (a : σ), ∃ t',
    t.traverse visit a = .ok (t', (t.order.filterMap t.get?).foldl (fun a r => (visit a r).1) a)
      ∧ (t.itinerary visit a).map Stop.handle = t.order
  /-- The resources installed are those in the buckets and those that no bucket leads to. -/
  size : t.size = t.order.length + t.astray.length

theorem Wired.walks {t : Table ρ} (ht : t.Wired) : t.Walks := by
  have hstart := Cursor.ahead_start ht
  have hsize := ht.size_eq
  have hlive : ∀ h ∈ t.order, (t.get? h).isSome := fun _ => ht.isSome_of_mem_order
  have hiterator : Iterator.start t =
      ⟨t, Cursor.start t, t.order.length + t.astray.length⟩ := by
    rw [← hsize]
    rfl
  have hlist : t.toList = .ok (t.order.filterMap t.get?) := by
    unfold Table.toList
    rw [hiterator]
    exact Iterator.take_eq ht t.astray.length t.size hstart (by omega) hlive
  refine ⟨ht.nodup_order, hlive, fun k => ?_, fun k => ?_, hlist, fun look a => ?_,
    fun visit a => ?_, hsize⟩
  · obtain ⟨c, hafter, hc⟩ := hstart.after ht k
    obtain ⟨c', hstep, -⟩ := hc.step ht
    rw [List.head?_drop] at hstep
    exact ⟨c, c', hafter, hstep⟩
  · obtain ⟨c, hafter, hc⟩ := Iterator.after_eq ht t.astray.length k hstart
    obtain ⟨c', hnext, -⟩ := Iterator.next_eq ht hc t.astray.length
    rw [List.head?_drop] at hnext
    rw [hiterator]
    exact ⟨_, _, hafter, hnext, by rw [List.length_drop]⟩
  · unfold Table.survey
    rw [hlist]
    rfl
  · obtain ⟨t', a', htrav, -⟩ := ht.traverse visit a
    have htours := ht.tours htrav
    rw [htours.state] at htrav
    exact ⟨t', htrav, htours.visited⟩

end Table

namespace Session

variable {ρ ι : Type} [Resource ρ ι] [Identifier ι]

/-- A session in which no resource has been lost leaves a table accounted for. -/
theorem accounted_of_lost_eq_nil {acts : List (Act ρ ι)} {s : Session ρ ι}
    (hr : (fresh : Session ρ ι).run acts = .ok s) (hl : s.lost = []) : s.table.Accounted [] := by
  refine run_preserves (P := fun s => s.lost = [] → s.table.Accounted [])
    (fun s a s' ih ha hl => ?_) acts (fun _ => Table.accounted_new) hr hl
  rcases act_cases ha with ⟨q, o, -, hp, ht, hlost, -⟩ | ⟨ht, hlost, -⟩
  · obtain ⟨hbefore, hcast⟩ := List.append_eq_nil_iff.mp (hlost.symm.trans hl)
    obtain ⟨o', hp', ha', -⟩ := (ih hbefore).perform q.spares_nil
    obtain rfl : o' = o := Except.ok.inj (hp'.symm.trans hp)
    rw [hcast] at ha'
    rwa [ht]
  · rw [ht]
    exact ih (hlost.symm.trans hl)

/-- **Walks that only read**, after any session whatever. All of them come to the resources in the
buckets, that is, to the entries of the first bucket, of the second one and so on, as the links lead
from one to the next (`Table.Walks`).

If no resource has been lost to a split, these are all installed resources, once each, and the count
of an iterator is exactly that of the resources to come: it is zero when the next call comes to the
end and at no other time. If some have been lost, and none of these has been taken out by its
handle, then every other resource is in a bucket, and the count is ahead by the number of those
lost. -/
theorem run_walks {acts : List (Act ρ ι)} {s : Session ρ ι}
    (hr : (fresh : Session ρ ι).run acts = .ok s) :
    s.table.Walks
      ∧ (s.lost = [] → (∀ h, s.table.order.count h = if (s.table.get? h).isSome then 1 else 0)
        ∧ ∀ k it, (Iterator.start s.table).after k = .ok it → it.remaining = s.table.size - k
          ∧ (it.remaining = 0 ↔ ∃ it', it.next = .ok (none, it')))
      ∧ ((fresh : Session ρ ι).Careful acts →
        (∀ h, s.table.order.count h = if (s.table.get? h).isSome ∧ h ∉ s.lost then 1 else 0)
        ∧ s.table.astray.length = s.lost.length) := by
  have hw := (run_sound hr).wired.walks
  refine ⟨hw, fun hl => ?_, fun hc => ?_⟩
  · have ha := accounted_of_lost_eq_nil hr hl
    have hnone : s.table.astray.length = 0 := ha.length_astray
    refine ⟨fun h => ?_, fun k it hafter => ?_⟩
    · rw [ha.count_order]
      simp
    · obtain ⟨it₁, it', hafter₁, hnext, hremaining⟩ := hw.iterator k
      obtain rfl : it₁ = it := Except.ok.inj (hafter₁.symm.trans hafter)
      have hsize := hw.size
      refine ⟨by omega, ?_⟩
      rw [hnext, hremaining, hnone, Nat.add_zero, Nat.sub_eq_zero_iff_le]
      constructor
      · intro hle
        rw [List.getElem?_eq_none hle]
        exact ⟨it', rfl⟩
      · rintro ⟨it'', hend⟩
        -- a handle in a bucket would name a resource
        by_contra hlt
        have hmem := List.getElem_mem (Nat.lt_of_not_le hlt)
        obtain ⟨r, hget⟩ := Option.isSome_iff_exists.mp (hw.live _ hmem)
        rw [List.getElem?_eq_getElem (Nat.lt_of_not_le hlt), Option.bind_some, hget] at hend
        cases hend
  · have hs := hc.kept hr
    exact ⟨fun h => hs.table.count_order h, hs.table.length_astray⟩

/-- One of four resources is lost to a split, and the two buckets lead to the other three: the count
of an iterator is one too many all along. -/
theorem run_walks_docked :
    ∃ s it it', (fresh : Session (Record Table.WideId) Table.WideId).run docked = .ok s
      ∧ s.table.Walks ∧ s.table.order = [⟨0⟩, ⟨1⟩, ⟨2⟩] ∧ s.table.astray = [⟨3⟩]
      ∧ (Iterator.start s.table).remaining = 4 ∧ (Iterator.start s.table).after 3 = .ok it
      ∧ it.remaining = 1 ∧ it.next = .ok (none, it') := by
  obtain ⟨s, it, it', hr, horder, hastray, hstart, hafter, hremaining, hnext⟩ :
      ∃ s it it', (fresh : Session (Record Table.WideId) Table.WideId).run docked = .ok s
        ∧ s.table.order = [⟨0⟩, ⟨1⟩, ⟨2⟩] ∧ s.table.astray = [⟨3⟩]
        ∧ (Iterator.start s.table).remaining = 4 ∧ (Iterator.start s.table).after 3 = .ok it
        ∧ it.remaining = 1 ∧ it.next = .ok (none, it') :=
    ⟨_, _, _, rfl, rfl, rfl, rfl, rfl, rfl, rfl⟩
  exact ⟨s, it, it', hr, (run_walks hr).1, horder, hastray, hstart, hafter, hremaining, hnext⟩

end Session

end ResourceIndex
