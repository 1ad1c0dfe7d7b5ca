import ResourceIndex.Proofs.Layout

set_option autoImplicit false

/-! # Changing in place and taking out, in either order

Taking out one handle has to do with links, and changing a resource under another one has not, so
that it makes no difference which is done first: `Table.removeHandle_modifyHandle`. The two tables
are equal and not only alike, since a store is given by the handle that it issues next and by what
its handles name (`Slots.ext_get?`).
-/

namespace ResourceIndex

/-! ## Stores -/

namespace Slots

variable {α : Type}

/-- A store is given by the handle issued next and by what its handles name. -/
theorem ext_get? {s s' : Slots α} (hf : s.fresh = s'.fresh) (hg : ∀ h, s.get? h = s'.get? h) :
    s = s' := by
  have hsize : s.cells.size = s'.cells.size := congrArg Handle.index hf
  have hcells : s.cells = s'.cells := by
    refine Array.ext hsize fun i hi hi' => ?_
    have hget := hg ⟨i⟩
    unfold get? at hget
    rwa [Array.getElem?_eq_getElem hi, Array.getElem?_eq_getElem hi'] at hget
  obtain ⟨cells, live, hlive⟩ := s
  obtain ⟨cells', live', hlive'⟩ := s'
  obtain rfl : cells = cells' := hcells
  obtain rfl : live = live' := hlive.trans hlive'.symm
  rfl

variable {s : Slots α} {f g : α → α}

/-- Changes that do not interfere with each other. -/
theorem modify_comm (hfg : ∀ a, g (f a) = f (g a)) (h k : Handle) :
    (s.modify k f).modify h g = (s.modify h g).modify k f := by
  refine ext_get? (by simp only [fresh_modify]) fun j => ?_
  simp only [get?_modify]
  by_cases hj : j = h
  · by_cases hk : j = k
    · simp only [if_pos hj, if_pos hk, Option.map_map]
      congr 1
      exact funext hfg
    · simp only [if_pos hj, if_neg hk]
  · simp only [if_neg hj]

theorem erase_modify (s : Slots α) (f : α → α) (h k : Handle) :
    (s.modify k f).erase h = (s.erase h).modify k f := by
  refine ext_get? (by simp only [fresh_modify, fresh_erase]) fun j => ?_
  simp only [get?_erase, get?_modify]
  by_cases hj : j = h
  · simp only [if_pos hj, Option.map_none, ite_self]
  · simp only [if_neg hj]

theorem adjust_modify (hfg : ∀ a, g (f a) = f (g a)) (link : Option Handle) (k : Handle) :
    (s.modify k f).adjust link g = (s.adjust link g).map fun s => s.modify k f := by
  cases link with
  | none => rfl
  | some h =>
      have hlive : ((s.modify k f).get? h).isSome = (s.get? h).isSome := by
        rw [get?_modify]
        split <;> simp
      unfold adjust
      dsimp only
      rw [hlive, modify_comm hfg]
      split <;> rfl

end Slots

/-! ## Chains -/

/-- The entry with its resource changed. -/
def Entry.changed {ρ : Type} (f : ρ → ρ) (e : Entry ρ) : Entry ρ :=
  { e with resource := f e.resource }

/-- Unlinking takes no notice of what becomes of a resource. -/
theorem Chain.unlink_modify {ρ : Type} (c : Chain) (s : Slots (Entry ρ)) (h k : Handle)
    (f : ρ → ρ) : c.unlink (s.modify k (Entry.changed f)) h =
      (c.unlink s h).map fun p => (p.1, p.2.modify k (Entry.changed f)) := by
  unfold unlink
  cases he : s.get? h with
  | none =>
      have he' : (s.modify k (Entry.changed f)).get? h = none := by
        rw [Slots.get?_modify, he]
        split <;> rfl
      unfold Slots.require
      rw [he, he']
      rfl
  | some e =>
      -- the links of the entry are those it had
      obtain ⟨e', he', hprev, hnext⟩ : ∃ e', (s.modify k (Entry.changed f)).get? h = some e'
          ∧ e'.prev = e.prev ∧ e'.next = e.next := by
        rw [Slots.get?_modify, he]
        split
        · exact ⟨_, rfl, rfl, rfl⟩
        · exact ⟨_, rfl, rfl, rfl⟩
      have hdetach := Slots.modify_comm (s := s) (f := Entry.changed f) (g := Entry.detached)
        (fun _ => rfl) h k
      have hbefore := Slots.adjust_modify (s := s.modify h Entry.detached) (f := Entry.changed f)
        (g := Entry.withNext e.next) (fun _ => rfl) e.prev k
      rw [Slots.require_eq he, Slots.require_eq he', Checked.ok_bind, Checked.ok_bind, hprev, hnext]
      show (((s.modify k (Entry.changed f)).modify h Entry.detached).adjust e.prev
        (Entry.withNext e.next) >>= fun s => s.adjust e.next (Entry.withPrev e.prev) >>= _) =
        Except.map _ ((s.modify h Entry.detached).adjust e.prev
        (Entry.withNext e.next) >>= fun s => s.adjust e.next (Entry.withPrev e.prev) >>= _)
      rw [hdetach, hbefore]
      cases (s.modify h Entry.detached).adjust e.prev (Entry.withNext e.next) with
      | error c => rfl
      | ok s₁ =>
          have hafter := Slots.adjust_modify (s := s₁) (f := Entry.changed f)
            (g := Entry.withPrev e.prev) (fun _ => rfl) e.next k
          show (s₁.modify k (Entry.changed f)).adjust e.next (Entry.withPrev e.prev) >>= _ =
            Except.map _ (s₁.adjust e.next (Entry.withPrev e.prev) >>= _)
          rw [hafter]
          cases s₁.adjust e.next (Entry.withPrev e.prev) with
          | error c => rfl
          | ok s₂ => rfl

/-! ## Tables -/

namespace Table

variable {ρ : Type} {t : Table ρ} {h k : Handle}

theorem unlink_modifyHandle (hkh : k ≠ h) (f : ρ → ρ) (b : Nat) :
    (t.modifyHandle k f).unlink b h =
      (t.unlink b h).map fun p => (p.1.modifyHandle k f, p.2) := by
  have hget : (t.slots.modify k (Entry.changed f)).get? h = t.slots.get? h := by
    rw [Slots.get?_modify, if_neg (Ne.symm hkh)]
  have hrequire : (t.slots.modify k (Entry.changed f)).require h = t.slots.require h := by
    unfold Slots.require
    rw [hget]
  unfold unlink
  show ((t.slots.modify k (Entry.changed f)).require h >>= fun e => (t.chain b) >>= fun c =>
    c.unlink (t.slots.modify k (Entry.changed f)) h >>= _) = _
  rw [hrequire]
  cases t.slots.require h with
  | error c => rfl
  | ok e =>
      cases t.chain b with
      | error c => rfl
      | ok c =>
          rw [Checked.ok_bind, Checked.ok_bind, Chain.unlink_modify]
          cases hun : c.unlink t.slots h with
          | error c' =>
              rw [Checked.ok_bind, Checked.ok_bind, hun]
              rfl
          | ok p =>
              rw [Checked.ok_bind, Checked.ok_bind, hun]
              show Except.ok ({ t with buckets := _, slots := _, underflowed := _ }, _) = _
              rw [Slots.erase_modify]
              rfl

/-- **Taking a handle out** takes no notice of a change to the resource of another one. -/
theorem removeHandle_modifyHandle (hkh : k ≠ h) (f : ρ → ρ) :
    (t.modifyHandle k f).removeHandle h =
      (t.removeHandle h).map fun p => (p.1.modifyHandle k f, p.2) := by
  have hget : (t.modifyHandle k f).slots.get? h = t.slots.get? h := by
    show (t.slots.modify k (Entry.changed f)).get? h = _
    rw [Slots.get?_modify, if_neg (Ne.symm hkh)]
  unfold removeHandle
  rw [hget]
  cases t.slots.get? h with
  | none => rfl
  | some e =>
      dsimp only
      rw [unlink_modifyHandle hkh]
      cases t.unlink e.bucket h <;> rfl

end Table

end ResourceIndex
