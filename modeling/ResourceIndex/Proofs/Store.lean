import Mathlib.Data.List.Nodup
import Mathlib.Data.List.Perm.Subperm
import ResourceIndex.Chain

set_option autoImplicit false

/-! # What can be observed of a store of entries

An entry holds a resource, the index of a bucket and two links. Most operations on a store
change one of the three and leave the others alone, so a store is looked at through three
functions of a handle: `resource?`, `home` and `links`. Each is `none` exactly for the handles
that name no entry. Two stores with the same resources under the same handles are *rewired*:
this is all that linking and unlinking ever do to a store.
-/

namespace ResourceIndex

/-! ## Checked computations -/

namespace Checked

variable {α β : Type}

@[simp] theorem ok_bind (a : α) (f : α → Checked β) : (Except.ok a >>= f) = f a := rfl

@[simp] theorem error_bind (c : Corruption) (f : α → Checked β) :
    (Except.error c >>= f) = Except.error c := rfl

/-- A sequence of two computations succeeds when both do. -/
theorem bind_eq_ok {x : Checked α} {f : α → Checked β} {b : β} :
    x >>= f = .ok b ↔ ∃ a, x = .ok a ∧ f a = .ok b := by
  cases x with
  | error c => simp
  | ok a => simp

/-- A computation done for each element of a list succeeds when each of them does. -/
theorem mapM_eq_ok {f : α → Checked β} {g : α → β} {l : List α}
    (hf : ∀ a ∈ l, f a = .ok (g a)) : l.mapM f = .ok (l.map g) := by
  induction l with
  | nil => rfl
  | cons a l ih =>
      rw [List.mapM_cons, hf a List.mem_cons_self, ok_bind,
        ih fun b hb => hf b (List.mem_cons_of_mem a hb)]
      rfl

end Checked

namespace Slots

section

variable {α : Type}

/-! ## The handle issued next and the number of values -/

theorem get?_fresh (s : Slots α) : s.get? s.fresh = none :=
  get?_eq_none_of_fresh_le (Nat.le_refl _)

theorem fresh_insert (s : Slots α) (a : α) : (s.insert a).fresh.index = s.fresh.index + 1 := by
  simp [fresh, insert]

@[simp] theorem fresh_modify (s : Slots α) (h : Handle) (f : α → α) :
    (s.modify h f).fresh = s.fresh := by
  simp [fresh, modify]

@[simp] theorem fresh_erase (s : Slots α) (h : Handle) : (s.erase h).fresh = s.fresh := by
  unfold erase
  split
  · simp [fresh]
  · rfl

@[simp] theorem live_insert (s : Slots α) (a : α) : (s.insert a).live = s.live + 1 := rfl

@[simp] theorem live_modify (s : Slots α) (h : Handle) (f : α → α) :
    (s.modify h f).live = s.live := rfl

theorem live_erase {s : Slots α} {h : Handle} (hl : (s.get? h).isSome) :
    (s.erase h).live + 1 = s.live := by
  have hpos : 0 < s.live := by
    rw [s.live_eq, Array.countP_pos_iff]
    cases hc : s.cells[h.index]? with
    | none => simp [get?, hc] at hl
    | some c =>
        have hcs : c.isSome := by simpa [get?, hc] using hl
        exact ⟨c, Array.mem_of_getElem? hc, hcs⟩
  have hle : (s.erase h).live = s.live - 1 := by
    simp [erase, hl]
  omega

theorem require_eq_ok {s : Slots α} {h : Handle} {a : α} :
    s.require h = .ok a ↔ s.get? h = some a := by
  unfold require
  cases s.get? h <;> simp

theorem require_eq {s : Slots α} {h : Handle} {a : α} (hg : s.get? h = some a) :
    s.require h = .ok a :=
  require_eq_ok.mpr hg

/-! ## The handles of a store -/

/-- The handles that name a value, in the order in which they were issued. -/
def handles (s : Slots α) : List Handle :=
  ((List.range s.cells.size).map Handle.mk).filter fun h => (s.get? h).isSome

theorem mem_handles {s : Slots α} {h : Handle} : h ∈ s.handles ↔ (s.get? h).isSome := by
  unfold handles
  rw [List.mem_filter, and_iff_right_iff_imp]
  intro hl
  refine List.mem_map.mpr ⟨h.index, List.mem_range.mpr (Nat.lt_of_not_le fun hle => ?_), rfl⟩
  rw [get?_eq_none_of_fresh_le hle] at hl
  cases hl

theorem nodup_handles (s : Slots α) : s.handles.Nodup := by
  refine List.Nodup.filter _ (List.Nodup.map ?_ List.nodup_range)
  intro i j hij
  exact congrArg Handle.index hij

theorem length_handles (s : Slots α) : s.handles.length = s.live := by
  have hcells : s.cells.toList = (List.range s.cells.size).map fun i => s.get? ⟨i⟩ := by
    refine List.ext_getElem (by simp) fun i hi _ => ?_
    have hlt : i < s.cells.size := by simpa using hi
    simp [get?, hlt]
  calc s.handles.length
      = (List.range s.cells.size).countP fun i => (s.get? ⟨i⟩).isSome := by
        rw [handles, ← List.countP_eq_length_filter, List.countP_map]
        rfl
    _ = s.cells.toList.countP Option.isSome := by rw [hcells, List.countP_map]; rfl
    _ = s.live := by rw [s.live_eq, Array.countP_toList]

/-- A list of live handles is not longer than there are values. -/
theorem length_le_live {s : Slots α} {l : List Handle} (hnd : l.Nodup)
    (hl : ∀ h ∈ l, (s.get? h).isSome) : l.length ≤ s.live := by
  rw [← s.length_handles]
  exact (List.subperm_of_subset hnd fun h hm => mem_handles.mpr (hl h hm)).length_le

/-! ## Changing the value a link leads to -/

/-- The store after a change of the value that a link leads to, if there is a link. -/
def touch (s : Slots α) (link : Option Handle) (f : α → α) : Slots α :=
  match link with
  | none => s
  | some h => s.modify h f

theorem adjust_eq (s : Slots α) (link : Option Handle) (f : α → α)
    (hl : ∀ h, link = some h → (s.get? h).isSome) : s.adjust link f = .ok (s.touch link f) := by
  cases link with
  | none => rfl
  | some h => simp [adjust, touch, hl h rfl]

theorem eq_touch_of_adjust {s s' : Slots α} {link : Option Handle} {f : α → α}
    (ha : s.adjust link f = .ok s') : s' = s.touch link f := by
  cases link with
  | none => exact (Except.ok.inj ha).symm
  | some h =>
      unfold adjust at ha
      dsimp only at ha
      split at ha
      · exact (Except.ok.inj ha).symm
      · cases ha

theorem get?_touch (s : Slots α) (link : Option Handle) (f : α → α) (k : Handle) :
    (s.touch link f).get? k = if link = some k then (s.get? k).map f else s.get? k := by
  cases link with
  | none => simp [touch]
  | some h => simp [touch, get?_modify, eq_comm]

@[simp] theorem fresh_touch (s : Slots α) (link : Option Handle) (f : α → α) :
    (s.touch link f).fresh = s.fresh := by
  cases link <;> simp [touch]

@[simp] theorem live_touch (s : Slots α) (link : Option Handle) (f : α → α) :
    (s.touch link f).live = s.live := by
  cases link <;> simp [touch]

end

/-! ## The three observations -/

variable {ρ : Type}

/-- The resource under a handle. -/
def resource? (s : Slots (Entry ρ)) (h : Handle) : Option ρ := (s.get? h).map Entry.resource

/-- The bucket that the entry under a handle was last linked into. -/
def home (s : Slots (Entry ρ)) (h : Handle) : Option Nat := (s.get? h).map Entry.bucket

/-- The links of the entry under a handle, to the one before it and to the one after it. -/
def links (s : Slots (Entry ρ)) (h : Handle) : Option (Option Handle × Option Handle) :=
  (s.get? h).map fun e => (e.prev, e.next)

theorem isSome_resource? (s : Slots (Entry ρ)) (h : Handle) :
    (s.resource? h).isSome = (s.get? h).isSome := by
  simp [resource?]

theorem isSome_links (s : Slots (Entry ρ)) (h : Handle) :
    (s.links h).isSome = (s.get? h).isSome := by
  simp [links]

theorem isSome_of_links {s : Slots (Entry ρ)} {h : Handle} {p : Option Handle × Option Handle}
    (hp : s.links h = some p) : (s.get? h).isSome := by
  rw [← isSome_links, hp]
  rfl

theorem links_eq_some {s : Slots (Entry ρ)} {h : Handle} {p n : Option Handle} :
    s.links h = some (p, n) ↔ ∃ e, s.get? h = some e ∧ e.prev = p ∧ e.next = n := by
  simp [links, Prod.ext_iff]

theorem home_eq_some {s : Slots (Entry ρ)} {h : Handle} {i : Nat} :
    s.home h = some i ↔ ∃ e, s.get? h = some e ∧ e.bucket = i := by
  simp [home]

/-! ## Rewiring -/

/-- The store `s'` has the resources of `s`, under the same handles. -/
structure Rewired (s s' : Slots (Entry ρ)) : Prop where
  resource : ∀ h, s'.resource? h = s.resource? h
  live : s'.live = s.live
  fresh : s'.fresh = s.fresh

namespace Rewired

variable {s s' s'' : Slots (Entry ρ)}

theorem refl (s : Slots (Entry ρ)) : Rewired s s := ⟨fun _ => rfl, rfl, rfl⟩

theorem trans (h₁ : Rewired s s') (h₂ : Rewired s' s'') : Rewired s s'' where
  resource h := (h₂.resource h).trans (h₁.resource h)
  live := h₂.live.trans h₁.live
  fresh := h₂.fresh.trans h₁.fresh

theorem isSome (hr : Rewired s s') (h : Handle) : (s'.get? h).isSome = (s.get? h).isSome := by
  rw [← isSome_resource?, hr.resource, isSome_resource?]

/-- Changing an entry without its resource rewires the store. -/
theorem touch (s : Slots (Entry ρ)) (link : Option Handle) (f : Entry ρ → Entry ρ)
    (hf : ∀ e, (f e).resource = e.resource) : Rewired s (s.touch link f) where
  resource h := by
    unfold resource?
    rw [get?_touch]
    split
    · rw [Option.map_map]
      congr 1
      exact funext hf
    · rfl
  live := live_touch s link f
  fresh := fresh_touch s link f

theorem of_adjust {link : Option Handle} {f : Entry ρ → Entry ρ}
    (ha : s.adjust link f = .ok s') (hf : ∀ e, (f e).resource = e.resource) : Rewired s s' := by
  rw [eq_touch_of_adjust ha]
  exact .touch s link f hf

end Rewired

end Slots

/-! ## Setting links -/

namespace Entry

variable {ρ : Type}

/-- The entry with another link to the one after it. -/
def withNext (next : Option Handle) (e : Entry ρ) : Entry ρ := { e with next := next }

/-- The entry with another link to the one before it. -/
def withPrev (prev : Option Handle) (e : Entry ρ) : Entry ρ := { e with prev := prev }

/-- The entry as the last one of a bucket, behind `prev`. -/
def placed (bucket : Nat) (prev : Option Handle) (e : Entry ρ) : Entry ρ :=
  { e with bucket := bucket, prev := prev, next := none }

/-- The entry without links. -/
def detached (e : Entry ρ) : Entry ρ := { e with prev := none, next := none }

end Entry

namespace Slots

variable {ρ : Type} (s : Slots (Entry ρ)) (link : Option Handle) (k : Handle)

/-- A change that acts on the links as `g` does. -/
theorem links_touch (f : Entry ρ → Entry ρ)
    (g : Option Handle × Option Handle → Option Handle × Option Handle)
    (hf : ∀ e, ((f e).prev, (f e).next) = g (e.prev, e.next)) :
    (s.touch link f).links k = if link = some k then (s.links k).map g else s.links k := by
  unfold links
  rw [get?_touch]
  split
  · rw [Option.map_map, Option.map_map]
    congr 1
    exact funext hf
  · rfl

theorem links_touch_withNext (n : Option Handle) :
    (s.touch link (Entry.withNext n)).links k =
      if link = some k then (s.links k).map fun p => (p.1, n) else s.links k :=
  links_touch s link k _ _ fun _ => rfl

theorem links_touch_withPrev (p : Option Handle) :
    (s.touch link (Entry.withPrev p)).links k =
      if link = some k then (s.links k).map fun q => (p, q.2) else s.links k :=
  links_touch s link k _ _ fun _ => rfl

theorem links_touch_placed (bucket : Nat) (p : Option Handle) :
    (s.touch link (Entry.placed bucket p)).links k =
      if link = some k then (s.links k).map fun _ => (p, none) else s.links k :=
  links_touch s link k _ _ fun _ => rfl

theorem links_touch_detached :
    (s.touch link Entry.detached).links k =
      if link = some k then (s.links k).map fun _ => (none, none) else s.links k :=
  links_touch s link k _ _ fun _ => rfl

/-- A change that leaves the bucket index alone. -/
theorem home_touch (f : Entry ρ → Entry ρ) (hf : ∀ e, (f e).bucket = e.bucket) :
    (s.touch link f).home k = s.home k := by
  unfold home
  rw [get?_touch]
  split
  · rw [Option.map_map]
    congr 1
    exact funext hf
  · rfl

theorem home_touch_placed (bucket : Nat) (p : Option Handle) :
    (s.touch link (Entry.placed bucket p)).home k =
      if link = some k then (s.home k).map fun _ => bucket else s.home k := by
  unfold home
  rw [get?_touch]
  split
  · rw [Option.map_map, Option.map_map]
    rfl
  · rfl

end Slots

end ResourceIndex
