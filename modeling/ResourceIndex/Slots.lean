set_option autoImplicit false

/-! # Slots

A store that issues a handle for each value put into it. A handle names its value for as long
as the value is there and nothing ever after: no handle is issued twice, so one that has gone
stale stays stale. Slots are numbered in the order of their handles, and an emptied one remains
empty.

This is what a slot map warrants that fills its emptied slots again. Its key is an index with a
version, and the version of a slot is raised when the slot is emptied, so that a key is issued a
second time only when a version of 31 bits has wrapped around. Here versions are taken not to wrap:
a slot that is filled again is a new one. Such a map has room for fewer than `2 ^ 32 - 1` values,
and here there is always room for another one. What is put in, changed, taken out or read under a
key, or under one that has gone stale, is the same in both.

Each operation is pinned down by what it does to `get?`: see `get?_insert`, `get?_modify` and
`get?_erase`.
-/

namespace ResourceIndex

/-- The name of a slot. -/
structure Handle where
  index : Nat
  deriving DecidableEq

/-- The slots issued so far, with the number of values in them. -/
structure Slots (α : Type) where
  cells : Array (Option α) := #[]
  live : Nat := 0
  live_eq : live = cells.countP Option.isSome := by rfl

namespace Slots

variable {α : Type}

/-! ## Operations -/

/-- No slot has been issued. -/
def empty : Slots α := {}

/-- The value that a handle names. -/
def get? (s : Slots α) (h : Handle) : Option α := (s.cells[h.index]?).join

/-- The handle to be issued next. -/
def fresh (s : Slots α) : Handle := ⟨s.cells.size⟩

/-- Puts a value into the slot of the handle to be issued next. -/
def insert (s : Slots α) (a : α) : Slots α where
  cells := s.cells.push (some a)
  live := s.live + 1
  live_eq := by simp [s.live_eq]

private theorem countP_modify_map (f : α → α) (cells : List (Option α)) (i : Nat) :
    (cells.modify i (Option.map f)).countP Option.isSome = cells.countP Option.isSome := by
  induction cells generalizing i with
  | nil => simp
  | cons c cells ih => cases i <;> simp [List.countP_cons, ih]

/-- Changes the value that a handle names. -/
def modify (s : Slots α) (h : Handle) (f : α → α) : Slots α where
  cells := s.cells.modify h.index (Option.map f)
  live := s.live
  live_eq := by
    rw [← Array.countP_toList, Array.toList_modify, countP_modify_map, Array.countP_toList,
      s.live_eq]

/-- Takes the value that a handle names out of its slot. A stale handle changes nothing. -/
def erase (s : Slots α) (h : Handle) : Slots α :=
  if hl : (s.get? h).isSome then
    { cells := s.cells.setIfInBounds h.index none
      live := s.live - 1
      live_eq := by
        have hi : h.index < s.cells.size := by
          by_cases hi : h.index < s.cells.size
          · exact hi
          · simp [get?, hi] at hl
        have hg : s.cells[h.index].isSome := by simpa [get?, hi] using hl
        simp [Array.setIfInBounds, hi, Array.countP_set, hg, s.live_eq] }
  else s

/-! ## What the operations do to the values named -/

@[simp] theorem get?_empty (h : Handle) : (empty : Slots α).get? h = none := by
  simp [empty, get?]

theorem get?_eq_none_of_fresh_le {s : Slots α} {h : Handle} (hle : s.fresh.index ≤ h.index) :
    s.get? h = none := by
  have : s.cells.size ≤ h.index := hle
  simp [get?, this]

theorem get?_insert (s : Slots α) (a : α) (h : Handle) :
    (s.insert a).get? h = if h = s.fresh then some a else s.get? h := by
  obtain ⟨i⟩ := h
  by_cases hi : i = s.cells.size <;> simp [get?, insert, fresh, Array.getElem?_push, hi]

theorem get?_modify (s : Slots α) (h : Handle) (f : α → α) (k : Handle) :
    (s.modify h f).get? k = if k = h then (s.get? k).map f else s.get? k := by
  obtain ⟨i⟩ := h
  obtain ⟨j⟩ := k
  by_cases hij : i = j
  · subst hij
    cases hc : s.cells[i]? <;> simp [get?, modify, Array.getElem?_modify, hc]
  · simp [get?, modify, Array.getElem?_modify, hij, Ne.symm hij]

theorem erase_of_get?_eq_none {s : Slots α} {h : Handle} (hn : s.get? h = none) :
    s.erase h = s := by
  simp [erase, hn]

theorem cells_erase_of_isSome {s : Slots α} {h : Handle} (hl : (s.get? h).isSome) :
    (s.erase h).cells = s.cells.setIfInBounds h.index none := by
  simp [erase, hl]

theorem get?_erase (s : Slots α) (h k : Handle) :
    (s.erase h).get? k = if k = h then none else s.get? k := by
  cases hg : s.get? h with
  | none =>
    rw [erase_of_get?_eq_none hg]
    split
    · next hk => rw [hk, hg]
    · rfl
  | some a =>
    obtain ⟨i⟩ := h
    obtain ⟨j⟩ := k
    rw [get?, cells_erase_of_isSome (by simp [hg])]
    by_cases hij : i = j
    · subst hij
      by_cases hi : i < s.cells.size <;> simp [hi]
    · simp [get?, hij, Ne.symm hij]

end Slots

end ResourceIndex
