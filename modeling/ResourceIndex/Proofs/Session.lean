import ResourceIndex.Cursor
import ResourceIndex.Proofs.Loss

set_option autoImplicit false

/-! # Sessions

A session is a table with cursors into it. At any time a request may be carried out, a cursor may
be made or copied, and any of the cursors may be resumed (`Act`). Along with each cursor its
history is kept: the table it was made for, the requests carried out since, and the handles it has
returned (`Reader`). A copy of a cursor takes over the history and has one of its own from then on.

What becomes of a session in a single act is said by `Session.act_cases`. What every act preserves
holds after every run (`Session.run_preserves`).
-/

namespace ResourceIndex

/-- What can be done in a session. Cursors are numbered in the order they were made in. -/
inductive Act (ρ ι : Type) : Type 1 where
  | request (q : Request ρ ι)
  | start
  | copy (i : Nat)
  | resume (i : Nat)

/-- The handle that comes after `h` in the bucket that `h` is in. -/
def Table.follower {ρ : Type} (t : Table ρ) (h : Handle) : Option Handle :=
  (t.slots.home h).bind fun b => ((t.handlesIn b).dropWhile fun k => k ≠ h).tail.head?

/-! ## Readers -/

/-- A cursor with its history. -/
structure Reader (ρ ι : Type) where
  cursor : Cursor
  /-- The table that the cursor was made for, as it was then. -/
  origin : Table ρ
  /-- The handles that were lost then. -/
  missing : List Handle
  /-- The first handle of the first bucket as it was then or, once the cursor has returned a handle,
  the one that came after that when it did. -/
  successor : Option Handle
  /-- The requests carried out since. -/
  since : List (Exchange ρ ι) := []
  /-- The handles returned, in the order they were returned in. -/
  returned : List Handle := []
  /-- Whether the cursor has come to the end. -/
  ended : Bool := false

namespace Reader

variable {ρ ι : Type}

/-- A new cursor. -/
def start (t : Table ρ) (lost : List Handle) : Reader ρ ι where
  cursor := Cursor.start t
  origin := t
  missing := lost
  successor := (t.handlesIn 0).head?

/-- The reader after a request has been carried out. -/
def note (x : Exchange ρ ι) (rd : Reader ρ ι) : Reader ρ ι := { rd with since := rd.since ++ [x] }

/-- The reader after a step of its cursor in the table `t`. A fault leaves it as it was. -/
def resume (t : Table ρ) (rd : Reader ρ ι) : Reader ρ ι :=
  match rd.cursor.step t with
  | .error _ => rd
  | .ok (none, c) => { rd with cursor := c, successor := none, ended := true }
  | .ok (some h, c) =>
    { rd with cursor := c, successor := t.follower h, returned := rd.returned ++ [h] }

theorem missing_resume (rd : Reader ρ ι) (t : Table ρ) : (rd.resume t).missing = rd.missing := by
  unfold resume
  split <;> rfl

end Reader

/-! ## Sessions -/

/-- A table with the handles that it has lost, the requests carried out on it and the cursors into
it. -/
structure Session (ρ ι : Type) where
  table : Table ρ
  lost : List Handle
  log : List (Exchange ρ ι)
  readers : List (Reader ρ ι)

namespace Session

variable {ρ ι : Type} [Resource ρ ι] [Identifier ι]

/-- The session with a fresh table. -/
def fresh : Session ρ ι := ⟨Table.new, [], [], []⟩

/-- The session after an act. -/
def act (s : Session ρ ι) : Act ρ ι → Except Corruption (Session ρ ι)
  | .request q =>
      match s.table.perform q with
      | .error c => .error c
      | .ok o => .ok {
          table := o.state
          lost := s.lost ++ s.table.castOff q
          log := s.log ++ [⟨q, o.answer, o.events⟩]
          readers := s.readers.map (Reader.note ⟨q, o.answer, o.events⟩) }
  | .start => .ok { s with readers := s.readers ++ [Reader.start s.table s.lost] }
  | .copy i => .ok { s with readers := s.readers ++ s.readers[i]?.toList }
  | .resume i => .ok { s with readers := s.readers.modify i (Reader.resume s.table) }

/-- The session after acts done one after another. -/
def run : Session ρ ι → List (Act ρ ι) → Except Corruption (Session ρ ι)
  | s, [] => .ok s
  | s, a :: acts =>
      match s.act a with
      | .error c => .error c
      | .ok s' => s'.run acts

theorem run_cons_eq_ok {s s' : Session ρ ι} {a : Act ρ ι} {acts : List (Act ρ ι)}
    (h : s.run (a :: acts) = .ok s') : ∃ s₁, s.act a = .ok s₁ ∧ s₁.run acts = .ok s' := by
  rw [run] at h
  cases ha : s.act a with
  | error c => rw [ha] at h; cases h
  | ok s₁ =>
      rw [ha] at h
      exact ⟨s₁, rfl, h⟩

/-- **What every act preserves holds after every run.** -/
theorem run_preserves {P : Session ρ ι → Prop}
    (hstep : ∀ s a s', P s → s.act a = .ok s' → P s') (acts : List (Act ρ ι)) :
    ∀ {s s' : Session ρ ι}, P s → s.run acts = .ok s' → P s' := by
  induction acts with
  | nil =>
      intro s s' hs hr
      cases hr
      exact hs
  | cons a acts ih =>
      intro s s' hs hr
      obtain ⟨s₁, ha, hr⟩ := run_cons_eq_ok hr
      exact ih (hstep s a s₁ hs ha) hr

theorem mem_modify {α : Type _} {f : α → α} {l : List α} {i : Nat} {a : α}
    (hm : a ∈ l.modify i f) : a ∈ l ∨ ∃ b ∈ l, a = f b := by
  obtain ⟨j, hj⟩ := List.mem_iff_getElem?.mp hm
  rw [List.getElem?_modify] at hj
  obtain ⟨b, hb, rfl⟩ := Option.map_eq_some_iff.mp hj
  have hbl : b ∈ l := List.mem_of_getElem? hb
  split
  · exact Or.inr ⟨b, hbl, rfl⟩
  · exact Or.inl hbl

/-- **All that an act does.** It carries out a request, of which every reader takes note, or it
leaves the table alone and the readers are those there were, one that starts, or ones resumed. -/
theorem act_cases {s s' : Session ρ ι} {a : Act ρ ι} (ha : s.act a = .ok s') :
    (∃ q o, a = .request q ∧ s.table.perform q = .ok o ∧ s'.table = o.state
      ∧ s'.lost = s.lost ++ s.table.castOff q ∧ s'.log = s.log ++ [⟨q, o.answer, o.events⟩]
      ∧ s'.readers = s.readers.map (Reader.note ⟨q, o.answer, o.events⟩))
    ∨ (s'.table = s.table ∧ s'.lost = s.lost ∧ s'.log = s.log
      ∧ ∀ rd ∈ s'.readers, rd ∈ s.readers ∨ rd = Reader.start s.table s.lost
        ∨ ∃ rd' ∈ s.readers, rd = rd'.resume s.table) := by
  cases a with
  | request q =>
      left
      unfold act at ha
      dsimp only at ha
      cases hp : s.table.perform q with
      | error c => rw [hp] at ha; cases ha
      | ok o =>
          rw [hp] at ha
          cases ha
          exact ⟨q, o, rfl, hp, rfl, rfl, rfl, rfl⟩
  | start =>
      cases ha
      refine Or.inr ⟨rfl, rfl, rfl, fun rd hm => ?_⟩
      rcases List.mem_append.mp hm with hm | hm
      · exact Or.inl hm
      · exact Or.inr (Or.inl (List.mem_singleton.mp hm))
  | copy i =>
      cases ha
      refine Or.inr ⟨rfl, rfl, rfl, fun rd hm => ?_⟩
      rcases List.mem_append.mp hm with hm | hm
      · exact Or.inl hm
      · exact Or.inl (List.mem_of_getElem? (Option.mem_toList.mp hm))
  | resume i =>
      cases ha
      refine Or.inr ⟨rfl, rfl, rfl, fun rd hm => ?_⟩
      exact (mem_modify hm).imp_right Or.inr

end Session

end ResourceIndex
