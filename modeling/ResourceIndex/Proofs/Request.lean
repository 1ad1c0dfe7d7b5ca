import ResourceIndex.Proofs.Store
import ResourceIndex.Table.Traverse
import ResourceIndex.Table.Verify

set_option autoImplicit false

/-! # Requests to a table and runs of requests

Everything that can be asked of a table is a `Request`, and `perform` carries it out: the table
afterwards, an answer of the type that goes with the request, and the events. A run performs a
list of requests one after another and records each with its answer. A fault ends a request
and not the run: the run goes on with the table as the fault left it.

What holds after every run is proved from what one request preserves, by `run_preserves`. That a
run comes to its end at all, and that its answers are those a simpler machine allows, follows
from the same of one request, by `run_follows`.
-/

namespace ResourceIndex

/-! ## Requests -/

/-- What can be asked of a table. A request to change resources comes with the change: a
function, or a visitor with its first state. -/
inductive Request (ρ ι : Type) : Type 1 where
  | add (granted : Bool) (r : ρ)
  | remove (id : ι)
  | removeHandle (h : Handle)
  | modify (id : ι) (f : ρ → ρ)
  | modifyHandle (h : Handle) (f : ρ → ρ)
  | traverse {σ : Type} (visit : Visitor σ ρ) (s : σ)
  | find (id : ι)
  | lookup (id : ι)
  | contains (id : ι)
  | get (h : Handle)
  | verify

namespace Request

variable {ρ ι : Type}

/-- The type of the answers to a request. -/
def Answer : Request ρ ι → Type
  | add _ _ => Admission ρ
  | remove _ => Option ρ
  | removeHandle _ => Option ρ
  | modify _ _ => Option ρ
  | modifyHandle _ _ => Option ρ
  | @traverse _ _ σ _ _ => σ
  | find _ => Option Handle
  | lookup _ => Option ρ
  | contains _ => Bool
  | get _ => Option ρ
  | verify => Unit

theorem add_or_ne (q : Request ρ ι) :
    (∃ granted r, q = add granted r) ∨ ∀ granted r, q ≠ add granted r := by
  cases q with
  | add granted r => exact Or.inl ⟨granted, r, rfl⟩
  | _ => exact Or.inr nofun

/-- Every change the request can make to a resource that stays installed is one that `P` allows. -/
def ChangesOnly (P : ρ → ρ → Prop) : Request ρ ι → Prop
  | modify _ f => ∀ r, P r (f r)
  | modifyHandle _ f => ∀ r, P r (f r)
  | traverse visit _ => ∀ s r, (visit s r).2.2 = .keep → P r (visit s r).2.1
  | _ => True

theorem changesOnly_true (q : Request ρ ι) : q.ChangesOnly fun _ _ => True := by
  cases q with
  | modify id f | modifyHandle h f => exact fun _ => trivial
  | traverse visit s => exact fun _ _ _ => trivial
  | _ => trivial

variable [Resource ρ ι]

/-- The request leaves the identifiers of installed resources as they are. -/
def KeepsIds (q : Request ρ ι) : Prop :=
  q.ChangesOnly fun r r' => Resource.id r' = Resource.id r

/-- The request gives no installed resource an identifier that cannot be hashed. -/
def KeepsHashable [Identifier ι] (q : Request ρ ι) : Prop :=
  q.ChangesOnly fun r r' => (Identifier.hash? (Resource.id r)).isSome →
    (Identifier.hash? (Resource.id r')).isSome

theorem KeepsIds.keepsHashable [Identifier ι] {q : Request ρ ι} (hq : q.KeepsIds) :
    q.KeepsHashable := by
  cases q with
  | modify id f => exact fun r hr => (hq r).symm ▸ hr
  | modifyHandle h f => exact fun r hr => (hq r).symm ▸ hr
  | traverse visit s => exact fun s r hv hr => (hq s r hv).symm ▸ hr
  | _ => trivial

end Request

/-! ## Carrying out requests -/

/-- A request with its answer and the events logged meanwhile. -/
structure Exchange (ρ ι : Type) where
  request : Request ρ ι
  answer : Except Fault request.Answer
  events : List Event

namespace Table

variable {ρ ι : Type} [Resource ρ ι] [Identifier ι]

/-- Carries out a request. -/
def perform (t : Table ρ) : (q : Request ρ ι) → Checked (Outcome (Table ρ) q.Answer)
  | .add granted r => t.add granted r
  | .remove id => t.remove id
  | .removeHandle h => do
      let (t, r) ← t.removeHandle h
      return { state := t, answer := .ok r }
  | .modify id f => t.modify id f
  | .modifyHandle h f =>
      .ok { state := t.modifyHandle h f, answer := .ok ((t.modifyHandle h f).get? h) }
  | .traverse visit s => do
      let (t, s) ← t.traverse visit s
      return { state := t, answer := .ok s }
  | .find id => do return { state := t, answer := ← t.find id }
  | .lookup id => do return { state := t, answer := ← t.lookup id }
  | .contains id => do return { state := t, answer := ← t.contains id }
  | .get h => .ok { state := t, answer := .ok (t.get? h) }
  | .verify => do return { state := t, answer := ← t.verify }

/-- Carries out the requests one after another: the exchanges in their order and the table at
the end. -/
def run : Table ρ → List (Request ρ ι) → Except Corruption (List (Exchange ρ ι) × Table ρ)
  | t, [] => .ok ([], t)
  | t, q :: qs =>
      match t.perform q with
      | .error c => .error c
      | .ok o =>
          match o.state.run qs with
          | .error c => .error c
          | .ok (exchanges, t') => .ok (⟨q, o.answer, o.events⟩ :: exchanges, t')

/-- A run of one request and more begins with that request. -/
theorem run_cons_eq_ok {t t' : Table ρ} {q : Request ρ ι} {qs : List (Request ρ ι)}
    {exchanges : List (Exchange ρ ι)} (h : t.run (q :: qs) = .ok (exchanges, t')) :
    ∃ o rest, t.perform q = .ok o ∧ o.state.run qs = .ok (rest, t')
      ∧ exchanges = ⟨q, o.answer, o.events⟩ :: rest := by
  rw [run] at h
  cases hp : t.perform q with
  | error c => rw [hp] at h; cases h
  | ok o =>
      rw [hp] at h
      dsimp only at h
      cases hr : o.state.run qs with
      | error c => rw [hr] at h; cases h
      | ok p =>
          rw [hr] at h
          cases h
          exact ⟨o, p.1, rfl, hr, rfl⟩

theorem run_cons {t t' : Table ρ} {q : Request ρ ι} {qs : List (Request ρ ι)}
    {o : Outcome (Table ρ) q.Answer} {rest : List (Exchange ρ ι)} (hp : t.perform q = .ok o)
    (hr : o.state.run qs = .ok (rest, t')) :
    t.run (q :: qs) = .ok (⟨q, o.answer, o.events⟩ :: rest, t') := by
  rw [run, hp]
  dsimp only
  rw [hr]

/-- **What every request preserves holds after every run.** -/
theorem run_preserves {P : Table ρ → Prop}
    (hstep : ∀ (t : Table ρ) (q : Request ρ ι) (o : Outcome (Table ρ) q.Answer),
      P t → t.perform q = .ok o → P o.state)
    (qs : List (Request ρ ι)) :
    ∀ {t t' : Table ρ} {exchanges : List (Exchange ρ ι)}, P t →
      t.run qs = .ok (exchanges, t') → P t' := by
  induction qs with
  | nil =>
      intro t t' exchanges ht hr
      cases hr
      exact ht
  | cons q qs ih =>
      intro t t' exchanges ht hr
      obtain ⟨o, rest, hp, hrest, -⟩ := run_cons_eq_ok hr
      exact ih (hstep t q o ht hp) hrest

end Table

/-! ## Following a run on a simpler machine -/

section Follows

variable {ρ ι σ : Type}

/-- The machine with the steps `S` goes from one state to another by the exchanges of a run. -/
def Follows (S : σ → Exchange ρ ι → σ → Prop) : σ → List (Exchange ρ ι) → σ → Prop
  | m, [], m' => m' = m
  | m, x :: xs, m' => ∃ m₁, S m x m₁ ∧ Follows S m₁ xs m'

/-- A machine that allows every step of another follows every run that the other one does. -/
theorem Follows.mono {S S' : σ → Exchange ρ ι → σ → Prop} (h : ∀ m x m', S m x m' → S' m x m')
    (xs : List (Exchange ρ ι)) : ∀ {m m' : σ}, Follows S m xs m' → Follows S' m xs m' := by
  induction xs with
  | nil => exact fun hf => hf
  | cons x xs ih =>
      intro m m' hf
      obtain ⟨m₁, hs, hf⟩ := hf
      exact ⟨m₁, h m x m₁ hs, ih hf⟩

variable [Resource ρ ι] [Identifier ι]

/-- **Following a whole run.** If each request is carried out, with an answer that a step of the
machine allows, then so is every run; `I` relates the machine and the table all along. -/
theorem Table.run_follows {S : σ → Exchange ρ ι → σ → Prop} {I : σ → Table ρ → Prop}
    {Q : Request ρ ι → Prop}
    (hstep : ∀ m (t : Table ρ) (q : Request ρ ι), Q q → I m t →
      ∃ o m', t.perform q = .ok o ∧ S m ⟨q, o.answer, o.events⟩ m' ∧ I m' o.state)
    (qs : List (Request ρ ι)) (hqs : ∀ q ∈ qs, Q q) :
    ∀ {m : σ} {t : Table ρ}, I m t →
      ∃ exchanges t' m', t.run qs = .ok (exchanges, t') ∧ exchanges.map Exchange.request = qs
        ∧ Follows S m exchanges m' ∧ I m' t' := by
  -- by induction on the requests, from whatever states of machine and table are related
  induction qs with
  | nil => exact fun {m t} hi => ⟨[], t, m, rfl, rfl, rfl, hi⟩
  | cons q qs ih =>
      intro m t hi
      obtain ⟨o, m₁, hp, hs, hi₁⟩ := hstep m t q (hqs q List.mem_cons_self) hi
      obtain ⟨rest, t', m', hr, hm, hf, hi'⟩ :=
        ih (fun q' hq' => hqs q' (List.mem_cons_of_mem q hq')) hi₁
      refine ⟨⟨q, o.answer, o.events⟩ :: rest, t', m', Table.run_cons hp hr, ?_, ?_, hi'⟩
      · rw [List.map_cons, hm]
      · exact ⟨m₁, hs, hf⟩

end Follows

end ResourceIndex
