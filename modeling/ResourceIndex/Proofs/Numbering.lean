import Mathlib.Data.List.Perm.Subperm
import Mathlib.Data.Nat.Find
import Mathlib.Data.Nat.ModEq
import ResourceIndex.SerialTable
import ResourceIndex.Proofs.Account
import ResourceIndex.Proofs.Refinement

set_option autoImplicit false

/-! # The numbers that a serial table hands out

A serial table knows its counter and how many resources it holds, but not which numbers these
carry. `run_allots` says that this is enough: in every run in which callers leave the numbers
alone, a resource is turned down exactly when all numbers up to the limit are in use, and
otherwise it gets the first one, in the cyclic order from the counter on, that is not in use.

The numbers in that order are `turn s 0`, `turn s 1` and so on. Each that is in use costs one
attempt, which may split a bucket but changes nothing that a handle names.
-/

namespace ResourceIndex

/-! ## Requests -/

/-- What can be asked of a serial table. A resource that is to be numbered comes with what is
granted to each attempt at it. -/
inductive SerialRequest (ρ : Type) : Type 1 where
  | add (granted : Nat → Bool) (r : ρ)
  | remove (id : SerialId)
  | removeHandle (h : Handle)
  | modify (id : SerialId) (f : ρ → ρ)
  | modifyHandle (h : Handle) (f : ρ → ρ)
  | traverse {σ : Type} (visit : Visitor σ ρ) (a : σ)

namespace SerialRequest

variable {ρ : Type}

/-- The request to the table inside, for one that leaves the counter alone. -/
def inside? : SerialRequest ρ → Option (Request ρ SerialId)
  | add _ _ => none
  | remove id => some (.remove id)
  | removeHandle h => some (.removeHandle h)
  | modify id f => some (.modify id f)
  | modifyHandle h f => some (.modifyHandle h f)
  | traverse visit a => some (.traverse visit a)

theorem add_or_inside (q : SerialRequest ρ) :
    (∃ granted r, q = add granted r) ∨ ∃ q', q.inside? = some q' := by
  cases q with
  | add granted r => exact Or.inl ⟨granted, r, rfl⟩
  | _ => exact Or.inr ⟨_, rfl⟩

/-- The type of the answers to a request. -/
def Answer : SerialRequest ρ → Type
  | add _ _ => Numbering ρ
  | remove _ => Option ρ
  | removeHandle _ => Option ρ
  | modify _ _ => Option ρ
  | modifyHandle _ _ => Option ρ
  | @traverse _ σ _ _ => σ

/-- The request leaves the numbers of installed resources as they are. -/
def KeepsIds [Resource ρ SerialId] (q : SerialRequest ρ) : Prop :=
  ∀ q' ∈ q.inside?, q'.KeepsIds

end SerialRequest

/-- A request with its answer and the events logged meanwhile. -/
structure SerialExchange (ρ : Type) where
  request : SerialRequest ρ
  answer : Except Fault request.Answer
  events : List Event

namespace SerialTable

section Requests

variable {ρ : Type} [Serialized ρ]

/-- Carries out a request. -/
def perform (s : SerialTable ρ) :
    (q : SerialRequest ρ) → Checked (Outcome (SerialTable ρ) q.Answer)
  | .add granted r => s.add granted r
  | .remove id => s.remove id
  | .removeHandle h => do
      let (s, r) ← s.removeHandle h
      return { state := s, answer := .ok r }
  | .modify id f => s.modify id f
  | .modifyHandle h f =>
      .ok { state := s.modifyHandle h f, answer := .ok ((s.modifyHandle h f).table.get? h) }
  | .traverse visit a => do
      let (s, a) ← s.traverse visit a
      return { state := s, answer := .ok a }

/-- Carries out the requests one after another: the exchanges in their order and the table at the
end. -/
def record : SerialTable ρ → List (SerialRequest ρ) →
    Except Corruption (List (SerialExchange ρ) × SerialTable ρ)
  | s, [] => .ok ([], s)
  | s, q :: qs =>
      match s.perform q with
      | .error c => .error c
      | .ok o =>
          match o.state.record qs with
          | .error c => .error c
          | .ok (log, s') => .ok (⟨q, o.answer, o.events⟩ :: log, s')

/-- Carries out the requests one after another: the table at the end. -/
def run (s : SerialTable ρ) (qs : List (SerialRequest ρ)) : Checked (SerialTable ρ) :=
  (s.record qs).map Prod.snd

theorem run_cons {s : SerialTable ρ} {q : SerialRequest ρ} {o : Outcome (SerialTable ρ) q.Answer}
    (hp : s.perform q = .ok o) (qs : List (SerialRequest ρ)) :
    s.run (q :: qs) = o.state.run qs := by
  unfold run
  rw [record, hp]
  dsimp only
  cases o.state.record qs <;> rfl

/-- A request that leaves the counter alone does to the table inside what it does to any
table. -/
theorem perform_inside (s : SerialTable ρ) {q : SerialRequest ρ} {q' : Request ρ SerialId}
    (hq : q.inside? = some q') {o : Outcome (Table ρ) q'.Answer}
    (hp : s.table.perform q' = .ok o) :
    ∃ o', s.perform q = .ok o' ∧ o'.state = { s with table := o.state } ∧ o'.events = o.events
      ∧ ∀ fault, o'.answer = .error fault → o.answer = .error fault := by
  cases q with
  | add granted r => cases hq
  | remove id =>
      cases hq
      have hr : s.table.remove id = .ok o := hp
      exact ⟨_, by rw [perform, SerialTable.remove, hr]; rfl, rfl, rfl, fun _ he => he⟩
  | removeHandle h =>
      cases hq
      obtain ⟨p, hr, hp⟩ := Checked.bind_eq_ok.mp hp
      cases hp
      exact ⟨_, by rw [perform, SerialTable.removeHandle, hr]; rfl, rfl, rfl, fun _ he => he⟩
  | modify id f =>
      cases hq
      have hm : s.table.modify id f = .ok o := hp
      exact ⟨_, by rw [perform, SerialTable.modify, hm]; rfl, rfl, rfl, fun _ he => he⟩
  | modifyHandle h f =>
      cases hq
      cases hp
      exact ⟨_, rfl, rfl, rfl, fun _ he => he⟩
  | traverse visit a =>
      cases hq
      obtain ⟨p, ht, hp⟩ := Checked.bind_eq_ok.mp hp
      cases hp
      exact ⟨_, by rw [perform, SerialTable.traverse, ht]; rfl, rfl, rfl, fun _ he => he⟩

end Requests

/-! ## The cyclic order of the numbers -/

section Turns

variable {ρ : Type}

/-- The number is one of those that the table hands out. -/
def InRange (s : SerialTable ρ) (n : UInt32) : Prop := 1 ≤ n ∧ n ≤ s.limit

/-- The number that comes up after `j` others, from the counter on: after the limit comes 1. -/
def turn (s : SerialTable ρ) (j : Nat) : UInt32 :=
  .ofNat (1 + (s.next.toNat - 1 + j) % s.limit.toNat)

theorem inRange_iff {s : SerialTable ρ} {n : UInt32} :
    s.InRange n ↔ 1 ≤ n.toNat ∧ n.toNat ≤ s.limit.toNat := by
  rw [InRange, UInt32.le_iff_toNat_le, UInt32.le_iff_toNat_le]
  rfl

variable {s : SerialTable ρ} (hn : s.InRange s.next)

include hn

theorem limit_pos : 0 < s.limit.toNat := by
  have := inRange_iff.mp hn
  omega

theorem toNat_turn (j : Nat) :
    (s.turn j).toNat = 1 + (s.next.toNat - 1 + j) % s.limit.toNat := by
  have hmod := Nat.mod_lt (s.next.toNat - 1 + j) (limit_pos hn)
  have hlimit : s.limit.toNat < UInt32.size := s.limit.toNat_lt
  exact UInt32.toNat_ofNat_of_lt' (by omega)

theorem turn_inRange (j : Nat) : s.InRange (s.turn j) := by
  have hmod := Nat.mod_lt (s.next.toNat - 1 + j) (limit_pos hn)
  rw [inRange_iff, toNat_turn hn]
  omega

theorem turn_zero : s.turn 0 = s.next := by
  have hrange := inRange_iff.mp hn
  have hmod : (s.next.toNat - 1) % s.limit.toNat = s.next.toNat - 1 :=
    Nat.mod_eq_of_lt (by omega)
  apply UInt32.toNat_inj.mp
  rw [toNat_turn hn, Nat.add_zero, hmod]
  omega

/-- The counter moves on to the next number of the cyclic order. -/
theorem successor_next : successor s.limit s.next = s.turn 1 := by
  have hrange := inRange_iff.mp hn
  have hlimit := s.limit.toNat_lt
  apply UInt32.toNat_inj.mp
  rw [toNat_turn hn, show s.next.toNat - 1 + 1 = s.next.toNat by omega]
  unfold successor
  by_cases hle : s.limit ≤ s.next
  · have heq : s.next.toNat = s.limit.toNat := by
      have := UInt32.le_iff_toNat_le.mp hle
      omega
    rw [if_pos hle, heq, Nat.mod_self]
    rfl
  · have hlt : s.next.toNat < s.limit.toNat := by
      have := mt UInt32.le_iff_toNat_le.mpr hle
      omega
    have hone : (1 : UInt32).toNat = 1 := rfl
    rw [if_neg hle, Nat.mod_eq_of_lt hlt, UInt32.toNat_add, hone, Nat.mod_eq_of_lt (by omega),
      Nat.add_comm]

/-- As many turns as there are numbers are all different. -/
theorem turn_injOn {i j : Nat} (hi : i < s.limit.toNat) (hj : j < s.limit.toNat)
    (h : s.turn i = s.turn j) : i = j := by
  have hnat := congrArg UInt32.toNat h
  rw [toNat_turn hn, toNat_turn hn] at hnat
  have hmod : s.next.toNat - 1 + i ≡ s.next.toNat - 1 + j [MOD s.limit.toNat] :=
    Nat.add_left_cancel hnat
  exact Nat.ModEq.eq_of_lt_of_lt (Nat.ModEq.add_left_cancel' _ hmod) hi hj

/-- Every number has its turn. -/
theorem exists_turn {n : UInt32} (hr : s.InRange n) : ∃ j < s.limit.toNat, s.turn j = n := by
  have hrange := inRange_iff.mp hn
  have hr' := inRange_iff.mp hr
  have hmod : (n.toNat - 1) % s.limit.toNat = n.toNat - 1 := Nat.mod_eq_of_lt (by omega)
  -- the numbers before the counter come up after those from the counter on
  by_cases hle : s.next.toNat ≤ n.toNat
  · refine ⟨n.toNat - s.next.toNat, by omega, UInt32.toNat_inj.mp ?_⟩
    rw [toNat_turn hn, show s.next.toNat - 1 + (n.toNat - s.next.toNat) = n.toNat - 1 by omega,
      hmod]
    omega
  · refine ⟨s.limit.toNat + n.toNat - s.next.toNat, by omega, UInt32.toNat_inj.mp ?_⟩
    rw [toNat_turn hn, show s.next.toNat - 1 + (s.limit.toNat + n.toNat - s.next.toNat)
      = s.limit.toNat + (n.toNat - 1) by omega, Nat.add_mod_left, hmod]
    omega

/-- After the counter has moved on, every number comes up as many turns earlier. -/
theorem turn_of_advanced {s' : SerialTable ρ} {k : Nat} (hnext : s'.next = s.turn k)
    (hlimit : s'.limit = s.limit) (j : Nat) : s'.turn j = s.turn (k + j) := by
  have hmoved : (s.turn k).toNat - 1 + j = (s.next.toNat - 1 + k) % s.limit.toNat + j := by
    rw [toNat_turn hn]
    omega
  rw [turn, hnext, hlimit, hmoved, Nat.mod_add_mod, Nat.add_assoc]
  rfl

theorem turn_of_moved {s' : SerialTable ρ} (hnext : s'.next = s.turn 1)
    (hlimit : s'.limit = s.limit) (j : Nat) : s'.turn j = s.turn (j + 1) := by
  rw [turn_of_advanced hn hnext hlimit, Nat.add_comm]

end Turns

/-! ## Numbers in use -/

/-- The numbers that the resources of a ledger carry. -/
def numbers {ρ : Type} [Resource ρ SerialId] (m : Ledger ρ) : List UInt32 :=
  (m.resources.map Resource.id).map SerialId.number

variable {ρ : Type} [Serialized ρ]

/-- An installed resource carries the number. -/
def InUse (s : SerialTable ρ) (n : UInt32) : Prop :=
  ∃ h r, s.table.get? h = some r ∧ Resource.id r = ⟨n⟩

/-- There are no fewer resources than numbers that have come up and are in use. -/
theorem le_size {s : SerialTable ρ} (hn : s.InRange s.next) {k : Nat} (hk : k ≤ s.limit.toNat)
    (hused : ∀ j < k, s.InUse (s.turn j)) : k ≤ s.table.size := by
  let number h : Option UInt32 := (s.table.get? h).map fun r => (Resource.id r : SerialId).number
  have hnodup : ((List.range k).map s.turn).Nodup := by
    refine List.Nodup.map_on ?_ List.nodup_range
    intro i hi j hj heq
    have hi' := List.mem_range.mp hi
    have hj' := List.mem_range.mp hj
    exact turn_injOn hn (by omega) (by omega) heq
  have hsub : (List.range k).map s.turn ⊆ s.table.slots.handles.filterMap number := by
    intro n hm
    obtain ⟨j, hj, rfl⟩ := List.mem_map.mp hm
    obtain ⟨h, r, hg, hid⟩ := hused j (List.mem_range.mp hj)
    refine List.mem_filterMap.mpr ⟨h, Slots.mem_handles.mpr ?_, ?_⟩
    · rw [← Slots.isSome_resource?]
      exact Option.isSome_of_eq_some hg
    · simp only [number, hg, Option.map_some, hid]
  calc k = ((List.range k).map s.turn).length := by rw [List.length_map, List.length_range]
    _ ≤ (s.table.slots.handles.filterMap number).length := hnodup.length_le_of_subset hsub
    _ ≤ s.table.slots.handles.length := List.length_filterMap_le _ _
    _ = s.table.size := s.table.slots.length_handles

/-- The serial table agrees with a ledger in which no number occurs twice, and all numbers are in
range. -/
structure Numbered (s : SerialTable ρ) (m : Ledger ρ) (lists : Nat → List Handle) : Prop where
  agrees : Table.Agrees True m s.table lists
  distinct : m.Distinct
  inRange : ∀ n ∈ numbers m, s.InRange n
  counter : 1 ≤ s.limit → s.InRange s.next

namespace Numbered

variable {s : SerialTable ρ} {m : Ledger ρ} {lists : Nat → List Handle}

theorem inUse_iff (hs : s.Numbered m lists) {n : UInt32} : s.InUse n ↔ n ∈ numbers m := by
  unfold InUse numbers Ledger.resources
  simp only [List.mem_map]
  constructor
  · rintro ⟨h, r, hg, hid⟩
    rw [hs.agrees.get] at hg
    have hrow := (Ledger.mem_rows hs.agrees.ordered.handles_nodup).mpr hg
    exact ⟨_, ⟨r, ⟨(h, r), hrow, rfl⟩, rfl⟩, by rw [hid]⟩
  · rintro ⟨_, ⟨_, ⟨⟨h, r⟩, hrow, rfl⟩, rfl⟩, rfl⟩
    refine ⟨h, r, ?_, rfl⟩
    rw [hs.agrees.get]
    exact (Ledger.mem_rows hs.agrees.ordered.handles_nodup).mp hrow

theorem nodup_numbers (hs : s.Numbered m lists) : (numbers m).Nodup := by
  refine List.pairwise_map.mpr (hs.distinct.imp ?_)
  intro a b hab heq
  cases a
  cases b
  exact hab (SerialId.same_iff.mpr (congrArg SerialId.mk heq))

theorem length_numbers (hs : s.Numbered m lists) : (numbers m).length = s.table.size := by
  rw [hs.agrees.size]
  simp [numbers, Ledger.resources, Ledger.handles]

/-- No row of the ledger answers to a number that is not in use. -/
theorem under?_eq_none_iff (hs : s.Numbered m lists) {n : UInt32} :
    m.under? ⟨n⟩ = none ↔ ¬ s.InUse n := by
  rw [hs.inUse_iff, Ledger.under?, List.find?_eq_none]
  simp only [numbers, Ledger.resources, List.mem_map, SerialId.same_iff]
  constructor
  · rintro hnone ⟨_, ⟨_, ⟨row, hrow, rfl⟩, rfl⟩, rfl⟩
    exact hnone row hrow rfl
  · intro hnone row hrow heq
    exact hnone ⟨_, ⟨_, ⟨row, hrow, rfl⟩, rfl⟩, congrArg SerialId.number heq⟩

/-- A number that is not in use leaves room for a resource. -/
theorem size_lt (hs : s.Numbered m lists) {n : UInt32} (hr : s.InRange n) (hfree : ¬ s.InUse n) :
    s.table.size < s.limit.toNat := by
  have hn : s.InRange s.next := hs.counter (UInt32.le_trans hr.1 hr.2)
  have hnodup : (n :: numbers m).Nodup :=
    List.nodup_cons.mpr ⟨mt hs.inUse_iff.mpr hfree, hs.nodup_numbers⟩
  have hsub : n :: numbers m ⊆ (List.range s.limit.toNat).map s.turn := by
    intro k hk
    have hrange : s.InRange k := by
      rcases List.mem_cons.mp hk with rfl | hk
      · exact hr
      · exact hs.inRange k hk
    obtain ⟨j, hj, rfl⟩ := exists_turn hn hrange
    exact List.mem_map_of_mem (List.mem_range.mpr hj)
  have hle := hnodup.length_le_of_subset hsub
  rw [List.length_cons, hs.length_numbers, List.length_map, List.length_range] at hle
  exact hle

end Numbered

/-! ## Attempts -/

/-- The resource `r` after the numbers of `count` turns have been assigned to it one after
another. -/
def stamped (s : SerialTable ρ) (r : ρ) : (count : Nat) → ρ
  | 0 => r
  | count + 1 => Serialized.assign ⟨s.turn count⟩ (s.stamped r count)

/-- The resource carries the number that was assigned last. -/
theorem id_stamped (s : SerialTable ρ) (r : ρ) (count : Nat) :
    Resource.id (s.stamped r (count + 1)) = ⟨s.turn count⟩ :=
  Serialized.id_assign _ _

/-- If each number assigned overwrites the one before, only the last one matters. -/
theorem stamped_of_overwrites (s : SerialTable ρ) {r : ρ}
    (hover : ∀ a b (r : ρ), Serialized.assign a (Serialized.assign b r) = Serialized.assign a r)
    (count : Nat) : s.stamped r (count + 1) = Serialized.assign ⟨s.turn count⟩ r := by
  induction count with
  | zero => rfl
  | succ count ih => rw [stamped, ih, hover]

/-- A resource that has been given the number of one turn goes on with the next one. -/
theorem stamped_of_moved {s s' : SerialTable ρ} (hturn : ∀ j, s'.turn j = s.turn (j + 1)) (r : ρ)
    (count : Nat) :
    s'.stamped (Serialized.assign ⟨s.turn 0⟩ r) count = s.stamped r (count + 1) := by
  induction count with
  | zero => rfl
  | succ count ih =>
      rw [stamped, ih, hturn]
      rfl

/-- The serial table `s` gives the resource `r` the number that comes up after `k` others: those are
in use and it is not. The counter moves past it. By the handle issued next the table then names the
resource with its number, and by every other handle what it did. -/
structure Allots (s : SerialTable ρ) (r : ρ) (k : Nat)
    (o : Outcome (SerialTable ρ) (Numbering ρ)) : Prop where
  passed : ∀ j < k, s.InUse (s.turn j)
  free : ¬ s.InUse (s.turn k)
  answer : o.answer = .ok (.numbered ⟨s.turn k⟩)
  next : o.state.next = s.turn (k + 1)
  limit : o.state.limit = s.limit
  enters : s.table.Enters (s.stamped r (k + 1)) o.state.table
  carries : Resource.id (s.stamped r (k + 1)) = ⟨s.turn k⟩

/-- The numbers in use are the same in two tables that name the same resources. -/
theorem inUse_of_rewired {s s' : SerialTable ρ} (hr : s.table.slots.Rewired s'.table.slots)
    (n : UInt32) : s'.InUse n ↔ s.InUse n := by
  have hget : s'.table.get? = s.table.get? := funext hr.resource
  unfold InUse
  rw [hget]

namespace Allots

variable {s s' : SerialTable ρ} {r : ρ}

/-- The number that the counter is at is allotted by an attempt that enters the resource. -/
theorem first (hn : s.InRange s.next) (hfree : ¬ s.InUse s.next) (hnext : s'.next = s.turn 1)
    (hlimit : s'.limit = s.limit)
    (henters : s.table.Enters (Serialized.assign ⟨s.next⟩ r) s'.table) (events : List Event) :
    s.Allots r 0 { state := s', answer := .ok (.numbered ⟨s.next⟩), events := events } := by
  rw [← turn_zero hn] at hfree henters ⊢
  exact ⟨nofun, hfree, rfl, hnext, hlimit, henters, s.id_stamped r 0⟩

/-- A number that is allotted after an attempt that changed nothing comes up one turn later before
that attempt. -/
theorem later (hn : s.InRange s.next) (hused : s.InUse s.next) (hnext : s'.next = s.turn 1)
    (hlimit : s'.limit = s.limit) (hr : s.table.slots.Rewired s'.table.slots) {k : Nat}
    {o : Outcome (SerialTable ρ) (Numbering ρ)}
    (ha : s'.Allots (Serialized.assign ⟨s.next⟩ r) k o) (events : List Event) :
    s.Allots r (k + 1) { o with events := events } := by
  have hturn := turn_of_moved hn hnext hlimit
  have hget : s'.table.get? = s.table.get? := funext hr.resource
  rw [← turn_zero hn] at hused ha
  constructor
  case passed =>
    intro j hj
    cases j with
    | zero => exact hused
    | succ j =>
        have hpassed := (inUse_of_rewired hr _).mp (ha.passed j (Nat.lt_of_succ_lt_succ hj))
        rwa [hturn] at hpassed
  case free =>
    have hfree := mt (inUse_of_rewired hr _).mpr ha.free
    rwa [hturn] at hfree
  case answer => rw [ha.answer, hturn]
  case next => rw [ha.next, hturn]
  case limit => rw [ha.limit, hlimit]
  case enters =>
    rw [← stamped_of_moved hturn]
    constructor
    · intro h
      rw [ha.enters.get, hr.fresh, hget]
    · rw [ha.enters.size]
      exact congrArg (· + 1) hr.live
  case carries => exact s.id_stamped r (k + 1)

end Allots

namespace Numbered

variable {s : SerialTable ρ} {m : Ledger ρ} {lists : Nat → List Handle}

/-- What an attempt leaves behind is numbered if its table and its counter are. -/
theorem moved (hs : s.Numbered m lists) (hn : s.InRange s.next) {t : Table ρ} {m' : Ledger ρ}
    {lists' : Nat → List Handle} (ha : Table.Agrees True m' t lists') (hd : m'.Distinct)
    (hm : ∀ n ∈ numbers m', n ∈ numbers m ∨ n = s.next) :
    (⟨t, successor s.limit s.next, s.limit⟩ : SerialTable ρ).Numbered m' lists' where
  agrees := ha
  distinct := hd
  inRange n hmem := by
    rcases hm n hmem with hold | rfl
    · exact hs.inRange n hold
    · exact hn
  counter _ := by
    show s.InRange (successor s.limit s.next)
    rw [successor_next hn]
    exact turn_inRange hn 1

/-- **One attempt**, with the number that the counter is at. If that is in use, every handle goes on
naming what it did; otherwise the resource is entered. -/
theorem attempt (hs : s.Numbered m lists) (hn : s.InRange s.next) (granted : Bool) (r : ρ) :
    ∃ o, s.attempt granted r = .ok o ∧ o.state.next = s.turn 1 ∧ o.state.limit = s.limit
      ∧ (∃ m' lists', o.state.Numbered m' lists')
      ∧ ((s.InUse s.next ∧ o.answer = .ok (.duplicate (Serialized.assign ⟨s.next⟩ r))
          ∧ s.table.slots.Rewired o.state.table.slots)
        ∨ (¬ s.InUse s.next ∧ o.answer = .ok (.installed s.table.slots.fresh)
          ∧ s.table.Enters (Serialized.assign ⟨s.next⟩ r) o.state.table)) := by
  have hid : Resource.id (Serialized.assign ⟨s.next⟩ r) = ⟨s.next⟩ := Serialized.id_assign _ _
  obtain ⟨o, m', lists', hadd, ⟨found, hfinds, hadm⟩, ha'⟩ :=
    hs.agrees.add granted (Serialized.assign ⟨s.next⟩ r) fun ha id => ha.finds id
  have hfound : found = .ok ((m.under? ⟨s.next⟩).map Prod.fst) := hid ▸ hfinds
  have hraw := Table.add_enters hadd
  refine ⟨_, by rw [SerialTable.attempt, hadd]; rfl, successor_next hn, rfl, ?_⟩
  -- the lookup that precedes the installation finds the row with the number, if there is one
  cases hu : m.under? ⟨s.next⟩ with
  | some row =>
      rw [hfound, hu] at hadm
      obtain ⟨hans, rfl⟩ : o.answer = .ok (.duplicate _) ∧ m' = m := hadm
      have hused : s.InUse s.next := by
        by_contra hfree
        rw [hs.under?_eq_none_iff.mpr hfree] at hu
        cases hu
      refine ⟨⟨m', lists', hs.moved hn ha' hs.distinct fun n => Or.inl⟩, Or.inl ⟨hused, hans, ?_⟩⟩
      rcases hraw with ⟨hins, -⟩ | ⟨-, hr⟩
      · rw [hans] at hins
        cases hins
      · exact hr
  | none =>
      rw [hfound, hu] at hadm
      obtain ⟨h, -, hans, rfl⟩ := hadm
      have hd := hs.distinct.add (r := Serialized.assign ⟨s.next⟩ r) (by rw [hid]; exact hu) h
      refine ⟨⟨_, lists', hs.moved hn ha' hd fun n hm => ?_⟩,
        Or.inr ⟨hs.under?_eq_none_iff.mp hu, ?_⟩⟩
      · simpa [numbers, Ledger.resources, Ledger.add, hid] using hm
      · rcases hraw with ⟨hins, henters⟩ | ⟨hno, -⟩
        · exact ⟨hins, henters⟩
        · exact absurd hans (hno h)

/-- **Attempts one after another** come to the first number that is not in use. -/
theorem addWithin (k : Nat) :
    ∀ {s : SerialTable ρ} {m : Ledger ρ} {lists : Nat → List Handle} (bound : Nat)
      (granted : Nat → Bool) (r : ρ), s.Numbered m lists → s.InRange s.next → k < bound →
      (∀ j < k, s.InUse (s.turn j)) → ¬ s.InUse (s.turn k) →
      ∃ o, SerialTable.addWithin bound granted s r = .ok o ∧ s.Allots r k o
        ∧ ∃ m' lists', o.state.Numbered m' lists' := by
  -- by induction on how many numbers are passed over, from whatever table the last attempt left
  induction k with
  | zero =>
      intro s m lists bound granted r hs hn hbound hpassed hfree
      obtain ⟨bound, rfl⟩ : ∃ b, bound = b + 1 := ⟨bound - 1, by omega⟩
      obtain ⟨o, hatt, hnext, hlimit, hs', hcase⟩ := hs.attempt hn (granted 0) r
      rw [turn_zero hn] at hfree
      rcases hcase with ⟨hused, -⟩ | ⟨-, hans, henters⟩
      · exact absurd hused hfree
      · refine ⟨_, ?_, .first hn hfree hnext hlimit henters o.events, hs'⟩
        rw [SerialTable.addWithin, hatt, Checked.ok_bind, hans]
        rfl
  | succ k ih =>
      intro s m lists bound granted r hs hn hbound hpassed hfree
      obtain ⟨bound, rfl⟩ : ∃ b, bound = b + 1 := ⟨bound - 1, by omega⟩
      obtain ⟨o, hatt, hnext, hlimit, ⟨m', lists', hs'⟩, hcase⟩ := hs.attempt hn (granted 0) r
      have hturn := turn_of_moved hn hnext hlimit
      have hused := hpassed 0 (Nat.succ_pos k)
      rw [turn_zero hn] at hused
      rcases hcase with ⟨-, hans, hr⟩ | ⟨hfree', -⟩
      · have huse := inUse_of_rewired hr
        have hn' : o.state.InRange o.state.next := by
          rw [hnext, InRange, hlimit]
          exact turn_inRange hn 1
        have hpassed' : ∀ j < k, o.state.InUse (o.state.turn j) := fun j hj => by
          rw [huse, hturn]
          exact hpassed (j + 1) (Nat.succ_lt_succ hj)
        have hfree' : ¬ o.state.InUse (o.state.turn k) := by
          rwa [huse, hturn]
        obtain ⟨o', hrest, hallots, hs''⟩ := ih bound (fun i => granted (i + 1))
          (Serialized.assign ⟨s.next⟩ r) hs' hn' (by omega) hpassed' hfree'
        refine ⟨_, ?_, hallots.later hn hused hnext hlimit hr
          (o.events ++ .numberInUse s.next :: o'.events), hs''⟩
        rw [SerialTable.addWithin, hatt, Checked.ok_bind, hans]
        dsimp only
        rw [hrest]
        rfl
      · exact absurd hused hfree'

/-- **Adding** a resource turns it down if all numbers are in use and otherwise gives it the first
one that is not. -/
theorem add (hs : s.Numbered m lists) (granted : Nat → Bool) (r : ρ) :
    ((∀ n, s.InRange n → s.InUse n) ∧
        s.add granted r = .ok { state := s, answer := .ok (.exhausted r) })
      ∨ ∃ k < s.limit.toNat, ∃ o, s.add granted r = .ok o ∧ s.Allots r k o
          ∧ ∃ m' lists', o.state.Numbered m' lists' := by
  by_cases hfull : ∀ n, s.InRange n → s.InUse n
  · refine Or.inl ⟨hfull, if_pos ?_⟩
    by_cases hpos : s.limit.toNat = 0
    · omega
    · have hone : 1 ≤ s.limit := UInt32.le_iff_toNat_le.mpr (Nat.pos_of_ne_zero hpos)
      have hn := hs.counter hone
      exact le_size hn (Nat.le_refl _) fun j _ => hfull _ (turn_inRange hn j)
  · obtain ⟨n, hr, hfree⟩ : ∃ n, s.InRange n ∧ ¬ s.InUse n := by
      simpa only [not_forall, exists_prop] using hfull
    have hn := hs.counter (UInt32.le_trans hr.1 hr.2)
    have hsize := hs.size_lt hr hfree
    -- this number need not be the first one that is free, but then there is another before it
    classical
    obtain ⟨j, hj, rfl⟩ := exists_turn hn hr
    have hex : ∃ k, ¬ s.InUse (s.turn k) := ⟨j, hfree⟩
    have hle : Nat.find hex ≤ j := Nat.find_min' hex hfree
    have hpassed : ∀ i < Nat.find hex, s.InUse (s.turn i) := fun i hi =>
      not_not.mp (Nat.find_min hex hi)
    have hbound : Nat.find hex ≤ s.table.size := le_size hn (by omega) hpassed
    obtain ⟨o, hadd, hallots, hs'⟩ := addWithin (Nat.find hex) (s.table.size + 1) granted r hs hn
      (Nat.lt_succ_of_le hbound) hpassed (Nat.find_spec hex)
    refine Or.inr ⟨Nat.find hex, by omega, o, ?_, hallots, hs'⟩
    rw [SerialTable.add, if_neg (by omega)]
    exact hadd

/-- A request that leaves the counter alone leaves some of the numbers. -/
theorem perform_inside (hs : s.Numbered m lists) {q : SerialRequest ρ} {q' : Request ρ SerialId}
    (hin : q.inside? = some q') (hq : q'.KeepsIds) :
    ∃ o, s.perform q = .ok o ∧ o.state.limit = s.limit
      ∧ ∃ m' lists', o.state.Numbered m' lists' := by
  obtain ⟨o, m', hp, hstep, lists', ha'⟩ :=
    hs.agrees.perform (fun ha id => ha.finds id) hq.keepsHashable fun _ => hq
  have hd := hs.distinct.step hs.agrees.ordered hstep hq
  have hedits : Ledger.Edits (fun r r' => Resource.id r' = Resource.id r) m m' := by
    rcases hstep.cases hq with ⟨h, r, -, -, hissued, -⟩ | ⟨-, he⟩
    · cases q <;> cases hin <;> cases hissued
    · exact he
  have hsub : (numbers m').Sublist (numbers m) :=
    (hedits.ids_sublist hs.agrees.ordered).map SerialId.number
  obtain ⟨o', hp', hst, -⟩ := s.perform_inside hin hp
  refine ⟨o', hp', ?_, m', lists', ?_⟩
  · rw [hst]
  · rw [hst]
    exact ⟨ha', hd, fun n hm => hs.inRange n (hsub.subset hm), hs.counter⟩

/-- **Every request** is carried out and leaves a numbered table. -/
theorem perform (hs : s.Numbered m lists) {q : SerialRequest ρ} (hq : q.KeepsIds) :
    ∃ o, s.perform q = .ok o ∧ o.state.limit = s.limit
      ∧ ∃ m' lists', o.state.Numbered m' lists' := by
  rcases q.add_or_inside with ⟨granted, r, rfl⟩ | ⟨q', hin⟩
  · rcases hs.add granted r with ⟨-, hadd⟩ | ⟨k, -, o, hadd, hallots, hs'⟩
    · exact ⟨_, hadd, rfl, m, lists, hs⟩
    · exact ⟨o, hadd, hallots.limit, hs'⟩
  · exact hs.perform_inside hin (hq q' hin)

/-- **Every run** comes to its end and leaves a numbered table. -/
theorem run (qs : List (SerialRequest ρ)) (hqs : ∀ q ∈ qs, q.KeepsIds) :
    ∀ {s : SerialTable ρ} {m : Ledger ρ} {lists : Nat → List Handle}, s.Numbered m lists →
      ∃ s', s.run qs = .ok s' ∧ s'.limit = s.limit ∧ ∃ m' lists', s'.Numbered m' lists' := by
  induction qs with
  | nil => exact fun {s m lists} hs => ⟨s, rfl, rfl, m, lists, hs⟩
  | cons q qs ih =>
      intro s m lists hs
      obtain ⟨o, hp, hlimit₁, m₁, lists₁, hs₁⟩ := hs.perform (hqs q List.mem_cons_self)
      obtain ⟨s', hrun, hlimit, hs'⟩ := ih (fun q' hm => hqs q' (List.mem_cons_of_mem q hm)) hs₁
      exact ⟨s', (run_cons hp qs).trans hrun, hlimit.trans hlimit₁, hs'⟩

end Numbered

theorem withLimit_numbered (limit : UInt32) :
    (withLimit limit : SerialTable ρ).Numbered {} fun _ => [] where
  agrees := Table.agrees_of_empty True Table.new_atLevel rfl rfl rfl
  distinct := List.Pairwise.nil
  inRange := nofun
  counter hone := ⟨UInt32.le_refl 1, hone⟩

/-! ## Every run -/

/-- **The numbers that a serial table hands out**, in every run of requests to a fresh one that
leave the numbers of installed resources alone. The run comes to its end. No two resources carry the
same number, and all numbers that are carried or come up lie between 1 and the limit. A further
resource is turned down if all of these are in use, and then it is given back as it was, nothing is
logged, and the table and its counter are as before. Otherwise it is installed with the first
number, in the cyclic order from the counter on, that is not in use. -/
theorem run_allots (limit : UInt32) (qs : List (SerialRequest ρ))
    (hqs : ∀ q ∈ qs, q.KeepsIds) :
    ∃ s, (withLimit limit : SerialTable ρ).run qs = .ok s ∧ s.limit = limit
      ∧ (∀ h h' r r', s.table.get? h = some r → s.table.get? h' = some r' →
          Resource.id r = Resource.id r' → h = h')
      ∧ (∀ n, s.InUse n → s.InRange n)
      ∧ (1 ≤ limit → s.InRange s.next ∧ ∀ j, s.InRange (s.turn j))
      ∧ ∀ granted r,
        ((∀ n, s.InRange n → s.InUse n) →
          s.add granted r = .ok { state := s, answer := .ok (.exhausted r), events := [] })
        ∧ ∀ n, s.InRange n → ¬ s.InUse n →
          ∃ k < limit.toNat, ∃ o, s.add granted r = .ok o ∧ s.Allots r k o := by
  obtain ⟨s, hrun, hlimit, m, lists, hs⟩ := Numbered.run qs hqs (withLimit_numbered limit)
  have hlimit : s.limit = limit := hlimit
  refine ⟨s, hrun, hlimit, ?_, ?_, ?_, fun granted r => ⟨?_, ?_⟩⟩
  · intro h h' r r' hg hg' hid
    rw [hs.agrees.get] at hg hg'
    have hrow := (Ledger.mem_rows hs.agrees.ordered.handles_nodup).mpr hg
    have hrow' := (Ledger.mem_rows hs.agrees.ordered.handles_nodup).mpr hg'
    have hunder := hs.distinct.under?_eq hrow (SerialId.same_iff.mpr rfl)
    have hunder' := hs.distinct.under?_eq hrow' (SerialId.same_iff.mpr hid.symm)
    exact congrArg Prod.fst (Option.some.inj (hunder.symm.trans hunder'))
  · exact fun n hn => hs.inRange n (hs.inUse_iff.mp hn)
  · intro hone
    have hn := hs.counter (hlimit.symm ▸ hone)
    exact ⟨hn, turn_inRange hn⟩
  · intro hfull
    rcases hs.add granted r with ⟨-, hadd⟩ | ⟨k, hk, o, -, hallots, -⟩
    · exact hadd
    · have hone : 1 ≤ s.limit := UInt32.le_iff_toNat_le.mpr (Nat.one_le_of_lt hk)
      exact absurd (hfull _ (turn_inRange (hs.counter hone) k)) hallots.free
  · intro n hr hfree
    rcases hs.add granted r with ⟨hfull, -⟩ | ⟨k, hk, o, hadd, hallots, -⟩
    · exact absurd (hfull n hr) hfree
    · exact ⟨k, hlimit ▸ hk, o, hadd, hallots⟩

/-- Two numbers for three resources: the first one is handed out, taken back and comes up again. -/
def returned : List (SerialRequest (Record SerialId)) :=
  [.add (fun _ => true) ⟨.unassigned, "first"⟩, .add (fun _ => false) ⟨⟨7⟩, "second"⟩,
    .modify ⟨2⟩ fun r => { r with tag := "changed" }, .remove ⟨1⟩,
    .traverse (fun n r => (n + 1, r, if r.id = ⟨2⟩ then .keep else .remove)) 0]

theorem run_allots_returned : (∀ q ∈ returned, q.KeepsIds)
    ∧ ∃ s, (withLimit 2 : SerialTable (Record SerialId)).run returned = .ok s
      ∧ (∀ n, s.InUse n → n = 1 ∨ n = 2)
      ∧ ∀ granted r, ¬ s.InUse 1 → ∃ k < 2, ∃ o, s.add granted r = .ok o
        ∧ o.answer = .ok (.numbered ⟨s.turn k⟩) ∧ o.state.next = s.turn (k + 1)
        ∧ o.state.table.get? s.table.slots.fresh = some { r with id := ⟨s.turn k⟩ } := by
  have hkeeps : ∀ q ∈ returned, q.KeepsIds := by
    unfold returned
    simp only [List.forall_mem_cons]
    refine ⟨nofun, nofun, ?_, ?_, ?_, nofun⟩
    all_goals
      intro q' hq'
      cases hq'
    · exact fun _ => rfl
    · trivial
    · exact fun _ _ _ => rfl
  obtain ⟨s, hrun, hlimit, -, hrange, -, hadd⟩ := run_allots 2 returned hkeeps
  refine ⟨hkeeps, s, hrun, fun n hn => ?_, fun granted r hfree => ?_⟩
  · obtain ⟨hle, hge⟩ := inRange_iff.mp (hrange n hn)
    rw [hlimit, show (2 : UInt32).toNat = 2 from rfl] at hge
    rcases Nat.le_and_le_add_one_iff.mp ⟨hle, hge⟩ with h | h
    · exact Or.inl (UInt32.toNat_inj.mp h)
    · exact Or.inr (UInt32.toNat_inj.mp h)
  · have hone : s.InRange 1 := by
      rw [InRange, hlimit]
      decide
    obtain ⟨k, hk, o, ho, hallots⟩ := (hadd granted r).2 1 hone hfree
    refine ⟨k, hk, o, ho, hallots.answer, hallots.next, ?_⟩
    rw [hallots.enters.get, if_pos rfl, stamped_of_overwrites s (fun _ _ _ => rfl) k]
    rfl

end SerialTable

end ResourceIndex
