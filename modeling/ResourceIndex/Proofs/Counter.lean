import ResourceIndex.Record
import ResourceIndex.Proofs.Load
import ResourceIndex.Proofs.Numbering

set_option autoImplicit false

/-! # The counter of a serial table

The counter of a serial table moves on by one with each attempt, whether or not the number tried is
in use, and starts over after the limit. It pays no heed to the numbers that installed resources
carry, which callers may have changed into anything: these decide how many attempts a resource
needs, and nothing else.

An attempt shows. One that comes to nothing is logged, and the last one for a resource gives it its
number. So the numbers tried can be read off the exchanges of a run (`tried`), and each stretch of a
run moves the counter on by them (`SerialTable.Advances`). The main statement is
`SerialTable.run_counts`.
-/

namespace ResourceIndex

/-! ## What is logged of the counter -/

namespace Event

/-- The number of an attempt that came to nothing. -/
def retried? : Event → Option UInt32
  | numberInUse n => some n
  | _ => none

/-- The counter started over. -/
def isWrap : Event → Bool
  | counterWrapped _ => true
  | _ => false

end Event

namespace Table

variable {ρ ι : Type} [Resource ρ ι] [Identifier ι]

/-- Nothing that a table logs of an addition is about a counter. -/
theorem add_quiet {t : Table ρ} {granted : Bool} {r : ρ} {o : Outcome (Table ρ) (Admission ρ)}
    (ha : t.add granted r = .ok o) : ∀ e ∈ o.events, e.retried? = none ∧ ¬ e.isWrap := by
  obtain ⟨grown, hg, hev, -⟩ := add_cases ha
  rw [hev]
  intro e hm
  have hprov : e ∈ t.provisionEvents t.geometry.forSplit → e.retried? = none ∧ ¬ e.isWrap :=
    fun hm => by
      obtain ⟨buckets, lowMask, rfl⟩ := eq_arrayDoubled_of_mem hm
      exact ⟨rfl, nofun⟩
  rcases growIfOverfull_cases hg with ⟨-, -, ⟨-, hlog⟩ | ⟨requested, hlog⟩⟩
    | ⟨-, -, ⟨-, -, -, hlog⟩ | ⟨-, -, -, hlog⟩⟩
  all_goals rw [hlog] at hm
  · cases hm
  · obtain rfl := List.mem_singleton.mp hm
    exact ⟨rfl, nofun⟩
  · rcases List.mem_append.mp hm with hm | hm
    · exact hprov hm
    · obtain rfl := List.mem_singleton.mp hm
      exact ⟨rfl, nofun⟩
  · exact hprov hm

/-- A resource that is added where every identifier can be hashed is installed, unless there is one
already that its identifier answers to. -/
theorem Accounted.add_hashable [LawfulIdentifier ι] {t : Table ρ} (ht : t.Accounted [])
    (granted : Bool) (r : ρ) :
    ∃ o, t.add granted r = .ok o ∧ o.state.Accounted []
      ∧ ((∃ h, o.answer = .ok (.installed h))
        ∨ o.answer = .ok (.duplicate r) ∧ t.slots.Rewired o.state.slots
          ∧ ∃ h r', t.get? h = some r'
            ∧ Identifier.same (Resource.id r') (Resource.id r : ι)) := by
  obtain ⟨grown, hgrow, -⟩ := ht.grow granted
  have han : grown.answer = .ok () := by
    cases han : grown.answer with
    | ok u => rfl
    | error fault =>
        -- no split is cut short
        obtain ⟨-, h, r', -, hnone⟩ := ht.growIfOverfull_error hgrow han
        have hhash := LawfulIdentifier.hashable (Resource.id r' : ι)
        rw [hnone] at hhash
        cases hhash
  have ha := ht.growIfOverfull_ok hgrow han
  have hr := growIfOverfull_rewired hgrow
  obtain ⟨t', answer, hacc, hfound⟩ := ha.holds.accept_eq ha.level r
  refine ⟨{ state := t', answer := answer, events := grown.events }, ?_, ?_⟩
  · rw [add_eq, hgrow, Checked.ok_bind, han]
    dsimp only
    rw [hacc]
    rfl
  cases hf : grown.state.found grown.state.handlesIn (Resource.id r) with
  | error fault =>
      obtain ⟨hash, hhash⟩ :=
        Option.isSome_iff_exists.mp (LawfulIdentifier.hashable (Resource.id r : ι))
      unfold found address? at hf
      rw [hhash] at hf
      cases hf
  | ok found =>
      rw [hf] at hfound
      cases found with
      | some h =>
          obtain ⟨rfl, rfl⟩ := hfound
          obtain ⟨-, r', -, -, hget, hsame⟩ := ha.holds.reads.mem_of_found hf
          exact ⟨ha, Or.inr ⟨rfl, hr, h, r', (hr.resource h).symm.trans hget, hsame⟩⟩
      | none =>
          obtain ⟨rfl, b, -, -, hi⟩ := hfound
          exact ⟨ha.of_installs hi, Or.inl ⟨_, rfl⟩⟩

end Table

/-! ## Requests with their answers -/

namespace SerialExchange

variable {ρ : Type}

/-- The number that a resource has been given. -/
def given? : SerialExchange ρ → Option UInt32
  | ⟨.add _ _, .ok (.numbered id), _⟩ => some id.number
  | _ => none

/-- The numbers tried, one for each attempt. -/
def tried (x : SerialExchange ρ) : List UInt32 :=
  x.events.filterMap Event.retried? ++ x.given?.toList

end SerialExchange

section Logs

variable {ρ : Type}

/-- The numbers tried, one for each attempt. -/
def tried (log : List (SerialExchange ρ)) : List UInt32 := log.flatMap SerialExchange.tried

/-- The number of attempts: of resources that have been given a number and of numbers that were
logged to be in use. -/
def attempts (log : List (SerialExchange ρ)) : Nat :=
  log.countP (fun x => x.given?.isSome)
    + (log.flatMap SerialExchange.events).countP fun e => e.retried?.isSome

/-- How often the counter was logged to start over. -/
def wraps (log : List (SerialExchange ρ)) : Nat :=
  (log.flatMap SerialExchange.events).countP Event.isWrap

theorem length_tried (log : List (SerialExchange ρ)) : (tried log).length = attempts log := by
  have hcount : ∀ events : List Event, (events.filterMap Event.retried?).length
      = events.countP fun e => e.retried?.isSome := fun events => by
    rw [List.length_filterMap_eq_countP]
  induction log with
  | nil => rfl
  | cons x log ih =>
      unfold tried attempts at ih ⊢
      rw [List.flatMap_cons, List.length_append, ih, SerialExchange.tried, List.length_append,
        hcount, List.flatMap_cons, List.countP_append, List.countP_cons]
      cases x.given? <;> simp <;> omega

theorem attempts_append (log log' : List (SerialExchange ρ)) :
    attempts (log ++ log') = attempts log + attempts log' := by
  simp only [← length_tried, tried, List.flatMap_append, List.length_append]

theorem wraps_append (log log' : List (SerialExchange ρ)) :
    wraps (log ++ log') = wraps log + wraps log' := by
  simp only [wraps, List.flatMap_append, List.countP_append]

end Logs

namespace SerialTable

variable {ρ : Type} [Serialized ρ]

theorem record_cons_eq_ok {s s' : SerialTable ρ} {q : SerialRequest ρ}
    {qs : List (SerialRequest ρ)} {log : List (SerialExchange ρ)}
    (h : s.record (q :: qs) = .ok (log, s')) :
    ∃ o rest, s.perform q = .ok o ∧ o.state.record qs = .ok (rest, s')
      ∧ log = ⟨q, o.answer, o.events⟩ :: rest := by
  rw [record] at h
  cases hp : s.perform q with
  | error c => rw [hp] at h; cases h
  | ok o =>
      rw [hp] at h
      dsimp only at h
      cases hr : o.state.record qs with
      | error c => rw [hr] at h; cases h
      | ok p =>
          rw [hr] at h
          cases h
          exact ⟨o, p.1, rfl, hr, rfl⟩

/-- What is left of a record is a record of its own. -/
theorem record_append {before after : List (SerialExchange ρ)} {s' : SerialTable ρ}
    {qs : List (SerialRequest ρ)} :
    ∀ {s : SerialTable ρ}, s.record qs = .ok (before ++ after, s') →
      ∃ qs₁ qs₂ s₁, qs = qs₁ ++ qs₂ ∧ s.record qs₁ = .ok (before, s₁)
        ∧ s₁.record qs₂ = .ok (after, s') := by
  induction before generalizing qs with
  | nil => exact fun {s} h => ⟨[], qs, s, rfl, rfl, h⟩
  | cons x before ih =>
      intro s h
      cases qs with
      | nil => cases h
      | cons q qs =>
          obtain ⟨o, rest, hp, hrest, hlog⟩ := record_cons_eq_ok h
          obtain ⟨rfl, rfl⟩ := List.cons.inj hlog
          obtain ⟨qs₁, qs₂, s₁, rfl, h₁, h₂⟩ := ih hrest
          refine ⟨q :: qs₁, qs₂, s₁, rfl, ?_, h₂⟩
          rw [record, hp]
          dsimp only
          rw [h₁]

/-! ## How the counter moves -/

/-- From `s` to `s'` the counter moves by the numbers `tried`, one after another, and starts over
`count` times: after each attempt at the limit. -/
structure Advances (s : SerialTable ρ) (tried : List UInt32) (count : Nat) (s' : SerialTable ρ) :
    Prop where
  limit : s'.limit = s.limit
  next : s'.next = s.turn tried.length
  tried_eq : tried = (List.range tried.length).map s.turn
  count_eq : count = (List.range tried.length).countP fun j => s.limit ≤ s.turn j

namespace Advances

omit [Serialized ρ]

variable {s s₁ s' : SerialTable ρ} {ns ns' : List UInt32} {count count' : Nat}
  (hn : s.InRange s.next)

include hn

theorem refl : s.Advances [] 0 s := ⟨rfl, (turn_zero hn).symm, rfl, rfl⟩

/-- One attempt. -/
theorem single (hnext : s'.next = s.turn 1) (hlimit : s'.limit = s.limit) :
    s.Advances [s.next] (if s.limit ≤ s.next then 1 else 0) s' where
  limit := hlimit
  next := hnext
  tried_eq := by
    rw [← turn_zero hn]
    rfl
  count_eq := by
    rw [← turn_zero hn]
    simp [List.range_succ, List.countP_cons]

theorem inRange (ha : s.Advances ns count s') : s'.InRange s'.next := by
  rw [ha.next, InRange, ha.limit]
  exact turn_inRange hn _

theorem trans (ha : s.Advances ns count s₁) (hb : s₁.Advances ns' count' s') :
    s.Advances (ns ++ ns') (count + count') s' := by
  have hturn := turn_of_advanced hn ha.next ha.limit
  refine ⟨hb.limit.trans ha.limit, ?_, ?_, ?_⟩
  · rw [hb.next, hturn, List.length_append]
  · have hns' : ns' = (List.range ns'.length).map fun j => s.turn (ns.length + j) := by
      rw [← funext hturn]
      exact hb.tried_eq
    rw [List.length_append, List.range_add, List.map_append, List.map_map, ← ha.tried_eq]
    exact congrArg (ns ++ ·) hns'
  · have hcount' : count' =
        (List.range ns'.length).countP fun j => s.limit ≤ s.turn (ns.length + j) := by
      rw [hb.count_eq, ha.limit]
      simp only [hturn]
    rw [List.length_append, List.range_add, List.countP_append, ← ha.count_eq, hcount',
      List.countP_map]
    rfl

end Advances

/-! ## Attempts -/

/-- The table inside has lost nothing, and the counter is at a number that is handed out. -/
structure Steady (s : SerialTable ρ) : Prop where
  table : s.table.Accounted []
  counter : 1 ≤ s.limit → s.InRange s.next

theorem withLimit_steady (limit : UInt32) : (withLimit limit : SerialTable ρ).Steady where
  table := Table.accounted_new
  counter hone := ⟨UInt32.le_refl 1, hone⟩

namespace Steady

variable {s : SerialTable ρ}

/-- What the counter has moved on from is steady if its table is. -/
theorem of_advances (hn : s.InRange s.next) {s' : SerialTable ρ} {ns : List UInt32} {count : Nat}
    (ht : s'.table.Accounted []) (ha : s.Advances ns count s') : s'.Steady where
  table := ht
  counter _ := ha.inRange hn

/-- **One attempt** moves the counter on by one. If it comes to nothing, the number is in use, and
every handle goes on naming what it did. -/
theorem attempt (hs : s.Steady) (hn : s.InRange s.next) (granted : Bool) (r : ρ) :
    ∃ o, s.attempt granted r = .ok o ∧ o.state.table.Accounted []
      ∧ o.events.filterMap Event.retried? = []
      ∧ s.Advances [s.next] (o.events.countP Event.isWrap) o.state
      ∧ ((∃ h, o.answer = .ok (.installed h))
        ∨ o.answer = .ok (.duplicate (Serialized.assign ⟨s.next⟩ r)) ∧ s.InUse s.next
          ∧ s.table.slots.Rewired o.state.table.slots) := by
  obtain ⟨o, hadd, ha, hcase⟩ := hs.table.add_hashable granted (Serialized.assign ⟨s.next⟩ r)
  have hquiet := Table.add_quiet hadd
  have hretried : o.events.filterMap Event.retried? = [] :=
    List.filterMap_eq_nil_iff.mpr fun e hm => (hquiet e hm).1
  have hwraps : o.events.countP Event.isWrap = 0 :=
    List.countP_eq_zero.mpr fun e hm => (hquiet e hm).2
  refine ⟨_, by rw [SerialTable.attempt, hadd]; rfl, ha, ?_, ?_, hcase.imp_right ?_⟩
  · rw [List.filterMap_append, hretried]
    unfold wrapEvents
    split <;> rfl
  · have hcount : (wrapEvents s.limit s.next ++ o.events).countP Event.isWrap
        = if s.limit ≤ s.next then 1 else 0 := by
      rw [List.countP_append, hwraps]
      unfold wrapEvents
      split <;> rfl
    rw [hcount]
    exact .single hn (successor_next hn) rfl
  · rintro ⟨hans, hr, h, r', hget, hsame⟩
    have hid : Resource.id r' = (⟨s.next⟩ : SerialId) :=
      (SerialId.same_iff.mp hsame).trans (Serialized.id_assign _ _)
    exact ⟨hans, ⟨h, r', hget, hid⟩, hr⟩

/-- **Attempts one after another** move the counter on until one is not in vain, or all numbers
tried are in use. -/
theorem addWithin (bound : Nat) :
    ∀ {s : SerialTable ρ} (granted : Nat → Bool) (r : ρ), s.Steady → s.InRange s.next →
      (∃ o passed n, SerialTable.addWithin bound granted s r = .ok o
          ∧ o.state.table.Accounted [] ∧ o.answer = .ok (.numbered ⟨n⟩) ∧ passed.length < bound
          ∧ o.events.filterMap Event.retried? = passed
          ∧ s.Advances (passed ++ [n]) (o.events.countP Event.isWrap) o.state)
        ∨ ∀ j < bound, s.InUse (s.turn j) := by
  induction bound with
  | zero => exact fun _ _ _ _ => Or.inr nofun
  | succ bound ih =>
      intro s granted r hs hn
      obtain ⟨o, hatt, ha, hretried, hadv, ⟨h, hans⟩ | ⟨hans, hused, hr⟩⟩ :=
        hs.attempt hn (granted 0) r
      · refine Or.inl ⟨{ state := o.state, answer := .ok (.numbered ⟨s.next⟩), events := o.events },
          [], s.next, ?_, ha, rfl, Nat.succ_pos bound, hretried, hadv⟩
        rw [SerialTable.addWithin, hatt, Checked.ok_bind, hans]
        rfl
      · have hturn := turn_of_moved hn hadv.next hadv.limit
        have hs' : o.state.Steady := .of_advances hn ha hadv
        rcases ih (fun i => granted (i + 1)) (Serialized.assign ⟨s.next⟩ r) hs' (hadv.inRange hn)
          with ⟨o', passed, n, hrest, ha', hans', hlt, hretried', hadv'⟩ | hall
        · refine Or.inl ⟨{ o' with events := o.events ++ .numberInUse s.next :: o'.events },
            s.next :: passed, n, ?_, ha', hans', Nat.succ_lt_succ hlt, ?_, ?_⟩
          · rw [SerialTable.addWithin, hatt, Checked.ok_bind, hans]
            dsimp only
            rw [hrest]
            rfl
          · rw [List.filterMap_append, hretried, List.filterMap_cons, hretried']
            rfl
          · have hboth := hadv.trans hn hadv'
            rw [List.countP_append, List.countP_cons]
            exact hboth
        · refine Or.inr fun j hj => ?_
          cases j with
          | zero => rwa [turn_zero hn]
          | succ j =>
              rw [← hturn, ← inUse_of_rewired hr]
              exact hall j (Nat.lt_of_succ_lt_succ hj)

/-- **Adding** a resource turns it down if there are as many resources as numbers, and otherwise it
gives it the number of the last of its attempts, which are no more than there are resources and one
more. -/
theorem add (hs : s.Steady) (granted : Nat → Bool) (r : ρ) :
    (s.limit.toNat ≤ s.table.size
        ∧ s.add granted r = .ok { state := s, answer := .ok (.exhausted r) })
      ∨ ∃ o passed n, s.add granted r = .ok o ∧ s.InRange s.next ∧ o.state.table.Accounted []
        ∧ o.answer = .ok (.numbered ⟨n⟩) ∧ passed.length ≤ s.table.size
        ∧ o.events.filterMap Event.retried? = passed
        ∧ s.Advances (passed ++ [n]) (o.events.countP Event.isWrap) o.state := by
  by_cases hfull : s.limit.toNat ≤ s.table.size
  · exact Or.inl ⟨hfull, if_pos hfull⟩
  · have hn : s.InRange s.next :=
      hs.counter (UInt32.le_iff_toNat_le.mpr (Nat.one_le_of_lt (Nat.lt_of_not_le hfull)))
    right
    rcases addWithin (s.table.size + 1) granted r hs hn with
      ⟨o, passed, n, hadd, ha, hans, hlt, hretried, hadv⟩ | hall
    · exact ⟨o, passed, n, (if_neg hfull).trans hadd, hn, ha, hans, Nat.le_of_lt_succ hlt,
        hretried, hadv⟩
    · -- there are not as many resources to have all these numbers
      have hle := le_size hn (Nat.lt_of_not_le hfull) hall
      omega

/-- **Every request** is carried out and leaves a steady table, and the counter moves by the numbers
tried. -/
theorem perform (hs : s.Steady) (q : SerialRequest ρ) :
    ∃ o, s.perform q = .ok o ∧ o.state.Steady ∧ o.state.limit = s.limit
      ∧ (1 ≤ s.limit → s.Advances (SerialExchange.tried ⟨q, o.answer, o.events⟩)
          (o.events.countP Event.isWrap) o.state) := by
  rcases q.add_or_inside with ⟨granted, r, rfl⟩ | ⟨q', hin⟩
  · rcases hs.add granted r with ⟨-, hadd⟩
      | ⟨⟨state, answer, events⟩, passed, n, hadd, hn, ha, rfl, -, hretried, hadv⟩
    · exact ⟨_, hadd, hs, rfl, fun hone => .refl (hs.counter hone)⟩
    · refine ⟨_, hadd, .of_advances hn ha hadv, hadv.limit, fun _ => ?_⟩
      unfold SerialExchange.tried
      dsimp only
      rw [hretried]
      exact hadv
  · obtain ⟨o, hp, ha, -⟩ := hs.table.perform q'.spares_nil
    have hne : ∀ granted r, q' ≠ .add granted r := fun granted r he => by
      cases q <;> cases hin <;> cases he
    rw [Table.castOff_of_ne_add hne] at ha
    obtain ⟨o', hp', hstate, hevents, -⟩ := s.perform_inside hin hp
    have hgiven : SerialExchange.given? ⟨q, o'.answer, o'.events⟩ = none := by
      cases q <;> cases hin <;> rfl
    have hnone : o'.events = [] := hevents.trans (Table.perform_quiet hne hp)
    refine ⟨o', hp', by rw [hstate]; exact ⟨ha, hs.counter⟩, by rw [hstate], fun hone => ?_⟩
    unfold SerialExchange.tried
    rw [hgiven, hstate]
    dsimp only
    rw [hnone]
    have hn := hs.counter hone
    exact ⟨rfl, (turn_zero hn).symm, rfl, rfl⟩

/-- **Every run** comes to its end and leaves a steady table, and the counter moves by the numbers
tried. -/
theorem record (qs : List (SerialRequest ρ)) :
    ∀ {s : SerialTable ρ}, s.Steady → ∃ log s', s.record qs = .ok (log, s') ∧ s'.Steady
      ∧ s'.limit = s.limit ∧ (1 ≤ s.limit → s.Advances (tried log) (wraps log) s') := by
  induction qs with
  | nil => exact fun {s} hs => ⟨[], s, rfl, hs, rfl, fun hone => .refl (hs.counter hone)⟩
  | cons q qs ih =>
      intro s hs
      obtain ⟨o, hp, hs₁, hlimit₁, hadv₁⟩ := hs.perform q
      obtain ⟨log, s', hr, hs', hlimit, hadv⟩ := ih hs₁
      refine ⟨⟨q, o.answer, o.events⟩ :: log, s', ?_, hs', hlimit.trans hlimit₁, fun hone => ?_⟩
      · rw [SerialTable.record, hp]
        dsimp only
        rw [hr]
      · have hboth := (hadv₁ hone).trans (hs.counter hone) (hadv (hlimit₁.symm ▸ hone))
        unfold tried wraps at hboth ⊢
        rw [List.flatMap_cons, List.flatMap_cons, List.countP_append]
        exact hboth

end Steady

/-! ## From the first number on -/

/-- Among one turn more, the counter starts over once more if that turn is the last of a round. -/
theorem succ_div_limit {limit : Nat} (hpos : 0 < limit) (t : Nat) :
    (t + 1) / limit = t / limit + if t % limit + 1 = limit then 1 else 0 := by
  have hlt := Nat.mod_lt t hpos
  have hdm := Nat.div_add_mod t limit
  split
  · rename_i hlast
    have hnext : t + 1 = limit * (t / limit + 1) := by
      rw [Nat.mul_add, Nat.mul_one]
      omega
    rw [hnext, Nat.mul_div_cancel_left _ hpos]
  · have hnext : t + 1 = limit * (t / limit) + (t % limit + 1) := by omega
    rw [hnext, Nat.mul_add_div hpos, Nat.div_eq_of_lt (show t % limit + 1 < limit by omega)]

/-- Turns that come to the same number are a round apart. -/
theorem limit_le_of_mod_eq {limit t₁ t₂ : Nat} (hlt : t₁ < t₂)
    (hmod : t₁ % limit = t₂ % limit) : limit ≤ t₂ - t₁ :=
  Nat.le_of_dvd (Nat.sub_pos_of_lt hlt) ((Nat.modEq_iff_dvd' (Nat.le_of_lt hlt)).mp hmod)

/-- Among turns of one round the later one comes to the greater number. -/
theorem mod_lt_of_div_le {limit t₁ t₂ : Nat} (hlt : t₁ < t₂)
    (hround : t₂ / limit ≤ t₁ / limit) : t₁ % limit < t₂ % limit := by
  have hsame : t₂ / limit = t₁ / limit :=
    Nat.le_antisymm hround (Nat.div_le_div_right (Nat.le_of_lt hlt))
  have hdm₁ := Nat.div_add_mod t₁ limit
  have hdm₂ := Nat.div_add_mod t₂ limit
  rw [hsame] at hdm₂
  omega

/-- What the counter has moved by from the first number on. -/
theorem Advances.from_first {limit : UInt32} (hone : 1 ≤ limit) {ns : List UInt32} {count : Nat}
    {s : SerialTable ρ} (ha : (withLimit limit : SerialTable ρ).Advances ns count s) :
    s.next.toNat = 1 + ns.length % limit.toNat ∧ count = ns.length / limit.toNat
      ∧ ns.map UInt32.toNat = (List.range ns.length).map fun t => 1 + t % limit.toNat := by
  have hn := (withLimit_steady (ρ := ρ) limit).counter hone
  have hpos : 0 < limit.toNat := limit_pos hn
  have hturn : ∀ j, ((withLimit limit : SerialTable ρ).turn j).toNat = 1 + j % limit.toNat :=
    fun j => by
      rw [toNat_turn hn, show (withLimit limit : SerialTable ρ).next.toNat = 1 from rfl]
      simp [withLimit, ofTable]
  refine ⟨by rw [ha.next, hturn], ?_, ?_⟩
  · have hlast : ∀ j, decide ((withLimit limit : SerialTable ρ).limit
        ≤ (withLimit limit : SerialTable ρ).turn j) = decide (j % limit.toNat + 1 = limit.toNat) :=
      fun j => by
        have hlt := Nat.mod_lt j hpos
        rw [decide_eq_decide, UInt32.le_iff_toNat_le, hturn]
        show limit.toNat ≤ _ ↔ _
        omega
    rw [ha.count_eq]
    simp only [hlast]
    induction ns.length with
    | zero => exact (Nat.zero_div _).symm
    | succ k ih =>
        rw [List.range_succ, List.countP_append, ih, succ_div_limit hpos, List.countP_singleton]
        simp only [decide_eq_true_eq]
  · conv_lhs => rw [ha.tried_eq]
    rw [List.map_map]
    exact List.map_congr_left fun j _ => hturn j

/-- The number that a resource has been given is that of the last attempt so far, and the counter
has started over after each round completed before, and with this attempt if it is at the limit. -/
theorem given_eq {limit : UInt32} (hone : 1 ≤ limit) {qs : List (SerialRequest ρ)}
    {log : List (SerialExchange ρ)} {x : SerialExchange ρ} {s : SerialTable ρ}
    (hr : (withLimit limit : SerialTable ρ).record qs = .ok (log ++ [x], s)) {n : UInt32}
    (hx : x.given? = some n) :
    ∃ t, attempts (log ++ [x]) = t + 1 ∧ n.toNat = 1 + t % limit.toNat
      ∧ wraps (log ++ [x]) = t / limit.toNat + if n = limit then 1 else 0 := by
  obtain ⟨log', s', hr', -, -, hadv⟩ := (withLimit_steady (ρ := ρ) limit).record qs
  obtain ⟨rfl, rfl⟩ := Prod.mk.inj (Except.ok.inj (hr'.symm.trans hr))
  obtain ⟨-, hwraps, htried⟩ := (hadv hone).from_first hone
  have hlast : tried (log ++ [x]) =
      (tried log ++ x.events.filterMap Event.retried?) ++ [n] := by
    unfold tried
    rw [List.flatMap_append, List.flatMap_singleton, SerialExchange.tried, hx, List.append_assoc]
    rfl
  rw [length_tried] at hwraps htried
  have hlength : attempts (log ++ [x])
      = (tried log ++ x.events.filterMap Event.retried?).length + 1 := by
    rw [← length_tried, hlast, List.length_append]
    rfl
  generalize (tried log ++ x.events.filterMap Event.retried?).length = t at hlength
  have hn : n.toNat = 1 + t % limit.toNat := by
    rw [hlast, hlength, List.range_succ] at htried
    simp only [List.map_append, List.map_singleton] at htried
    have hsingle := (List.append_inj' htried rfl).2
    exact (List.cons.inj hsingle).1
  have hlimit : t % limit.toNat + 1 = limit.toNat ↔ n = limit := by
    rw [← UInt32.toNat_inj, hn, Nat.add_comm]
  refine ⟨t, hlength, hn, ?_⟩
  have hpos : 0 < limit.toNat := limit_pos ((withLimit_steady (ρ := ρ) limit).counter hone)
  rw [hwraps, hlength, succ_div_limit hpos]
  simp only [hlimit]

/-- Two resources are given their numbers at attempts `t₁` and `t₂`. In between the counter starts
over once for each round completed, and with an attempt at the limit. -/
theorem given_later {limit : UInt32} (hone : 1 ≤ limit) {qs : List (SerialRequest ρ)}
    {before between after : List (SerialExchange ρ)} {x y : SerialExchange ρ} {s : SerialTable ρ}
    (hr : (withLimit limit : SerialTable ρ).record qs =
      .ok (before ++ x :: (between ++ y :: after), s)) {n n' : UInt32}
    (hx : x.given? = some n) (hy : y.given? = some n') :
    ∃ t₁ t₂, t₁ < t₂ ∧ attempts (between ++ [y]) = t₂ - t₁
      ∧ n.toNat = 1 + t₁ % limit.toNat ∧ n'.toNat = 1 + t₂ % limit.toNat
      ∧ t₁ / limit.toNat + (if n = limit then 1 else 0) + wraps (between ++ [y])
        = t₂ / limit.toNat + if n' = limit then 1 else 0 := by
  -- the run up to the one resource and up to the other
  have hsplit₁ : before ++ x :: (between ++ y :: after) =
      (before ++ [x]) ++ (between ++ y :: after) := by simp
  have hsplit₂ : before ++ x :: (between ++ y :: after) =
      ((before ++ [x] ++ between) ++ [y]) ++ after := by simp
  obtain ⟨qs₁, -, s₁, -, hr₁, -⟩ := record_append (hsplit₁ ▸ hr)
  obtain ⟨qs₂, -, s₂, -, hr₂, -⟩ := record_append (hsplit₂ ▸ hr)
  obtain ⟨t₁, ht₁, hn₁, hw₁⟩ := given_eq hone hr₁ hx
  obtain ⟨t₂, ht₂, hn₂, hw₂⟩ := given_eq hone hr₂ hy
  rw [List.append_assoc (before ++ [x]), attempts_append, ht₁] at ht₂
  rw [List.append_assoc (before ++ [x]), wraps_append, hw₁] at hw₂
  have hlater : 0 < attempts (between ++ [y]) := by
    rw [attempts_append]
    simp [attempts, hy]
  exact ⟨t₁, t₂, by omega, by omega, hn₁, hn₂, hw₂⟩

/-! ## Every run -/

/-- **How the counter moves**, in every run of requests to a fresh table of a limit that is not
zero, whatever numbers callers give to installed resources. The run comes to its end. The attempts
have gone through the numbers from 1 to the limit, round after round: that is where the counter is,
and it has started over as often as rounds have been completed. So two resources are given the same
number only if the attempts from the one to the other make up a round at least, and the later one is
given a greater number unless the counter has started over between them. (It starts over with the
attempt at the limit.) -/
theorem run_counts {limit : UInt32} (hone : 1 ≤ limit) (qs : List (SerialRequest ρ)) :
    ∃ log s, (withLimit limit : SerialTable ρ).record qs = .ok (log, s)
      ∧ s.next.toNat = 1 + attempts log % limit.toNat
      ∧ wraps log = attempts log / limit.toNat
      ∧ (tried log).map UInt32.toNat =
          (List.range (attempts log)).map (fun t => 1 + t % limit.toNat)
      ∧ ∀ before x between y after n n', log = before ++ x :: (between ++ y :: after) →
          x.given? = some n → y.given? = some n' →
            (n = n' → limit.toNat ≤ attempts (between ++ [y]))
              ∧ (n ≠ limit → wraps (between ++ [y]) ≤ (if n' = limit then 1 else 0) → n < n') := by
  obtain ⟨log, s, hr, -, -, hadv⟩ := (withLimit_steady (ρ := ρ) limit).record qs
  obtain ⟨hnext, hwraps, htried⟩ := (hadv hone).from_first hone
  rw [length_tried] at hnext hwraps htried
  refine ⟨log, s, hr, hnext, hwraps, htried, ?_⟩
  intro before x between y after n n' hlog hx hy
  obtain ⟨t₁, t₂, hlt, hattempts, hn, hn', hrounds⟩ := given_later hone (hlog ▸ hr) hx hy
  refine ⟨fun heq => ?_, fun hne hfew => ?_⟩
  · rw [hattempts]
    refine limit_le_of_mod_eq hlt ?_
    rw [heq] at hn
    omega
  · rw [if_neg hne] at hrounds
    have hmod : t₁ % limit.toNat < t₂ % limit.toNat := mod_lt_of_div_le hlt (by omega)
    rw [UInt32.lt_iff_toNat_lt, hn, hn']
    exact Nat.add_lt_add_left hmod 1

/-- The second resource is given a number out of range, and its own number comes up again. -/
def renumbered : List (SerialRequest (Record SerialId)) :=
  [.add (fun _ => true) ⟨.unassigned, "first"⟩, .add (fun _ => true) ⟨.unassigned, "second"⟩,
    .modifyHandle ⟨1⟩ fun r => { r with id := ⟨7⟩ },
    .add (fun _ => true) ⟨.unassigned, "third"⟩, .remove ⟨3⟩,
    .add (fun _ => true) ⟨.unassigned, "fourth"⟩]

/-- Of three numbers the first one is tried in vain when it comes up again. -/
theorem run_counts_renumbered : (1 : UInt32) ≤ 3 ∧ ∃ log s,
    (withLimit 3 : SerialTable (Record SerialId)).record renumbered = .ok (log, s)
      ∧ tried log = [1, 2, 3, 1, 2] ∧ log.filterMap SerialExchange.given? = [1, 2, 3, 2]
      ∧ s.next.toNat = 1 + 5 % 3 ∧ wraps log = 5 / 3
      ∧ ∀ before x between y after, log = before ++ x :: (between ++ y :: after) →
          x.given? = some 2 → y.given? = some 2 → 3 ≤ attempts (between ++ [y]) := by
  have hone : (1 : UInt32) ≤ 3 := by decide
  obtain ⟨log, s, hr, hnext, hwraps, -, hpairs⟩ := run_counts hone renumbered
  have hseen : ((withLimit 3 : SerialTable (Record SerialId)).record renumbered).map
      (fun p => (tried p.1, p.1.filterMap SerialExchange.given?)) =
      .ok ([1, 2, 3, 1, 2], [1, 2, 3, 2]) := by decide +kernel
  rw [hr] at hseen
  obtain ⟨htried, hgiven⟩ := Prod.mk.inj (Except.ok.inj hseen)
  have hattempts : attempts log = 5 := by
    rw [← length_tried]
    exact congrArg List.length htried
  rw [hattempts] at hnext hwraps
  refine ⟨hone, log, s, hr, htried, hgiven, hnext, hwraps, ?_⟩
  intro before x between y after hlog hx hy
  exact (hpairs before x between y after 2 2 hlog hx hy).1 rfl

end SerialTable

end ResourceIndex
