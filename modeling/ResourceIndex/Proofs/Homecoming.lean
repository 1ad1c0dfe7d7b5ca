import ResourceIndex.Proofs.Partition
import ResourceIndex.Proofs.Safety

set_option autoImplicit false

/-! # How growth brings resources home

A resource is *at home* when it is in the bucket that its identifier, as it now is, belongs in
(`Table.AtHome`). Changing an identifier in place may leave its resource in any other bucket, and
only the split of this bucket moves it. From there it goes home, since a split hands on each handle
by its hash as it now is; and whatever is at home before a split is at home after it.

So it is enough to know which buckets are split. As the number of buckets grows from `n` to `3 * n`,
each of the first `n` is split at least once (`exists_splitIndex`), and the buckets that are new have
no others in them than those that belong there. The main statement is `Session.run_rehouses`.
-/

namespace ResourceIndex

namespace Table

/-- **The turn of every bucket comes** before there are three times as many. -/
theorem exists_splitIndex {n i : Nat} (hi : i < n) :
    ∃ c, n ≤ c ∧ c < 3 * n ∧ splitIndex c = i := by
  -- the first generation in which the turn of bucket `i` comes and is not over yet
  have hgen : ∃ j, i < 2 ^ j ∧ n ≤ 2 ^ j + i :=
    ⟨n, Nat.lt_trans hi Nat.lt_two_pow_self, Nat.le_add_right_of_le Nat.lt_two_pow_self.le⟩
  obtain ⟨hlt, hle⟩ := Nat.find_spec hgen
  have hleast := fun m (hm : m < Nat.find hgen) => Nat.find_min hgen hm
  generalize Nat.find hgen = j at hlt hle hleast
  have hlog : Nat.log2 (2 ^ j + i) = j := by
    have hp : 2 ^ (j + 1) = 2 ^ j + 2 ^ j := Nat.two_pow_succ j
    exact (Nat.log2_eq_iff (by omega)).mpr ⟨Nat.le_add_right _ _, by omega⟩
  refine ⟨2 ^ j + i, hle, ?_, by rw [splitIndex, hlog, Nat.add_sub_cancel_left]⟩
  cases j with
  | zero => omega
  | succ j =>
      -- in the generation before, it was over, or there was no such bucket to be split
      have hp : 2 ^ (j + 1) = 2 ^ j + 2 ^ j := Nat.two_pow_succ j
      have hbefore := hleast j (Nat.lt_succ_self j)
      omega

variable {ρ ι : Type} [Resource ρ ι]

/-- No resource of `t` that is there in `t'` has another identifier in it. -/
def SameIds (t t' : Table ρ) : Prop :=
  ∀ h r r', t.get? h = some r → t'.get? h = some r' → Resource.id r' = Resource.id r

theorem SameIds.refl (t : Table ρ) : t.SameIds t := fun h r r' hr hr' => by
  rw [Option.some.inj (hr.symm.trans hr')]

variable [Identifier ι]

/-- The resource under a handle is in the bucket that its identifier belongs in. -/
def AtHome (t : Table ρ) (h : Handle) : Prop := ∃ i, h ∈ t.handlesIn i ∧ t.owner? h = some i

/-- What is in a bucket of `t'` belongs there, unless it was in this bucket of `t`, did not belong
there either, and the bucket has not been split on the way from `t` to `t'`. -/
def Rehouses (t t' : Table ρ) : Prop :=
  ∀ i, ∀ h ∈ t'.handlesIn i, t'.owner? h = some i
    ∨ (h ∈ t.handlesIn i ∧ t.owner? h ≠ some i
      ∧ ∀ c, t.buckets.size ≤ c → c < t'.buckets.size → splitIndex c ≠ i)

namespace Rehouses

variable {t t' t'' : Table ρ}

theorem refl (t : Table ρ) : t.Rehouses t := fun i h hm => by
  by_cases ho : t.owner? h = some i
  · exact Or.inl ho
  · exact Or.inr ⟨hm, ho, fun c hle hlt => absurd hlt (Nat.not_lt.mpr hle)⟩

theorem trans (h₁ : t.Rehouses t') (h₂ : t'.Rehouses t'') : t.Rehouses t'' := by
  intro i h hm
  rcases h₂ i h hm with ho | ⟨hm', hne', hlater⟩
  · exact Or.inl ho
  rcases h₁ i h hm' with ho' | ⟨hm₀, hne, hearlier⟩
  · exact absurd ho' hne'
  · refine Or.inr ⟨hm₀, hne, fun c hle hlt => ?_⟩
    rcases Nat.lt_or_ge c t'.buckets.size with hc | hc
    · exact hearlier c hle hc
    · exact hlater c hc hlt

/-- What was at home is at home, if it is in a bucket. -/
theorem atHome (hr : t.Rehouses t') (ht : t.Holds t.handlesIn) {h : Handle} (hh : t.AtHome h)
    {j : Nat} (hm : h ∈ t'.handlesIn j) : t'.AtHome h := by
  obtain ⟨i, hi, ho⟩ := hh
  refine ⟨j, hm, (hr j h hm).resolve_right ?_⟩
  rintro ⟨hj, hne, -⟩
  rw [ht.eq_of_mem hj hi] at hne
  exact hne ho

/-- When there are three times as many buckets as there were, everything in them is at home. -/
theorem owner_eq (hr : t.Rehouses t') (ht : t.Holds t.handlesIn)
    (hsize : 3 * t.buckets.size ≤ t'.buckets.size) {i : Nat} {h : Handle}
    (hm : h ∈ t'.handlesIn i) : t'.owner? h = some i := by
  refine (hr i h hm).resolve_right ?_
  rintro ⟨hi, -, hno⟩
  obtain ⟨c, hle, hlt, hc⟩ := exists_splitIndex (ht.lt_size hi)
  exact hno c hle (Nat.lt_of_lt_of_le hlt hsize) hc

end Rehouses

/-! ## A step -/

section Steps

variable {t t' : Table ρ}

theorem SameIds.owner? (hs : t.SameIds t') (hg : SameGrowth t t') {h : Handle}
    (hl : (t.get? h).isSome) (hl' : (t'.get? h).isSome) : t'.owner? h = t.owner? h := by
  obtain ⟨r, hr⟩ := Option.isSome_iff_exists.mp hl
  obtain ⟨r', hr'⟩ := Option.isSome_iff_exists.mp hl'
  show (t'.get? h).bind _ = (t.get? h).bind _
  rw [hr, hr', Option.bind_some, Option.bind_some, hs h r r' hr hr', hg.geometry]

/-- Taking out resources moves none of the others. -/
theorem Prunes.rehouses (hp : t.Prunes t') (hs : t.SameIds t') : t.Rehouses t' := by
  intro i h hm
  rw [hp.handlesIn, List.mem_filter] at hm
  obtain ⟨hm, hl⟩ := hm
  rw [hs.owner? hp.growth (hp.live h hl) hl, hp.growth.buckets]
  exact Rehouses.refl t i h hm

/-- **A split** leaves everything where it was, but for the bucket split, and what it hands on goes
home. -/
theorem Partitions.rehouses (hp : t.Partitions t') (ht : t.Holds t.handlesIn) :
    t.Rehouses t' := by
  intro i h hm
  have hlist := hp.handlesIn i
  rw [hlist, List.mem_append] at hm
  rcases hm with hm | hm
  · split at hm
    · cases hm
    rename_i hne
    by_cases ho : t.owner? h = some i
    · -- it is at home in `t'`, and cannot be in two buckets
      obtain ⟨j, hj, ho'⟩ := hp.placed i h hm ho
      rw [hp.handlesIn, List.mem_append] at hj
      rcases hj with hj | hj
      · split at hj
        · cases hj
        rw [ht.eq_of_mem hm hj]
        exact Or.inl ho'
      · exact absurd (ht.eq_of_mem hm (List.mem_filter.mp hj).1) hne
    · refine Or.inr ⟨hm, ho, fun c hle hlt => ?_⟩
      rw [hp.buckets] at hlt
      obtain rfl : c = t.buckets.size := by omega
      exact fun hc => hne hc.symm
  · exact Or.inl (by simpa using (List.mem_filter.mp hm).2)

/-- A resource is installed where it belongs. -/
theorem Installs.rehouses {b : Nat} {r : ρ} (hi : t.Installs t.handlesIn b r t')
    (hb : t.address? (Resource.id r) = some b) (ht : t.Holds t.handlesIn) : t.Rehouses t' := by
  have hold : ∀ {i h}, h ∈ t.handlesIn i → t'.owner? h = some i
      ∨ (h ∈ t.handlesIn i ∧ t.owner? h ≠ some i
        ∧ ∀ c, t.buckets.size ≤ c → c < t'.buckets.size → splitIndex c ≠ i) := by
    intro i h hm
    have hne : h ≠ t.slots.fresh := fun he => ht.not_mem_fresh i (he ▸ hm)
    rw [hi.growth.owner? (by rw [hi.get, if_neg hne]), hi.growth.buckets]
    exact Rehouses.refl t i h hm
  intro i h hm
  rw [hi.holds.handlesIn_eq] at hm
  by_cases hib : i = b
  · subst hib
    rw [Function.update_self, List.mem_append, List.mem_singleton] at hm
    rcases hm with hm | rfl
    · exact hold hm
    · left
      show (t'.get? t.slots.fresh).bind _ = _
      rw [hi.get, if_pos rfl, hi.growth.geometry]
      exact hb
  · rw [Function.update_of_ne hib] at hm
    exact hold hm

/-- An addition changes no resource that is there. -/
theorem add_sameIds {granted : Bool} {r : ρ} {o : Outcome (Table ρ) (Admission ρ)}
    (hadd : t.add granted r = .ok o) : t.SameIds o.state := by
  have hold : ∀ h r₁, t.get? h = some r₁ → o.state.get? h = some r₁ := by
    intro h r₁ hr
    rcases add_enters hadd with ⟨-, he⟩ | ⟨-, hw⟩
    · have hne : h ≠ t.slots.fresh := by
        rintro rfl
        rw [get?, Slots.get?_fresh] at hr
        cases hr
      rw [he.get, if_neg hne, hr]
    · exact (hw.resource h).trans hr
  intro h r₁ r₂ hr hr'
  rw [hold h r₁ hr, Option.some.injEq] at hr'
  rw [hr']

end Steps

namespace Accounted

variable {t t' : Table ρ} {lost : List Handle}

theorem edits_sameIds (ha : t.Accounted lost)
    (he : t.Edits (fun r r' => Resource.id r' = Resource.id r) t') : t.SameIds t' := by
  induction he with
  | refl => exact .refl t
  | @change t' k f hf he ih =>
      intro h r r' hr hr'
      rw [get?_modifyHandle] at hr'
      split at hr'
      · obtain ⟨r₁, hr₁, rfl⟩ := Option.map_eq_some_iff.mp hr'
        rename_i hkh
        subst hkh
        rw [hf r₁ hr₁]
        exact ih _ r r₁ hr hr₁
      · exact ih h r r' hr hr'
  | @unlink t' t'' b k r₀ f hm hu he ih =>
      intro h r r' hr hr'
      obtain ⟨t₁, r₁, -, hun, hu₁⟩ := unlink_changed (ha.edits he).1.holds hm f
      obtain ⟨rfl, -⟩ := Prod.mk.inj (Except.ok.inj (hun.symm.trans hu))
      rw [hu₁.get] at hr'
      split at hr'
      · cases hr'
      · exact ih h r r' hr hr'

/-- A request that changes no identifier leaves the identifiers as they are. -/
theorem perform_sameIds (ha : t.Accounted lost) {q : Request ρ ι} (hq : q.Spares lost)
    (hk : q.KeepsIds) {o : Outcome (Table ρ) q.Answer} (hp : t.perform q = .ok o) :
    t.SameIds o.state := by
  rcases q.add_or_ne with ⟨granted, r, rfl⟩ | hne
  · exact add_sameIds hp
  · obtain ⟨o', hp', he⟩ := ha.perform_edits hq hk hne
    obtain rfl : o' = o := Except.ok.inj (hp'.symm.trans hp)
    exact ha.edits_sameIds he

/-- An addition that does not come upon an identifier that cannot be hashed. -/
theorem add_rehouses (ha : t.Accounted []) {granted : Bool} {r : ρ}
    {o : Outcome (Table ρ) (Admission ρ)} (hadd : t.add granted r = .ok o)
    (hno : o.answer ≠ .error .hashUnavailable) : t.Rehouses o.state := by
  obtain ⟨grown, hg, -, hcase⟩ := add_cases hadd
  obtain ⟨grown', hg', hgrow⟩ := ha.grow granted
  obtain rfl : grown' = grown := Except.ok.inj (hg'.symm.trans hg)
  rcases hcase with ⟨fault, han, -, hans⟩ | ⟨han, hacc⟩
  · -- growing is cut short by no other fault
    obtain ⟨rfl, -⟩ := ha.growIfOverfull_error hg han
    exact absurd hans hno
  have ha' := ha.growIfOverfull_ok hg han
  have hgrown : t.Rehouses grown'.state := by
    rcases hgrow with ⟨hst, -⟩ | ⟨-, hto, -, hall, hsplits, hepoch, -⟩ | ⟨herr, -⟩
    · rw [hst]
      exact .refl t
    · exact (ha.partitions hto hall hsplits hepoch).rehouses ha.holds
    · rw [han] at herr
      cases herr
  obtain ⟨t', answer, hacc', hinstall⟩ := ha'.accept r
  obtain ⟨rfl, -⟩ := Prod.mk.inj (Except.ok.inj (hacc'.symm.trans hacc))
  rcases hinstall with ⟨hst, -⟩ | ⟨-, -, b, hb, hi⟩
  · rw [hst]
    exact hgrown
  · exact hgrown.trans (hi.rehouses hb ha'.holds)

/-- **A request** that rewrites no identifier and does not come upon one that cannot be hashed. -/
theorem perform_rehouses (ha : t.Accounted []) {q : Request ρ ι}
    {o : Outcome (Table ρ) q.Answer} (hp : t.perform q = .ok o)
    (hno : o.answer ≠ .error .hashUnavailable) (hs : t.SameIds o.state) :
    t.Rehouses o.state := by
  rcases q.add_or_ne with ⟨granted, r, rfl⟩ | hne
  · exact ha.add_rehouses hp hno
  · obtain ⟨o', hp', he⟩ := ha.perform_edits q.spares_nil q.changesOnly_true hne
    obtain rfl : o' = o := Except.ok.inj (hp'.symm.trans hp)
    exact (ha.edits he).2.rehouses hs

/-- A request that does not come upon an identifier that cannot be hashed loses nothing. -/
theorem perform_clean (ha : t.Accounted []) {q : Request ρ ι} {o : Outcome (Table ρ) q.Answer}
    (hp : t.perform q = .ok o) (hno : o.answer ≠ .error .hashUnavailable) :
    o.state.Accounted [] := by
  obtain ⟨o', hp', ha', hcase⟩ := ha.perform q.spares_nil
  obtain rfl : o' = o := Except.ok.inj (hp'.symm.trans hp)
  rcases hcase with ⟨-, hcast, -⟩ | ⟨-, hcast, -⟩ | ⟨herr, -⟩
  · rwa [hcast] at ha'
  · rwa [hcast] at ha'
  · exact absurd herr hno

end Accounted

/-! ## Tables in which everything is at home -/

/-- The check of an entry in the bucket that it belongs in ends with no fault but a duplicate. -/
theorem verifyEntry_of_address? {t : Table ρ} {b : Nat} {l : List Handle} {h : Handle}
    {e : Entry ρ} (hb : t.address? (Resource.id e.resource) = some b) {fault : Fault}
    (hv : t.verifyEntry b (t.slots.rows l) (h, e) = .error fault) :
    fault = .duplicated b ∧ ∃ k ∈ l, k ≠ h ∧ t.answers (Resource.id e.resource) k := by
  refine ⟨?_, ?_⟩
  · unfold verifyEntry at hv
    dsimp only at hv
    rw [hb] at hv
    dsimp only at hv
    rw [if_neg (fun hne => hne rfl)] at hv
    split at hv
    · exact (Except.error.inj hv).symm
    · cases hv
  · by_contra hno
    push Not at hno
    have hok := (verifyEntry_eq_ok t b l h e).mpr ⟨hb, fun k hk hans => by
      by_contra hne
      exact hno k hk hne hans⟩
    rw [hok] at hv
    cases hv

/-- Every resource is at home, and what follows for checks and for lookups. -/
structure Housed (t : Table ρ) : Prop where
  atHome : ∀ h, (t.get? h).isSome → t.AtHome h
  /-- A check is passed, or it comes upon two resources in one bucket, one of which answers to the
  identifier of the other. -/
  verify : t.verify = .ok (.ok ())
    ∨ ∃ b, t.verify = .ok (.error (.duplicated b))
      ∧ ∃ h ∈ t.handlesIn b, ∃ k ∈ t.handlesIn b, k ≠ h
        ∧ ∃ r, t.get? h = some r ∧ t.answers (Resource.id r) k
  /-- A resource that alone answers to its identifier is found under it. -/
  lookup : ∀ h r, t.get? h = some r → (∀ k, t.answers (Resource.id r) k ↔ k = h) →
    t.find (Resource.id r) = .ok (.ok (some h)) ∧ t.lookup (Resource.id r) = .ok (.ok (some r))

theorem Accounted.housed {t : Table ρ} (ha : t.Accounted [])
    (hown : ∀ i, ∀ h ∈ t.handlesIn i, t.owner? h = some i) : t.Housed := by
  have haddress : ∀ {i h r}, h ∈ t.handlesIn i → t.get? h = some r →
      t.address? (Resource.id r) = some i := by
    intro i h r hm hr
    rw [← hown i h hm]
    show _ = (t.get? h).bind _
    rw [hr]
    rfl
  refine ⟨fun h hl => ?_, ?_, fun h r hr halone => ?_⟩
  · obtain ⟨i, hm⟩ := ha.exists_mem hl List.not_mem_nil
    exact ⟨i, hm, hown i h hm⟩
  · rcases ha.holds.reads.verify_cases ha.level with ⟨hok, -⟩ | ⟨fault, hv, hfails⟩
    · exact Or.inl hok
    · cases hfails with
      | @entry b h e _ hm hg hentry =>
          have hr := get?_of_entry hg
          obtain ⟨rfl, k, hk, hne, hans⟩ := verifyEntry_of_address? (haddress hm hr) hentry
          exact Or.inr ⟨b, hv, h, hm, k, hk, hne, _, hr, hans⟩
      | @length b c hc hlen => exact absurd (ha.holds.measured b c hc) hlen
      | size hsize =>
          refine absurd ?_ hsize
          rw [ha.size_eq, ha.holds.linked_eq]
          rfl
  · obtain ⟨i, hm⟩ := ha.exists_mem (by rw [hr]; rfl) List.not_mem_nil
    have hfirst : (t.handlesIn i).find? (t.answers (Resource.id r)) = some h := by
      obtain ⟨k, hk⟩ := Option.isSome_iff_exists.mp
        (List.find?_isSome.mpr ⟨h, hm, (halone h).mpr rfl⟩)
      rw [hk, (halone k).mp (List.find?_some hk)]
    have hfound : t.find (Resource.id r) = .ok (.ok (some h)) := by
      rw [ha.find_eq]
      unfold found
      rw [haddress hm hr]
      dsimp only
      rw [hfirst]
    refine ⟨hfound, ?_⟩
    unfold Table.lookup
    rw [hfound, ← hr]
    rfl

end Table

/-! ## Sessions -/

namespace Session

variable {ρ ι : Type}

/-- No request has come upon an identifier that cannot be hashed. -/
def Unbroken (s : Session ρ ι) : Prop := ∀ x ∈ s.log, x.answer ≠ .error .hashUnavailable

theorem unbroken_of_all {s : Session ρ ι} (hs : (s.log.all fun x => x.answer.isOk) = true) :
    s.Unbroken := by
  intro x hx herr
  have hok := List.all_eq_true.mp hs x hx
  rw [herr] at hok
  cases hok

variable [Resource ρ ι] [Identifier ι]

/-- No act rewrites the identifier of a resource that stays installed. -/
def KeepsIds : Session ρ ι → List (Act ρ ι) → Prop
  | _, [] => True
  | s, a :: acts => ∀ s', s.act a = .ok s' → s.table.SameIds s'.table ∧ s'.KeepsIds acts

/-- What an act does to a table that has lost nothing. -/
theorem act_rehouses {s s' : Session ρ ι} {a : Act ρ ι} (hact : s.act a = .ok s')
    (hs : s'.Unbroken) (ha : s.table.Accounted []) :
    s'.table.Accounted [] ∧ (s.table.SameIds s'.table → s.table.Rehouses s'.table) := by
  rcases act_cases hact with ⟨q, o, -, hp, ht, -, hlog, -⟩ | ⟨ht, -, -, -⟩
  · have hno : o.answer ≠ .error .hashUnavailable := hs ⟨q, o.answer, o.events⟩ (by
      rw [hlog]
      exact List.mem_append_right _ List.mem_cons_self)
    rw [ht]
    exact ⟨ha.perform_clean hp hno, ha.perform_rehouses hp hno⟩
  · rw [ht]
    exact ⟨ha, fun _ => .refl _⟩

theorem Unbroken.of_act {s s' : Session ρ ι} {a : Act ρ ι} (hact : s.act a = .ok s')
    (hs : s'.Unbroken) : s.Unbroken := by
  rcases act_cases hact with ⟨q, o, -, -, -, -, hlog, -⟩ | ⟨-, -, hlog, -⟩
  · exact fun x hx => hs x (by rw [hlog]; exact List.mem_append_left _ hx)
  · exact fun x hx => hs x (by rwa [hlog])

theorem Unbroken.of_run (acts : List (Act ρ ι)) :
    ∀ {s s' : Session ρ ι}, s.run acts = .ok s' → s'.Unbroken → s.Unbroken := by
  induction acts with
  | nil =>
      intro s s' hr hs
      cases hr
      exact hs
  | cons a acts ih =>
      intro s s' hr hs
      obtain ⟨s₁, hact, hr⟩ := run_cons_eq_ok hr
      exact (ih hr hs).of_act hact

/-- An unbroken session has lost nothing. -/
theorem Unbroken.accounted {acts : List (Act ρ ι)} {s : Session ρ ι}
    (hr : (fresh : Session ρ ι).run acts = .ok s) (hs : s.Unbroken) : s.table.Accounted [] :=
  run_preserves (P := fun s => s.Unbroken → s.table.Accounted [])
    (fun _ _ _ ih hact hs => (act_rehouses hact hs (ih (hs.of_act hact))).1) acts
    (fun _ => Table.accounted_new) hr hs

/-- What acts do to a table that has lost nothing, if they rewrite no identifier. -/
theorem run_rehouses_of_accounted (acts : List (Act ρ ι)) :
    ∀ {s s' : Session ρ ι}, s.run acts = .ok s' → s'.Unbroken → s.KeepsIds acts →
      s.table.Accounted [] → s'.table.Accounted [] ∧ s.table.Rehouses s'.table := by
  induction acts with
  | nil =>
      intro s s' hr _ _ ha
      cases hr
      exact ⟨ha, .refl _⟩
  | cons a acts ih =>
      intro s s' hr hs hk ha
      obtain ⟨s₁, hact, hr⟩ := run_cons_eq_ok hr
      obtain ⟨hsame, hk⟩ := hk s₁ hact
      obtain ⟨ha₁, hfirst⟩ := act_rehouses hact (hs.of_run acts hr) ha
      obtain ⟨ha', hrest⟩ := ih hr hs hk ha₁
      exact ⟨ha', (hfirst hsame).trans hrest⟩

/-- Requests that change no identifier rewrite none. -/
theorem keepsIds_of_requests (acts : List (Act ρ ι)) :
    ∀ {s s' : Session ρ ι}, s.run acts = .ok s' → s'.Unbroken → s.table.Accounted [] →
      (∀ q, Act.request q ∈ acts → q.KeepsIds) → s.KeepsIds acts := by
  induction acts with
  | nil => exact fun _ _ _ _ => trivial
  | cons a acts ih =>
      intro s s' hr hs ha hq s₁ hact
      obtain ⟨s₂, hact', hr⟩ := run_cons_eq_ok hr
      obtain rfl : s₂ = s₁ := Except.ok.inj (hact'.symm.trans hact)
      refine ⟨?_, ih hr hs (act_rehouses hact (hs.of_run acts hr) ha).1
        fun q hm => hq q (List.mem_cons_of_mem a hm)⟩
      rcases act_cases hact with ⟨q, o, rfl, hp, ht, -⟩ | ⟨ht, -⟩
      · rw [ht]
        exact ha.perform_sameIds q.spares_nil (hq q List.mem_cons_self) hp
      · rw [ht]
        exact .refl _

/-- **Growth brings resources home.** Identifiers may have been changed in place to anything, as long
as no request has come upon one that cannot be hashed. From then on none is rewritten any more. Then
what is at home stays at home for as long as it is installed. And once there are three times as many
buckets as there were, every resource is at home: a check ends with no fault but a duplicate, and a
resource that alone answers to its identifier is found under it. -/
theorem run_rehouses {acts more : List (Act ρ ι)} {s s' : Session ρ ι}
    (hr : (fresh : Session ρ ι).run acts = .ok s) (hr' : s.run more = .ok s')
    (hs : s'.Unbroken) (hk : s.KeepsIds more) :
    (∀ h, s.table.AtHome h → (s'.table.get? h).isSome → s'.table.AtHome h)
      ∧ (3 * s.table.buckets.size ≤ s'.table.buckets.size → s'.table.Housed)
      ∧ ∀ q : Request ρ ι, ∃ o, s'.table.perform q = .ok o := by
  have ha := (hs.of_run more hr').accounted hr
  obtain ⟨ha', hhouses⟩ := run_rehouses_of_accounted more hr' hs hk ha
  refine ⟨fun h hh hl => ?_, fun hsize => ?_, fun q => ?_⟩
  · obtain ⟨j, hm⟩ := ha'.exists_mem hl List.not_mem_nil
    exact hhouses.atHome ha.holds hh hm
  · exact ha'.housed fun i h hm => hhouses.owner_eq ha.holds hsize hm
  · obtain ⟨o, hp, -⟩ := ha'.perform q.spares_nil
    exact ⟨o, hp⟩

/-- Two of three resources are given identifiers that belong in each other's buckets, of which there
are two. -/
def swapped : List (Act (Record Table.WideId) Table.WideId) :=
  [.request (.add true ⟨⟨some 1, some 0⟩, "a"⟩), .request (.add true ⟨⟨some 2, some 1⟩, "b"⟩),
    .request (.add true ⟨⟨some 3, some 2⟩, "c"⟩),
    .request (.modifyHandle ⟨0⟩ fun r => { r with id := ⟨some 1, some 1⟩ }),
    .request (.modifyHandle ⟨1⟩ fun r => { r with id := ⟨some 2, some 0⟩ })]

/-- Four more make it six buckets. -/
def grownOn : List (Act (Record Table.WideId) Table.WideId) :=
  [.request (.add true ⟨⟨some 4, some 3⟩, "d"⟩), .request (.add true ⟨⟨some 5, some 4⟩, "e"⟩),
    .request (.add true ⟨⟨some 6, some 5⟩, "f"⟩), .request (.add true ⟨⟨some 7, some 6⟩, "g"⟩)]

/-- The third resource is at home all along, and in the end all of them are. -/
theorem run_rehouses_swapped :
    ∃ s s', (fresh : Session (Record Table.WideId) Table.WideId).run swapped = .ok s
      ∧ s.run grownOn = .ok s' ∧ s'.Unbroken ∧ s.KeepsIds grownOn
      ∧ s.table.verify = .ok (.error (.misplaced 0 1))
      ∧ s.table.find ⟨some 1, some 1⟩ = .ok (.ok none)
      ∧ s.table.AtHome ⟨2⟩ ∧ s'.table.AtHome ⟨2⟩
      ∧ s.table.buckets.size = 2 ∧ s'.table.buckets.size = 6 ∧ s'.table.Housed
      ∧ s'.table.find ⟨some 1, some 1⟩ = .ok (.ok (some ⟨0⟩)) := by
  have hkeeps : ∀ q, Act.request q ∈ grownOn → q.KeepsIds := by
    intro q hq
    simp only [grownOn, List.mem_cons, Act.request.injEq, List.not_mem_nil, or_false] at hq
    rcases hq with rfl | rfl | rfl | rfl <;> trivial
  obtain ⟨s, s', hr, hr', hs, hverify, hfind, hlist, howner, hlive, hsize, hsize', hfind'⟩ :
      ∃ s s', (fresh : Session (Record Table.WideId) Table.WideId).run swapped = .ok s
        ∧ s.run grownOn = .ok s' ∧ s'.Unbroken
        ∧ s.table.verify = .ok (.error (.misplaced 0 1))
        ∧ s.table.find ⟨some 1, some 1⟩ = .ok (.ok none)
        ∧ s.table.handlesIn 0 = [⟨0⟩, ⟨2⟩] ∧ s.table.owner? ⟨2⟩ = some 0
        ∧ (s'.table.get? ⟨2⟩).isSome
        ∧ s.table.buckets.size = 2 ∧ s'.table.buckets.size = 6
        ∧ s'.table.find ⟨some 1, some 1⟩ = .ok (.ok (some ⟨0⟩)) :=
    ⟨_, _, rfl, rfl, unbroken_of_all rfl, rfl, rfl, rfl, rfl, rfl, rfl, rfl, rfl⟩
  have hk := keepsIds_of_requests grownOn hr' hs ((hs.of_run grownOn hr').accounted hr) hkeeps
  obtain ⟨hstays, hhoused, -⟩ := run_rehouses hr hr' hs hk
  have hhome : s.table.AtHome ⟨2⟩ := ⟨0, by rw [hlist]; decide, howner⟩
  exact ⟨s, s', hr, hr', hs, hk, hverify, hfind, hhome, hstays _ hhome hlive, hsize, hsize',
    hhoused (by omega), hfind'⟩

end Session

end ResourceIndex
