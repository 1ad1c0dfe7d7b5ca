import ResourceIndex.Proofs.Progress

set_option autoImplicit false

/-! # The arrangement of a table

As long as no identifier is changed in place, how a table came about leaves no trace in it: which
resources are in a bucket, and in which order, depends on nothing but the resources installed,
the order in which they were added and the number of buckets. `Agrees.residents_eq` and
`Agrees.visitOrder_eq` say this of one table, and `run_arrangement` of every run.

In particular a table that has grown by one bucket at a time, with splits put off now and then, is
arranged as one into which all its resources are put at once (`rehash`).
-/

namespace ResourceIndex

namespace Table

variable {ρ ι : Type}

/-! ## What is in the buckets -/

/-- The resources of a bucket in their order. -/
def residents (t : Table ρ) (bucket : Nat) : Checked (List ρ) := do
  return (← t.entries bucket).map fun row => row.2.resource

/-- The visitor that takes down what it is shown. -/
def note : Visitor (List ρ) ρ := fun seen r => (seen ++ [r], r, .keep)

/-- The resources in the order in which a traversal visits them. -/
def visitOrder (t : Table ρ) : Checked (List ρ) := do
  let (_, seen) ← t.traverse note []
  return seen

/-- What the handles of a list name, each with its handle. -/
def named (t : Table ρ) (l : List Handle) : List (Handle × ρ) :=
  l.filterMap fun h => (t.get? h).map (Prod.mk h)

theorem map_rows (t : Table ρ) (l : List Handle) :
    (t.slots.rows l).map (fun row => (row.1, row.2.resource)) = t.named l := by
  unfold Slots.rows named get?
  rw [List.map_filterMap]
  apply List.filterMap_congr
  intro h _
  cases t.slots.get? h with
  | none => rfl
  | some e => rfl

theorem map_snd_named (t : Table ρ) (l : List Handle) :
    (t.named l).map Prod.snd = l.filterMap t.get? := by
  unfold named
  rw [List.map_filterMap]
  apply List.filterMap_congr
  intro h _
  cases t.get? h with
  | none => rfl
  | some r => rfl

/-! ## Putting all resources in at once -/

/-- The table with its buckets emptied. -/
def emptied (t : Table ρ) : Table ρ :=
  { t with buckets := Array.replicate t.buckets.size Chain.empty, slots := Slots.empty }

variable [Resource ρ ι] [Identifier ι]

/-- Installs resources one after another, each in the bucket it belongs in, with no thought of
growth or of equal identifiers. Those that cannot be hashed are left out. -/
def refill : Table ρ → List ρ → Checked (Table ρ)
  | t, [] => .ok t
  | t, r :: rs =>
      match t.address? (Resource.id r) with
      | none => t.refill rs
      | some b => do
          let (t, _) ← t.install b r
          t.refill rs

/-- A table of as many buckets into which the resources `rs` are put at once. -/
def rehash (t : Table ρ) (rs : List ρ) : Checked (Table ρ) := t.emptied.refill rs

namespace Agrees

variable {kept : Prop} {m m' : Ledger ρ} {t t' : Table ρ} {lists lists' : Nat → List Handle}

theorem emptied (ha : Agrees kept m t lists) : Agrees kept {} t.emptied fun _ => [] := by
  obtain ⟨k, hk⟩ := ha.level
  have hsize : t.emptied.buckets.size = t.buckets.size := Array.size_replicate
  have hgrowth : SameGrowth t t.emptied := ⟨hsize, rfl, rfl, rfl, rfl⟩
  exact agrees_of_empty kept (hgrowth.atLevel hk) rfl rfl ha.holds.underflowed

theorem refill (rs : List ρ) :
    ∀ {m : Ledger ρ} {t : Table ρ} {lists : Nat → List Handle}, Agrees kept m t lists →
      (∀ r ∈ rs, (Identifier.hash? (Resource.id r)).isSome) →
      ∃ t' m' lists', t.refill rs = .ok t' ∧ t'.buckets.size = t.buckets.size
        ∧ m'.resources = m.resources ++ rs ∧ Agrees kept m' t' lists' := by
  induction rs with
  | nil => exact fun {m t lists} ha _ => ⟨t, m, lists, rfl, rfl, (List.append_nil _).symm, ha⟩
  | cons r rs ih =>
      intro m t lists ha hrs
      obtain ⟨hash, hh⟩ := Option.isSome_iff_exists.mp (hrs r List.mem_cons_self)
      have hb : t.address? (Resource.id r) = some (t.geometry.route hash) := by
        unfold address?
        rw [hh]
        rfl
      obtain ⟨t₁, hin, hi⟩ := install_spec ha.holds (ha.address?_lt hb) r
      obtain ⟨t', m', lists', href, hsize, hres, ha'⟩ :=
        ih (ha.install hb hi) fun r' hr' => hrs r' (List.mem_cons_of_mem r hr')
      refine ⟨t', m', lists', ?_, hsize.trans hi.growth.buckets, ?_, ha'⟩
      · rw [Table.refill, hb]
        dsimp only
        rw [hin]
        exact href
      · rw [hres]
        simp [Ledger.resources, Ledger.add]

/-! ## One arrangement -/

theorem hashable_resources (ha : Agrees kept m t lists) :
    ∀ r ∈ m.resources, (Identifier.hash? (Resource.id r)).isSome := by
  intro r hr
  obtain ⟨⟨h, r'⟩, hm, rfl⟩ := List.mem_map.mp hr
  exact ha.hashable h r' ((Ledger.mem_rows ha.ordered.handles_nodup).mp hm)

/-- An identifier belongs where linear hashing puts it. -/
theorem address?_eq (ha : Agrees kept m t lists) (id : ι) :
    t.address? id =
      (Identifier.hash? id).map (linearIndex (t.geometry.lowMask + 1) t.buckets.size) := by
  obtain ⟨k, hk⟩ := ha.level
  unfold address?
  rw [funext hk.spans.route_eq]

/-- Tables with equally many buckets agree on where an identifier belongs. -/
theorem address?_congr (ha : Agrees kept m t lists) (ha' : Agrees kept m' t' lists')
    (hsize : t'.buckets.size = t.buckets.size) (id : ι) : t'.address? id = t.address? id := by
  obtain ⟨k, hk⟩ := ha.level
  obtain ⟨k', hk'⟩ := ha'.level
  have hspans := hk'.spans
  rw [hsize] at hspans
  unfold address?
  rw [funext (hspans.route_congr hk.spans)]

theorem named_eq (ha : Agrees kept m t lists) (l : List Handle) :
    t.named l = l.filterMap fun h => (m.get? h).map (Prod.mk h) := by
  unfold named
  rw [funext ha.get]

/-- **What is in a bucket** are the rows that belong there, in their order. -/
theorem named_lists (ha : Agrees kept m t lists) (hk : kept) (i : Nat) :
    t.named (lists i) = m.rows.filter fun row => t.address? (Resource.id row.2) = some i := by
  -- both sides are then what the handles of the rows name, filtered before or afterwards
  have hrows : m.rows = t.named m.handles := by
    rw [ha.named_eq]
    exact ha.ordered.rows_eq_handles
  rw [hrows, ha.arranged hk i]
  unfold named
  rw [List.filterMap_filter, List.filter_filterMap]
  apply List.filterMap_congr
  intro h _
  show (if decide ((t.get? h).bind _ = some i) then _ else _) = _
  cases t.get? h with
  | none => simp
  | some r => simp [address?, Option.filter]

theorem filterMap_lists (ha : Agrees kept m t lists) (hk : kept) (i : Nat) :
    (lists i).filterMap t.get? =
      m.resources.filter fun r => t.address? (Resource.id r) = some i := by
  rw [← map_snd_named, ha.named_lists hk, Ledger.resources, List.filter_map]
  rfl

theorem residents_eq (ha : Agrees kept m t lists) (hk : kept) {i : Nat}
    (hi : i < t.buckets.size) :
    t.residents i = .ok (m.resources.filter fun r => t.address? (Resource.id r) = some i) := by
  have hmap : (t.slots.rows (lists i)).map (fun row => row.2.resource) =
      (lists i).filterMap t.get? := by
    rw [← map_snd_named, ← map_rows, List.map_map]
    rfl
  unfold residents
  rw [ha.holds.reads.entries hi, ← ha.filterMap_lists hk, ← hmap]
  rfl

/-- Taking down what is visited changes nothing. -/
theorem visitAll_note (order : List Handle) :
    ∀ {m₁ : Ledger ρ} {seen : List ρ}, (∀ h, m₁.get? h = m.get? h) →
      (Ledger.visitAll note order m₁ seen).2 = seen ++ order.filterMap m.get? := by
  induction order with
  | nil => exact fun {m₁ seen} _ => (List.append_nil seen).symm
  | cons h order ih =>
      intro m₁ seen hm
      cases hr : m₁.get? h with
      | none =>
          rw [Ledger.visitAll, hr, List.filterMap_cons, ← hm h, hr]
          exact ih hm
      | some r =>
          rw [Ledger.visitAll_cons note hr, List.filterMap_cons, ← hm h, hr]
          -- each resource is put back as it was
          have hsame : ∀ k, (m₁.change h fun _ => r).get? k = m.get? k := by
            intro k
            rw [Ledger.get?_change]
            split
            · rename_i hkh
              rw [hkh, hr, ← hm h, hr]
              rfl
            · exact hm k
          exact (ih hsame).trans (List.append_assoc ..)

/-- **The order of a traversal** is that of the buckets and, within each, that of the rows that
belong there. -/
theorem visitOrder_eq (ha : Agrees kept m t lists) (hk : kept) :
    t.visitOrder = .ok ((List.range t.buckets.size).flatMap fun i =>
      m.resources.filter fun r => t.address? (Resource.id r) = some i) := by
  obtain ⟨t', lists', htrav, -⟩ :=
    traverse note (fun _ _ _ h => h) (fun _ _ _ _ => rfl) ha []
  unfold visitOrder
  rw [htrav, visitAll_note _ fun _ => rfl]
  show Except.ok _ = _
  rw [List.nil_append, List.filterMap_flatMap, ← funext ha.get]
  congr 2
  exact funext fun i => ha.filterMap_lists hk i

/-- Tables with the same resources in the same order and as many buckets are arranged alike. -/
theorem arranged_congr (ha : Agrees kept m t lists) (ha' : Agrees kept m' t' lists')
    (hk : kept) (hsize : t'.buckets.size = t.buckets.size) (hres : m'.resources = m.resources) :
    (∀ i, i < t.buckets.size → t'.residents i = t.residents i) ∧ t'.visitOrder = t.visitOrder := by
  have haddr : ∀ id : ι, t'.address? id = t.address? id := ha.address?_congr ha' hsize
  constructor
  · intro i hi
    rw [ha.residents_eq hk hi, ha'.residents_eq hk (hsize.symm ▸ hi), hres]
    simp only [haddr]
  · rw [ha.visitOrder_eq hk, ha'.visitOrder_eq hk, hres, hsize]
    simp only [haddr]

/-- Putting all resources into a table of as many buckets at once arranges them alike. -/
theorem rehash (ha : Agrees kept m t lists) (hk : kept) :
    ∃ t', t.rehash m.resources = .ok t' ∧ t'.buckets.size = t.buckets.size
      ∧ (∀ i, i < t.buckets.size → t'.residents i = t.residents i)
      ∧ t'.visitOrder = t.visitOrder := by
  obtain ⟨t', m', lists', href, hsize, hres, ha'⟩ :=
    Agrees.refill m.resources ha.emptied ha.hashable_resources
  have hsame : t'.buckets.size = t.buckets.size := hsize.trans Array.size_replicate
  exact ⟨t', href, hsame, ha.arranged_congr ha' hk hsame hres⟩

end Agrees

/-! ## Every run -/

/-- The resources that are live after a run, under the handles they were issued, in the order in
which they were added. -/
def added (t : Table ρ) (exchanges : List (Exchange ρ ι)) : List (Handle × ρ) :=
  t.named (exchanges.filterMap Ledger.issued?)

/-- A run that changes no identifier ends with a table arranged by its ledger. -/
theorem run_arranged (qs : List (Request ρ ι)) (hqs : ∀ q ∈ qs, q.KeepsIds) :
    ∃ exchanges t m, (new : Table ρ).run qs = .ok (exchanges, t)
      ∧ exchanges.map Exchange.request = qs ∧ m.rows = t.added exchanges
      ∧ ∃ lists, Agrees True m t lists := by
  obtain ⟨exchanges, t, m, hrun, hreq, hfollows, lists, ha⟩ :=
    run_agrees True (fun ha id => ha.mayFind id) qs
      fun q hq => ⟨(hqs q hq).keepsHashable, fun _ => hqs q hq⟩
  refine ⟨exchanges, t, m, hrun, hreq, ?_, lists, ha⟩
  obtain ⟨-, hissued⟩ := Ledger.Follows.ordered exchanges ⟨List.nodup_nil, .refl _⟩ hfollows
  unfold added
  rw [ha.named_eq, ha.ordered.rows_eq, hissued]
  rfl

/-- **The arrangement of a table**, after any run of requests to a fresh one that change no
identifier. A bucket has exactly the resources that linear hashing puts there, in the order they
were added. A table of as many buckets into which the live resources are put at once, in that
order, has the same buckets and the same order of traversal. And so has the table after any
other run that leaves the same resources, added in the same order, in as many buckets. -/
theorem run_arrangement (qs : List (Request ρ ι)) (hqs : ∀ q ∈ qs, q.KeepsIds) :
    ∃ exchanges t, (new : Table ρ).run qs = .ok (exchanges, t)
      ∧ exchanges.map Exchange.request = qs
      ∧ (∀ i, i < t.buckets.size → ∃ bucket, t.entries i = .ok bucket
          ∧ bucket.map (fun row => (row.1, row.2.resource)) =
            (t.added exchanges).filter fun row =>
              (Identifier.hash? (Resource.id row.2)).map
                (linearIndex (t.geometry.lowMask + 1) t.buckets.size) = some i)
      ∧ (∃ t' order, t.rehash ((t.added exchanges).map Prod.snd) = .ok t'
          ∧ t'.buckets.size = t.buckets.size
          ∧ (∀ i, i < t.buckets.size → t'.residents i = t.residents i)
          ∧ t'.visitOrder = .ok order ∧ t.visitOrder = .ok order)
      ∧ ∀ (qs' : List (Request ρ ι)) exchanges' t', (∀ q ∈ qs', q.KeepsIds) →
          (new : Table ρ).run qs' = .ok (exchanges', t') →
          (t'.added exchanges').map Prod.snd = (t.added exchanges).map Prod.snd →
          t'.buckets.size = t.buckets.size → t'.visitOrder = t.visitOrder := by
  obtain ⟨exchanges, t, m, hrun, hreq, hrows, lists, ha⟩ := run_arranged qs hqs
  refine ⟨exchanges, t, hrun, hreq, fun i hi => ?_, ?_, ?_⟩
  · refine ⟨_, ha.holds.reads.entries hi, ?_⟩
    rw [map_rows, ha.named_lists trivial, hrows]
    simp only [ha.address?_eq]
  · obtain ⟨t', href, hsize, hres, horder⟩ := ha.rehash trivial
    rw [Ledger.resources, hrows] at href
    refine ⟨t', _, href, hsize, hres, horder.trans (ha.visitOrder_eq trivial),
      ha.visitOrder_eq trivial⟩
  · intro qs' exchanges' t' hqs' hrun' hadded hsize
    obtain ⟨exchanges₂, t₂, m', hrun₂, -, hrows', lists', ha'⟩ := run_arranged qs' hqs'
    obtain ⟨rfl, rfl⟩ : exchanges' = exchanges₂ ∧ t' = t₂ := by
      have heq := Except.ok.inj (hrun'.symm.trans hrun₂)
      exact Prod.mk.inj heq
    refine (ha.arranged_congr ha' trivial hsize ?_).2
    rw [Ledger.resources, Ledger.resources, hrows, hrows', hadded]

/-- Resources of one bucket are divided by a split that has been put off. -/
def putOff : List (Request (Record WideId) WideId) :=
  [.add true ⟨⟨some 1, some 0⟩, "a"⟩, .add true ⟨⟨some 2, some 1⟩, "b"⟩,
    .add false ⟨⟨some 3, some 0⟩, "c"⟩, .removeHandle ⟨0⟩, .add true ⟨⟨some 4, some 1⟩, "d"⟩]

theorem run_arrangement_putOff : (∀ q ∈ putOff, q.KeepsIds)
    ∧ ∃ exchanges t, (new : Table (Record WideId)).run putOff = .ok (exchanges, t)
      ∧ ∃ t' order, t.rehash ((t.added exchanges).map Prod.snd) = .ok t'
        ∧ t'.visitOrder = .ok order ∧ t.visitOrder = .ok order := by
  have hkeeps : ∀ q ∈ putOff, q.KeepsIds := by
    unfold putOff
    simp only [List.forall_mem_cons]
    exact ⟨trivial, trivial, trivial, trivial, trivial, nofun⟩
  obtain ⟨exchanges, t, hrun, -, -, ⟨t', order, href, -, -, horder', horder⟩, -⟩ :=
    run_arrangement putOff hkeeps
  exact ⟨hkeeps, exchanges, t, hrun, t', order, href, horder', horder⟩

end Table

end ResourceIndex
