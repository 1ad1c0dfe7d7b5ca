import ResourceIndex.Proofs.Streams

set_option autoImplicit false

/-! # Changes that the hash of a string detects

Every byte is in the substitution table (`bitmap_substitutionTable`), so none is in it twice. A
lane that takes different bytes therefore comes to different values, and lanes of different values
stay different as long as they take the same bytes. Strings of one length that differ at one place
of a stream leave different values in its lane (`foldl_stream_ne`), and the word of the lanes and
its fold lose nothing (`foldl_stream_eq`). A window of four places has one place of each stream.
-/

namespace ResourceIndex

/-! ## Lanes keep apart -/

/-- The numbers of a list as the set bits of one number. -/
def bitmap (l : List Nat) : Nat := l.foldr (fun n acc => 2 ^ n ||| acc) 0

theorem testBit_bitmap (l : List Nat) (k : Nat) : (bitmap l).testBit k = true ↔ k ∈ l := by
  induction l with
  | nil => simp [bitmap]
  | cons n l ih =>
      show (2 ^ n ||| bitmap l).testBit k = true ↔ k ∈ n :: l
      rw [Nat.testBit_or, Bool.or_eq_true, ih, List.mem_cons, Nat.testBit_two_pow]
      simp [eq_comm]

theorem bitmap_substitutionTable :
    bitmap (substitutionTable.toList.map UInt8.toNat) = 2 ^ 256 - 1 := by
  decide +kernel

/-- Every byte is in the table. -/
theorem substitute_surjective : Function.Surjective substitute := by
  intro b
  have hmem : b.toNat ∈ substitutionTable.toList.map UInt8.toNat := by
    rw [← testBit_bitmap, bitmap_substitutionTable, Nat.testBit_two_pow_sub_one]
    exact decide_eq_true b.toNat_lt
  obtain ⟨b', hb', hto⟩ := List.mem_map.mp hmem
  obtain ⟨i, hi, hget⟩ := Vector.mem_iff_getElem.mp (Vector.mem_toList_iff.mp hb')
  refine ⟨UInt8.ofFin ⟨i, hi⟩, ?_⟩
  show substitutionTable[i] = b
  rw [hget]
  exact UInt8.toNat_inj.mp hto

/-- **The substitution is a permutation of the bytes.** -/
theorem substitute_injective : Function.Injective substitute :=
  Finite.injective_iff_surjective.mpr substitute_surjective

theorem absorb_left_injective (b : UInt8) : Function.Injective fun lane => absorb lane b := by
  intro lane lane' h
  exact (UInt8.xor_left_inj b).mp (substitute_injective h)

theorem absorb_right_injective (lane : UInt8) : Function.Injective (absorb lane) := by
  intro b b' h
  exact (UInt8.xor_right_inj lane).mp (substitute_injective h)

/-- Lanes of different values stay different while they take the same bytes. -/
theorem foldl_absorb_injective (bytes : List UInt8) :
    Function.Injective fun lane => bytes.foldl absorb lane := by
  induction bytes with
  | nil => exact Function.injective_id
  | cons b bytes ih => exact ih.comp (absorb_left_injective b)

/-! ## Strings that differ at one place of a stream -/

variable {x y : List UInt8}

/-- A stream depends on the bytes at its own places only. -/
theorem stream_congr {j n : Nat} (hlen : x.length = y.length)
    (h : ∀ i, (n + i) % 4 = j → x[i]? = y[i]?) : stream j n x = stream j n y := by
  induction x generalizing y n with
  | nil => rw [List.length_eq_zero_iff.mp hlen.symm]
  | cons a x ih =>
      cases y with
      | nil => cases hlen
      | cons b y =>
          have hrest : stream j (n + 1) x = stream j (n + 1) y := by
            apply ih (Nat.succ.inj hlen)
            intro i hi
            exact h (i + 1) (by rw [← hi]; congr 1; omega)
          rw [stream_cons, stream_cons, hrest]
          by_cases hn : n % 4 = j
          · have hab : a = b := Option.some.inj (h 0 hn)
            rw [hab]
          · rw [if_neg hn, if_neg hn]

/-- A stream before, at and after one of its places. -/
theorem stream_at {j n i : Nat} (hi : i < x.length) (hj : (n + i) % 4 = j) :
    stream j n x
      = stream j n (x.take i) ++ x[i] :: stream j (n + i + 1) (x.drop (i + 1)) := by
  have hx : x = x.take i ++ x[i] :: x.drop (i + 1) := by
    rw [← List.drop_eq_getElem_cons hi, List.take_append_drop]
  have hlen : (x.take i).length = i := List.length_take_of_le (Nat.le_of_lt hi)
  conv_lhs => rw [hx, stream_append, hlen, stream_cons, if_pos hj]

/-- **A lane keeps a single difference** in its stream. -/
theorem foldl_stream_ne {j n : Nat} (hlen : x.length = y.length)
    (h : ∃! i, (n + i) % 4 = j ∧ x[i]? ≠ y[i]?) (lane : UInt8) :
    (stream j n x).foldl absorb lane ≠ (stream j n y).foldl absorb lane := by
  obtain ⟨i, ⟨hj, hne⟩, honly⟩ := h
  have hagree : ∀ k, k ≠ i → (n + k) % 4 = j → x[k]? = y[k]? := by
    intro k hk hkj
    by_contra hdiff
    exact hk (honly k ⟨hkj, hdiff⟩)
  have hi : i < x.length := by
    by_contra hge
    rw [List.getElem?_eq_none (by omega), List.getElem?_eq_none (by omega)] at hne
    exact hne rfl
  have hi' : i < y.length := hlen ▸ hi
  have hbefore : stream j n (x.take i) = stream j n (y.take i) := by
    apply stream_congr (by rw [List.length_take, List.length_take, hlen])
    intro k hk
    rw [List.getElem?_take, List.getElem?_take]
    split
    · exact hagree k (by omega) hk
    · rfl
  have hafter : stream j (n + i + 1) (x.drop (i + 1)) = stream j (n + i + 1) (y.drop (i + 1)) := by
    apply stream_congr (by rw [List.length_drop, List.length_drop, hlen])
    intro k hk
    rw [List.getElem?_drop, List.getElem?_drop]
    exact hagree (i + 1 + k) (by omega) (by rw [← hk]; congr 1; omega)
  rw [stream_at hi hj, stream_at hi' hj, hbefore, hafter, List.foldl_append, List.foldl_append,
    List.foldl_cons, List.foldl_cons]
  intro heq
  have hbyte : x[i] = y[i] := absorb_right_injective _ (foldl_absorb_injective _ heq)
  rw [List.getElem?_eq_getElem hi, List.getElem?_eq_getElem hi', hbyte] at hne
  exact hne rfl

/-- **The hash loses no lane.** -/
theorem foldl_stream_eq (h : hashBytes x = hashBytes y) (j : Fin 4) :
    (stream j 0 (beforeZero x)).foldl absorb 0 = (stream j 0 (beforeZero y)).foldl absorb 0 := by
  rw [hashBytes_eq_fold, hashBytes_eq_fold] at h
  have hword : streamWord x = streamWord y := by
    have hwide := congrArg (BitVec.setWidth 32) (fold_injective _ _ h)
    simpa using hwide
  have hbyte := congrArg (BitVec.extractLsb' (8 * j) 8) hword
  rw [extractLsb'_streamWord, extractLsb'_streamWord] at hbyte
  exact UInt8.toBitVec_inj.mp hbyte

/-! ## Detection -/

section

variable (hlen : x.length = y.length) (hx : 0 ∉ x) (hy : 0 ∉ y)

include hlen hx hy

theorem hashBytes_ne_of_stream {j : Fin 4} (h : ∃! i, i % 4 = j.val ∧ x[i]? ≠ y[i]?) :
    hashBytes x ≠ hashBytes y := by
  intro heq
  have hlane := foldl_stream_eq heq j
  rw [beforeZero_of_not_mem hx, beforeZero_of_not_mem hy] at hlane
  refine foldl_stream_ne hlen ?_ 0 hlane
  simpa only [Nat.zero_add] using h

/-- In a window of four places the strings differ at one place of a stream if they differ. -/
theorem hashBytes_ne_of_window (hne : x ≠ y) {k : Nat}
    (hwindow : ∀ i, x[i]? ≠ y[i]? → k ≤ i ∧ i < k + 4) : hashBytes x ≠ hashBytes y := by
  obtain ⟨i, hi⟩ : ∃ i, x[i]? ≠ y[i]? := by
    by_contra hall
    push Not at hall
    exact hne (List.ext_getElem? hall)
  have hfour : i % 4 < 4 := Nat.mod_lt i (by decide)
  refine hashBytes_ne_of_stream hlen hx hy (j := ⟨i % 4, hfour⟩) ⟨i, ⟨rfl, hi⟩, ?_⟩
  rintro i' ⟨hmod, hi'⟩
  have h := hwindow i hi
  have h' := hwindow i' hi'
  have hmod' : i' % 4 = i % 4 := hmod
  omega

/-- **What the hash of a string detects.** Strings of one length and without zero bytes have
different hashes if there is a stream in which they differ at exactly one place. So it is when they
differ at one place alone, and when they differ but only within a window of four places. -/
theorem hashBytes_detects :
    ((∃ j : Fin 4, ∃! i, i % 4 = j.val ∧ x[i]? ≠ y[i]?) → hashBytes x ≠ hashBytes y)
      ∧ ((∃! i : Nat, x[i]? ≠ y[i]?) → hashBytes x ≠ hashBytes y)
      ∧ (x ≠ y → (∃ k, ∀ i, x[i]? ≠ y[i]? → k ≤ i ∧ i < k + 4) → hashBytes x ≠ hashBytes y) := by
  refine ⟨fun ⟨j, h⟩ => hashBytes_ne_of_stream hlen hx hy h, ?_, ?_⟩
  · rintro ⟨i, hi, honly⟩
    refine hashBytes_ne_of_window hlen hx hy (fun heq => hi (by rw [heq])) (k := i) ?_
    intro k hk
    have := honly k hk
    omega
  · rintro hne ⟨k, hwindow⟩
    exact hashBytes_ne_of_window hlen hx hy hne hwindow

end

/-- The bytes of `abcde`, a chunk and one more. -/
def fiveBytes : List UInt8 := [97, 98, 99, 100, 101]

/-- Of the five bytes the fourth and the fifth are changed, which are of different streams; the
fifth alone; and all but the first. -/
theorem hashBytes_detects_five :
    (∃! i : Nat, i % 4 = (3 : Fin 4).val ∧ fiveBytes[i]? ≠ ([97, 98, 99, 122, 122])[i]?)
      ∧ hashBytes fiveBytes ≠ hashBytes [97, 98, 99, 122, 122]
      ∧ (∃! i : Nat, fiveBytes[i]? ≠ ([97, 98, 99, 100, 122])[i]?)
      ∧ hashBytes fiveBytes ≠ hashBytes [97, 98, 99, 100, 122]
      ∧ (∀ i : Nat, fiveBytes[i]? ≠ ([97, 122, 122, 122, 122])[i]? → 1 ≤ i ∧ i < 1 + 4)
      ∧ hashBytes fiveBytes ≠ hashBytes [97, 122, 122, 122, 122] := by
  have hstream :
      ∃! i : Nat, i % 4 = (3 : Fin 4).val ∧ fiveBytes[i]? ≠ ([97, 98, 99, 122, 122])[i]? := by
    refine ⟨3, by decide, ?_⟩
    rintro i ⟨hmod, hi⟩
    rcases i with _ | _ | _ | _ | _ | i <;> simp_all [fiveBytes]
  have hsingle : ∃! i : Nat, fiveBytes[i]? ≠ ([97, 98, 99, 100, 122])[i]? := by
    refine ⟨4, by decide, ?_⟩
    intro i hi
    rcases i with _ | _ | _ | _ | _ | i <;> simp_all [fiveBytes]
  have hwindow : ∀ i : Nat, fiveBytes[i]? ≠ ([97, 122, 122, 122, 122])[i]? → 1 ≤ i ∧ i < 1 + 4 := by
    intro i hi
    rcases i with _ | _ | _ | _ | _ | i <;> simp_all [fiveBytes]
  obtain ⟨hfourth, -, -⟩ := hashBytes_detects (x := fiveBytes) (y := [97, 98, 99, 122, 122])
    rfl (by decide) (by decide)
  obtain ⟨-, hfifth, -⟩ := hashBytes_detects (x := fiveBytes) (y := [97, 98, 99, 100, 122])
    rfl (by decide) (by decide)
  obtain ⟨-, -, hall⟩ := hashBytes_detects (x := fiveBytes) (y := [97, 122, 122, 122, 122])
    rfl (by decide) (by decide)
  exact ⟨hstream, hfourth ⟨3, hstream⟩, hsingle, hfifth hsingle, hwindow,
    hall (by decide) ⟨1, hwindow⟩⟩

end ResourceIndex
