import Mathlib
import ResourceIndex.Proofs.Refinement

set_option autoImplicit false

/-! # Folding a word loses nothing

A fold is a sequence of rounds, each of which xors the word with itself shifted (`fold_eq`). A
round is linear, and as no shift is zero it keeps the highest set bit where it is
(`shiftXor_lt_two_pow_iff`). Both pass on to a fold, and the rest follows: a word that is folded
to zero has no highest set bit, so it is zero, and a linear map with this property is injective.

`fold_bijective` has the laws of folding together with what they mean for identifiers: numbers
answer to one another when, and only when, they have one hash.
-/

namespace ResourceIndex

/-! ## Rounds -/

/-- The shifts of a fold from the width `width` on. -/
def halvings (least width : Nat) : List Nat :=
  if width / 2 = 0 then []
  else if width / 2 ≤ least then [width / 2]
  else width / 2 :: halvings least (width / 2)
termination_by width

/-- One round: a word is xor-ed with itself shifted. -/
def shiftXor (w : Word) (s : Nat) : Word := w ^^^ (w >>> s)

theorem foldRounds_eq (least width : Nat) (w : Word) :
    foldRounds least width w = (halvings least width).foldl shiftXor w := by
  fun_induction foldRounds least width w with
  | case1 width w h0 =>
      rw [halvings, if_pos h0]
      rfl
  | case2 width w h0 folded hle =>
      rw [halvings, if_neg h0, if_pos hle]
      rfl
  | case3 width w h0 folded hle ih =>
      rw [ih, halvings.eq_def least width, if_neg h0, if_neg hle]
      rfl

/-- **A fold in rounds.** -/
theorem fold_eq (least width : Nat) (w : Word) :
    fold least width w = (halvings least (min width 64)).foldl shiftXor w :=
  foldRounds_eq least (min width 64) w

theorem pos_of_mem_halvings {least width s : Nat} (hs : s ∈ halvings least width) : 0 < s := by
  fun_induction halvings least width with
  | case1 width h0 => cases hs
  | case2 width h0 hle =>
      rw [List.mem_singleton.mp hs]
      omega
  | case3 width h0 hle ih =>
      rcases List.mem_cons.mp hs with rfl | hs
      · omega
      · exact ih hs

/-! ## What a round keeps -/

theorem shiftXor_xor (a b : Word) (s : Nat) :
    shiftXor (a ^^^ b) s = shiftXor a s ^^^ shiftXor b s := by
  unfold shiftXor
  rw [BitVec.ushiftRight_xor_distrib]
  ac_rfl

/-- A round keeps the highest set bit. -/
theorem shiftXor_lt_two_pow_iff {s : Nat} (hs : 0 < s) (w : Word) (k : Nat) :
    (shiftXor w s).toNat < 2 ^ k ↔ w.toNat < 2 ^ k := by
  have hto : (shiftXor w s).toNat = w.toNat ^^^ (w.toNat >>> s) := by
    simp [shiftXor]
  rw [hto]
  constructor
  · intro hlt
    by_contra hge
    -- the highest set bit of the word is set after the round, for the bit shifted there is not
    have hne : w.toNat ≠ 0 := by
      intro h0
      rw [h0] at hge
      exact hge (Nat.two_pow_pos k)
    have hk : k ≤ w.toNat.log2 := (Nat.le_log2 hne).mpr (by omega)
    have hset : (w.toNat ^^^ (w.toNat >>> s)).testBit w.toNat.log2 = true := by
      rw [Nat.testBit_xor, Nat.testBit_shiftRight, Nat.testBit_log2 hne,
        Nat.testBit_lt_two_pow (Nat.lt_log2_self.trans_le
          (Nat.pow_le_pow_right (by decide) (by omega)))]
      rfl
    have hle : 2 ^ k ≤ w.toNat ^^^ (w.toNat >>> s) :=
      calc 2 ^ k ≤ 2 ^ w.toNat.log2 := Nat.pow_le_pow_right (by decide) hk
        _ ≤ w.toNat ^^^ (w.toNat >>> s) := Nat.ge_two_pow_of_testBit hset
    omega
  · intro hlt
    exact Nat.xor_lt_two_pow hlt (lt_of_le_of_lt (Nat.shiftRight_le _ _) hlt)

theorem foldl_shiftXor_xor (shifts : List Nat) (a b : Word) :
    shifts.foldl shiftXor (a ^^^ b) = shifts.foldl shiftXor a ^^^ shifts.foldl shiftXor b := by
  induction shifts generalizing a b with
  | nil => rfl
  | cons s shifts ih => rw [List.foldl_cons, shiftXor_xor, ih, List.foldl_cons, List.foldl_cons]

theorem foldl_shiftXor_lt_two_pow_iff {shifts : List Nat} (hs : ∀ s ∈ shifts, 0 < s) (w : Word)
    (k : Nat) : (shifts.foldl shiftXor w).toNat < 2 ^ k ↔ w.toNat < 2 ^ k := by
  induction shifts generalizing w with
  | nil => rfl
  | cons s shifts ih =>
      obtain ⟨hpos, hrest⟩ := List.forall_mem_cons.mp hs
      rw [List.foldl_cons, ih hrest, shiftXor_lt_two_pow_iff hpos]

/-! ## What a fold keeps -/

variable (least width : Nat)

theorem fold_xor (a b : Word) :
    fold least width (a ^^^ b) = fold least width a ^^^ fold least width b := by
  rw [fold_eq, fold_eq, fold_eq, foldl_shiftXor_xor]

/-- **A fold keeps the highest set bit.** -/
theorem fold_lt_two_pow_iff (w : Word) (k : Nat) :
    (fold least width w).toNat < 2 ^ k ↔ w.toNat < 2 ^ k := by
  rw [fold_eq]
  exact foldl_shiftXor_lt_two_pow_iff (fun _ => pos_of_mem_halvings) w k

theorem size_fold (w : Word) : (fold least width w).toNat.size = w.toNat.size := by
  apply le_antisymm
  · rw [Nat.size_le, fold_lt_two_pow_iff]
    exact Nat.lt_size_self _
  · rw [Nat.size_le, ← fold_lt_two_pow_iff least width]
    exact Nat.lt_size_self _

theorem eq_zero_of_fold_eq_zero {w : Word} (h : fold least width w = 0) : w = 0 := by
  have hlt : w.toNat < 2 ^ 0 := by
    rw [← fold_lt_two_pow_iff least width, h]
    decide
  apply BitVec.eq_of_toNat_eq
  rw [show w.toNat = 0 by omega]
  rfl

theorem fold_injective : Function.Injective (fold least width) := by
  intro a b h
  have hzero : fold least width (a ^^^ b) = 0 := by
    rw [fold_xor, h, BitVec.xor_self]
    rfl
  exact BitVec.xor_eq_zero_iff.mp (eq_zero_of_fold_eq_zero least width hzero)

theorem fold_surjective : Function.Surjective (fold least width) :=
  Finite.surjective_of_injective (fold_injective least width)

/-- The words with no bit set from the place `k` on are permuted. -/
theorem fold_bijOn (k : Nat) :
    Set.BijOn (fold least width) {w | w.toNat < 2 ^ k} {w | w.toNat < 2 ^ k} := by
  refine ⟨?_, (fold_injective least width).injOn, ?_⟩
  · intro w hw
    exact (fold_lt_two_pow_iff least width w k).mpr hw
  · intro v hv
    obtain ⟨w, rfl⟩ := fold_surjective least width v
    exact ⟨w, (fold_lt_two_pow_iff least width w k).mp hv, rfl⟩

/-! ## Identifiers -/

variable {k : NumberKind}

theorem NumberId.word_injective (hk : k.bits ≤ 64) :
    Function.Injective (NumberId.word : NumberId k → Word) := by
  rintro ⟨p⟩ ⟨q⟩ h
  have hpq : p = q := by
    calc p = (p.setWidth 64).setWidth k.bits := by rw [BitVec.setWidth_setWidth_of_le _ hk]; simp
      _ = (q.setWidth 64).setWidth k.bits := congrArg (BitVec.setWidth k.bits) h
      _ = q := by rw [BitVec.setWidth_setWidth_of_le _ hk]; simp
  rw [hpq]

theorem NumberId.same_iff_fold_eq (hk : k.bits ≤ 64) (a b : NumberId k) :
    Identifier.same a b ↔ fold least width a.word = fold least width b.word := by
  rw [NumberId.same_iff, (fold_injective least width).eq_iff, (NumberId.word_injective hk).eq_iff]

theorem SerialId.same_iff_hash?_eq (a b : SerialId) :
    Identifier.same a b ↔ Identifier.hash? a = Identifier.hash? b := by
  show Identifier.same a.toNumberId b.toNumberId ↔ some (fold _ _ _) = some (fold _ _ _)
  rw [Option.some_inj]
  exact NumberId.same_iff_fold_eq _ _ (by decide) a.toNumberId b.toNumberId

/-- **Folding is a linear bijection**, whatever the widths, that keeps the highest set bit of a
word and so permutes the words below each power of two. Hence integers of at most 64 bits, signed
or not, answer to one another when and only when they are folded to one word, and so do those of
any kind, and serial numbers, when and only when they have one hash. -/
theorem fold_bijective :
    (∀ a b, fold least width (a ^^^ b) = fold least width a ^^^ fold least width b)
      ∧ Function.Bijective (fold least width)
      ∧ (∀ w, (fold least width w).toNat.size = w.toNat.size)
      ∧ (∀ k, Set.BijOn (fold least width) {w | w.toNat < 2 ^ k} {w | w.toNat < 2 ^ k})
      ∧ (∀ k : NumberKind, k.bits ≤ 64 → ∀ a b : NumberId k,
          (Identifier.same a b ↔ fold least width a.word = fold least width b.word)
            ∧ (Identifier.same a b ↔ Identifier.hash? a = Identifier.hash? b))
      ∧ ∀ a b : SerialId, Identifier.same a b ↔ Identifier.hash? a = Identifier.hash? b := by
  refine ⟨fold_xor least width, ⟨fold_injective least width, fold_surjective least width⟩,
    size_fold least width, fold_bijOn least width, fun k hk a b => ⟨?_, ?_⟩,
    SerialId.same_iff_hash?_eq⟩
  · exact NumberId.same_iff_fold_eq least width hk a b
  · show _ ↔ some (fold _ _ _) = some (fold _ _ _)
    rw [Option.some_inj]
    exact NumberId.same_iff_fold_eq _ _ hk a b

/-- Signed bytes, declared with a width above 64 and an odd one for the index. -/
def signedByteKind : NumberKind where
  bits := 8
  signed := true
  indexWidth := 3
  valueWidth := 101

/-- The patterns of `-1` and `127` differ in the sign alone. -/
theorem fold_bijective_signed :
    signedByteKind.bits ≤ 64 ∧ ∃ a b : NumberId signedByteKind, a.value = -1 ∧ b.value = 127
      ∧ ¬ Identifier.same a b ∧ Identifier.hash? a ≠ Identifier.hash? b
      ∧ fold 0 1 a.word ≠ fold 0 1 b.word := by
  obtain ⟨-, -, -, -, hnumber, -⟩ := fold_bijective 0 1
  obtain ⟨hword, hhash⟩ := hnumber signedByteKind (by decide) (.ofInt (-1)) (.ofInt 127)
  have hne : ¬ Identifier.same (.ofInt (-1) : NumberId signedByteKind) (.ofInt 127) := by decide
  exact ⟨by decide, .ofInt (-1), .ofInt 127, by decide, by decide, hne,
    fun h => hne (hhash.mpr h), fun h => hne (hword.mpr h)⟩

end ResourceIndex
