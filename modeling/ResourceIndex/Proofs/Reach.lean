import ResourceIndex.Proofs.Detection
import ResourceIndex.Proofs.Influence

set_option autoImplicit false

/-! # Which bytes of a name bear on its first bucket

The low byte of the hash of a string picks its bucket in a fresh table. The four lanes are the bytes
of the word that is folded, and folding it as an integer of four bits is one shift by two: the low
byte has the first lane in it, two bits of the second one and nothing of the other two
(`nameIndex_names`). So half of the bytes of a name have no part in its first bucket
(`hashBytes_of_fourth`).

Folded as an integer of 32 bits, which it is, the word would have all four lanes in its low byte
(`nameIndex_thirtyTwo`). Every byte of a name would then bear on the bucket, as replacing one
changes one lane and no other (`lane_set_of_ne`, `lane_set_ne`). `hashBytes_reaches` has both side
by side.
-/

namespace ResourceIndex

/-! ## Lanes -/

/-- The value that the lane `j` has after a string. -/
def lane (j : Nat) (bytes : List UInt8) : BitVec 8 :=
  ((stream j 0 (beforeZero bytes)).foldl absorb 0).toBitVec

theorem streamWord_eq (bytes : List UInt8) :
    streamWord bytes = lane 3 bytes ++ lane 2 bytes ++ lane 1 bytes ++ lane 0 bytes := by
  unfold streamWord Lanes.word lane
  simp only [Lanes.getElem_afterStreams]
  simp [Lanes.start]

section

variable {x : List UInt8} {i j : Nat} {b : UInt8}

theorem not_mem_set (hx : 0 ∉ x) (hb : b ≠ 0) : 0 ∉ x.set i b := by
  intro hm
  rcases List.mem_or_eq_of_mem_set hm with hm | heq
  · exact hx hm
  · exact hb heq.symm

/-- Replacing a byte leaves the lanes alone that do not take it. -/
theorem lane_set_of_ne (hx : 0 ∉ x) (hb : b ≠ 0) (hij : i % 4 ≠ j) :
    lane j (x.set i b) = lane j x := by
  unfold lane
  rw [beforeZero_of_not_mem hx, beforeZero_of_not_mem (not_mem_set hx hb),
    stream_congr (List.length_set ..) fun k hk => ?_]
  have hik : i ≠ k := by
    rintro rfl
    exact hij (by omega)
  exact List.getElem?_set_ne hik

/-- Replacing a byte by another one changes the lane that takes it. -/
theorem lane_set_ne (hx : 0 ∉ x) (hb : b ≠ 0) (hi : i < x.length) (hne : b ≠ x[i]) :
    lane (i % 4) (x.set i b) ≠ lane (i % 4) x := by
  have honly : ∃! k, (0 + k) % 4 = i % 4 ∧ (x.set i b)[k]? ≠ x[k]? := by
    refine ⟨i, ⟨by omega, ?_⟩, ?_⟩
    · rw [List.getElem?_set_self hi, List.getElem?_eq_getElem hi]
      exact fun heq => hne (Option.some.inj heq)
    · rintro k ⟨-, hk⟩
      by_contra hki
      exact hk (List.getElem?_set_ne (Ne.symm hki))
  unfold lane
  rw [beforeZero_of_not_mem hx, beforeZero_of_not_mem (not_mem_set hx hb)]
  exact fun heq => foldl_stream_ne (List.length_set ..) honly 0 (UInt8.toBitVec_inj.mp heq)

end

/-! ## The low byte of a folded word -/

/-- Folding from 32 bits is two rounds. -/
theorem fold_thirtyTwo (w : Word) :
    fold nameIndexWidth 32 w = shiftXor (shiftXor w 16) 8 := by
  rw [fold_eq]
  have hshifts : halvings nameIndexWidth (min 32 64) = [16, 8] := by
    simp [nameIndexWidth, halvings]
  rw [hshifts]
  rfl

section

variable (a b c d : BitVec 8)

/-- The bits of a word made of four bytes. -/
theorem getLsbD_bytes {i : Nat} (hi : i < 8) :
    (d ++ c ++ b ++ a).getLsbD i = a.getLsbD i
      ∧ (d ++ c ++ b ++ a).getLsbD (8 + i) = b.getLsbD i
      ∧ (d ++ c ++ b ++ a).getLsbD (16 + i) = c.getLsbD i
      ∧ (d ++ c ++ b ++ a).getLsbD (24 + i) = d.getLsbD i := by
  simp only [BitVec.getLsbD_append]
  refine ⟨?_, ?_, ?_, ?_⟩
  · rw [if_pos hi]
  · rw [if_neg (by omega), if_pos (by omega), Nat.add_sub_cancel_left]
  · rw [if_neg (by omega), if_neg (by omega), if_pos (by omega)]
    congr 1
    omega
  · rw [if_neg (by omega), if_neg (by omega), if_neg (by omega)]
    congr 1
    omega

/-- Folded from 4 bits, a word has its lowest byte and two bits of the next one in the low byte. -/
theorem setWidth_fold_names :
    (fold nameIndexWidth nameFoldWidth ((d ++ c ++ b ++ a).setWidth 64)).setWidth 8
      = a ^^^ (a >>> 2) ^^^ (b <<< 6) := by
  apply BitVec.eq_of_getLsbD_eq
  intro i hi
  obtain ⟨ha, -⟩ := getLsbD_bytes a b c d hi
  rw [fold_names]
  simp only [BitVec.getLsbD_setWidth, BitVec.getLsbD_xor, BitVec.getLsbD_ushiftRight,
    BitVec.getLsbD_shiftLeft, ha]
  -- the bit shifted here is one of the lowest byte, or one of the lowest two of the next byte
  by_cases hlow : i < 6
  · obtain ⟨ha', -⟩ := getLsbD_bytes a b c d (i := 2 + i) (by omega)
    rw [ha']
    simp [hi, hlow, show i < 64 by omega, show 2 + i < 64 by omega]
  · obtain ⟨-, hb', -⟩ := getLsbD_bytes a b c d (i := i - 6) (by omega)
    have hplace : 2 + i = 8 + (i - 6) := by omega
    have hbeyond : a.getLsbD (8 + (i - 6)) = false := BitVec.getLsbD_of_ge a _ (by omega)
    rw [hplace, hb', hbeyond]
    simp [hi, hlow, show i < 64 by omega, show 8 + (i - 6) < 64 by omega]

/-- Folded from 32 bits, it has all its bytes there. -/
theorem setWidth_fold_thirtyTwo :
    (fold nameIndexWidth 32 ((d ++ c ++ b ++ a).setWidth 64)).setWidth 8 = a ^^^ b ^^^ c ^^^ d := by
  apply BitVec.eq_of_getLsbD_eq
  intro i hi
  obtain ⟨ha, hb, hc, hd⟩ := getLsbD_bytes a b c d hi
  have hplace : 16 + (8 + i) = 24 + i := by omega
  rw [fold_thirtyTwo]
  unfold shiftXor
  simp only [BitVec.getLsbD_setWidth, BitVec.getLsbD_xor, BitVec.getLsbD_ushiftRight, hplace, ha,
    hb, hc, hd]
  simp only [decide_eq_true hi, decide_eq_true (show i < 64 by omega),
    decide_eq_true (show 8 + i < 64 by omega), decide_eq_true (show 16 + i < 64 by omega),
    decide_eq_true (show 24 + i < 64 by omega), Bool.true_and]
  simp only [Bool.xor_assoc, Bool.xor_left_comm (c.getLsbD i)]

/-- A byte xor-ed with itself shifted is that of no other byte. -/
theorem xor_shiftRight_injective : Function.Injective fun a : BitVec 8 => a ^^^ (a >>> 2) := by
  intro a b h
  have hfold : ∀ a : BitVec 8,
      fold nameIndexWidth nameFoldWidth (a.setWidth 64) = (a ^^^ (a >>> 2)).setWidth 64 := by
    intro a
    rw [fold_names, BitVec.setWidth_xor]
    rfl
  have hwide : a.setWidth 64 = b.setWidth 64 := by
    apply fold_injective nameIndexWidth nameFoldWidth
    rw [hfold, hfold]
    exact congrArg (BitVec.setWidth 64) h
  simpa using congrArg (BitVec.setWidth 8) hwide

theorem shiftLeft_six_eq_iff : a <<< 6 = b <<< 6 ↔ a.toNat % 4 = b.toNat % 4 := by
  rw [← BitVec.toNat_inj, BitVec.toNat_shiftLeft, BitVec.toNat_shiftLeft, Nat.shiftLeft_eq,
    Nat.shiftLeft_eq]
  omega

end

/-! ## The bucket of a name in a fresh table -/

/-- The bucket of a string in a fresh table of names, if the word of its lanes is folded from
`width` bits. -/
def nameIndex (width : Nat) (bytes : List UInt8) : Nat :=
  firstIndex nameIndexWidth width ((streamWord bytes).setWidth 64)

theorem nameIndex_eq_toNat (width : Nat) (bytes : List UInt8) :
    nameIndex width bytes
      = ((fold nameIndexWidth width ((streamWord bytes).setWidth 64)).setWidth 8).toNat := by
  rw [nameIndex, firstIndex_eq, BitVec.toNat_setWidth]
  rfl

theorem nameIndex_names (bytes : List UInt8) :
    nameIndex nameFoldWidth bytes
      = (lane 0 bytes ^^^ (lane 0 bytes >>> 2) ^^^ (lane 1 bytes <<< 6)).toNat := by
  rw [nameIndex_eq_toNat, streamWord_eq, setWidth_fold_names]

theorem nameIndex_thirtyTwo (bytes : List UInt8) :
    nameIndex 32 bytes
      = (lane 0 bytes ^^^ lane 1 bytes ^^^ lane 2 bytes ^^^ lane 3 bytes).toNat := by
  rw [nameIndex_eq_toNat, streamWord_eq, setWidth_fold_thirtyTwo]

/-- The low byte of the hash. -/
theorem nameIndex_eq_mod (bytes : List UInt8) :
    nameIndex nameFoldWidth bytes = (hashBytes bytes).toNat % 2 ^ nameIndexWidth := by
  rw [nameIndex, firstIndex_eq, hashBytes_eq_fold]

/-- The low byte of the hash of a name is its bucket in a fresh table. -/
theorem address?_new_named {ρ : Type} [Resource ρ NameId] (text : String) (storage : Storage) :
    (Table.new : Table ρ).address? (NameId.named text storage)
      = some ((NameId.hashText text).toNat % 2 ^ nameIndexWidth) := by
  unfold NameId.hashText
  rw [← nameIndex_eq_mod, nameIndex, firstIndex, ← hashBytes_eq_fold]
  rfl

section

variable {x : List UInt8} {i : Nat} {b : UInt8}

theorem nameIndex_names_set_ne_iff (hx : 0 ∉ x) (hb : b ≠ 0) (hi : i < x.length)
    (hne : b ≠ x[i]) :
    nameIndex nameFoldWidth (x.set i b) ≠ nameIndex nameFoldWidth x
      ↔ i % 4 = 0 ∨ i % 4 = 1 ∧ (lane 1 (x.set i b)).toNat % 4 ≠ (lane 1 x).toNat % 4 := by
  have hkeeps : ∀ j, i % 4 ≠ j → lane j (x.set i b) = lane j x := fun j => lane_set_of_ne hx hb
  have hchanges := lane_set_ne hx hb hi hne
  rw [nameIndex_names, nameIndex_names, Ne, BitVec.toNat_inj]
  by_cases h0 : i % 4 = 0
  · rw [h0] at hchanges
    rw [hkeeps 1 (by omega), BitVec.xor_left_inj, xor_shiftRight_injective.eq_iff]
    exact iff_of_true hchanges (Or.inl h0)
  · rw [hkeeps 0 h0, BitVec.xor_right_inj, shiftLeft_six_eq_iff]
    by_cases h1 : i % 4 = 1
    · simp [h1]
    · rw [hkeeps 1 h1]
      simp [h0, h1]

theorem nameIndex_thirtyTwo_set_ne (hx : 0 ∉ x) (hb : b ≠ 0) (hi : i < x.length)
    (hne : b ≠ x[i]) :
    nameIndex 32 (x.set i b) ≠ nameIndex 32 x := by
  have hkeeps : ∀ j, i % 4 ≠ j → lane j (x.set i b) = lane j x := fun j => lane_set_of_ne hx hb
  have hchanges := lane_set_ne hx hb hi hne
  rw [nameIndex_thirtyTwo, nameIndex_thirtyTwo, Ne, BitVec.toNat_inj]
  obtain h | h | h | h : i % 4 = 0 ∨ i % 4 = 1 ∨ i % 4 = 2 ∨ i % 4 = 3 := by omega
  all_goals rw [h] at hchanges hkeeps
  · rw [hkeeps 1 (by decide), hkeeps 2 (by decide), hkeeps 3 (by decide)]
    simpa using hchanges
  · rw [hkeeps 0 (by decide), hkeeps 2 (by decide), hkeeps 3 (by decide)]
    simpa using hchanges
  · rw [hkeeps 0 (by decide), hkeeps 1 (by decide), hkeeps 3 (by decide)]
    simpa using hchanges
  · rw [hkeeps 0 (by decide), hkeeps 1 (by decide), hkeeps 2 (by decide)]
    simpa using hchanges

/-- **Which bytes of a name bear on its first bucket.** In a string without zero bytes, replacing a
byte by another one changes the low byte of the hash, the bucket of the string in a fresh table,
when the byte is of the first stream, and also when it is of the second and its lane does not come
to the same two low bits; a byte of the other two streams never has a part in it. If the word of the
lanes were folded from its 32 bits, replacing any byte would change the low byte. -/
theorem hashBytes_reaches (hx : 0 ∉ x) (hb : b ≠ 0) (hi : i < x.length) (hne : b ≠ x[i]) :
    ((hashBytes (x.set i b)).toNat % 2 ^ nameIndexWidth ≠ (hashBytes x).toNat % 2 ^ nameIndexWidth
        ↔ i % 4 = 0 ∨ i % 4 = 1 ∧ (lane 1 (x.set i b)).toNat % 4 ≠ (lane 1 x).toNat % 4)
      ∧ nameIndex 32 (x.set i b) ≠ nameIndex 32 x
      ∧ ∀ (ρ : Type) [Resource ρ NameId] (text : String) (storage : Storage),
          (Table.new : Table ρ).address? (NameId.named text storage)
            = some ((NameId.hashText text).toNat % 2 ^ nameIndexWidth) := by
  refine ⟨?_, nameIndex_thirtyTwo_set_ne hx hb hi hne, fun ρ _ => address?_new_named⟩
  rw [← nameIndex_eq_mod, ← nameIndex_eq_mod]
  exact nameIndex_names_set_ne_iff hx hb hi hne

end

/-- Of the bytes of `abcde`, a chunk and one more, the last one is of the first stream and the one
before it of the fourth. -/
theorem hashBytes_reaches_five :
    0 ∉ fiveBytes ∧ (122 : UInt8) ≠ 0 ∧ 4 < fiveBytes.length
      ∧ (122 : UInt8) ≠ fiveBytes[4] ∧ (122 : UInt8) ≠ fiveBytes[3]
      ∧ (hashBytes (fiveBytes.set 4 122)).toNat % 2 ^ nameIndexWidth
          ≠ (hashBytes fiveBytes).toNat % 2 ^ nameIndexWidth
      ∧ (hashBytes (fiveBytes.set 3 122)).toNat % 2 ^ nameIndexWidth
          = (hashBytes fiveBytes).toNat % 2 ^ nameIndexWidth
      ∧ nameIndex 32 (fiveBytes.set 3 122) ≠ nameIndex 32 fiveBytes := by
  obtain ⟨hfirst, -, -⟩ := hashBytes_reaches (x := fiveBytes) (i := 4) (b := 122) (by decide)
    (by decide) (by decide) (by decide)
  obtain ⟨hfourth, hwide, -⟩ := hashBytes_reaches (x := fiveBytes) (i := 3) (b := 122) (by decide)
    (by decide) (by decide) (by decide)
  refine ⟨by decide, by decide, by decide, by decide, by decide, hfirst.mpr (Or.inl rfl), ?_,
    hwide⟩
  by_contra hne
  exact absurd (hfourth.mp hne) (by decide)

/-- The names `abcd` and `abce` have one first bucket, and so not every one of the last four bytes
of a name bears on it. -/
theorem hashBytes_of_fourth :
    (hashBytes ([97, 98, 99, 100].set 3 101)).toNat % 2 ^ nameIndexWidth
        = (hashBytes [97, 98, 99, 100]).toNat % 2 ^ nameIndexWidth
      ∧ ¬ ∀ (x : List UInt8) (i : Nat) (hi : i < x.length) (b : UInt8),
          0 ∉ x → x.length ≤ i + 4 → b ≠ 0 → b ≠ x[i] →
            (hashBytes (x.set i b)).toNat % 2 ^ nameIndexWidth
              ≠ (hashBytes x).toNat % 2 ^ nameIndexWidth := by
  have heq : (hashBytes ([97, 98, 99, 100].set 3 101)).toNat % 2 ^ nameIndexWidth
      = (hashBytes [97, 98, 99, 100]).toNat % 2 ^ nameIndexWidth := by
    rw [hashBytes_eq, hashBytes_eq]
    decide +kernel
  exact ⟨heq, fun hall => hall [97, 98, 99, 100] 3 (by decide) 101 (by decide) (by decide)
    (by decide) (by decide) heq⟩

end ResourceIndex
