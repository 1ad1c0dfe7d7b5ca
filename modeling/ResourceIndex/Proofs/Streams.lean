import ResourceIndex.Proofs.Folding

set_option autoImplicit false

/-! # The hash of a string by its streams

The bytes of a string before its first zero byte make up four streams, by their places modulo 4.
Taking a string in chunks, whatever its length and wherever a zero byte ends it, gives each lane
the bytes of its own stream and no other (`afterChunks_chunks`). The lanes are then the four
bytes of a 32-bit word, which is xor-ed with itself shifted by two (`hashBytes_eq`).
-/

namespace ResourceIndex

/-! ## Streams -/

/-- The bytes of a string before its first zero byte. -/
def beforeZero (bytes : List UInt8) : List UInt8 := bytes.takeWhile (· ≠ 0)

/-- The bytes at places congruent to `j` modulo 4 in their order, the first byte of the string
being at the place `n`. -/
def stream (j n : Nat) (bytes : List UInt8) : List UInt8 :=
  ((bytes.zipIdx n).filter fun p => p.2 % 4 = j).map Prod.fst

theorem beforeZero_cons_of_ne {b : UInt8} (h : b ≠ 0) (bytes : List UInt8) :
    beforeZero (b :: bytes) = b :: beforeZero bytes :=
  List.takeWhile_cons_of_pos (by simpa using h)

/-- What comes after a zero byte does not matter. -/
theorem beforeZero_append_of_mem {p : List UInt8} (h : 0 ∈ p) (q : List UInt8) :
    beforeZero (p ++ q) = beforeZero p := by
  induction p with
  | nil => cases h
  | cons b p ih =>
      by_cases hb : b = 0
      · subst hb
        rfl
      · have hp : 0 ∈ p := (List.mem_cons.mp h).resolve_left (Ne.symm hb)
        rw [List.cons_append, beforeZero_cons_of_ne hb, ih hp, beforeZero_cons_of_ne hb]

theorem beforeZero_append_of_not_mem {p : List UInt8} (h : 0 ∉ p) (q : List UInt8) :
    beforeZero (p ++ q) = p ++ beforeZero q := by
  apply List.takeWhile_append_of_pos
  intro b hb
  have hne : b ≠ 0 := fun h0 => h (h0 ▸ hb)
  simpa using hne

theorem beforeZero_of_not_mem {bytes : List UInt8} (h : 0 ∉ bytes) : beforeZero bytes = bytes :=
  calc beforeZero bytes = beforeZero (bytes ++ []) := by rw [List.append_nil]
    _ = bytes ++ beforeZero [] := beforeZero_append_of_not_mem h []
    _ = bytes := List.append_nil bytes

/-- A zero byte ends a string, unless an earlier one does. -/
theorem beforeZero_append_zero (bytes rest : List UInt8) :
    beforeZero (bytes ++ [0] ++ rest) = beforeZero bytes := by
  rw [beforeZero_append_of_mem (by simp)]
  by_cases h0 : 0 ∈ bytes
  · exact beforeZero_append_of_mem h0 [0]
  · rw [beforeZero_append_of_not_mem h0, beforeZero_of_not_mem h0]
    exact List.append_nil bytes

@[simp] theorem stream_nil (j n : Nat) : stream j n [] = [] := rfl

theorem stream_cons (j n : Nat) (b : UInt8) (bytes : List UInt8) :
    stream j n (b :: bytes)
      = if n % 4 = j then b :: stream j (n + 1) bytes else stream j (n + 1) bytes := by
  unfold stream
  rw [List.zipIdx_cons, List.filter_cons]
  simp only [decide_eq_true_eq]
  split
  · rw [List.map_cons]
  · rfl

theorem stream_append (j n : Nat) (p q : List UInt8) :
    stream j n (p ++ q) = stream j n p ++ stream j (n + p.length) q := by
  unfold stream
  rw [List.zipIdx_append, List.filter_append, List.map_append]

theorem stream_add_four (j n : Nat) (bytes : List UInt8) :
    stream j (n + 4) bytes = stream j n bytes := by
  induction bytes generalizing n with
  | nil => rfl
  | cons b bytes ih =>
      rw [stream_cons, stream_cons, Nat.add_mod_right, show n + 4 + 1 = n + 1 + 4 by omega, ih]

/-! ## The lanes after their streams -/

namespace Lanes

/-- Each lane after the bytes of its own stream, of a string whose first byte is at the place
`n`. -/
def afterStreams (l : Lanes) (n : Nat) (bytes : List UInt8) : Lanes :=
  Vector.ofFn fun j => (stream j n bytes).foldl absorb l[j]

theorem getElem_afterStreams (l : Lanes) (n : Nat) (bytes : List UInt8) {j : Nat} (hj : j < 4) :
    (l.afterStreams n bytes)[j] = (stream j n bytes).foldl absorb l[j] := by
  simp [afterStreams]

theorem afterStreams_nil (l : Lanes) (n : Nat) : l.afterStreams n [] = l := by
  ext j hj
  rw [getElem_afterStreams _ _ _ hj, stream_nil, List.foldl_nil]

theorem afterStreams_cons (l : Lanes) {j : Nat} (hj : j < 4) (b : UInt8) (bytes : List UInt8) :
    l.afterStreams j (b :: bytes) = afterStreams (l.set j (absorb l[j] b)) (j + 1) bytes := by
  ext i hi
  rw [getElem_afterStreams _ _ _ hi, getElem_afterStreams _ _ _ hi, stream_cons,
    Nat.mod_eq_of_lt hj, Vector.getElem_set]
  split
  · subst_vars
    rfl
  · rfl

theorem afterStreams_append (l : Lanes) (n : Nat) (p q : List UInt8) :
    l.afterStreams n (p ++ q) = (l.afterStreams n p).afterStreams (n + p.length) q := by
  ext i hi
  rw [getElem_afterStreams _ _ _ hi, getElem_afterStreams _ _ _ hi, getElem_afterStreams _ _ _ hi,
    stream_append, List.foldl_append]

theorem afterStreams_four (l : Lanes) (bytes : List UInt8) :
    l.afterStreams 4 bytes = l.afterStreams 0 bytes := by
  ext i hi
  rw [getElem_afterStreams _ _ _ hi, getElem_afterStreams _ _ _ hi, stream_add_four i 0]

/-! ## The lanes after chunks -/

/-- **A chunk** gives the lanes the bytes before its first zero byte, which is an error. -/
theorem feed_eq (l : Lanes) {j : Nat} {chunk : List UInt8} (hlen : j + chunk.length ≤ 4) :
    l.feed j chunk
      = if 0 ∈ chunk then .error (l.afterStreams j (beforeZero chunk))
        else .ok (l.afterStreams j chunk) := by
  induction chunk generalizing j l with
  | nil =>
      rw [if_neg List.not_mem_nil, afterStreams_nil]
      rfl
  | cons b rest ih =>
      rw [List.length_cons] at hlen
      have hj : j < 4 := by omega
      rw [feed, dif_pos hj]
      by_cases hb : b = 0
      · subst hb
        rw [if_pos rfl, if_pos List.mem_cons_self]
        show Except.error l = Except.error (l.afterStreams j [])
        rw [afterStreams_nil]
      · rw [if_neg hb, ih _ (by omega), beforeZero_cons_of_ne hb, afterStreams_cons l hj,
          afterStreams_cons l hj]
        simp only [List.mem_cons, Ne.symm hb, false_or]

theorem afterChunks_cons (l : Lanes) (c : List UInt8) (cs : List (List UInt8)) :
    l.afterChunks (c :: cs)
      = match l.feed 0 c with
        | .ok l => l.afterChunks cs
        | .error l => l := by
  unfold afterChunks
  rw [List.foldlM_cons]
  cases l.feed 0 c with
  | ok l => rfl
  | error l => rfl

/-- The first chunk, and the others unless the string ends in it. -/
theorem afterChunks_cons_eq (l : Lanes) {c : List UInt8} (hlen : c.length ≤ 4)
    (cs : List (List UInt8)) :
    l.afterChunks (c :: cs)
      = if 0 ∈ c then l.afterStreams 0 (beforeZero c)
        else (l.afterStreams 0 c).afterChunks cs := by
  rw [afterChunks_cons, feed_eq l (by omega)]
  by_cases h0 : 0 ∈ c
  · rw [if_pos h0, if_pos h0]
  · rw [if_neg h0, if_neg h0]

/-- **Chunk by chunk each lane takes its own stream.** -/
theorem afterChunks_chunks (l : Lanes) (bytes : List UInt8) :
    l.afterChunks (chunks bytes) = l.afterStreams 0 (beforeZero bytes) := by
  fun_induction chunks bytes generalizing l with
  | case1 a b c d rest ih =>
      have hlen : [a, b, c, d].length = 4 := rfl
      rw [afterChunks_cons_eq l hlen.le, ih]
      show _ = l.afterStreams 0 (beforeZero ([a, b, c, d] ++ rest))
      by_cases h0 : 0 ∈ [a, b, c, d]
      · rw [if_pos h0, beforeZero_append_of_mem h0]
      · rw [if_neg h0, beforeZero_append_of_not_mem h0, afterStreams_append]
        exact (afterStreams_four _ _).symm
  | case2 => exact (afterStreams_nil l 0).symm
  | case3 rest hfour hne =>
      have hlen : rest.length ≤ 4 := by
        match rest, hfour with
        | [], _ => simp
        | [_], _ => simp
        | [_, _], _ => simp
        | [_, _, _], _ => simp
        | a :: b :: c :: d :: rest, hfour => exact absurd rfl (hfour a b c d rest)
      rw [afterChunks_cons_eq l hlen]
      by_cases h0 : 0 ∈ rest
      · rw [if_pos h0]
      · rw [if_neg h0, beforeZero_of_not_mem h0]
        rfl

/-! ## The word of the lanes -/

/-- Lane `j` is byte `j`. -/
theorem extractLsb'_word (l : Lanes) (j : Fin 4) :
    l.word.extractLsb' (8 * j) 8 = l[j].toBitVec := by
  apply BitVec.eq_of_getLsbD_eq
  intro i hi
  rw [BitVec.getLsbD_extractLsb', decide_eq_true hi, Bool.true_and]
  simp only [word, BitVec.getLsbD_append]
  fin_cases j
  · simp [hi]
  · simp [hi]
  · have hlow : ¬ 16 + i - 8 < 8 := by omega
    have hplace : 16 + i - 8 - 8 = i := by omega
    simp [hi, hlow, hplace, show ¬ 16 + i < 8 by omega]
  · have hlow : ¬ 24 + i - 8 < 8 := by omega
    have hplace : 24 + i - 8 - 8 - 8 = i := by omega
    simp [hi, hlow, hplace, show ¬ 24 + i < 8 by omega, show ¬ 24 + i - 8 - 8 < 8 by omega]

end Lanes

/-! ## The hash -/

/-- The lanes that a string leaves, as 32 bits. -/
def streamWord (bytes : List UInt8) : BitVec 32 :=
  (Lanes.start.afterStreams 0 (beforeZero bytes)).word

theorem extractLsb'_streamWord (bytes : List UInt8) (j : Fin 4) :
    (streamWord bytes).extractLsb' (8 * j) 8
      = ((stream j 0 (beforeZero bytes)).foldl absorb 0).toBitVec := by
  rw [streamWord, Lanes.extractLsb'_word, Fin.getElem_fin, Lanes.getElem_afterStreams _ _ _ j.isLt]
  simp [Lanes.start]

theorem hashBytes_eq_fold (bytes : List UInt8) :
    hashBytes bytes = fold nameIndexWidth nameFoldWidth ((streamWord bytes).setWidth 64) := by
  unfold hashBytes
  rw [Lanes.afterChunks_chunks]
  rfl

/-- Folding from four bits is one round. -/
theorem fold_names (w : Word) : fold nameIndexWidth nameFoldWidth w = w ^^^ (w >>> 2) := by
  rw [fold_eq]
  have hshifts : halvings nameIndexWidth (min nameFoldWidth 64) = [2] := by
    simp [nameIndexWidth, nameFoldWidth, halvings]
  rw [hshifts]
  rfl

/-- **The hash of a string** is its word xor-ed with itself shifted by two. -/
theorem hashBytes_eq (bytes : List UInt8) :
    hashBytes bytes = (streamWord bytes ^^^ (streamWord bytes >>> 2)).setWidth 64 := by
  rw [hashBytes_eq_fold, fold_names, BitVec.setWidth_xor]
  rfl

theorem hashBytes_congr {x y : List UInt8} (h : beforeZero x = beforeZero y) :
    hashBytes x = hashBytes y := by
  rw [hashBytes_eq, hashBytes_eq, streamWord, streamWord, h]

/-- **The hash of a string by its streams.** A string, up to its first zero byte, makes up four
streams by the places of its bytes modulo 4. Each is reduced to one byte by substituting the xor of
what it has come to with its next byte, the four of them are the bytes of a word of 32 bits, and
this word xor-ed with itself shifted by two is the hash. So the hash has 32 bits, what comes after
a zero byte has no part in it, and names that answer to one another have one hash. -/
theorem hashBytes_streams (bytes : List UInt8) :
    (∃ w : BitVec 32,
        (∀ j : Fin 4, w.extractLsb' (8 * j) 8 =
          ((stream j 0 (beforeZero bytes)).foldl (fun acc c => substitute (acc ^^^ c)) 0).toBitVec)
        ∧ hashBytes bytes = (w ^^^ (w >>> 2)).setWidth 64)
      ∧ (hashBytes bytes).toNat < 2 ^ 32
      ∧ (∀ rest, hashBytes (bytes ++ [0] ++ rest) = hashBytes bytes)
      ∧ ∀ a b : NameId, Identifier.same a b → Identifier.hash? a = Identifier.hash? b := by
  refine ⟨⟨streamWord bytes, extractLsb'_streamWord bytes, hashBytes_eq bytes⟩, ?_, fun rest => ?_,
    fun a b h => LawfulIdentifier.hash_eq h⟩
  · rw [hashBytes_eq, BitVec.toNat_setWidth]
    exact (Nat.mod_le _ _).trans_lt (BitVec.isLt _)
  · exact hashBytes_congr (beforeZero_append_zero bytes rest)

/-- A name that is kept and one that is referred to, of a chunk and one byte more. -/
theorem hashBytes_streams_stored :
    Identifier.same (NameId.named "hello" .owned) (.named "hello" .borrowed)
      ∧ Identifier.hash? (NameId.named "hello" .owned) = some 0xa0a031fa
      ∧ Identifier.hash? (NameId.named "hello" .borrowed) = some 0xa0a031fa := by
  have hsame : Identifier.same (NameId.named "hello" .owned) (.named "hello" .borrowed) := by decide
  have hhash : Identifier.hash? (NameId.named "hello" .owned) = some 0xa0a031fa := by
    show some (hashBytes _) = _
    rw [hashBytes_eq]
    decide +kernel
  obtain ⟨-, -, -, hname⟩ := hashBytes_streams []
  exact ⟨hsame, hhash, (hname _ _ hsame).symm.trans hhash⟩

end ResourceIndex
