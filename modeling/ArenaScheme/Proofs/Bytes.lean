import ArenaScheme.Record
import Mathlib

/-! What reading gives after writing. Every lemma comes down to single bytes: a write changes the
bytes of its own range, and a word is the number that its four bytes spell. -/

namespace ArenaScheme

namespace Memory

theorem byte_setByte_self (m : Memory) (i : Nat) (b : UInt8) (hi : i < m.size) :
    (m.setByte i b).byte i = b := by
  rw [byte_setByte, if_pos ⟨rfl, hi⟩]

theorem byte_setByte_of_ne (m : Memory) (i j : Nat) (b : UInt8) (h : i ≠ j) :
    (m.setByte i b).byte j = m.byte j := by
  rw [byte_setByte, if_neg (by rintro ⟨rfl, _⟩; exact h rfl)]

@[simp] theorem size_setWord (m : Memory) (i v : Nat) : (m.setWord i v).size = m.size := by
  simp only [setWord, size_setByte]

@[simp] theorem size_resize (m : Memory) (size : Nat) :
    (m.resize size).size = max m.size size := rfl

@[simp] theorem byte_resize (m : Memory) (size i : Nat) : (m.resize size).byte i = m.byte i := rfl

/-! Words. -/

/-- The number that four bytes spell, the least significant one first. -/
theorem word_eq (m : Memory) (i : Nat) :
    m.word i = (m.byte i).toNat + 256 * (m.byte (i + 1)).toNat +
      65536 * (m.byte (i + 2)).toNat + 16777216 * (m.byte (i + 3)).toNat := by
  have h0 := (m.byte i).toNat_lt
  have h1 := (m.byte (i + 1)).toNat_lt
  have h2 := (m.byte (i + 2)).toNat_lt
  have h3 := (m.byte (i + 3)).toNat_lt
  simp only [word, UInt32.toNat_add, UInt32.toNat_mul, UInt8.toNat_toUInt32,
    UInt32.reduceToNat, Nat.reducePow]
  omega

theorem word_lt (m : Memory) (i : Nat) : m.word i < 4294967296 := (UInt32.toNat_lt _)

/-- Words are equal where their bytes are. -/
theorem word_congr {m n : Memory} {i j : Nat} (h : ∀ k < 4, m.byte (i + k) = n.byte (j + k)) :
    m.word i = n.word j := by
  have h0 := h 0 (by omega)
  have h1 := h 1 (by omega)
  have h2 := h 2 (by omega)
  have h3 := h 3 (by omega)
  rw [word_eq, word_eq, h1, h2, h3]
  rw [Nat.add_zero, Nat.add_zero] at h0
  rw [h0]

theorem byte_setWord_of_outside (m : Memory) (i v j : Nat) (h : j < i ∨ i + 4 ≤ j) :
    (m.setWord i v).byte j = m.byte j := by
  unfold setWord
  rw [byte_setByte_of_ne _ _ _ _ (by omega), byte_setByte_of_ne _ _ _ _ (by omega),
    byte_setByte_of_ne _ _ _ _ (by omega), byte_setByte_of_ne _ _ _ _ (by omega)]

theorem word_setWord_of_disjoint (m : Memory) (i v j : Nat) (h : j + 4 ≤ i ∨ i + 4 ≤ j) :
    (m.setWord i v).word j = m.word j :=
  word_congr fun k hk => byte_setWord_of_outside m i v (j + k) (by omega)

private theorem toNat_ofNat_digit (v : Nat) : (UInt8.ofNat v).toNat = v % 256 := by
  simp [UInt8.toNat_ofNat']

theorem word_setWord_self (m : Memory) (i v : Nat) (hi : i + 4 ≤ m.size) :
    (m.setWord i v).word i = v % 4294967296 := by
  have h0 : (m.setWord i v).byte i = UInt8.ofNat v := by
    unfold setWord
    rw [byte_setByte_of_ne _ _ _ _ (by omega), byte_setByte_of_ne _ _ _ _ (by omega),
      byte_setByte_of_ne _ _ _ _ (by omega), byte_setByte_self _ _ _ (by omega)]
  have h1 : (m.setWord i v).byte (i + 1) = UInt8.ofNat (v / 256) := by
    unfold setWord
    rw [byte_setByte_of_ne _ _ _ _ (by omega), byte_setByte_of_ne _ _ _ _ (by omega),
      byte_setByte_self _ _ _ (by simp only [size_setByte]; omega)]
  have h2 : (m.setWord i v).byte (i + 2) = UInt8.ofNat (v / 65536) := by
    unfold setWord
    rw [byte_setByte_of_ne _ _ _ _ (by omega),
      byte_setByte_self _ _ _ (by simp only [size_setByte]; omega)]
  have h3 : (m.setWord i v).byte (i + 3) = UInt8.ofNat (v / 16777216) := by
    unfold setWord
    rw [byte_setByte_self _ _ _ (by simp only [size_setByte]; omega)]
  rw [word_eq, h0, h1, h2, h3]
  simp only [toNat_ofNat_digit]
  omega

theorem word_setWord_of_lt (m : Memory) (i v : Nat) (hi : i + 4 ≤ m.size)
    (hv : v < 4294967296) : (m.setWord i v).word i = v := by
  rw [word_setWord_self m i v hi, Nat.mod_eq_of_lt hv]

theorem setWord_zero {m : Memory} {i : Nat} (h : m.stored.size ≤ i) : m.setWord i 0 = m := by
  have hb : ∀ k, m.setByte (i + k) (UInt8.ofNat 0) = m := fun k => by
    rw [setByte, dif_neg (by omega), dif_neg (by simp)]
  simp only [setWord, Nat.zero_div]
  rw [show m.setByte i (UInt8.ofNat 0) = m from hb 0, hb 1, hb 2, hb 3]

/-! Runs of words and bytes. -/

section Runs

-- left open, these two are unfolded in every comparison of two memories
attribute [local irreducible] setByte setWord

theorem writeWords_cons (m : Memory) (i v : Nat) (vs : List Nat) :
    m.writeWords i (v :: vs) = (m.setWord i v).writeWords (i + 4) vs := rfl

theorem fillWords_succ (m : Memory) (i v n : Nat) :
    m.fillWords i v (n + 1) = (m.setWord i v).fillWords (i + 4) v n := by
  rw [fillWords]
  split
  · rename_i h
    obtain ⟨rfl, hi⟩ := h
    rw [setWord_zero hi]
    cases n with
    | zero => rfl
    | succ n => rw [fillWords, if_pos ⟨rfl, by omega⟩]
  · rfl

theorem writeBytes_cons (m : Memory) (i : Nat) (b : UInt8) (bs : List UInt8) :
    m.writeBytes i (b :: bs) = (m.setByte i b).writeBytes (i + 1) bs := rfl

theorem move_succ (m : Memory) (source target n : Nat) :
    m.move source target (n + 1) =
      (m.setByte target (m.byte source)).move (source + 1) (target + 1) n := by
  rw [move]
  split
  · rename_i h
    subst h
    rw [setByte_byte]
    cases n with
    | zero => rfl
    | succ n => rw [move, if_pos rfl]
  · rfl

end Runs

@[simp] theorem size_writeWords (m : Memory) (i : Nat) (vs : List Nat) :
    (m.writeWords i vs).size = m.size := by
  induction vs generalizing m i with
  | nil => rfl
  | cons v vs ih => rw [writeWords_cons, ih, size_setWord]

@[simp] theorem size_writeBytes (m : Memory) (i : Nat) (bs : List UInt8) :
    (m.writeBytes i bs).size = m.size := by
  induction bs generalizing m i with
  | nil => rfl
  | cons b bs ih => rw [writeBytes_cons, ih, size_setByte]

@[simp] theorem size_move (m : Memory) (source target n : Nat) :
    (m.move source target n).size = m.size := by
  induction n generalizing m source target with
  | zero => rfl
  | succ n ih => rw [move_succ, ih, size_setByte]

theorem byte_writeWords_of_outside (m : Memory) (i : Nat) (vs : List Nat) (j : Nat)
    (h : j < i ∨ i + 4 * vs.length ≤ j) : (m.writeWords i vs).byte j = m.byte j := by
  induction vs generalizing m i with
  | nil => rfl
  | cons v vs ih =>
    simp only [List.length_cons] at h
    rw [writeWords_cons, ih _ _ (by omega), byte_setWord_of_outside _ _ _ _ (by omega)]

theorem word_writeWords (m : Memory) (i : Nat) (vs : List Nat) (k : Nat) (hk : k < vs.length)
    (hi : i + 4 * vs.length ≤ m.size) :
    (m.writeWords i vs).word (i + 4 * k) = vs[k] % 4294967296 := by
  induction vs generalizing m i k with
  | nil => simp at hk
  | cons v vs ih =>
    simp only [List.length_cons] at hk hi
    cases k with
    | zero =>
      rw [writeWords_cons, List.getElem_cons_zero, ← word_setWord_self m i v (by omega)]
      exact word_congr fun k hk => byte_writeWords_of_outside _ _ _ _ (by omega)
    | succ k =>
      have hrest := ih (m.setWord i v) (i + 4) k (by omega) (by rw [size_setWord]; omega)
      rw [writeWords_cons, List.getElem_cons_succ, ← hrest]
      congr 1
      omega

theorem fillWords_eq (m : Memory) (i v n : Nat) :
    m.fillWords i v n = m.writeWords i (List.replicate n v) := by
  induction n generalizing m i with
  | zero => rfl
  | succ n ih => rw [fillWords_succ, List.replicate_succ, writeWords_cons, ih]

theorem byte_writeBytes (m : Memory) (i : Nat) (bs : List UInt8) (j : Nat)
    (hi : i + bs.length ≤ m.size) :
    (m.writeBytes i bs).byte j =
      if h : i ≤ j ∧ j < i + bs.length then bs[j - i] else m.byte j := by
  induction bs generalizing m i with
  | nil =>
    simp only [List.length_nil, Nat.add_zero]
    rw [dif_neg (by omega)]
    rfl
  | cons b bs ih =>
    simp only [List.length_cons] at hi
    rw [writeBytes_cons, ih _ _ (by rw [size_setByte]; omega)]
    by_cases h : i + 1 ≤ j ∧ j < i + 1 + bs.length
    · rw [dif_pos h, dif_pos (by simp only [List.length_cons]; omega)]
      simp only [show j - i = (j - (i + 1)) + 1 by omega, List.getElem_cons_succ]
    · rw [dif_neg h]
      by_cases hij : i = j
      · subst hij
        rw [byte_setByte_self _ _ _ (by omega), dif_pos (by simp only [List.length_cons]; omega)]
        simp only [Nat.sub_self, List.getElem_cons_zero]
      · rw [byte_setByte_of_ne _ _ _ _ hij, dif_neg (by simp only [List.length_cons]; omega)]

/-- Moving down: the lowest byte goes first, so no byte is overwritten before it was copied. -/
theorem byte_move (m : Memory) (source target n j : Nat) (hle : target ≤ source)
    (hsize : source + n ≤ m.size) :
    (m.move source target n).byte j =
      if target ≤ j ∧ j < target + n then m.byte (source + (j - target)) else m.byte j := by
  induction n generalizing m source target with
  | zero => rw [if_neg (by omega)]; rfl
  | succ n ih =>
    rw [move_succ, ih _ _ _ (by omega) (by rw [size_setByte]; omega)]
    by_cases h : target + 1 ≤ j ∧ j < target + 1 + n
    · rw [if_pos h, if_pos (by omega), byte_setByte_of_ne _ _ _ _ (by omega)]
      congr 1
      omega
    · rw [if_neg h]
      by_cases hj : target = j
      · subst hj
        rw [byte_setByte_self _ _ _ (by omega), if_pos (by omega), Nat.sub_self, Nat.add_zero]
      · rw [byte_setByte_of_ne _ _ _ _ hj, if_neg (by omega)]

end Memory


end ArenaScheme
