/-! A byte memory of a given size in which every byte is zero until it is written. Only a prefix
is stored; the rest reads as zero. Numbers are kept in words of four bytes, the least significant
byte first. -/

namespace ArenaScheme

structure Memory where
  size : Nat
  stored : ByteArray
  stored_le : stored.size ≤ size := by decide

namespace Memory

instance : Inhabited Memory := ⟨{ size := 0, stored := .empty }⟩

/-- A memory of `size` zero bytes. -/
def zeros (size : Nat) : Memory := ⟨size, .empty, Nat.zero_le size⟩

@[inline] def byte (m : Memory) (i : Nat) : UInt8 :=
  if h : i < m.stored.size then m.stored[i] else 0

/-- Appends `n` zero bytes. -/
def pad (bytes : ByteArray) : Nat → ByteArray
  | 0 => bytes
  | n + 1 => pad (bytes.push 0) n

theorem size_pad (bytes : ByteArray) (n : Nat) : (pad bytes n).size = bytes.size + n := by
  induction n generalizing bytes with
  | zero => rfl
  | succ n ih => rw [pad, ih, ByteArray.size_push]; omega

private theorem size_set (bytes : ByteArray) (i : Nat) (b : UInt8) (h : i < bytes.size) :
    (bytes.set i b h).size = bytes.size := by
  cases bytes
  simp [ByteArray.set, ByteArray.size]

/-- Writes one byte; a position outside the memory is left alone. A zero behind what is stored is
there already. -/
def setByte (m : Memory) (i : Nat) (b : UInt8) : Memory :=
  if h : i < m.stored.size then
    { m with stored := m.stored.set i b, stored_le := by rw [size_set]; exact m.stored_le }
  else if hi : i < m.size ∧ b ≠ 0 then
    { m with
      stored := (pad m.stored (i - m.stored.size)).push b
      stored_le := by rw [ByteArray.size_push, size_pad]; omega }
  else m

/-- The number in the four bytes from `i` on. -/
def word (m : Memory) (i : Nat) : Nat :=
  ((m.byte i).toUInt32 + (m.byte (i + 1)).toUInt32 * 256 + (m.byte (i + 2)).toUInt32 * 65536 +
    (m.byte (i + 3)).toUInt32 * 16777216).toNat

/-- Puts `value` into the four bytes from `i` on; higher digits of `value` are dropped. -/
def setWord (m : Memory) (i value : Nat) : Memory :=
  (((m.setByte i (UInt8.ofNat value)).setByte (i + 1) (UInt8.ofNat (value / 256))).setByte
    (i + 2) (UInt8.ofNat (value / 65536))).setByte (i + 3) (UInt8.ofNat (value / 16777216))

/-- Writes consecutive four-byte fields. -/
def writeWords (m : Memory) (i : Nat) : List Nat → Memory
  | [] => m
  | value :: values => (m.setWord i value).writeWords (i + 4) values

/-- Writes the same value into `n` consecutive four-byte fields. Zeros behind what is stored are
there already. -/
def fillWords (m : Memory) (i value : Nat) : (n : Nat) → Memory
  | 0 => m
  | n + 1 =>
    if value = 0 ∧ m.stored.size ≤ i then m else (m.setWord i value).fillWords (i + 4) value n

def writeBytes (m : Memory) (i : Nat) : List UInt8 → Memory
  | [] => m
  | b :: bytes => (m.setByte i b).writeBytes (i + 1) bytes

/-- Copies `n` bytes one by one from `source` to `target`, lowest first. With `target ≤ source`
no byte is overwritten before it has been copied; with `target = source` nothing moves. -/
def move (m : Memory) (source target : Nat) : (n : Nat) → Memory
  | 0 => m
  | n + 1 =>
    if source = target then m
    else (m.setByte target (m.byte source)).move (source + 1) (target + 1) n

/-- Extends the memory with zero bytes up to `size`; it never shrinks. -/
def resize (m : Memory) (size : Nat) : Memory :=
  { m with size := max m.size size, stored_le := by have := m.stored_le; omega }

private theorem getElem_push (bytes : ByteArray) (b : UInt8) (j : Nat)
    (hj : j < (bytes.push b).size) :
    (bytes.push b)[j] = if h : j < bytes.size then bytes[j] else b := by
  cases bytes with
  | mk data => exact Array.getElem_push ..

private theorem getElem_set (bytes : ByteArray) (i : Nat) (b : UInt8) (hi : i < bytes.size)
    (j : Nat) (hj : j < bytes.size) (hj' : j < (bytes.set i b hi).size) :
    (bytes.set i b hi)[j] = if i = j then b else bytes[j] := by
  cases bytes with
  | mk data => exact Array.getElem_set ..

private theorem getElem_pad (bytes : ByteArray) (n j : Nat) (hj : j < (pad bytes n).size) :
    (pad bytes n)[j] = if h : j < bytes.size then bytes[j] else 0 := by
  induction n generalizing bytes with
  | zero =>
    have h : j < bytes.size := hj
    simp only [pad, h, dite_true]
  | succ n ih =>
    simp only [pad, ih, ByteArray.size_push, getElem_push]
    by_cases h : j < bytes.size
    · have h' : j < bytes.size + 1 := by omega
      simp only [h, h', dite_true]
    · simp only [h, dite_false, dite_eq_ite, ite_self]

private theorem set_getElem (bytes : ByteArray) (i : Nat) (h : i < bytes.size) :
    bytes.set i bytes[i] h = bytes := by
  cases bytes with
  | mk data => exact congrArg ByteArray.mk (Array.set_getElem_self h)

/-- Writing changes one byte, and nothing outside the memory. -/
theorem byte_setByte (m : Memory) (i j : Nat) (b : UInt8) :
    (m.setByte i b).byte j = if i = j ∧ i < m.size then b else m.byte j := by
  have hm := m.stored_le
  unfold setByte
  split
  · rename_i h
    have hi : i < m.size := by omega
    unfold byte
    simp only [size_set, hi, and_true]
    split
    · rename_i hj
      rw [getElem_set _ _ _ h _ hj]
    · rw [if_neg (by omega)]
  · rename_i h
    split
    · rename_i hi
      unfold byte
      simp only [ByteArray.size_push, size_pad, getElem_push, getElem_pad, hi.1, and_true]
      by_cases hij : i = j
      · subst hij
        rw [dif_pos (by omega), dif_neg (by omega), if_pos rfl]
      · rw [if_neg hij]
        by_cases hj : j < m.stored.size
        · rw [dif_pos (by omega), dif_pos (by omega), dif_pos hj]
        · rw [dif_neg hj]
          by_cases hji : j < i
          · rw [dif_pos (by omega), dif_pos (by omega)]
          · rw [dif_neg (by omega)]
    · rename_i hi
      split
      · rename_i hij
        have hb : b = 0 := Decidable.of_not_not fun hb => hi ⟨hij.2, hb⟩
        rw [hb, ← hij.1, byte, dif_neg h]
      · rfl

theorem setByte_byte (m : Memory) (i : Nat) : m.setByte i (m.byte i) = m := by
  by_cases h : i < m.stored.size
  · simp only [setByte, byte, h, dite_true, set_getElem]
  · rw [setByte, dif_neg h, dif_neg (by simp [byte, h])]

@[simp] theorem size_setByte (m : Memory) (i : Nat) (b : UInt8) :
    (m.setByte i b).size = m.size := by
  unfold setByte
  split
  · rfl
  · split <;> rfl

end Memory

end ArenaScheme
