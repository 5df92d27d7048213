import ArenaScheme.Proofs.Matching

/-! The two ways in which a program changes records: it overwrites one field of a record, or it
writes a whole record behind all others. Everything else stays as it was. -/

namespace ArenaScheme

namespace Memory

variable {m n : Memory} {top r s k t : Nat} {rs : List Nat}

/-- Where words are equal, so are their bytes. -/
theorem byte_eq_of_word_eq {i j : Nat} (h : m.word i = n.word j) (l : Nat) (hl : l < 4) :
    m.byte (i + l) = n.byte (j + l) := by
  rw [word_eq, word_eq] at h
  have hm0 := (m.byte i).toNat_lt
  have hm1 := (m.byte (i + 1)).toNat_lt
  have hm2 := (m.byte (i + 2)).toNat_lt
  have hm3 := (m.byte (i + 3)).toNat_lt
  have hn0 := (n.byte j).toNat_lt
  have hn1 := (n.byte (j + 1)).toNat_lt
  have hn2 := (n.byte (j + 2)).toNat_lt
  have hn3 := (n.byte (j + 3)).toNat_lt
  have hcases : l = 0 ∨ l = 1 ∨ l = 2 ∨ l = 3 := by omega
  refine UInt8.toNat_inj.mp ?_
  rcases hcases with rfl | rfl | rfl | rfl
  · rw [Nat.add_zero, Nat.add_zero]
    omega
  all_goals omega

/-- The fields that a program may change: references and the characters of a string. -/
def Settable (m : Memory) (r k : Nat) : Prop :=
  k ∈ m.referenceFields r ∨ (m.kind r = .string ∧ 1 ≤ k ∧ k ≤ m.field r 0)

theorem Settable.end_le (h : Settable m r k) : 9 + 4 * k ≤ m.extent r := by
  rcases h with h | ⟨hk, -, hle⟩
  · exact field_end_le_extent h
  · simp only [extent, hk, sequenceSize, fieldsSize]
    omega

/-- `n` is `m` with `t` in field `k` of the record at `r`. -/
structure FieldSet (rs : List Nat) (m : Memory) (r k t : Nat) (n : Memory) : Prop where
  size : n.size = m.size
  header : ∀ q ∈ rs, n.byte q = m.byte q
  extent : ∀ q ∈ rs, n.extent q = m.extent q
  references : ∀ q ∈ rs, n.referenceFields q = m.referenceFields q
  self : n.field r k = t
  other : ∀ q ∈ rs, ∀ i < m.extent q, (q = r → i < 5 + 4 * k ∨ 9 + 4 * k ≤ i) →
    n.byte (q + i) = m.byte (q + i)

theorem fieldSet_setField (ht : Tiled m top 0 rs) (hsize : top ≤ m.size) (hr : r ∈ rs)
    (hk : m.Settable r k) (hlt : t < 4294967296) : FieldSet rs m r k t (m.setField r k t) := by
  have hend := hk.end_le
  have hrend := (ht.bounds hr).2
  have hother : ∀ q ∈ rs, ∀ i < m.extent q, (q = r → i < 5 + 4 * k ∨ 9 + 4 * k ≤ i) →
      (m.setField r k t).byte (q + i) = m.byte (q + i) := by
    intro q hq i hi hout
    refine byte_setWord_of_outside _ _ _ _ ?_
    rw [fieldAddress_eq]
    by_cases hqr : q = r
    · have := hout hqr
      omega
    · have := ht.apart hq hr hqr
      omega
  have hheader : ∀ q ∈ rs, (m.setField r k t).byte q = m.byte q := fun q hq =>
    hother q hq 0 (by have := five_le_extent m q; omega) (by omega)
  have hmatch : ∀ q ∈ rs, (q = r → k ∈ m.referenceFields r) →
      Matches (fun _ _ => True) m q (m.setField r k t) q := by
    intro q hq href
    refine ⟨kind_eq_of_byte (hheader q hq), isPinned_eq_of_byte (hheader q hq), ?_,
      fun _ _ => Or.inr trivial⟩
    intro i hlow hi hout
    refine hother q hq i hi fun hqr => ?_
    have : ¬ (5 + 4 * k ≤ i ∧ i < 9 + 4 * k) := fun h => hout ⟨k, hqr ▸ href hqr, h⟩
    omega
  have hshape : ∀ q ∈ rs, (m.setField r k t).extent q = m.extent q ∧
      (m.setField r k t).referenceFields q = m.referenceFields q := by
    intro q hq
    by_cases href : q = r → k ∈ m.referenceFields r
    · exact ⟨(hmatch q hq href).extent, (hmatch q hq href).referenceFields⟩
    · -- What is left is a character of the string at `r`.
      obtain ⟨rfl, hnot⟩ := Classical.not_imp.mp href
      obtain ⟨hstring, hk1, -⟩ := hk.resolve_left hnot
      have hkind : (m.setField q k t).kind q = .string :=
        (kind_eq_of_byte (hheader q hq)).trans hstring
      have hlength : (m.setField q k t).field q 0 = m.field q 0 :=
        word_setWord_of_disjoint _ _ _ _ (by rw [fieldAddress_eq, fieldAddress_eq]; omega)
      simp only [Memory.extent, referenceFields, hkind, hstring, hlength, and_self]
  refine ⟨by rw [setField, size_setWord], hheader, fun q hq => (hshape q hq).1,
    fun q hq => (hshape q hq).2, ?_, hother⟩
  exact word_setWord_of_lt _ _ _ (by rw [fieldAddress_eq]; omega) hlt

namespace FieldSet

theorem kind (h : FieldSet rs m r k t n) {q : Nat} (hq : q ∈ rs) : n.kind q = m.kind q :=
  kind_eq_of_byte (h.header q hq)

theorem field (h : FieldSet rs m r k t n) {q l : Nat} (hq : q ∈ rs) (hne : q = r → l ≠ k)
    (hl : 9 + 4 * l ≤ m.extent q) : n.field q l = m.field q l := by
  refine word_congr fun i hi => ?_
  have := h.other q hq (5 + 4 * l + i) (by omega) fun hqr => by
    have := hne hqr
    omega
  simpa only [fieldAddress_eq, Nat.add_assoc] using this

theorem tiled (h : FieldSet rs m r k t n) (ht : Tiled m top 0 rs) : Tiled n top 0 rs :=
  ht.congr h.extent

/-- Writing the same field on both sides keeps all records matched. -/
theorem matched {link : Nat → Nat → Prop} {m' n' : Memory} {ss : List Nat} {t' a b : Nat}
    (h : FieldSet rs m r k t n) (h' : FieldSet ss m' s k t' n') (ha : a ∈ rs) (hb : b ∈ ss)
    (hsame : a = r ↔ b = s) (hmatch : Matches link m a m' b)
    (hvalue : (k ∈ m.referenceFields r → Linked link t t') ∧ (k ∉ m.referenceFields r → t = t')) :
    Matches link n a n' b := by
  refine ⟨?_, ?_, fun i hlow hi hout => ?_, fun l hl => ?_⟩
  · rw [h'.kind hb, h.kind ha, hmatch.kind]
  · rw [isPinned_eq_of_byte (h'.header b hb), isPinned_eq_of_byte (h.header a ha), hmatch.pinned]
  · rw [h.extent a ha] at hi
    have hout' : ¬ m.InReference a i := by
      unfold InReference at hout ⊢
      rwa [h.references a ha] at hout
    by_cases hin : a = r ∧ 5 + 4 * k ≤ i ∧ i < 9 + 4 * k
    · obtain ⟨rfl, hi1, hi2⟩ := hin
      obtain rfl := hsame.mp rfl
      have hk : k ∉ m.referenceFields a := fun hk => hout' ⟨k, hk, hi1, hi2⟩
      have hword : n'.field b k = n.field a k := by rw [h'.self, h.self, hvalue.2 hk]
      have := byte_eq_of_word_eq hword (i - (5 + 4 * k)) (by omega)
      rw [fieldAddress_eq, fieldAddress_eq] at this
      rwa [show b + 5 + 4 * k + (i - (5 + 4 * k)) = b + i by omega,
        show a + 5 + 4 * k + (i - (5 + 4 * k)) = a + i by omega] at this
    · rw [h'.other b hb i (by rw [hmatch.extent]; exact hi) fun hbs => ?_,
        h.other a ha i hi fun har => ?_, hmatch.payload i hlow hi hout']
      · have := fun hh => hin ⟨har, hh⟩
        omega
      · have := fun hh => hin ⟨hsame.mpr hbs, hh⟩
        omega
  · rw [h.references a ha] at hl
    have hend := field_end_le_extent hl
    by_cases hin : a = r ∧ l = k
    · obtain ⟨rfl, rfl⟩ := hin
      obtain rfl := hsame.mp rfl
      rw [h.self, h'.self]
      exact hvalue.1 hl
    · rw [h.field ha (fun har hlk => hin ⟨har, hlk⟩) hend,
        h'.field hb (fun hbs hlk => hin ⟨hsame.mpr hbs, hlk⟩) (by rw [hmatch.extent]; exact hend)]
      exact hmatch.reference l hl

end FieldSet

/-- Writes the contents of a record: its fields, and then single bytes. -/
def writeRecord (m : Memory) (r : Nat) (words : List Nat) (bytes : List UInt8) : Memory :=
  (m.writeWords (fieldAddress r 0) words).writeBytes (fieldAddress r words.length) bytes

/-- What the record at `r` consists of. -/
structure Written (m : Memory) (r : Nat) (kind : Kind) (pinned : Bool) (words : List Nat)
    (bytes : List UInt8) : Prop where
  kind : m.kind r = kind
  pinned : m.isPinned r = pinned
  unmarked : m.isMarked r = false
  field : ∀ k v, words[k]? = some v → m.field r k = v % 4294967296
  byte : ∀ i b, bytes[i]? = some b → m.byte (fieldAddress r words.length + i) = b

theorem byte_putHeader (m : Memory) (r : Nat) (kind : Kind) (pinned : Bool) (hr : r < m.size) :
    ((m.putHeader r kind pinned).byte r).toNat = kind.code + if pinned then 64 else 0 := by
  rw [putHeader, setForward, byte_setWord_of_outside _ _ _ _ (by omega),
    byte_setByte_self _ _ _ hr]
  have := kind.code_lt
  simp only [UInt8.toNat_ofNat', Nat.reducePow]
  split <;> omega

theorem written_writeRecord (m : Memory) (r : Nat) (kind : Kind) (pinned : Bool)
    (words : List Nat) (bytes : List UInt8)
    (hfit : r + (5 + 4 * words.length + bytes.length) ≤ m.size) :
    Written ((m.putHeader r kind pinned).writeRecord r words bytes) r kind pinned words bytes := by
  have hsize : ((m.putHeader r kind pinned).writeWords (fieldAddress r 0) words).size = m.size := by
    rw [size_writeWords, putHeader, setForward, size_setWord, size_setByte]
  have hbytes := byte_writeBytes ((m.putHeader r kind pinned).writeWords (fieldAddress r 0) words)
    (fieldAddress r words.length) bytes
  have hbefore : ∀ i, i < fieldAddress r words.length →
      ((m.putHeader r kind pinned).writeRecord r words bytes).byte i =
        ((m.putHeader r kind pinned).writeWords (fieldAddress r 0) words).byte i := by
    intro i hi
    rw [writeRecord, hbytes _ (by rw [hsize, fieldAddress_eq]; omega), dif_neg (by omega)]
  have hheader : (((m.putHeader r kind pinned).writeRecord r words bytes).byte r).toNat =
      kind.code + if pinned then 64 else 0 := by
    rw [hbefore r (by rw [fieldAddress_eq]; omega),
      byte_writeWords_of_outside _ _ _ _ (by rw [fieldAddress_eq]; omega),
      byte_putHeader _ _ _ _ (by omega)]
  have hcode := kind.code_lt
  refine ⟨?_, ?_, ?_, ?_, ?_⟩
  · rw [Memory.kind, hheader]
    have : (kind.code + if pinned then 64 else 0) % 16 = kind.code := by split <;> omega
    rw [this, Kind.ofCode_code]
  · rw [isPinned, hheader]
    cases pinned <;> simp <;> omega
  · rw [not_isMarked_iff, hheader]
    split <;> omega
  · intro k v hv
    obtain ⟨hk, rfl⟩ := List.getElem?_eq_some_iff.mp hv
    have hword : ((m.putHeader r kind pinned).writeRecord r words bytes).field r k =
        ((m.putHeader r kind pinned).writeWords (fieldAddress r 0) words).word
          (fieldAddress r 0 + 4 * k) := by
      refine word_congr fun i hi => ?_
      rw [hbefore _ (by rw [fieldAddress_eq, fieldAddress_eq]; omega), fieldAddress_eq,
        fieldAddress_eq]
    rw [hword, word_writeWords _ _ _ _ hk]
    rw [fieldAddress_eq, putHeader, setForward, size_setWord, size_setByte]
    omega
  · intro i b hb
    obtain ⟨hi, rfl⟩ := List.getElem?_eq_some_iff.mp hb
    rw [writeRecord, hbytes _ (by rw [hsize, fieldAddress_eq]; omega), dif_pos ⟨by omega, by omega⟩]
    simp only [Nat.add_sub_cancel_left]

/-- A new record changes nothing before it. -/
theorem byte_writeRecord_of_lt (m : Memory) (r : Nat) (kind : Kind) (pinned : Bool)
    (words : List Nat) (bytes : List UInt8) (i : Nat) (hi : i < r)
    (hfit : r + (5 + 4 * words.length + bytes.length) ≤ m.size) :
    ((m.putHeader r kind pinned).writeRecord r words bytes).byte i = m.byte i := by
  rw [writeRecord, byte_writeBytes _ _ _ _ ?_, dif_neg (by rw [fieldAddress_eq]; omega),
    byte_writeWords_of_outside _ _ _ _ (by rw [fieldAddress_eq]; omega), putHeader, setForward,
    byte_setWord_of_outside _ _ _ _ (by omega), byte_setByte_of_ne _ _ _ _ (by omega)]
  rw [size_writeWords, putHeader, setForward, size_setWord, size_setByte, fieldAddress_eq]
  omega

theorem size_writeRecord (m : Memory) (r : Nat) (kind : Kind) (pinned : Bool) (words : List Nat)
    (bytes : List UInt8) :
    ((m.putHeader r kind pinned).writeRecord r words bytes).size = m.size := by
  rw [writeRecord, size_writeBytes, size_writeWords, putHeader, setForward, size_setWord,
    size_setByte]

/-- Records that were written alike match. -/
theorem Written.matched {link : Nat → Nat → Prop} {kind : Kind} {pinned : Bool}
    {words words' : List Nat} {bytes : List UInt8} (h : Written m r kind pinned words bytes)
    (h' : Written n s kind pinned words' bytes)
    (hextent : m.extent r = 5 + 4 * words.length + bytes.length)
    (hlength : words'.length = words.length)
    (hfield : ∀ k < words.length, k ∉ m.referenceFields r → n.field s k = m.field r k)
    (hlink : ∀ k ∈ m.referenceFields r, Linked link (m.field r k) (n.field s k)) :
    Matches link m r n s := by
  refine ⟨by rw [h.kind, h'.kind], by rw [h.pinned, h'.pinned], fun i hlow hi hout => ?_, hlink⟩
  by_cases hword : i < 5 + 4 * words.length
  · have hk : (i - 5) / 4 ∉ m.referenceFields r := fun hk => hout ⟨_, hk, by omega, by omega⟩
    have := byte_eq_of_word_eq (hfield ((i - 5) / 4) (by omega) hk) ((i - 5) % 4) (by omega)
    rw [fieldAddress_eq, fieldAddress_eq] at this
    rwa [show s + 5 + 4 * ((i - 5) / 4) + (i - 5) % 4 = s + i by omega,
      show r + 5 + 4 * ((i - 5) / 4) + (i - 5) % 4 = r + i by omega] at this
  · obtain ⟨b, hb⟩ : ∃ b, bytes[i - (5 + 4 * words.length)]? = some b :=
      ⟨_, List.getElem?_eq_getElem (by omega)⟩
    have h1 := h.byte _ b hb
    have h2 := h'.byte _ b hb
    rw [hlength, fieldAddress_eq,
      show s + 5 + 4 * words.length + (i - (5 + 4 * words.length)) = s + i by omega] at h2
    rw [fieldAddress_eq,
      show r + 5 + 4 * words.length + (i - (5 + 4 * words.length)) = r + i by omega] at h1
    rw [h1, h2]

end Memory

end ArenaScheme
