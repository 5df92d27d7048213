import ArenaScheme.Number.Numeral
import Mathlib

/-! The words that are numbers, by a grammar that says what they look like and which number they
denote. -/

namespace ArenaScheme.Number

/-- In the base, `c` is the digit for `d`. Letters count in either case. -/
def IsDigit (base : Nat) (c : Char) (d : Nat) : Prop :=
  d < base ∧ ("0123456789abcdef".toList[d]? = some c ∨ "0123456789ABCDEF".toList[d]? = some c)

/-- One or more digits denote a number, the most significant digit first. -/
inductive Denotes (base : Nat) : List Char → Nat → Prop
  | digit {c : Char} {d : Nat} : IsDigit base c d → Denotes base [c] d
  | append {digits : List Char} {n d : Nat} {c : Char} : Denotes base digits n →
    IsDigit base c d → Denotes base (digits ++ [c]) (base * n + d)

/-- A sign or none, and whether it negates. -/
inductive Sign : List Char → Bool → Prop
  | none : Sign [] false
  | plus : Sign ['+'] false
  | minus : Sign ['-'] true

/-- An optional sign and digits that denote an integer. -/
def IsInteger (base : Nat) (text : List Char) (i : Int) : Prop :=
  ∃ sign negative digits n, Sign sign negative ∧ Denotes base digits n ∧ text = sign ++ digits ∧
    i = if negative then -(n : Int) else n

/-- An optional sign and decimal digits around a point, with a digit before or after it. -/
def IsDecimal (text : List Char) : Prop :=
  ∃ sign negative whole fraction, Sign sign negative ∧ text = sign ++ (whole ++ '.' :: fraction) ∧
    (∀ c ∈ whole ++ fraction, ∃ d, IsDigit 10 c d) ∧ (whole ≠ [] ∨ fraction ≠ [])

/-- An integer in hexadecimal digits after `#x`. -/
def IsHexadecimal (text : List Char) (i : Int) : Prop :=
  ∃ rest, text = '#' :: 'x' :: rest ∧ IsInteger 16 rest i

variable {base n : Nat} {c : Char} {text digits : List Char} {i : Int}

/-! Digits. -/

theorem isDigit_iff (hbase : base ≤ 16) {d : Nat} :
    IsDigit base c d ↔ digitValue c = d ∧ d < base := by
  have hvalue : ∀ d : Fin 16, digitValue ("0123456789abcdef".toList.get d) = d ∧
      digitValue ("0123456789ABCDEF".toList.get d) = d := by decide
  have hdigit : ∀ d < 10, "0123456789abcdef".toList[d]? = some (Char.ofNat (48 + d)) := by decide
  have hlower : ∀ d < 16, 10 ≤ d →
      "0123456789abcdef".toList[d]? = some (Char.ofNat (87 + d)) := by decide
  have hupper : ∀ d < 16, 10 ≤ d →
      "0123456789ABCDEF".toList[d]? = some (Char.ofNat (55 + d)) := by decide
  have hchar : ∀ k d, c.toNat = k + d → c = Char.ofNat (k + d) := fun k d heq =>
    heq ▸ (Char.ofNat_toNat c).symm
  constructor
  · rintro ⟨hlt, hc⟩
    refine ⟨?_, hlt⟩
    rcases hc with hc | hc
    · obtain ⟨hd, rfl⟩ := List.getElem?_eq_some_iff.mp hc
      exact (hvalue ⟨d, hd⟩).1
    · obtain ⟨hd, rfl⟩ := List.getElem?_eq_some_iff.mp hc
      exact (hvalue ⟨d, hd⟩).2
  · rintro ⟨rfl, hlt⟩
    refine ⟨hlt, ?_⟩
    have hlt' : digitValue c < 16 := Nat.lt_of_lt_of_le hlt hbase
    unfold digitValue at hlt' ⊢
    split at hlt'
    · rename_i hc
      obtain ⟨hlow, hhigh⟩ : 48 ≤ c.toNat ∧ c.toNat ≤ 57 := by
        rw [Char.isDigit, Bool.and_eq_true, decide_eq_true_eq, decide_eq_true_eq] at hc
        exact hc
      rw [if_pos hc, hdigit _ (by omega), ← hchar 48 _ (by omega)]
      exact .inl rfl
    · rename_i hnot
      split at hlt'
      · rename_i hc
        obtain ⟨hlow, hhigh⟩ : 97 ≤ c.toNat ∧ c.toNat ≤ 122 := by
          rw [Char.isLower, Bool.and_eq_true, decide_eq_true_eq, decide_eq_true_eq] at hc
          exact hc
        rw [if_neg hnot, if_pos hc, hlower _ hlt' (by omega), ← hchar 87 _ (by omega)]
        exact .inl rfl
      · rename_i hnot'
        split at hlt'
        · rename_i hc
          obtain ⟨hlow, hhigh⟩ : 65 ≤ c.toNat ∧ c.toNat ≤ 90 := by
            rw [Char.isUpper, decide_eq_true_eq] at hc
            exact hc
          rw [if_neg hnot, if_neg hnot', if_pos hc, hupper _ hlt' (by omega),
            ← hchar 55 _ (by omega)]
          exact .inr rfl
        · omega

theorem isDigitIn_iff (hbase : base ≤ 16) : isDigitIn base c = true ↔ ∃ d, IsDigit base c d := by
  simp only [isDigit_iff hbase, isDigitIn, decide_eq_true_eq, exists_eq_left']

theorem ofDigits_concat :
    ofDigits base (digits ++ [c]) = base * ofDigits base digits + digitValue c := by
  rw [ofDigits, List.foldl_append]
  rfl

theorem denotes_iff (hbase : base ≤ 16) : Denotes base digits n ↔
    (digits ≠ [] ∧ digits.all (isDigitIn base)) ∧ n = ofDigits base digits := by
  constructor
  · intro hn
    induction hn with
    | digit hd =>
      obtain ⟨rfl, -⟩ := (isDigit_iff hbase).mp hd
      simp [ofDigits, (isDigitIn_iff hbase).mpr ⟨_, hd⟩]
    | append _ hd ih =>
      obtain ⟨rfl, -⟩ := (isDigit_iff hbase).mp hd
      simp [ofDigits_concat, ih.2, ih.1.2, (isDigitIn_iff hbase).mpr ⟨_, hd⟩]
  · rintro ⟨⟨hne, hall⟩, rfl⟩
    induction digits using List.reverseRecOn with
    | nil => exact absurd rfl hne
    | append_singleton digits c ih =>
      rw [List.all_append, Bool.and_eq_true] at hall
      have hd : IsDigit base c (digitValue c) :=
        (isDigit_iff hbase).mpr ⟨rfl, by simpa [isDigitIn] using hall.2⟩
      rcases eq_or_ne digits [] with rfl | hne
      · rw [ofDigits_concat]
        simpa [ofDigits] using Denotes.digit hd
      · rw [ofDigits_concat]
        exact .append (ih hne hall.1) hd

/-! Signs. -/

theorem exists_sign (text : List Char) :
    ∃ sign, Sign sign (splitSign text).1 ∧ text = sign ++ (splitSign text).2 := by
  unfold splitSign
  split
  · exact ⟨_, .minus, rfl⟩
  · exact ⟨_, .plus, rfl⟩
  · exact ⟨_, .none, rfl⟩

/-- What does not begin with a sign is what is left behind one. -/
theorem splitSign_append {sign rest : List Char} {negative : Bool} (hsign : Sign sign negative)
    (hrest : ∀ c ∈ rest.head?, isDigitIn 16 c = true ∨ c = '.') :
    splitSign (sign ++ rest) = (negative, rest) := by
  cases hsign with
  | minus => rfl
  | plus => rfl
  | none =>
    rw [List.nil_append]
    unfold splitSign
    split
    · exact absurd (hrest '-' rfl) (by decide)
    · exact absurd (hrest '+' rfl) (by decide)
    · rfl

theorem isInteger_iff (hbase : base ≤ 16) : IsInteger base text i ↔
    ((splitSign text).2 ≠ [] ∧ (splitSign text).2.all (isDigitIn base)) ∧
      i = signed (splitSign text).1 (ofDigits base (splitSign text).2) := by
  constructor
  · rintro ⟨sign, negative, digits, n, hsign, hn, rfl, rfl⟩
    obtain ⟨⟨hne, hall⟩, rfl⟩ := (denotes_iff hbase).mp hn
    rw [splitSign_append hsign fun c hc => .inl ?_]
    · exact ⟨⟨hne, hall⟩, rfl⟩
    · have hdigit := List.all_eq_true.mp hall c (List.mem_of_mem_head? hc)
      simp only [isDigitIn, decide_eq_true_eq] at hdigit ⊢
      omega
  · rintro ⟨hdigits, rfl⟩
    obtain ⟨sign, hsign, htext⟩ := exists_sign text
    exact ⟨sign, _, _, _, hsign, (denotes_iff hbase).mpr ⟨hdigits, rfl⟩, htext, rfl⟩

theorem isInteger_iff_eq (hbase : base ≤ 16)
    (hdigits : (splitSign text).2 ≠ [] ∧ (splitSign text).2.all (isDigitIn base)) :
    IsInteger base text i ↔ i = signed (splitSign text).1 (ofDigits base (splitSign text).2) :=
  (isInteger_iff hbase).trans (and_iff_right hdigits)

theorem not_isInteger (hbase : base ≤ 16)
    (hdigits : ¬ ((splitSign text).2 ≠ [] ∧ (splitSign text).2.all (isDigitIn base))) :
    ¬ IsInteger base text i := fun hi => hdigits ((isInteger_iff hbase).mp hi).1

theorem isDecimal_iff : IsDecimal text ↔
    ∃ fraction, (splitSign text).2.dropWhile (isDigitIn 10) = '.' :: fraction ∧
      fraction.all (isDigitIn 10) ∧
      ((splitSign text).2.takeWhile (isDigitIn 10) ≠ [] ∨ fraction ≠ []) := by
  constructor
  · rintro ⟨sign, negative, whole, fraction, hsign, rfl, hdigits, hsome⟩
    have hdigit : ∀ c ∈ whole ++ fraction, isDigitIn 10 c = true := fun c hc =>
      (isDigitIn_iff (by decide)).mpr (hdigits c hc)
    have hwhole : ∀ c ∈ whole, isDigitIn 10 c = true := fun c hc =>
      hdigit c (List.mem_append_left _ hc)
    rw [splitSign_append hsign fun c hc => ?_]
    · refine ⟨fraction, ?_, ?_, ?_⟩
      · rw [List.dropWhile_append_of_pos hwhole]
        rfl
      · exact List.all_eq_true.mpr fun c hc => hdigit c (List.mem_append_right _ hc)
      · rw [List.takeWhile_append_of_pos hwhole]
        simpa using hsome.imp_left fun hne heq => absurd heq hne
    · cases whole with
      | nil => exact .inr (by simpa using hc.symm)
      | cons d whole =>
        obtain rfl : d = c := by simpa using hc
        have := hwhole d (List.mem_cons_self ..)
        simp only [isDigitIn, decide_eq_true_eq] at this ⊢
        exact .inl (by omega)
  · rintro ⟨fraction, hdrop, hfraction, hsome⟩
    obtain ⟨sign, hsign, htext⟩ := exists_sign text
    have hparts := List.takeWhile_append_dropWhile (p := isDigitIn 10) (l := (splitSign text).2)
    rw [hdrop] at hparts
    refine ⟨sign, _, _, fraction, hsign, htext.trans (congrArg _ hparts.symm), fun c hc => ?_, hsome⟩
    refine (isDigitIn_iff (by decide)).mp ?_
    rcases List.mem_append.mp hc with hc | hc
    · exact List.all_eq_true.mp List.all_takeWhile c hc
    · exact List.all_eq_true.mp hfraction c hc

theorem fitsWord_iff : fitsWord i = true ↔ -2 ^ 63 ≤ i ∧ i < 2 ^ 63 := by
  simp only [fitsWord, Bool.and_eq_true, decide_eq_true_eq]
  omega

/-- The integers in a base that fit, and nothing else. -/
theorem integerIn?_eq_some_iff (hbase : base ≤ 16) :
    integerIn? base text = some i ↔ IsInteger base text i ∧ fitsWord i = true := by
  unfold integerIn?
  simp only
  split
  · rename_i hdigits
    rw [isInteger_iff_eq hbase hdigits]
    split
    · rename_i hfits
      rw [Option.some.injEq]
      exact ⟨fun heq => ⟨heq.symm, heq ▸ hfits⟩, fun heq => heq.1.symm⟩
    · rename_i hfits
      exact ⟨nofun, fun ⟨heq, hi⟩ => absurd (heq ▸ hi) hfits⟩
  · rename_i hdigits
    exact ⟨nofun, fun hi => absurd hi.1 (not_isInteger hbase hdigits)⟩

/-! Numbers. -/

/-- Which integers an answer can be, and whether it is a float. -/
structure Classifies (answer : Option Number) (integers : Int → Prop) (float : Prop) : Prop where
  integer : ∀ i, answer = some (.integer i) ↔ integers i
  float : (∃ bits, answer = some (.float bits)) ↔ float

namespace Classifies

variable {x y : Option Number} {I J : Int → Prop} {F G : Prop}

theorem eq_none_iff (hx : Classifies x I F) : x = none ↔ (∀ i, ¬ I i) ∧ ¬ F := by
  simp only [← hx.integer, ← hx.float]
  cases x with
  | none => simp
  | some number => cases number <;> simp

theorem none : Classifies none (fun _ => False) False :=
  ⟨fun _ => by simp, by simp⟩

theorem integers (value : Int) : Classifies (some (.integer value)) (· = value) False :=
  ⟨fun i => by simp [eq_comm], by simp⟩

theorem floats (bits : UInt64) : Classifies (some (.float bits)) (fun _ => False) True :=
  ⟨fun _ => by simp, by simp⟩

theorem congr (hx : Classifies x I F) (hinteger : ∀ i, I i ↔ J i) (hfloat : F ↔ G) :
    Classifies x J G :=
  ⟨fun i => (hx.integer i).trans (hinteger i), hx.float.trans hfloat⟩

/-- Two attempts of which at most one has an answer. -/
theorem orElse (hx : Classifies x I F) (hy : Classifies y J G)
    (hapart : (∃ i, I i) ∨ F → (∀ i, ¬ J i) ∧ ¬ G) :
    Classifies (x <|> y) (fun i => I i ∨ J i) (F ∨ G) := by
  cases hcase : x with
  | none =>
    obtain ⟨hI, hF⟩ := hx.eq_none_iff.mp hcase
    exact hy.congr (fun i => by simp [hI i]) (by simp [hF])
  | some number =>
    rw [hcase] at hx
    obtain ⟨hJ, hG⟩ := hapart (by
      by_contra hno
      exact nomatch hx.eq_none_iff.mpr
        ⟨fun i hi => hno (.inl ⟨i, hi⟩), fun hF => hno (.inr hF)⟩)
    exact hx.congr (fun i => by simp [hJ i]) (by simp [hG])

end Classifies

theorem integer?_classifies (text : List Char) : Classifies (integer? text)
    (fun i => IsInteger 10 text i ∧ fitsWord i = true)
    (∃ i, IsInteger 10 text i ∧ ¬ fitsWord i = true) := by
  unfold integer?
  simp only
  split
  · rename_i hdigits
    simp only [isInteger_iff_eq (by decide) hdigits]
    split
    · rename_i hfits
      refine (Classifies.integers _).congr (fun i => ⟨?_, And.left⟩) (iff_of_false id ?_)
      · rintro rfl
        exact ⟨rfl, hfits⟩
      · rintro ⟨i, rfl, hi⟩
        exact hi hfits
    · rename_i hfits
      refine (Classifies.floats _).congr (fun i => iff_of_false id ?_)
        (iff_of_true trivial ⟨_, rfl, hfits⟩)
      rintro ⟨rfl, hi⟩
      exact hfits hi
  · rename_i hdigits
    have hno : ∀ i, ¬ IsInteger 10 text i := fun i => not_isInteger (by decide) hdigits
    exact Classifies.none.congr (fun i => by simp [hno i]) (by simp [hno])

theorem decimal?_classifies (text : List Char) :
    Classifies (decimal? text) (fun _ => False) (IsDecimal text) := by
  rw [isDecimal_iff, decimal?]
  simp only
  split
  · rename_i fraction hdrop
    simp only [hdrop, List.cons.injEq, true_and, exists_eq_left']
    split
    · rename_i hok
      exact (Classifies.floats _).congr (fun _ => Iff.rfl) (by simpa using hok)
    · rename_i hnot
      exact Classifies.none.congr (fun _ => Iff.rfl) (by simpa using hnot)
  · rename_i hdrop
    refine Classifies.none.congr (fun _ => Iff.rfl) (iff_of_false id ?_)
    rintro ⟨fraction, heq, -⟩
    exact hdrop fraction heq

/-- The sign is put to a magnitude that fits by itself, so that the least integer is left out. -/
theorem hexadecimal?_classifies (text : List Char) : Classifies (hexadecimal? text)
    (fun i => IsHexadecimal text i ∧ fitsWord i = true ∧ i ≠ -2 ^ 63) False := by
  unfold hexadecimal? IsHexadecimal
  split
  · rename_i rest
    simp only [List.cons.injEq, true_and, exists_eq_left']
    split
    · rename_i hdigits
      simp only [isInteger_iff_eq (by decide) hdigits]
      generalize (splitSign rest).1 = negative
      generalize ofDigits 16 (splitSign rest).2 = magnitude
      have hfits : fitsWord magnitude = true ↔
          fitsWord (signed negative magnitude) = true ∧ signed negative magnitude ≠ -2 ^ 63 := by
        simp only [fitsWord_iff, signed]
        split <;> omega
      split
      · rename_i hmagnitude
        refine (Classifies.integers _).congr (fun i => ⟨?_, And.left⟩) Iff.rfl
        rintro rfl
        exact ⟨rfl, hfits.mp hmagnitude⟩
      · rename_i hmagnitude
        refine Classifies.none.congr (fun i => iff_of_false id ?_) Iff.rfl
        rintro ⟨rfl, hi⟩
        exact hmagnitude (hfits.mpr hi)
    · rename_i hdigits
      exact Classifies.none.congr
        (fun i => iff_of_false id fun hi => not_isInteger (by decide) hdigits hi.1) Iff.rfl
  · rename_i hshape
    refine Classifies.none.congr (fun i => iff_of_false id ?_) Iff.rfl
    rintro ⟨⟨rest, rfl, -⟩, -⟩
    exact hshape rest rfl

theorem IsDecimal.not_isInteger (hd : IsDecimal text) : ¬ IsInteger 10 text i := by
  rw [isInteger_iff (by decide)]
  rintro ⟨⟨-, hall⟩, -⟩
  obtain ⟨fraction, hdrop, -⟩ := isDecimal_iff.mp hd
  have hmem : '.' ∈ (splitSign text).2 :=
    (List.dropWhile_suffix _).subset (hdrop ▸ List.mem_cons_self ..)
  exact absurd (List.all_eq_true.mp hall '.' hmem) (by decide)

theorem IsHexadecimal.not_decimal (hi : IsHexadecimal text i) :
    (∀ j, ¬ IsInteger 10 text j) ∧ ¬ IsDecimal text := by
  obtain ⟨rest, rfl, -⟩ := hi
  have hsplit : splitSign ('#' :: 'x' :: rest) = (false, '#' :: 'x' :: rest) := rfl
  constructor
  · intro j hj
    rw [isInteger_iff (by decide), hsplit] at hj
    exact absurd (List.all_eq_true.mp hj.1.2 '#' (List.mem_cons_self ..)) (by decide)
  · intro hd
    rw [isDecimal_iff, hsplit] at hd
    obtain ⟨fraction, hdrop, -⟩ := hd
    exact absurd (List.cons.inj hdrop).1 (by decide)

/-- The three forms exclude each other, so it does not matter which one is tried first. -/
theorem parse?_classifies (word : List Char) : Classifies (parse? word)
    (fun i => IsInteger 10 word i ∧ fitsWord i = true ∨
      IsHexadecimal word i ∧ fitsWord i = true ∧ i ≠ -2 ^ 63)
    ((∃ i, IsInteger 10 word i ∧ ¬ fitsWord i = true) ∨ IsDecimal word) := by
  have hrest := (decimal?_classifies word).orElse (hexadecimal?_classifies word) (by
    rintro (⟨_, ⟨⟩⟩ | hd)
    exact ⟨fun i hi => hi.1.not_decimal.2 hd, id⟩)
  simp only [false_or, or_false] at hrest
  refine (integer?_classifies word).orElse hrest fun hsome => ?_
  obtain ⟨i, hi⟩ : ∃ i, IsInteger 10 word i := by
    rcases hsome with ⟨i, hi, -⟩ | ⟨i, hi, -⟩
    · exact ⟨i, hi⟩
    · exact ⟨i, hi⟩
  exact ⟨fun j hj => hj.1.not_decimal.1 i hi, fun hd => hd.not_isInteger hi⟩

theorem parse?_of_isInteger (hi : IsInteger 10 text i) (hfits : fitsWord i = true) :
    parse? text = some (.integer i) :=
  ((parse?_classifies text).integer i).mpr (.inl ⟨hi, hfits⟩)

/-- A word is an integer if it has the form of one, decimal or hexadecimal, and the value fits 64
bits; a decimal integer that does not fit and a decimal with a point are floats; nothing else is a
number. The least integer can be written in decimal digits only. -/
theorem numerals_classified (word : List Char) :
    (∀ i, parse? word = some (.integer i) ↔
      (IsInteger 10 word i ∨ IsHexadecimal word i ∧ i ≠ -2 ^ 63) ∧ -2 ^ 63 ≤ i ∧ i < 2 ^ 63) ∧
    ((∃ bits, parse? word = some (.float bits)) ↔
      (∃ i, IsInteger 10 word i ∧ ¬ (-2 ^ 63 ≤ i ∧ i < 2 ^ 63)) ∨ IsDecimal word) ∧
    (parse? word = none ↔ (∀ i, ¬ IsInteger 10 word i) ∧ ¬ IsDecimal word ∧
      ∀ i, IsHexadecimal word i → i = -2 ^ 63 ∨ ¬ (-2 ^ 63 ≤ i ∧ i < 2 ^ 63)) := by
  have hparse := parse?_classifies word
  have hnone := hparse.eq_none_iff
  simp only [fitsWord_iff] at hparse hnone
  refine ⟨fun i => (hparse.integer i).trans ?_, hparse.float, hnone.trans ⟨?_, ?_⟩⟩
  · tauto
  · rintro ⟨hinteger, hfloat⟩
    refine ⟨fun i hi => ?_, fun hd => hfloat (.inr hd), fun i hi => ?_⟩
    · exact hfloat (.inl ⟨i, hi, fun hfits => hinteger i (.inl ⟨hi, hfits⟩)⟩)
    · by_contra hno
      rw [not_or, not_not] at hno
      exact hinteger i (.inr ⟨hi, hno.2, hno.1⟩)
  · rintro ⟨hinteger, hdecimal, hhexadecimal⟩
    refine ⟨fun i hi => ?_, ?_⟩
    · rcases hi with hi | ⟨hi, hfits, hne⟩
      · exact hinteger i hi.1
      · exact (hhexadecimal i hi).elim hne fun hno => hno hfits
    · rintro (⟨i, hi, -⟩ | hd)
      · exact hinteger i hi
      · exact hdecimal hd

/-- The least integer in hexadecimal digits. -/
theorem least_hexadecimal_unread :
    IsHexadecimal "#x-8000000000000000".toList (-2 ^ 63) ∧
      parse? "#x-8000000000000000".toList = none := by
  refine ⟨⟨"-8000000000000000".toList, rfl, (isInteger_iff (by decide)).mpr ?_⟩, ?_⟩ <;>
    decide +kernel

end ArenaScheme.Number
