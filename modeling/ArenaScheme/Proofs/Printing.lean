import ArenaScheme.Heap.Writer
import ArenaScheme.Proofs.Parsing

/-! The text of a datum, without a heap, and how it is parsed. A word ends only where a blank or a
closing parenthesis follows, so each statement is about a text with such a rest behind it: the parser
goes on as if the datum had been delivered, whatever forms are open. -/

namespace ArenaScheme

namespace Datum

/-- The text of a datum without parts. -/
def word : Datum → List Char
  | integer value => (toString value).toList
  | float bits => (Binary64.toText bits).toList
  | symbol name => name.toList
  | string text => (WriteMode.write.string text).toList
  | boolean value => if value then ['#', 't'] else ['#', 'f']
  | char value => (WriteMode.write.char value).toList
  | null => ['(', ')']
  | eof => "<EOF>".toList
  | _ => []

mutual

/-- The text of a datum that is made of words, pairs and vectors. -/
def print : Datum → List Char
  | pair car cdr => '(' :: (print car ++ printTail cdr ++ [')'])
  | vector items => '#' :: '(' :: (printItems items ++ [')'])
  | d => d.word

/-- The text that ends a list whose last pair has this tail. -/
def printTail : Datum → List Char
  | null => []
  | pair car cdr => ' ' :: (print car ++ printTail cdr)
  | vector items => ' ' :: '.' :: ' ' :: '#' :: '(' :: (printItems items ++ [')'])
  | d => ' ' :: '.' :: ' ' :: d.word

def printItems : List Datum → List Char
  | [] => []
  | d :: items => print d ++ printRest items

def printRest : List Datum → List Char
  | [] => []
  | d :: items => ' ' :: (print d ++ printRest items)

end

/-- A name that is read as the symbol it names. -/
structure ReadableName (name : String) : Prop where
  nonempty : name.toList ≠ []
  word : ∀ c ∈ name.toList, Text.isBlank c = false ∧ c ≠ ')'
  start : ∀ c rest, name.toList = c :: rest → c ∉ ['\'', '`', ',', '(', '"', ';']
  hash : ∀ rest, name.toList = '#' :: rest → ∃ c more, rest = c :: more ∧ c ≠ '(' ∧ c ≠ '\\'
  literal : name ≠ "#t" ∧ name ≠ "#f" ∧ name ≠ "."
  numeral : Number.parse? name.toList = none

/-- Data that are written so that they can be read. -/
inductive Readable : Datum → Prop
  | integer {value : Int} : fitsWord value = true → Readable (.integer value)
  | symbol {name : String} : ReadableName name → Readable (.symbol name)
  | string (text : String) : Readable (.string text)
  | char (value : Char) : Readable (.char value)
  | boolean (value : Bool) : Readable (.boolean value)
  | null : Readable .null
  | pair {car cdr : Datum} : Readable car → Readable cdr → Readable (.pair car cdr)
  | vector {items : List Datum} : (∀ d ∈ items, Readable d) → Readable (.vector items)

theorem Readable.not_isDot {d : Datum} (h : d.Readable) : d.isDot = false := by
  cases h with
  | symbol hname => exact beq_eq_false_iff_ne.mpr hname.literal.2.2
  | _ => rfl

end Datum

namespace Token

/-- The letters of the words that follow a hash. -/
def hashLetters : List Char :=
  ['a', 'b', 'c', 'e', 'f', 'i', 'l', 'n', 'o', 'p', 'r', 's', 't', 'w']

theorem isAlphabetic_letter {c : Char} (hc : c ∈ hashLetters) :
    Text.isAlphabetic c = true ∧ inWord c = true := by
  have hall : (hashLetters.all fun c => Text.isAlphabetic c && inWord c) = true := by decide +kernel
  exact Bool.and_eq_true_iff.mp (List.all_eq_true.mp hall c hc)

/-- The characters other than letters that the first word of a text can start with. -/
theorem inWord_sign : ∀ c ∈ ['.', '-', '0', '1', '2', '3', '4', '5', '6', '7', '8', '9'],
    inWord c = true ∧ Text.isBlank c = false := by
  simp [inWord, endsWord, Text.isBlank, Text.inRanges, Text.blankRanges]

theorem isBlank_space : Text.isBlank ' ' = true := by
  simp [Text.isBlank, Text.inRanges, Text.blankRanges]

/-- Whether a word ends before this text. -/
def delimits : List Char → Bool
  | [] => true
  | c :: _ => endsWord c

variable {rest : List Char}

theorem takeWhile_inWord (hrest : delimits rest = true) :
    rest.takeWhile inWord = [] ∧ rest.dropWhile inWord = rest := by
  cases rest with
  | nil => exact ⟨rfl, rfl⟩
  | cons c rest =>
    have hc : inWord c = false := by rw [inWord, show endsWord c = true from hrest]; rfl
    exact ⟨by rw [List.takeWhile_cons_of_neg (by rw [hc]; decide)],
      by rw [List.dropWhile_cons_of_neg (by rw [hc]; decide)]⟩

theorem span_inWord {word : List Char} (hword : ∀ c ∈ word, inWord c = true)
    (hrest : delimits rest = true) :
    (word ++ rest).takeWhile inWord = word ∧ (word ++ rest).dropWhile inWord = rest := by
  obtain ⟨htake, hdrop⟩ := takeWhile_inWord hrest
  rw [List.takeWhile_append_of_pos hword, List.dropWhile_append_of_pos hword, htake, hdrop,
    List.append_nil]
  exact ⟨rfl, rfl⟩

theorem next?_blank {c : Char} (hc : Text.isBlank c = true) (text : List Char) :
    next? (c :: text) = next? text := by
  have hcomment : c ≠ ';' := by
    rintro rfl
    rw [isBlank_special ';' (by decide)] at hc
    cases hc
  rw [next?, next?, skip, if_neg hcomment, if_pos hc]

theorem next?_cons {c : Char} (hc : Text.isBlank c = false) (hcomment : c ≠ ';')
    (text : List Char) : next? (c :: text) = some (startingWith c text) := by
  rw [next?, skip, if_neg hcomment, if_neg (by rw [hc]; decide)]

/-- A word of which the first character starts no other token. -/
theorem next?_word {c : Char} {word : List Char} (hblank : Text.isBlank c = false)
    (hc : c ∉ ['\'', '`', ',', '(', ')', '"', ';', '#']) (hword : ∀ c ∈ word, inWord c = true)
    (hrest : delimits rest = true) :
    next? (c :: (word ++ rest)) = some (ofWord (c :: word), rest) := by
  simp only [List.mem_cons, List.not_mem_nil, or_false, not_or] at hc
  obtain ⟨hquote, hquasi, hunquote, hopen, hclose, hstring, hcomment, hhash⟩ := hc
  obtain ⟨htake, hdrop⟩ := span_inWord hword hrest
  rw [next?_cons hblank hcomment]
  unfold startingWith
  split <;> first | contradiction | rw [htake, hdrop]

/-- A word that starts with a hash. -/
theorem next?_hash {c : Char} {word : List Char} (hc : c ≠ '(' ∧ c ≠ '\\')
    (hword : ∀ x ∈ c :: word, inWord x = true) (hrest : delimits rest = true) :
    next? ('#' :: c :: (word ++ rest)) = some (ofWord ('#' :: c :: word), rest) := by
  obtain ⟨htake, hdrop⟩ := span_inWord hword hrest
  rw [List.cons_append] at htake hdrop
  rw [next?_cons (isBlank_special '#' (by decide)) (by decide)]
  change some (afterHash (c :: (word ++ rest))) = _
  unfold afterHash
  split
  case h_1 heq => cases heq
  case h_2 heq => exact absurd (List.cons.inj heq).1 hc.1
  case h_3 heq => exact absurd (List.cons.inj heq).1 hc.2
  case h_4 heq => exact absurd (List.cons.inj heq).1 hc.2
  case h_5 => rw [htake, hdrop]

/-! Symbols. -/

theorem inWord_of_readable {name : String} (h : Datum.ReadableName name) {c : Char}
    (hc : c ∈ name.toList) : inWord c = true := by
  obtain ⟨hblank, hclose⟩ := h.word c hc
  simp [inWord, endsWord, hblank, hclose]

theorem ofWord_symbol {name : String} (h : Datum.ReadableName name) :
    ofWord name.toList = .atom (.symbol name) := by
  obtain ⟨htrue, hfalse, -⟩ := h.literal
  have htrue' : name.toList ≠ ['#', 't'] := fun heq => htrue (String.toList_inj.mp heq)
  have hfalse' : name.toList ≠ ['#', 'f'] := fun heq => hfalse (String.toList_inj.mp heq)
  rw [ofWord, if_neg htrue', if_neg hfalse', h.numeral, String.ofList_toList]

theorem next?_symbol {name : String} (h : Datum.ReadableName name)
    (hrest : delimits rest = true) :
    next? (name.toList ++ rest) = some (.atom (.symbol name), rest) := by
  have hword : ∀ c ∈ name.toList, inWord c = true := fun c hc => inWord_of_readable h hc
  have hsymbol := ofWord_symbol h
  cases hname : name.toList with
  | nil => exact absurd hname h.nonempty
  | cons c word =>
    have hstart := h.start c word hname
    obtain ⟨hblank, hclose⟩ := h.word c (by rw [hname]; simp)
    rw [hname] at hword hsymbol
    by_cases hhash : c = '#'
    · subst hhash
      obtain ⟨c, more, rfl, hc⟩ := h.hash word hname
      rw [← hsymbol]
      exact next?_hash hc (fun x hx => hword x (List.mem_cons_of_mem _ hx)) hrest
    · rw [← hsymbol]
      refine next?_word hblank ?_ (fun x hx => hword x (List.mem_cons_of_mem _ hx)) hrest
      simp only [List.mem_cons, List.not_mem_nil, or_false, not_or] at hstart ⊢
      grind

/-! Integers. -/

theorem digitValue_of_isDigit {c : Char} (h : c.isDigit = true) :
    Number.digitValue c = c.toNat - 48 := by
  rw [Number.digitValue, if_pos h]

theorem isDigitIn_of_isDigit {c : Char} (h : c.isDigit = true) : Number.isDigitIn 10 c = true := by
  rw [Number.isDigitIn, digitValue_of_isDigit h, decide_eq_true_eq]
  simp only [Char.isDigit, ge_iff_le, Bool.and_eq_true, decide_eq_true_eq] at h
  have hle : c.val.toNat ≤ 57 := h.2
  change c.val.toNat - 48 < 10
  omega

theorem inWord_of_isDigit {c : Char} (h : c.isDigit = true) :
    inWord c = true ∧ Text.isBlank c = false ∧
      c ∉ ['\'', '`', ',', '(', ')', '"', ';', '#', '-', '+'] := by
  have hcases : c ∈ ['0', '1', '2', '3', '4', '5', '6', '7', '8', '9'] := by
    simp only [Char.isDigit, ge_iff_le, Bool.and_eq_true, decide_eq_true_eq] at h
    have hlow : 48 ≤ c.val.toNat := h.1
    have hhigh : c.val.toNat ≤ 57 := h.2
    have hchar : ∀ n : Nat, c.val.toNat = n → c = Char.ofNat n := by
      rintro n rfl
      exact (Char.ofNat_toNat c).symm
    have hn : c.val.toNat = 48 ∨ c.val.toNat = 49 ∨ c.val.toNat = 50 ∨ c.val.toNat = 51 ∨
        c.val.toNat = 52 ∨ c.val.toNat = 53 ∨ c.val.toNat = 54 ∨ c.val.toNat = 55 ∨
        c.val.toNat = 56 ∨ c.val.toNat = 57 := by omega
    rcases hn with hn | hn | hn | hn | hn | hn | hn | hn | hn | hn <;> rw [hchar _ hn] <;> decide
  have hout : ∀ c ∈ ['0', '1', '2', '3', '4', '5', '6', '7', '8', '9'],
      c ∉ ['\'', '`', ',', '(', ')', '"', ';', '#', '-', '+'] := by simp
  obtain ⟨hword, hblank⟩ := inWord_sign c (List.mem_cons_of_mem _ (List.mem_cons_of_mem _ hcases))
  exact ⟨hword, hblank, hout c hcases⟩

theorem ofDigits_toDigits (n : Nat) : Number.ofDigits 10 (Nat.toDigits 10 n) = n := by
  have hfold : ∀ (digits : List Char) (start : Nat), (∀ c ∈ digits, c.isDigit = true) →
      digits.foldl (fun n c => 10 * n + Number.digitValue c) start =
        Nat.ofDigitChars 10 digits start := by
    intro digits
    induction digits with
    | nil => exact fun _ _ => rfl
    | cons c digits ih =>
      intro start hdigits
      rw [List.foldl_cons, digitValue_of_isDigit (hdigits c (by simp)),
        ih _ fun x hx => hdigits x (List.mem_cons_of_mem _ hx)]
      rfl
  rw [Number.ofDigits, hfold _ _ fun c hc => Nat.isDigit_of_mem_toDigits (by decide) (by decide) hc,
    Nat.ofDigitChars_ten_toDigits]

/-- The digits of a number, after a minus sign or none. -/
def numeral (negative : Bool) (n : Nat) : List Char :=
  if negative then '-' :: Nat.toDigits 10 n else Nat.toDigits 10 n

theorem toList_toString (value : Int) :
    (toString value).toList = numeral (decide (value < 0)) value.natAbs := by
  rw [Int.toString_eq_repr, Int.repr_eq_if, numeral]
  split
  · rw [Nat.repr_eq_ofList_toDigits, String.toList_ofList, if_neg (by simp; omega)]
    congr 1
    omega
  · rw [Nat.repr_eq_ofList_toDigits, String.toList_append, if_pos (by simp; omega)]
    have habs : (-value).toNat = value.natAbs := by omega
    rw [habs]
    simp only [String.toList_ofList]
    rfl

theorem parse?_numeral {negative : Bool} {n : Nat}
    (hfits : fitsWord (Number.signed negative n) = true) :
    Number.parse? (numeral negative n) = some (.integer (Number.signed negative n)) := by
  have hdigit : ∀ c ∈ Nat.toDigits 10 n, c.isDigit = true := fun c hc =>
    Nat.isDigit_of_mem_toDigits (by decide) (by decide) hc
  have hall : (Nat.toDigits 10 n).all (Number.isDigitIn 10) = true :=
    List.all_eq_true.mpr fun c hc => isDigitIn_of_isDigit (hdigit c hc)
  have hsplit : Number.splitSign (numeral negative n) = (negative, Nat.toDigits 10 n) := by
    cases negative with
    | true => rfl
    | false =>
      rw [numeral, if_neg Bool.false_ne_true]
      unfold Number.splitSign
      split
      case h_1 rest heq =>
        exact absurd (inWord_of_isDigit (hdigit '-' (by rw [heq]; simp))).2.2 (by decide)
      case h_2 rest heq =>
        exact absurd (inWord_of_isDigit (hdigit '+' (by rw [heq]; simp))).2.2 (by decide)
      case h_3 => rfl
  have hinteger : Number.integer? (numeral negative n) =
      some (.integer (Number.signed negative n)) := by
    rw [Number.integer?, hsplit]
    simp only
    rw [if_pos ⟨Nat.toDigits_ne_nil, hall⟩, ofDigits_toDigits, if_pos hfits]
  rw [Number.parse?, hinteger]
  rfl

theorem next?_integer {value : Int} (hfits : fitsWord value = true)
    (hrest : delimits rest = true) :
    next? ((toString value).toList ++ rest) = some (.atom (.number (.integer value)), rest) := by
  have hsigned : Number.signed (decide (value < 0)) value.natAbs = value := by
    unfold Number.signed
    by_cases hneg : value < 0
    · rw [if_pos (by simpa using hneg)]
      omega
    · rw [if_neg (by simpa using hneg)]
      omega
  have hparse := parse?_numeral (by rwa [hsigned] : fitsWord (Number.signed
    (decide (value < 0)) value.natAbs) = true)
  rw [hsigned] at hparse
  rw [toList_toString]
  generalize decide (value < 0) = negative at hparse ⊢
  generalize value.natAbs = n at hparse ⊢
  have hdigit : ∀ c ∈ Nat.toDigits 10 n, c.isDigit = true := fun c hc =>
    Nat.isDigit_of_mem_toDigits (by decide) (by decide) hc
  have hword : ∀ c ∈ Nat.toDigits 10 n, inWord c = true := fun c hc =>
    (inWord_of_isDigit (hdigit c hc)).1
  have hofWord : ofWord (numeral negative n) = .atom (.number (.integer value)) := by
    have hne : ∀ c, numeral negative n ≠ ['#', c] := by
      intro c heq
      rw [heq] at hparse
      have : '#' ∈ numeral negative n := by rw [heq]; simp
      cases negative with
      | true =>
        rcases List.mem_cons.mp this with h | h
        · cases h
        · exact (inWord_of_isDigit (hdigit '#' h)).2.2 (by decide)
      | false => exact (inWord_of_isDigit (hdigit '#' this)).2.2 (by decide)
    rw [ofWord, if_neg (hne 't'), if_neg (hne 'f'), hparse]
  rw [← hofWord]
  cases negative with
  | true => exact next?_word (inWord_sign '-' (by decide)).2 (by decide) hword hrest
  | false =>
    rw [numeral, if_neg Bool.false_ne_true]
    cases hdigits : Nat.toDigits 10 n with
    | nil => exact absurd hdigits Nat.toDigits_ne_nil
    | cons c digits =>
      rw [hdigits] at hdigit hword
      obtain ⟨-, hblank, hc⟩ := inWord_of_isDigit (hdigit c (by simp))
      refine next?_word hblank ?_ (fun x hx => hword x (List.mem_cons_of_mem _ hx)) hrest
      simp only [List.mem_cons, List.not_mem_nil, or_false, not_or] at hc ⊢
      grind

/-! Strings and characters. -/

theorem quoted_escapedChar (c : Char) (text : List Char) :
    quoted ((WriteMode.escapedChar c).toList ++ text) =
      (quoted text).map fun p => (c :: p.1, p.2) := by
  unfold WriteMode.escapedChar
  split
  case h_6 c hn hr ht hquote hslash =>
    rw [Char.toString_eq_singleton, String.toList_singleton, List.singleton_append]
    rw [quoted]
    · exact hquote
    · exact fun heq => absurd heq hslash
    · exact fun _ _ heq => absurd heq hslash
  all_goals rfl

theorem quoted_string (text rest : List Char) :
    quoted (text.flatMap (fun c => (WriteMode.escapedChar c).toList) ++ '"' :: rest) =
      some (text, rest) := by
  induction text with
  | nil => rfl
  | cons c text ih =>
    rw [List.flatMap_cons, List.append_assoc, quoted_escapedChar, ih]
    rfl

theorem toList_string (text : String) : (WriteMode.write.string text).toList =
    '"' :: (text.toList.flatMap (fun c => (WriteMode.escapedChar c).toList) ++ ['"']) := by
  have hfold : ∀ (chars : List Char) (out : String),
      (chars.foldl (fun out c => out ++ WriteMode.escapedChar c) out).toList =
        out.toList ++ chars.flatMap fun c => (WriteMode.escapedChar c).toList := by
    intro chars
    induction chars with
    | nil => simp
    | cons c chars ih =>
      intro out
      rw [List.foldl_cons, ih, String.toList_append, List.flatMap_cons, List.append_assoc]
  rw [WriteMode.string, String.toList_append, String.foldl_eq_foldl_toList, hfold]
  rfl

theorem next?_string (text : String) : next? ((WriteMode.write.string text).toList ++ rest) =
    some (.atom (.string text), rest) := by
  rw [toList_string, List.cons_append, List.append_assoc,
    next?_cons (isBlank_special '"' (by decide)) (by decide), List.singleton_append, startingWith,
    quoted_string]
  simp only [String.ofList_toList]

theorem next?_char (c : Char) (hrest : delimits rest = true) :
    next? ((WriteMode.write.char c).toList ++ rest) = some (.atom (.char c), rest) := by
  have hname : ∀ (first : Char) (more : List Char), Text.isAlphabetic first = true →
      (∀ c ∈ more, inWord c = true) →
      next? ('#' :: '\\' :: first :: (more ++ rest)) = some (ofCharName (first :: more), rest) := by
    intro first more hfirst hmore
    obtain ⟨htake, hdrop⟩ := span_inWord hmore hrest
    rw [next?_cons (isBlank_special '#' (by decide)) (by decide), startingWith, afterHash,
      if_pos hfirst, htake, hdrop]
  have hspecial : ∀ (first : Char) (more : List Char), Text.isAlphabetic first = true →
      (∀ c ∈ more, inWord c = true) → ofCharName (first :: more) = .atom (.char c) →
      (WriteMode.write.char c).toList = '#' :: '\\' :: first :: more →
      next? ((WriteMode.write.char c).toList ++ rest) = some (.atom (.char c), rest) := by
    intro first more hfirst hmore hc htext
    rw [htext, ← hc]
    exact hname first more hfirst hmore
  have hletters : ∀ word : List Char, (∀ c ∈ word, c ∈ hashLetters) →
      ∀ c ∈ word, inWord c = true := fun word hword c hc => (isAlphabetic_letter (hword c hc)).2
  by_cases hnewline : c = '\n'
  · subst hnewline
    exact hspecial 'n' ['e', 'w', 'l', 'i', 'n', 'e']
      (isAlphabetic_letter (by simp [hashLetters])).1 (hletters _ (by simp [hashLetters])) rfl rfl
  by_cases hcr : c = '\r'
  · subst hcr
    exact hspecial 'c' ['r']
      (isAlphabetic_letter (by simp [hashLetters])).1 (hletters _ (by simp [hashLetters])) rfl rfl
  by_cases htab : c = '\t'
  · subst htab
    exact hspecial 't' ['a', 'b']
      (isAlphabetic_letter (by simp [hashLetters])).1 (hletters _ (by simp [hashLetters])) rfl rfl
  by_cases hspace : c = ' '
  · subst hspace
    exact hspecial 's' ['p', 'a', 'c', 'e']
      (isAlphabetic_letter (by simp [hashLetters])).1 (hletters _ (by simp [hashLetters])) rfl rfl
  have htext : (WriteMode.write.char c).toList = ['#', '\\', c] := by
    rw [WriteMode.char, String.toList_append, Char.toString_eq_singleton, String.toList_singleton]
    · rfl
    all_goals assumption
  by_cases halphabetic : Text.isAlphabetic c = true
  · exact hspecial c [] halphabetic nofun rfl htext
  · rw [htext]
    change next? ('#' :: '\\' :: c :: rest) = _
    rw [next?_cons (isBlank_special '#' (by decide)) (by decide), startingWith, afterHash,
      if_neg halphabetic]

end Token

/-! Parsing what was printed. -/

namespace Parser

open Token

variable {failAtEnd : Bool} {forms : List OpenDatum} {items : List Datum} {d : Datum}
  {text rest : List Char}

/-- How parsing goes on after a token. -/
def resume (failAtEnd : Bool) (rest : List Char) : Except Fault Parsed → Outcome
  | .ok (.value datum) => (.ok datum, rest)
  | .ok (.more pending) => parseFrom failAtEnd pending rest
  | .error cause => (.error cause, rest)

theorem parseFrom_of_next? {token : Token} (h : next? text = some (token, rest)) :
    parseFrom failAtEnd forms text = resume failAtEnd rest (accept forms token) := by
  rw [parseFrom]
  split
  case h_1 heq =>
    rw [h] at heq
    cases heq
  case h_2 token' rest' heq =>
    rw [h] at heq
    cases heq
    cases accept forms token with
    | ok parsed => cases parsed <;> rfl
    | error cause => rfl

theorem parseFrom_of_none (h : next? text = none) : parseFrom failAtEnd forms text =
    (if forms.isEmpty && !failAtEnd then .ok .eof else .error .unexpectedEnd, []) := by
  rw [parseFrom]
  split
  case h_1 => rfl
  case h_2 heq =>
    rw [h] at heq
    cases heq

theorem parseFrom_blank {c : Char} (hc : Text.isBlank c = true) :
    parseFrom failAtEnd forms (c :: text) = parseFrom failAtEnd forms text := by
  cases hnext : next? text with
  | none => rw [parseFrom_of_none hnext, parseFrom_of_none (by rw [next?_blank hc, hnext])]
  | some next =>
    obtain ⟨token, rest⟩ := next
    rw [parseFrom_of_next? hnext, parseFrom_of_next? (by rw [next?_blank hc, hnext])]

theorem endsWord_space : endsWord ' ' = true := by rw [endsWord, isBlank_space, Bool.true_or]

theorem endsWord_close : endsWord ')' = true := Bool.or_true _

theorem parseFrom_space :
    parseFrom failAtEnd forms (' ' :: text) = parseFrom failAtEnd forms text :=
  parseFrom_blank isBlank_space

theorem parseFrom_close :
    parseFrom failAtEnd forms (')' :: rest) = resume failAtEnd rest (close forms) :=
  parseFrom_of_next? (next?_cons (isBlank_special ')' (by decide)) (by decide) rest)

/-- Whatever forms are open, the printed datum is parsed as if it had been delivered. -/
def Prints (d : Datum) : Prop :=
  ∀ failAtEnd forms rest, delimits rest = true →
    parseFrom failAtEnd forms (d.print ++ rest) = resume failAtEnd rest (deliver forms d)

/-- After some elements of a list, the printed tail ends the list. -/
def PrintsTail (d : Datum) : Prop :=
  ∀ failAtEnd forms items rest, items ≠ [] →
    parseFrom failAtEnd (.list items :: forms) (d.printTail ++ ')' :: rest) =
      resume failAtEnd rest (deliver forms (.dotted items d))

theorem Prints.of_next? {a : Atom} (hprint : d.print = d.word) (hdatum : a.datum = d)
    (hnext : ∀ rest, delimits rest = true → next? (d.word ++ rest) = some (.atom a, rest)) :
    Prints d := by
  intro failAtEnd forms rest hrest
  rw [hprint, parseFrom_of_next? (hnext rest hrest), accept, hdatum]

/-- A tail that is neither a pair nor the empty list stands after a dot. -/
theorem Prints.tail (h : Prints d) (htail : d.printTail = ' ' :: '.' :: ' ' :: d.print) :
    PrintsTail d := by
  intro failAtEnd forms items rest hitems
  have hdot : next? ('.' :: ' ' :: (d.print ++ ')' :: rest)) =
      some (.atom (.symbol "."), ' ' :: (d.print ++ ')' :: rest)) :=
    @next?_word (' ' :: (d.print ++ ')' :: rest)) '.' [] (inWord_sign '.' (by decide)).2 (by decide) nofun
      endsWord_space
  have hdeliver : deliver (.list items :: forms) (.symbol ".") =
      .ok (.more (.dotted items :: forms)) := by
    cases items with
    | nil => exact absurd rfl hitems
    | cons d items => rfl
  rw [htail]
  change parseFrom failAtEnd _ (' ' :: '.' :: ' ' :: (d.print ++ ')' :: rest)) = _
  rw [parseFrom_space, parseFrom_of_next? hdot, accept, Atom.datum, hdeliver, resume,
    parseFrom_space, h failAtEnd _ (')' :: rest) endsWord_close, deliver, resume,
    parseFrom_close, close]

theorem delimits_printTail (d : Datum) (rest : List Char) :
    delimits (d.printTail ++ ')' :: rest) = true := by
  unfold Datum.printTail
  split
  · exact endsWord_close
  all_goals exact endsWord_space

theorem delimits_printRest (items : List Datum) (rest : List Char) :
    delimits (Datum.printRest items ++ ')' :: rest) = true := by
  cases items with
  | nil => exact endsWord_close
  | cons d items => exact endsWord_space

/-- A datum that is no dot is the next element of a list. -/
theorem Prints.element (h : Prints d) (hdot : d.isDot = false) (hrest : delimits rest = true) :
    parseFrom failAtEnd (.list items :: forms) (d.print ++ rest) =
      parseFrom failAtEnd (.list (items ++ [d]) :: forms) rest := by
  rw [h failAtEnd _ rest hrest, deliver, if_neg (by rw [hdot]; decide), resume]

theorem Prints.item (h : Prints d) (hdot : d.isDot = false) (hrest : delimits rest = true) :
    parseFrom failAtEnd (.vector items :: forms) (d.print ++ rest) =
      parseFrom failAtEnd (.vector (items ++ [d]) :: forms) rest := by
  rw [h failAtEnd _ rest hrest, deliver, if_neg (by rw [hdot]; decide), resume]

theorem prints_null : Prints .null := by
  intro failAtEnd forms rest hrest
  change parseFrom failAtEnd forms ('(' :: ')' :: rest) = _
  rw [parseFrom_of_next? (next?_cons (isBlank_special '(' (by decide)) (by decide) _)]
  change resume failAtEnd (')' :: rest) (.ok (.more (.list [] :: forms))) = _
  rw [resume, parseFrom_close]
  rfl

theorem printsTail_null : PrintsTail .null := by
  intro failAtEnd forms items rest hitems
  change parseFrom failAtEnd _ (')' :: rest) = _
  rw [parseFrom_close]
  rfl

theorem prints_pair {car cdr : Datum} (hcar : Prints car) (hcdr : PrintsTail cdr)
    (hdot : car.isDot = false) : Prints (.pair car cdr) := by
  intro failAtEnd forms rest hrest
  have htext : (Datum.pair car cdr).print ++ rest =
      '(' :: (car.print ++ (cdr.printTail ++ ')' :: rest)) := by
    simp [Datum.print]
  rw [htext, parseFrom_of_next? (next?_cons (isBlank_special '(' (by decide)) (by decide) _)]
  change resume failAtEnd (car.print ++ (cdr.printTail ++ ')' :: rest))
    (.ok (.more (.list [] :: forms))) = _
  rw [resume, hcar.element hdot (delimits_printTail cdr rest),
    hcdr failAtEnd forms _ rest (by simp)]
  rfl

theorem printsTail_pair {car cdr : Datum} (hcar : Prints car) (hcdr : PrintsTail cdr)
    (hdot : car.isDot = false) : PrintsTail (.pair car cdr) := by
  intro failAtEnd forms items rest hitems
  have htext : (Datum.pair car cdr).printTail ++ ')' :: rest =
      ' ' :: (car.print ++ (cdr.printTail ++ ')' :: rest)) := by
    simp [Datum.printTail]
  have hdotted : Datum.dotted (items ++ [car]) cdr = Datum.dotted items (.pair car cdr) := by
    rw [Datum.dotted, List.foldr_append]
    rfl
  rw [htext, parseFrom_space, hcar.element hdot (delimits_printTail cdr rest),
    hcdr failAtEnd forms _ rest (by simp), hdotted]

theorem parseFrom_printRest {done : List Datum}
    (h : ∀ d ∈ items, Prints d ∧ d.isDot = false) :
    parseFrom failAtEnd (.vector done :: forms) (Datum.printRest items ++ ')' :: rest) =
      resume failAtEnd rest (deliver forms (.vector (done ++ items))) := by
  induction items generalizing done with
  | nil =>
    change parseFrom failAtEnd _ (')' :: rest) = _
    rw [parseFrom_close, List.append_nil]
    rfl
  | cons d items ih =>
    obtain ⟨hd, hitems⟩ := List.forall_mem_cons.mp h
    have htext : Datum.printRest (d :: items) ++ ')' :: rest =
        ' ' :: (d.print ++ (Datum.printRest items ++ ')' :: rest)) := by
      simp [Datum.printRest]
    rw [htext, parseFrom_space, hd.1.item hd.2 (delimits_printRest items rest), ih hitems,
      List.append_assoc, List.singleton_append]

theorem prints_vector (h : ∀ d ∈ items, Prints d ∧ d.isDot = false) : Prints (.vector items) := by
  intro failAtEnd forms rest hrest
  have htext : (Datum.vector items).print ++ rest =
      '#' :: '(' :: (Datum.printItems items ++ ')' :: rest) := by
    simp [Datum.print]
  rw [htext, parseFrom_of_next? (next?_cons (isBlank_special '#' (by decide)) (by decide) _)]
  change parseFrom failAtEnd (.vector [] :: forms) (Datum.printItems items ++ ')' :: rest) = _
  cases items with
  | nil =>
    have hnone : ∀ d ∈ ([] : List Datum), Prints d ∧ d.isDot = false := nofun
    exact parseFrom_printRest hnone
  | cons d items =>
    obtain ⟨hd, hitems⟩ := List.forall_mem_cons.mp h
    rw [Datum.printItems, List.append_assoc, hd.1.item hd.2 (delimits_printRest items rest),
      parseFrom_printRest hitems]
    rfl

/-- Readable data print as they parse, by themselves and as tails of lists. -/
theorem prints_of_readable (hd : d.Readable) : Prints d ∧ PrintsTail d := by
  induction hd with
  | @integer value hfits =>
    have h : Prints (.integer value) :=
      .of_next? rfl rfl fun rest hrest => next?_integer hfits hrest
    exact ⟨h, h.tail rfl⟩
  | @symbol name hname =>
    have h : Prints (.symbol name) := .of_next? rfl rfl fun rest hrest => next?_symbol hname hrest
    exact ⟨h, h.tail rfl⟩
  | string text =>
    have h : Prints (.string text) := .of_next? rfl rfl fun rest _ => next?_string text
    exact ⟨h, h.tail rfl⟩
  | char value =>
    have h : Prints (.char value) := .of_next? rfl rfl fun rest hrest => next?_char value hrest
    exact ⟨h, h.tail rfl⟩
  | boolean value =>
    have h : Prints (.boolean value) := by
      have hletter : ∀ c ∈ hashLetters, ∀ x ∈ [c], inWord x = true := fun c hc =>
        List.forall_mem_singleton.mpr (isAlphabetic_letter hc).2
      refine .of_next? (a := .boolean value) rfl rfl fun rest hrest => ?_
      cases value with
      | true => exact @next?_hash rest 't' [] (by decide) (hletter 't' (by simp [hashLetters])) hrest
      | false => exact @next?_hash rest 'f' [] (by decide) (hletter 'f' (by simp [hashLetters])) hrest
    exact ⟨h, h.tail rfl⟩
  | null => exact ⟨prints_null, printsTail_null⟩
  | pair hcar _ ihcar ihcdr =>
    exact ⟨prints_pair ihcar.1 ihcdr.2 hcar.not_isDot, printsTail_pair ihcar.1 ihcdr.2 hcar.not_isDot⟩
  | vector hitems ih =>
    have h := prints_vector fun d hd => ⟨(ih d hd).1, (hitems d hd).not_isDot⟩
    exact ⟨h, h.tail rfl⟩

/-- A readable datum is parsed back from its text, and what follows is left. -/
theorem parse_print (hd : d.Readable) (hrest : delimits rest = true) :
    parse failAtEnd (d.print ++ rest) = (.ok d, rest) :=
  (prints_of_readable hd).1 failAtEnd [] rest hrest

end Parser

end ArenaScheme
