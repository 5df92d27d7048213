import ArenaScheme.Token
import Mathlib

/-! One word at a time. The scanner goes through a text with a mode and gives all tokens; here is
what the first token is and where it ends, without modes. The tokens of a text are its first token
and the tokens of what is left. -/

namespace ArenaScheme.Token

/-- Whether a word goes on with `c`. -/
def inWord (c : Char) : Bool := !endsWord c

/-- What is left after blanks and comments. The flag says that a comment has begun. -/
def skip : Bool → List Char → List Char
  | _, [] => []
  | true, c :: text => skip (c ≠ '\n') text
  | false, c :: text =>
    if c = ';' then skip true text
    else if Text.isBlank c then skip false text
    else c :: text

/-- The contents of a string up to its closing quote, and what is left after that. -/
def quoted : List Char → Option (List Char × List Char)
  | [] => none
  | '"' :: text => some ([], text)
  | '\\' :: [] => none
  | '\\' :: c :: text => (quoted text).map fun p => (unescape c :: p.1, p.2)
  | c :: text => (quoted text).map fun p => (c :: p.1, p.2)

/-- The token after a hash, and what is left. -/
def afterHash : List Char → Token × List Char
  | [] => (.fault .unexpectedEnd, [])
  | '(' :: text => (.openVector, text)
  | '\\' :: [] => (.fault .unexpectedEnd, [])
  | '\\' :: c :: text =>
    if Text.isAlphabetic c then (ofCharName (c :: text.takeWhile inWord), text.dropWhile inWord)
    else (.atom (.char c), text)
  | text => (ofWord ('#' :: text.takeWhile inWord), text.dropWhile inWord)

/-- The token that starts with `c`, which is no blank and starts no comment, and what is left. -/
def startingWith (c : Char) (text : List Char) : Token × List Char :=
  match c with
  | '\'' => (.quoteMark .quote, text)
  | '`' => (.quoteMark .quasiquote, text)
  | ',' => (.quoteMark .unquote, text)
  | '(' => (.openList, text)
  | ')' => (.close, text)
  | '"' =>
    match quoted text with
    | some (contents, rest) => (.atom (.string (String.ofList contents)), rest)
    | none => (.fault .unexpectedEnd, [])
  | '#' => afterHash text
  | c => (ofWord (c :: text.takeWhile inWord), text.dropWhile inWord)

/-- The first token of a text, and what is left of the text. -/
def next? (text : List Char) : Option (Token × List Char) :=
  match skip false text with
  | [] => none
  | c :: rest => some (startingWith c rest)

/-! Something is left out of what is left. -/

theorem length_skip_le (inside : Bool) (text : List Char) :
    (skip inside text).length ≤ text.length := by
  induction text generalizing inside with
  | nil => cases inside <;> exact Nat.le_refl _
  | cons c text ih =>
    cases inside with
    | true => exact Nat.le_succ_of_le (ih _)
    | false =>
      unfold skip
      split
      · exact Nat.le_succ_of_le (ih true)
      · split
        · exact Nat.le_succ_of_le (ih false)
        · exact Nat.le_refl _

theorem length_dropWhile_le (text : List Char) : (text.dropWhile inWord).length ≤ text.length :=
  (List.dropWhile_sublist _).length_le

theorem length_quoted_le {text contents rest : List Char} (h : quoted text = some (contents, rest)) :
    rest.length ≤ text.length := by
  fun_induction quoted text generalizing contents with
  | case1 | case3 => cases h
  | case2 text =>
    cases h
    exact Nat.le_succ _
  | case4 c text ih =>
    obtain ⟨⟨inner, rest'⟩, hinner, heq⟩ := Option.map_eq_some_iff.mp h
    cases heq
    exact Nat.le_trans (ih hinner) (Nat.le_add_right _ 2)
  | case5 c text _ _ _ ih =>
    obtain ⟨⟨inner, rest'⟩, hinner, heq⟩ := Option.map_eq_some_iff.mp h
    cases heq
    exact Nat.le_succ_of_le (ih hinner)

theorem length_afterHash_le (text : List Char) : (afterHash text).2.length ≤ text.length := by
  fun_cases afterHash text with
  | case1 | case3 => exact Nat.zero_le _
  | case2 text => exact Nat.le_succ _
  | case4 c text _ => exact Nat.le_trans (length_dropWhile_le text) (Nat.le_add_right _ 2)
  | case5 c text _ => exact Nat.le_add_right _ 2
  | case6 text => exact length_dropWhile_le text

theorem length_startingWith_le (c : Char) (text : List Char) :
    (startingWith c text).2.length ≤ text.length := by
  unfold startingWith
  split
  any_goals exact Nat.le_refl _
  · split
    · exact length_quoted_le ‹_›
    · exact Nat.zero_le _
  · exact length_afterHash_le text
  · exact length_dropWhile_le text

theorem length_next?_lt {text rest : List Char} {token : Token}
    (h : next? text = some (token, rest)) : rest.length < text.length := by
  have hskip := length_skip_le false text
  unfold next? at h
  split at h
  · cases h
  · rename_i c left hleft
    rw [hleft] at hskip
    have hstart := length_startingWith_le c left
    rw [Option.some.inj h] at hstart
    exact Nat.lt_of_lt_of_le (Nat.lt_succ_of_le hstart) hskip

/-! The scanner gives the first token first. -/

theorem scanFrom_cons (mode : Mode) (c : Char) (text : List Char) :
    scanFrom mode (c :: text) = (step mode c).1 ++ scanFrom (step mode c).2 text := by
  rw [scanFrom]
  cases step mode c with
  | mk tokens mode => cases tokens <;> rfl

/-- The characters that start a token of their own are no blanks. -/
theorem isBlank_special : ∀ c ∈ [';', '\'', '`', ',', '(', ')', '"', '#'], Text.isBlank c = false := by
  simp [Text.isBlank, Text.inRanges, Text.blankRanges]

theorem step_blank {c : Char} (h : Text.isBlank c = true) : step .between c = ([], .between) := by
  have hne : ∀ d ∈ [';', '\'', '`', ',', '(', ')', '"', '#'], c ≠ d := by
    rintro d hd rfl
    rw [isBlank_special c hd] at h
    cases h
  rw [step, if_pos h] <;> exact hne _ (by decide)

/-- After a word, the character that ends it. -/
theorem scanFrom_endsWord {c : Char} (h : endsWord c = true) (text : List Char) :
    scanFrom .between (c :: text) = afterWord c ++ scanFrom .between text := by
  rw [scanFrom_cons]
  unfold endsWord at h
  rcases Bool.or_eq_true .. ▸ h with hblank | hclose
  · rw [step_blank hblank, afterWord, if_neg]
    rintro rfl
    rw [isBlank_special ')' (by decide)] at hblank
    cases hblank
  · rw [beq_iff_eq.mp hclose]
    rfl

theorem scanFrom_skip (inside : Bool) (text : List Char) :
    scanFrom (if inside then .comment else .between) text =
      scanFrom .between (skip inside text) := by
  induction text generalizing inside with
  | nil => cases inside <;> rfl
  | cons c text ih =>
    cases inside with
    | true =>
      rw [scanFrom_cons, skip, ← ih]
      by_cases hc : c = '\n' <;> simp [step, hc]
    | false =>
      rw [if_neg Bool.false_ne_true, skip]
      split
      case isTrue hc =>
        rw [← ih true, hc]
        rfl
      case isFalse =>
        split
        case isTrue hblank =>
          rw [← ih false, if_neg Bool.false_ne_true, scanFrom_cons, step_blank hblank]
          rfl
        case isFalse => rfl

/-- A token that goes on to the end of a word. -/
theorem scanFrom_upTo {mode : List Char → Mode} {token : List Char → Token}
    (hstep : ∀ reversed c, step (mode reversed) c =
      if endsWord c then (token reversed.reverse :: afterWord c, .between)
      else ([], mode (c :: reversed)))
    (hend : ∀ reversed, atEnd (mode reversed) = [token reversed.reverse])
    (reversed text : List Char) :
    scanFrom (mode reversed) text =
      token (reversed.reverse ++ text.takeWhile inWord) ::
        scanFrom .between (text.dropWhile inWord) := by
  induction text generalizing reversed with
  | nil =>
    rw [scanFrom, hend]
    simp [scanFrom, atEnd]
  | cons c text ih =>
    rw [scanFrom_cons, hstep, List.takeWhile_cons, List.dropWhile_cons]
    cases hc : endsWord c with
    | true =>
      have hout : inWord c = false := by rw [inWord, hc]; rfl
      rw [hout, if_pos rfl, if_neg Bool.false_ne_true, if_neg Bool.false_ne_true,
        scanFrom_endsWord hc]
      simp
    | false =>
      have hin : inWord c = true := by rw [inWord, hc]; rfl
      rw [hin, if_neg Bool.false_ne_true, if_pos rfl, if_pos rfl, ih]
      simp

/-- A string that has begun with `reversed` ends, or the text ends inside of it. -/
theorem scanFrom_string (reversed text : List Char) :
    scanFrom (.string reversed) text =
      match quoted text with
      | some (contents, rest) =>
        .atom (.string (String.ofList (reversed.reverse ++ contents))) :: scanFrom .between rest
      | none => [.fault .unexpectedEnd] := by
  fun_induction quoted text generalizing reversed with
  | case1 => rfl
  | case2 text => simp [scanFrom_cons, step]
  | case3 => rfl
  | case4 c text ih =>
    rw [scanFrom_cons, scanFrom_cons, step, step]
    simp only [List.nil_append]
    rw [ih]
    cases quoted text <;> simp
  | case5 c text hquote hlast hescape ih =>
    have hplain : c ≠ '\\' := fun hc => by
      cases text with
      | nil => exact hlast hc rfl
      | cons d text => exact hescape d text hc rfl
    rw [scanFrom_cons, step]
    rotate_left
    · exact hquote
    · exact hplain
    rw [List.nil_append, ih]
    cases quoted text <;> simp

theorem scanFrom_hash (text : List Char) :
    scanFrom .hash text = (afterHash text).1 :: scanFrom .between (afterHash text).2 := by
  fun_cases afterHash text with
  | case1 | case2 | case3 => rfl
  | case4 c text halphabetic =>
    have hname := @scanFrom_upTo .charName ofCharName (fun _ _ => rfl)
      (fun _ => rfl) [c] text
    have hstart : step .hash '\\' = ([], .charStart) := rfl
    rw [scanFrom_cons, hstart, List.nil_append, scanFrom_cons, step, if_pos halphabetic,
      List.nil_append, hname]
    rfl
  | case5 c text halphabetic =>
    have hstart : step .hash '\\' = ([], .charStart) := rfl
    rw [scanFrom_cons, hstart, List.nil_append, scanFrom_cons, step, if_neg halphabetic]
    rfl
  | case6 text hend hopen hlast hescape =>
    cases text with
    | nil => exact absurd rfl hend
    | cons c text =>
      have hplain : c ≠ '\\' := fun hc => by
        cases text with
        | nil => exact hlast (by rw [hc])
        | cons d text => exact hescape d text (by rw [hc])
      have hword := @scanFrom_upTo .word ofWord (fun _ _ => rfl)
        (fun _ => rfl) ['#'] (c :: text)
      rw [scanFrom_cons, step] at hword
      rw [scanFrom_cons, step]
      rotate_left
      · exact fun hc => hopen text (by rw [hc])
      · exact hplain
      exact hword

/-- What stands after blanks and comments is neither. -/
theorem skip_eq_cons {inside : Bool} {text rest : List Char} {c : Char}
    (h : skip inside text = c :: rest) : c ≠ ';' ∧ Text.isBlank c = false := by
  induction text generalizing inside with
  | nil => cases inside <;> cases h
  | cons d text ih =>
    cases inside with
    | true => exact ih h
    | false =>
      rw [skip] at h
      split at h
      case isTrue => exact ih h
      case isFalse hcomment =>
        split at h
        case isTrue => exact ih h
        case isFalse hblank =>
          cases h
          exact ⟨hcomment, (Bool.not_eq_true _).mp hblank⟩

/-- The tokens of a text are its first token and the tokens of what is left. -/
theorem scanFrom_between (text : List Char) :
    scanFrom .between text =
      match next? text with
      | none => []
      | some (token, rest) => token :: scanFrom .between rest := by
  have hskip := scanFrom_skip false text
  rw [if_neg Bool.false_ne_true] at hskip
  rw [hskip, next?]
  cases hleft : skip false text with
  | nil => rfl
  | cons c rest =>
    obtain ⟨hcomment, hblank⟩ := skip_eq_cons hleft
    simp only
    rw [scanFrom_cons]
    unfold startingWith
    split
    case h_1 | h_2 | h_3 | h_4 | h_5 => rfl
    case h_6 =>
      have hstart : step .between '"' = ([], .string []) := rfl
      rw [hstart, List.nil_append, scanFrom_string]
      cases quoted rest <;> rfl
    case h_7 => exact scanFrom_hash rest
    case h_8 hquote hquasi hunquote hopen hclose hstring hhash =>
      have hword := @scanFrom_upTo .word ofWord (fun _ _ => rfl)
        (fun _ => rfl) [c] rest
      rw [step, if_neg (by rw [hblank]; exact Bool.false_ne_true)]
      · exact hword
      all_goals assumption

end ArenaScheme.Token
