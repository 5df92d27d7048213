import ArenaScheme.Datum
import ArenaScheme.Heap.Basic
import ArenaScheme.Proofs.Words

/-! Data from text, without a heap. The parser takes one token after the other, and keeps the forms
that are still open with the data they have so far. An outcome is a datum or a fault, with the text
that is left. -/

namespace ArenaScheme

variable {d : Datum} {text : List Char} {forms : List OpenDatum} {parsed : Parsed} {token : Token}

/-- The head of the form that a mark stands for. -/
def QuoteMark.name : QuoteMark → String
  | quote => "quote"
  | quasiquote => "quasiquote"
  | unquote => "unquote"

def Atom.datum : Atom → Datum
  | boolean value => .boolean value
  | number (.integer value) => .integer value
  | number (.float bits) => .float bits
  | symbol name => .symbol name
  | string text => .string text
  | char value => .char value

/-- Whether a datum is the dot before the tail of a list. -/
def Datum.isDot : Datum → Bool
  | symbol name => name == "."
  | _ => false

/-- A form that waits for its next datum or its end, with its elements. -/
inductive OpenDatum where
  | quoted (mark : QuoteMark)
  | list (items : List Datum)
  /-- A list after its dot. -/
  | dotted (items : List Datum)
  /-- A list after its tail. -/
  | tailed (items : List Datum) (tail : Datum)
  | vector (items : List Datum)

/-- How far parsing is after a token. -/
inductive Parsed where
  | value (datum : Datum)
  | more (pending : List OpenDatum)

namespace Parser

/-- A datum or a fault, and what is left of the text. -/
abbrev Outcome := Except Fault Datum × List Char

/-- Hands a datum to the innermost open form. -/
def deliver : List OpenDatum → Datum → Except Fault Parsed
  | [], datum => .ok (.value datum)
  | .quoted mark :: outer, datum => deliver outer (.list [.symbol mark.name, datum])
  | .list items :: outer, datum =>
    if datum.isDot then
      if items.isEmpty then .error .invalidDottedList else .ok (.more (.dotted items :: outer))
    else .ok (.more (.list (items ++ [datum]) :: outer))
  | .dotted items :: outer, datum => .ok (.more (.tailed items datum :: outer))
  | .tailed .. :: _, _ => .error .invalidDottedList
  | .vector items :: outer, datum =>
    if datum.isDot then .error .dotInVector
    else .ok (.more (.vector (items ++ [datum]) :: outer))

/-- Ends the innermost open form. -/
def close : List OpenDatum → Except Fault Parsed
  | [] | .quoted _ :: _ | .dotted _ :: _ => .error (.unexpectedDelimiter ')')
  | .list items :: outer => deliver outer (.list items)
  | .tailed items tail :: outer => deliver outer (.dotted items tail)
  | .vector items :: outer => deliver outer (.vector items)

def accept (pending : List OpenDatum) : Token → Except Fault Parsed
  | .openList => .ok (.more (.list [] :: pending))
  | .openVector => .ok (.more (.vector [] :: pending))
  | .close => close pending
  | .quoteMark mark => .ok (.more (.quoted mark :: pending))
  | .atom a => deliver pending a.datum
  | .fault fault => .error fault

/-- Parses until a datum is complete. -/
def parseFrom (failAtEnd : Bool) (pending : List OpenDatum) (text : List Char) : Outcome :=
  match _ : Token.next? text with
  | none => (if pending.isEmpty && !failAtEnd then .ok .eof else .error .unexpectedEnd, [])
  | some (token, rest) =>
    match accept pending token with
    | .ok (.value datum) => (.ok datum, rest)
    | .ok (.more pending) => parseFrom failAtEnd pending rest
    | .error fault => (.error fault, rest)
termination_by text.length
decreasing_by exact Token.length_next?_lt ‹_›

/-- Parses one datum. At the end of the text this is the end-of-input datum, or a fault if
`failAtEnd` is set. -/
def parse (failAtEnd : Bool) (text : List Char) : Outcome := parseFrom failAtEnd [] text

/-- The outcomes of parsing `count` times, each time what the one before has left. -/
def outcomes (failAtEnd : Bool) : (count : Nat) → List Char → List Outcome
  | 0, _ => []
  | count + 1, text =>
    parse failAtEnd text :: outcomes failAtEnd count (parse failAtEnd text).2

end Parser

/-! Data that fit a memory. -/

/-- No part of the datum is too large for a record. -/
inductive Datum.Fits : Datum → Prop
  | integer (value : Int) : Fits (.integer value)
  | float (bits : UInt64) : Fits (.float bits)
  | boolean (value : Bool) : Fits (.boolean value)
  | char (value : Char) : Fits (.char value)
  | null : Fits .null
  | eof : Fits .eof
  | symbol {name : String} : symbolSize name.utf8ByteSize ≤ Heap.maxSize → Fits (.symbol name)
  | string {text : String} : sequenceSize text.toList.length ≤ Heap.maxSize → Fits (.string text)
  | pair {car cdr : Datum} : Fits car → Fits cdr → Fits (.pair car cdr)
  | vector {items : List Datum} : sequenceSize items.length ≤ Heap.maxSize →
    (∀ d ∈ items, Fits d) → Fits (.vector items)

def OpenDatum.Fits : OpenDatum → Prop
  | quoted _ => True
  | list items | dotted items | vector items => ∀ d ∈ items, d.Fits
  | tailed items tail => (∀ d ∈ items, d.Fits) ∧ tail.Fits

def Parsed.Fits : Parsed → Prop
  | value datum => datum.Fits
  | more pending => ∀ form ∈ pending, form.Fits

theorem Datum.Fits.of_isDot (h : d.isDot = true) : d.Fits := by
  cases d with
  | symbol name =>
    obtain rfl : name = "." := beq_iff_eq.mp h
    exact .symbol (by decide +kernel)
  | _ => cases h

theorem Datum.fits_dotted {items : List Datum} {tail : Datum} :
    (Datum.dotted items tail).Fits ↔ (∀ d ∈ items, d.Fits) ∧ tail.Fits := by
  induction items with
  | nil => exact ⟨fun h => ⟨nofun, h⟩, And.right⟩
  | cons d items ih =>
    rw [List.forall_mem_cons, and_assoc, ← ih]
    constructor
    · intro h
      cases h with
      | pair hcar hcdr => exact ⟨hcar, hcdr⟩
    · rintro ⟨hcar, hcdr⟩
      exact .pair hcar hcdr

namespace Parser

/-- What fits in the end was made of what fits. -/
theorem deliver_fits {forms : List OpenDatum} {d : Datum} {parsed : Parsed}
    (h : deliver forms d = .ok parsed) (hfits : parsed.Fits) :
    d.Fits ∧ ∀ form ∈ forms, form.Fits := by
  induction forms generalizing d with
  | nil =>
    cases h
    exact ⟨hfits, nofun⟩
  | cons form outer ih =>
    rw [List.forall_mem_cons]
    cases form with
    | quoted mark =>
      obtain ⟨hd, houter⟩ := ih h
      rw [Datum.list, Datum.fits_dotted, List.forall_mem_cons, List.forall_mem_singleton] at hd
      exact ⟨hd.1.2, trivial, houter⟩
    | list items =>
      rw [deliver] at h
      split at h
      · split at h
        · cases h
        · cases h
          obtain ⟨hitems, houter⟩ := List.forall_mem_cons.mp hfits
          exact ⟨.of_isDot ‹_›, hitems, houter⟩
      · cases h
        obtain ⟨hitems, houter⟩ := List.forall_mem_cons.mp hfits
        obtain ⟨hitems, hd⟩ := List.forall_mem_append.mp hitems
        exact ⟨hd d (List.mem_singleton_self _), hitems, houter⟩
    | dotted items =>
      cases h
      obtain ⟨⟨hitems, hd⟩, houter⟩ := List.forall_mem_cons.mp hfits
      exact ⟨hd, hitems, houter⟩
    | tailed items tail => cases h
    | vector items =>
      rw [deliver] at h
      split at h
      · cases h
      · cases h
        obtain ⟨hitems, houter⟩ := List.forall_mem_cons.mp hfits
        obtain ⟨hitems, hd⟩ := List.forall_mem_append.mp hitems
        exact ⟨hd d (List.mem_singleton_self _), hitems, houter⟩

theorem close_fits (h : close forms = .ok parsed) (hfits : parsed.Fits) :
    ∀ form ∈ forms, form.Fits := by
  match forms with
  | [] | .quoted _ :: _ | .dotted _ :: _ => cases h
  | .list items :: outer =>
    obtain ⟨hd, houter⟩ := @deliver_fits outer _ _ h hfits
    exact List.forall_mem_cons.mpr ⟨(Datum.fits_dotted.mp hd).1, houter⟩
  | .tailed items tail :: outer =>
    obtain ⟨hd, houter⟩ := @deliver_fits outer _ _ h hfits
    exact List.forall_mem_cons.mpr ⟨Datum.fits_dotted.mp hd, houter⟩
  | .vector items :: outer =>
    obtain ⟨hd, houter⟩ := @deliver_fits outer _ _ h hfits
    cases hd with
    | vector _ hitems => exact List.forall_mem_cons.mpr ⟨hitems, houter⟩

theorem accept_fits (h : accept forms token = .ok parsed) (hfits : parsed.Fits) :
    ∀ form ∈ forms, form.Fits := by
  cases token with
  | openList | openVector | quoteMark mark =>
    cases h
    exact (List.forall_mem_cons.mp hfits).2
  | close => exact close_fits h hfits
  | atom a => exact (deliver_fits h hfits).2
  | fault fault => cases h

theorem parseFrom_fits {failAtEnd : Bool} (h : (parseFrom failAtEnd forms text).1 = .ok d)
    (hfits : d.Fits) : ∀ form ∈ forms, form.Fits := by
  fun_induction parseFrom failAtEnd forms text with
  | case1 forms text hend =>
    cases forms with
    | nil => exact nofun
    | cons form outer => cases h
  | case2 forms text token rest htoken d' haccept =>
    cases h
    exact accept_fits haccept hfits
  | case3 forms text token rest htoken forms' haccept ih => exact accept_fits haccept (ih h)
  | case4 forms text token rest htoken fault haccept => cases h

end Parser

/-! What a token of a text can be. -/

/-- Integers in a token fit a word. -/
def Token.Fits : Token → Prop
  | .atom (.number (.integer value)) => fitsWord value = true
  | _ => True

theorem fitsWord_signed {n : Nat} (h : fitsWord n = true) (negative : Bool) :
    fitsWord (Number.signed negative n) = true := by
  unfold fitsWord at *
  simp only [Bool.and_eq_true, decide_eq_true_eq] at *
  unfold Number.signed
  split <;> omega

theorem Number.fits_of_parse? {word : List Char} {value : Int}
    (h : Number.parse? word = some (.integer value)) : fitsWord value = true := by
  unfold parse? at h
  simp only [Option.orElse_eq_orElse, Option.orElse_eq_or, Option.or_eq_some_iff] at h
  rcases h with h | ⟨-, h | ⟨-, h⟩⟩
  · unfold integer? at h
    simp only at h
    split at h
    · split at h
      · cases h
        assumption
      · cases h
    · cases h
  · unfold decimal? at h
    simp only at h
    split at h
    · split at h <;> cases h
    · cases h
  · unfold hexadecimal? at h
    split at h
    · simp only at h
      split at h
      · split at h
        · cases h
          exact fitsWord_signed ‹_› _
        · cases h
      · cases h
    · cases h

theorem Token.fits_ofWord (word : List Char) : (ofWord word).Fits := by
  unfold ofWord
  split
  · trivial
  · split
    · trivial
    · cases hparse : Number.parse? word with
      | none => trivial
      | some number =>
        cases number with
        | integer value => exact Number.fits_of_parse? hparse
        | float bits => trivial

theorem Token.fits_ofCharName (name : List Char) : (ofCharName name).Fits := by
  unfold ofCharName
  split
  · trivial
  · split <;> trivial

theorem Token.fits_afterHash (text : List Char) : (afterHash text).1.Fits := by
  fun_cases afterHash text with
  | case1 | case2 | case3 | case5 => exact True.intro
  | case4 => exact fits_ofCharName _
  | case6 => exact fits_ofWord _

theorem Token.fits_of_next? {rest : List Char} (h : Token.next? text = some (token, rest)) :
    token.Fits := by
  unfold next? at h
  split at h
  · cases h
  · rename_i c left _
    obtain rfl : (startingWith c left).1 = token := by rw [Option.some.inj h]
    unfold startingWith
    split
    case h_1 | h_2 | h_3 | h_4 | h_5 => trivial
    case h_6 => split <;> trivial
    case h_7 => exact fits_afterHash left
    case h_8 => exact fits_ofWord _

end ArenaScheme
