import ArenaScheme.Fault
import ArenaScheme.Number.Numeral
import ArenaScheme.Text.Alphabetic
import ArenaScheme.Text.Blank

/-! Words of source text. The scanner goes through the text once, character by character; a word
ends at a blank or a closing parenthesis. A word that is wrong is a token too: it holds the fault,
and reading can go on behind it. -/

namespace ArenaScheme

/-- The marks that stand for a form around the next datum. -/
inductive QuoteMark where
  | quote
  | quasiquote
  | unquote
  deriving DecidableEq, Repr

/-- A datum that is written as one word. -/
inductive Atom where
  | boolean (value : Bool)
  | number (value : Number)
  | symbol (name : String)
  | string (text : String)
  | char (value : Char)
  deriving DecidableEq, Repr

inductive Token where
  | openList
  | openVector
  | close
  | quoteMark (mark : QuoteMark)
  | atom (atom : Atom)
  | fault (fault : Fault)
  deriving DecidableEq, Repr

namespace Token

/-- A word that is not a character: a boolean, a numeral, or else a symbol. -/
def ofWord (word : List Char) : Token :=
  if word = ['#', 't'] then .atom (.boolean true)
  else if word = ['#', 'f'] then .atom (.boolean false)
  else match Number.parse? word with
    | some number => .atom (.number number)
    | none => .atom (.symbol (String.ofList word))

/-- A character by name; a single letter names itself. -/
def ofCharName : List Char → Token
  | [c] => .atom (.char c)
  | name =>
    match String.ofList name with
    | "newline" => .atom (.char '\n')
    | "cr" => .atom (.char '\r')
    | "tab" => .atom (.char '\t')
    | "space" => .atom (.char ' ')
    | name => .fault (.unknownCharName name)

/-- What a character stands for after a backslash in a string. -/
def unescape : Char → Char
  | 'n' => '\n'
  | 'r' => '\r'
  | 't' => '\t'
  | c => c

/-- Where the scanner is. Words and strings hold what they have so far, the last character first. -/
inductive Mode where
  | between
  | comment
  | word (reversed : List Char)
  | string (reversed : List Char)
  | escape (reversed : List Char)
  | hash
  | charStart
  | charName (reversed : List Char)
  deriving DecidableEq, Repr

/-- Whether a word ends before `c`. -/
def endsWord (c : Char) : Bool := Text.isBlank c || c == ')'

/-- The character after a word: it belongs to no token unless it closes a list. -/
def afterWord (c : Char) : List Token := if c = ')' then [.close] else []

/-- Takes in one character: the tokens that are now complete, and the new mode. -/
def step : Mode → Char → List Token × Mode
  | .between, c =>
    match c with
    | ';' => ([], .comment)
    | '\'' => ([.quoteMark .quote], .between)
    | '`' => ([.quoteMark .quasiquote], .between)
    | ',' => ([.quoteMark .unquote], .between)
    | '(' => ([.openList], .between)
    | ')' => ([.close], .between)
    | '"' => ([], .string [])
    | '#' => ([], .hash)
    | c => if Text.isBlank c then ([], .between) else ([], .word [c])
  | .comment, c => ([], if c = '\n' then .between else .comment)
  | .word reversed, c =>
    if endsWord c then (ofWord reversed.reverse :: afterWord c, .between)
    else ([], .word (c :: reversed))
  | .string reversed, c =>
    match c with
    | '"' => ([.atom (.string (String.ofList reversed.reverse))], .between)
    | '\\' => ([], .escape reversed)
    | c => ([], .string (c :: reversed))
  | .escape reversed, c => ([], .string (unescape c :: reversed))
  | .hash, c =>
    match c with
    | '(' => ([.openVector], .between)
    | '\\' => ([], .charStart)
    | c =>
      if endsWord c then (ofWord ['#'] :: afterWord c, .between) else ([], .word [c, '#'])
  | .charStart, c =>
    if Text.isAlphabetic c then ([], .charName [c]) else ([.atom (.char c)], .between)
  | .charName reversed, c =>
    if endsWord c then (ofCharName reversed.reverse :: afterWord c, .between)
    else ([], .charName (c :: reversed))

/-- The token that the end of the text completes, or that it leaves incomplete. -/
def atEnd : Mode → List Token
  | .between | .comment => []
  | .word reversed => [ofWord reversed.reverse]
  | .charName reversed => [ofCharName reversed.reverse]
  | .string _ | .escape _ | .hash | .charStart => [.fault .unexpectedEnd]

def scanFrom : Mode → List Char → List Token
  | mode, [] => atEnd mode
  | mode, c :: text =>
    match step mode c with
    | ([], mode) => scanFrom mode text
    | (tokens, mode) => tokens ++ scanFrom mode text

/-- The tokens of a text. -/
def scan (text : String) : List Token := scanFrom .between text.toList

end Token

end ArenaScheme
