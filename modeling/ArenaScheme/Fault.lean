import ArenaScheme.Text.Quoted

/-! Everything that can stop a computation, each with its cause. `message` is what a user is
told; `report` names the cause with its data and is what a script that fails leaves behind. -/

namespace ArenaScheme

/-- Why a file could not be taken as source text. -/
inductive FileProblem where
  | missing
  | isDirectory
  /-- A file is named where its path needs a directory. -/
  | notDirectory
  | nameTooLong
  | notText
  deriving DecidableEq, Repr

/-- What is wrong with a reference that a collection came upon. -/
inductive Damage where
  | pastEnd (position : Nat)
  | unmarked (position : Nat)
  deriving DecidableEq, Repr

inductive Fault where
  | unexpectedEnd
  | unexpectedDelimiter (delimiter : Char)
  | invalidDottedList
  | dotInVector
  | unknownCharName (name : String)
  | undefinedVariable (name : String)
  | reservedName (name : String)
  | wrongType (expected received : String)
  | wrongArgumentCount (expected received : Nat)
  | tooFewArguments (least received : Nat)
  | notCallable (text : String)
  | malformed (reason : String)
  | indexOutOfRange (index : Int)
  | divisionByZero
  | unsupportedBase (base : Int)
  | exit (code : Int)
  | recordTooLarge (size : Nat)
  | heapExhausted (request : Nat)
  | corruptHeap (damage : Damage)
  | fileFailure (problem : FileProblem)
  deriving DecidableEq, Repr

def FileProblem.message : FileProblem → String
  | missing => "No such file or directory (os error 2)"
  | isDirectory => "Is a directory (os error 21)"
  | notDirectory => "Not a directory (os error 20)"
  | nameTooLong => "File name too long (os error 36)"
  | notText => "stream did not contain valid UTF-8"

def FileProblem.report : FileProblem → String
  | missing => "Os \x7b code: 2, kind: NotFound, message: \"No such file or directory\" \x7d"
  | isDirectory => "Os \x7b code: 21, kind: IsADirectory, message: \"Is a directory\" \x7d"
  | notDirectory =>
    "Os \x7b code: 20, kind: NotADirectory, message: \"Not a directory\" \x7d"
  | nameTooLong =>
    "Os \x7b code: 36, kind: InvalidFilename, message: \"File name too long\" \x7d"
  | notText =>
    "Error \x7b kind: InvalidData, message: \"stream did not contain valid UTF-8\" \x7d"

def Damage.message : Damage → String
  | pastEnd position => s!"reference past the end of the heap: {position}"
  | unmarked position => s!"reference to unmarked record at {position}"

namespace Fault

def message : Fault → String
  | unexpectedEnd => "unexpected end of input"
  | unexpectedDelimiter delimiter => s!"unexpected delimiter '{delimiter}'"
  | invalidDottedList => "invalid dotted list"
  | dotInVector => "'.' is not allowed inside a vector literal"
  | unknownCharName name => s!"unknown character name `{name}`"
  | undefinedVariable name => s!"undefined variable `{name}`"
  | reservedName name => s!"cannot redefine special form `{name}`"
  | wrongType expected received =>
    s!"invalid data type. expected {expected}, received {received}"
  | wrongArgumentCount expected received =>
    s!"unexpected arguments. expected {expected}, received {received}"
  | tooFewArguments least received =>
    s!"too few arguments. expected at least {least}, received {received}"
  | notCallable text => s!"`{text}` is not a procedure"
  | malformed reason => s!"invalid form: {reason}"
  | indexOutOfRange index => s!"index {index} out of range"
  | divisionByZero => "division by zero"
  | unsupportedBase base => s!"unsupported numeric base {base}"
  | exit code => s!"execution stopped with exit code {code}"
  | recordTooLarge size => s!"cannot allocate a single record of {size} bytes"
  | heapExhausted request => s!"heap exhausted while requesting {request} bytes"
  | corruptHeap damage => s!"corrupt heap: {damage.message}"
  | fileFailure problem => s!"error calling into native function: {problem.message}"

def report : Fault → String
  | unexpectedEnd => "UnexpectedEof"
  | unexpectedDelimiter delimiter => s!"UnexpectedDelimiter('{delimiter}')"
  | invalidDottedList => "InvalidDottedList"
  | dotInVector => "DotInVector"
  | unknownCharName name => s!"InvalidCharName({Text.quoted name})"
  | undefinedVariable name => s!"UndefinedVariable({Text.quoted name})"
  | reservedName name => s!"CannotRedefineSpecialForm({Text.quoted name})"
  | wrongType expected received =>
    s!"InvalidDataType({Text.quoted expected}, {Text.quoted received})"
  | wrongArgumentCount expected received => s!"IncorrectArguments({expected}, {received})"
  | tooFewArguments least received => s!"TooFewArguments({least}, {received})"
  | notCallable text => s!"NotCallable({Text.quoted text})"
  | malformed reason => s!"InvalidForm({Text.quoted reason})"
  | indexOutOfRange index => s!"IndexOutOfRange({index})"
  | divisionByZero => "DivisionByZero"
  | unsupportedBase base => s!"UnsupportedBase({base})"
  | exit code => s!"Exit({code})"
  | recordTooLarge size => s!"AllocationTooLarge({size})"
  | heapExhausted request => s!"HeapExhausted({request})"
  | corruptHeap damage => s!"CorruptHeap({Text.quoted damage.message})"
  | fileFailure problem => s!"OSFailure({problem.report})"

/-- Whether the heap can no longer be trusted. Every other fault only ends the current form. -/
def isFatal : Fault → Bool
  | heapExhausted _ | corruptHeap _ => true
  | _ => false

end Fault

end ArenaScheme
