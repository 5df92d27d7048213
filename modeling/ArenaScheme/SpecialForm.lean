/-! The forms that the evaluator itself knows. Their names can never be bound. -/

namespace ArenaScheme

inductive SpecialForm where
  | quote
  | branch
  | begin
  | define
  | assign
  | lambda
  | defineTransformer
  deriving DecidableEq, Repr

namespace SpecialForm

def name : SpecialForm → String
  | quote => "quote"
  | branch => "if"
  | begin => "begin"
  | define => "define"
  | assign => "set!"
  | lambda => "lambda"
  | defineTransformer => "defmacro"

/-- In the order in which a machine makes their names, which fixes where these stand. -/
def all : List SpecialForm :=
  [quote, defineTransformer, assign, define, begin, branch, lambda]

end SpecialForm

def isReserved (name : String) : Bool := SpecialForm.all.any (·.name == name)

end ArenaScheme
