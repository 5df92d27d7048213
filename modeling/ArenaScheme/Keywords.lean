import ArenaScheme.Heap.Frame
import ArenaScheme.Token

/-! The symbols that the reader, the evaluator and the expander look for. They are interned while
the heap pins its records, so these references stay right. -/

namespace ArenaScheme

structure Keywords where
  forms : List (Ref × SpecialForm)
  quote : Ref
  quasiquote : Ref
  unquote : Ref
  begin : Ref
  lambda : Ref
  defineTransformer : Ref
  dot : Ref
  undefined : Ref
  deriving Inhabited

namespace Keywords

def intern : HeapM Keywords := do
  let forms ← SpecialForm.all.mapM fun form => return (← HeapM.intern form.name, form)
  return {
    forms
    quote := ← HeapM.intern "quote"
    quasiquote := ← HeapM.intern "quasiquote"
    unquote := ← HeapM.intern "unquote"
    begin := ← HeapM.intern "begin"
    lambda := ← HeapM.intern "lambda"
    defineTransformer := ← HeapM.intern "defmacro"
    dot := ← HeapM.intern "."
    undefined := ← HeapM.intern "undefined" }

/-- The special form whose name is the symbol `head`. -/
def specialForm? (keywords : Keywords) (head : Ref) : Option SpecialForm :=
  keywords.forms.lookup head

def ofMark (keywords : Keywords) : QuoteMark → Ref
  | .quote => keywords.quote
  | .quasiquote => keywords.quasiquote
  | .unquote => keywords.unquote

end Keywords

end ArenaScheme
