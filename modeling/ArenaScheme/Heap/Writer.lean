import ArenaScheme.Heap.Copy
import ArenaScheme.Number.Decimal

/-! The text of a value. A pair or a vector that is being written further out appears as `...`, so
that writing ends on every value. -/

namespace ArenaScheme

/-- How strings and characters appear: as they are, or as the literals that read back. -/
inductive WriteMode where
  | display
  | write
  deriving DecidableEq, Repr

namespace WriteMode

def escapedChar : Char → String
  | '\n' => "\\n"
  | '\r' => "\\r"
  | '\t' => "\\t"
  | '"' => "\\\""
  | '\\' => "\\\\"
  | c => c.toString

def string : WriteMode → String → String
  | display, text => text
  | write, text => text.foldl (fun out c => out ++ escapedChar c) "\"" ++ "\""

def char : WriteMode → Char → String
  | display, c => c.toString
  | write, '\n' => "#\\newline"
  | write, '\r' => "#\\cr"
  | write, '\t' => "#\\tab"
  | write, ' ' => "#\\space"
  | write, c => "#\\" ++ c.toString

end WriteMode

namespace Heap

/-- The name of a symbol, empty if it is none. -/
def nameText (h : Heap) (symbol : Ref) : String :=
  match h.symbolName symbol with
  | .ok name => name
  | .error _ => ""

mutual

/-- Appends the text of the value at `r` to `out`. The pairs and vectors in `path` are being
written further out. -/
def textFrom (h : Heap) (mode : WriteMode) :
    (fuel : Nat) → (path : Std.TreeSet Ref) → Ref → (out : String) → String
  | 0, _, _, out => out
  | fuel + 1, path, r, out =>
    match h.object r with
    | .integer value => out ++ toString value
    | .float bits => out ++ Binary64.toText bits
    | .symbol => out ++ h.nameText r
    | .string _ =>
      match h.stringValue r with
      | .ok text => out ++ mode.string text
      | .error _ => out
    | .boolean value => out ++ if value then "#t" else "#f"
    | .char value => out ++ mode.char value
    | .null => out ++ "()"
    | .eof => out ++ "<EOF>"
    | .pair .. =>
      if path.contains r then out ++ "..."
      else h.spineFrom mode fuel path r (out ++ "(") ++ ")"
    | .vector length =>
      if path.contains r then out ++ "..."
      else
        let path := path.insert r
        (List.range length).foldl
          (fun out i =>
            h.textFrom mode fuel path (h.field r (1 + i)) (if i = 0 then out else out ++ " "))
          (out ++ "#(") ++ ")"
    | .builtin name _ => out ++ "<procedure " ++ h.nameText name ++ ">"
    | .closure c => out ++ "<procedure " ++ h.nameText c.name ++ ">"
    | .environment _ => out ++ "<environment>"
    | .binding => out ++ "<binding>"
    | .tagged _ value => h.textFrom mode fuel path value (out ++ "<tag ") ++ ">"

/-- Appends the elements of the list at `r`, which is not in `path`, and its tail. -/
def spineFrom (h : Heap) (mode : WriteMode) :
    (fuel : Nat) → (path : Std.TreeSet Ref) → Ref → (out : String) → String
  | 0, _, _, out => out
  | fuel + 1, path, r, out =>
    match h.object r with
    | .pair car cdr =>
      let path := path.insert r
      let out := h.textFrom mode fuel path car out
      match h.object cdr with
      | .null => out
      | .pair .. =>
        if path.contains cdr then out ++ " . ..."
        else h.spineFrom mode fuel path cdr (out ++ " ")
      | _ => h.textFrom mode fuel path cdr (out ++ " . ")
    | _ => out

end

/-- The text of a value; twice the bound, because a list takes a step for itself and one for each
of its elements. -/
def text (h : Heap) (mode : WriteMode) (r : Ref) : String :=
  h.textFrom mode (2 * h.nestingBound) ∅ r ""

def display (h : Heap) (r : Ref) : String := h.text .display r

def write (h : Heap) (r : Ref) : String := h.text .write r

end Heap

end ArenaScheme
