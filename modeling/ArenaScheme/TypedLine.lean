import ArenaScheme.Text.Cluster

/-! Lines as they were typed. A backspace in a line is a correction, carried out before the line is
evaluated. -/

namespace ArenaScheme

namespace TypedLine

/-- A line without its line break, and without a carriage return before it. -/
def chomp (line : List Char) : List Char :=
  match line.reverse with
  | '\n' :: '\r' :: rest => rest.reverse
  | '\n' :: rest => rest.reverse
  | _ => line

/-- The part of a line that stands so far. -/
structure Draft where
  /-- Its characters, the last one first. -/
  kept : List Char
  /-- How many bytes each further backspace takes back. -/
  sizes : List Nat
  deriving DecidableEq, Repr

/-- Takes bytes back from the end of a text, given with its last character first. Nothing remains
sensible of a text that is cut inside a character. -/
def takeBack : Nat → List Char → Option (List Char)
  | 0, kept => some kept
  | _ + 1, [] => none
  | n + 1, c :: kept => if c.utf8Size ≤ n + 1 then takeBack (n + 1 - c.utf8Size) kept else none

/-- The size that is remembered of a cluster. It is kept in one byte, so that a multiple of 256 is
lost. -/
def rememberedSize (cluster : List Char) : Nat := (String.ofList cluster).utf8ByteSize % 256

/-- Adds a cluster to a draft. A backspace takes back what was added last, if there is any. -/
def Draft.add (draft : Draft) (cluster : List Char) : Option Draft :=
  if cluster = ['\x08'] then
    match draft.sizes with
    | [] => some draft
    | size :: sizes => (takeBack size draft.kept).map fun kept => { kept, sizes }
  else some
    { kept := cluster.reverse ++ draft.kept, sizes := rememberedSize cluster :: draft.sizes }

/-- Carries out the corrections in a line. -/
def corrected (line : List Char) : Option (List Char) :=
  ((Text.clusters line).foldlM Draft.add { kept := [], sizes := [] }).map (·.kept.reverse)

/-- What a line that was read says, if its corrections make sense. -/
def typed (line : List Char) : Option String := (corrected (chomp line)).map String.ofList

/-- Splits a text after each line break. -/
def splitLines : List Char → List (List Char)
  | [] => []
  | '\n' :: rest => ['\n'] :: splitLines rest
  | c :: rest =>
    match splitLines rest with
    | [] => [[c]]
    | line :: lines => (c :: line) :: lines

def lines (input : String) : List (Option String) := (splitLines input.toList).map typed

end TypedLine

end ArenaScheme
