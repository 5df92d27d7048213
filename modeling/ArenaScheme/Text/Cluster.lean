import ArenaScheme.Text.GraphemeBreak

/-! Clusters: the pieces of a text that a reader takes for one character each. A cluster is built
from the left, and each character continues it or starts the next one. -/

namespace ArenaScheme.Text

namespace BreakClass

/-- Stands alone, whatever is around it. -/
def isControl : BreakClass → Bool
  | control | carriageReturn | lineFeed => true
  | _ => false

/-- A mark in the narrow sense, without a width of its own and without the joiner. -/
def isExtend : BreakClass → Bool
  | extend | linker | nonJoiner => true
  | _ => false

/-- Belongs to what stands before it. -/
def attaches : BreakClass → Bool
  | joiner | spacingMark => true
  | b => b.isExtend

/-- Can stand between the consonants of a conjunct. -/
def conjoins : BreakClass → Bool
  | extend | linker | joiner => true
  | _ => false

end BreakClass

/-- Whether a consonant follows as part of a conjunct: a consonant came before, and a linker among the
marks since. Classes are listed from the nearest one back, here and below. -/
def endsLinked (before : List BreakClass) : Bool :=
  (before.takeWhile (·.conjoins)).contains .linker &&
    (before.dropWhile (·.conjoins)).head? == some .consonant

/-- Whether a pictograph came before, with nothing but marks since. -/
def endsPictograph (before : List BreakClass) : Bool :=
  (before.dropWhile (·.isExtend)).head? == some .pictograph

/-- Whether the cluster that so far consists of `before` goes on with `next`. -/
def continues : List BreakClass → BreakClass → Bool
  | [], _ => true
  | last :: before, next =>
    if last = .carriageReturn ∧ next = .lineFeed then true
    else if last.isControl || next.isControl then false
    else if next.attaches then true
    else match last, next with
      | .prepended, _ => true
      | .leadingJamo, .leadingJamo | .leadingJamo, .vowelJamo => true
      | .leadingJamo, .openSyllable | .leadingJamo, .closedSyllable => true
      | .openSyllable, .vowelJamo | .openSyllable, .trailingJamo => true
      | .vowelJamo, .vowelJamo | .vowelJamo, .trailingJamo => true
      | .closedSyllable, .trailingJamo | .trailingJamo, .trailingJamo => true
      | _, .consonant => endsLinked (last :: before)
      | .joiner, .pictograph => endsPictograph before
      -- regional letters go in pairs
      | .regional, .regional => (before.takeWhile (· = .regional)).length % 2 = 0
      | _, _ => false

/-- The clusters of a text, given the cluster at hand with its last character first. -/
def clustersFrom (current : List Char) (classes : List BreakClass) : List Char → List (List Char)
  | [] => if current.isEmpty then [] else [current.reverse]
  | c :: text =>
    let next := breakClass c
    if continues classes next then clustersFrom (c :: current) (next :: classes) text
    else current.reverse :: clustersFrom [c] [next] text

def clusters (text : List Char) : List (List Char) := clustersFrom [] [] text

end ArenaScheme.Text
