/-! Sets of code points given by their maximal runs. -/

namespace ArenaScheme.Text

/-- Whether `n` lies in one of the inclusive ranges. -/
def inRanges (ranges : Array (Nat × Nat)) (n : Nat) : Bool :=
  ranges.any fun range => range.1 ≤ n && n ≤ range.2

/-- Whether `n` lies in the set in which gaps and runs of the given lengths take turns. The first gap
begins at zero. -/
def inRuns : (lengths : List Nat) → (n : Nat) → Bool
  | gap :: run :: lengths, n =>
    gap ≤ n && (n - gap < run || inRuns lengths (n - gap - run))
  | _, _ => false

end ArenaScheme.Text
