import ArenaScheme.Text.Ranges

/-! The Unicode property White_Space. -/

namespace ArenaScheme.Text

/-- The runs of blank code points, in increasing order. -/
def blankRanges : Array (Nat × Nat) := #[
  (9, 13), (32, 32), (133, 133), (160, 160), (5760, 5760), (8192, 8202), (8232, 8233),
  (8239, 8239), (8287, 8287), (12288, 12288)]

/-- A character that separates words in some script: spaces, tabs, line and page breaks. -/
def isBlank (c : Char) : Bool := inRanges blankRanges c.toNat

end ArenaScheme.Text
