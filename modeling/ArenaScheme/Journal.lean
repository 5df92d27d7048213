/-! What a machine notes down while it runs. -/

namespace ArenaScheme

inductive Event where
  | collection (number reclaimed live : Nat)
  | growth (before after : Nat)
  | expansion (name : String)
  | evaluation (form : String)
  deriving DecidableEq, Repr

/-- The line of an event in a log, its level first. -/
def Event.line : Event → String
  | collection number reclaimed live =>
    s!"DEBUG collection #{number} reclaimed {reclaimed} bytes, {live} bytes live"
  | growth before after => s!"DEBUG growing heap from {before} to {after} bytes"
  | expansion name => s!"TRACE expanding macro {name}"
  | evaluation form => s!"TRACE eval: {form}"

end ArenaScheme
