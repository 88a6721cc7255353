/-
  Sets of characters as runs.

  A set of characters is given by the lengths of the runs that
  lie outside and inside of it, in turns.
-/

-- Runs

namespace RubyWat.Text

/-
  Whether a code is in a set.  Runs that lie outside take turns
  with those inside, and behind the last run is the other side.
-/
def inRuns : List Nat → Nat → Bool
  | [], _ => false
  | length :: runs, code => code ≥ length && !inRuns runs (code - length)

end RubyWat.Text
