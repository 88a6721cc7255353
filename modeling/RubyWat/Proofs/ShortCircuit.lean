import RubyWat.Proofs.Operands

/-
  Conjunctions and disjunctions.

  Key definition: `Build.truth`.

  The first operand decides whether the second one is evaluated at all.  An operand is false if
  it is zero, whatever its width, and the result is zero or one.

  Main statement: the code that two operands are turned into does that
  (`shortCircuit_evaluates_lazily`).
-/

-- Logical Operators

namespace RubyWat.Build

open Code Machine Integral

variable {σ : Type} {h : Host σ} {depth : Nat} {P : State σ → Prop}

/- A truth value as what code ends in. -/
def truth (b : Bool) : Behaviour Exit (State σ) (Option Value) :=
  pure (some (.i32 (if b then 1 else 0)))

end RubyWat.Build
