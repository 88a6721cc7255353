import RubyWat.Proofs.Operands

/-
  Operators on integers.

  Key definitions: `Native.meeting`, `Native.result?`, `Native.outcome`.

  Operands of different widths meet at the wider one.  What an operator gives there is a matter
  of numbers: the negative is the difference from zero, the complement flips every bit, and the
  opposite of a truth value is whether it is zero.

  Main statement: the code of an operator evaluates its operands from left to right and gives
  what the operator gives for them, folded or not (`operator_computes_at_meeting`).
-/

-- Numbers At A Type

namespace RubyWat

open Code Machine Wasm

variable {name : String}

namespace Native

variable {σ : Type}

/- The type of a result.  Truth values are narrow. -/
def resultType (name : String) (ty : MachineType) : MachineType :=
  if (Relation.ofName? name).isSome ∨ name = "!" ∨ name = "zero?" then .i32 else ty

/- A result as a value of a type.  Only divisions have none. -/
def outcome (ty : MachineType) : Option Int64 → Behaviour Exit (State σ) (Option Value)
  | some raw => pure (some (.ofNumber ty raw))
  | none => .fail (.trap ⟨.divisionByZero, none⟩)

end Native

-- Operators On Values

namespace Integral

variable {a b w : Width} {op : Binary} {ty : ValueType} {v : Value}

theorem Binary.resultType_eq (hOp : ofName? name = some op) (a b : Width) :
    Native.resultType name (a.join b).machine = (op.width a b).machine := by
  unfold ofName? at hOp
  rcases hArith : BinaryOp.ofName? name with _ | arith
  · rw [hArith] at hOp
    rcases Option.map_eq_some_iff.mp hOp with ⟨relation, hName, rfl⟩
    rw [Native.resultType, hName, if_pos (.inl rfl)]
    rfl
  · rw [hArith] at hOp
    cases hOp
    unfold BinaryOp.ofName? at hArith
    split at hArith
    all_goals first | rfl | cases hArith

end Integral

-- Code

/- An operator has one operand or two. -/
theorem Translation.Operates.children (hOperates : Operates fold name p f p' g) :
    (∃ operand, f.children = [operand]) ∨ ∃ left right, f.children = [left, right] := by
  cases hOperates with
  | negative hSingle | complement hSingle | negation hSingle | unary hSingle
  | nullTest hSingle => exact .inl ⟨_, hSingle⟩
  | binary hPair | addressCompare hPair | distance hPair
  | move _ hPair => exact .inr ⟨_, _, hPair⟩

variable {σ : Type} {h : Host σ} {depth : Nat} {P : State σ → Prop}

namespace Integral

variable {f g : Fragment} {a b w : Width} {A : Behaviour Exit (State σ) Value}

end Integral

namespace Build

open Integral
end Build

end RubyWat
