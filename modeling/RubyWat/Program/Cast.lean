import RubyWat.Program.Type

/-
  Conversions between types of values.

  The conversion between two types depends on what kind of type
  each of them is; equal types need none.
-/

-- Conversions

namespace RubyWat

/- What has to be done to a value of one type to get another. -/
inductive Conversion where
  | keep
  | extend
  | wrap
  | retag
  | wrapRetag
  | unsupported
  | invalid
deriving DecidableEq

namespace Conversion

def isAllowed : Conversion → Bool
  | unsupported | invalid => false
  | _ => true

/- Whether a conversion changes how a value is held. -/
def emitsCode : Conversion → Bool
  | extend | wrap | wrapRetag => true
  | _ => false

/- The conversion between two types that differ. -/
def ofDistinct : ValueType → ValueType → Conversion
  | .none, .none => keep
  | .none, _ => invalid
  | _, .none => invalid
  | .machine .i32, .machine .i32 => keep
  | .machine .i32, .machine .i64 => extend
  | .machine .i32, .machine _ => unsupported
  | .machine .i32, .ref _ => retag
  | .machine .i64, .machine .i32 => wrap
  | .machine .i64, .machine .i64 => keep
  | .machine .i64, .machine _ => unsupported
  | .machine .i64, .ref _ => wrapRetag
  | .machine .f32, .machine .f32 => keep
  | .machine .f64, .machine .f64 => keep
  | .machine .f32, .machine .f64 => invalid
  | .machine .f64, .machine .f32 => invalid
  | .machine _, .machine _ => unsupported
  | .machine _, .ref _ => invalid
  | .ref _, .machine .i32 => retag
  | .ref _, .machine .i64 => extend
  | .ref _, .machine _ => invalid
  | .ref _, .ref _ => retag

def between (source target : ValueType) : Conversion :=
  if source = target then keep else ofDistinct source target

def refusal? (source target : ValueType) : Option String :=
  match between source target with
  | unsupported =>
    some ("cast from " ++ source.text ++ " to " ++ target.text
      ++ " is not supported")
  | invalid => some ("cannot cast " ++ source.text ++ " to " ++ target.text)
  | _ => none

end Conversion

/- The place of a type among the kinds that conversions tell apart. -/
def ValueType.category : ValueType → Nat
  | .none => 0
  | .machine ty => ty.rank + 1
  | .ref _ => 5

end RubyWat
