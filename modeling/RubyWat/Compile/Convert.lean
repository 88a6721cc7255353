import RubyWat.Compile.Context
import RubyWat.Program.Cast

/-
  Conversions in the code tree.

  A conversion either changes the type of a node in place or puts an instruction above it.  Each
  step gives the node that now stands where the converted one stood.
-/

-- Casts

namespace RubyWat

open Code (NodeId)

namespace Conversion

/- What a conversion makes of a literal. -/
def literal (kind : Conversion) (signed : Bool) (value : Int64) : Int64 :=
  match kind with
  | wrap | wrapRetag => Wasm.extendSigned (Wasm.cut 32 value)
  | extend =>
    if signed then value
    else Wasm.extendUnsigned (Wasm.cut 32 value)
  | _ => value

end Conversion

namespace Build

/- Put the instruction of a conversion above a node. -/
def emitCast (n : NodeId) (kind : Conversion) (target : ValueType) (signed : Bool) :
    Build NodeId := do
  match kind with
  | .retag =>
    setTy n target
    return n
  | .extend => insertAbove n (.extend signed) target
  | .wrap | .wrapRetag => insertAbove n .wrap target
  | .keep | .unsupported | .invalid => return n

/- Carry a conversion out.  Literals are converted at once. -/
def convert (n : NodeId) (kind : Conversion) (target : ValueType) (signed : Bool) :
    Build NodeId := do
  match ← instrOf n with
  | .const value =>
    setNode n (.const (kind.literal signed value)) target
    return n
  | _ => emitCast n kind target signed

/- Make the value of a node have a type. -/
def cast (n : NodeId) (target : ValueType) (signed : Bool) (span : Span) :
    Build NodeId := do
  let source ← tyOf n
  match Conversion.between source target with
  | .unsupported => throw (.unsupportedCast (← describe source) (← describe target) span)
  | .invalid => throw (.invalidCast (← describe source) (← describe target) span)
  | .keep => return n
  | kind => convert n kind target signed

/- Widen the value of a node with its sign. -/
def promote (n : NodeId) (target : ValueType) : Build NodeId := do
  cast n target true (← spanOf n)

def keepOrDrop (n : NodeId) (keep : Bool) : Build NodeId := do
  if keep || (← tyOf n).isNone then return n
  else insertAbove n .drop .none

end Build

end RubyWat
