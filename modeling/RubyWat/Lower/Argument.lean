import RubyWat.Lower.Basic

/- Arguments of directives. -/

-- Names And Types

namespace RubyWat.Lower

open Dump

def badArguments {α : Type} (directive expected : String) (span : Span) : Lower α :=
  refuse (.directiveArguments directive expected span)

/- A symbol or a string. -/
def nameArgument (directive : String) (node : Node) : Lower String := do
  match node.tag with
  | .sym => node.symbolAt 0
  | .str => return Text.Utf8.decodeLossy (← node.strAt 0)
  | _ => badArguments directive "a symbol or string" node.span

def pathText (path : ConstPath) : String :=
  (if path.rooted then "::" else "") ++ "::".intercalate path.segments

/- The name of a type: a constant path or a symbol. -/
def typeName (node : Node) : Lower String := do
  match node.tag, node.constPath? with
  | .const, some path => return pathText path
  | .sym, _ => node.symbolAt 0
  | _, _ => badArguments "type" "a type name" node.span

def typeArgument (parent : Code.NodeId) (node : Node) : Lower ValueType := do
  let ctx ← context
  let name ← typeName node
  match ctx.program.typeOfName? name (ctx.classOf parent) with
  | some ty => return ty
  | none => refuse (.unknownType name node.span)

/- A name with a type, and where the type is written. -/
structure TypedName where
  name : String
  ty : ValueType
  span : Span

def typedPairs (parent : Code.NodeId) : List (String × Node) → Lower (List TypedName)
  | [] => return []
  | (name, node) :: rest => do
      let ty ← typeArgument parent node
      return ⟨name, ty, node.span⟩ :: (← typedPairs parent rest)

def typedNames (parent : Code.NodeId) (directive : String) (args : List Node) (span : Span) :
    Lower (List TypedName) := do
  match args with
  | [keywords] =>
    match keywords.pairs? with
    | some pairs => typedPairs parent pairs
    | none => badArguments directive "`name: :Type` pairs" keywords.span
  | _ => badArguments directive "`name: :Type` pairs" span

/- The type that a cast names, and whether it keeps the sign. -/
def castArguments (args : List Node) (span : Span) : Lower (Node × Bool) := do
  match args with
  | [ty] => return (ty, false)
  | [ty, flag] =>
    if flag.symbolLiteral? = some "signed" then
      return (ty, true)
    else badArguments "cast_to" "a type and optionally `:signed`" span
  | _ => badArguments "cast_to" "a type and optionally `:signed`" span

/- The constant through which static data is reached. -/
def dataRegistry : String :=
  "DAta"

def isDataRegistry (node : Node) : Bool :=
  node.constPath?.any (·.segments == [dataRegistry])

def dataLabel (node : Node) : Lower String := do
  match node.tag, node.items with
  | .sym, .symbol name :: _ => return name
  | .str, .str bytes :: _ => return Text.Utf8.decodeLossy bytes
  | _, _ => badArguments dataRegistry "a symbol or string label" node.span

def labelAddress (label : String) (span : Span) : Lower Nat := do
  match (← program).data.labelAddress? label with
  | some address => return address
  | none => refuse (.unknownLabel label span)

end RubyWat.Lower
