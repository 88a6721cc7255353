import RubyWat.Dump.Tag
import RubyWat.Source.Span

/-
  Syntax trees.

  A node is a tag with an ordered list of items.  An item is a node, an absent child, or a
  payload.  The accessors that need a certain item fail with the shape they expected.
-/

-- Nodes

namespace RubyWat.Dump

/- One place in the list of a node. -/
inductive Item (α : Type) where
  | node (n : α)
  | nil
  | symbol (name : String)
  | int (value : Int64)
  | float (bits : UInt64)
  | str (bytes : List UInt8)

structure Node where
  tag : Tag
  items : List (Item Node)
  span : Span

instance : Inhabited Node :=
  ⟨⟨.begin, [], .generated⟩⟩

namespace Item

variable {α : Type}

def node? : Item α → Option α
  | node n => some n
  | _ => none

def symbol? : Item α → Option String
  | symbol name => some name
  | _ => none

def int? : Item α → Option Int64
  | int value => some value
  | _ => none

def str? : Item α → Option (List UInt8)
  | str bytes => some bytes
  | _ => none

def isNil : Item α → Bool
  | nil => true
  | _ => false

end Item

mutual

/- The number of nodes on the longest way down from a node. -/
def Node.height : Node → Nat
  | ⟨_, items, _⟩ => Node.heightBelow items + 1

/- The largest height of the nodes in a list. -/
def Node.heightBelow : List (Item Node) → Nat
  | [] => 0
  | .node n :: items => max n.height (Node.heightBelow items)
  | _ :: items => Node.heightBelow items

end

/- What a node should have held. -/
inductive Shape where
  | node (index : Nat)
  | symbol (index : Nat)
  | integer (index : Nat)
  | string (index : Nat)
  | constantName
  | constantPath
  | receiver
deriving DecidableEq

def Shape.text : Shape → String
  | .node index => "a node at position " ++ toString index
  | .symbol index => "a symbol at position " ++ toString index
  | .integer index => "an integer at position " ++ toString index
  | .string index => "a string at position " ++ toString index
  | .constantName => "a constant name"
  | .constantPath => "a constant path"
  | .receiver => "a receiver or nil"

/- A node that does not have the expected shape. -/
structure Malformed where
  tag : Tag
  expected : Shape
  span : Span
deriving DecidableEq

-- Items By Position

namespace Node

def node? (n : Node) (index : Nat) : Option Node :=
  n.items[index]?.bind Item.node?

def nodes (n : Node) : List Node :=
  n.items.filterMap Item.node?

def nodesFrom (n : Node) (index : Nat) : List Node :=
  (n.items.drop index).filterMap Item.node?

/- A value that has to be there, or the shape that is missing. -/
def require {α : Type} (n : Node) (expected : Shape) (found : Option α) : Except Malformed α :=
  match found with
  | some a => .ok a
  | none => .error ⟨n.tag, expected, n.span⟩

def nodeAt (n : Node) (index : Nat) : Except Malformed Node :=
  n.require (.node index) (n.node? index)

def symbolAt (n : Node) (index : Nat) : Except Malformed String :=
  n.require (.symbol index) (n.items[index]?.bind Item.symbol?)

def intAt (n : Node) (index : Nat) : Except Malformed Int64 :=
  n.require (.integer index) (n.items[index]?.bind Item.int?)

def strAt (n : Node) (index : Nat) : Except Malformed (List UInt8) :=
  n.require (.string index) (n.items[index]?.bind Item.str?)

end Node

-- Symbols, Pairs And Constant Paths

/- A path of names, outermost first.  A rooted path starts at the root scope. -/
structure ConstPath where
  segments : List String
  rooted : Bool
deriving DecidableEq

namespace Node

def symbolLiteral? (n : Node) : Option String :=
  if n.tag = .sym then n.items[0]?.bind Item.symbol?
  else none

def pair? (n : Node) : Option (String × Node) := do
  let key ← n.node? 0
  let name ← key.symbolLiteral?
  let value ← n.node? 1
  return (name, value)

/-
  The pairs of a keyword list.  There are none unless every
  child is a pair with a symbol literal as its key.
-/
def pairs? (n : Node) : Option (List (String × Node)) :=
  if n.tag = .hash ∨ n.tag = .kwargs then n.nodes.mapM pair?
  else none

/-
  The path of a constant.  There is none when something other
  than constants stands in the chain of scopes.
-/
def constPath? : Node → Option ConstPath
  | ⟨.const, .nil :: .symbol name :: _, _⟩ => some ⟨[name], false⟩
  | ⟨.const, .node scope :: .symbol name :: _, _⟩ =>
    if scope.tag = .rootScope then some ⟨[name], true⟩
    else (constPath? scope).map fun path => { path with segments := path.segments ++ [name] }
  | _ => none

end Node

end RubyWat.Dump
