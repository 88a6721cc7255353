import RubyWat.Program.Type
import RubyWat.Text.Quoted
import RubyWat.Wasm.Operator

/-
  Instructions of a code tree.

  Each node of a code tree carries one instruction; its operands are the children of the node.
  Numbers that depend on the layout of a class stand in the tree by name, because the layout is
  only complete at the end of a program.
-/

-- Instructions

namespace RubyWat.Code

open Wasm Text

/- A node of a code tree, numbered in order of creation. -/
structure NodeId where
  index : Nat
deriving DecidableEq, Inhabited

/- A number that the layout of a class determines. -/
inductive Layout where
  | size (c : ClassId)
  | offset (c : ClassId) (slot : Nat)
deriving DecidableEq

/- The constant part of an address. -/
inductive Offset where
  | fixed (n : Nat)
  | layout (l : Layout)
deriving DecidableEq

inductive Instr where
  | root
  | classBody (c : ClassId)
  | function (m : MethodId)
  | call (m : MethodId)
  | ret
  | const (value : Int64)
  | layout (l : Layout)
  | localGet (name : String)
  | localSet (name : String)
  | localTee (name : String)
  | globalGet (name : String)
  | globalSet (name : String)
  | load (offset : Offset)
  | store (ty : MachineType) (offset : Offset)
  | binary (op : BinaryOp)
  | unary (op : UnaryOp)
  | compare (op : Relation) (operand : MachineType)
  | extend (signed : Bool)
  | wrap
  | cond
  | thenArm
  | elseArm
  | block
  | loop
  | br (target : NodeId)
  | brIf (target : NodeId)
  | drop
  | nop
  | inline (text : String)
  | comment (text : String)
deriving DecidableEq, Inhabited

/- How an instruction is written. -/
inductive Form where
  | structural
  | instruction
  | raw
deriving DecidableEq

namespace Instr

/- Structural instructions only group their children, and raw ones are copied as they are. -/
def form : Instr → Form
  | root | classBody _ => .structural
  | inline _ => .raw
  | _ => .instruction

/- Whether branches can name a node with this instruction. -/
def takesLabel : Instr → Bool
  | block | loop => true
  | _ => false

def isTerminator : Instr → Bool
  | br _ | ret => true
  | _ => false

/- Whether an instruction stands for a text of its own lines. -/
def isText : Instr → Bool
  | inline _ | comment _ => true
  | _ => false

end Instr

-- Listings

/- The fields of a listed value in braces. -/
def braced (name fields : String) : String :=
  name ++ " \x7b " ++ fields ++ " \x7d"

/- A listed value with one unnamed part. -/
def applied (name part : String) : String :=
  name ++ "(" ++ part ++ ")"

def NodeId.listing (n : NodeId) : String :=
  applied "NodeId" (toString n.index)

def classListing (c : ClassId) : String :=
  applied "ClassId" (toString c.index)

def methodListing (m : MethodId) : String :=
  applied "MethodId" (toString m.index)

def Layout.listing : Layout → String
  | .size c => applied "ClassSize" (classListing c)
  | .offset c slot =>
    braced "IvarOffset"
      ("class: " ++ classListing c ++ ", slot: " ++ toString slot)

def Offset.listing : Offset → String
  | .fixed n => applied "Fixed" (toString n)
  | .layout l => applied "Lazy" l.listing

def binaryListing : BinaryOp → String
  | .add => "Add"
  | .sub => "Sub"
  | .mul => "Mul"
  | .div => "Div"
  | .rem => "Rem"
  | .and => "And"
  | .or => "Or"
  | .xor => "Xor"
  | .shl => "Shl"
  | .shr => "Shr"

def unaryListing : UnaryOp → String
  | .eqz => "Eqz"
  | .clz => "Clz"
  | .ctz => "Ctz"
  | .popcnt => "Popcnt"

def relationListing : Relation → String
  | .eq => "Eq"
  | .ne => "Ne"
  | .lt => "Lt"
  | .le => "Le"
  | .gt => "Gt"
  | .ge => "Ge"

def boolListing (b : Bool) : String :=
  if b then "true" else "false"

def Instr.listing : Instr → String
  | root => "Root"
  | classBody c => applied "ClassBody" (classListing c)
  | function m => applied "Method" (methodListing m)
  | call m => applied "Call" (methodListing m)
  | ret => "Return"
  | const value => applied "Const" (toString value.toInt)
  | layout l => applied "ConstLazy" l.listing
  | localGet name => applied "LocalGet" (quoted name)
  | localSet name => applied "LocalSet" (quoted name)
  | localTee name => applied "LocalTee" (quoted name)
  | globalGet name => applied "GlobalGet" (quoted name)
  | globalSet name => applied "GlobalSet" (quoted name)
  | load offset => braced "Load" ("offset: " ++ offset.listing)
  | store ty offset =>
    braced "Store"
      ("ty: " ++ ty.text ++ ", offset: " ++ offset.listing)
  | binary op => applied "Binary" (binaryListing op)
  | unary op => applied "Unary" (unaryListing op)
  | compare op operand =>
    braced "Compare"
      ("op: " ++ relationListing op ++ ", operand: " ++ operand.text)
  | extend signed => braced "Extend" ("signed: " ++ boolListing signed)
  | wrap => "Wrap"
  | cond => "If"
  | thenArm => "Then"
  | elseArm => "Else"
  | block => "Block"
  | loop => "Loop"
  | br target => applied "Br" target.listing
  | brIf target => applied "BrIf" target.listing
  | drop => "Drop"
  | nop => "Nop"
  | inline text => applied "Inline" (quoted text)
  | comment text => applied "Comment" (quoted text)

end RubyWat.Code
