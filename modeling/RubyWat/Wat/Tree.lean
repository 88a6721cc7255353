import RubyWat.Code.Tree
import RubyWat.Program.Basic
import RubyWat.Text.Blank

/-
  Code trees as folded instructions.

  An instruction opens a bracket, lists its operands one level deeper and closes the bracket on
  the line of the last one. Comments and raw text end with their line, so a bracket after them
  stands on a line of its own.
-/

-- Heads

namespace RubyWat.Wat

open Code

def labelName (t : Tree) (n : NodeId) : String :=
  (if t.instr n = .loop then "$loop" else "$block")
    ++ toString ((t.label? n).getD 0)

/- The result of an instruction that leaves a value. -/
def resultSuffix (ty : ValueType) : String :=
  match ty.held? with
  | some m => " (result " ++ m.mnemonic ++ ")"
  | none => ""

def offsetValue (p : Program) : Offset → Nat
  | .fixed n => n
  | .layout l => p.layoutValue l

/- The offset of a load or a store, unless it is zero. -/
def offsetSuffix (p : Program) (offset : Offset) : String :=
  let n := offsetValue p offset
  if n = 0 then "" else " offset=" ++ toString n

def operandType (t : Tree) (n : NodeId) : Wasm.MachineType :=
  match t.firstChild? n with
  | some c => (t.ty c).held
  | none => ValueType.pointer

/- The words of an instruction in front of its operands. -/
def head (p : Program) (t : Tree) (n : NodeId) : String :=
  let ty := t.ty n
  let held := ty.held.mnemonic
  match t.instr n with
  | .function m => "func " ++ p.functionHeader m
  | .call m => "call $" ++ p.methodName m
  | .ret => "return"
  | .const value => held ++ ".const " ++ toString value.toInt
  | .layout l => "i32.const " ++ toString (p.layoutValue l)
  | .localGet name => "local.get $" ++ name
  | .localSet name => "local.set $" ++ name
  | .localTee name => "local.tee $" ++ name
  | .globalGet name => "global.get $" ++ name
  | .globalSet name => "global.set $" ++ name
  | .load offset => held ++ ".load" ++ offsetSuffix p offset
  | .store stored offset => stored.mnemonic ++ ".store" ++ offsetSuffix p offset
  | .binary op => held ++ "." ++ op.mnemonic
  | .unary op => (operandType t n).mnemonic ++ "." ++ op.mnemonic
  | .compare op operand => operand.mnemonic ++ "." ++ op.mnemonic
  | .extend signed => "i64.extend_i32_" ++ (if signed then "s" else "u")
  | .wrap => "i32.wrap_i64"
  | .cond => "if" ++ resultSuffix ty
  | .thenArm => "then"
  | .elseArm => "else"
  | .block => "block " ++ labelName t n ++ resultSuffix ty
  | .loop => "loop " ++ labelName t n ++ resultSuffix ty
  | .br target => "br " ++ labelName t target
  | .brIf target => "br_if " ++ labelName t target
  | .drop => "drop"
  | .nop => "nop"
  | .root | .classBody _ | .inline _ | .comment _ => ""

-- Lines

def indent (depth : Nat) : String :=
  String.ofList (List.replicate (2 * depth) ' ')

def appendLast (suffix : String) : List String → List String
  | [] => []
  | [line] => [line ++ suffix]
  | line :: rest => line :: appendLast suffix rest

/- Close the bracket of an instruction behind its operands. -/
def closeBracket (t : Tree) (depth : Nat) (children : List NodeId)
    (opened : List String) : List String :=
  if children.getLast?.any fun c => (t.instr c).isText then opened ++ [indent depth ++ ")"]
  else appendLast ")" opened

def rawLines (depth : Nat) (text : String) : List String :=
  (((Text.lines text).map Text.trim).filter (· ≠ "")).map
    (indent depth ++ ·)

/- The lines of a node, to a certain height of the tree. -/
def lines (p : Program) (t : Tree) : Nat → Nat → NodeId → List String
  | 0, _, _ => []
  | fuel + 1, depth, n =>
    match t.instr n with
    | .root | .classBody _ => (t.children n).flatMap (lines p t fuel depth)
    | .inline text => rawLines depth text
    | .comment text => [indent depth ++ ";; " ++ text]
    | _ =>
      closeBracket t depth (t.children n)
        ((indent depth ++ "(" ++ head p t n)
          :: (t.children n).flatMap (lines p t fuel (depth + 1)))

def treeText (p : Program) (t : Tree) (depth : Nat) (n : NodeId) : String :=
  String.join ((lines p t t.size depth n).map (· ++ "\n"))

end RubyWat.Wat
