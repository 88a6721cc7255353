import RubyWat.Lower.Assignment
import RubyWat.Lower.Control
import RubyWat.Lower.Item

/- The code of syntax nodes. -/

-- Sends

namespace RubyWat.Lower

open Dump

open Code (NodeId)

def receiverSend (d : Descent) (parent : NodeId) (node receiver : Node)
    (name : String) (args : List Node) : Lower (Option NodeId) := do
  if isDataRegistry receiver then dataAccess parent node name args
  else
    requireMethodScope parent node
    if name = "cast_to" then
      some <$> castCall d parent node receiver args
    else
      match ← namedClass parent receiver with
      | some c => some <$> classCall d parent node c name args
      | none => some <$> valueCall d parent node receiver name args

def sendNode (d : Descent) (parent : NodeId) (node : Node) :
    Lower (Option NodeId) := do
  let name ← node.symbolAt 1
  let args := node.nodesFrom 2
  match node.items with
  | .nil :: _ =>
    match Directive.ofName? name with
    | some which => directive d parent which name args node.span
    | none => some <$> selfCall d parent node name args
  | .node receiver :: _ => receiverSend d parent node receiver name args
  | _ => refuse (.malformed ⟨.send, .receiver, node.span⟩)

-- Dispatch

/-
  Whether a construct makes code and so needs a method around
  it.  Instance variables are refused with more to say.
-/
def isExecutable : Tag → Bool
  | .setLocal | .opAssign | .getLocal | .getCvar | .getGlobal
  | .const | .selfRef | .int | .str | .trueLit | .falseLit
  | .cond | .whileLoop | .untilLoop | .whilePost | .untilPost
  | .breakLoop | .nextLoop | .ret | .conj | .disj | .negation => true
  | _ => false

/- The code of a construct, by its tag. -/
def dispatch (d : Descent) (parent : NodeId) (node : Node) (keep : Bool) :
    Lower (Option NodeId) := do
  if isExecutable node.tag then requireMethodScope parent node
  match node.tag with
  | .begin | .kwbegin => statements d parent keep node.nodes
  | .classDef =>
    classItem d parent node .cls
    return none
  | .moduleDef =>
    classItem d parent node .mixin
    return none
  | .methodDef =>
    methodItem d parent node false
    return none
  | .singletonDef =>
    methodItem d parent node true
    return none
  | .setConst =>
    constItem parent node
    return none
  | .setLocal => assignment d parent .localVar node keep
  | .setIvar => assignment d parent .instanceVar node keep
  | .setCvar => assignment d parent .classVar node keep
  | .setGlobal => assignment d parent .globalVar node keep
  | .opAssign => some <$> operatorAssignment d parent node keep
  | .getLocal | .getIvar | .getCvar | .getGlobal | .const | .selfRef
  | .int | .str | .trueLit | .falseLit => some <$> operand parent node
  | .send => sendNode d parent node
  | .cond => some <$> conditional d parent node keep
  | .whileLoop => some <$> testedLoop d parent node true
  | .untilLoop => some <$> testedLoop d parent node false
  | .whilePost => some <$> postTestedLoop d parent node true
  | .untilPost => some <$> postTestedLoop d parent node false
  | .breakLoop => some <$> branch parent node true
  | .nextLoop => some <$> branch parent node false
  | .ret => some <$> returnStatement d parent node
  | .conj => some <$> logical d parent node true
  | .disj => some <$> logical d parent node false
  | .negation => some <$> negation d parent node
  | .singletonClass => refuse (.unsupported .singletonClass node.span)
  | .float => refuse (.unsupported .floatLiteral node.span)
  | .nilLit => refuse (.unsupported .nilLiteral node.span)
  | .interpolated => refuse (.unsupported .interpolation node.span)
  | .orAssign | .andAssign => refuse (.unsupported .conditionalAssignment node.span)
  | .array => refuse (.unsupported .arrayLiteral node.span)
  | .sym | .hash | .kwargs | .pair => refuse (.unsupported (.outsideDirective node.tag) node.span)
  | .params | .param | .rootScope => refuse (.unsupported (.statementPosition node.tag) node.span)
  | .other word => refuse (.unsupported (.unknownNode word) node.span)

/-
  The code of a node of at most a certain height.  A value that
  is not kept is dropped here and nowhere else.
-/
def lowerNode (unit : SourceUnit → Lower Unit) :
    Nat → NodeId → Node → Bool → Lower (Option NodeId)
  | 0, _, _, _ => refuse (.internal .nodeHeight)
  | fuel + 1, parent, node, keep => do
      match ← dispatch ⟨lowerNode unit fuel, unit⟩ parent node keep with
      | some n => some <$> Build.keepOrDrop n keep
      | none => return none

end RubyWat.Lower
