import RubyWat.Lower.Call

/- Conditionals, loops, branches and logical operators. -/

-- Conditionals

namespace RubyWat.Lower

open Code (NodeId)

def optional (d : Descent) (parent : NodeId) (node : Option Dump.Node) (keep : Bool) :
    Lower Unit := do
  match node with
  | some node => let _ ← d.node parent node keep
  | none => pure ()

/- A conditional, of which either arm may be missing. -/
def conditional (d : Descent) (parent : NodeId) (node : Dump.Node) (keep : Bool) :
    Lower NodeId := do
  let test ← node.nodeAt 0
  let branch ← Build.addNodeAt parent .cond .none node.span
  let test ← value d branch test
  let _ ← Build.condition test
  let thenArm ← Build.addNode branch .thenArm .none
  optional d thenArm (node.node? 1) keep
  match node.node? 2 with
  | some body =>
    let elseArm ← Build.addNode branch .elseArm .none
    let _ ← d.node elseArm body keep
  | none => pure ()
  Build.finishIf branch keep node.span

-- Loops

def testedLoop (d : Descent) (parent : NodeId) (node : Dump.Node) (isWhile : Bool) :
    Lower NodeId := do
  let (block, body) ← Build.loopShell parent node.span
  let exit ← Build.addNode body (.brIf block) .none
  let _ ← value d exit (← node.nodeAt 0)
  Build.branchIf exit isWhile
  optional d body (node.node? 1) false
  let _ ← Build.loopBack body
  return block

def postTestedLoop (d : Descent) (parent : NodeId) (node : Dump.Node) (isWhile : Bool) :
    Lower NodeId := do
  let (block, body) ← Build.loopShell parent node.span
  let _ ← d.node body (← node.nodeAt 1) false
  let again ← Build.addNode body (.brIf body) .none
  let _ ← value d again (← node.nodeAt 0)
  Build.branchIf again !isWhile
  return block

/- A branch out of a loop or to its start. -/
def branch (parent : NodeId) (node : Dump.Node) (isBreak : Bool) : Lower NodeId := do
  if !node.nodes.isEmpty then refuse (.unsupported (.branchValue node.tag) node.span)
  if isBreak then Build.breakLoop parent node.span
  else Build.nextLoop parent node.span

-- Results And Logic

def returnStatement (d : Descent) (parent : NodeId) (node : Dump.Node) :
    Lower NodeId := do
  let ret ← placeholder parent node.span
  match node.nodes with
  | [] => pure ()
  | [result] => let _ ← value d ret result
  | _ => refuse (.unsupported .severalResults node.span)
  Build.returnValue ret node.span

def logical (d : Descent) (parent : NodeId) (node : Dump.Node) (isAnd : Bool) :
    Lower NodeId := do
  let branch ← Build.addNode parent .cond .none
  let _ ← value d branch (← node.nodeAt 0)
  let _ ← value d branch (← node.nodeAt 1)
  Build.shortCircuit branch isAnd node.span

def negation (d : Descent) (parent : NodeId) (node : Dump.Node) : Lower NodeId := do
  let apply ← placeholder parent node.span
  let _ ← value d apply (← node.nodeAt 0)
  applyMethod apply "!" node.span

end RubyWat.Lower
