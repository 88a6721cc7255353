import RubyWat.Code.Instr
import RubyWat.Source.Span

/-
  Code trees with addressable nodes.

  Nodes are never removed: a node that is taken off its parent only stops being reachable from
  the root.  A node knows its parent and its children, and the edits below change both sides of
  a link together.
-/

-- Nodes

namespace RubyWat.Code

/- A node of a code tree.  Blocks and loops have a label. -/
structure TreeNode where
  instr : Instr
  ty : ValueType
  span : Span := .generated
  parent : Option NodeId := none
  children : List NodeId := []
  label : Option Nat := none
deriving Inhabited

/- All nodes in order of creation, and the next free label. -/
structure Tree where
  nodes : Array TreeNode
  nextLabel : Nat

namespace Tree

/- The node that everything reachable hangs from. -/
def root : NodeId :=
  ⟨0⟩

def empty : Tree :=
  { nodes := #[{ instr := .root, ty := .none }], nextLabel := 0 }

instance : Inhabited Tree :=
  ⟨empty⟩

def size (t : Tree) : Nat :=
  t.nodes.size

def node (t : Tree) (n : NodeId) : TreeNode :=
  t.nodes.getD n.index { instr := .nop, ty := .none }

def instr (t : Tree) (n : NodeId) : Instr :=
  (t.node n).instr

/- The type of what a node leaves behind. -/
def ty (t : Tree) (n : NodeId) : ValueType :=
  (t.node n).ty

def span (t : Tree) (n : NodeId) : Span :=
  (t.node n).span

def parent? (t : Tree) (n : NodeId) : Option NodeId :=
  (t.node n).parent

def children (t : Tree) (n : NodeId) : List NodeId :=
  (t.node n).children

def firstChild? (t : Tree) (n : NodeId) : Option NodeId :=
  (t.children n).head?

def lastChild? (t : Tree) (n : NodeId) : Option NodeId :=
  (t.children n).getLast?

def label? (t : Tree) (n : NodeId) : Option Nat :=
  (t.node n).label

def isEmpty (t : Tree) : Bool :=
  t.size == 1 && (t.children root).isEmpty

end Tree

namespace Tree

def modify (t : Tree) (n : NodeId) (f : TreeNode → TreeNode) : Tree :=
  { t with nodes := t.nodes.modify n.index f }

def setInstr (t : Tree) (n : NodeId) (instr : Instr) : Tree :=
  t.modify n fun x => { x with instr }

def setTy (t : Tree) (n : NodeId) (ty : ValueType) : Tree :=
  t.modify n fun x => { x with ty }

def setSpan (t : Tree) (n : NodeId) (span : Span) : Tree :=
  t.modify n fun x => { x with span }

/- Give a node other children, without telling them. -/
def setChildren (t : Tree) (n : NodeId) (children : List NodeId) : Tree :=
  t.modify n fun x => { x with children }

/- Give a node another parent, without telling it. -/
def setParent (t : Tree) (n : NodeId) (parent : Option NodeId) : Tree :=
  t.modify n fun x => { x with parent }

-- Structural Edits

/-
  A new node without parent and children.  A block or a loop
  draws a label that no other node has.
-/
def create (t : Tree) (instr : Instr) (ty : ValueType) : NodeId × Tree :=
  let label := if instr.takesLabel then some t.nextLabel else none
  (⟨t.size⟩,
    { nodes := t.nodes.push { instr, ty, label }
      nextLabel := t.nextLabel + (if instr.takesLabel then 1 else 0) })

/- Hang a node without parent below another as its last child. -/
def attachLast (t : Tree) (parent n : NodeId) : Tree :=
  (t.setParent n (some parent)).setChildren parent (t.children parent ++ [n])

def detach (t : Tree) (n : NodeId) : Tree :=
  match t.parent? n with
  | none => t
  | some parent => (t.setParent n none).setChildren parent ((t.children parent).filter (· ≠ n))

def add (t : Tree) (parent : NodeId) (instr : Instr) (ty : ValueType) : NodeId × Tree :=
  let (n, t) := t.create instr ty
  (n, t.attachLast parent n)

def reparent (t : Tree) (n parent : NodeId) : Tree :=
  if t.parent? n = some parent then t
  else (t.detach n).attachLast parent n

def prependChild (t : Tree) (parent n : NodeId) : Tree :=
  let t := t.detach n
  (t.setParent n (some parent)).setChildren parent (n :: t.children parent)

def clearChildren (t : Tree) (n : NodeId) : Tree :=
  (t.children n).foldl (fun t c => t.setParent c none) (t.setChildren n [])

def replaceFirst (old new : NodeId) : List NodeId → List NodeId
  | [] => []
  | n :: ns => if n = old then new :: ns else n :: replaceFirst old new ns

/- A new node in the place of another, which becomes its only child. -/
def insertAbove (t : Tree) (n : NodeId) (instr : Instr) (ty : ValueType) : NodeId × Tree :=
  let parent := t.parent? n
  let (above, t') := t.create instr ty
  let t' := t'.setSpan above (t.span n)
  let t' :=
    match parent with
    | none => t'
    | some p => (t'.setChildren p (replaceFirst n above (t.children p))).setParent above (some p)
  (above, (t'.setParent n (some above)).setChildren above [n])

-- Views

/- At most `fuel` nodes on the way up from a node. -/
def upward (t : Tree) : Nat → Option NodeId → List NodeId
  | 0, _ => []
  | _, none => []
  | fuel + 1, some n => n :: upward t fuel (t.parent? n)

/- The strict ancestors of a node, nearest first.  There are fewer than nodes. -/
def ancestors (t : Tree) (n : NodeId) : List NodeId :=
  t.upward t.size (t.parent? n)

/- A node and its ancestors, nearest first. -/
def lineage (t : Tree) (n : NodeId) : List NodeId :=
  n :: t.ancestors n

def isWithin (t : Tree) (n ancestor : NodeId) : Bool :=
  (t.lineage n).contains ancestor

/- The nodes below a node to a certain depth, parents first. -/
def downward (t : Tree) : Nat → NodeId → List NodeId
  | 0, _ => []
  | fuel + 1, n => n :: (t.children n).flatMap (downward t fuel)

/- A node and everything below it, parents first and children in order. -/
def preorder (t : Tree) (n : NodeId) : List NodeId :=
  t.downward t.size n

/- The nodes that a stack of nodes leads to, counted one by one from its top. -/
def countFrom (t : Tree) : Nat → List NodeId → Nat
  | 0, _ => 0
  | _, [] => 0
  | fuel + 1, n :: stack => countFrom t fuel ((t.children n).reverse ++ stack) + 1

/- The number of nodes at and below a node. -/
def subtreeLen (t : Tree) (n : NodeId) : Nat :=
  t.countFrom t.size [n]

def listingLine (t : Tree) (depth : Nat) (n : NodeId) : String :=
  String.ofList (List.replicate (2 * depth) ' ')
    ++ n.listing ++ " " ++ (t.instr n).listing ++ " : "
    ++ (t.ty n).text ++ " @" ++ (t.span n).text

def listingLines (t : Tree) : Nat → Nat → NodeId → List String
  | 0, _, _ => []
  | fuel + 1, depth, n =>
    t.listingLine depth n :: (t.children n).flatMap (listingLines t fuel (depth + 1))

/- The whole tree, one node a line, indented by depth. -/
def listing (t : Tree) : String :=
  String.join ((t.listingLines t.size 0 root).map (· ++ "\n"))

end Tree

end RubyWat.Code
