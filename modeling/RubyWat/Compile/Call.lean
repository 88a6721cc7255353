import RubyWat.Compile.Convert

/-
  Calls, and the check that every call has a target.

  A method may be called before it is defined.  Its parameters are then taken to be what the
  first call passes, and the final check compares every call with the definition.
-/

-- Calls

namespace RubyWat

open Code

/- Where the receiver of a call comes from. -/
inductive Receiver where
  | inNode
  | current
  | null
  | absent
deriving DecidableEq

/- Whether a method is only known from calls so far. -/
def Method.isForward (m : Method) : Bool :=
  !m.flags.implemented && !m.flags.imported && !m.flags.synthesized && m.params.isEmpty

namespace Build

def placeReceiver (n : NodeId) (owner : ClassId) (receiver : Receiver) : Build Unit := do
  match receiver with
  | .current =>
    let this ← createNode (.localGet receiverName) (.ref owner)
    modifyTree (·.prependChild n this)
  | .null =>
    let null ← createNode (.const 0) (.ref owner)
    modifyTree (·.prependChild n null)
  | .inNode | .absent => pure ()

def callArguments (n : NodeId) (m : MethodId) (span : Span) : Build (List NodeId) := do
  let x := (← program).method m
  let children ← childrenOf n
  if x.isInstance then
    match children with
    | [] => throw (.argumentCount ((← program).describeMethod m) x.params.length 0 span)
    | this :: args =>
      let _ ← cast this (.ref x.owner) false span
      return args
  else return children

/- Parameters named by their position. -/
def assumedParams (types : List ValueType) : List Slot :=
  types.mapIdx fun i ty => ⟨"arg" ++ toString i, if ty.isNone then .i32 else ty⟩

/- Take the parameters of an unknown method from a call. -/
def assumeParams (m : MethodId) (args : List NodeId) : Build Unit := do
  let t ← tree
  modifyMethod m fun x => { x with params := x.params ++ assumedParams (args.map t.ty) }

def castArguments (span : Span) : List NodeId → List ValueType → Build Unit
  | arg :: args, ty :: types => do
      let here ← spanOf arg
      let _ ← cast arg ty true (if here.isGenerated then span else here)
      castArguments span args types
  | _, _ => pure ()

/-
  Turn a node whose children are the arguments of a call, and
  its receiver if that is in the node, into the call.
-/
def call (n : NodeId) (m : MethodId) (receiver : Receiver) (span : Span) :
    Build NodeId := do
  placeReceiver n ((← program).method m).owner receiver
  let args ← callArguments n m span
  if ((← program).method m).isForward then assumeParams m args
  let x := (← program).method m
  if args.length ≠ x.params.length then
    throw (.argumentCount ((← program).describeMethod m) x.params.length args.length span)
  castArguments span args (x.params.map (·.ty))
  setNode n (.call m) x.result
  setSpan n span
  return n

end Build

-- Link Check

namespace Context

/- Whether a call passes and takes back what its target says, as far as the machine can tell. -/
def callFits (ctx : Context) (n : NodeId) (m : Method) : Bool :=
  decide ((ctx.tree.children n).map (fun c => (ctx.tree.ty c).held?)
      = m.allParams.map (fun s => s.ty.held?))
    && decide ((ctx.tree.ty n).held? = m.result.held?)

def checkCall (ctx : Context) (n : NodeId) (m : MethodId) : Except Fault Unit :=
  let x := ctx.program.method m
  let name := ctx.program.describeMethod m
  if !x.flags.implemented && !x.flags.imported then
    .error (.undefinedMethod name (ctx.tree.span n) x.span)
  else if ctx.callFits n x then .ok ()
  else .error (.callMismatch name (ctx.tree.span n) x.span)

def checkNode (ctx : Context) (n : NodeId) : Except Fault Unit :=
  match ctx.tree.instr n with
  | .call m => ctx.checkCall n m
  | _ => .ok ()

/-
  Check the node on top of a stack, put its children on the stack, the last one first, and go
  on until the stack is empty.
-/
def checkFrom (ctx : Context) : Nat → List NodeId → Except Fault Unit
  | 0, _ => .ok ()
  | _, [] => .ok ()
  | fuel + 1, n :: stack => do
    ctx.checkNode n
    checkFrom ctx fuel ((ctx.tree.children n).reverse.foldl (fun stack c => c :: stack) stack)

/- Check all calls that the root reaches, each of the nodes at most once. -/
def linkCheck (ctx : Context) : Except Fault Unit :=
  ctx.checkFrom ctx.tree.size [Tree.root]

end Context

end RubyWat
