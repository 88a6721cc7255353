import RubyWat.Compile.Call

/-
  Well-typed code.

  Key definitions: `Listed`, `Context.Fits`, `Context.Typed`, `Context.BodyFits`,
    `Context.WellTyped`.

  A node fits when its children leave the operands that its instruction takes and it leaves what
  its type says.  Code is typed when all of its nodes fit.  Types are compared as the machine
  sees them: a reference counts as an address.
-/

-- Declarations

namespace RubyWat

open Code Wasm

/-
  A name is declared with a machine type if some slot has the
  name and all slots with the name are held in that type.
-/
def Listed (slots : List Slot) (name : String) (ty : MachineType) : Prop :=
  (∃ s ∈ slots, s.name = name) ∧ ∀ s ∈ slots, s.name = name → s.ty.held? = some ty

/- The parameters and the local variables of a method. -/
def Method.slots (m : Method) : List Slot :=
  m.allParams ++ m.locals

/- A global variable as a slot. -/
def Global.slot (g : Global) : Slot :=
  ⟨g.name, g.ty⟩

/- The global variables of a program as slots. -/
def Program.globalSlots (p : Program) : List Slot :=
  p.globals.toList.map Global.slot

-- Sequences

namespace Context

/- The machine types that the children of a node leave. -/
def operandTypes (ctx : Context) (n : NodeId) : List MachineType :=
  (ctx.tree.children n).filterMap fun c => (ctx.tree.ty c).held?

/- A sequence leaves the value of its last node, and no node before that leaves anything. -/
def Leaves (ctx : Context) (result : Option MachineType) : List NodeId → Prop
  | [] => result = none
  | [n] => (ctx.tree.ty n).held? = result
  | n :: ns => (ctx.tree.ty n).held? = none ∧ Leaves ctx result ns

/- A sequence leaves a value, or ends in a branch or a return. -/
def Ends (ctx : Context) (result : Option MachineType) (ns : List NodeId) : Prop :=
  ctx.Leaves result ns ∨ ctx.Leaves none ns
      ∧ ns.getLast?.any fun n => (ctx.tree.instr n).isTerminator

-- Nodes

/- An arm of a conditional, with what it leaves. -/
def ArmFits (ctx : Context) (instr : Instr) (result : Option MachineType) (arm : NodeId) : Prop :=
  ctx.tree.instr arm = instr ∧ ctx.tree.ty arm = .none ∧ ctx.Ends result (ctx.tree.children arm)

/-
  The condition and the arms of a conditional.  Only one that
  leaves nothing may lack its second arm.
-/
def CondFits (ctx : Context) (result : Option MachineType) : List NodeId → Prop
  | [test, thenArm] =>
    (ctx.tree.ty test).held? = some .i32 ∧ result = none ∧ ctx.ArmFits .thenArm result thenArm
  | [test, thenArm, elseArm] =>
    (ctx.tree.ty test).held? = some .i32 ∧ ctx.ArmFits .thenArm result thenArm
      ∧ ctx.ArmFits .elseArm result elseArm
  | _ => False

/-
  Whether a node of a method takes the operands that its children leave and leaves what its type
  says.  The targets are the blocks and the loops that a branch may name.
-/
def Fits (ctx : Context) (m : Method) (targets : List NodeId) (n : NodeId) : Prop :=
  let children := ctx.tree.children n
  let operands := ctx.operandTypes n
  let result := (ctx.tree.ty n).held?
  match ctx.tree.instr n with
  | .root | .classBody _ | .function _ => False
  | .thenArm | .elseArm | .inline _ => False
  | .call id => ctx.checkCall n id = .ok () ∧ operands.length = (ctx.program.method id).arity
  | .ret => result = none ∧ ctx.Leaves m.result.held? children
  | .const _ => children = [] ∧ ∃ ty, result = some ty ∧ ty.isFloat = false
  | .layout _ => children = [] ∧ result = some .i32
  | .localGet name => children = [] ∧ ∃ ty, result = some ty ∧ Listed m.slots name ty
  | .localSet name => result = none ∧ ∃ ty, operands = [ty] ∧ Listed m.slots name ty
  | .localTee name => ∃ ty, result = some ty ∧ operands = [ty] ∧ Listed m.slots name ty
  | .globalGet name =>
    children = [] ∧ ∃ ty, result = some ty ∧ Listed ctx.program.globalSlots name ty
  | .globalSet name =>
    result = none ∧ ∃ ty, operands = [ty] ∧ Listed ctx.program.globalSlots name ty
  | .load _ => operands = [.i32] ∧ ∃ ty, result = some ty ∧ ty.isFloat = false
  | .store ty _ => operands = [.i32, ty] ∧ ty.isFloat = false ∧ result = none
  | .binary _ => ∃ ty, operands = [ty, ty] ∧ result = some ty
  | .unary op => ∃ ty, operands = [ty] ∧ result = some (op.resultType ty)
  | .compare _ ty => operands = [ty, ty] ∧ result = some .i32
  | .extend _ => operands = [.i32] ∧ result = some .i64
  | .wrap => operands = [.i64] ∧ result = some .i32
  | .cond => ctx.CondFits result children
  | .block | .loop => ctx.Ends result children
  | .br target => children = [] ∧ result = none ∧ target ∈ targets
  | .brIf target => operands = [.i32] ∧ result = none ∧ target ∈ targets
  | .drop => result = none ∧ ∃ c, children = [c] ∧ (ctx.tree.ty c).held?.isSome
  | .nop | .comment _ => children = [] ∧ result = none

-- Code

/- The nodes that a node evaluates itself.  A conditional goes into the nodes of its arms. -/
def parts (ctx : Context) (n : NodeId) : List NodeId :=
  match ctx.tree.instr n, ctx.tree.children n with
  | .cond, test :: arms => test :: arms.flatMap ctx.tree.children
  | _, children => children

/-
  The branch targets inside of a node.  A branch to a block
  carries no value, so a block that leaves one is no target.
-/
def targetsIn (ctx : Context) (n : NodeId) (targets : List NodeId) : List NodeId :=
  match ctx.tree.instr n with
  | .loop => n :: targets
  | .block =>
    if (ctx.tree.ty n).held? = none then n :: targets
    else targets.filter (· ≠ n)
  | _ => targets

/- A node all of whose parts fit. -/
inductive Typed (ctx : Context) (m : Method) : List NodeId → NodeId → Prop where
  | node {targets : List NodeId} {n : NodeId} (hFits : ctx.Fits m targets n)
      (hParts : ∀ c ∈ ctx.parts n, Typed ctx m (ctx.targetsIn n targets) c) : Typed ctx m targets n

/- The body of a method that leaves its result. -/
def BodyFits (ctx : Context) (m : Method) (body : NodeId) : Prop :=
  ctx.Ends m.result.held? (ctx.tree.children body) ∧ ∀ n ∈ ctx.tree.children body, ctx.Typed m [] n

/- Whether a type is a floating-point type. -/
def FloatFree (ty : ValueType) : Prop :=
  ty.isFloat = false

/-
  A context in which every method that is not the host's has a
  body that fits, and in which there are no floats.
-/
structure WellTyped (ctx : Context) : Prop where
  bodies : ∀ id, (ctx.program.method id).flags.implemented →
      (ctx.program.method id).flags.imported = false →
        ∃ body, (ctx.program.method id).body = some body ∧ ctx.BodyFits (ctx.program.method id) body
  slots : ∀ id, ∀ s ∈ (ctx.program.method id).slots, FloatFree s.ty
  results : ∀ id, FloatFree (ctx.program.method id).result
  globals : ∀ s ∈ ctx.program.globalSlots, FloatFree s.ty

end Context

end RubyWat
