import RubyWat.Machine.Memory
import RubyWat.Wat.Module

/-
  Evaluation of compiled programs.

  An instruction evaluates its children from left to right and takes their values as its
  operands.  A branch unwinds to the block or the loop that it names, a return to the function.
  What was written to memory and to globals stays when an evaluation traps.
-/

-- Programs And State

namespace RubyWat.Machine

open Code Wasm

/- What a function of the host does with its arguments, the memory and the world outside. -/
structure HostReply (σ : Type) where
  result : Except String (Option Value)
  memory : Memory
  world : σ

structure HostFunction (σ : Type) where
  moduleName : String
  function : String
  run : List Value → Memory → σ → HostReply σ

/-
  A compiled program with its host.  Of two functions of the
  host with one name, the later counts.
-/
structure Host (σ : Type) where
  ctx : Context
  functions : List (HostFunction σ) := []
  maxDepth : Nat := 10000

/- What outlives a call. -/
structure Store (σ : Type) where
  memory : Memory
  globals : Slots
  world : σ

/- The variables of a call, and what outlives it. -/
structure State (σ : Type) where
  frame : Slots
  store : Store σ

/- How an evaluation ends early. -/
inductive Exit where
  | branch (target : NodeId)
  | ret (v : Option Value)
  | trap (t : Trap)
  | outOfFuel

/- A step of an evaluation. -/
abbrev Exec (σ : Type) :=
  EStateM Exit (State σ)

def Host.find? {σ : Type} (h : Host σ) (moduleName function : String) : Option (HostFunction σ) :=
  h.functions.reverse.find? fun f => f.moduleName == moduleName && f.function == function

-- Steps

namespace Exec

variable {σ : Type}

def stop {α : Type} (what : Obstacle) : Exec σ α :=
  throw (.trap ⟨.notEvaluable what, none⟩)

@[inline]
def settle {α : Type} (result : Except Trap α) : Exec σ α :=
  match result with
  | .ok a => pure a
  | .error t => throw (.trap t)

def getLocal (name : String) : Exec σ Value := do
  match (← get).frame.lookup name with
  | some v => return v
  | none => stop (.localRead name)

def setLocal (name : String) (v : Value) : Exec σ Unit := do
  match (← get).frame.assign? name v with
  | some frame => modify fun s => { s with frame }
  | none => stop (.localWrite name)

def getGlobal (name : String) : Exec σ Value := do
  match (← get).store.globals.lookup name with
  | some v => return v
  | none => stop (.globalRead name)

def setGlobal (name : String) (v : Value) : Exec σ Unit := do
  match (← get).store.globals.assign? name v with
  | some globals => modify fun s => { s with store := { s.store with globals } }
  | none => stop (.globalWrite name)

/- The number of addresses: they have 64 bits. -/
def addressSpace : Nat :=
  0x10000000000000000

/- The address that a base and an offset make. -/
def effectiveAddress (ctx : Context) (base : Value) (offset : Offset) : Nat :=
  (base.address + Wat.offsetValue ctx.program offset) % addressSpace

def load (ty : MachineType) (address : Nat) : Exec σ Value := do
  settle ((← get).store.memory.load ty address)

def store (ty : MachineType) (address : Nat) (v : Value) : Exec σ Unit := do
  match (← get).store.memory.storeFault? ty address with
  | some t => throw (.trap t)
  | none =>
    modify fun
      | ⟨frame, ⟨memory, globals, world⟩⟩ => ⟨frame, ⟨memory.put ty address v, globals, world⟩⟩

end Exec

namespace Value

def binary (op : BinaryOp) (a b : Value) : Except Trap Value :=
  match op.apply a.type a.toInt64 b.toInt64 with
  | some raw => ofType a.type raw
  | none => .error ⟨.divisionByZero, none⟩

def unary (op : UnaryOp) (a : Value) : Except Trap Value :=
  match op.apply a.type a.toInt64 with
  | some raw => ofType (op.resultType a.type) raw
  | none => .error ⟨.notEvaluable .floatOperator, none⟩

def compare (op : Relation) (a b : Value) : Value :=
  ofBool (op.holds a.toInt64 b.toInt64)

end Value

-- Operands

variable {σ : Type}

/- Evaluate nodes in order, and give the value of the last. -/
@[specialize]
def sequenceFrom (eval : NodeId → Exec σ (Option Value)) :
    Option Value → List NodeId → Exec σ (Option Value)
  | last, [] => return last
  | _, n :: ns => do
      let v ← eval n
      sequenceFrom eval v ns

@[inline]
def sequence (ctx : Context) (eval : NodeId → Exec σ (Option Value)) (n : NodeId) :
    Exec σ (Option Value) :=
  sequenceFrom eval none (ctx.tree.children n)

/- The values that nodes leave behind, in order. -/
@[specialize]
def operandsOf (eval : NodeId → Exec σ (Option Value)) : List NodeId → Exec σ (List Value)
  | [] => return []
  | n :: ns => do
      let v ← eval n
      let vs ← operandsOf eval ns
      return v.toList ++ vs

@[inline]
def operands (ctx : Context) (eval : NodeId → Exec σ (Option Value)) (n : NodeId) :
    Exec σ (List Value) :=
  operandsOf eval (ctx.tree.children n)

@[inline]
def operand (ctx : Context) (eval : NodeId → Exec σ (Option Value)) (n : NodeId) :
    Exec σ Value := do
  match ← operands ctx eval n with
  | [a] => return a
  | _ => Exec.stop .unaryOperand

@[inline]
def operandPair (ctx : Context) (eval : NodeId → Exec σ (Option Value)) (n : NodeId) :
    Exec σ (Value × Value) := do
  match ← operands ctx eval n with
  | [a, b] => return (a, b)
  | _ => Exec.stop .binaryOperands

-- Calls

/- Bind parameters to arguments, as far as both go. -/
def bindParams : Slots → List Slot → List Value → Except Trap Slots
  | frame, p :: ps, v :: vs => do
      let v ←
        match p.ty.held? with
        | some ty => Value.ofType ty v.toInt64
        | none => pure v
      bindParams (frame.insert p.name v) ps vs
  | frame, _, _ => return frame

/- Add local variables, which start as zero. -/
def bindLocals : Slots → List Slot → Except Trap Slots
  | frame, [] => return frame
  | frame, s :: ss =>
    match s.ty.held? with
    | some ty => do
        let zero ← Value.ofType ty 0
        bindLocals (frame.insertNew s.name zero) ss
    | none => bindLocals frame ss

def initialFrame (m : Method) (args : List Value) : Except Trap Slots := do
  bindLocals (← bindParams [] m.allParams args) m.locals

/- The result of a method from what its body left behind. -/
def resultOf (m : Method) (name : String) (v : Option Value) : Except Trap (Option Value) :=
  match m.result.held?, v with
  | none, _ => .ok none
  | some ty, some v => (Value.ofType ty v.toInt64).map some
  | some _, none => .error ⟨.notEvaluable .missingResult, some name⟩

def callHost (h : Host σ) (m : Method) (name : String) (args : List Value) :
    Exec σ (Option Value) := do
  match m.binding with
  | none => throw (.trap ⟨.missingHost name "", none⟩)
  | some (moduleName, function) =>
    match h.find? moduleName function with
    | none => throw (.trap ⟨.missingHost moduleName function, none⟩)
    | some f =>
      let s ← get
      let reply := f.run args s.store.memory s.store.world
      set { s with
        store :=
          { s.store with
            memory := reply.memory
            world := reply.world } }
      match reply.result with
      | .ok v => return v
      | .error message => throw (.trap ⟨.hostFailure moduleName function message, none⟩)

/- What a call makes of the way its body ended. -/
def leave (m : Method) (name : String) (frame : Slots) :
    EStateM.Result Exit (State σ) (Option Value) → EStateM.Result Exit (State σ) (Option Value)
  | .ok v s =>
    match resultOf m name v with
    | .ok v => .ok v { s with frame }
    | .error t => .error (.trap t) { s with frame }
  | .error (.ret v) s =>
    match resultOf m name v with
    | .ok v => .ok v { s with frame }
    | .error t => .error (.trap t) { s with frame }
  | .error (.trap t) s => .error (.trap (t.inFunction name)) { s with frame }
  | .error (.branch _) s =>
    .error (.trap ⟨.notEvaluable .foreignBranch, some name⟩) { s with frame }
  | .error .outOfFuel s => .error .outOfFuel { s with frame }

/- Call a method.  The way into its body is given, and so is the number of calls around this one. -/
@[specialize]
def callMethod (h : Host σ) (eval : NodeId → Exec σ (Option Value))
    (depth : Nat) (id : MethodId) (args : List Value) : Exec σ (Option Value) := fun s =>
  let m := h.ctx.program.method id
  let name := h.ctx.program.methodName id
  if m.flags.imported then callHost h m name args s
  else
    match m.body with
    | none => .error (.trap ⟨.notEvaluable (.missingBody name), some name⟩) s
    | some body =>
      if h.maxDepth ≤ depth then .error (.trap ⟨.callDepth h.maxDepth, some name⟩) s
      else
        match initialFrame m args with
        | .error t => .error (.trap t) s
        | .ok frame =>
          let ⟨caller, store⟩ := s
          leave m name caller (sequence h.ctx eval body ⟨frame, store⟩)

-- Control

/- Leave a block when a branch names it. -/
@[inline]
def asBlock (n : NodeId) (body : Exec σ (Option Value)) : Exec σ (Option Value) := fun s =>
  match body s with
  | .error (.branch target) s => if target = n then .ok none s else .error (.branch target) s
  | result => result

/- Repeat a loop as long as branches name it. -/
@[specialize]
def asLoop (n : NodeId) (body : Exec σ (Option Value)) : Nat → Exec σ (Option Value)
  | 0 => throw .outOfFuel
  | fuel + 1 => fun s =>
    match body s with
    | .error (.branch target) s =>
      if target = n then asLoop n body fuel s
      else .error (.branch target) s
    | result => result

/- Evaluate the arm of a conditional that its condition picks. -/
@[inline]
def evalCond (ctx : Context) (eval : NodeId → Exec σ (Option Value)) (n : NodeId) :
    Exec σ (Option Value) := do
  match ctx.tree.children n with
  | [] => Exec.stop .missingCondition
  | test :: arms =>
    match ← eval test with
    | none => Exec.stop .missingOperand
    | some v =>
      match if v.isTrue then arms[0]? else arms[1]? with
      | some arm => sequence ctx eval arm
      | none => return none

-- Evaluation

/-
  Evaluate a node.  The way into its children and into calls is
  given, and so is a bound on the repetitions of a loop.
-/
@[specialize]
def evalNode (ctx : Context) (eval : NodeId → Exec σ (Option Value))
    (call : MethodId → List Value → Exec σ (Option Value)) (fuel : Nat) (n : NodeId) :
    Exec σ (Option Value) := do
  let ty := (ctx.tree.ty n).held
  match ctx.tree.instr n with
  | .root | .classBody _ | .function _ => Exec.stop .definition
  | .thenArm | .elseArm | .nop => sequence ctx eval n
  | .call m => do
      let args ← operands ctx eval n
      call m args
  | .ret => do
      let v ← sequence ctx eval n
      throw (.ret v)
  | .const value => some <$> Exec.settle (Value.ofType ty value)
  | .layout l => return some (Value.narrow (Int64.ofNat (ctx.program.layoutValue l)))
  | .localGet name => some <$> Exec.getLocal name
  | .localSet name => do
      let v ← operand ctx eval n
      Exec.setLocal name v
      return none
  | .localTee name => do
      let v ← operand ctx eval n
      Exec.setLocal name v
      some <$> Exec.getLocal name
  | .globalGet name => some <$> Exec.getGlobal name
  | .globalSet name => do
      let v ← operand ctx eval n
      Exec.setGlobal name v
      return none
  | .load offset => do
      let base ← operand ctx eval n
      some <$> Exec.load ty (Exec.effectiveAddress ctx base offset)
  | .store stored offset => do
      let (base, v) ← operandPair ctx eval n
      Exec.store stored (Exec.effectiveAddress ctx base offset) v
      return none
  | .binary op => do
      let (a, b) ← operandPair ctx eval n
      some <$> Exec.settle (Value.binary op a b)
  | .unary op => do
      let a ← operand ctx eval n
      some <$> Exec.settle (Value.unary op a)
  | .compare op _ => do
      let (a, b) ← operandPair ctx eval n
      return some (Value.compare op a b)
  | .extend signed => do
      let a ← operand ctx eval n
      return some (a.extend signed)
  | .wrap => do
      let a ← operand ctx eval n
      return some (Value.narrow a.toInt64)
  | .cond => evalCond ctx eval n
  | .block => asBlock n (sequence ctx eval n)
  | .loop => asLoop n (sequence ctx eval n) fuel
  | .br target => throw (.branch target)
  | .brIf target => do
      let v ← operand ctx eval n
      if v.isTrue then throw (.branch target)
      return none
  | .drop => do
      let _ ← sequence ctx eval n
      return none
  | .inline _ => Exec.stop .rawText
  | .comment _ => return none

/-
  Evaluate a node inside of a number of calls.  Fuel bounds how deeply nodes are nested, calls
  included, and how often a loop repeats.
-/
def eval (h : Host σ) : Nat → Nat → NodeId → Exec σ (Option Value)
  | 0, _, _ => throw .outOfFuel
  | fuel + 1, depth, n =>
    evalNode h.ctx (eval h fuel depth) (callMethod h (eval h fuel (depth + 1)) depth) fuel n

end RubyWat.Machine
