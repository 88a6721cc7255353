import RubyWat.Machine.Eval

/- Starting programs and calling their methods. -/

-- Start

namespace RubyWat

namespace Machine

variable {σ : Type}

def initialGlobals : List Global → Except Trap Slots
  | [] => return []
  | g :: gs =>
    match g.ty.held? with
    | none => initialGlobals gs
    | some ty => do
        let v ← Value.ofType ty g.init
        return (g.name, v) :: (← initialGlobals gs)

/- Memory and globals as a program finds them. -/
def start (ctx : Context) (world : σ) : Except Trap (Store σ) := do
  let globals ← initialGlobals ctx.program.globals.toList
  let memory := Memory.ofData (ctx.memoryPages * pageSize) ctx.program.data
  return { memory, globals, world }

end Machine

-- Entry Points

namespace Machine

/- A text before and after the last occurrence of a character. -/
def splitLast? (c : Char) (s : String) : Option (String × String) :=
  let back := s.toList.reverse
  match back.dropWhile (· ≠ c) with
  | [] => none
  | _ :: front => some (String.ofList front.reverse, String.ofList (back.takeWhile (· ≠ c)).reverse)

/-
  The method that an entry point names: `Class#method` on
  instances, `Class.method` on the class.
-/
def resolveEntry? (p : Program) (entry : String) : Option MethodId :=
  match splitLast? '#' entry, splitLast? '.' entry with
  | some (path, name), _ => do
      let c ← p.findClass? path
      p.instanceMethod? c name
  | none, some (path, name) => do
      let c ← p.findClass? path
      let (m, _) ← p.classMethod? c name
      return m
  | none, none => none

def resolveEntry (p : Program) (entry : String) : Except Trap MethodId :=
  match resolveEntry? p entry with
  | some m => .ok m
  | none => .error ⟨.noEntry entry, none⟩

def entryArguments : List Slot → List Int64 → Except Trap (List Value)
  | p :: ps, raw :: raws => do
      let v ← Value.ofType p.ty.held raw
      return v :: (← entryArguments ps raws)
  | _, _ => return []

-- Calls

variable {σ : Type}

/- How a call from outside ends. -/
inductive Outcome where
  | value (v : Option Value)
  | trap (t : Trap)
  | outOfFuel
deriving DecidableEq

/- What a call from outside makes of the way it ended. -/
def Outcome.ofResult : EStateM.Result Exit (State σ) (Option Value) → Outcome × Store σ
  | .ok v s => (.value v, s.store)
  | .error (.trap t) s => (.trap t, s.store)
  | .error (.ret v) s => (.value v, s.store)
  | .error (.branch _) s => (.trap ⟨.notEvaluable .foreignBranch, none⟩, s.store)
  | .error .outOfFuel s => (.outOfFuel, s.store)

def callWithFuel (fuel : Nat) (h : Host σ) (m : MethodId) (args : List Value) (store : Store σ) :
    Outcome × Store σ :=
  Outcome.ofResult (callMethod h (eval h fuel 1) 0 m args ⟨[], store⟩)

/- The fuel of a call: more than any computer can burn. -/
def fullTank : Nat :=
  0x1000000000000000

def call (h : Host σ) (m : MethodId) (args : List Value) (store : Store σ) : Outcome × Store σ :=
  callWithFuel fullTank h m args store

/- Find a method and make numbers into its arguments. -/
def prepare (p : Program) (entry : String) (args : List Int64) :
    Except Trap (MethodId × List Value) := do
  let m ← resolveEntry p entry
  let params := (p.method m).allParams
  if params.length ≠ args.length then throw ⟨.argumentCount entry params.length args.length, none⟩
  return (m, ← entryArguments params args)

def invoke (h : Host σ) (entry : String) (args : List Int64) (store : Store σ) :
    Outcome × Store σ :=
  match prepare h.ctx.program entry args with
  | .error t => (.trap t, store)
  | .ok (m, values) => call h m values store

end Machine

end RubyWat
