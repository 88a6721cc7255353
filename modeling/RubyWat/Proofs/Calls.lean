import RubyWat.Proofs.ClosedModule
import RubyWat.Proofs.Computation

/-
  Calls.

  A call evaluates its arguments from left to right and runs the
  code of its target in a frame of its own.

  Main statements: `Machine.behaviour_call`,
  `Machine.behaviourOfCall_iff`, `Lower.bare_calls_agree`.
-/

-- Provided Code

namespace RubyWat

open Code Dump List

/- The code of a method that the compiler provides, in the end. -/
theorem Settled.provided {ctx : Context} (hRooted : Rooted ctx)
    (hOffers : Build.Offers ctx.program c name scope m) (hCode : (ctx.program.method m).HasCode) :
    (ctx.program.method m).flags.imported = false
      ∧ ∃ f, (ctx.program.method m).body = some f.id ∧ Held ctx.tree f
        ∧ Translation.Provides c name scope f.children := by
  have hOrder := hRooted.inOrder m
  rcases hRooted.regular.indexed.own hOffers.own with ⟨_, hOwner, hName, hScope⟩
  have hImported : (ctx.program.method m).flags.imported = false := by
    by_contra hIs
    have hFree := (hOrder.apart (by simpa using hIs)).2
    rw [hOffers.synthesized] at hFree
    cases hFree
  refine ⟨hImported, ?_⟩
  have hImplemented := hCode.resolve_right (by simp [hImported])
  rcases Option.ne_none_iff_exists'.mp (hOrder.complete (by simp) hImplemented) with ⟨n, hBody⟩
  rcases hOrder.code n hBody with ⟨f, rfl, hDefined, _, hProvides⟩
  refine ⟨f, hBody, hDefined.held, ?_⟩
  rw [← hOwner, ← hName, ← hScope]
  exact hProvides hOffers.synthesized

-- Arguments

namespace Machine

variable {σ : Type} {h : Host σ} {depth : Nat} {m : MethodId} {ty : ValueType} {n : NodeId}

/- The values that nodes leave, from left to right. -/
def argumentsOf (h : Host σ) (depth : Nat) : List NodeId → Behaviour Exit (State σ) (List Value)
  | [] => pure []
  | n :: ns => do
    let v ← behaviour h depth n
    let vs ← argumentsOf h depth ns
    return v.toList ++ vs

/- What a call of a method ends in. -/
def behaviourOfCall (h : Host σ) (depth : Nat) (m : MethodId) (args : List Value) :
    Behaviour Exit (State σ) (Option Value) :=
  ends .outOfFuel fun fuel => callMethod h (eval h fuel (depth + 1)) depth m args

theorem call_grows (m : MethodId) (args : List Value) :
    Grows .outOfFuel fun fuel => callMethod h (eval h fuel (depth + 1)) depth m args :=
  fun fuel => callMethod_refines fun n => eval_grows h (depth + 1) n fuel

theorem operandsOf_grows (ns : List NodeId) :
    Grows .outOfFuel fun fuel => operandsOf (eval h fuel depth) ns :=
  fun fuel => refines_congruent.operandsOf _ fun n _ => eval_grows h depth n fuel

theorem ends_operandsOf (ns : List NodeId) :
    (ends .outOfFuel fun fuel => operandsOf (eval h fuel depth) ns) = argumentsOf h depth ns := by
  induction ns with
  | nil => exact ends_pure []
  | cons n ns ih =>
    have hRest : ∀ v : Option Value, (ends .outOfFuel fun fuel => do
          let vs ← operandsOf (eval h fuel depth) ns
          return v.toList ++ vs)
        = argumentsOf h depth ns >>= fun vs => pure (v.toList ++ vs) := by
      intro v
      refine (ends_bind (operandsOf_grows ns) fun vs => .const (pure (v.toList ++ vs))).trans ?_
      rw [ih]
      exact bind_congr fun vs => ends_pure _
    refine (ends_bind (eval_grows h depth n) fun v => ?_).trans (bind_congr hRest)
    exact .bind (operandsOf_grows ns) fun vs => .const (pure (v.toList ++ vs))

/- A call evaluates its arguments first. -/
theorem behaviour_call (hHeld : Held h.ctx.tree ⟨n, .call m, ty, cs⟩) :
    behaviour h depth n = argumentsOf h depth (cs.map (·.id)) >>= behaviourOfCall h depth m := by
  rw [← ends_operandsOf]
  refine (behaviour_of fun fuel => ?_).trans (ends_bind (operandsOf_grows _) (call_grows m))
  rw [evalNode, hHeld.shape.1, ← hHeld.shape.2]
  rfl

theorem behaviour_layout (hHeld : Held h.ctx.tree ⟨n, .layout l, ty, cs⟩) :
    behaviour h depth n = pure (some (.narrow (Int64.ofNat (h.ctx.program.layoutValue l)))) := by
  refine (behaviour_of fun fuel => ?_).trans (ends_pure _)
  rw [evalNode, hHeld.shape.1]

-- Frames

theorem leave_eq_outOfFuel_iff {x : Method} {frame : Slots}
    {r : EStateM.Result Exit (State σ) (Option Value)} :
    (∃ s, leave x name frame r = .error .outOfFuel s) ↔ ∃ s, r = .error .outOfFuel s := by
  cases r with
  | ok v s => cases hResult : resultOf x name v <;> simp [leave, hResult]
  | error e s =>
    cases e with
    | ret v => cases hResult : resultOf x name v <;> simp [leave, hResult]
    | trap | branch | outOfFuel => simp [leave]

/-
  A method with code runs it in a frame that has its parameters
  and locals, and gives back the frame of its caller.
-/
theorem behaviourOfCall_iff (hImported : (h.ctx.program.method m).flags.imported = false)
    (hBody : (h.ctx.program.method m).body = some f.id) (hHeld : Held h.ctx.tree f)
    (hDepth : depth < h.maxDepth)
    (hFrame : initialFrame (h.ctx.program.method m) args = .ok frame) :
    behaviourOfCall h depth m args s r ↔
      ∃ r', behaviourOf h (depth + 1) (f.children.map (·.id)) ⟨frame, s.store⟩ r'
        ∧ leave (h.ctx.program.method m) (h.ctx.program.methodName m) s.frame r' = r := by
  have hRun : ∀ fuel, callMethod h (eval h fuel (depth + 1)) depth m args s
      = leave (h.ctx.program.method m) (h.ctx.program.methodName m) s.frame
          (sequenceFrom (eval h fuel (depth + 1)) none (f.children.map (·.id))
            ⟨frame, s.store⟩) := by
    intro fuel
    simp only [callMethod, hImported, hBody, hFrame, sequence, hHeld.children,
      if_neg (Nat.not_le.mpr hDepth)]
    rfl
  constructor
  · rintro ⟨⟨fuel, hEnd⟩, hReal⟩
    refine ⟨_, ⟨⟨fuel, rfl⟩, fun s' hStop => ?_⟩, (hRun fuel).symm.trans hEnd⟩
    rcases leave_eq_outOfFuel_iff.mpr ⟨s', hStop⟩ with ⟨s'', hLeave⟩
    exact hReal s'' (hEnd.symm.trans ((hRun fuel).trans hLeave))
  · rintro ⟨_, ⟨⟨fuel, rfl⟩, hReal⟩, rfl⟩
    refine ⟨⟨fuel, hRun fuel⟩, fun s' hStop => ?_⟩
    rcases leave_eq_outOfFuel_iff.mp ⟨s', hStop⟩ with ⟨s'', hEnd⟩
    exact hReal s'' hEnd

/- Locals that hold references start as null. -/
theorem bindLocals_refs {ss : List Slot} (hRefs : ∀ s ∈ ss, s.ty.isRef = true) (frame : Slots) :
    ∃ frame', bindLocals frame ss = .ok frame' := by
  induction ss generalizing frame with
  | nil => exact ⟨frame, rfl⟩
  | cons s ss ih =>
    rw [forall_mem_cons] at hRefs
    rcases s with ⟨name, ty⟩
    cases ty with
    | none | machine => cases hRefs.1
    | ref c => exact ih hRefs.2 _

/- What a class has as its size, as a number of the machine. -/
def sizeOf (h : Host σ) (c : ClassId) : Int32 :=
  Int32.ofNat (h.ctx.program.cls c).size

/- The method that gives the size of a class does so. -/
theorem behaviourOfCall_size (hRooted : Rooted h.ctx)
    (hOffers : Build.Offers h.ctx.program c "_size_" .onClass m)
    (hCode : (h.ctx.program.method m).HasCode)
    (hResult : (h.ctx.program.method m).result.held? = some .i32) (hDepth : depth < h.maxDepth) :
    behaviourOfCall h depth m [] = pure (some (.i32 (sizeOf h c))) := by
  rcases hRooted.provided hOffers hCode with ⟨hImported, f, hBody, hHeld, hProvides⟩
  rcases bindLocals_refs ((hRooted.inOrder m).bare (.inl hOffers.synthesized)) [] with
    ⟨frame, hFrame⟩
  have hInitial : initialFrame (h.ctx.program.method m) [] = .ok frame := by
    rw [initialFrame]
    cases (h.ctx.program.method m).allParams <;> exact hFrame
  rcases f with ⟨n, instr, ty, cs⟩
  dsimp only at hProvides
  generalize hName : "_size_" = name at hProvides
  cases hProvides with
  | constructor => simp at hName
  | size =>
    have hCode : behaviour h (depth + 1) _ = _ := behaviour_layout (hHeld.child (.head _))
    have hSize : (Int64.ofNat (h.ctx.program.cls c).size).toInt32 = sizeOf h c := by simp [sizeOf]
    ext s r
    rw [behaviourOfCall_iff hImported hBody hHeld hDepth hInitial]
    simp only [map_cons, map_nil, behaviourOf_single, hCode, Program.layoutValue,
      Value.narrow, hSize]
    have hLeave : leave (h.ctx.program.method m) (h.ctx.program.methodName m) s.frame
        (.ok (some (.i32 (sizeOf h c))) ⟨frame, s.store⟩) = .ok (some (.i32 (sizeOf h c))) s := by
      simp only [leave, resultOf, hResult, Value.toInt64, Value.ofType, Value.narrow,
        Int32.toInt32_toInt64]
      rfl
    constructor
    · rintro ⟨_, rfl, rfl⟩
      exact hLeave
    · rintro rfl
      exact ⟨_, rfl, hLeave⟩

end Machine

-- Calls Without A Receiver

namespace Lower

variable {d : Descent} {s : LowerState} {parent : NodeId} {m : MethodId} {receiver : Node}
variable {name : String}

/- Names are looked up in a class as in its own class methods. -/
theorem resolveClassCall_eq (hNew : name ≠ "new") (c : ClassId) (span : Span) :
    resolveClassCall c name span = resolveSelfCall c .onClass name span := by
  funext ctx
  simp only [resolveClassCall, if_neg hNew, resolveSelfCall, Build.program_bind]
  rcases ctx.program.classMethod? c name with _ | ⟨m, viaExtend⟩
  · rfl
  · rfl

section

variable (hMethod : s.ctx.methodOf? parent = some m)
variable (hClass : (s.ctx.program.method m).scope = .onClass)
include hMethod hClass

theorem selfCall_eq (hNew : name ≠ "new") (hSpan : node.span = node'.span) (args : List Node) :
    selfCall d parent node name args s
      = classCall d parent node' (s.ctx.program.method m).owner name args s := by
  simp only [selfCall, classCall, context_bind, hMethod, hClass, hSpan, resolveClassCall_eq hNew]

/- Inside of a class method, `self` is the class. -/
theorem namedClass_self (hSelf : receiver.tag = .selfRef) :
    namedClass parent receiver s = .ok (some (s.ctx.program.method m).owner) s := by
  simp only [namedClass, hSelf, context_bind, hMethod, Option.map_some, Option.bind_some,
    Method.isInstance, hClass]
  rfl

end

/-
  Inside of a class method, a call without a receiver is the same as one on `self`.  A call of
  `new` is not: only the one on `self` has the constructor of the class declared.
-/
theorem bare_calls_agree {args : List (Item Node)} {span : Span}
    (hMethod : s.ctx.methodOf? parent = some m)
    (hClass : (s.ctx.program.method m).scope = .onClass) (hSelf : receiver.tag = .selfRef)
    (hDirective : Directive.ofName? name = none) (hCast : name ≠ "cast_to") (hNew : name ≠ "new") :
    sendNode d parent ⟨.send, .nil :: .symbol name :: args, span⟩ s
      = sendNode d parent ⟨.send, .node receiver :: .symbol name :: args, span⟩ s := by
  have hOther : isDataRegistry receiver = false := by
    cases receiver
    cases hSelf
    rfl
  have hName : ∀ r, need (Node.symbolAt ⟨.send, r :: .symbol name :: args, span⟩ 1)
      = pure name := fun _ => rfl
  simp only [sendNode, liftM, monadLift, MonadLift.monadLift, hName, pure_bind, hDirective]
  simp only [receiverSend, hOther, Bool.false_eq_true, if_false, requireMethodScope,
    bind_assoc, context_bind, hMethod, Option.isNone_some, if_neg hCast]
  refine Eq.trans ?_ (bind_of_ok (namedClass_self hMethod hClass hSelf) _).symm
  simp only [Functor.map, EStateM.map, selfCall_eq hMethod hClass hNew rfl]
  rfl

/- A class method, and a call in it of one that is not declared. -/
def inClassMethod : LowerState where
  ctx :=
    { program := ((Program.empty 0).declareMethod objectClass "f" .onClass .generated).2
      tree := (Tree.empty.add ⟨0⟩ (.function ⟨0⟩) .none).2 }
  loader := {}

theorem forward_calls_agree :
    let d : Descent := ⟨fun _ _ _ => pure none, fun _ => pure ()⟩
    inClassMethod.ctx.methodOf? ⟨1⟩ = some ⟨0⟩
      ∧ sendNode d ⟨1⟩ ⟨.send, [.nil, .symbol "g"], .generated⟩ inClassMethod
        = sendNode d ⟨1⟩ ⟨.send, [.node ⟨.selfRef, [], .generated⟩, .symbol "g"], .generated⟩
          inClassMethod :=
  ⟨rfl, bare_calls_agree (m := ⟨0⟩) rfl (by decide +kernel) rfl rfl (by decide) (by decide)⟩

end Lower

end RubyWat
