import RubyWat.Proofs.Obedience

/-
  Evaluation of well-typed code.

  Key definitions: `Machine.HostsFit`, `Machine.Accepts`, `Machine.Outcome.Sound`.

  Main statement: a call in a well-typed context leaves a value of the type that the method
  declares, or stops for a reason that no type can rule out.  The argument goes through one node
  at a time: a node obeys its type if its parts do, and fuel carries that to whole evaluations.
-/

-- Frames

namespace RubyWat

open Context

open Code (NodeId)

variable {n : NodeId} {ctx : Context} {targets : List NodeId}
variable {args : List Machine.Value} {m : Method} {id : MethodId}

namespace Machine

/- Types without floats are held in integer types. -/
theorem held?_isFloat (hFree : FloatFree ty)
    (hHeld : ty.held? = some held) : held.isFloat = false := by
  cases ty with
  | none => cases hHeld
  | machine ty =>
    simp only [ValueType.held?, Option.some.injEq] at hHeld
    subst hHeld
    exact hFree
  | ref c =>
    simp only [ValueType.held?, Option.some.injEq] at hHeld
    subst hHeld
    rfl

/-
  A frame on its way to fit declarations: what is declared has a value
  of its type, or has none and is among the declarations that are left.
-/
def Started (declared rest : List Slot) (frame : Slots) : Prop :=
  ∀ name ty, Listed declared name ty → (frame.lookup name).map Value.type = some ty
    ∨ frame.lookup name = none ∧ ∃ s ∈ rest, s.name = name

/- One declaration less is left once its variable has a value. -/
theorem Started.next (hStarted : Started declared (s :: rest) frame) (hMem : s ∈ declared)
    (hOthers : ∀ name, name ≠ s.name → frame'.lookup name = frame.lookup name)
    (hOwn : ∀ ty, s.ty.held? = some ty → frame.lookup s.name = none
        ∨ (frame.lookup s.name).map Value.type = some ty →
          (frame'.lookup s.name).map Value.type = some ty) : Started declared rest frame' := by
  intro name ty hListed
  by_cases hName : name = s.name
  · subst hName
    exact .inl (hOwn ty (hListed.2 s hMem rfl) ((hStarted _ ty hListed).symm.imp_left And.left))
  · rw [hOthers name hName]
    refine (hStarted name ty hListed).imp_right fun ⟨hNone, q, hQ, hSame⟩ => ⟨hNone, q, ?_, hSame⟩
    rcases List.mem_cons.mp hQ with rfl | hTail
    · exact absurd hSame.symm hName
    · exact hTail

/- Parameters all get arguments of their types. -/
theorem bindParams_ok (hStarted : Started declared (params ++ rest) frame)
    (hParams : ∀ p ∈ params, p ∈ declared)
    (hArgs : args.map (fun v => some v.type) = params.map fun p => p.ty.held?) :
    ∃ result, bindParams frame params args = .ok result ∧ Started declared rest result := by
  induction params generalizing args frame with
  | nil => exact ⟨frame, by cases args <;> rfl, hStarted⟩
  | cons p params ih =>
    match args, hArgs with
    | v :: vs, hArgs =>
      simp only [List.map_cons, List.cons.injEq] at hArgs
      rcases hArgs with ⟨hHeld, hRest⟩
      rcases ofType_ok (type_isFloat v) v.toInt64 with ⟨w, hValue, hType⟩
      have hNext : Started declared (params ++ rest) (frame.insert p.name w) := by
        refine hStarted.next (hParams p (.head _)) ?_ ?_
        · intro name hName
          rw [Slots.lookup_insert, if_neg hName]
        · intro ty hTy _
          rw [Slots.lookup_insert, if_pos rfl, Option.map_some, hType, hHeld, hTy]
      rcases ih hNext (fun q hMem => hParams q (.tail p hMem)) hRest with ⟨result, hBind, hFits⟩
      refine ⟨result, ?_, hFits⟩
      simp only [bindParams, ← hHeld, hValue]
      exact hBind

/- Local variables start with a value of their type. -/
theorem bindLocals_ok (hStarted : Started declared locals frame)
    (hLocals : ∀ s ∈ locals, s ∈ declared ∧ FloatFree s.ty) :
    ∃ result, bindLocals frame locals = .ok result ∧ Started declared [] result := by
  induction locals generalizing frame with
  | nil => exact ⟨frame, rfl, hStarted⟩
  | cons s rest ih =>
    rcases hLocals s (.head _) with ⟨hMem, hFree⟩
    have hRest : ∀ q ∈ rest, q ∈ declared ∧ FloatFree q.ty := fun q hMem => hLocals q (.tail s hMem)
    cases hHeld : s.ty.held? with
    | none =>
      have hNext : Started declared rest frame :=
        hStarted.next hMem (fun _ _ => rfl) fun ty hTy => by simp [hHeld] at hTy
      simpa only [bindLocals, hHeld] using ih hNext hRest
    | some held =>
      rcases ofType_ok (held?_isFloat hFree hHeld) 0 with ⟨zero, hZero, hType⟩
      have hNext : Started declared rest (frame.insertNew s.name zero) := by
        refine hStarted.next hMem ?_ ?_
        · intro name hName
          rw [Slots.lookup_insertNew, if_neg hName, Option.or_none]
        · intro ty hTy hOld
          rw [Slots.lookup_insertNew, if_pos rfl]
          cases hLookup : frame.lookup s.name with
          | none => simpa [hHeld, hType] using hTy
          | some v => simpa [hLookup] using hOld
      simp only [bindLocals, hHeld, hZero]
      exact ih hNext hRest

/- A call starts with variables that fit their declarations. -/
theorem initialFrame_ok (hFree : ∀ s ∈ m.slots, FloatFree s.ty)
    (hArgs : args.map (fun v => some v.type) = m.allParams.map fun p => p.ty.held?) :
    ∃ frame, initialFrame m args = .ok frame ∧ SlotsFit m.slots frame := by
  have hEmpty : Started m.slots (m.allParams ++ m.locals) [] :=
    fun name ty hListed => .inr ⟨rfl, hListed.1⟩
  rcases bindParams_ok hEmpty (fun p hMem => List.mem_append_left _ hMem) hArgs with
    ⟨params, hParams, hStarted⟩
  rcases bindLocals_ok hStarted fun s hMem =>
      ⟨List.mem_append_right _ hMem, hFree s (List.mem_append_right _ hMem)⟩ with
    ⟨frame, hLocals, hFits⟩
  refine ⟨frame, ?_, ?_⟩
  · simp only [initialFrame, hParams]
    exact hLocals
  · intro name ty hListed
    rw [Slots.lookup_types]
    exact (hFits name ty hListed).resolve_right fun ⟨_, s, hMem, _⟩ => nomatch hMem

-- Calls

variable {σ : Type}

/- Host functions give what the methods that they stand for declare. -/
def HostsFit (h : Host σ) : Prop :=
  ∀ id moduleName function f, (h.ctx.program.method id).flags.imported →
    (h.ctx.program.method id).binding = some (moduleName, function) →
    h.find? moduleName function = some f → ∀ args memory world v,
        (f.run args memory world).result = .ok v →
          v.map Value.type = (h.ctx.program.method id).result.held?

/- A method that can be called with arguments. -/
structure Accepts (m : Method) (args : List Value) : Prop where
  callable : m.flags.implemented = true ∨ m.flags.imported = true
  types : args.map (fun v => some v.type) = m.allParams.map fun p => p.ty.held?

/- A way into calls that leaves the results of methods. -/
def CallObeys (ctx : Context) (call : MethodId → List Value → Exec σ (Option Value)) : Prop :=
  ∀ id args s, Accepts (ctx.program.method id) args →
    SlotsFit ctx.program.globalSlots s.store.globals → Obeys Stops
        (fun v => v.map Value.type = (ctx.program.method id).result.held?)
        s (call id args s)

/- A value of the type of a result stays one. -/
theorem resultOf_ok (name : String) (hValue : v.map Value.type = m.result.held?) :
    ∃ w, resultOf m name v = .ok w ∧ w.map Value.type = m.result.held? := by
  cases v with
  | none =>
    simp only [Option.map_none] at hValue
    exact ⟨none, by simp [resultOf, ← hValue], by simp [← hValue]⟩
  | some v =>
    simp only [Option.map_some] at hValue
    rcases ofType_ok (type_isFloat v) v.toInt64 with ⟨w, hWord, hType⟩
    refine ⟨some w, ?_, by simp [← hValue, hType]⟩
    simp [resultOf, ← hValue, hWord, Except.map]

/- Naming the function of a trap keeps its cause. -/
theorem unavoidable_inFunction (hTrap : Unavoidable t) (name : String) :
    Unavoidable (t.inFunction name) :=
  hTrap

/- Leaving a call gives the caller its variables back. -/
theorem leave_obeys (hBody : Obeys (ExitFits m []) (fun v => v.map Value.type = m.result.held?)
        ⟨frame, store⟩ r) :
    Obeys Stops (fun v => v.map Value.type = m.result.held?)
      ⟨caller, store⟩ (leave m name caller r) := by
  cases r with
  | ok v s =>
    rcases hBody with ⟨hValue, hSame⟩
    rcases resultOf_ok name hValue with ⟨w, hResult, hType⟩
    simp only [leave, hResult]
    exact ⟨hType, rfl, hSame.globals⟩
  | error e s =>
    rcases hBody with ⟨hExit, hSame⟩
    cases e with
    | branch target => cases hExit
    | ret v =>
      rcases resultOf_ok name hExit with ⟨w, hResult, hType⟩
      simp only [leave, hResult]
      exact ⟨hType, rfl, hSame.globals⟩
    | trap t => exact ⟨unavoidable_inFunction hExit name, rfl, hSame.globals⟩
    | outOfFuel => exact ⟨trivial, rfl, hSame.globals⟩

/- A call of the host leaves what the method declares. -/
theorem callHost_obeys (hHosts : HostsFit h)
    (hImported : (h.ctx.program.method id).flags.imported) (s : State σ) :
    Obeys Stops (fun v => v.map Value.type = (h.ctx.program.method id).result.held?)
      s (callHost h (h.ctx.program.method id) name args s) := by
  unfold callHost
  cases hBinding : (h.ctx.program.method id).binding with
  | none => exact ⟨.inr (.inr (.inl rfl)), .refl s⟩
  | some pair =>
    rcases pair with ⟨moduleName, function⟩
    cases hFind : h.find? moduleName function with
    | none =>
      simp only [hFind]
      exact ⟨.inr (.inr (.inl rfl)), .refl s⟩
    | some f =>
      simp only [hFind, bind, EStateM.bind, get, getThe,
        MonadStateOf.get, EStateM.get, set, EStateM.set]
      cases hReply : (f.run args s.store.memory s.store.world).result with
      | ok v =>
        exact ⟨hHosts id moduleName function f hImported hBinding hFind args s.store.memory
          s.store.world v hReply, rfl, rfl⟩
      | error message => exact ⟨.inr (.inr (.inl rfl)), rfl, rfl⟩

/- A call leaves what the method declares. -/
theorem callMethod_obeys (hTyped : h.ctx.WellTyped) (hHosts : HostsFit h)
    {eval : NodeId → Exec σ (Option Value)} (hEval : EvalObeys h.ctx eval) (depth : Nat) :
    CallObeys h.ctx (callMethod h eval depth) := by
  intro id args s hAccepts hGlobals
  unfold callMethod
  cases hImported : (h.ctx.program.method id).flags.imported with
  | true =>
    simp only [hImported, if_true]
    exact callHost_obeys hHosts hImported s
  | false =>
    have hImplemented : (h.ctx.program.method id).flags.implemented = true := by
      simpa [hImported] using hAccepts.callable
    rcases hTyped.bodies id hImplemented hImported with ⟨body, hBody, hEnds, hNodes⟩
    rcases initialFrame_ok (hTyped.slots id) hAccepts.types with ⟨frame, hFrame, hFits⟩
    simp only [hImported, Bool.false_eq_true, if_false, hBody, hFrame]
    split
    · exact ⟨.inr (.inr (.inr rfl)), .refl s⟩
    · exact leave_obeys (sequence_obeys_of_ends hEval hNodes hEnds ⟨hFits, hGlobals⟩)

-- Nodes

/- Whatever stops a call may stop a node. -/
theorem exitFits_of_stops (m : Method) (targets : List NodeId) (e : Exit) (hStops : Stops e) :
    ExitFits m targets e := by
  cases e with
  | branch | ret => cases hStops
  | trap t => exact hStops
  | outOfFuel => trivial

section

/- A block without a value takes branches to itself. -/
theorem asBlock_obeys (hBody : Obeys (ExitFits m (if result = none then n :: targets
            else targets.filter (· ≠ n)))
        (fun v => v.map Value.type = result) s (body s)) :
    Obeys (ExitFits m targets) (fun v => v.map Value.type = result) s (asBlock n body s) := by
  unfold asBlock
  cases hStep : body s with
  | ok v s' =>
    rwa [hStep] at hBody
  | error e s' =>
    rw [hStep] at hBody
    rcases hBody with ⟨hExit, hSame⟩
    cases e with
    | branch target =>
      by_cases hTarget : target = n
      · cases result with
        | none =>
          simp only [hTarget, if_true]
          exact ⟨rfl, hSame⟩
        | some ty => simp [ExitFits, hTarget] at hExit
      · simp only [hTarget, if_false]
        refine ⟨?_, hSame⟩
        cases result with
        | none | some => simpa [ExitFits, hTarget] using hExit
    | ret | trap | outOfFuel => exact ⟨hExit, hSame⟩

/- A loop obeys if every round does, from every state of the same types. -/
theorem asLoop_obeys (hBody : ∀ s', SameTypes s s' → Obeys (ExitFits m (n :: targets))
          (fun v => v.map Value.type = result) s' (body s')) :
    Obeys (ExitFits m targets) (fun v => v.map Value.type = result) s (asLoop n body fuel s) := by
  induction fuel generalizing s with
  | zero => exact ⟨trivial, .refl s⟩
  | succ fuel ih =>
    have hRound := hBody s (.refl s)
    unfold asLoop
    cases hStep : body s with
    | ok v s' =>
      rwa [hStep] at hRound
    | error e s' =>
      rw [hStep] at hRound
      rcases hRound with ⟨hExit, hSame⟩
      cases e with
      | branch target =>
        by_cases hTarget : target = n
        · simp only [hTarget, if_true]
          have hRest := ih fun s'' hNext => hBody s'' (hSame.trans hNext)
          cases hLast : asLoop n body fuel s' with
          | ok | error =>
            rw [hLast] at hRest
            exact ⟨hRest.1, hSame.trans hRest.2⟩
        · simp only [hTarget, if_false]
          refine ⟨?_, hSame⟩
          simpa [ExitFits, hTarget] using hExit
      | ret | trap | outOfFuel => exact ⟨hExit, hSame⟩

/- An arm leaves what its conditional leaves. -/
theorem arm_obeys {eval : NodeId → Exec σ (Option Value)} (hEval : EvalObeys ctx eval)
    (hArm : ctx.ArmFits instr result arm)
    (hTyped : ∀ c ∈ ctx.tree.children arm, ctx.Typed m targets c) (hState : StateFits ctx m s) :
    Obeys (ExitFits m targets) (fun v => v.map Value.type = result) s (sequence ctx eval arm s) :=
  sequence_obeys_of_ends hEval hTyped hArm.2.2 hState

/- A conditional leaves what the arm it picks leaves. -/
theorem evalCond_obeys {eval : NodeId → Exec σ (Option Value)} (hEval : EvalObeys ctx eval)
    (hCond : ctx.CondFits result (ctx.tree.children n)) (hInstr : ctx.tree.instr n = .cond)
    (hTyped : ∀ c ∈ ctx.parts n, ctx.Typed m targets c) (hState : StateFits ctx m s) :
    Obeys (ExitFits m targets) (fun v => v.map Value.type = result) s (evalCond ctx eval n s) := by
  unfold evalCond
  cases hChildren : ctx.tree.children n with
  | nil =>
    rw [hChildren] at hCond
    cases hCond
  | cons test arms =>
    rw [hChildren] at hCond
    simp only [parts, hInstr, hChildren, List.mem_cons, List.mem_flatMap] at hTyped
    have hArms : ∀ arm ∈ arms, ∀ c ∈ ctx.tree.children arm, ctx.Typed m targets c :=
      fun arm hArm c hMem => hTyped c (.inr ⟨arm, hArm, hMem⟩)
    refine (hEval m targets test s (hTyped test (.inl rfl)) hState).bind ?_
    rintro v s' ⟨hValue, _⟩ hSame
    have hState' := hState.of_sameTypes hSame
    match arms, hCond with
    | [first], ⟨hTest, hNone, hFirst⟩ =>
      rw [hTest] at hValue
      cases v with
      | none => cases hValue
      | some v =>
        cases hTrue : v.isTrue with
        | true =>
          simp only [hTrue, if_true, List.getElem?_cons_zero]
          exact arm_obeys hEval hFirst (hArms first (.head _)) hState'
        | false =>
          simp only [hTrue, Bool.false_eq_true, if_false,
            List.getElem?_cons_succ, List.getElem?_nil]
          exact ⟨hNone.symm, .refl s'⟩
    | [first, second], ⟨hTest, hFirst, hSecond⟩ =>
      rw [hTest] at hValue
      cases v with
      | none => cases hValue
      | some v =>
        cases hTrue : v.isTrue with
        | true =>
          simp only [hTrue, if_true, List.getElem?_cons_zero]
          exact arm_obeys hEval hFirst (hArms first (.head _)) hState'
        | false =>
          simp only [hTrue, Bool.false_eq_true, if_false, List.getElem?_cons_succ,
            List.getElem?_cons_zero]
          exact arm_obeys hEval hSecond (hArms second (.tail _ (.head _))) hState'

/- Options that are all there are their values. -/
theorem map_some_filterMap {α β : Type} {f : α → Option β} {xs : List α}
    (hAll : ∀ x ∈ xs, (f x).isSome) : (xs.filterMap f).map some = xs.map f := by
  induction xs with
  | nil => rfl
  | cons x rest ih =>
    have hRest := ih fun y hMem => hAll y (.tail x hMem)
    rcases Option.isSome_iff_exists.mp (hAll x (.head _)) with ⟨y, hFirst⟩
    simp [hFirst, hRest]

/- A call that fits passes what its target takes. -/
theorem accepts_of_checkCall (hCheck : ctx.checkCall n id = .ok ())
    (hArity : (ctx.operandTypes n).length = (ctx.program.method id).arity)
    (hArgs : args.map Value.type = ctx.operandTypes n) :
    Accepts (ctx.program.method id) args ∧ (ctx.tree.ty n).held?
          = (ctx.program.method id).result.held? := by
  simp only [checkCall] at hCheck
  split at hCheck
  · cases hCheck
  rename_i hFlags
  split at hCheck
  case isFalse => cases hCheck
  rename_i hFit
  simp only [callFits, Bool.and_eq_true, decide_eq_true_eq] at hFit
  rcases hFit with ⟨hParams, hResult⟩
  refine ⟨⟨?_, ?_⟩, hResult⟩
  · cases hImplemented : (ctx.program.method id).flags.implemented with
    | true => exact .inl rfl
    | false => simpa [hImplemented] using hFlags
  · -- As many values as parameters: every child leaves one.
    have hAll : (ctx.operandTypes n).map some = (ctx.tree.children n).map
              fun c => (ctx.tree.ty c).held? := by
      apply map_some_filterMap
      apply List.filterMap_length_eq_length.mp
      have hLength := congrArg List.length hParams
      simp only [List.length_map] at hLength
      exact hArity.trans hLength.symm
    rw [← hParams, ← hAll, ← hArgs]
    simp

/- A node obeys its type if its parts and calls do. -/
theorem evalNode_obeys {eval : NodeId → Exec σ (Option Value)} (hEval : EvalObeys ctx eval)
    {call : MethodId → List Value → Exec σ (Option Value)} (hCall : CallObeys ctx call) :
    EvalObeys ctx (evalNode ctx eval call fuel) := by
  intro m targets n s hTyped hState
  rcases hTyped with ⟨hFits, hParts⟩
  have hTrap : ∀ t, Unavoidable t → ExitFits m targets (.trap t) := fun t hStop => hStop
  have hWhole := hParts
  cases hInstr : ctx.tree.instr n
  all_goals
    simp only [Fits, hInstr] at hFits <;>
      simp only [parts, targetsIn, hInstr] at hParts <;>
      simp only [evalNode, hInstr]
  case call id =>
    refine (operandsOf_obeys hEval hParts hState).bind ?_
    intro args s' hArgs hSame
    rcases accepts_of_checkCall hFits.1 hFits.2 hArgs with ⟨hAccepts, hResult⟩
    have hState' := hState.of_sameTypes hSame
    refine (hCall id args s' hAccepts hState'.globals).mono (exitFits_of_stops m targets) ?_
    intro v hValue
    exact ⟨hValue.trans hResult.symm, rfl⟩
  case ret =>
    refine (sequence_obeys hEval hParts hFits.2 hState).bind ?_
    intro v s' hValue _
    exact Obeys.throw hValue
  case const value =>
    rcases hFits with ⟨_, ty, hResult, hFloat⟩
    rcases ofType_ok hFloat value with ⟨v, hValue, hType⟩
    have hHeld : (ctx.tree.ty n).held = ty := by simp [ValueType.held, hResult]
    simp only [hHeld, hValue]
    exact ⟨⟨by simp [hResult, hType], rfl⟩, .refl s⟩
  case layout l =>
    exact ⟨⟨hFits.2.symm, rfl⟩, .refl s⟩
  case localGet name =>
    rcases hFits with ⟨_, ty, hResult, hDeclared⟩
    refine (getLocal_obeys hState hDeclared).map ?_
    intro v hType
    exact ⟨by simp [hResult, hType], rfl⟩
  case localSet name =>
    rcases hFits with ⟨hResult, ty, hOperands, hDeclared⟩
    refine (operand_obeys hEval hParts hOperands hState).bind ?_
    intro v s' _ hSame
    have hState' := hState.of_sameTypes hSame
    refine (setLocal_obeys hState' hDeclared).bind ?_
    intro _ s'' _ _
    exact Obeys.pure ⟨hResult.symm, rfl⟩
  case localTee name =>
    rcases hFits with ⟨ty, hResult, hOperands, hDeclared⟩
    refine (operand_obeys hEval hParts hOperands hState).bind ?_
    intro v s' _ hSame
    have hState' := hState.of_sameTypes hSame
    refine (setLocal_obeys hState' hDeclared).bind ?_
    intro _ s'' _ hSame'
    have hState'' := hState'.of_sameTypes hSame'
    refine (getLocal_obeys hState'' hDeclared).map ?_
    intro v hType
    exact ⟨by simp [hResult, hType], rfl⟩
  case globalGet name =>
    rcases hFits with ⟨_, ty, hResult, hDeclared⟩
    refine (getGlobal_obeys hState hDeclared).map ?_
    intro v hType
    exact ⟨by simp [hResult, hType], rfl⟩
  case globalSet name =>
    rcases hFits with ⟨hResult, ty, hOperands, hDeclared⟩
    refine (operand_obeys hEval hParts hOperands hState).bind ?_
    intro v s' _ hSame
    have hState' := hState.of_sameTypes hSame
    refine (setGlobal_obeys hState' hDeclared).bind ?_
    intro _ s'' _ _
    exact Obeys.pure ⟨hResult.symm, rfl⟩
  case load offset =>
    rcases hFits with ⟨hOperands, ty, hResult, hFloat⟩
    have hHeld : (ctx.tree.ty n).held = ty := by simp [ValueType.held, hResult]
    simp only [hHeld]
    refine (operand_obeys hEval hParts hOperands hState).bind ?_
    intro base s' _ _
    refine (load_obeys hTrap hFloat s').map ?_
    intro v hType
    exact ⟨by simp [hResult, hType], rfl⟩
  case store ty offset =>
    rcases hFits with ⟨hOperands, hFloat, hResult⟩
    refine (operandPair_obeys hEval hParts hOperands hState).bind ?_
    rintro ⟨base, v⟩ s' _ _
    refine (store_obeys hTrap hFloat s').bind ?_
    intro _ s'' _ _
    exact Obeys.pure ⟨hResult.symm, rfl⟩
  case binary op =>
    rcases hFits with ⟨ty, hOperands, hResult⟩
    refine (operandPair_obeys hEval hParts hOperands hState).bind ?_
    rintro ⟨a, b⟩ s' ⟨hLeft, _⟩ _
    refine (binary_obeys hTrap s').map ?_
    intro v hType
    exact ⟨by simp [hResult, hType, hLeft], rfl⟩
  case unary op =>
    rcases hFits with ⟨ty, hOperands, hResult⟩
    refine (operand_obeys hEval hParts hOperands hState).bind ?_
    intro a s' hOperand _
    refine (unary_obeys s').map ?_
    intro v hType
    exact ⟨by simp [hResult, hType, hOperand], rfl⟩
  case compare op ty =>
    refine (operandPair_obeys hEval hParts hFits.1 hState).bind ?_
    rintro ⟨a, b⟩ s' _ _
    exact Obeys.pure ⟨hFits.2.symm, rfl⟩
  case extend signed =>
    refine (operand_obeys hEval hParts hFits.1 hState).bind ?_
    intro a s' _ _
    refine Obeys.pure ⟨?_, rfl⟩
    rw [hFits.2]
    cases a <;> cases signed <;> rfl
  case wrap =>
    refine (operand_obeys hEval hParts hFits.1 hState).bind ?_
    intro a s' _ _
    exact Obeys.pure ⟨hFits.2.symm, rfl⟩
  case cond =>
    simp only [targetsIn, hInstr] at hWhole
    exact (evalCond_obeys hEval hFits hInstr hWhole hState).mono
      (fun e hExit => hExit) (fun v hValue => ⟨hValue, rfl⟩)
  case block =>
    refine (asBlock_obeys (sequence_obeys_of_ends hEval hParts
      hFits hState)).mono (fun e hExit => hExit) ?_
    exact fun v hValue => ⟨hValue, rfl⟩
  case loop =>
    refine (asLoop_obeys fun s' hSame =>
      sequence_obeys_of_ends hEval hParts hFits (hState.of_sameTypes hSame)).mono
      (fun e hExit => hExit) ?_
    exact fun v hValue => ⟨hValue, rfl⟩
  case br target =>
    exact Obeys.throw hFits.2.2
  case brIf target =>
    rcases hFits with ⟨hOperands, hResult, hTarget⟩
    refine (operand_obeys hEval hParts hOperands hState).bind ?_
    intro v s' _ _
    cases hTrue : v.isTrue with
    | true => exact ⟨hTarget, .refl s'⟩
    | false => exact ⟨⟨hResult.symm, rfl⟩, .refl s'⟩
  case drop =>
    rcases hFits with ⟨hResult, c, hChildren, hSome⟩
    have hLeaves : ctx.Leaves (ctx.tree.ty c).held? (ctx.tree.children n) := by
      rw [hChildren]
      rfl
    refine (sequence_obeys hEval hParts hLeaves hState).bind ?_
    intro v s' _ _
    exact Obeys.pure ⟨hResult.symm, rfl⟩
  case nop =>
    have hLeaves : ctx.Leaves none (ctx.tree.children n) := by
      rw [hFits.1]
      rfl
    refine (sequence_obeys hEval hParts hLeaves hState).mono (fun e hExit => hExit) ?_
    exact fun v hValue => ⟨hValue.trans hFits.2.symm, rfl⟩
  case comment text =>
    exact Obeys.pure ⟨hFits.2.symm, rfl⟩

end

/- Whole evaluations of typed nodes obey their types. -/
theorem eval_obeys (hTyped : h.ctx.WellTyped) (hHosts : HostsFit h)
    (fuel depth : Nat) : EvalObeys h.ctx (eval h fuel depth) := by
  induction fuel generalizing depth with
  | zero =>
    intro m targets n s _ _
    exact ⟨trivial, .refl s⟩
  | succ fuel ih =>
    exact evalNode_obeys (ih depth) (callMethod_obeys hTyped hHosts (ih (depth + 1)) depth)

/- Evaluations keep the types of all variables. -/
theorem sameTypes_eval (hTyped : h.ctx.WellTyped) (hHosts : HostsFit h)
    (fuel depth : Nat) (hNode : h.ctx.Typed m targets n)
    (hState : StateFits h.ctx m s) : SameTypes s (stateAfter (eval h fuel depth n s)) := by
  have hObeys := eval_obeys hTyped hHosts fuel depth m targets n s hNode hState
  cases hEnd : eval h fuel depth n s with
  | ok | error =>
    rw [hEnd] at hObeys
    exact hObeys.2

-- Whole Programs

/- Globals start with values of their types. -/
theorem initialGlobals_ok (hFree : ∀ s ∈ globals.map Global.slot, FloatFree s.ty) :
    ∃ slots, initialGlobals globals = .ok slots ∧ SlotsFit (globals.map Global.slot) slots := by
  induction globals with
  | nil =>
    refine ⟨[], rfl, ?_⟩
    rintro name ty ⟨⟨s, hMem, _⟩, _⟩
    cases hMem
  | cons g rest ih =>
    have hRest : ∀ s ∈ rest.map Global.slot, FloatFree s.ty :=
      fun s hMem => hFree s (.tail g.slot hMem)
    rcases ih hRest with ⟨slots, hSlots, hFits⟩
    -- a name declared by the rest alone is found in the rest
    have hLater : ∀ name ty, Listed ((g :: rest).map Global.slot) name ty →
          g.name ≠ name → slots.types.lookup name = some ty := by
      rintro name ty ⟨⟨s, hMem, hName⟩, hAll⟩ hOther
      refine hFits name ty ⟨?_, fun s hMem => hAll s (.tail g.slot hMem)⟩
      rcases List.mem_cons.mp hMem with rfl | hTail
      · exact absurd hName hOther
      · exact ⟨s, hTail, hName⟩
    cases hHeld : g.ty.held? with
    | none =>
      refine ⟨slots, by simpa [initialGlobals, hHeld] using hSlots, ?_⟩
      intro name ty hDeclared
      refine hLater name ty hDeclared ?_
      intro hName
      have hTy := hDeclared.2 g.slot (.head _) hName
      simp [Global.slot, hHeld] at hTy
    | some held =>
      have hFloat := held?_isFloat (hFree g.slot (.head _)) hHeld
      rcases ofType_ok hFloat g.init with ⟨v, hValue, hType⟩
      refine ⟨(g.name, v) :: slots, ?_, ?_⟩
      · simp only [initialGlobals, hHeld, hValue, hSlots]
        rfl
      · intro name ty hDeclared
        by_cases hName : g.name = name
        · have hTy := hDeclared.2 g.slot (.head _) hName
          have hSame : held = ty := by simpa [Global.slot, hHeld] using hTy
          subst hName
          simp [Slots.types, hType, hSame]
        · have hRight : (name == g.name) = false := by
            simpa using Ne.symm hName
          simpa [Slots.types, List.lookup_cons, hRight] using hLater name ty hDeclared hName

/- Programs start with globals that fit their declarations. -/
theorem start_ok (hTyped : ctx.WellTyped) (world : σ) :
    ∃ store, start ctx world = .ok store ∧ SlotsFit ctx.program.globalSlots store.globals := by
  rcases initialGlobals_ok hTyped.globals with ⟨globals, hGlobals, hFits⟩
  have hStart : start ctx world = .ok
            { memory :=
                Memory.ofData (ctx.memoryPages * pageSize) ctx.program.data
              globals
              world } := by
    simp only [start, hGlobals]
    rfl
  exact ⟨_, hStart, hFits⟩

/- What a finished call of a method may come to. -/
def Outcome.Sound (m : Method) : Outcome → Prop
  | .value v => v.map Value.type = m.result.held?
  | .trap t => Unavoidable t
  | .outOfFuel => False

/- Finished calls are sound and keep the types of globals. -/
theorem callWithFuel_sound (hTyped : h.ctx.WellTyped) (hHosts : HostsFit h)
    (fuel : Nat) (hAccepts : Accepts (h.ctx.program.method id) args)
    (hGlobals : SlotsFit h.ctx.program.globalSlots store.globals) :
    ((callWithFuel fuel h id args store).1 ≠ .outOfFuel →
        (callWithFuel fuel h id args store).1.Sound (h.ctx.program.method id))
      ∧ (callWithFuel fuel h id args store).2.globals.types = store.globals.types := by
  have hCall := callMethod_obeys hTyped hHosts (eval_obeys hTyped hHosts fuel 1)
      0 id args ⟨[], store⟩ hAccepts hGlobals
  unfold callWithFuel
  cases hEnd : callMethod h (eval h fuel 1) 0 id args ⟨[], store⟩ with
  | ok v s =>
    rw [hEnd] at hCall
    exact ⟨fun _ => hCall.1, hCall.2.globals⟩
  | error e s =>
    rw [hEnd] at hCall
    rcases hCall with ⟨hStops, hSame⟩
    cases e with
    | branch | ret => cases hStops
    | trap t => exact ⟨fun _ => hStops, hSame.globals⟩
    | outOfFuel => exact ⟨fun hFinished => absurd rfl hFinished, hSame.globals⟩

/-
  Evaluation of a well-typed context is sound.  Globals start with their types.  A call with
  arguments of the parameter types that finishes leaves a value of the result type, or stops for
  a division by zero, an access outside of memory, a host function that is missing or fails, or
  too many calls. Its variables start with their types, and no evaluation of any part of its
  body changes the type of a variable or a global, however it ends.
-/
theorem evaluation_type_sound {h : Host σ} (hTyped : h.ctx.WellTyped) (hHosts : HostsFit h) :
    (∀ world : σ, ∃ store, start h.ctx world = .ok store
        ∧ SlotsFit h.ctx.program.globalSlots store.globals)
      ∧ (∀ fuel id args store, Accepts (h.ctx.program.method id) args →
          SlotsFit h.ctx.program.globalSlots store.globals →
            ((callWithFuel fuel h id args store).1 ≠ .outOfFuel →
              (callWithFuel fuel h id args store).1.Sound (h.ctx.program.method id))
            ∧ (callWithFuel fuel h id args store).2.globals.types = store.globals.types)
      ∧ (∀ id args, Accepts (h.ctx.program.method id) args → ∃ frame,
            initialFrame (h.ctx.program.method id) args = .ok frame
              ∧ SlotsFit (h.ctx.program.method id).slots frame)
      ∧ (∀ fuel depth id targets n (s : State σ), h.ctx.Typed (h.ctx.program.method id) targets n →
          StateFits h.ctx (h.ctx.program.method id) s →
            SameTypes s (stateAfter (eval h fuel depth n s))) := by
  refine ⟨start_ok hTyped, ?_, ?_, ?_⟩
  · intro fuel id args store hAccepts hGlobals
    exact callWithFuel_sound hTyped hHosts fuel hAccepts hGlobals
  · intro id args hAccepts
    exact initialFrame_ok (hTyped.slots id) hAccepts.types
  · intro fuel depth id targets n s hNode hState
    exact sameTypes_eval hTyped hHosts fuel depth hNode hState

/-
  A program with a method of the host, and a method that counts
  its calls and divides its argument by what the host gives.
-/
def sharedOut : Context :=
  { program :=
      { Program.empty 0 with
        methods :=
          #[{ name := "people"
              owner := objectClass
              scope := .onClass
              flags := { imported := true }
              binding := some ("env", "people") },
            { name := "share", owner := objectClass, scope := .onClass
              flags := { implemented := true }, params := [⟨"cake", .i32⟩], body := some ⟨1⟩ }]
        globals := #[{ name := "$calls", ty := .i32, init := 0 }] }
    tree :=
      { nodes :=
          #[{ instr := .root, ty := .none, children := [⟨1⟩] },
            { instr := .function ⟨1⟩, ty := .none, children := [⟨2⟩, ⟨6⟩] },
            { instr := .globalSet "$calls", ty := .none, children := [⟨3⟩] },
            { instr := .binary .add, ty := .i32, children := [⟨4⟩, ⟨5⟩] },
            { instr := .globalGet "$calls", ty := .i32 },
            { instr := .const 1, ty := .i32 },
            { instr := .binary .div, ty := .i32, children := [⟨7⟩, ⟨8⟩] },
            { instr := .localGet "cake", ty := .i32 },
            { instr := .call ⟨0⟩, ty := .i32 }]
        nextLabel := 0 } }

/- A host on which nobody shares. -/
def lonelyHost : Host Unit :=
  { ctx := sharedOut
    functions :=
      [{ moduleName := "env"
         function := "people"
         run := fun _ memory world => { result := .ok (some (.narrow 0)), memory, world } }] }

theorem sharedOut_lists_calls : Listed sharedOut.program.globalSlots "$calls" .i32 := by
  simp [Listed, Program.globalSlots, sharedOut, Global.slot, ValueType.held?]

theorem sharedOut_lists_cake : Listed (sharedOut.program.method ⟨1⟩).slots "cake" .i32 := by
  simp [Listed, Program.method, sharedOut, Method.slots, Method.allParams, Method.receiver,
    Method.isInstance, ValueType.held?]

/- All nodes of the sample fit, operands first. -/
theorem sharedOut_bodyFits : sharedOut.BodyFits (sharedOut.program.method ⟨1⟩) ⟨1⟩ := by
  let m := sharedOut.program.method ⟨1⟩
  have hNone : ∀ c ∈ ([] : List NodeId),
      sharedOut.Typed m [] c := by
    simp
  have hCalls : sharedOut.Typed m [] ⟨4⟩ :=
    .node (And.intro rfl ⟨.i32, rfl, sharedOut_lists_calls⟩) hNone
  have hOne : sharedOut.Typed m [] ⟨5⟩ := .node (And.intro rfl ⟨.i32, rfl, rfl⟩) hNone
  have hSum : sharedOut.Typed m [] ⟨3⟩ :=
    .node ⟨.i32, rfl, rfl⟩ (List.forall_mem_cons.mpr
        ⟨hCalls, List.forall_mem_cons.mpr ⟨hOne, hNone⟩⟩)
  have hCount : sharedOut.Typed m [] ⟨2⟩ :=
    .node (And.intro rfl ⟨.i32, rfl, sharedOut_lists_calls⟩)
      (List.forall_mem_cons.mpr ⟨hSum, hNone⟩)
  have hCake : sharedOut.Typed m [] ⟨7⟩ :=
    .node (And.intro rfl ⟨.i32, rfl, sharedOut_lists_cake⟩) hNone
  have hPeople : sharedOut.Typed m [] ⟨8⟩ := .node (And.intro rfl rfl) hNone
  have hShare : sharedOut.Typed m [] ⟨6⟩ :=
    .node ⟨.i32, rfl, rfl⟩ (List.forall_mem_cons.mpr
        ⟨hCake, List.forall_mem_cons.mpr ⟨hPeople, hNone⟩⟩)
  exact ⟨.inl ⟨rfl, rfl⟩, List.forall_mem_cons.mpr
      ⟨hCount, List.forall_mem_cons.mpr ⟨hShare, hNone⟩⟩⟩

theorem sharedOut_wellTyped : sharedOut.WellTyped := by
  constructor
  · rintro ⟨_ | _ | index⟩ hImplemented hImported
    · cases hImplemented
    · exact ⟨⟨1⟩, rfl, sharedOut_bodyFits⟩
    · cases hImplemented
  · rintro ⟨_ | _ | index⟩ s hMem
    · cases hMem
    · rcases List.mem_singleton.mp hMem with rfl
      rfl
    · rcases List.mem_singleton.mp hMem with rfl
      rfl
  · rintro ⟨_ | _ | index⟩ <;> rfl
  · intro s hMem
    rcases List.mem_singleton.mp hMem with rfl
    rfl

theorem lonelyHost_hostsFit : HostsFit lonelyHost := by
  rintro ⟨_ | _ | index⟩ moduleName function f hImported hBinding hFind
  · intro args memory world v hReply
    simp only [Host.find?, lonelyHost, List.reverse_singleton, List.find?_singleton] at hFind
    split at hFind
    · cases hFind
      cases hReply
      rfl
    · cases hFind
  · cases hImported
  · cases hImported

/- The sample before its first call. -/
def sharedOutStore : Store Unit :=
  { memory := .ofData 0 sharedOut.program.data, globals := [("$calls", .narrow 0)], world := () }

theorem sharedOutStore_fits : SlotsFit sharedOut.program.globalSlots sharedOutStore.globals := by
  rintro name ty ⟨⟨s, hMem, rfl⟩, hAll⟩
  rcases List.mem_singleton.mp hMem with rfl
  have hType := hAll _ hMem rfl
  cases hType
  rfl

/-
  On the host on which nobody shares, the method of the sample
  divides by zero, after it has counted the call.
-/
theorem sharedOut_type_sound :
    (callWithFuel 4 lonelyHost ⟨1⟩ [.narrow 7] sharedOutStore).1
        = .trap ⟨.divisionByZero, some "Object::share"⟩
      ∧ (callWithFuel 4 lonelyHost ⟨1⟩ [.narrow 7] sharedOutStore).1.Sound
        (sharedOut.program.method ⟨1⟩)
      ∧ (callWithFuel 4 lonelyHost ⟨1⟩ [.narrow 7] sharedOutStore).2.globals.types
        = sharedOutStore.globals.types := by
  have hSound := evaluation_type_sound sharedOut_wellTyped lonelyHost_hostsFit
  have hEnd : (callWithFuel 4 lonelyHost ⟨1⟩ [.narrow 7] sharedOutStore).1
        = .trap ⟨.divisionByZero, some "Object::share"⟩ := by
    rfl
  rcases hSound.2.1 4 ⟨1⟩ [.narrow 7] sharedOutStore
      ⟨.inl rfl, rfl⟩ sharedOutStore_fits with ⟨hOutcome, hTypes⟩
  refine ⟨hEnd, hOutcome ?_, hTypes⟩
  rw [hEnd]
  exact fun hFuel => nomatch hFuel

end Machine

end RubyWat
