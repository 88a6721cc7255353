import RubyWat.Proofs.ConstantCode
import RubyWat.Proofs.Toplevel

/-
  How productions go on.

  A production is a sequence of steps.  Most of them work on the code tree and on the names and
  leave the loader alone; the others go into a part of the construct or into a unit that has
  just been read.

  Main statement: every production only goes into nodes that are less high than its own, and
  only into units that the loader gives it (`dispatch_visits`).  What holds of such sequences of
  steps holds of the code of every node (`Sequential.lowerNode`).
-/

-- Quiet Steps

namespace RubyWat

open Code Dump

variable {node receiver : Node} {args nodes : List Node}
variable {height i : Nat}

namespace Lower

namespace Stays

variable {α : Type}

/- A step that changes static data reads no unit. -/
theorem of_dataOnly (hStep : Stays DataOnly step) : Stays SameLoader step :=
  hStep.mono fun hOnly => hOnly.loader_eq

end Stays

variable {parent : NodeId}

theorem requireMethodScope_quiet : Quiet (requireMethodScope parent node) :=
  .bind .context fun _ => .ite (.refuse _) (.pure _)

/- Operands have no parts that are compiled, so that no unit is read for them. -/
theorem operand_quiet : Quiet (operand parent node) := by
  unfold operand
  dsimp only
  split
  · exact .bind (.need _) fun _ => .compile _
  · exact .bind (.need _) fun _ => .compile _
  · exact .compile _
  · exact .compile _
  · exact .bind (.need _) fun _ => .compile _
  · exact .compile _
  · split
    · exact .bind (.need _) fun _ => .compile _
    · exact .refuse _

theorem branch_quiet : Quiet (branch parent node isBreak) :=
  .guard (.refuse _) (.ite (.compile _) (.compile _))

/- What follows the parts of a production only builds. -/
theorem finishAssignment_quiet : Quiet (finishAssignment slot kind node keep) := by
  refine .bind (.need _) fun name => ?_
  cases kind <;> exact .compile _

theorem namedClass_quiet : Quiet (namedClass parent node) := by
  unfold namedClass
  split
  · refine .bind (.need _) fun path => .bind (.compile _) fun value => ?_
    split
    · exact .pure _
    · exact .pure _
  · exact .bind .context fun _ => .pure _
  · exact .pure _

theorem parameters_quiet : Quiet (parameters m nodes) := by
  induction nodes with
  | nil => exact .pure _
  | cons node nodes ih =>
    unfold parameters
    refine .ite ?_ (.refuse _)
    exact .bind (.need _) fun name => .bind (.compile _) fun _ => ih

-- Quiet Directives

/- All directives but one are quiet. -/
theorem dataAccess_quiet : Quiet (dataAccess parent node name args) := by
  unfold dataAccess
  split
  · exact .bind dataLabel_changes fun label =>
      .bind (.of_dataOnly dataValue_dataOnly) fun content => .bind (.compile _) fun _ => .pure _
  · exact .bind dataLabel_changes fun label =>
      .bind (.of_dataOnly dataValue_dataOnly) fun content => .bind (.compile _) fun _ => .pure _
  · exact .bind (.of_dataOnly dataAddress_dataOnly) fun n => .bind (.compile _) fun _ => .pure _
  · exact .bind (.of_dataOnly dataAddress_dataOnly) fun n => .bind (.compile _) fun _ => .pure _
  · exact .bind requireMethodScope_quiet fun _ =>
      .bind dataLabel_changes fun label =>
        .bind labelAddress_changes fun address => .map (.compile _)
  · exact .bind requireMethodScope_quiet fun _ => .bind .program fun p => .map (.compile _)
  · exact badArguments_changes

theorem directiveMethod_quiet : Quiet (directiveMethod parent name span) := by
  refine .bind .context fun ctx => ?_
  split
  · exact .pure _
  · exact wrongScope_changes

theorem exportDirective_quiet : Quiet (exportDirective parent args span) := by
  unfold exportDirective
  split
  case' h_1 => refine .bind (.pure none) fun name => ?_
  case' h_2 => refine .bind (.map nameArgument_changes) fun name => ?_
  case' h_3 => refine .bind badArguments_changes fun name => ?_
  all_goals
    refine .bind .context fun ctx => ?_
    split
    · exact .compile _
    · have hModify := Stays.pending fun _ => some ⟨name, span⟩
      exact .bind .get fun s => .ite (.bind badArguments_changes fun _ => hModify) hModify

theorem importDirective_quiet : Quiet (importDirective m args span) := by
  unfold importDirective
  split
  · exact .bind nameArgument_changes fun moduleName =>
      .bind nameArgument_changes fun function => .compile _
  · exact badArguments_changes

theorem inlineDirective_quiet : Quiet (inlineDirective parent args span) := by
  refine .bind directiveMethod_quiet fun m => ?_
  dsimp only
  split
  · exact badArguments_changes
  refine .bind (inlineKeywords_changes _) fun found => ?_
  split
  · exact badArguments_changes
  · exact .compile _

/- A directive for each name with a type. -/
theorem typedDirective_quiet {β : Type} (step : TypedName → Build Unit) (b : β) : Quiet (do
      for slot in ← typedNames parent name args span do
        step slot
      return b) := by
  refine .bind typedNames_changes fun slots => .bind (.forIn slots fun slot => ?_) fun _ => .pure _
  exact .bind (.compile _) fun _ => .pure _

-- Productions

/- Compile the unit that a name stands for, if it is new. -/
def enterUnit (d : Descent) (name : String) (asking : Option String)
    (relative : Bool) (span : Span) : Lower Unit := do
  match ← Load.require name asking relative span with
  | some unit => d.unit unit
  | none => pure ()

/-
  Sequences of quiet steps, of ways into nodes below a height and
  of ways into units that the loader gives.
-/
inductive Visits (height : Nat) : {α : Type} → (Descent → Lower α) → Prop where
  | quiet {α : Type} {step : Lower α} (hQuiet : Quiet step) : Visits height fun _ => step
  | node (parent : NodeId) {node : Node} (keep : Bool) (hPart : node.height < height) :
      Visits height fun d => d.node parent node keep
  | enter (name : String) (asking : Option String) (relative : Bool) (span : Span) :
      Visits height fun d => enterUnit d name asking relative span
  | bind {α β : Type} {step : Descent → Lower α} {next : α → Descent → Lower β}
      (hStep : Visits height step)
      (hNext : ∀ a, (∃ d s s', step d s = .ok a s') → Visits height (next a)) :
      Visits height fun d => step d >>= fun a => next a d

namespace Visits

variable {α β : Type}

/- A quiet step and what comes after it. -/
theorem after {next : α → Descent → Lower β} (hQuiet : Quiet step)
    (hNext : ∀ a, Visits height (next a)) : Visits height fun d => step >>= fun a => next a d :=
  .bind (.quiet hQuiet) fun a _ => hNext a

/- A part that has to be there. -/
theorem needed {found : Except Malformed α} {next : α → Descent → Lower β}
    (hNext : ∀ a, found = .ok a → Visits height (next a)) :
    Visits height fun d => (liftM found : Lower α) >>= fun a => next a d := by
  refine .bind (.quiet (.need _)) fun a hGives => ?_
  rcases hGives with ⟨_, s, s', hRun⟩
  exact hNext a (need_ok hRun).1

theorem map (f : α → β) (hStep : Visits height step) : Visits height fun d => f <$> step d := by
  have hBind : (fun d => f <$> step d) = fun d => step d >>= fun a => pure (f a) := by
    funext d
    exact map_eq_pure_bind f (step d)
  rw [hBind]
  exact .bind hStep fun a _ => .quiet (.pure _)

/- A step whose result is not used. -/
theorem returning (b : β) (hStep : Visits height step) :
    Visits height fun d => step d >>= fun _ => pure b :=
  .bind hStep fun _ _ => .quiet (.pure _)

end Visits

end Lower

namespace Dump

namespace Node

variable {part : Node}

/- A node that stands at a position is a part. -/
theorem height_lt_of_node? (hPart : node.node? i = some part) : part.height < node.height := by
  rcases Option.bind_eq_some_iff.mp hPart with ⟨item, hItem, hNode⟩
  apply height_lt
  cases item <;> cases hNode
  exact List.mem_of_getElem? hItem

/- Parts are less high than the node that they are part of. -/
theorem height_lt_of_nodeAt (hPart : node.nodeAt i = .ok part) : part.height < node.height :=
  height_lt_of_node? (node?_of_nodeAt hPart)

theorem height_lt_of_mem_nodes (hPart : part ∈ node.nodes) : part.height < node.height :=
  height_lt (mem_items_of_filterMap hPart)

theorem height_lt_of_mem_nodesFrom (hPart : part ∈ node.nodesFrom i) : part.height < node.height :=
  height_lt (List.mem_of_mem_drop (mem_items_of_filterMap hPart))

end Node

end Dump

-- Values And Calls

namespace Lower

theorem placeholder_quiet : Quiet (placeholder parent span) :=
  .compile _

/- A value is visited once, and then looked at. -/
theorem value_visits (hPart : node.height < height) :
    Visits height fun d => value d parent node := by
  refine .bind (.node parent true hPart) fun found _ => ?_
  cases found with
  | none => exact .quiet (.refuse _)
  | some n => exact .quiet (.bind (.compile _) fun ty => .guard (.refuse _) (.pure _))

theorem values_visits (hParts : ∀ n ∈ nodes, n.height < height) :
    Visits height fun d => values d parent nodes := by
  induction nodes with
  | nil => exact .quiet (.pure _)
  | cons node nodes ih =>
    rw [List.forall_mem_cons] at hParts
    exact .bind (value_visits hParts.1) fun _ _ => ih hParts.2

/- Statements are visited in order, the last one for its value. -/
theorem statements_visits (hParts : ∀ n ∈ nodes, n.height < height) :
    Visits height fun d => statements d parent keep nodes := by
  induction nodes with
  | nil => exact .quiet (.pure _)
  | cons node nodes ih =>
    rw [List.forall_mem_cons] at hParts
    cases nodes with
    | nil => exact .node parent keep hParts.1
    | cons other nodes => exact .bind (.node parent false hParts.1) fun _ _ => ih hParts.2

/- A part that is missing is not visited. -/
theorem optional_visits (hPart : ∀ n ∈ part, n.height < height) :
    Visits height fun d => optional d parent part keep := by
  cases part with
  | none => exact .quiet (.pure _)
  | some n => exact .returning _ (.node parent keep (hPart n rfl))

section

variable (hParts : ∀ n ∈ args, n.height < height)
include hParts

/- A call visits its arguments after its method was looked up. -/
theorem callWith_visits {receiver : Receiver} :
    Visits height fun d => callWith d parent m receiver args span :=
  .after placeholder_quiet fun _ => .bind (values_visits hParts) fun _ _ => .quiet (.compile _)

theorem selfCall_visits : Visits height fun d => selfCall d parent node name args := by
  refine .after .context fun ctx => ?_
  cases ctx.methodOf? parent with
  | none => exact .quiet (.refuse _)
  | some current => exact .after (.compile _) fun target => callWith_visits hParts

theorem classCall_visits : Visits height fun d => classCall d parent node c name args :=
  .after (.compile _) fun _ => callWith_visits hParts

end

theorem castCall_visits (hPart : receiver.height < height) :
    Visits height fun d => castCall d parent node receiver args :=
  .after castArguments_changes fun _ =>
    .after typeArgument_changes fun _ => .bind (value_visits hPart) fun _ _ => .quiet (.compile _)

/- The receiver of an operator is visited like an argument. -/
theorem valueCall_visits (hParts : ∀ n ∈ receiver :: args, n.height < height) :
    Visits height fun d => valueCall d parent node receiver name args :=
  .after placeholder_quiet fun _ => .bind (values_visits hParts) fun _ _ => .quiet (.compile _)

-- Assignments And Control

theorem assignValue_visits : Visits node.height fun d => assignValue d parent kind node keep := by
  unfold assignValue
  cases hPart : node.node? 1 with
  | none => exact .quiet (.refuse _)
  | some content =>
    have hLess := Node.height_lt_of_node? hPart
    exact .after placeholder_quiet fun slot =>
      .bind (value_visits hLess) fun _ _ => .quiet finishAssignment_quiet

theorem assignment_visits : Visits node.height fun d => assignment d parent kind node keep := by
  refine .after .context fun ctx => ?_
  dsimp only
  split
  · exact .quiet (.bind staticDeclaration_changes.quiet fun _ => .pure _)
  · exact .quiet (.bind staticDeclaration_changes.quiet fun _ => .pure _)
  · exact .after (.need _) fun _ => .after (.compile _) fun _ => assignValue_visits.map some
  · exact assignValue_visits.map some

/- The variable of an assignment with an operator is read, not visited. -/
theorem operatorAssignment_visits :
    Visits node.height fun d => operatorAssignment d parent node keep := by
  refine .after (.need _) fun target => .after (.need _) fun operator =>
    .needed fun argument hArgument => ?_
  have hLess := Node.height_lt_of_nodeAt hArgument
  cases VariableKind.ofAssignment? target.tag with
  | none => exact .quiet (.refuse _)
  | some kind =>
    exact .after (.need _) fun name =>
      .after placeholder_quiet fun slot =>
        .after placeholder_quiet fun apply =>
          .after (.compile _) fun _ =>
            .bind (value_visits hLess) fun _ _ =>
              .after (.compile _) fun _ => .quiet finishAssignment_quiet

/- A conditional visits its condition before its arms. -/
theorem conditional_visits : Visits node.height fun d => conditional d parent node keep := by
  refine .needed fun test hTest => .after (.compile _) fun branch =>
    .bind (value_visits (Node.height_lt_of_nodeAt hTest)) fun _ _ => .after (.compile _) fun _ =>
        .after (.compile _) fun thenArm =>
          .bind (optional_visits fun n hPart => Node.height_lt_of_node? hPart) fun _ _ => ?_
  cases hElse : node.node? 2 with
  | none => exact .quiet (.compile _)
  | some body =>
    have hLess := Node.height_lt_of_node? hElse
    exact .after (.compile _) fun elseArm =>
      .bind (.node elseArm keep hLess) fun _ _ => .quiet (.compile _)

/- A loop visits its parts in the order in which a round runs them. -/
theorem testedLoop_visits : Visits node.height fun d => testedLoop d parent node isWhile :=
  .after (.compile _) fun _ => .after (.compile _) fun _ =>
    .needed fun _ hTest =>
      .bind (value_visits (Node.height_lt_of_nodeAt hTest)) fun _ _ => .after (.compile _) fun _ =>
          .bind (optional_visits fun _ hPart =>
            Node.height_lt_of_node? hPart) fun _ _ =>
              .quiet (.bind (.compile _) fun _ => .pure _)

theorem postTestedLoop_visits : Visits node.height fun d => postTestedLoop d parent node isWhile :=
  .after (.compile _) fun shell => .needed fun _ hBody =>
    .bind (.node shell.2 false (Node.height_lt_of_nodeAt hBody))
      fun _ _ => .after (.compile _) fun _ =>
        .needed fun _ hTest =>
          .bind (value_visits (Node.height_lt_of_nodeAt hTest))
            fun _ _ => .quiet (.bind (.compile _) fun _ => .pure _)

theorem returnStatement_visits : Visits node.height fun d => returnStatement d parent node := by
  refine .after placeholder_quiet fun ret => ?_
  cases hParts : node.nodes with
  | nil => exact .quiet (.compile _)
  | cons result others =>
    cases others with
    | nil =>
      have hLess : result.height < node.height := by
        apply Node.height_lt_of_mem_nodes
        rw [hParts]
        exact List.mem_singleton_self result
      exact .bind (value_visits hLess) fun _ _ => .quiet (.compile _)
    | cons other others => exact .quiet (.refuse _)

theorem logical_visits : Visits node.height fun d => logical d parent node isAnd :=
  .after (.compile _) fun _ => .needed fun _ hLeft =>
    .bind (value_visits (Node.height_lt_of_nodeAt hLeft)) fun _ _ => .needed fun _ hRight =>
        .bind (value_visits (Node.height_lt_of_nodeAt hRight)) fun _ _ => .quiet (.compile _)

theorem negation_visits : Visits node.height fun d => negation d parent node :=
  .after placeholder_quiet fun _ =>
    .needed fun _ hInner =>
      .bind (value_visits (Node.height_lt_of_nodeAt hInner)) fun _ _ => .quiet (.compile _)

-- Definitions And Directives

theorem classItem_visits : Visits node.height fun d => classItem d parent node kind := by
  refine .after className_changes fun named =>
    .after superclass_changes fun above => .after (.compile _) fun opened => ?_
  cases hBody : node.node? (bodyIndex kind) with
  | none => exact .quiet (.compile _)
  | some content =>
    have hLess := Node.height_lt_of_node? hBody
    exact .bind (.node opened.2 false hLess) fun _ _ => .quiet (.compile _)

theorem methodBody_visits (hParts : ∀ n ∈ nodes, n.height < height) :
    Visits height fun d => methodBody d m function nodes := by
  induction nodes with
  | nil => exact .quiet (.pure _)
  | cons node nodes ih =>
    rw [List.forall_mem_cons] at hParts
    cases nodes with
    | nil => exact .after .program fun p => .returning _ (.node function _ hParts.1)
    | cons other nodes => exact .bind (.node function false hParts.1) fun _ _ => ih hParts.2

/- A sequence that is a body counts as its statements. -/
theorem bodyStatements_lt (hBody : body.height < height) :
    ∀ n ∈ bodyStatements body, n.height < height := by
  intro n hMem
  rw [bodyStatements] at hMem
  split at hMem
  · exact (Node.height_lt_of_mem_nodes hMem).trans hBody
  · rw [List.mem_singleton.mp hMem]
    exact hBody

/- A method visits its body after its parameters were declared. -/
theorem methodFrom_visits (hParts : node.methodParts? i = some parts) :
    Visits node.height fun d => methodFrom d parent node shared parts := by
  have hBody : parts.body = node.node? (i + 2) := by
    unfold Node.methodParts? at hParts
    split at hParts
    · cases hParts
      rfl
    · cases hParts
  refine .after .context fun ctx => .after (.compile _) fun opened =>
    .after exportPending_quiet fun _ => .after parameters_quiet fun _ => ?_
  have hEnd : Quiet (do
        checkImported opened.1 opened.2 node.span
        Build.finishMethod opened.1 opened.2 : Lower Unit) :=
    .bind (.compile _) fun _ => .compile _
  cases hFound : parts.body with
  | none => exact .quiet hEnd
  | some body =>
    have hLess := Node.height_lt_of_node? (hBody.symm.trans hFound)
    exact .bind (methodBody_visits (bodyStatements_lt hLess)) fun _ _ => .quiet hEnd

theorem methodItem_visits : Visits node.height fun d => methodItem d parent node shared := by
  cases shared with
  | true =>
    refine .bind (.quiet singletonParts_changes) fun parts hGives => ?_
    rcases hGives with ⟨_, s, s', hRun⟩
    exact methodFrom_visits (singletonParts_ok hRun)
  | false =>
    refine .bind (.quiet methodParts_changes) fun parts hGives => ?_
    rcases hGives with ⟨_, s, s', hRun⟩
    exact methodFrom_visits (methodParts_ok hRun)

/- Only this directive reads a unit. -/
theorem requireDirective_visits :
    Visits height fun d => requireDirective d parent name relative args span := by
  refine .after directiveOutside_changes fun _ => ?_
  split
  · exact .after nameArgument_changes fun unitName =>
      .after .get fun s => .enter unitName s.asking relative span
  · exact .quiet badArguments_changes

theorem directive_visits : Visits height fun d => directive d parent which name args span := by
  cases which with
  | arg =>
    exact .after directiveMethod_quiet fun m => .quiet (typedDirective_quiet (typeParameter m) _)
  | localVar =>
    exact .after directiveMethod_quiet fun m => .quiet (typedDirective_quiet (typeLocal m) _)
  | result => exact .quiet (.bind resultDirective_changes.quiet fun _ => .pure _)
  | exportName => exact .quiet (.bind exportDirective_quiet fun _ => .pure _)
  | importName =>
    exact .after directiveMethod_quiet fun m => .quiet
      (.bind importDirective_quiet fun _ => .pure _)
  | accessor which =>
    exact .after directiveClass_changes fun c => .quiet
      (.bind (accessorDirective_changes (p := parent)).quiet fun _ => .pure _)
  | attrType =>
    exact .after directiveClass_changes fun c =>
      .quiet (typedDirective_quiet (fun slot => Build.attrType c slot.name slot.ty slot.span) _)
  | inlineText => exact .quiet (.map inlineDirective_quiet)
  | mixin how => exact .quiet (.bind mixinDirective_changes.quiet fun _ => .pure _)
  | require relative => exact .returning _ requireDirective_visits

-- Dispatch

/- What a call is depends on its receiver, and each way visits parts only. -/
theorem receiverSend_visits
    (hReceiver : receiver.height < node.height) (hArgs : ∀ n ∈ args, n.height < node.height) :
    Visits node.height fun d => receiverSend d parent node receiver name args := by
  unfold receiverSend
  split
  · exact .quiet dataAccess_quiet
  refine .after requireMethodScope_quiet fun _ => ?_
  split
  · exact (castCall_visits hReceiver).map some
  refine .after namedClass_quiet fun found => ?_
  cases found with
  | none =>
    refine (valueCall_visits ?_).map some
    exact List.forall_mem_cons.mpr ⟨hReceiver, hArgs⟩
  | some c => exact (classCall_visits hArgs).map some

/- A call without a receiver is a directive or a call of a method. -/
theorem sendNode_visits : Visits node.height fun d => sendNode d parent node := by
  have hArgs : ∀ n ∈ node.nodesFrom 2, n.height < node.height :=
    fun _ => Node.height_lt_of_mem_nodesFrom
  refine .after (.need _) fun name => ?_
  dsimp only
  split
  · split
    · exact directive_visits
    · exact (selfCall_visits hArgs).map some
  · rename_i receiver rest hItems
    have hReceiver : receiver.height < node.height := by
      apply Node.height_lt
      rw [hItems]
      exact (.head _)
    exact receiverSend_visits hReceiver hArgs
  · exact .quiet (.refuse _)

/- Every production only goes into nodes below its own and into units that have just been read. -/
theorem dispatch_visits (parent : NodeId) (node : Node) (keep : Bool) :
    Visits node.height fun d => dispatch d parent node keep := by
  have hScope : ∀ {step : Descent → Lower (Option NodeId)}, Visits node.height step →
        Visits node.height fun d => requireMethodScope parent node >>= fun _ => step d :=
    fun hStep => .after requireMethodScope_quiet fun _ => hStep
  cases hTag : node.tag
  all_goals simp only [dispatch, hTag, isExecutable, Bool.false_eq_true, if_false, if_true]
  case begin | kwbegin =>
    exact statements_visits fun _ => Node.height_lt_of_mem_nodes
  case classDef | moduleDef => exact .returning _ classItem_visits
  case methodDef | singletonDef => exact .returning _ methodItem_visits
  case setConst => exact .quiet (.bind constItem_changes.quiet fun _ => .pure _)
  case setLocal => exact hScope assignment_visits
  case setIvar | setCvar | setGlobal => exact assignment_visits
  case opAssign => exact hScope (operatorAssignment_visits.map some)
  case getLocal | getCvar | getGlobal | const | selfRef | int | str
  | trueLit | falseLit => exact hScope (.quiet (.map operand_quiet))
  case getIvar => exact .quiet (.map operand_quiet)
  case send => exact sendNode_visits
  case cond => exact hScope (conditional_visits.map some)
  case whileLoop | untilLoop => exact hScope (testedLoop_visits.map some)
  case whilePost | untilPost => exact hScope (postTestedLoop_visits.map some)
  case breakLoop | nextLoop => exact hScope (.quiet (.map branch_quiet))
  case ret => exact hScope (returnStatement_visits.map some)
  case conj | disj => exact hScope (logical_visits.map some)
  case negation => exact hScope (negation_visits.map some)
  case singletonClass | float | nilLit | interpolated | orAssign
  | andAssign | array | sym | hash | kwargs | pair | params | param
  | rootScope | other => exact .quiet (.refuse _)

-- Nodes

/- A property of steps with a way into units that their sequences inherit. -/
structure Sequential (C : ∀ {α : Type}, ((SourceUnit → Lower Unit) → Lower α) → Prop) : Prop where
  quiet : ∀ {α : Type} {step : Lower α}, Quiet step → C fun _ => step
  enter : ∀ (node : (SourceUnit → Lower Unit) → NodeId → Node → Bool → Lower (Option NodeId))
      (name : String) (asking : Option String) (relative : Bool) (span : Span),
      C fun way => enterUnit ⟨node way, way⟩ name asking relative span
  bind : ∀ {α β : Type} {step : (SourceUnit → Lower Unit) → Lower α}
      {next : α → (SourceUnit → Lower Unit) → Lower β}, C step →
      (∀ a, (∃ way s s', step way s = .ok a s') → C (next a)) →
      C fun way => step way >>= fun a => next a way

/- The code of a node inherits it, by induction on the height. -/
theorem Sequential.lowerNode {C : ∀ {α : Type}, ((SourceUnit → Lower Unit) → Lower α) → Prop}
    (hC : Sequential C) (height : Nat) : ∀ (parent : NodeId) {node : Node} (keep : Bool),
      node.height ≤ height → C fun way => lowerNode way height parent node keep := by
  induction height with
  | zero => exact fun parent node keep _ => hC.quiet (.refuse _)
  | succ height ih =>
    intro parent node keep hHeight
    have hCode : ∀ {α : Type} {step : Descent → Lower α}, Visits node.height step →
        C fun way => step ⟨Lower.lowerNode way height, way⟩ := by
      intro α step hVisits
      induction hVisits with
      | quiet hQuiet => exact hC.quiet hQuiet
      | node parent keep hPart => exact ih parent keep (by omega)
      | enter name asking relative span => exact hC.enter _ name asking relative span
      | bind _ _ ihStep ihNext =>
        refine hC.bind ihStep fun a hGives => ihNext a ?_
        rcases hGives with ⟨way, hGives⟩
        exact ⟨_, hGives⟩
    refine hC.bind (hCode (dispatch_visits parent node keep)) fun result _ => ?_
    cases result with
    | none => exact hC.quiet (.pure _)
    | some n => exact hC.quiet (.map (.compile _))

end Lower

end RubyWat
