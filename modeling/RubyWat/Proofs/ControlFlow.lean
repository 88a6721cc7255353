import RubyWat.Proofs.Origin

/-
  The control flow of source and of code.

  Key definitions: `Control`, `Dump.Node.controls`, `Code.Steers`, `Translation.Steady`.

  Of a syntax tree, its control flow keeps the loops and what leaves or repeats them, in the
  order in which it is evaluated. Code steers the same way if its branches come in that order,
  each to the block or the loop that the innermost loop around it became.

  Main statement: the code of a construct steers as the construct says (`lowers_steers`).
-/

-- Control Flow Of A Syntax Tree

namespace RubyWat

open Code Dump List Option

variable {fold : Bool} {c : ClassId}
variable {arm f : Fragment} {instr : Instr}
variable {node : Node}
variable {fs gs : List Fragment}
variable {kind : Lower.VariableKind} {index : Nat}
variable {L : Option (NodeId × NodeId)}
variable {p p' : Program}
variable {E : Translation.Env}

/-
  What leaves the innermost loop and what repeats it, each under
  a condition of the loop itself or without one, and whole loops.
-/
inductive Control where
  | exit (tested : Bool)
  | again (tested : Bool)
  | loop (inside : List Control)

namespace Dump

namespace Node

/- Whether a call declares something and has no code. -/
def isDeclaration (node : Node) : Bool :=
  match node.items with
  | .nil :: _ => (node.symbolAt 1).toOption.any (Directive.ofName? · |>.isSome)
  | .node receiver :: _ => Lower.isDataRegistry receiver
  | _ => false

/- The control flow of a node, from that of its parts. -/
def steer (node : Node) (parts : List (List Control)) : List Control :=
  let part (index : Nat) : List Control := parts.getD index []
  match node.tag with
  | .begin | .kwbegin | .ret => parts.flatten
  | .setLocal | .setIvar | .setCvar | .setGlobal => part 1
  | .opAssign => part 2
  | .send =>
    if node.isDeclaration then []
    else part 0 ++ (parts.drop 2).flatten
  | .negation => part 0
  | .conj | .disj => part 0 ++ part 1
  | .cond => part 0 ++ (part 1 ++ part 2)
  | .whileLoop | .untilLoop => [.loop (part 0 ++ .exit true :: (part 1 ++ [.again false]))]
  | .whilePost | .untilPost => [.loop (part 1 ++ (part 0 ++ [.again true]))]
  | .breakLoop => [.exit false]
  | .nextLoop => [.again false]
  | _ => []

def controls (node : Node) : List Control :=
  node.fold steer []

theorem controls_eq (node : Node) :
    node.controls = node.steer (node.items.map fun item => (item.node?.map controls).getD []) :=
  fold_eq node

/- The control flow of the part at an index. -/
theorem getD_controls (node : Node) (index : Nat) : (node.items.map fun item =>
        (item.node?.map controls).getD []).getD index []
      = (node.node? index).toList.flatMap controls := by
  rw [node?, getD_eq_getElem?_getD, getElem?_map]
  rcases node.items[index]? with _ | item
  · rfl
  · cases item <;> simp [Item.node?]

theorem flatten_controls (items : List (Item Node)) :
    (items.map fun item => (item.node?.map controls).getD []).flatten
      = (items.filterMap Item.node?).flatMap controls := by
  rw [← flatMap_node?, flatMap_def]

/- The control flow of the part at an index, if there is one. -/
def partControls (node : Node) (index : Nat) : List Control :=
  (node.node? index).toList.flatMap controls

theorem partControls_of_node? (hPart : node.node? index = some part) :
    node.partControls index = part.controls := by
  simp [partControls, hPart]

theorem partControls_of_nodeAt (hPart : node.nodeAt index = .ok part) :
    node.partControls index = part.controls :=
  partControls_of_node? (node?_of_nodeAt hPart)

/- The control flow of a node, whatever its tag. -/
theorem controls_cases (node : Node) : node.controls = match node.tag with
        | .begin | .kwbegin | .ret => node.nodes.flatMap controls
        | .setLocal | .setIvar | .setCvar | .setGlobal => node.partControls 1
        | .opAssign => node.partControls 2
        | .send =>
          if node.isDeclaration then []
          else node.partControls 0 ++ (node.nodesFrom 2).flatMap controls
        | .negation => node.partControls 0
        | .conj | .disj => node.partControls 0 ++ node.partControls 1
        | .cond => node.partControls 0 ++ (node.partControls 1 ++ node.partControls 2)
        | .whileLoop | .untilLoop =>
          [.loop (node.partControls 0 ++ .exit true :: (node.partControls 1 ++ [.again false]))]
        | .whilePost | .untilPost =>
          [.loop (node.partControls 1 ++ (node.partControls 0 ++ [.again true]))]
        | .breakLoop => [.exit false]
        | .nextLoop => [.again false]
        | _ => [] := by
  rw [controls_eq, steer]
  simp only [getD_controls, ← map_drop, flatten_controls]
  rfl

end Node

end Dump

-- Control Flow Of Code

namespace Code

/- Whether an instruction neither branches nor repeats. -/
def Instr.isStraight : Instr → Bool
  | br _ | brIf _ | loop => false
  | _ => true

/- Whether an instruction does not branch and asks nothing of what is below it. -/
def Instr.isFree : Instr → Bool
  | br _ | brIf _ | loop | const _ | cond => false
  | _ => true

theorem Instr.isStraight_of_isFree (hFree : instr.isFree = true) : instr.isStraight = true := by
  cases instr with
  | br | brIf | loop => cases hFree
  | _ => rfl

theorem Instr.isFree_of_isInner (hInner : instr.isInner = true) : instr.isFree = true := by
  cases instr <;> first | rfl | cases hInner

/- A fragment that is no branch and no loop with its block. -/
def Fragment.IsPlain (f : Fragment) : Prop :=
  f.ty ≠ .none ∨ f.instr.isStraight = true ∧ f.instr ≠ .block

theorem Fragment.IsPlain.of_isArm (hArm : f.IsArm) : f.IsPlain := by
  rcases hArm with hNone | hThen | hElse
  · exact .inl hNone
  · exact .inr (by simp [hThen, Instr.isStraight])
  · exact .inr (by simp [hElse, Instr.isStraight])

theorem Fragment.IsPlain.of_isInner (hInner : f.instr.isInner = true) : f.IsPlain := by
  refine .inr ⟨Instr.isStraight_of_isFree (Instr.isFree_of_isInner hInner), fun hIs => ?_⟩
  rw [hIs] at hInner
  cases hInner

theorem Fragment.IsPlain.of_literal (hConst : f.instr = .const value) : f.IsPlain :=
  .inr (by simp [hConst, Instr.isStraight])

/-
  A fragment that adds nothing to the control flow of its parts. What is below a literal is
  never evaluated, and the arms of a conditional are evaluated without the instruction on top.
-/
structure Fragment.Straight (f : Fragment) (inside : List Control) : Prop where
  isStraight : f.instr.isStraight = true
  literal : ∀ value, f.instr = .const value → inside = []
  arms : f.instr = .cond → ∀ c ∈ f.children.tail, c.IsPlain

theorem Fragment.Straight.of_isFree (hFree : f.instr.isFree = true) : f.Straight inside := by
  refine ⟨Instr.isStraight_of_isFree hFree, ?_, ?_⟩
  · intro value hIs
    rw [hIs] at hFree
    cases hFree
  · intro hIs
    rw [hIs] at hFree
    cases hFree

/-
  Code that branches as a control flow says, inside of a loop and
  the block around it, or inside of none.
-/
inductive Steers : Option (NodeId × NodeId) → List Fragment → List Control → Prop where
  | nil {L : Option (NodeId × NodeId)} : Steers L [] []
  | straight {L : Option (NodeId × NodeId)} {f : Fragment} {fs : List Fragment}
      {as bs : List Control} (hStraight : f.Straight as) (hInside : Steers L f.children as)
      (hRest : Steers L fs bs) : Steers L (f :: fs) (as ++ bs)
  | exit {block loop n : NodeId} {fs : List Fragment} {bs : List Control}
      (hRest : Steers (some (loop, block)) fs bs) :
      Steers (some (loop, block)) (.leaf n (.br block) .none :: fs) (.exit false :: bs)
  | again {block loop n : NodeId} {fs : List Fragment} {bs : List Control}
      (hRest : Steers (some (loop, block)) fs bs) :
      Steers (some (loop, block)) (.leaf n (.br loop) .none :: fs) (.again false :: bs)
  | exitIf {block loop n : NodeId} {cs fs : List Fragment} {as bs : List Control}
      (hTest : Steers (some (loop, block)) cs as) (hRest : Steers (some (loop, block)) fs bs) :
      Steers (some (loop, block)) (⟨n, .brIf block, .none, cs⟩ :: fs) (as ++ .exit true :: bs)
  | againIf {block loop n : NodeId} {cs fs : List Fragment} {as bs : List Control}
      (hTest : Steers (some (loop, block)) cs as) (hRest : Steers (some (loop, block)) fs bs) :
      Steers (some (loop, block)) (⟨n, .brIf loop, .none, cs⟩ :: fs) (as ++ .again true :: bs)
  | loop {L : Option (NodeId × NodeId)} {block loop : NodeId}
      {body fs : List Fragment} {as bs : List Control} (hBody : Steers (some (loop, block)) body as)
      (hRest : Steers L fs bs) :
      Steers L (⟨block, .block, .none, [⟨loop, .loop, .none, body⟩]⟩ :: fs) (.loop as :: bs)

namespace Steers

variable {as bs cs : List Control}

theorem single (hStraight : f.Straight as) (hInside : Steers L f.children as) :
    Steers L [f] as := by
  have hOne := Steers.straight hStraight hInside .nil
  rwa [append_nil] at hOne

theorem leaf (hStraight : instr.isStraight = true) : Steers L [.leaf n instr ty] [] :=
  .single ⟨hStraight, fun _ _ => rfl, by simp⟩ .nil

theorem append (hFirst : Steers L fs as) (hSecond : Steers L gs bs) :
    Steers L (fs ++ gs) (as ++ bs) := by
  induction hFirst with
  | nil => exact hSecond
  | straight hStraight hInside _ _ ih =>
    rw [append_assoc]
    exact .straight hStraight hInside (ih hSecond)
  | exit _ ih => exact .exit (ih hSecond)
  | again _ ih => exact .again (ih hSecond)
  | exitIf hTest _ _ ih =>
    rw [append_assoc]
    exact .exitIf hTest (ih hSecond)
  | againIf hTest _ _ ih =>
    rw [append_assoc]
    exact .againIf hTest (ih hSecond)
  | loop hBody _ _ ih => exact .loop hBody (ih hSecond)

theorem cons_inv (hSteers : Steers L (f :: fs) cs) :
    ∃ as bs, cs = as ++ bs ∧ Steers L [f] as ∧ Steers L fs bs := by
  cases hSteers with
  | straight hStraight hInside hRest => exact ⟨_, _, rfl, .single hStraight hInside, hRest⟩
  | exit hRest => exact ⟨[_], _, rfl, .exit .nil, hRest⟩
  | again hRest => exact ⟨[_], _, rfl, .again .nil, hRest⟩
  | @exitIf _ _ _ _ _ as bs hTest hRest =>
    exact ⟨as ++ [.exit true], bs, by simp, .exitIf hTest .nil, hRest⟩
  | @againIf _ _ _ _ _ as bs hTest hRest =>
    exact ⟨as ++ [.again true], bs, by simp, .againIf hTest .nil, hRest⟩
  | loop hBody hRest => exact ⟨[_], _, rfl, .loop hBody .nil, hRest⟩

theorem append_inv (hSteers : Steers L (fs ++ gs) cs) :
    ∃ as bs, cs = as ++ bs ∧ Steers L fs as ∧ Steers L gs bs := by
  induction fs generalizing cs with
  | nil => exact ⟨[], cs, rfl, .nil, hSteers⟩
  | cons f fs ih =>
    rcases cons_inv hSteers with ⟨as, bs, rfl, hFirst, hRest⟩
    rcases ih hRest with ⟨as', bs', rfl, hMiddle, hLast⟩
    exact ⟨as ++ as', bs', by simp, hFirst.append hMiddle, hLast⟩

/- What is plain has no control flow but that of its parts. -/
theorem inside (hSteers : Steers L [f] as) (hPlain : f.IsPlain) :
    f.Straight as ∧ Steers L f.children as := by
  generalize hList : [f] = fs at hSteers
  cases hSteers with
  | nil => cases hList
  | straight hStraight hInside hRest =>
    cases hList
    cases hRest
    rw [append_nil]
    exact ⟨hStraight, hInside⟩
  | exit | again | exitIf | againIf =>
    cases hList
    rcases hPlain with hNone | ⟨hStraight, _⟩
    · exact absurd rfl hNone
    · cases hStraight
  | loop =>
    cases hList
    rcases hPlain with hNone | ⟨_, hBlock⟩
    · exact absurd rfl hNone
    · exact absurd rfl hBlock

end Steers

end Code

-- Edits That Keep The Control Flow

namespace Translation

/- Code that steers as other code does. -/
def Steady (fs gs : List Fragment) : Prop :=
  ∀ L as, Steers L fs as → Steers L gs as

namespace Steady

variable {hs : List Fragment}

theorem refl (fs : List Fragment) : Steady fs fs :=
  fun _ _ hSteers => hSteers

theorem trans (hFirst : Steady fs gs) (hSecond : Steady gs hs) : Steady fs hs :=
  fun L as hSteers => hSecond L as (hFirst L as hSteers)

theorem append (hFirst : Steady fs gs) (hSecond : Steady fs' gs') :
    Steady (fs ++ fs') (gs ++ gs') := by
  intro L cs hSteers
  rcases hSteers.append_inv with ⟨as, bs, rfl, hLeft, hRight⟩
  exact (hFirst L as hLeft).append (hSecond L bs hRight)

/- Code below an instruction that does not branch. -/
theorem below (hFree : instr.isFree = true) (hSteady : Steady fs gs) :
    Steady fs [⟨n, instr, ty, gs⟩] :=
  fun L as hSteers => .single (.of_isFree hFree) (hSteady L as hSteers)

/- Another instruction or type, or other parts, of what is plain. -/
theorem exchange (hPlain : f.IsPlain) (hId : g.children = f.children)
    (hStraight : ∀ as, f.Straight as → g.Straight as) : Steady [f] [g] := by
  intro L as hSteers
  rcases hSteers.inside hPlain with ⟨hF, hInside⟩
  exact .single (hStraight as hF) (hId ▸ hInside)

/- The parts of what is plain are exchanged. -/
theorem inside (hPlain : f.IsPlain)
    (hTail : (∀ c ∈ f.children.tail, c.IsPlain) → ∀ c ∈ gs.tail, c.IsPlain)
    (hSteady : Steady f.children gs) : Steady [f] [{ f with children := gs }] := by
  intro L as hSteers
  rcases hSteers.inside hPlain with ⟨hStraight, hInside⟩
  refine .single ⟨hStraight.isStraight, hStraight.literal, ?_⟩ (hSteady L as hInside)
  exact fun hCond => hTail (hStraight.arms hCond)

end Steady

theorem controls_of_literals (hSteers : Steers L fs as)
    (hLiterals : ∀ f ∈ fs, ∃ value, f.instr = .const value) : as = [] := by
  induction fs generalizing as with
  | nil =>
    cases hSteers
    rfl
  | cons f fs ih =>
    rw [forall_mem_cons] at hLiterals
    rcases hLiterals.1 with ⟨value, hConst⟩
    rcases hSteers.cons_inv with ⟨as, bs, rfl, hFirst, hRest⟩
    rw [(hFirst.inside (.of_literal hConst)).1.literal value hConst, ih hRest hLiterals.2]
    rfl

theorem literals_of_mapM (hAll : fs.mapM Fragment.literal? = some operands) :
    ∀ f ∈ fs, ∃ value, f.instr = .const value := by
  induction fs generalizing operands with
  | nil => exact forall_mem_nil _
  | cons f fs ih =>
    simp only [mapM_cons, bind_eq_bind, bind_eq_some_iff] at hAll
    rcases hAll with ⟨value, hValue, rest, hRest, _⟩
    rw [forall_mem_cons]
    refine ⟨⟨value, ?_⟩, ih hRest⟩
    unfold Fragment.literal? at hValue
    split at hValue
    · cases hValue
      assumption
    · cases hValue

/- The operands of an operator that is folded are literals. -/
theorem literals_of_foldedValue? (hFolded : f.foldedValue? = some value) :
    ∀ c ∈ f.children, ∃ value, c.instr = .const value := by
  rw [Fragment.foldedValue?, bind_eq_bind, bind_eq_some_iff] at hFolded
  rcases hFolded with ⟨operands, hAll, _⟩
  exact literals_of_mapM hAll

theorem steady_folded (hInner : f.instr.isInner = true) : Steady [f] [f.folded fold] := by
  intro L as hSteers
  unfold Fragment.folded
  split
  · split
    · rename_i hFolded
      have hInside := (hSteers.inside (.of_isInner hInner)).2
      rw [controls_of_literals hInside (literals_of_foldedValue? hFolded)]
      exact .leaf rfl
    · exact hSteers
  · exact hSteers

/- One more part at the end, where an old one may have been. -/
theorem isPlain_tail (hBefore : ∀ c ∈ (before ++ fs).tail, c.IsPlain) (hLast : last.IsPlain) :
    ∀ c ∈ (before ++ [last]).tail, c.IsPlain := by
  cases before with
  | nil => simp
  | cons f before =>
    rw [cons_append, tail_cons, forall_mem_append] at hBefore ⊢
    exact ⟨hBefore.1, forall_mem_singleton.mpr hLast⟩

/- All changes of code keep its control flow. -/
theorem Reshapes.steady (hReshapes : Reshapes (fun _ => True) fs gs) : Steady fs gs := by
  induction hReshapes with
  | refl => exact .refl _
  | trans _ _ ihFirst ihSecond => exact ihFirst.trans ihSecond
  | append _ _ ihFirst ihSecond => exact ihFirst.append ihSecond
  | const =>
    intro L as hSteers
    cases hSteers
    exact .leaf rfl
  | node hInner _ _ ih => exact .below (Instr.isFree_of_isInner hInner) ih
  | sequence hInstr _ _ ih =>
    refine .below ?_ ih
    rcases hInstr with rfl | rfl | rfl <;> rfl
  | cond hArms _ ih =>
    exact fun L as hSteers => .single ⟨rfl, by simp, fun _ c hMem => .of_isArm (hArms c hMem)⟩
      (ih L as hSteers)
  | literal hConst =>
    exact .exchange (.of_literal hConst) rfl
      fun as hF => ⟨rfl, fun _ _ => hF.literal _ hConst, by simp⟩
  | retype hNone =>
    exact .exchange (.inl hNone) rfl fun as hF => ⟨hF.isStraight, hF.literal, hF.arms⟩
  | folded hInner => exact steady_folded hInner
  | drop => exact .below rfl (.refl _)
  | last hArm hChildren hNone _ ih =>
    refine .inside (.of_isArm hArm) ?_ ?_
    · rw [hChildren]
      exact fun hTail => isPlain_tail hTail (.inl hNone)
    · rw [hChildren]
      exact Steady.append (.refl _) ih
  | @zero _ _ arm hArm =>
    refine .inside (.of_isArm hArm) ?_ ?_
    · rw [← append_nil arm.children]
      intro hTail
      rw [append_nil]
      exact isPlain_tail hTail (.of_literal rfl)
    · intro L as hSteers
      rw [← append_nil as]
      exact hSteers.append (.leaf rfl)
  | empty hArm hNil =>
    intro L as hSteers
    exact hNil ▸ (hSteers.inside (.of_isArm hArm)).2

-- Operands And Declarations

open Lower (VariableKind)

theorem Sends.controls (hSend : Sends node receiver name args)
    (hCode : node.isDeclaration = false) :
    node.controls = (receiver.toList ++ args).flatMap (·.controls) := by
  rw [Node.controls_cases]
  cases hSend with
  | plain hTag hItems | toReceiver hTag hItems =>
    simp [hTag, hCode, Node.partControls, Node.node?, hItems, Item.node?]

/- What only declares something has no control flow. -/
theorem Sends.controls_of_declaration (hSend : Sends node receiver name args)
    (hNone : node.isDeclaration = true) : node.controls = [] := by
  have hTag : node.tag = .send := by
    cases hSend <;> assumption
  rw [Node.controls_cases]
  simp only [hTag, hNone, if_true]

theorem Sends.isDeclaration_plain (hSend : Sends node none name args) :
    node.isDeclaration = (Directive.ofName? name).isSome := by
  cases hSend with
  | plain _ hItems hName => simp [Node.isDeclaration, hItems, hName, Except.toOption]

theorem Sends.isDeclaration_toReceiver (hSend : Sends node (some receiver) name args) :
    node.isDeclaration = Lower.isDataRegistry receiver := by
  cases hSend with
  | toReceiver _ hItems => simp [Node.isDeclaration, hItems]

theorem Operands.steers (hOperand : Operands E p node p' f) : Steers L [f] node.controls := by
  cases hOperand with
  | int hTag | trueLit hTag | falseLit hTag | str hTag | const hTag
  | selfRef hTag =>
    simp only [Node.controls_cases, hTag]
    exact .leaf rfl
  | read hKind _ hReads =>
    have hNone : node.controls = [] := by
      rw [Node.controls_cases]
      unfold VariableKind.ofRead? at hKind
      split at hKind <;> simp_all
    rw [hNone]
    exact Reshapes.steady (hReads.reshapes fun _ _ _ _ => trivial) L [] .nil
  | label hSend hData =>
    rw [hSend.controls_of_declaration (hSend.isDeclaration_toReceiver.trans hData)]
    exact .leaf rfl
  | inlineText hSend =>
    rw [hSend.controls_of_declaration (hSend.isDeclaration_plain.trans rfl)]
    exact .leaf rfl

theorem Directs.controls (hDirects : Directs m p node p') : node.controls = [] := by
  cases hDirects with
  | arg hSend | localVar hSend | result hSend | exportName hSend
  | importName hSend => exact hSend.controls_of_declaration (hSend.isDeclaration_plain.trans rfl)
  | data hSend hData =>
    exact hSend.controls_of_declaration (hSend.isDeclaration_toReceiver.trans hData)

-- Constructs

/- The control flow of what is translated. -/
def Job.controls : Job → List Control
  | .node n _ | .code n _ => n.controls
  | .statements nodes _ | .values nodes => nodes.flatMap (·.controls)

theorem controls_assignment
    (hKind : VariableKind.ofAssignment? node.tag = some kind) (hValue : node.node? 1 = some value) :
    node.controls = value.controls := by
  rw [Node.controls_cases, ← Node.partControls_of_node? hValue]
  unfold VariableKind.ofAssignment? at hKind
  split at hKind <;> simp_all

theorem controls_arguments (hArgs : CastArguments args tyNode signed)
    (hTy : TypeNamed p c tyNode ty) : args.flatMap (·.controls) = [] := by
  have hType : tyNode.controls = [] := by
    rw [Node.controls_cases]
    simp only [TypeNamed, typeText?] at hTy
    split at hTy <;> simp_all
  cases hArgs with
  | unsigned => simp [hType]
  | @signed _ flag hFlag =>
    have hNone : flag.controls = [] := by
      rw [Node.controls_cases]
      simp only [Node.symbolLiteral?] at hFlag
      split at hFlag <;> simp_all
    simp [hType, hNone]

/- The receiver that names a class has no control flow. -/
theorem NamesClass.controls (hClass : NamesClass m p receiver (some c)) :
    receiver.controls = [] := by
  cases hClass with
  | const hTag | ownClass hTag =>
    rw [Node.controls_cases]
    simp only [hTag]

/- The code of a construct steers as the construct says. -/
theorem lowers_steers {job : Job} {out : Option Fragment} (hLowers : Lowers E job p p' gs out) :
    Steers E.loop (gs ++ out.toList) job.controls := by
  induction hLowers with
  | @something _ _ _ _ _ gs _ _ _ hDiscards ih =>
    exact (hDiscards.reshapes.replace gs).steady _ _ ih
  | nothing _ ih => exact ih
  | done | noValues => exact .nil
  | last _ ih => simpa [Job.controls] using ih
  | next _ _ ihNode ihRest
  | value _ _ _ ihNode ihRest => simpa [Job.controls] using ihNode.append ihRest
  | @sequence _ _ _ _ _ _ node hTag _ ih =>
    have hControls : node.controls = node.nodes.flatMap (·.controls) := by
      rw [Node.controls_cases]
      rcases hTag with hTag | hTag <;> simp only [hTag]
    rw [Job.controls, hControls]
    exact ih
  | operand hOperand => exact hOperand.steers
  | directive hDirects =>
    rw [Job.controls, hDirects.controls]
    exact .nil
  | assign hKind _ hNode _ hAssigns ih =>
    rw [Job.controls, controls_assignment hKind hNode]
    exact (hAssigns.reshapes fun _ _ _ => trivial).steady _ _ (by simpa [Job.controls] using ih)
  | @operatorAssign _ _ argument _ _ _ _ _ _ _ _ _ _ _ _ _ _ node hTag _ _ hArgument _ _ hReads _
      hApplies hAssigns ih =>
    rw [Job.controls, Node.controls_cases]
    simp only [hTag, Node.partControls_of_nodeAt hArgument]
    have hRead : Reshapes (fun _ => True) [] _ := hReads.reshapes fun _ _ _ _ => trivial
    exact ((hRead.idle_cons (.refl _)).trans (hApplies.reshapes.trans
      (hAssigns.reshapes fun _ _ _ => trivial))).steady _ _ (by simpa [Job.controls] using ih)
  | selfCall hSend hDirective _ _ hCalls ih =>
    have hCode := hSend.isDeclaration_plain
    rw [hDirective] at hCode
    rw [Job.controls, hSend.controls hCode]
    exact hCalls.reshapes.steady _ _ (by simpa [Job.controls] using ih)
  | classCall hSend hData _ hClass _ _ hCalls ih =>
    have hCode := hSend.isDeclaration_toReceiver.trans hData
    rw [Job.controls, hSend.controls hCode]
    refine hCalls.reshapes.steady _ _ ?_
    simpa [Job.controls, hClass.controls] using ih
  | @castCall _ _ _ _ _ _ _ _ gs _ _ _ _ hSend hData hArgs hTy _ _ hCasts ih =>
    have hCode := hSend.isDeclaration_toReceiver.trans hData
    rw [Job.controls, hSend.controls hCode, flatMap_append, controls_arguments hArgs hTy]
    refine (hCasts.reshapes.replace gs).steady _ _ ?_
    simpa [Job.controls] using ih
  | valueCall hSend hData _ _ _ hApplies ih =>
    have hCode := hSend.isDeclaration_toReceiver.trans hData
    rw [Job.controls, hSend.controls hCode]
    exact hApplies.reshapes.steady _ _ (by simpa [Job.controls] using ih)
  | negation hTag hOperand _ hApplies ih =>
    rw [Job.controls, Node.controls_cases]
    simp only [hTag, Node.partControls_of_nodeAt hOperand]
    exact hApplies.reshapes.steady _ _ (by simpa [Job.controls] using ih)
  | @logical isAnd _ _ _ _ _ _ _ _ _ _ hTag hLeft hRight _ hShort ih =>
    rw [Job.controls, Node.controls_cases]
    simp only [hTag]
    cases isAnd <;>
      simp only [Bool.false_eq_true, if_false, if_true, Node.partControls_of_nodeAt hLeft,
        Node.partControls_of_nodeAt hRight] <;>
      exact hShort.reshapes.steady _ _ (by simpa [Job.controls] using ih)
  | @ifThen _ _ _ _ gs _ _ _ _ hs out _ a _ node hTag hTest hElse _ _ hTests _ hFinish ihTest
      ihThen =>
    have hNothing : node.partControls 2 = [] := by simp [Node.partControls, hElse]
    rw [Job.controls, Node.controls_cases]
    simp only [hTag, Node.partControls_of_nodeAt hTest, hNothing]
    refine (reshapes_conditional hFinish hTests (by simp) (by simp)).steady _ _ ?_
    have hHead := (hTests.reshapes.replace gs).steady _ _ ihTest
    have hThen : Steers _ [⟨a, .thenArm, .none, hs ++ out.toList⟩] _ :=
      .single (.of_isFree rfl) ihThen
    simpa [Job.controls, Node.partControls] using hHead.append hThen
  | @ifThenElse _ _ _ _ _ gs _ _ _ _ hs out _ ks out' _ a b _ node hTag hTest hElse _ _ hTests _ _
      hFinish ihTest ihThen ihElse =>
    rw [Job.controls, Node.controls_cases]
    simp only [hTag, Node.partControls_of_nodeAt hTest, Node.partControls_of_node? hElse]
    refine (reshapes_conditional hFinish hTests (by simp) (by simp)).steady _ _ ?_
    have hHead := (hTests.reshapes.replace gs).steady _ _ ihTest
    have hThen : Steers _ [⟨a, .thenArm, .none, hs ++ out.toList⟩] _ :=
      .single (.of_isFree rfl) ihThen
    have hSecond : Steers _ [⟨b, .elseArm, .none, ks ++ out'.toList⟩] _ :=
      .single (.of_isFree rfl) ihElse
    simpa [Job.controls, Node.partControls] using hHead.append (hThen.append hSecond)
  | @testedLoop isWhile test _ _ _ _ cs _ _ _ _ _ _ _ _ _ node hTag hTest _ hBranch _ ihTest
      ihBody =>
    have hControls : node.controls = [.loop (test.controls
            ++ .exit true :: (node.partControls 1 ++ [.again false]))] := by
      rw [Node.controls_cases, ← Node.partControls_of_nodeAt hTest]
      cases isWhile <;> simp only [hTag, Bool.false_eq_true, if_false, if_true]
    rw [Job.controls, hControls]
    refine .loop (.exitIf ?_ ?_) .nil
    · refine (hBranch.reshapes.cons (.refl cs)).steady _ _ ?_
      simpa [Job.controls] using ihTest
    · exact ihBody.append (.again .nil)
  | @postTestedLoop isWhile test body _ _ _ _ _ _ _ cs _ _ _ _ _ node hTag hTest hNode _ _ hBranch
      ihBody ihTest =>
    have hControls : node.controls = [.loop (body.controls
            ++ (test.controls ++ [.again true]))] := by
      rw [Node.controls_cases, ← Node.partControls_of_nodeAt hTest, ←
        Node.partControls_of_nodeAt hNode]
      cases isWhile <;> simp only [hTag, Bool.false_eq_true, if_false, if_true]
    rw [Job.controls, hControls]
    refine .loop (ihBody.append (.againIf ?_ .nil)) .nil
    refine (hBranch.reshapes.cons (.refl cs)).steady _ _ ?_
    simpa [Job.controls] using ihTest
  | breakLoop hTag _ hLoop =>
    rw [Job.controls, Node.controls_cases, hLoop]
    simp only [hTag]
    exact .exit .nil
  | nextLoop hTag _ hLoop =>
    rw [Job.controls, Node.controls_cases, hLoop]
    simp only [hTag]
    exact .again .nil
  | ret hTag _ _ hReturns ih =>
    rw [Job.controls, Node.controls_cases]
    simp only [hTag]
    exact hReturns.reshapes.steady _ _ (by simpa [Job.controls] using ih)

-- Methods

/- The statements of a method. -/
theorem lowersBody_steers (hBody : LowersBody E nodes p p' fs) :
    Steers E.loop fs (nodes.flatMap (·.controls)) := by
  induction hBody with
  | nil => exact .nil
  | last hNode => simpa [Job.controls] using lowers_steers hNode
  | next hNode _ ih => simpa [Job.controls] using (lowers_steers hNode).append ih

/- The code of a method branches inside of the method only. -/
theorem Coded.steers (hCoded : Coded fs) : ∃ cs, Steers none fs cs := by
  cases hCoded with
  | written hBody hFinish => exact ⟨_, hFinish.reshapes.steady _ _ (lowersBody_steers hBody)⟩
  | provided hProvides => exact ⟨[], hProvides.reshapes.steady _ _ .nil⟩

end Translation

end RubyWat
