import RubyWat.Proofs.Computation
import RubyWat.Proofs.Reading

/-
  From the rules of the translation to those for expressions.

  Key definitions: `Integral.declared`, `Integral.Scoped`, `Integral.Produces`.

  The rules of the translation are about the nodes that expressions are read from, and the
  variables of a method are declared on the way.  Widths of variables never change once they are
  known, so that all of the code of a method can be looked at with the variables it has in the
  end.

  Main statement: what the rules of the translation say about nodes, the simpler rules say about
  the expressions that are read from them (`lowers_emits`).
-/

-- Scopes

namespace RubyWat

open Code Dump Integral List Option Method

variable {fold keep truth : Bool} {c c' f g g' : Fragment}
variable {n : NodeId} {node node' receiver : Node}
variable {op : Binary} {e test : Expr}
variable {Γ Γ' : Scope} {S : Setting}
variable {w : Width} {fs gs hs : List Fragment}
variable {args nodes : List Node} {body es : List Expr}
variable {m : MethodId} {L : Option (NodeId × NodeId)}
variable {out : Option Fragment} {p p' p₁ : Program}
variable {x : RubyWat.Method} {name : String} {E : Translation.Env}

namespace Integral

open Translation

/- Variables with a new one, unless there is one of its name. -/
def extended (Γ : Scope) (x : String) (w : Width) : Scope :=
  if (Γ.lookup x).isSome then Γ else Γ ++ [(x, w)]

/- Variables with those that are declared in statements. -/
def declared (Γ : Scope) (es : List Expr) : Scope :=
  (assignedIn es).foldl declare Γ

/- Variables that keep their widths among more of them. -/
def Within (Γ Γ' : Scope) : Prop :=
  ∀ x w, Γ.lookup x = some w → Γ'.lookup x = some w

theorem Within.refl (Γ : Scope) : Within Γ Γ :=
  fun _ _ hVar => hVar

theorem Within.trans (hFirst : Within Γ Γ₁) (hSecond : Within Γ₁ Γ') : Within Γ Γ' :=
  fun x w hVar => hSecond x w (hFirst x w hVar)

theorem within_extended (Γ : Scope) (x : String) (w : Width) : Within Γ (extended Γ x w) := by
  intro y a hVar
  unfold extended
  split
  · exact hVar
  · rw [lookup_append, hVar]
    rfl

theorem lookup_extended (Γ : Scope) (x : String) (w : Width) :
    (extended Γ x w).lookup x = some ((Γ.lookup x).getD w) := by
  unfold extended
  rcases hVar : Γ.lookup x with _ | a
  · simp [lookup_append, hVar]
  · simpa using hVar

theorem declare_eq (Γ : Scope) (x : String) (e : Expr) :
    declare Γ (x, e) = extended Γ x ((typeOf Γ e).getD .narrow) :=
  rfl

theorem within_foldl (Γ : Scope) (assignments : List (String × Expr)) :
    Within Γ (assignments.foldl declare Γ) := by
  induction assignments generalizing Γ with
  | nil => exact .refl Γ
  | cons assignment rest ih => exact (within_extended Γ _ _).trans (ih _)

theorem within_declared (Γ : Scope) (es : List Expr) : Within Γ (declared Γ es) :=
  within_foldl Γ _

theorem declared_append (Γ : Scope) (es es' : List Expr) :
    declared Γ (es ++ es') = declared (declared Γ es) es' := by
  rw [declared, assignedIn_append, foldl_append]
  rfl

theorem declared_single (Γ : Scope) (e : Expr) : declared Γ [e] = (assigned e).foldl declare Γ := by
  simp [declared, assignedIn]

/- An expression declares what its parts declare. -/
theorem declared_parts (hParts : assigned e = assignedIn es) : declared Γ [e] = declared Γ es := by
  rw [declared_single, hParts]
  rfl

-- Slots

/- The slot of a variable in a method. -/
def slotOf (typed : String × Width) : Slot :=
  ⟨typed.1, typed.2.type⟩

/-
  A method inside of which certain variables are declared.  But
  for its local variables, it is what it was when its code began.
-/
structure Scoped (x : RubyWat.Method) (m : MethodId) (Γ : Scope) (p : Program) : Prop where
  isIn : m.index < p.methods.size
  method_eq : p.method m = { x with locals := (p.method m).locals }
  slots_eq : x.params ++ (p.method m).locals = Γ.map slotOf

theorem find?_slotOf (Γ : Scope) (x : String) :
    ((Γ.map slotOf).find? (·.name == x)).map (·.ty) = (Γ.lookup x).map Width.type := by
  induction Γ with
  | nil => rfl
  | cons slot Γ ih =>
    rcases slot with ⟨y, w⟩
    rw [map_cons, find?_cons, lookup_cons]
    have hSame : ((slotOf (y, w)).name == x) = (x == y) := BEq.comm
    rw [hSame]
    cases x == y
    · exact ih
    · rfl

namespace Scoped

theorem slotType?_eq (hScoped : Scoped x m Γ p) (hClass : x.scope = .onClass) (name : String) :
    (p.method m).slotType? name = (Γ.lookup name).map Width.type := by
  have hParams : (p.method m).allParams = x.params := by
    rw [hScoped.method_eq]
    simp [allParams, receiver, isInstance, hClass]
  rw [slotType?, hParams, hScoped.slots_eq]
  exact find?_slotOf Γ name

/- A variable that is assigned is declared. -/
theorem declareLocal (hScoped : Scoped x m Γ p)
    (hClass : x.scope = .onClass) (hDeclare : (p.method m).declareLocal name w.type = (ty, y)) :
    Scoped x m (extended Γ name w) (p.modifyMethod m fun _ => y)
      ∧ ty = ((Γ.lookup name).getD w).type := by
  have hSlot := hScoped.slotType?_eq hClass name
  have hSize : (p.modifyMethod m fun _ => y).methods.size = p.methods.size := by
    simp [Program.modifyMethod]
  have hSelf : (p.modifyMethod m fun _ => y).method m = y :=
    Program.method_modifyMethod_self _ hScoped.isIn
  unfold Method.declareLocal at hDeclare
  unfold extended
  rcases hVar : Γ.lookup name with _ | a
  · rw [hSlot, hVar] at hDeclare
    cases hDeclare
    refine ⟨⟨hSize ▸ hScoped.isIn, ?_, ?_⟩, rfl⟩
    · rw [hSelf]
      exact congrArg
        (fun z : RubyWat.Method => { z with locals := (p.method m).locals ++ [slotOf (name, w)] })
        hScoped.method_eq
    · rw [hSelf]
      dsimp only
      rw [← append_assoc, hScoped.slots_eq]
      simp [slotOf]
  · rw [hSlot, hVar] at hDeclare
    cases hDeclare
    refine ⟨⟨hSize ▸ hScoped.isIn, ?_, ?_⟩, rfl⟩
    · rw [hSelf]
      exact hScoped.method_eq
    · rw [hSelf]
      exact hScoped.slots_eq

end Scoped

/- A value that is assigned to a local variable. -/
theorem stores_of_assigns (hScoped : Scoped x E.method Γ p) (hClass : x.scope = .onClass)
    (hTy : f.ty = w.type) (hAssigns : Assigns E name keep p ⟨n, .nop, .none, [f]⟩ .localVar p' g) :
    Scoped x E.method (extended Γ name w) p'
      ∧ ∀ Γ', Within (extended Γ name w) Γ' → Stores Γ' name keep f g := by
  cases hAssigns with
  | @localVar before value ty y value' hChildren hNone hDeclare hCast =>
    rcases append_eq_singleton_iff.mp hChildren.symm with ⟨rfl, hValue⟩ | ⟨_, hNil⟩
    · cases hValue
      rw [hTy] at hDeclare
      rcases hScoped.declareLocal hClass hDeclare with ⟨hAfter, rfl⟩
      refine ⟨hAfter, fun Γ' hWithin => ?_⟩
      exact .intro (hWithin _ _ (lookup_extended Γ name w)) hCast
    · cases hNil

-- Operators On Parts

/- A method that is called on an integer is an operator. -/
theorem operates_of_applies {receiver : Fragment} {args : List Fragment}
    (hChildren : f.children = receiver :: args) (hTy : receiver.ty = w.type)
    (hApplies : Applies fold name p f p' g) : Operates fold name p f p' g := by
  cases hApplies with
  | operator hOperates => exact hOperates
  | method hFirst hRef | forward hFirst hRef =>
    cases hChildren.symm.trans hFirst
    rw [hTy] at hRef
    cases hRef

/- A value that has to be there has a width. -/
theorem Emits.width (hEmits : Emits S L (.one e true f)) (hNone : f.ty ≠ .none) :
    ∃ w, typeOf S.scope e = some w ∧ f.ty = w.type := by
  have hTy := (emits_typed hEmits).resolve_right (by simp)
  rcases hType : typeOf S.scope e with _ | w
  · rw [hType] at hTy
    exact absurd hTy hNone
  · rw [hType] at hTy
    exact ⟨w, rfl, hTy⟩

theorem Emits.of_nil (hEmits : Emits S L (.all [] keep fs)) : fs = [] := by
  cases hEmits
  rfl

/- A single value that is wanted. -/
theorem Emits.single (hEmits : Emits S L (.all [e] true (fs ++ [f]))) :
    fs = [] ∧ Emits S L (.one e true f) := by
  generalize hAll : fs ++ [f] = gs at hEmits
  cases hEmits with
  | blank => simp at hAll
  | last hOne hDiscards =>
    rcases append_eq_singleton_iff.mp hAll with ⟨rfl, hLast⟩ | ⟨_, hNil⟩
    · cases hLast
      cases hDiscards
      exact ⟨rfl, hOne⟩
    · cases hNil

-- Translation

/- The only expression that a node stands for. -/
def readValue (node : Node) : Option Expr :=
  (read node).bind single?

/- What is to be translated, as expressions. -/
def saidBy : Translation.Job → Option (List Expr)
  | .node node _ | .code node _ => read node
  | .statements nodes _ => readAll nodes
  | .values nodes => nodes.mapM readValue

/- The code of statements, of which the last one may stay behind. -/
def Leaves (S : Setting) (L : Option (NodeId × NodeId))
    (es : List Expr) (keep : Bool) (gs : List Fragment) (out : Option Fragment) : Prop :=
  Emits S L (.all es keep (gs ++ out.toList)) ∧ ∀ f ∈ out, keep = true ∨ f.ty = .none

/-
  The code of what is to be translated.  Before an unwanted value
  is dropped, it is that of an expression or of statements.
-/
def Produces (S : Setting) (L : Option (NodeId × NodeId))
    (es : List Expr) (gs : List Fragment) (out : Option Fragment) : Translation.Job → Prop
  | .node _ keep | .statements _ keep => Leaves S L es keep gs out
  | .code _ keep =>
    Leaves S L es keep gs out ∨ ∃ e f, es = [e] ∧ gs = [] ∧ out = some f ∧ Emits S L (.one e keep f)
  | .values _ => Forall₂ (fun e f => Emits S L (.one e true f) ∧ f.ty ≠ .none) es gs

/- The settings in which the code of a method can be looked at. -/
structure Suits (S : Setting) (x : RubyWat.Method) (fold : Bool) (Γ : Scope) : Prop where
  fold_eq : S.fold = fold
  result_eq : S.result = x.result
  within : Within Γ S.scope

theorem Suits.weaken (hSuits : Suits S x fold Γ') (hWithin : Within Γ Γ') : Suits S x fold Γ :=
  ⟨hSuits.fold_eq, hSuits.result_eq, hWithin.trans hSuits.within⟩

/-
  What a translation does: it declares the variables that are
  assigned, and its code follows the rules for expressions.
-/
structure Translates (x : RubyWat.Method) (E : Env) (job : Translation.Job) (es : List Expr)
    (Γ : Scope) (p' : Program) (gs : List Fragment) (out : Option Fragment) : Prop where
  slots : Scoped x E.method (declared Γ es) p'
  produces : ∀ S, Suits S x E.fold (declared Γ es) → Produces S E.loop es gs out job

theorem readValue_eq_some : readValue node = some e ↔ read node = some [e] := by
  simp only [readValue, bind_eq_some_iff, single?_eq_some_iff, exists_eq_right]

/- An expression whose code is known. -/
theorem Translates.one (hScoped : Scoped x E.method (declared Γ [e]) p')
    (hEmits : ∀ S, Suits S x E.fold (declared Γ [e]) → Emits S E.loop (.one e keep f)) :
    Translates x E (.code node keep) [e] Γ p' [] (some f) :=
  ⟨hScoped, fun S hSuits => .inr ⟨e, f, rfl, rfl, rfl, hEmits S hSuits⟩⟩

/- The setting that has just the variables that are declared. -/
theorem suits_self (x : RubyWat.Method) (fold : Bool) (Γ : Scope) :
    Suits ⟨fold, Γ, x.result⟩ x fold Γ :=
  ⟨rfl, rfl, .refl Γ⟩

/- A value whose code is known, with the width that it has when the variables in it are declared. -/
structure Valued (x : RubyWat.Method) (E : Env) (e : Expr) (Γ : Scope) (f : Fragment) (w : Width) :
    Prop where
  ty_eq : f.ty = w.type
  typeOf_eq : typeOf Γ e = some w
  emits : ∀ S, Suits S x E.fold Γ → Emits S E.loop (.one e true f)

theorem valued_of_emits
    (hEmits : ∀ S, Suits S x E.fold Γ → Emits S E.loop (.one e true f) ∧ f.ty ≠ .none) :
    ∃ w, Valued x E e Γ f w := by
  rcases hEmits _ (suits_self x E.fold Γ) with ⟨hSelf, hNone⟩
  rcases hSelf.width hNone with ⟨w, hType, hTy⟩
  exact ⟨w, hTy, hType, fun S hSuits => (hEmits S hSuits).1⟩

theorem Valued.weaken (hValued : Valued x E e Γ f w) (hWithin : Within Γ Γ') (S : Setting)
    (hSuits : Suits S x E.fold Γ') : Emits S E.loop (.one e true f) :=
  hValued.emits S (hSuits.weaken hWithin)

/- The value of a single node. -/
theorem Translates.single (hValues : Translates x E (.values [node]) [e] Γ p' gs none) :
    ∃ f w, gs = [f] ∧ Valued x E e (declared Γ [e]) f w := by
  have hSelf := suits_self x E.fold (declared Γ [e])
  rcases gs with _ | ⟨f, _ | ⟨g, gs⟩⟩
  · nomatch hValues.produces _ hSelf
  · rcases valued_of_emits fun S hSuits =>
      (forall₂_cons.mp (hValues.produces S hSuits)).1 with
      ⟨w, hValued⟩
    exact ⟨f, w, rfl, hValued⟩
  · nomatch hValues.produces _ hSelf

/- The values of two nodes. -/
theorem Translates.pair (hValues : Translates x E (.values [node, node']) [e, e'] Γ p' gs none) :
    ∃ f g w w', gs = [f, g] ∧ Valued x E e (declared Γ [e, e']) f w
      ∧ Valued x E e' (declared Γ [e, e']) g w' := by
  have hSelf := suits_self x E.fold (declared Γ [e, e'])
  rcases gs with _ | ⟨f, _ | ⟨g, _ | ⟨h, gs⟩⟩⟩
  · nomatch hValues.produces _ hSelf
  · nomatch hValues.produces _ hSelf
  · have hPair := fun S hSuits => forall₂_cons.mp (hValues.produces S hSuits)
    rcases valued_of_emits fun S hSuits => (hPair S hSuits).1 with ⟨w, hFirst⟩
    rcases valued_of_emits fun S hSuits =>
      (forall₂_cons.mp (hPair S hSuits).2).1 with ⟨w', hSecond⟩
    exact ⟨f, g, w, w', rfl, hFirst, hSecond⟩
  · nomatch hValues.produces _ hSelf

-- Statements

theorem Leaves.discards (hLeaves : Leaves S L es keep gs (some f)) (hDiscards : Discards keep f g) :
    Leaves S L es keep gs (some g) := by
  cases hDiscards with
  | keep => exact hLeaves
  | drop hNone =>
    rcases hLeaves.2 f rfl with hKeep | hTy
    · cases hKeep
    · exact absurd hTy hNone

theorem Translates.something (hCode : Translates x E (.code node keep) es Γ p' gs (some f))
    (hDiscards : Discards keep f g) : Translates x E (.node node keep) es Γ p' gs (some g) := by
  refine ⟨hCode.slots, fun S hSuits => ?_⟩
  rcases hCode.produces S hSuits with hLeaves | ⟨e, _, rfl, rfl, ⟨⟩, hOne⟩
  · exact hLeaves.discards hDiscards
  refine ⟨.last hOne hDiscards, ?_⟩
  rintro _ ⟨⟩
  cases keep with
  | true => exact .inl rfl
  | false => exact .inr hDiscards.blank

theorem Translates.nothing (hCode : Translates x E (.code node keep) es Γ p' gs none) :
    Translates x E (.node node keep) es Γ p' gs none := by
  refine ⟨hCode.slots, fun S hSuits => ?_⟩
  rcases hCode.produces S hSuits with hLeaves | ⟨e, _, _, _, ⟨⟩, _⟩
  exact hLeaves

theorem Translates.next {next : Node} {out' : Option Fragment} {es' : List Expr}
    (hNode : Translates x E (.node node false) es Γ p₁ gs out)
    (hRest : Translates x E (.statements (next :: nodes) keep) es' (declared Γ es) p' hs out')
    (hSome : es' ≠ []) :
    Translates x E (.statements (node :: next :: nodes) keep)
      (es ++ es') Γ p' (gs ++ out.toList ++ hs) out' := by
  refine ⟨declared_append Γ es es' ▸ hRest.slots, fun S hSuits => ?_⟩
  rw [declared_append] at hSuits
  have hFirst := hNode.produces S (hSuits.weaken (within_declared _ es'))
  have hSecond := hRest.produces S hSuits
  refine ⟨?_, hSecond.2⟩
  rw [append_assoc _ hs]
  exact hFirst.1.append hSecond.1 hSome

theorem Translates.value (hNode : Translates x E (.node node true) [e] Γ p₁ gs (some f))
    (hNone : f.ty ≠ .none) (hRest : Translates x E (.values nodes) es (declared Γ [e]) p' hs none) :
    Translates x E (.values (node :: nodes)) (e :: es) Γ p' (gs ++ f :: hs) none := by
  have hSplit : declared Γ (e :: es) = declared (declared Γ [e]) es := declared_append Γ [e] es
  refine ⟨hSplit ▸ hRest.slots, fun S hSuits => ?_⟩
  rw [hSplit] at hSuits
  have hFirst := hNode.produces S (hSuits.weaken (within_declared _ es))
  rcases hFirst.1.single with ⟨rfl, hOne⟩
  exact .cons ⟨hOne, hNone⟩ (hRest.produces S hSuits)

-- Expressions

theorem says_of_tag (hRead : read node = some es) (hTag : node.tag = tag) : Says node tag es :=
  hTag ▸ says_of_read hRead

theorem readAt_of_nodeAt (hNode : node.nodeAt i = .ok node') : readAt node i = read node' :=
  readAt_of_node? (Node.node?_of_nodeAt hNode)

/- A node of a kind that says nothing. -/
theorem read_eq_none (tag : Tag) (hTag : node.tag = tag) (hNone : ∀ es, ¬ Says node tag es) :
    read node = none := by
  rcases hRead : read node with _ | es
  · rfl
  · exact absurd (hTag ▸ says_of_read hRead) (hNone es)

theorem read_dataRegistry (hData : Lower.isDataRegistry node = true) : read node = none := by
  refine read_eq_none .const ?_ (by rintro _ ⟨⟩)
  rcases node with ⟨tag, items, span⟩
  unfold Lower.isDataRegistry Node.constPath? at hData
  split at hData
  · rename_i hNode
    cases hNode
    rfl
  · rename_i hNode
    cases hNode
    rfl
  · cases hData

/- A call without a receiver is no expression. -/
theorem read_plainSend (hSend : Sends node none name args) : read node = none := by
  rcases hRead : read node with _ | es
  · rfl
  have hSays := says_of_tag hRead hSend.tag_eq
  cases hSend with
  | plain _ hItems =>
    cases hSays with
    | send hReceiver =>
      have hNone : node.node? 0 = none := by simp [Node.node?, hItems, Item.node?]
      rw [readAt_of_none hNone] at hReceiver
      cases hReceiver

/- A call on a receiver says what its parts say. -/
theorem read_send (hSend : Sends node (some receiver) name args) (hRead : read node = some es) :
    ∃ a e, read receiver = some [a] ∧ SaysSend a name args e ∧ es = [e] := by
  have hSays := says_of_tag hRead hSend.tag_eq
  cases hSend with
  | toReceiver _ hItems hName =>
    cases hSays with
    | send hReceiver hName' hSend =>
      cases hName.symm.trans hName'
      have hNode : node.node? 0 = some receiver := by
        simp [Node.node?, hItems, Item.node?]
      rw [readAt_of_node? hNode] at hReceiver
      exact ⟨_, _, hReceiver, hSend, rfl⟩

/- An expression that declares what its parts declare. -/
theorem Translates.of_parts (hParts : assigned e = assignedIn es)
    (hScoped : Scoped x E.method (declared Γ es) p')
    (hEmits : ∀ S, Suits S x E.fold (declared Γ es) → Emits S E.loop (.one e keep f)) :
    Translates x E (.code node keep) [e] Γ p' [] (some f) := by
  rw [← declared_parts hParts] at hScoped hEmits
  exact .one hScoped hEmits

/- An expression without parts. -/
theorem Translates.leaf (hScoped : Scoped x E.method Γ p) (hNone : assigned e = [])
    (hEmits : ∀ S, Suits S x E.fold Γ → Emits S E.loop (.one e keep f)) :
    Translates x E (.code node keep) [e] Γ p [] (some f) := by
  have hParts : assigned e = assignedIn [] := by simp [hNone, assignedIn]
  exact .of_parts hParts hScoped hEmits

theorem Translates.operand (hScoped : Scoped x E.method Γ p) (hClass : x.scope = .onClass)
    (hRead : read node = some es) (hOperand : Operands E p node p' f) :
    Translates x E (.code node keep) es Γ p' [] (some f) := by
  have hSays := says_of_read hRead
  cases hOperand with
  | int hTag hInt =>
    rw [hTag] at hSays
    cases hSays with
    | int hInt' =>
      cases hInt.symm.trans hInt'
      rw [literalType_eq]
      exact .leaf hScoped (by simp [assigned]) fun S _ => .int
  | trueLit hTag =>
    rw [hTag] at hSays
    cases hSays
    exact .leaf hScoped (by simp [assigned]) fun S _ => .bool (b := true)
  | falseLit hTag =>
    rw [hTag] at hSays
    cases hSays
    exact .leaf hScoped (by simp [assigned]) fun S _ => .bool (b := false)
  | read hKind hName hReads =>
    cases hReads with
    | localVar hSlot =>
      generalize node.tag = tag at hSays hKind
      cases hSays <;> cases hKind
      rename_i hName'
      cases hName.symm.trans hName'
      rw [hScoped.slotType?_eq hClass] at hSlot
      rcases map_eq_some_iff.mp hSlot with ⟨w, hVar, rfl⟩
      exact .leaf hScoped (by simp [assigned]) fun S hSuits => .get (hSuits.within _ w hVar)
    | instanceVar | classVar | globalVar =>
      generalize node.tag = tag at hSays hKind
      cases hSays <;> cases hKind
  | label hSend hData =>
    rcases read_send hSend hRead with ⟨_, _, hReceiver, _⟩
    rw [read_dataRegistry hData] at hReceiver
    cases hReceiver
  | inlineText hSend =>
    rw [read_plainSend hSend] at hRead
    cases hRead
  | str hTag | const hTag | selfRef hTag =>
    rw [hTag] at hSays
    cases hSays

theorem Translates.node_value (hNode : Translates x E (.node node true) [e] Γ p' gs (some f))
    (hNone : f.ty ≠ .none) : gs = [] ∧ ∃ w, Valued x E e (declared Γ [e]) f w := by
  have hSelf := suits_self x E.fold (declared Γ [e])
  refine ⟨(hNode.produces _ hSelf).1.single.1, ?_⟩
  exact valued_of_emits fun S hSuits => ⟨(hNode.produces S hSuits).1.single.2, hNone⟩

theorem Translates.assign (hScoped : Scoped x E.method (declared Γ [e]) p)
    (hClass : x.scope = .onClass) (hValued : Valued x E e (declared Γ [e]) f w)
    (hAssigns : Assigns E name keep p ⟨n, .nop, .none, [f]⟩ .localVar p' g) :
    Translates x E (.code node keep) [.set name e] Γ p' [] (some g) := by
  have hDeclared : declared Γ [.set name e] = extended (declared Γ [e]) name w := by
    rw [declared_single, assigned_set, foldl_append, ← declared_single,
      foldl_cons, foldl_nil, declare_eq, hValued.typeOf_eq]
    rfl
  rcases stores_of_assigns hScoped hClass hValued.ty_eq hAssigns with ⟨hAfter, hStores⟩
  refine .one (hDeclared ▸ hAfter) fun S hSuits => ?_
  rw [hDeclared] at hSuits
  exact .set (hValued.weaken (within_extended _ name w) S hSuits) (hStores _ hSuits.within)

theorem Translates.update {m : NodeId}
    (hScoped : Scoped x E.method (declared Γ [e]) p) (hClass : x.scope = .onClass)
    (hVar : Γ.lookup name = some a) (hValued : Valued x E e (declared Γ [e]) f w)
    (hCombines : Combines E.fold k (.leaf m (.localGet name) a.type) f op g)
    (hAssigns : Assigns E name keep p ⟨n, .nop, .none, [g]⟩ .localVar p' g') :
    Translates x E (.code node keep) [.update name op e] Γ p' [] (some g') := by
  have hKnown := within_declared Γ [e] name a hVar
  have hSame : extended (declared Γ [e]) name (op.width a w) = declared Γ [e] := by
    simp [extended, hKnown]
  have hTy : g.ty = (op.width a w).type :=
    hCombines.ty_eq (a := some a) (b := some w) rfl (by rw [hValued.ty_eq]; rfl)
  rcases stores_of_assigns hScoped hClass hTy hAssigns with ⟨hAfter, hStores⟩
  rw [hSame] at hAfter hStores
  refine .of_parts (by simp [assigned, assignedIn]) hAfter fun S hSuits => ?_
  exact .update (hSuits.within name a hKnown) (hValued.emits S hSuits)
    (hSuits.fold_eq.symm ▸ hCombines) (hStores _ hSuits.within)

section

variable (hScoped : Scoped x E.method (declared Γ [e]) p')
variable (hValued : Valued x E e (declared Γ [e]) f w)
include hScoped hValued

theorem Translates.cast (hCasts : Casts signed w'.type f g) :
    Translates x E (.code node keep) [.cast w' signed e] Γ p' [] (some g) := by
  refine .of_parts (by simp [assigned, assignedIn]) hScoped fun S hSuits => ?_
  exact .cast (hValued.emits S hSuits) hCasts

theorem Translates.unary {op : Unary} (hAlters : Alters E.fold n f op g) :
    Translates x E (.code node keep) [.unary op e] Γ p' [] (some g) := by
  refine .of_parts (by simp [assigned, assignedIn]) hScoped fun S hSuits => ?_
  exact .unary (hValued.emits S hSuits) (hSuits.fold_eq.symm ▸ hAlters)

end

section

variable (hScoped : Scoped x E.method (declared Γ [a, b]) p')
variable (hLeft : Valued x E a (declared Γ [a, b]) f u)
variable (hRight : Valued x E b (declared Γ [a, b]) g v)
include hScoped hLeft hRight

theorem Translates.binary (hCombines : Combines E.fold n f g op g') :
    Translates x E (.code node keep) [.binary op a b] Γ p' [] (some g') := by
  refine .of_parts (by simp [assigned, assignedIn]) hScoped fun S hSuits => ?_
  exact .binary (hLeft.emits S hSuits) (hRight.emits S hSuits) (hSuits.fold_eq.symm ▸ hCombines)

theorem Translates.logical (hShort : ShortCircuits E.fold ⟨n, .cond, .none, [f, g]⟩ isAnd g') :
    Translates x E (.code node keep)
      [if isAnd then .both a b else .either a b] Γ p' [] (some g') := by
  refine .of_parts (by cases isAnd <;> simp [assigned, assignedIn]) hScoped fun S hSuits => ?_
  exact .logical (hLeft.emits S hSuits) (hRight.emits S hSuits) (hSuits.fold_eq.symm ▸ hShort)

end

-- Control

theorem Translates.cond
    (hScoped : Scoped x E.method (declared (declared (declared Γ [test]) yes) no) p')
    (hTest : Valued x E test (declared Γ [test]) c w) (hTests : Tests E.fold c c')
    (hYes :
      ∀ S, Suits S x E.fold (declared (declared Γ [test]) yes) → Emits S E.loop (.all yes keep fs))
    (hNo : ∀ S, Suits S x E.fold (declared (declared (declared Γ [test]) yes) no) →
        Emits S E.loop (.all no keep gs))
    (hElse : (∃ b, rest = [⟨b, .elseArm, .none, gs⟩]) ∨ rest = [] ∧ no = [])
    (hFinish : FinishesIf ⟨n, .cond, .none, c' :: ⟨a, .thenArm, .none, fs⟩ :: rest⟩ keep f) :
    Translates x E (.code node keep) [.cond test yes no] Γ p' [] (some f) := by
  have hAll : declared Γ ([test] ++ yes ++ no)
        = declared (declared (declared Γ [test]) yes) no := by
    rw [declared_append, declared_append]
  refine .of_parts (by simp [assigned, assignedIn, assignedIn_append]) (hAll ▸ hScoped)
    fun S hSuits => ?_
  rw [hAll] at hSuits
  have hSuitsYes := hSuits.weaken (within_declared _ no)
  have hSuitsTest := hSuitsYes.weaken (within_declared _ yes)
  exact .cond (hTest.emits S hSuitsTest) (hSuits.fold_eq.symm ▸ hTests)
    (hYes S hSuitsYes) (hNo S hSuits) hElse hFinish

theorem Translates.loop {block loop exit back : NodeId}
    (hScoped : Scoped x E.method (declared (declared Γ [test]) body) p')
    (hTest : Valued x { E with loop := some (loop, block) } test (declared Γ [test]) c w)
    (hBranch : BranchesOn E.fold truth c c')
    (hBody : ∀ S, Suits S x E.fold (declared (declared Γ [test]) body) →
        Emits S (some (loop, block)) (.all body false fs)) :
    Translates x E (.code node keep) [.loop truth test body] Γ p' [] (some ⟨block, .block, .none,
        [⟨loop, .loop, .none, ⟨exit, .brIf block, .none, [c']⟩
            :: (fs ++ [.leaf back (.br loop) .none])⟩]⟩) := by
  rw [← declared_append] at hScoped hBody
  refine .of_parts (by simp [assigned, assignedIn]) hScoped fun S hSuits => ?_
  exact .loop (hTest.weaken (declared_append Γ [test] body ▸ within_declared _ body) S hSuits)
    (hSuits.fold_eq.symm ▸ hBranch) (hBody S hSuits)

theorem Translates.postLoop {block loop again : NodeId}
    (hScoped : Scoped x E.method (declared (declared Γ body) [test]) p')
    (hBody :
      ∀ S, Suits S x E.fold (declared Γ body) → Emits S (some (loop, block)) (.all body false fs))
    (hTest :
      Valued x { E with loop := some (loop, block) } test (declared (declared Γ body) [test]) c w)
    (hBranch : BranchesOn E.fold (!truth) c c') :
    Translates x E (.code node keep) [.postLoop truth test body] Γ p' []
      (some ⟨block, .block, .none,
        [⟨loop, .loop, .none, fs ++ [⟨again, .brIf loop, .none, [c']⟩]⟩]⟩) := by
  refine .of_parts (by simp [assigned, assignedIn, assignedIn_append])
    ((declared_append Γ body [test]).symm ▸ hScoped) fun S hSuits => ?_
  rw [declared_append] at hSuits
  exact .postLoop (hBody S (hSuits.weaken (within_declared _ [test])))
    (hTest.emits S hSuits) (hSuits.fold_eq.symm ▸ hBranch)

theorem Translates.ret (hScoped : Scoped x E.method Γ p')
    (hReturns : Returns x.result ⟨n, .nop, .none, []⟩ f) :
    Translates x E (.code node keep) [.ret] Γ p' [] (some f) := by
  refine .leaf hScoped (by simp [assigned]) fun S hSuits => ?_
  rw [← hSuits.result_eq] at hReturns
  cases hReturns with
  | value hChildren => cases hChildren
  | blank _ hResult => exact .ret hResult

theorem Translates.retWith (hScoped : Scoped x E.method (declared Γ [e]) p')
    (hValued : Valued x E e (declared Γ [e]) f w)
    (hReturns : Returns x.result ⟨n, .nop, .none, [f]⟩ g) :
    Translates x E (.code node keep) [.retWith e] Γ p' [] (some g) := by
  refine .of_parts (by simp [assigned, assignedIn]) hScoped fun S hSuits => ?_
  rw [← hSuits.result_eq] at hReturns
  cases hReturns with
  | value hChildren hResult _ hCast =>
    cases hChildren
    exact .retWith (hValued.emits S hSuits) hResult hCast
  | blank hChildren =>
    have hTy := hChildren f rfl
    rw [hValued.ty_eq] at hTy
    exact absurd hTy w.type_ne_none

-- All Constructs

theorem mapM_cons_eq_some {α β : Type} {f : α → Option β} {a : α} {as : List α} {bs : List β} :
    (a :: as).mapM f = some bs ↔ ∃ b bs', f a = some b ∧ as.mapM f = some bs' ∧ bs = b :: bs' := by
  simp only [List.mapM_cons, Option.bind_eq_bind, Option.bind_eq_some_iff,
    Option.pure_def, Option.some.injEq]
  constructor
  · rintro ⟨b, hFirst, bs', hRest, rfl⟩
    exact ⟨b, bs', hFirst, hRest, rfl⟩
  · rintro ⟨b, bs', hFirst, hRest, rfl⟩
    exact ⟨b, hFirst, bs', hRest, rfl⟩

theorem mapM_readValue_cons : (node :: nodes).mapM readValue = some es
      ↔ ∃ e es', read node = some [e] ∧ nodes.mapM readValue = some es' ∧ es = e :: es' := by
  simp only [mapM_cons_eq_some, readValue_eq_some]

theorem mapM_readValue_single (hRead : read node = some [e]) : [node].mapM readValue = some [e] :=
  mapM_readValue_cons.mpr ⟨e, [], hRead, rfl, rfl⟩

theorem mapM_readValue_pair (hFirst : read node = some [e])
    (hSecond : read node' = some [e']) : [node, node'].mapM readValue = some [e, e'] :=
  mapM_readValue_cons.mpr ⟨e, [e'], hFirst, mapM_readValue_single hSecond, rfl⟩

theorem readAll_ne_nil (hRead : readAll (node :: nodes) = some es) : es ≠ [] := by
  rw [readAll_cons] at hRead
  rcases bind_eq_some_iff.mp hRead with ⟨es₁, hFirst, hRest⟩
  rcases map_eq_some_iff.mp hRest with ⟨es₂, _, rfl⟩
  simp [read_ne_nil hFirst]

/- A directive is no expression. -/
theorem read_directive (hDirects : Directs m p node p') : read node = none := by
  cases hDirects with
  | arg hSend | localVar hSend | result hSend | exportName hSend
  | importName hSend => exact read_plainSend hSend
  | data hSend hData =>
    rcases hRead : read node with _ | es
    · rfl
    · rcases read_send hSend hRead with ⟨_, _, hReceiver, _⟩
      rw [read_dataRegistry hData] at hReceiver
      cases hReceiver

/- A receiver that names a class is no expression. -/
theorem read_namesClass {c : ClassId} (hClass : NamesClass m p receiver (some c)) :
    read receiver = none := by
  cases hClass with
  | const hTag | ownClass hTag => exact read_eq_none _ hTag (by rintro _ ⟨⟩)

/- The translation of expressions follows the rules for them. -/
theorem lowers_emits {job : Translation.Job} (hLowers : Lowers E job p p' gs out)
    (hClass : x.scope = .onClass) (hScoped : Scoped x E.method Γ p) (hSaid : saidBy job = some es) :
    Translates x E job es Γ p' gs out := by
  induction hLowers generalizing es Γ with
  | something _ hDiscards ih => exact (ih hScoped hSaid).something hDiscards
  | nothing _ ih => exact (ih hScoped hSaid).nothing
  | done =>
    cases hSaid
    exact ⟨hScoped, fun S _ => ⟨.nil, by simp⟩⟩
  | last _ ih =>
    rw [saidBy, readAll_single] at hSaid
    rcases ih hScoped hSaid with ⟨hAfter, hProduces⟩
    exact ⟨hAfter, hProduces⟩
  | next _ _ ihNode ihRest =>
    rw [saidBy, readAll_cons] at hSaid
    rcases bind_eq_some_iff.mp hSaid with ⟨es₁, hFirst, hRest⟩
    rcases map_eq_some_iff.mp hRest with ⟨es₂, hSecond, rfl⟩
    have hNode := ihNode hScoped hFirst
    exact hNode.next (ihRest hNode.slots hSecond) (readAll_ne_nil hSecond)
  | noValues =>
    cases hSaid
    exact ⟨hScoped, fun S _ => .nil⟩
  | value _ hNone _ ihNode ihRest =>
    rcases mapM_readValue_cons.mp hSaid with ⟨e, es', hFirst, hRest, rfl⟩
    have hNode := ihNode hScoped hFirst
    exact hNode.value hNone (ihRest hNode.slots hRest)
  | @sequence _ _ _ _ _ _ node hTag _ ih =>
    have hSays := says_of_read hSaid
    have hSequence : SaysSequence node es := by
      rcases hTag with hTag | hTag <;> rw [hTag] at hSays <;> cases hSays <;> assumption
    cases hSequence with
    | all hAll _ =>
      rcases ih hScoped hAll with ⟨hAfter, hProduces⟩
      exact ⟨hAfter, fun S hSuits => .inl (hProduces S hSuits)⟩
    | blank hAll =>
      have hDeclared : declared Γ [.skip] = declared Γ [] :=
        declared_parts (by simp [assigned, assignedIn])
      rcases ih hScoped hAll with ⟨hAfter, hProduces⟩
      refine ⟨hDeclared ▸ hAfter, fun S hSuits => ?_⟩
      rcases hProduces S (hDeclared ▸ hSuits) with ⟨hEmits, hOut⟩
      refine .inl ⟨?_, hOut⟩
      rw [hEmits.of_nil]
      exact .blank
  | operand hOperand => exact .operand hScoped hClass hSaid hOperand
  | directive hDirects =>
    rw [saidBy, read_directive hDirects] at hSaid
    cases hSaid
  | assign hKind hName hNode _ hAssigns ih =>
    have hSays := says_of_read hSaid
    generalize Node.tag _ = tag at hSays hKind
    cases hSays with
    | setLocal hName' hBare hValue =>
      cases hKind
      cases hName.symm.trans hName'
      rw [hBare] at hAssigns
      rw [readAt_of_node? hNode] at hValue
      have hPart := ih hScoped (mapM_readValue_single hValue)
      rcases hPart.single with ⟨f, w, rfl, hValued⟩
      exact .assign hPart.slots hClass hValued hAssigns
    | _ => cases hKind
  | operatorAssign hTag hTarget hOperator hArgument hKind hName hReads _ hApplies hAssigns ih =>
    cases says_of_tag hSaid hTag with
    | opAssign hTarget' hLocal hName' hBare hOperator' hOp hValue =>
      rw [Node.node?_of_nodeAt hTarget] at hTarget'
      cases hTarget'
      cases hName.symm.trans hName'
      cases hOperator.symm.trans hOperator'
      rw [hLocal] at hKind
      cases hKind
      rw [hBare] at hAssigns
      rw [readAt_of_nodeAt hArgument] at hValue
      have hPart := ih hScoped (mapM_readValue_single hValue)
      rcases hPart.single with ⟨f, w, rfl, hValued⟩
      cases hReads with
      | localVar hSlot =>
        rw [hScoped.slotType?_eq hClass] at hSlot
        rcases map_eq_some_iff.mp hSlot with ⟨a, hVar, rfl⟩
        rcases combines_of_operates rfl rfl (congrArg ValueType.held? hValued.ty_eq)
          (operates_of_applies rfl rfl hApplies) with ⟨rfl, _, hOp', hCombines⟩
        cases hOp.symm.trans hOp'
        exact .update hPart.slots hClass hVar hValued hCombines hAssigns
  | selfCall hSend =>
    rw [saidBy, read_plainSend hSend] at hSaid
    cases hSaid
  | classCall hSend _ _ hNames =>
    rcases read_send hSend hSaid with ⟨_, _, hReceiver, _⟩
    rw [read_namesClass hNames] at hReceiver
    cases hReceiver
  | castCall hSend _ hArgs hTy _ hNone hCasts ih =>
    rcases read_send hSend hSaid with ⟨a, _, hReceiver, hSays, rfl⟩
    have hPart := ih hScoped hReceiver
    rcases hPart.node_value hNone with ⟨rfl, w, hValued⟩
    cases hArgs with
    | unsigned =>
      cases hSays with
      | cast hWidth =>
        cases hTy.symm.trans (typeNamed_width hWidth)
        exact .cast hPart.slots hValued hCasts
      | binary _ hCast => exact absurd rfl hCast
    | signed =>
      cases hSays with
      | castSigned hWidth =>
        cases hTy.symm.trans (typeNamed_width hWidth)
        exact .cast hPart.slots hValued hCasts
  | valueCall hSend _ hCast _ _ hApplies ih =>
    rcases read_send hSend hSaid with ⟨a, _, hReceiver, hSays, rfl⟩
    cases hSays with
    | unary hOp =>
      have hPart := ih hScoped (mapM_readValue_single hReceiver)
      rcases hPart.single with ⟨f, w, rfl, hValued⟩
      rcases alters_of_operates rfl hValued.ty_eq
        (operates_of_applies rfl hValued.ty_eq hApplies) with ⟨rfl, _, hOp', hAlters⟩
      cases hOp.symm.trans hOp'
      exact .unary hPart.slots hValued hAlters
    | binary hOp _ hArg =>
      have hPart := ih hScoped (mapM_readValue_pair hReceiver hArg)
      rcases hPart.pair with ⟨f, g, u, v, rfl, hLeft, hRight⟩
      rcases combines_of_operates rfl hLeft.ty_eq (congrArg ValueType.held? hRight.ty_eq)
        (operates_of_applies rfl hLeft.ty_eq hApplies) with ⟨rfl, _, hOp', hCombines⟩
      cases hOp.symm.trans hOp'
      exact .binary hPart.slots hLeft hRight hCombines
    | cast | castSigned => exact absurd rfl hCast
  | negation hTag hOperand _ hApplies ih =>
    cases says_of_tag hSaid hTag with
    | negation hValue =>
      rw [readAt_of_nodeAt hOperand] at hValue
      have hPart := ih hScoped (mapM_readValue_single hValue)
      rcases hPart.single with ⟨f, w, rfl, hValued⟩
      rcases alters_of_operates rfl hValued.ty_eq
        (operates_of_applies rfl hValued.ty_eq hApplies) with ⟨rfl, _, hOp, hAlters⟩
      cases hOp
      exact .unary hPart.slots hValued hAlters
  | @logical isAnd left right _ _ _ _ _ _ _ _ hTag hLeft hRight _ hShort ih =>
    have hSays := says_of_tag hSaid hTag
    have hParts : ∃ a b, read left = some [a] ∧ read right = some [b]
          ∧ es = [if isAnd then .both a b else .either a b] := by
      rw [← readAt_of_nodeAt hLeft, ← readAt_of_nodeAt hRight]
      cases isAnd <;> cases hSays <;> exact ⟨_, _, ‹_›, ‹_›, rfl⟩
    rcases hParts with ⟨a, b, hFirst, hSecond, rfl⟩
    have hPart := ih hScoped (mapM_readValue_pair hFirst hSecond)
    rcases hPart.pair with ⟨f, g, u, v, rfl, hValuedL, hValuedR⟩
    exact .logical hPart.slots hValuedL hValuedR hShort
  | ifThen hTag hTest hElse _ hNone hTests _ hFinish ihTest ihThen =>
    cases says_of_tag hSaid hTag with
    | cond hTest' hYes hNo =>
      rw [readAt_of_nodeAt hTest] at hTest'
      rw [readAt_of_none hElse] at hNo
      cases hNo
      have hPart := ihTest hScoped hTest'
      rcases hPart.node_value hNone with ⟨rfl, w, hValued⟩
      have hArm := ihThen hPart.slots hYes
      exact .cond hArm.slots hValued hTests (fun S hSuits => (hArm.produces S hSuits).1)
        (fun S _ => .nil) (.inr ⟨rfl, rfl⟩) hFinish
  | ifThenElse hTag hTest hElse _ hNone hTests _ _ hFinish ihTest ihThen ihElse =>
    cases says_of_tag hSaid hTag with
    | cond hTest' hYes hNo =>
      rw [readAt_of_nodeAt hTest] at hTest'
      rw [readAt_of_node? hElse] at hNo
      have hPart := ihTest hScoped hTest'
      rcases hPart.node_value hNone with ⟨rfl, w, hValued⟩
      have hArm := ihThen hPart.slots hYes
      have hOther := ihElse hArm.slots hNo
      exact .cond hOther.slots hValued hTests (fun S hSuits => (hArm.produces S hSuits).1)
        (fun S hSuits => (hOther.produces S hSuits).1)
        (.inl ⟨_, rfl⟩) hFinish
  | @testedLoop isWhile test _ _ _ _ _ _ _ _ _ _ _ _ _ _ node hTag hTest _ hBranch _ ihTest
      ihBody =>
    have hSays := says_of_tag hSaid hTag
    have hParts : ∃ a body, read test = some [a] ∧ readAt node 1 = some body
          ∧ es = [.loop isWhile a body] := by
      rw [← readAt_of_nodeAt hTest]
      cases isWhile <;> cases hSays <;> exact ⟨_, _, ‹_›, ‹_›, rfl⟩
    rcases hParts with ⟨a, body, hFirst, hSecond, rfl⟩
    have hPart := ihTest hScoped (mapM_readValue_single hFirst)
    rcases hPart.single with ⟨c, w, hOne, hValued⟩
    cases hOne
    have hInner := ihBody hPart.slots hSecond
    exact .loop hInner.slots hValued hBranch fun S hSuits => (hInner.produces S hSuits).1
  | @postTestedLoop isWhile test body _ _ _ _ _ _ _ _ _ _ _ _ _ node hTag hTest hNode _ _ hBranch
      ihBody ihTest =>
    have hSays := says_of_tag hSaid hTag
    have hParts : ∃ a es', read test = some [a] ∧ read body = some es'
          ∧ es = [.postLoop isWhile a es'] := by
      rw [← readAt_of_nodeAt hTest, ← readAt_of_nodeAt hNode]
      cases isWhile <;> cases hSays <;> exact ⟨_, _, ‹_›, ‹_›, rfl⟩
    rcases hParts with ⟨a, es', hFirst, hSecond, rfl⟩
    have hInner := ihBody hScoped hSecond
    have hPart := ihTest hInner.slots (mapM_readValue_single hFirst)
    rcases hPart.single with ⟨c, w, hOne, hValued⟩
    cases hOne
    exact .postLoop hPart.slots (fun S hSuits => (hInner.produces S hSuits).1) hValued hBranch
  | breakLoop hTag _ hLoop =>
    cases says_of_tag hSaid hTag
    exact .leaf hScoped (by simp [assigned]) fun S _ => hLoop ▸ .leave
  | nextLoop hTag _ hLoop =>
    cases says_of_tag hSaid hTag
    exact .leaf hScoped (by simp [assigned]) fun S _ => hLoop ▸ .again
  | @ret _ _ _ _ _ _ _ node hTag hNodes _ hReturns ih =>
    cases says_of_tag hSaid hTag with
    | ret hNone =>
      rw [hNone] at ih
      have hPart := ih hScoped rfl
      rw [hPart.slots.method_eq] at hReturns
      have hNil := hPart.produces _ (suits_self x _ _)
      cases hNil
      exact .ret hPart.slots hReturns
    | retWith hSome hValue =>
      rcases hOnly : node.nodes with _ | ⟨v, _ | ⟨v', rest⟩⟩
      · exact absurd hOnly hSome
      · rw [hOnly, readAll_single] at hValue
        rw [hOnly] at ih
        have hPart := ih hScoped (mapM_readValue_single hValue)
        rcases hPart.single with ⟨f, w, rfl, hValued⟩
        rw [hPart.slots.method_eq] at hReturns
        exact .retWith hPart.slots hValued hReturns
      · rw [hOnly] at hNodes
        simp at hNodes

end Integral

end RubyWat
