import RubyWat.Proofs.Integral

/-
  What nodes say about integers in local variables.

  Statements are read from nodes by a function.  There is a rule for each kind of node that has
  something to say.

  Main statement: what is read from a node follows from the rules (`says_of_read`).
-/

-- Parts Of Nodes

namespace RubyWat.Integral

open Dump List Option

/- What is read at a place, where nothing may be. -/
def readAt (node : Node) (index : Nat) : Option (List Expr) :=
  readAll (node.node? index).toList

theorem single?_eq_some_iff : single? es = some e ↔ es = [e] := by
  rcases es with _ | ⟨e', _ | ⟨e'', es⟩⟩ <;> simp [single?]

theorem readAll_nil : readAll [] = some [] :=
  rfl

theorem readAll_cons (node : Node) (nodes : List Node) :
    readAll (node :: nodes) = (read node).bind fun es => (readAll nodes).map (es ++ ·) := by
  simp only [readAll, mapM_cons]
  rcases read node with _ | es
  · rfl
  · rcases nodes.mapM read with _ | rest
    · rfl
    · rfl

theorem readAll_single (node : Node) : readAll [node] = read node := by
  rw [readAll_cons, readAll_nil]
  rcases read node with _ | es
  · rfl
  · simp

/- What an item says, which is nothing if it is no node. -/
def readItem (item : Item Node) : Option (List Expr) :=
  (item.node?.map read).getD (some [])

/- What items say one after the other. -/
theorem mapM_readItem (items : List (Item Node)) : ((items.map readItem).mapM id).map flatten
      = readAll (items.filterMap Item.node?) := by
  induction items with
  | nil => rfl
  | cons item items ih =>
    rw [filterMap_cons, map_cons, mapM_cons, readItem]
    rcases item.node? with _ | n
    · rw [← ih]
      rcases (items.map readItem).mapM id with _ | rest
      · rfl
      · rfl
    · rw [readAll_cons, ← ih, map_some, getD_some]
      rcases read n with _ | es
      · rfl
      · rcases (items.map readItem).mapM id with _ | rest
        · rfl
        · rfl

theorem getD_readItem (node : Node) (index : Nat) :
    (node.items.map readItem).getD index (some []) = readAt node index := by
  rw [readAt, Node.node?, getD_eq_getElem?_getD, getElem?_map]
  rcases node.items[index]? with _ | item
  · rfl
  · rcases hNode : item.node? with _ | n
    · simp [hNode, readItem, readAll_nil]
    · simp [hNode, readItem, readAll_single]

theorem read_eq (node : Node) : read node = readFrom node (node.items.map readItem) :=
  Node.fold_eq node

-- Rules

/- What a call on a value says. -/
inductive SaysSend (receiver : Expr) : String → List Node → Expr → Prop where
  | unary (hOp : Unary.ofName? name = some op) : SaysSend receiver name [] (.unary op receiver)
  | binary (hOp : Binary.ofName? name = some op) (hCast : name ≠ "cast_to")
      (hArg : read arg = some [e]) : SaysSend receiver name [arg] (.binary op receiver e)
  | cast (hWidth : widthNamed? ty = some w) :
      SaysSend receiver "cast_to" [ty] (.cast w false receiver)
  | castSigned {flag : Node} (hWidth : widthNamed? ty = some w)
      (hFlag : flag.symbolLiteral? = some "signed") :
      SaysSend receiver "cast_to" [ty, flag] (.cast w true receiver)

inductive SaysSequence (node : Node) : List Expr → Prop where
  | all (hAll : readAll node.nodes = some es) (hSome : es ≠ []) : SaysSequence node es
  | blank (hAll : readAll node.nodes = some []) : SaysSequence node [.skip]

inductive Says (node : Node) : Tag → List Expr → Prop where
  | begin (hSequence : SaysSequence node es) : Says node .begin es
  | kwbegin (hSequence : SaysSequence node es) : Says node .kwbegin es
  | int (hInt : node.intAt 0 = .ok value) : Says node .int [.int value]
  | trueLit : Says node .trueLit [.bool true]
  | falseLit : Says node .falseLit [.bool false]
  | getLocal (hName : node.symbolAt 0 = .ok x) : Says node .getLocal [.get x]
  | setLocal (hName : node.symbolAt 0 = .ok x) (hBare : Lower.bareName x = x)
      (hValue : readAt node 1 = some [e]) : Says node .setLocal [.set x e]
  | opAssign (hTarget : node.node? 0 = some target) (hLocal : target.tag = .setLocal)
      (hName : target.symbolAt 0 = .ok x) (hBare : Lower.bareName x = x)
      (hOperator : node.symbolAt 1 = .ok name) (hOp : Binary.ofName? name = some op)
      (hValue : readAt node 2 = some [e]) : Says node .opAssign [.update x op e]
  | send (hReceiver : readAt node 0 = some [receiver]) (hName : node.symbolAt 1 = .ok name)
      (hSend : SaysSend receiver name (node.nodesFrom 2) e) : Says node .send [e]
  | negation (hValue : readAt node 0 = some [e]) : Says node .negation [.unary (.native .eqz) e]
  | conj (hLeft : readAt node 0 = some [a]) (hRight : readAt node 1 = some [b]) :
      Says node .conj [.both a b]
  | disj (hLeft : readAt node 0 = some [a]) (hRight : readAt node 1 = some [b]) :
      Says node .disj [.either a b]
  | cond (hTest : readAt node 0 = some [test]) (hYes : readAt node 1 = some yes)
      (hNo : readAt node 2 = some no) : Says node .cond [.cond test yes no]
  | whileLoop (hTest : readAt node 0 = some [test]) (hBody : readAt node 1 = some body) :
      Says node .whileLoop [.loop true test body]
  | untilLoop (hTest : readAt node 0 = some [test]) (hBody : readAt node 1 = some body) :
      Says node .untilLoop [.loop false test body]
  | whilePost (hTest : readAt node 0 = some [test]) (hBody : readAt node 1 = some body) :
      Says node .whilePost [.postLoop true test body]
  | untilPost (hTest : readAt node 0 = some [test]) (hBody : readAt node 1 = some body) :
      Says node .untilPost [.postLoop false test body]
  | breakLoop : Says node .breakLoop [.leave]
  | nextLoop : Says node .nextLoop [.again]
  | ret (hNodes : node.nodes = []) : Says node .ret [.ret]
  | retWith (hNodes : node.nodes ≠ []) (hValue : readAll node.nodes = some [e]) :
      Says node .ret [.retWith e]

theorem localName?_eq_some :
    localName? node index = some x ↔ node.symbolAt index = .ok x ∧ Lower.bareName x = x := by
  unfold localName?
  rcases node.symbolAt index with _ | y
  · simp [Except.toOption]
  simp only [Except.toOption, bind_eq_bind, bind_some,
    ite_none_right_eq_some, some.injEq, Except.ok.injEq]
  constructor
  · rintro ⟨hBare, rfl⟩
    exact ⟨rfl, hBare⟩
  · rintro ⟨rfl, hBare⟩
    exact ⟨hBare, rfl⟩

variable {node : Node} {es : List Expr}

/- A call says what its name and its arguments say. -/
theorem saysSend_of_readSend
    (hSend : readSend node receiver ((readAll (node.nodesFrom 2)).getD []) = some e) :
    ∃ name, node.symbolAt 1 = .ok name ∧ SaysSend receiver name (node.nodesFrom 2) e := by
  unfold readSend at hSend
  rcases bind_eq_some_iff.mp hSend with ⟨name, hName, hCall⟩
  refine ⟨name, toOption_eq_some.mp hName, ?_⟩
  generalize node.nodesFrom 2 = args at hCall ⊢
  split at hCall
  · rcases bind_eq_some_iff.mp hCall with ⟨op, hOp, hEs⟩
    cases hEs
    exact .unary hOp
  · rename_i arg
    split at hCall
    · rename_i hCast
      subst hCast
      rcases bind_eq_some_iff.mp hCall with ⟨w, hWidth, hEs⟩
      cases hEs
      exact .cast hWidth
    · rename_i hCast
      rcases bind_eq_some_iff.mp hCall with ⟨op, hOp, hRest⟩
      rcases bind_eq_some_iff.mp hRest with ⟨b, hSingle, hEs⟩
      cases hEs
      rw [single?_eq_some_iff, readAll_single] at hSingle
      refine .binary hOp hCast ?_
      rcases hRead : read arg with _ | es
      · rw [hRead] at hSingle
        cases hSingle
      · rw [hRead] at hSingle
        exact congrArg some hSingle
  · split at hCall
    · rename_i hSigned
      rcases hSigned with ⟨rfl, hFlag⟩
      rcases bind_eq_some_iff.mp hCall with ⟨w, hWidth, hEs⟩
      cases hEs
      exact .castSigned hWidth hFlag
    · cases hCall
  · cases hCall

/- What the arguments of a call say, if they say something. -/
theorem flatten_arguments (node : Node) :
    ((((node.items.map readItem).drop 2).mapM id).getD []).flatten
      = (readAll (node.nodesFrom 2)).getD [] := by
  rw [← map_drop, Node.nodesFrom, ← mapM_readItem]
  rcases ((node.items.drop 2).map readItem).mapM id with _ | ess
  · rfl
  · rfl

/- What is read from a sequence. -/
theorem saysSequence_of_read (hRead : ∃ ess, (node.items.map readItem).mapM id = some ess
        ∧ (if ess.flatten.isEmpty then [Expr.skip] else ess.flatten) = es) :
    SaysSequence node es := by
  rcases hRead with ⟨ess, hParts, rfl⟩
  have hAll : readAll node.nodes = some ess.flatten := by
    rw [Node.nodes, ← mapM_readItem, hParts]
    rfl
  split
  · rename_i hEmpty
    rw [isEmpty_iff.mp hEmpty] at hAll
    exact .blank hAll
  · rename_i hSome
    exact .all hAll (by simpa using hSome)

/- What is read from a return. -/
theorem says_ret (hRead : (match node.nodes with
        | [] => some [Expr.ret]
        | _ =>
          ((node.items.map readItem).mapM id).bind fun ess =>
            (single? ess.flatten).bind fun e => some [.retWith e])
        = some es) :
    Says node .ret es := by
  split at hRead
  · rename_i hNodes
    cases hRead
    exact .ret hNodes
  rename_i hNodes
  simp only [bind_eq_some_iff, single?_eq_some_iff] at hRead
  rcases hRead with ⟨ess, hParts, e, hSingle, hEs⟩
  cases hEs
  refine .retWith hNodes ?_
  rw [Node.nodes, ← mapM_readItem, hParts, map_some, hSingle]

/- What is read from a node follows from the rules. -/
theorem says_of_read (hRead : read node = some es) : Says node node.tag es := by
  rw [read_eq] at hRead
  simp only [readFrom, getD_readItem, flatten_arguments,
    Option.bind_eq_bind, Option.pure_def] at hRead
  cases hTag : node.tag
  all_goals
    simp only [hTag, Option.bind_eq_some_iff, toOption_eq_some, localName?_eq_some,
      single?_eq_some_iff, exists_eq_right, Option.some.injEq] at hRead
  case begin => exact .begin (saysSequence_of_read hRead)
  case kwbegin => exact .kwbegin (saysSequence_of_read hRead)
  case int =>
    rcases hRead with ⟨value, hInt, rfl⟩
    exact .int hInt
  case trueLit => exact hRead ▸ .trueLit
  case falseLit => exact hRead ▸ .falseLit
  case getLocal =>
    rcases hRead with ⟨x, hName, rfl⟩
    exact .getLocal hName
  case setLocal =>
    rcases hRead with ⟨x, ⟨hName, hBare⟩, e, hValue, rfl⟩
    exact .setLocal hName hBare hValue
  case opAssign =>
    rcases hRead with ⟨target, hTarget, hRest⟩
    split at hRest
    · rename_i hLocal
      simp only [Option.bind_eq_some_iff, localName?_eq_some, toOption_eq_some, single?_eq_some_iff,
        exists_eq_right, Option.some.injEq] at hRest
      rcases hRest with ⟨x, ⟨hName, hBare⟩, name, hOperator, op, hOp, e, hValue, rfl⟩
      exact .opAssign hTarget hLocal hName hBare hOperator hOp hValue
    · cases hRest
  case send =>
    rcases hRead with ⟨receiver, hReceiver, e, hSend, rfl⟩
    rcases saysSend_of_readSend hSend with ⟨name, hName, hSays⟩
    exact .send hReceiver hName hSays
  case negation =>
    rcases hRead with ⟨e, hValue, rfl⟩
    exact .negation hValue
  case conj =>
    rcases hRead with ⟨a, hLeft, b, hRight, rfl⟩
    exact .conj hLeft hRight
  case disj =>
    rcases hRead with ⟨a, hLeft, b, hRight, rfl⟩
    exact .disj hLeft hRight
  case cond =>
    rcases hRead with ⟨test, hTest, yes, hYes, no, hNo, rfl⟩
    exact .cond hTest hYes hNo
  case whileLoop =>
    rcases hRead with ⟨test, hTest, body, hBody, rfl⟩
    exact .whileLoop hTest hBody
  case untilLoop =>
    rcases hRead with ⟨test, hTest, body, hBody, rfl⟩
    exact .untilLoop hTest hBody
  case whilePost =>
    rcases hRead with ⟨test, hTest, body, hBody, rfl⟩
    exact .whilePost hTest hBody
  case untilPost =>
    rcases hRead with ⟨test, hTest, body, hBody, rfl⟩
    exact .untilPost hTest hBody
  case breakLoop => exact hRead ▸ .breakLoop
  case nextLoop => exact hRead ▸ .nextLoop
  case ret => exact says_ret hRead
  all_goals cases hRead

theorem SaysSequence.ne_nil (hSays : SaysSequence node es) : es ≠ [] := by
  cases hSays with
  | all _ hSome => exact hSome
  | blank => simp

theorem read_ne_nil (hRead : read node = some es) : es ≠ [] := by
  have hSays := says_of_read hRead
  generalize node.tag = tag at hSays
  cases hSays with
  | begin hSequence | kwbegin hSequence => exact hSequence.ne_nil
  | _ => simp

theorem readAt_of_node? (hPart : node.node? index = some part) : readAt node index = read part := by
  rw [readAt, hPart]
  exact readAll_single part

theorem readAt_of_none (hPart : node.node? index = none) : readAt node index = some [] := by
  rw [readAt, hPart]
  exact readAll_nil

end RubyWat.Integral
