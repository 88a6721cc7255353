import RubyWat.Proofs.Lowering

/-
  Constants, static data and directives inside of methods.

  Main statements: the value of a constant changes nothing but static data
  (`constant_dataOnly`), and a directive inside of a method does what the rules of the
  translation say (`directive_ok`).
-/

-- Steps That Name No Unit

namespace RubyWat

open Code Translation Lower Dump Step Lasting Context

variable {ctx ctx' : Context} {which : Directive}
variable {args : List Node} {slots : List TypedName}
variable {slot : TypedName} {s : LowerState} {m : MethodId}
variable {span : Span}

namespace Lower

/-
  A step after which a relation to the state before holds, and
  which leaves it to others to say in which unit it failed.
-/
structure Stays {α : Type} (R : LowerState → LowerState → Prop) (step : Lower α) : Prop where
  ok : Changes R step
  error : ∀ {s failure s'}, step s = .error failure s' →
      failure.file = none ∧ ∃ s₁, R s s₁ ∧ s'.loader = s₁.loader

namespace Stays

variable {α β : Type} {R : LowerState → LowerState → Prop}

theorem ite {c : Prop} [Decidable c] (hYes : Stays R yes) (hNo : Stays R no) :
    Stays R (if c then yes else no) := by
  split
  · exact hYes
  · exact hNo

theorem mono {R' : LowerState → LowerState → Prop} (hStep : Stays R step)
    (hLess : ∀ {s s'}, R s s' → R' s s') : Stays R' step := by
  refine ⟨fun s a s' hRun => hLess (hStep.ok s a s' hRun), fun hRun => ?_⟩
  rcases hStep.error hRun with ⟨hFile, s₁, hFirst, hLoader⟩
  exact ⟨hFile, s₁, hLess hFirst, hLoader⟩

variable [Lasting R]

/- A step that leaves the loader alone when it fails, and names no unit then. -/
theorem of_still (hOk : Changes R step) (hError :
      ∀ {s failure s'}, step s = .error failure s' → failure.file = none ∧ s'.loader = s.loader) :
    Stays R step :=
  ⟨hOk, fun hRun => ⟨(hError hRun).1, _, refl _, (hError hRun).2⟩⟩

theorem pure (a : α) : Stays R (Pure.pure a) :=
  .of_still (.pure a) (by rintro _ _ _ ⟨⟩)

theorem get : Stays R MonadState.get :=
  .of_still .get (by rintro _ _ _ ⟨⟩)

/- Refusals name no unit themselves.  The unit that is read adds its name later. -/
theorem refuse (fault : Fault) : Stays R (refuse fault : Lower α) :=
  .of_still (.throw _) (by rintro _ _ _ ⟨⟩; exact ⟨rfl, rfl⟩)

theorem need (found : Except Malformed α) : Stays R (liftM found : Lower α) := by
  cases found with
  | ok a => exact .pure a
  | error error => exact .refuse _

/- A step that only builds cannot touch the loader. -/
theorem build {step : Build α}
    (hStep : ∀ s a ctx', step s.ctx = .ok a ctx' → R s { s with ctx := ctx' }) :
    Stays R (liftM step : Lower α) := by
  refine .of_still (fun s a s' hRun => ?_) fun {s failure s'} hRun => ?_
  · rcases Lower.build_ok hRun with ⟨ctx', hBuild, rfl⟩
    exact hStep s a ctx' hBuild
  change Lower.build step s = .error failure s' at hRun
  rcases s with ⟨ctx, loader, pending, asking⟩
  dsimp only [Lower.build] at hRun
  split at hRun
  · cases hRun
  · cases hRun
    exact ⟨rfl, rfl⟩

theorem bind {next : α → Lower β} (hStep : Stays R step)
    (hNext : ∀ a, Stays R (next a)) : Stays R (step >>= next) := by
  refine ⟨.bind hStep.ok fun a => (hNext a).ok, fun hRun => ?_⟩
  rcases bind_error hRun with hFirst | ⟨a, s₁, hFirst, hRest⟩
  · exact hStep.error hFirst
  · rcases (hNext a).error hRest with ⟨hFile, s₂, hLater, hLoader⟩
    exact ⟨hFile, s₂, trans _ _ _ (hStep.ok _ a s₁ hFirst) hLater, hLoader⟩

theorem context : Stays R context :=
  .bind .get fun _ => .pure _

theorem program : Stays R program :=
  .bind .get fun _ => .pure _

theorem guard {c : Prop} [Decidable c] (hFirst : Stays R first) (hRest : Stays R rest) :
    Stays R (if c then (first >>= fun _ : α => rest) else (rest : Lower β)) :=
  .ite (.bind hFirst fun _ => hRest) hRest

theorem map {f : α → β} (hStep : Stays R step) : Stays R (f <$> step) := by
  rw [map_eq_pure_bind]
  exact .bind hStep fun a => .pure _

theorem forIn (as : List α) {body : α → PUnit → Lower (ForInStep PUnit)}
    (hBody : ∀ a, Stays R (body a PUnit.unit)) : Stays R (ForIn.forIn as PUnit.unit body) := by
  induction as with
  | nil => exact .pure _
  | cons a as ih =>
    rw [List.forIn_cons]
    refine .bind (hBody a) fun step => ?_
    cases step with
    | done b => exact .pure b
    | yield b => exact ih

end Stays

-- Constants

/- Steps that change nothing but static data. -/
structure DataOnly (s s' : LowerState) : Prop where
  program : ∃ data, s'.ctx.program = { s.ctx.program with data }
  tree_eq : s'.ctx.tree = s.ctx.tree
  options_eq : s'.ctx.options = s.ctx.options
  loader_eq : s'.loader = s.loader

instance : Lasting DataOnly where
  refl := fun s => ⟨⟨s.ctx.program.data, rfl⟩, rfl, rfl, rfl⟩
  trans := by
    intro s₁ s₂ s₃ hFirst hSecond
    rcases hFirst.program with ⟨_, hProgram₁⟩
    rcases hSecond.program with ⟨data, hProgram₂⟩
    refine ⟨⟨data, ?_⟩, hSecond.tree_eq.trans hFirst.tree_eq, hSecond.options_eq.trans
      hFirst.options_eq, hSecond.loader_eq.trans hFirst.loader_eq⟩
    rw [hProgram₂, hProgram₁]

variable {R : LowerState → LowerState → Prop} [Lasting R]

/- Arguments are read off without a change. -/
theorem typeName_changes : Stays R (typeName node) := by
  unfold typeName
  split
  · exact .pure _
  · exact .need _
  · exact .refuse _

/- The arguments of directives are read without a change. -/
theorem typeArgument_changes : Stays R (typeArgument p node) := by
  refine .bind .context fun ctx => .bind typeName_changes ?_
  intro name
  split
  · exact .pure _
  · exact .refuse _

theorem castArguments_changes : Stays R (castArguments args span) := by
  unfold castArguments
  split
  · exact .pure _
  · split
    · exact .pure _
    · exact .refuse _
  · exact .refuse _

theorem nameArgument_changes : Stays R (nameArgument word node) := by
  unfold nameArgument
  split
  · exact .need _
  · exact .bind (.need _) fun _ => .pure _
  · exact .refuse _

theorem dataLabel_changes : Stays R (dataLabel node) := by
  unfold dataLabel
  split
  · exact .pure _
  · exact .pure _
  · exact .refuse _

theorem labelAddress_changes : Stays R (labelAddress label span) := by
  refine .bind .program fun p => ?_
  split
  · exact .pure _
  · exact .refuse _

theorem integerOf_changes : Stays R (integerOf node const) := by
  unfold integerOf
  split
  · exact .pure _
  · exact .refuse _

theorem settle_changes {α : Type} (result : Except Fault α) : Stays R (settle result) := by
  unfold settle
  split
  · exact .pure _
  · exact .refuse _

theorem constValue_changes : Stays R (liftM (Build.constValue p path span) : Lower ConstValue) := by
  refine .build fun s value ctx' hRun => ?_
  rcases Build.constValue_ok hRun with ⟨-, rfl⟩
  exact refl s

/- Text in the code changes nothing but static data. -/
theorem stringAddress_ok (hRun : Build.stringAddress bytes s.ctx = .ok address ctx') :
    DataOnly s { s with ctx := ctx' } := by
  cases hRun
  exact ⟨⟨_, rfl⟩, rfl, rfl, rfl⟩

theorem labelConstant_changes : Stays R (labelConstant name args node) := by
  unfold labelConstant
  split
  · exact .bind dataLabel_changes fun label => .bind labelAddress_changes fun _ => .pure _
  · exact .refuse _

/- Constants change nothing but the static data, to which strings are added. -/
theorem constantSend_dataOnly {operand : Node → Lower ConstValue}
    (hOperand : ∀ node, Stays DataOnly (operand node)) :
    Stays DataOnly (constantSend operand scope node) := by
  refine .bind (.need _) fun name => ?_
  dsimp only
  split
  · exact .refuse _
  split
  · exact labelConstant_changes
  refine .bind (hOperand _) fun value => .bind integerOf_changes fun left => ?_
  split
  · exact .bind castArguments_changes fun found =>
      .bind typeArgument_changes fun ty => settle_changes _
  split
  · split
    · exact .pure _
    · exact .refuse _
  · exact .bind (hOperand _) fun value => .bind integerOf_changes fun right => settle_changes _
  · exact .refuse _

/- The proof goes by the fuel, since operands are constants themselves. -/
theorem evaluate_dataOnly : Stays DataOnly (evaluate fuel scope node) := by
  induction fuel generalizing node with
  | zero => exact .refuse _
  | succ fuel ih =>
    unfold evaluate
    split
    · exact .bind (.need _) fun _ => .pure _
    · exact .bind (.need _) fun bytes =>
        .bind (.build fun _ _ _ => stringAddress_ok) fun _ => .pure _
    · exact .pure _
    · exact .pure _
    · exact .bind (.need _) fun path => constValue_changes
    · split
      · exact ih
      · exact .refuse _
    · exact constantSend_dataOnly fun _ => ih
    · exact .refuse _

theorem constant_dataOnly : Stays DataOnly (constant scope node) :=
  evaluate_dataOnly

-- Static Data

/- A step after which something holds of its result. -/
def Ensures {α : Type} (step : Lower α) (Q : LowerState → α → LowerState → Prop) : Prop :=
  ∀ s a s', step s = .ok a s' → Q s a s'

variable {E : Env} {s' : LowerState} {p n : NodeId}
variable {node : Node} {keep : Bool}

/- Executable code is fine inside of a method. -/
theorem requireMethodScope_ok (hInside : Inside E s p)
    (hRun : requireMethodScope p node s = .ok () s') : s = s' := by
  simp only [requireMethodScope, context_bind, methodOf?_inMethod hInside.place] at hRun
  cases hRun
  rfl

/- A literal is one node below its parent. -/
theorem intLiteral_ok {value : Int64} (hInside : Inside E s p)
    (hRun : build (Build.intLiteral p value span) s = .ok n s') :
    Places s s' p [.leaf n (.const value) (literalType value)] ∧ s'.ctx.program = s.ctx.program :=
  addNodeAt_ok hInside.isOpen hRun

/- What is written to the static data changes nothing else. -/
theorem dataValue_dataOnly : Stays DataOnly (dataValue p node) := by
  unfold dataValue
  split
  · exact .bind (.need _) fun _ => .pure _
  refine .bind constant_dataOnly fun value => ?_
  split
  · exact .pure _
  · exact .refuse _

theorem dataAddress_dataOnly : Stays DataOnly (dataAddress p node what) := by
  refine .bind constant_dataOnly fun value => ?_
  split
  · split
    · exact .pure _
    · exact .refuse _
  · exact .refuse _

/- A change of the static data leaves the rest of the program alone. -/
theorem changeData_dataOnly (f : StaticData → StaticData) :
    Stays DataOnly (liftM (changeData f) : Lower Unit) := by
  refine .build fun s a ctx' hRun => ?_
  cases hRun
  exact ⟨⟨_, rfl⟩, rfl, rfl, rfl⟩

theorem tryChangeData_dataOnly (f : StaticData → Except Fault StaticData) :
    Stays DataOnly (liftM (tryChangeData f) : Lower Unit) := by
  refine .build fun s a ctx' hRun => ?_
  simp only [tryChangeData, Build.tryDeclare, Build.program_bind] at hRun
  rcases hResult : f s.ctx.program.data with fault | data
  · simp only [hResult, Except.map] at hRun
    cases hRun
  · simp only [hResult, Except.map] at hRun
    cases hRun
    exact ⟨⟨_, rfl⟩, rfl, rfl, rfl⟩

/- A step that declares static data and gives no node. -/
def DeclaresData (step : Lower (Option NodeId)) : Prop :=
  Ensures step fun s result s' => DataOnly s s' ∧ result = none

namespace DeclaresData

/- A step that declares data leaves no code. -/
theorem none : DeclaresData (Pure.pure Option.none) := by
  intro s result s' hRun
  cases hRun
  exact ⟨refl s, rfl⟩

/- Steps that read the arguments may come before it. -/
theorem after {α : Type} {step : Lower α} {next : α → Lower (Option NodeId)}
    (hStep : Stays DataOnly step) (hNext : ∀ a, DeclaresData (next a)) :
    DeclaresData (step >>= next) := by
  intro s result s' hRun
  rcases bind_ok hRun with ⟨a, s₁, hFirst, hRest⟩
  rcases hNext a s₁ result s' hRest with ⟨hOnly, hNone⟩
  exact ⟨trans s s₁ s' (hStep.ok s a s₁ hFirst) hOnly, hNone⟩

end DeclaresData

/- A use of static data declares some, or is the address of some inside of a method. -/
theorem dataAccess_ensures {Q : LowerState → Option NodeId → LowerState → Prop} (name : String)
    (args : List Node) (hDeclares : ∀ step, DeclaresData step → Ensures step Q)
    (hAddress : ∀ find : Lower Nat, Changes Eq find → Ensures (do
          requireMethodScope p node
          let address ← find
          some <$> Build.intLiteral p (Int64.ofNat address) node.span)
          Q) :
    Ensures (dataAccess p node name args) Q := by
  unfold dataAccess
  split
  · exact hDeclares _ (.after dataLabel_changes fun _ =>
      .after dataValue_dataOnly fun _ => .after (tryChangeData_dataOnly _) fun _ => .none)
  · exact hDeclares _ (.after dataLabel_changes fun _ =>
      .after dataValue_dataOnly fun _ => .after (changeData_dataOnly _) fun _ => .none)
  · exact hDeclares _ (.after dataAddress_dataOnly fun _ =>
      .after (changeData_dataOnly _) fun _ => .none)
  · exact hDeclares _ (.after dataAddress_dataOnly fun _ =>
      .after (tryChangeData_dataOnly _) fun _ => .none)
  · rename_i label
    have hFind := hAddress (do
        let label ← dataLabel label
        labelAddress label node.span)
      (Stays.bind dataLabel_changes fun _ => labelAddress_changes).ok
    simpa only [bind_assoc] using hFind
  · have hFind := hAddress (do return (← program).data.cursor)
      (Stays.bind .program fun _ => .pure _).ok
    simpa only [bind_assoc, pure_bind] using hFind
  · intro s result s' hRun
    exact (refuse_ok hRun).elim

/- An access to the registry declares data, or leaves the address of a label as a literal. -/
theorem dataAccess_ok {receiver : Node} {name : String} {result : Option NodeId}
    (hInside : Inside E s p) (hSend : Sends node (some receiver) name args)
    (hData : isDataRegistry receiver = true)
    (hRun : dataAccess p node name args s = .ok result s') :
    Emits E (.code node keep) s s' p result := by
  refine dataAccess_ensures (Q := fun s result s' =>
    Inside E s p → Emits E (.code node keep) s s' p result) name args
    ?_ ?_ s result s' hRun hInside
  · intro step hStep s result s' hRun _
    rcases hStep s result s' hRun with ⟨hOnly, rfl⟩
    rcases hOnly.program with ⟨data, hProgram⟩
    refine ⟨[], none, ?_, rfl, places_nothing hOnly.tree_eq hOnly.options_eq hOnly.loader_eq p⟩
    rw [hProgram]
    exact .directive (.data hSend hData)
  · intro find hFind s result s' hRun hInside
    rcases bind_ok hRun with ⟨_, s₁, hScope, hRest⟩
    have hSame := requireMethodScope_ok hInside hScope
    rcases bind_ok hRest with ⟨address, s₂, hAddress, hRest⟩
    have hSame₂ : s₁ = s₂ := hFind s₁ address s₂ hAddress
    rw [← hSame₂, ← hSame] at hRest
    rcases map_ok hRest with ⟨n, hLiteral, rfl⟩
    rcases intLiteral_ok hInside hLiteral with ⟨hPlaces, hProgram⟩
    refine emits_one ?_ rfl hPlaces
    rw [hProgram]
    exact .operand (.label hSend hData)

end Lower

-- Directives

def Directive.name : Directive → String
  | arg => "arg"
  | localVar => "local"
  | result => "result"
  | exportName => "export"
  | importName => "import"
  | accessor .reader => "attr_reader"
  | accessor .writer => "attr_writer"
  | accessor .both => "attr_accessor"
  | attrType => "attr_type"
  | inlineText => "inline"
  | mixin how => how.keyword
  | require false => "require"
  | require true => "require_relative"

/- A directive is known by its name. -/
theorem Directive.name_of_ofName? {name : String} (hName : ofName? name = some which) :
    name = which.name := by
  unfold ofName? at hName
  split at hName
  all_goals cases hName
  all_goals rfl

namespace Lower

variable {d : Descent} {E : Env} {s' : LowerState} {p n : NodeId}
variable {node : Node} {keep : Bool}
variable {name : String}

/- Inside of a method, a directive is about that method. -/
theorem directiveMethod_ok (hInside : Inside E s p)
    (hRun : directiveMethod p name span s = .ok m s') : m = E.method ∧ s = s' := by
  simp only [directiveMethod, context_bind, methodOf?_inMethod hInside.place] at hRun
  cases hRun
  exact ⟨rfl, rfl⟩

/- A directive in the wrong place is refused. -/
theorem wrongScope_ok {α : Type} {a : α}
    (hRun : wrongScope p name allowed span s = .ok a s') : False := by
  rw [wrongScope, context_bind] at hRun
  exact refuse_ok hRun

/- Names and types are read in order, without a change. -/
theorem typedPairs_ok (hInside : Inside E s p) (hRun : typedPairs p pairs s = .ok slots s') :
    TypedPairs s.ctx.program (s.ctx.program.method E.method).owner pairs slots ∧ s = s' := by
  induction pairs generalizing slots with
  | nil =>
    cases hRun
    exact ⟨.nil, rfl⟩
  | cons pair pairs ih =>
    rcases bind_ok hRun with ⟨ty, s₁, hType, hRest⟩
    rcases typeArgument_ok hInside hType with ⟨hNamed, rfl⟩
    rcases bind_ok hRest with ⟨rest, s₂, hPairs, hEnd⟩
    cases hEnd
    rcases ih hPairs with ⟨hTyped, hSame⟩
    exact ⟨.cons hNamed hTyped, hSame⟩

/- Names with types are the only argument of their directive. -/
theorem typedNames_ok (hInside : Inside E s p)
    (hRun : typedNames p name args span s = .ok slots s') :
    ∃ keywords pairs, args = [keywords] ∧ keywords.pairs? = some pairs
        ∧ TypedPairs s.ctx.program (s.ctx.program.method E.method).owner pairs slots
        ∧ s = s' := by
  rcases args with _ | ⟨keywords, _ | ⟨extra, rest⟩⟩
  · exact (refuse_ok hRun).elim
  · rcases hPairs : keywords.pairs? with _ | pairs
    · simp only [typedNames, hPairs] at hRun
      exact (refuse_ok hRun).elim
    · simp only [typedNames, hPairs] at hRun
      rcases typedPairs_ok hInside hRun with ⟨hTyped, hSame⟩
      exact ⟨keywords, pairs, rfl, hPairs, hTyped, hSame⟩
  · exact (refuse_ok hRun).elim

/- One name at a time gets its type.  The names that follow find the program so changed. -/
theorem typeParameter_types (hRun : typeParameter m slot ctx = .ok () ctx')
    (hTypes : TypesParams m slots ctx'.program q) :
    TypesParams m (slot :: slots) ctx.program q ∧ ctx' = { ctx with program := ctx'.program } := by
  simp only [typeParameter, Build.program_bind] at hRun
  rcases hSlot : (ctx.program.method m).setParamType? slot.name slot.ty with _ | x
  · simp only [hSlot] at hRun
    exact (throw_ok hRun).elim
  · simp only [hSlot] at hRun
    cases hRun
    exact ⟨.cons hSlot hTypes, rfl⟩

theorem typeLocal_types (hRun : typeLocal m slot ctx = .ok () ctx')
    (hTypes : TypesLocals m slots ctx'.program q) :
    TypesLocals m (slot :: slots) ctx.program q ∧ ctx' = { ctx with program := ctx'.program } := by
  simp only [typeLocal, Build.program_bind] at hRun
  rcases hSlot : (ctx.program.method m).slotType? slot.name with _ | found
  · simp only [hSlot] at hRun
    cases hRun
    exact ⟨.new hSlot hTypes, rfl⟩
  simp only [hSlot] at hRun
  by_cases hEq : found = slot.ty
  · subst hEq
    simp only [ne_eq, not_true, if_false] at hRun
    cases hRun
    exact ⟨.known hSlot hTypes, rfl⟩
  · rw [if_pos hEq, Build.describe_bind, Build.describe_bind] at hRun
    exact (throw_ok hRun).elim

/- All names that a directive gives types. -/
theorem typedLoop_ok {step : TypedName → Build Unit}
    {Types : List TypedName → Program → Program → Prop} (hNil : ∀ q, Types [] q q)
    (hCons : ∀ {slot slots ctx ctx' q}, step slot ctx = .ok () ctx' →
        Types slots ctx'.program q → Types (slot :: slots) ctx.program q
          ∧ ctx' = { ctx with program := ctx'.program })
    (hRun : (ForIn.forIn slots PUnit.unit fun slot _ => do
        (step slot : Build Unit)
        Pure.pure (ForInStep.yield PUnit.unit) : Lower PUnit) s = .ok u s') :
    Types slots s.ctx.program s'.ctx.program ∧ s'.ctx.tree = s.ctx.tree
      ∧ s'.ctx.options = s.ctx.options ∧ s'.loader = s.loader := by
  induction slots generalizing s with
  | nil =>
    cases hRun
    exact ⟨hNil _, rfl, rfl, rfl⟩
  | cons slot slots ih =>
    rw [List.forIn_cons] at hRun
    rcases bind_ok hRun with ⟨_, s₁, hBody, hRest⟩
    rcases build_step hBody with ⟨_, ctx₁, hStep, hEnd⟩
    cases hEnd
    rcases ih hRest with ⟨hTypes, hTree, hOptions, hLoader⟩
    rcases hCons hStep hTypes with ⟨hAll, hSame⟩
    rw [hSame] at hTree hOptions
    exact ⟨hAll, hTree, hOptions, hLoader⟩

theorem inlineKeywords_changes [Lasting R] (found : InlineText) :
    Stays R (inlineKeywords p pairs found) := by
  induction pairs generalizing found with
  | nil => exact .pure found
  | cons pair pairs ih =>
    unfold inlineKeywords
    split
    · exact .bind (.need _) fun _ => ih _
    · exact .bind typeArgument_changes fun _ => ih _
    · exact ih _
    · exact .refuse _

/- Code that is only a declaration. -/
theorem emits_nothing (hLowers : Lowers E job s.ctx.program s'.ctx.program [] none)
    (hTree : s'.ctx.tree = s.ctx.tree) (hOptions : s'.ctx.options = s.ctx.options)
    (hLoader : s'.loader = s.loader) : Emits E job s s' p none :=
  ⟨[], none, hLowers, rfl, places_nothing hTree hOptions hLoader p⟩

/- Directives for the method itself change its declaration and leave no code. -/
theorem resultDirective_ok (hInside : Inside E s p) (hSend : Sends node none "result" args)
    (hRun : resultDirective p args span s = .ok () s') : Emits E (.code node keep) s s' p none := by
  rcases bind_ok hRun with ⟨⟨m, ty⟩, s₁, hTarget, hRest⟩
  simp only [resultTarget, context_bind, scopeOf_inMethod hInside.place] at hTarget
  rcases args with _ | ⟨tyNode, _ | ⟨extra, rest⟩⟩
  · exact (refuse_ok hTarget).elim
  · rcases bind_ok hTarget with ⟨found, s₂, hType, hEnd⟩
    rcases typeArgument_ok hInside hType with ⟨hNamed, rfl⟩
    cases hEnd
    cases hRest
    exact emits_nothing (.directive (.result hSend hNamed)) rfl rfl rfl
  · exact (refuse_ok hTarget).elim

/- An export is declared under the name that it is given, or under that of the method. -/
theorem exportDirective_ok (hInside : Inside E s p) (hSend : Sends node none "export" args)
    (hRun : exportDirective p args node.span s = .ok () s') :
    Emits E (.code node keep) s s' p none := by
  -- the name is read off, then the method is exported
  have hName : ∀ (name : Option String),
        build (exportAs (.method E.method) name node.span) s = .ok () s' →
        Emits E (.code node keep) s s' p none := by
    intro name hExport
    rcases build_ok hExport with ⟨ctx', hStep, rfl⟩
    have hOnly := exportAs_declaring (.method E.method) name node.span
    have hSame := hOnly _ _ _ hStep
    exact ⟨[], none, .directive (.exportName hSend (hOnly.names hStep)), rfl,
      places_of_names hSame.same p⟩
  rcases args with _ | ⟨nameNode, _ | ⟨extra, rest⟩⟩
  · rcases bind_ok hRun with ⟨found, s₁, hFound, hRest⟩
    cases hFound
    simp only [context_bind, methodOf?_inMethod hInside.place] at hRest
    exact hName none hRest
  · rcases bind_ok hRun with ⟨found, s₁, hFound, hRest⟩
    rcases map_ok hFound with ⟨name, hArgument, rfl⟩
    have hSame : s = s₁ := nameArgument_changes.ok s name s₁ hArgument
    rw [← hSame] at hRest
    simp only [context_bind, methodOf?_inMethod hInside.place] at hRest
    exact hName (some name) hRest
  · exact (bind_not_ok (fun _ _ => refuse_ok) hRun).elim

/- An import binds the method to a function of the host. -/
theorem importDirective_ok (hSend : Sends node none "import" args)
    (hRun : importDirective E.method args span s = .ok () s') :
    Emits E (.code node keep) s s' p none := by
  rcases args with _ | ⟨moduleName, _ | ⟨function, _ | ⟨extra, rest⟩⟩⟩
  · exact (refuse_ok hRun).elim
  · exact (refuse_ok hRun).elim
  · rcases bind_ok hRun with ⟨a, s₁, hFirst, hRest⟩
    have hSame₁ : s = s₁ := nameArgument_changes.ok s a s₁ hFirst
    rcases bind_ok hRest with ⟨b, s₂, hSecond, hEnd⟩
    have hSame₂ : s₁ = s₂ := nameArgument_changes.ok s₁ b s₂ hSecond
    rw [← hSame₂, ← hSame₁] at hEnd
    cases hEnd
    exact emits_nothing (.directive (.importName hSend)) rfl rfl rfl
  · exact (refuse_ok hRun).elim

variable (hInside : Inside E s p)
include hInside

/- A raw text is one node of the type that its keywords say. -/
theorem inlineDirective_ok (hSend : Sends node none "inline" args)
    (hRun : inlineDirective p args span s = .ok n s') :
    Emits E (.code node keep) s s' p (some n) := by
  rcases bind_ok hRun with ⟨m, s₁, hMethod, hRest⟩
  rcases directiveMethod_ok hInside hMethod with ⟨_, rfl⟩
  dsimp only at hRest
  rcases args with _ | ⟨keywords, _ | ⟨extra, rest⟩⟩
  · exact (refuse_ok hRest).elim
  rotate_left
  · exact (refuse_ok hRest).elim
  rcases hPairs : keywords.pairs? with _ | pairs
  · simp only [hPairs] at hRest
    exact (refuse_ok hRest).elim
  simp only [hPairs] at hRest
  rcases bind_ok hRest with ⟨found, s₁, hFound, hRest⟩
  have hSame : s = s₁ := (inlineKeywords_changes {}).ok s found s₁ hFound
  rw [← hSame] at hRest
  rcases hText : found.text with _ | text
  · simp only [hText] at hRest
    exact (refuse_ok hRest).elim
  simp only [hText] at hRest
  rcases addNodeAt_ok hInside.isOpen hRest with ⟨hPlaces, hProgram⟩
  refine emits_one ?_ rfl hPlaces
  rw [hProgram]
  exact .operand (.inlineText hSend)

/- A directive that only has a place outside of methods. -/
theorem directiveOutside_ok (hRun : directiveOutside p name span s = .ok () s') : False := by
  simp only [directiveOutside, context_bind, methodOf?_inMethod hInside.place] at hRun
  exact wrongScope_ok hRun

/- Directives for classes are refused inside of methods. -/
theorem directiveClass_ok (hRun : directiveClass p name span s = .ok c s') : False := by
  simp only [directiveClass, context_bind, scopeOf_inMethod hInside.place] at hRun
  exact wrongScope_ok hRun

/- What a directive does inside of a method. -/
theorem directive_ok {result : Option NodeId}
    (hSend : Sends node none name args) (hName : Directive.ofName? name = some which)
    (hRun : directive d p which name args node.span s = .ok result s') :
    Emits E (.code node keep) s s' p result := by
  have hNamed := Directive.name_of_ofName? hName
  cases which with
  | arg =>
    rcases bind_ok hRun with ⟨m, s₁, hMethod, hRest⟩
    rcases directiveMethod_ok hInside hMethod with ⟨rfl, rfl⟩
    rcases bind_ok hRest with ⟨slots, s₁, hSlots, hRest⟩
    rcases typedNames_ok hInside hSlots with ⟨keywords, pairs, rfl, hPairs, hTyped, rfl⟩
    rcases bind_ok hRest with ⟨_, s₂, hLoop, hEnd⟩
    cases hEnd
    rcases typedLoop_ok (fun _ => TypesParams.nil) typeParameter_types hLoop with
      ⟨hTypes, hTree, hOptions, hLoader⟩
    rw [hNamed] at hSend
    exact emits_nothing (.directive (.arg hSend hPairs hTyped hTypes)) hTree hOptions hLoader
  | localVar =>
    rcases bind_ok hRun with ⟨m, s₁, hMethod, hRest⟩
    rcases directiveMethod_ok hInside hMethod with ⟨rfl, rfl⟩
    rcases bind_ok hRest with ⟨slots, s₁, hSlots, hRest⟩
    rcases typedNames_ok hInside hSlots with ⟨keywords, pairs, rfl, hPairs, hTyped, rfl⟩
    rcases bind_ok hRest with ⟨_, s₂, hLoop, hEnd⟩
    cases hEnd
    rcases typedLoop_ok (fun _ => TypesLocals.nil) typeLocal_types hLoop with
      ⟨hTypes, hTree, hOptions, hLoader⟩
    rw [hNamed] at hSend
    exact emits_nothing (.directive (.localVar hSend hPairs hTyped hTypes)) hTree hOptions hLoader
  | result =>
    rcases bind_ok hRun with ⟨_, s₁, hStep, hEnd⟩
    cases hEnd
    rw [hNamed] at hSend
    exact resultDirective_ok hInside hSend hStep
  | exportName =>
    rcases bind_ok hRun with ⟨_, s₁, hStep, hEnd⟩
    cases hEnd
    rw [hNamed] at hSend
    exact exportDirective_ok hInside hSend hStep
  | importName =>
    rcases bind_ok hRun with ⟨m, s₁, hMethod, hRest⟩
    rcases directiveMethod_ok hInside hMethod with ⟨rfl, rfl⟩
    rcases bind_ok hRest with ⟨_, s₂, hStep, hEnd⟩
    cases hEnd
    rw [hNamed] at hSend
    exact importDirective_ok hSend hStep
  | accessor | attrType => exact (bind_not_ok (fun _ _ => directiveClass_ok hInside) hRun).elim
  | inlineText =>
    rcases map_ok hRun with ⟨k, hStep, rfl⟩
    rw [hNamed] at hSend
    exact inlineDirective_ok hInside hSend hStep
  | mixin | require =>
    exact (bind_not_ok (fun _ _ => bind_not_ok (fun _ _ => directiveOutside_ok hInside)) hRun).elim

end Lower

end RubyWat
