import RubyWat.Proofs.Translated

/-
  Methods that compute with integers, from head to end.

  The directives at the head of a method give parameters their widths and say what the method
  gives.  After them, the names of the method change only as its statements declare variables.

  Main statement: the code of a definition is code for the method that is read from it
  (`shaped_of_lowersBody`).
-/

-- Directives

namespace RubyWat

open Lower List Option

variable {node : Dump.Node} {m : Integral.Method}
variable {Γ : Integral.Scope}
variable {slots : List TypedName} {names : List String}
variable {k : MethodId} {p p' : Program} {name x : String}

namespace Translation

/- A call has one form. -/
theorem Sends.unique (hFirst : Sends node receiver name args)
    (hSecond : Sends node receiver' name' args') :
    receiver = receiver' ∧ name = name' ∧ args = args' := by
  cases hFirst with
  | plain _ hItems hName =>
    cases hSecond with
    | plain _ _ hName' =>
      cases hName.symm.trans hName'
      exact ⟨rfl, rfl, rfl⟩
    | toReceiver _ hItems' => cases hItems.symm.trans hItems'
  | toReceiver _ hItems hName =>
    cases hSecond with
    | plain _ hItems' => cases hItems.symm.trans hItems'
    | toReceiver _ hItems' hName' =>
      cases hName.symm.trans hName'
      cases hItems.symm.trans hItems'
      exact ⟨rfl, rfl, rfl⟩

end Translation

namespace Integral

open Translation

/- A directive is a call without a receiver. -/
theorem sends_of_directive (hName : directive? node = some name) :
    Sends node none name (node.nodesFrom 2) := by
  unfold directive? at hName
  split at hName
  · rename_i items hTag hItems
    exact .plain hTag hItems (toOption_eq_some.mp hName)
  · cases hName

theorem directive_of_isHeader (hHeader : isHeader node = true) :
    ∃ name, (name = "arg" ∨ name = "result") ∧ Sends node none name (node.nodesFrom 2) := by
  simp only [isHeader, Bool.or_eq_true, decide_eq_true_eq] at hHeader
  rcases hHeader with hName | hName
  · exact ⟨_, .inl rfl, sends_of_directive hName⟩
  · exact ⟨_, .inr rfl, sends_of_directive hName⟩

/- Code of a directive is none, and it declares something. -/
theorem directs_of_lowers (hHeader : isHeader node = true)
    (hLowers : Lowers E (.node node keep) p p' gs out) :
    gs = [] ∧ out = none ∧ Directs E.method p node p' := by
  rcases directive_of_isHeader hHeader with ⟨name, hName, hSend⟩
  have hTag := hSend.tag_eq
  have hCode : ∃ out', Lowers E (.code node keep) p p' gs out' ∧ (out' = none → out = none) := by
    cases hLowers with
    | something hCode => exact ⟨_, hCode, by simp⟩
    | nothing hCode => exact ⟨_, hCode, id⟩
  rcases hCode with ⟨out', hCode, hNone⟩
  cases hCode with
  | directive hDirects => exact ⟨rfl, hNone rfl, hDirects⟩
  | operand hOperand =>
    cases hOperand with
    | label hOther => cases (hSend.unique hOther).1
    | inlineText hOther =>
      rcases hSend.unique hOther with ⟨_, rfl, _⟩
      rcases hName with hName | hName <;> simp at hName
    | read hKind =>
      rw [hTag] at hKind
      cases hKind
    | int hOther | trueLit hOther | falseLit hOther | str hOther
    | const hOther | selfRef hOther => cases hTag.symm.trans hOther
  | selfCall hOther hDirective =>
    rcases hSend.unique hOther with ⟨_, rfl, _⟩
    rcases hName with rfl | rfl <;> cases hDirective
  | classCall hOther | castCall hOther | valueCall hOther => cases (hSend.unique hOther).1
  | assign hKind =>
    rw [hTag] at hKind
    cases hKind
  | sequence hOther =>
    rw [hTag] at hOther
    rcases hOther with hOther | hOther <;> cases hOther
  | logical hOther | testedLoop hOther | postTestedLoop hOther =>
    split at hOther <;> cases hTag.symm.trans hOther
  | operatorAssign hOther | negation hOther | ifThen hOther
  | ifThenElse hOther | breakLoop hOther | nextLoop hOther
  | ret hOther => cases hTag.symm.trans hOther

-- Heads Of Methods

open Code (Fragment)
/- A method of a class whose head has been read.  Nothing but its parameters is declared. -/
structure Headed (k : MethodId) (m : Method) (p : Program) : Prop where
  isIn : k.index < p.methods.size
  isClass : (p.method k).scope = .onClass
  params_eq : (p.method k).params = m.params.map slotOf
  locals_eq : (p.method k).locals = []
  distinct : (m.params.map Prod.fst).Nodup
  result_eq : m.saysResult = true → (p.method k).result.held? = m.result.map Width.machine
  default_eq : m.saysResult = false → m.result = some .narrow

theorem directive_of_sends (hSend : Sends node none name args) :
    directive? node = some name ∧ node.nodesFrom 2 = args := by
  cases hSend with
  | plain hTag hItems hName => simp [directive?, hTag, hItems, hName, Except.toOption]

theorem map_fst_typeParam (Γ : Scope) (typed : String × Width) :
    (typeParam Γ typed).map Prod.fst = Γ.map Prod.fst := by
  simp only [typeParam, List.map_map]
  refine List.map_congr_left fun slot _ => ?_
  by_cases hName : slot.1 = typed.1 <;> simp [hName]

theorem typeParam_of_notMem (hFree : typed.1 ∉ Γ.map Prod.fst) : typeParam Γ typed = Γ := by
  unfold typeParam
  conv_rhs => rw [← map_id Γ]
  refine map_congr_left fun slot hMem => ?_
  have hOther : slot.1 ≠ typed.1 := fun hSame => hFree (hSame ▸ mem_map_of_mem hMem)
  exact if_neg hOther

/- The first parameter with a name is the only one. -/
theorem modify_slots (w : Width) (hDistinct : (Γ.map Prod.fst).Nodup)
    (hFind : (Γ.map slotOf).findIdx? (·.name == x) = some i) :
    (Γ.map slotOf).modify i (fun s => { s with ty := w.type })
      = (typeParam Γ (x, w)).map slotOf := by
  induction Γ generalizing i with
  | nil => cases hFind
  | cons slot Γ ih =>
    rcases slot with ⟨y, a⟩
    rw [map_cons, nodup_cons] at hDistinct
    rw [map_cons, findIdx?_cons] at hFind
    by_cases hName : y = x
    · subst hName
      have hHead : typeParam ((y, a) :: Γ) (y, w) = (y, w) :: Γ := by
        rw [typeParam, map_cons]
        exact congrArg₂ _ (if_pos rfl) (typeParam_of_notMem hDistinct.1)
      simp only [slotOf, BEq.rfl, if_true, some.injEq] at hFind
      subst hFind
      rw [hHead]
      rfl
    · have hHead : typeParam ((y, a) :: Γ) (x, w) = (y, a) :: typeParam Γ (x, w) := by
        rw [typeParam, map_cons]
        exact congrArg₂ _ (if_neg hName) rfl
      rw [if_neg (by simpa [slotOf] using hName)] at hFind
      rcases map_eq_some_iff.mp hFind with ⟨j, hRest, rfl⟩
      rw [hHead, map_cons, map_cons, modify_succ_cons, ih hDistinct.2 hRest]

namespace Headed

theorem modify (hHeaded : Headed k m p) (hScope : (f (p.method k)).scope = (p.method k).scope)
    (hParams : (f (p.method k)).params = m'.params.map slotOf)
    (hLocals : (f (p.method k)).locals = (p.method k).locals)
    (hNames : m'.params.map Prod.fst = m.params.map Prod.fst)
    (hResult : m'.saysResult = true → (f (p.method k)).result.held? = m'.result.map Width.machine)
    (hDefault : m'.saysResult = false → m'.result = some .narrow) :
    Headed k m' (p.modifyMethod k f) := by
  have hSelf := Program.method_modifyMethod_self f hHeaded.isIn
  refine ⟨?_, ?_, ?_, ?_, ?_, ?_, hDefault⟩
  · simpa [Program.modifyMethod] using hHeaded.isIn
  · rw [hSelf, hScope, hHeaded.isClass]
  · rw [hSelf, hParams]
  · rw [hSelf, hLocals, hHeaded.locals_eq]
  · rw [hNames]
    exact hHeaded.distinct
  · rw [hSelf]
    exact hResult

/- A parameter that gets its width. -/
theorem typed (hHeaded : Headed k m p) (hSlot : (p.method k).setParamType? x w.type = some y) :
    Headed k { m with params := typeParam m.params (x, w) } (p.modifyMethod k fun _ => y) := by
  rcases map_eq_some_iff.mp hSlot with ⟨i, hFind, rfl⟩
  refine hHeaded.modify rfl ?_ rfl (map_fst_typeParam _ _) hHeaded.result_eq hHeaded.default_eq
  rw [hHeaded.params_eq] at hFind ⊢
  exact modify_slots w hHeaded.distinct hFind

theorem typedAll {typed : List (String × Width)} (hHeaded : Headed k m p)
    (hTypes : TypesParams k slots p p')
    (hSlots : slots.map (fun slot => (slot.name, slot.ty)) = typed.map fun (x, w) => (x, w.type)) :
    Headed k { m with params := typed.foldl typeParam m.params } p' := by
  induction hTypes generalizing m typed with
  | nil =>
    cases map_eq_nil_iff.mp hSlots.symm
    exact hHeaded
  | @cons y slots p' slot p hSlot _ ih =>
    rcases typed with _ | ⟨⟨x, w⟩, typed⟩
    · cases hSlots
    rcases cons.inj hSlots with ⟨hFirst, hRest⟩
    rcases Prod.mk.inj hFirst with ⟨hName, hTy⟩
    rw [hName, hTy] at hSlot
    exact (ih (hHeaded.typed hSlot) hRest :)

end Headed

/- Keywords whose types are widths. -/
theorem widths_of_typedPairs (hPairs : TypedPairs p c pairs slots)
    (hTyped : pairs.mapM (fun (x, ty) => (widthNamed? ty).map (x, ·)) = some typed) :
    slots.map (fun slot => (slot.name, slot.ty)) = typed.map fun (x, w) => (x, w.type) := by
  induction hPairs generalizing typed with
  | nil =>
    cases hTyped
    rfl
  | cons hTy _ ih =>
    rcases mapM_cons_eq_some.mp hTyped with ⟨_, rest, hFirst, hRest, rfl⟩
    rcases map_eq_some_iff.mp hFirst with ⟨w, hWidth, rfl⟩
    cases hTy.symm.trans (typeNamed_width hWidth)
    rw [map_cons, map_cons, ih hRest]

/- The name of a type says how values of the type are held. -/
theorem held_of_resultNamed
    (hNamed : resultNamed? node = some result) (hTy : TypeNamed p c node ty) :
    ty.held? = result.map Width.machine := by
  rcases bind_eq_some_iff.mp hNamed with ⟨name, hText, hResult⟩
  rw [TypeNamed, hText, bind_some, Program.typeOfName?] at hTy
  split at hResult
  · rename_i machine hMachine
    rw [hMachine] at hTy
    cases hTy
    cases machine <;> cases hResult <;> rfl
  · rename_i hMachine
    rw [hMachine] at hTy
    dsimp only at hTy
    split at hResult
    · rename_i hBlank
      rw [if_pos hBlank] at hTy
      cases hResult
      cases hTy
      rfl
    · rename_i hBlank
      rw [if_neg hBlank] at hTy
      rcases map_eq_some_iff.mp hTy with ⟨c, _, rfl⟩
      cases hResult
      rfl

/- A directive at the head does what is read from it. -/
theorem Headed.directs (hHeaded : Headed k m p) (hDirects : Directs k p node p')
    (hHeader : isHeader node = true) (hRead : readHeader node = some header) :
    Headed k (m.headed header) p' := by
  rcases directive_of_isHeader hHeader with ⟨name, hName, hSelf⟩
  cases hDirects with
  | arg hSend hPairs hTyped hTypes =>
    rcases directive_of_sends hSend with ⟨hDirective, hArgs⟩
    simp only [readHeader, hArgs, hDirective, if_true, hPairs, bind_eq_bind, bind_some] at hRead
    rcases bind_eq_some_iff.mp hRead with ⟨typed, hAll, ⟨⟩⟩
    exact hHeaded.typedAll hTypes (widths_of_typedPairs hTyped hAll)
  | @result tyNode ty hSend hTy =>
    rcases directive_of_sends hSend with ⟨hDirective, hArgs⟩
    rw [readHeader, hArgs] at hRead
    dsimp only at hRead
    rw [if_neg (by simp [hDirective])] at hRead
    rcases bind_eq_some_iff.mp hRead with ⟨w, hNamed, ⟨⟩⟩
    exact hHeaded.modify rfl hHeaded.params_eq rfl rfl
      (fun _ => held_of_resultNamed hNamed hTy) (by rintro ⟨⟩)
  | localVar hSend | exportName hSend | importName hSend =>
    rcases hSelf.unique hSend with ⟨_, rfl, _⟩
    simp at hName
  | data hSend => cases (hSelf.unique hSend).1

-- Bodies

variable {E : Env} {nodes : List Dump.Node}
variable {fs : List Fragment}

/- The directives at the head of a body come first. -/
theorem Headed.rest (hHeaded : Headed E.method m p) (hBody : LowersBody E nodes p p' fs)
    (hHeaders : (nodes.takeWhile isHeader).mapM readHeader = some headers) :
    ∃ p₁, Headed E.method (headers.foldl Method.headed m) p₁
      ∧ LowersBody E (nodes.dropWhile isHeader) p₁ p' fs := by
  induction hBody generalizing m headers with
  | @nil p =>
    cases hHeaders
    exact ⟨p, hHeaded, .nil⟩
  | @last node p' gs out p hNode =>
    cases hIs : isHeader node with
    | false =>
      simp only [takeWhile_cons, dropWhile_cons, hIs] at hHeaders ⊢
      cases hHeaders
      exact ⟨p, hHeaded, .last hNode⟩
    | true =>
      rcases directs_of_lowers hIs hNode with ⟨rfl, rfl, hDirects⟩
      simp only [takeWhile_cons, dropWhile_cons, hIs] at hHeaders ⊢
      rcases mapM_cons_eq_some.mp hHeaders with ⟨header, _, hRead, ⟨⟩, rfl⟩
      exact ⟨p', hHeaded.directs hDirects hIs hRead, .nil⟩
  | @next node p p₁ gs out next nodes p' hs hNode hRest ih =>
    cases hIs : isHeader node with
    | false =>
      rw [takeWhile_cons_of_neg (by simp [hIs])] at hHeaders
      rw [dropWhile_cons_of_neg (by simp [hIs])]
      cases hHeaders
      exact ⟨p, hHeaded, .next hNode hRest⟩
    | true =>
      rcases directs_of_lowers hIs hNode with ⟨rfl, rfl, hDirects⟩
      rw [takeWhile_cons_of_pos hIs] at hHeaders
      rw [dropWhile_cons_of_pos hIs]
      rcases mapM_cons_eq_some.mp hHeaders with ⟨header, rest, hRead, hOthers, rfl⟩
      exact (ih (hHeaded.directs hDirects hIs hRead) hOthers :)

/- Statements after the head follow the rules for expressions. -/
theorem lowersBody_translates {x : RubyWat.Method} {es : List Expr}
    (hBody : LowersBody E nodes p p' fs) (hClass : x.scope = .onClass)
    (hScoped : Scoped x E.method Γ p) (hSaid : readAll nodes = some es) :
    ∃ gs out, fs = gs ++ out.toList ∧ Translates x E (.statements nodes (!x.result.isNone)) es Γ p'
        gs out := by
  induction hBody generalizing Γ es with
  | nil =>
    cases hSaid
    exact ⟨[], none, rfl, hScoped, fun S _ => ⟨.nil, by simp⟩⟩
  | @last node p' gs out p hNode =>
    rw [readAll_single] at hSaid
    rw [hScoped.method_eq] at hNode
    rcases lowers_emits hNode hClass hScoped hSaid with ⟨hSlots, hProduces⟩
    exact ⟨gs, out, rfl, hSlots, hProduces⟩
  | @next node p p₁ gs out next nodes p' hs hNode hRest ih =>
    rw [readAll_cons] at hSaid
    rcases bind_eq_some_iff.mp hSaid with ⟨es₁, hFirst, hSaid⟩
    rcases map_eq_some_iff.mp hSaid with ⟨es₂, hSecond, rfl⟩
    have hOne := lowers_emits hNode hClass hScoped hFirst
    rcases ih hOne.slots hSecond with ⟨gs', out', rfl, hAll⟩
    exact ⟨_, out', (append_assoc _ _ _).symm, hOne.next hAll (readAll_ne_nil hSecond)⟩

/- A method that is what was read, with its code before the last value is made to fit the result. -/
structure Shaped (fold : Bool) (x : RubyWat.Method) (m : Method) (gs : List Fragment) : Prop where
  isClass : x.scope = .onClass
  params_eq : x.params = m.params.map slotOf
  slots_eq : x.params ++ x.locals = m.scope.map slotOf
  distinct : (m.params.map Prod.fst).Nodup
  result_eq : m.saysResult = true → x.result.held? = m.result.map Width.machine
  default_eq : m.saysResult = false → m.result = some .narrow
  emits : Emits ⟨fold, m.scope, x.result⟩ none (.all m.body (!x.result.isNone) gs)

theorem body_headed (headers : List Header) (m : Method) :
    (headers.foldl Method.headed m).body = m.body := by
  induction headers generalizing m with
  | nil => rfl
  | cons header headers ih =>
    rw [foldl_cons, ih]
    cases header <;> rfl

theorem mapM_symbolAt (hNames : nodes.map (·.symbolAt 0) = names.map .ok) :
    nodes.mapM (fun node => (node.symbolAt 0).toOption) = some names := by
  induction nodes generalizing names with
  | nil =>
    cases map_eq_nil_iff.mp hNames.symm
    rfl
  | cons node nodes ih =>
    rcases names with _ | ⟨name, names⟩
    · cases hNames
    · rcases cons.inj hNames with ⟨hFirst, hRest⟩
      exact mapM_cons_eq_some.mpr ⟨name, names, congrArg Except.toOption hFirst, ih hRest, rfl⟩

/- The code of a definition is code for the method it stands for. -/
theorem shaped_of_lowersBody {parts : Lower.MethodParts}
    (hBody : LowersBody E (statementsOf parts.body) p p' fs) (hLoop : E.loop = none)
    (hNames : ParamNames parts.params.nodes names) (hNodup : names.Nodup)
    (hStarted : Started names (p.method E.method)) (hClass : (p.method E.method).scope = .onClass)
    (hRead : Method.read? parts = some m) : Shaped E.fold (p'.method E.method) m fs := by
  rcases Option.bind_eq_some_iff.mp hRead with ⟨_, hAll, hRead⟩
  cases hAll.symm.trans (mapM_symbolAt hNames.symbols)
  rcases Option.bind_eq_some_iff.mp hRead with ⟨headers, hHead, hRead⟩
  rcases Option.bind_eq_some_iff.mp hRead with ⟨es, hSaid, hRead⟩
  cases hRead
  have hHeaded : Headed E.method { params := names.map fun x => (x, .narrow), body := es } p := by
    refine ⟨Program.index_lt_of_isWritten hStarted.isWritten, hClass, ?_,
      hStarted.locals_eq, ?_, by rintro ⟨⟩, fun _ => rfl⟩
    · rw [hStarted.params_eq, List.map_map]
      rfl
    · simpa [Function.comp_def] using hNodup
  rcases hHeaded.rest hBody hHead with ⟨p₁, hHeaded₁, hRest⟩
  have hWords : (headers.foldl Method.headed
      { params := names.map fun x => (x, .narrow), body := es }).body = es :=
    body_headed headers _
  generalize headers.foldl Method.headed
    { params := names.map fun x => (x, .narrow), body := es } = m
    at hHeaded₁ hWords
  subst hWords
  have hScoped : Scoped (p₁.method E.method) E.method m.params p₁ :=
    ⟨hHeaded₁.isIn, rfl, by rw [hHeaded₁.locals_eq, List.append_nil, hHeaded₁.params_eq]⟩
  rcases lowersBody_translates hRest hHeaded₁.isClass hScoped hSaid with
    ⟨gs, out, rfl, hSlots, hProduces⟩
  have hMethod := hSlots.method_eq
  refine ⟨?_, ?_, ?_, hHeaded₁.distinct, ?_, hHeaded₁.default_eq, ?_⟩
  · rw [hMethod]
    exact hHeaded₁.isClass
  · rw [hMethod]
    exact hHeaded₁.params_eq
  · have hParams : (p'.method E.method).params = (p₁.method E.method).params := by
      rw [hMethod]
    rw [hParams]
    exact hSlots.slots_eq
  · rw [hMethod]
    exact hHeaded₁.result_eq
  · have hLeaves := hProduces _ (suits_self _ E.fold _)
    rw [hMethod, ← hLoop]
    exact hLeaves.1

end Integral

end RubyWat
