import RubyWat.Proofs.Headers
import RubyWat.Proofs.Simulation
import RubyWat.Proofs.StackDiscipline

/-
  Calls of methods that compute with integers.

  Main statement: in a program that compiles, the machine ends a call of such a method as its
  meaning says, in both directions (`local_calls`).
-/

-- Frames

namespace RubyWat

open Code Machine Translation Integral List

variable {fold : Bool} {m : Method} {params Γ : Scope}
variable {gs : List Fragment} {args : List Value}
variable {frame : Slots} {v : Value} {k : MethodId}
variable {y : RubyWat.Method} {x : String}

namespace Integral

theorem lookup_eq_none {α : Type} {slots : List (String × α)} :
    slots.lookup x = none ↔ x ∉ slots.map Prod.fst := by
  rw [lookup_eq_none_iff, mem_map]
  constructor
  · rintro hOther ⟨slot, hMem, rfl⟩
    simpa using hOther slot hMem
  · intro hFree slot hMem
    rw [bne_iff_ne]
    rintro rfl
    exact hFree ⟨slot, hMem, rfl⟩

/- Variables are declared once. -/
theorem nodup_declared (hDistinct : (Γ.map Prod.fst).Nodup) (es : List Expr) :
    ((declared Γ es).map Prod.fst).Nodup := by
  unfold declared
  generalize assignedIn es = assignments
  induction assignments generalizing Γ with
  | nil => exact hDistinct
  | cons assignment assignments ih =>
    refine ih ?_
    rw [declare_eq, extended]
    split
    · exact hDistinct
    rename_i hFree
    have hNew : assignment.1 ∉ Γ.map Prod.fst :=
      lookup_eq_none.mp (Option.not_isSome_iff_eq_none.mp hFree)
    rw [map_append]
    exact hDistinct.append (nodup_singleton _) (disjoint_singleton.mpr hNew)

/- Variables are declared after those that are there. -/
theorem prefix_declared (Γ : Scope) (es : List Expr) : Γ <+: declared Γ es := by
  unfold declared
  generalize assignedIn es = assignments
  induction assignments generalizing Γ with
  | nil => exact prefix_rfl
  | cons assignment assignments ih =>
    refine IsPrefix.trans ?_ (ih _)
    rw [declare_eq, extended]
    split
    · exact prefix_rfl
    · exact prefix_append Γ _

theorem insert_of_notMem (v : Value) (hFree : x ∉ frame.map Prod.fst) :
    frame.insert x v = frame ++ [(x, v)] := by
  induction frame with
  | nil => rfl
  | cons slot frame ih =>
    rcases slot with ⟨y, u⟩
    rw [map_cons, mem_cons, not_or] at hFree
    rw [Slots.insert, if_neg (Ne.symm hFree.1), ih hFree.2]
    rfl

theorem insertNew_of_notMem (v : Value) (hFree : x ∉ frame.map Prod.fst) :
    frame.insertNew x v = frame ++ [(x, v)] := by
  rw [Slots.insertNew, lookup_eq_none.mpr hFree]
  exact insert_of_notMem v hFree

/- A variable moves from those to come to those that are there. -/
theorem distinct_cons (v : Value) (hDistinct : (frame.map Prod.fst ++ x :: rest).Nodup) :
    x ∉ frame.map Prod.fst ∧ ((frame ++ [(x, v)]).map Prod.fst ++ rest).Nodup := by
  refine ⟨fun hMem => ?_, by simpa using hDistinct⟩
  exact disjoint_of_nodup_append hDistinct hMem (.head _)

theorem map_fst_zipWith (params : Scope) (args : List Value) :
    (params.zipWith (fun (x, w) v => (x, resize w v)) args).map Prod.fst
      = (params.map Prod.fst).take args.length := by
  induction params generalizing args with
  | nil => simp
  | cons slot params ih =>
    cases args with
    | nil => rfl
    | cons v args => simpa using ih args

/- Arguments become the values of parameters. -/
theorem bindParams_eq (args : List Value)
    (hDistinct : (frame.map Prod.fst ++ params.map Prod.fst).Nodup) :
    bindParams frame (params.map slotOf) args = .ok (frame
        ++ params.zipWith (fun (x, w) v => (x, resize w v)) args) := by
  induction params generalizing frame args with
  | nil => simp [bindParams, pure, Except.pure]
  | cons slot params ih =>
    cases args with
    | nil => simp [bindParams, pure, Except.pure]
    | cons v args =>
      rcases slot with ⟨x, w⟩
      rcases distinct_cons (resize w v) hDistinct with ⟨hFree, hRest⟩
      have hValue : Value.ofType w.machine v.toInt64 = .ok (resize w v) :=
        ofType_machine w v.toInt64
      simp only [map_cons, slotOf, Width.type, bindParams, ValueType.held?, hValue]
      refine (congrArg (bindParams · _ args) (insert_of_notMem _ hFree)).trans ?_
      rw [ih args hRest]
      simp

/- Other variables start as zero. -/
theorem bindLocals_eq (hDistinct : (frame.map Prod.fst ++ Γ.map Prod.fst).Nodup) :
    bindLocals frame (Γ.map slotOf) = .ok (frame ++ Γ.map fun (x, w) => (x, w.value 0)) := by
  induction Γ generalizing frame with
  | nil => simp [bindLocals, pure, Except.pure]
  | cons slot Γ ih =>
    rcases slot with ⟨x, w⟩
    rcases distinct_cons (w.value 0) hDistinct with ⟨hFree, hRest⟩
    simp only [map_cons, slotOf, Width.type, bindLocals, ValueType.held?, ofType_machine]
    refine (congrArg (bindLocals · _) (insertNew_of_notMem _ hFree)).trans ?_
    rw [ih hRest]
    simp

theorem lookup_zipWith
    (hVar : (params.zipWith (fun (x, w) v => (x, resize w v)) args).lookup x = some v) :
    params.lookup x = some (widthOf v) := by
  induction params generalizing args with
  | nil => simp at hVar
  | cons slot params ih =>
    rcases slot with ⟨y, w⟩
    cases args with
    | nil => cases hVar
    | cons u args =>
      rw [zipWith_cons_cons, lookup_cons] at hVar
      rw [lookup_cons]
      cases hName : x == y with
      | true =>
        rw [hName] at hVar
        cases hVar
        rw [widthOf_resize]
      | false =>
        rw [hName] at hVar
        exact ih hVar

theorem lookup_zeros (hVar : (Γ.map fun (x, w) => (x, w.value 0)).lookup x = some v) :
    Γ.lookup x = some (widthOf v) := by
  induction Γ with
  | nil => cases hVar
  | cons slot Γ ih =>
    rcases slot with ⟨y, w⟩
    rw [map_cons, lookup_cons] at hVar
    rw [lookup_cons]
    cases hName : x == y with
    | true =>
      rw [hName] at hVar
      cases hVar
      rw [widthOf_value]
    | false =>
      rw [hName] at hVar
      exact ih hVar

namespace Shaped

variable {x : RubyWat.Method}

/- The variables of a method are its parameters and others. -/
theorem scope_eq (hShaped : Shaped fold x m gs) :
    ∃ Γ, m.scope = m.params ++ Γ ∧ x.locals = Γ.map slotOf
      ∧ (m.params.map Prod.fst ++ Γ.map Prod.fst).Nodup := by
  rcases prefix_declared m.params m.body with ⟨Γ, hScope⟩
  have hDistinct := nodup_declared hShaped.distinct m.body
  rw [← hScope, map_append] at hDistinct
  have hSlots := hShaped.slots_eq
  rw [Method.scope, ← declared, ← hScope, map_append,
    hShaped.params_eq, append_cancel_left_eq] at hSlots
  exact ⟨Γ, hScope.symm, hSlots, hDistinct⟩

/- A call starts with the variables of the method. -/
theorem initialFrame_eq (hShaped : Shaped fold x m gs) (hClass : y.scope = .onClass)
    (hKept : x.Kept y) (args : List Value) : initialFrame y args = .ok (m.frame args) := by
  rcases hShaped.scope_eq with ⟨Γ, hScope, hLocals, hDistinct⟩
  rw [← hKept.locals_eq] at hLocals
  have hParams : y.allParams = m.params.map slotOf := by
    simp [RubyWat.Method.allParams, RubyWat.Method.receiver, RubyWat.Method.isInstance, hClass,
      hKept.params_eq, hShaped.params_eq]
  have hStart : (([] : Slots).map Prod.fst ++ m.params.map Prod.fst).Nodup := hShaped.distinct
  rw [initialFrame, hParams, hLocals, bindParams_eq args hStart]
  refine (bindLocals_eq ?_).trans ?_
  · rw [nil_append, map_fst_zipWith]
    exact hDistinct.sublist ((take_sublist _ _).append (Sublist.refl _))
  · rw [Method.frame, hScope, drop_left, nil_append]

/- They have the widths that the method gives them. -/
theorem fits_frame (hShaped : Shaped fold x m gs) (args : List Value) :
    Fits m.scope (m.frame args) := by
  rcases hShaped.scope_eq with ⟨Γ, hScope, _, hDistinct⟩
  intro y v hVar
  rw [Method.frame, hScope, drop_left, lookup_append, Option.or_eq_some_iff] at hVar
  rw [hScope, lookup_append]
  rcases hVar with hVar | ⟨_, hVar⟩
  · rw [lookup_zipWith hVar]
    rfl
  have hWidth := lookup_zeros hVar
  have hIn : y ∈ Γ.map Prod.fst := by
    by_contra hOut
    rw [lookup_eq_none.mpr hOut] at hWidth
    cases hWidth
  have hFree : m.params.lookup y = none :=
    lookup_eq_none.mpr fun hMem => disjoint_of_nodup_append hDistinct hMem hIn
  rw [hFree, hWidth]
  rfl

end Shaped

-- Results

variable {σ : Type}

/- The code of a body ends with the value that the method gives. -/
theorem Runs.finished
    (hRuns : Runs h depth Γ result L es (!ty.isNone) gs) (hTy : ty.held? = result.map Width.machine)
    (hFinish : Finishes ty gs fs) (hHeld : ∀ f ∈ fs, Held h.ctx.tree f) :
    AgreeOn (Fitting Γ) (behaviourOf h depth (fs.map (·.id)))
      (finish result <$> lifted L (meaningAll Γ result es)) := by
  have hBlank : ty = .none → result = none := by
    rintro rfl
    exact Option.map_eq_none_iff.mp hTy.symm
  cases hFinish with
  | empty hNone =>
    cases hBlank hNone
    subst hNone
    exact (hRuns.quiet (.inr rfl)).2 hHeld
  | terminated hEnds => exact hRuns.terminated _ hEnds hHeld
  | @blank last' before last hNone hEnds hDiscards =>
    cases hBlank hNone
    subst hNone
    cases hDiscards with
    | keep => exact (hRuns.quiet (.inr rfl)).2 hHeld
    | drop hSome =>
      cases hRuns with
      | silent hLast => exact absurd (lastTy?_eq_none hLast) hSome
      | valued hKeep => cases hKeep
  | @value last' before last hNone hEnds hCasts =>
    rcases result with _ | w
    · cases ty with
      | none => exact absurd rfl hNone
      | machine | ref => cases hTy
    have hKeep : (!ty.isNone) = true := by
      cases ty with
      | none => exact absurd rfl hNone
      | machine | ref => rfl
    rw [hKeep] at hRuns
    exact hRuns.promoted (fun _ => rfl) (mt hCasts.none_iff.mp hNone) hTy hCasts hHeld

/- How a call of a method is reported. -/
def Outcome.reported (name : String) : Outcome → Machine.Outcome
  | .value v => .value v
  | .fault f => .trap ((trapOf f).inFunction name)
  | .timeout => .outOfFuel

theorem resize_resize (w : Width) (v : Value) : resize w (resize w v) = resize w v :=
  value_toInt64 (widthOf_resize w v)

theorem deliver_finish (m : Method) (v : Option Value) :
    m.deliver (finish m.result v) = m.deliver v := by
  unfold Method.deliver
  cases m.result with
  | none => rfl
  | some w =>
    cases v with
    | none => rfl
    | some v => exact congrArg (Outcome.value <| some ·) (resize_resize w v)

section

variable {x : RubyWat.Method}

/- What is left behind becomes the result. -/
theorem ofResult_leave_ok (hResult : x.result.held? = m.result.map Width.machine)
    (name : String) (frame : Slots) (v : Option Value) (s : State σ) :
    Machine.Outcome.ofResult (leave x name frame (.ok v s))
      = ((m.deliver v).reported name, s.store) := by
  unfold leave Machine.resultOf Method.deliver
  rw [hResult]
  rcases m.result with _ | w
  · rfl
  cases v with
  | none => rfl
  | some v =>
    simp only [Option.map_some, ofType_machine]
    rfl

/- The end of a body as the end of a call. -/
theorem ofResult_leave (hResult : x.result.held? = m.result.map Width.machine)
    (hReal : ∀ s, onMachine none store r ≠ .error .outOfFuel s) (name : String) (frame : Slots) :
    Machine.Outcome.ofResult (leave x name frame (onMachine none store r))
      = ((m.outcome r).reported name, store) := by
  cases r with
  | ok v s => exact ofResult_leave_ok hResult name frame v ⟨s, store⟩
  | error e s =>
    cases e with
    | ret v => exact ofResult_leave_ok hResult name frame v ⟨s, store⟩
    | fault f => rfl
    | leave | again | timeout => exact absurd rfl (hReal _)

theorem ofResult_leave_outOfFuel
    (hReal : (Outcome.ofResult (leave x name frame r)).1 ≠ .outOfFuel) (s : State σ) :
    r ≠ .error .outOfFuel s := by
  rintro rfl
  exact hReal rfl

end

-- Calls

/- The statements of a method, with the value that it gives. -/
def Method.statements (m : Method) (fuel : Nat) : Run (Option Value) :=
  finish m.result <$> runAll m.scope m.result fuel m.body

theorem call_eq (m : Method) (fuel : Nat) (args : List Value) :
    m.call fuel args = m.outcome (m.statements fuel (m.frame args)) := by
  rw [Method.call, Method.statements]
  cases hRun : runAll m.scope m.result fuel m.body (m.frame args) with
  | ok v frame =>
    rw [map_of_ok hRun]
    exact (deliver_finish m v).symm
  | error e frame => rw [map_eq_pure_bind, bind_of_error hRun]

theorem statements_eq (m : Method) :
    ends .timeout m.statements = finish m.result <$> meaningAll m.scope m.result m.body :=
  ends_map (finish m.result) (runAll_grows _ _ m.body)

/- A method of a program whose code is code for the method that was read. -/
structure Method.CodedIn (m : Method) (ctx : Context) (k : MethodId) : Prop where
  written : (ctx.program.method k).flags.imported = false
  frame_eq : ∀ args, initialFrame (ctx.program.method k) args = .ok (m.frame args)
  fits : ∀ args, Fits m.scope (m.frame args)
  result_eq : (ctx.program.method k).result.held? = m.result.map Width.machine
  code : ∃ f gs ty fold, (ctx.program.method k).body = some f.id
      ∧ Held ctx.tree f ∧ ty.held? = m.result.map Width.machine
      ∧ Emits ⟨fold, m.scope, ty⟩ none (.all m.body (!ty.isNone) gs)
      ∧ Finishes ty gs f.children

namespace Method.CodedIn

variable {h : Host σ}

/- The body of a method does what its statements mean. -/
theorem agrees (hCoded : m.CodedIn h.ctx k) (depth : Nat) :
    ∃ body, (h.ctx.program.method k).body = some body ∧ AgreeOn (Fitting m.scope)
        (behaviourOf h depth (h.ctx.tree.children body))
        (lifted none (ends .timeout m.statements)) := by
  rcases hCoded.code with ⟨f, gs, ty, fold, hBody, hHeld, hTy, hEmits, hFinish⟩
  refine ⟨f.id, hBody, ?_⟩
  have hRuns : Runs h depth m.scope m.result none m.body _ gs := emits_simulates hEmits hTy
  rw [hHeld.children, statements_eq, lifted_map]
  exact hRuns.finished hTy hFinish fun _ => hHeld.child

/- Calls end as their meaning says, and leave the store alone. -/
theorem call_iff (hCoded : m.CodedIn h.ctx k) (hDepth : 0 < h.maxDepth) (hReal : out ≠ .outOfFuel) :
    (∃ fuel, callWithFuel fuel h k args store = (out, store')) ↔ store' = store ∧ ∃ fuel,
        (m.call fuel args).reported (h.ctx.program.methodName k) = out := by
  rcases hCoded.agrees 1 with ⟨body, hBody, hAgree⟩
  have hState : Fitting m.scope (⟨m.frame args, store⟩ : Machine.State σ) := hCoded.fits args
  have hCall : ∀ fuel, callWithFuel fuel h k args store
        = Machine.Outcome.ofResult (Machine.leave (h.ctx.program.method k)
            (h.ctx.program.methodName k) []
            (sequenceFrom (eval h fuel 1) none (h.ctx.tree.children body)
              ⟨m.frame args, store⟩)) := by
    intro fuel
    rw [callWithFuel, Machine.callMethod]
    simp only [hCoded.written, hBody, hCoded.frame_eq, Nat.not_le.mpr hDepth]
    rfl
  constructor
  · rintro ⟨fuel, hOut⟩
    rw [hCall] at hOut
    have hEnds := ofResult_leave_outOfFuel (by rw [hOut]; exact hReal)
    rcases (hAgree _ hState _).mp ⟨⟨fuel, rfl⟩, hEnds⟩ with ⟨r, ⟨⟨fuel', hRun⟩, _⟩, hSame⟩
    dsimp only at hRun hSame
    rw [← hSame, ofResult_leave hCoded.result_eq (hSame ▸ hEnds)] at hOut
    cases hOut
    exact ⟨rfl, fuel', by rw [call_eq, hRun]⟩
  · rintro ⟨rfl, fuel, hOut⟩
    rw [call_eq] at hOut
    have hEnds : ∀ frame, m.statements fuel (m.frame args) ≠ .error .timeout frame := by
      intro frame hStop
      rw [hStop] at hOut
      exact hReal hOut.symm
    rcases (hAgree _ hState _).mpr ⟨_, ⟨⟨fuel, rfl⟩, hEnds⟩, rfl⟩ with ⟨⟨fuel', hEval⟩, hFinal⟩
    dsimp only at hEval hFinal
    exact ⟨fuel', by rw [hCall, hEval, ofResult_leave hCoded.result_eq hFinal, hOut]⟩

end Method.CodedIn

-- Finished Programs

/-
  A method of a program that is what its definition says: the
  host does not provide it, and nothing else declares a result.
-/
structure Method.Alone (m : Method) (x : RubyWat.Method) : Prop where
  written : x.flags.imported = false
  undeclared : m.saysResult = false → x.flags.declaredResult = false
  result_eq : m.saysResult = true → x.result.held? = m.result.map Width.machine

/- The result was the same when the code was made. -/
theorem Method.Alone.results {x : RubyWat.Method} (hAlone : m.Alone y)
    (hShaped : Shaped fold x m gs) (hKept : x.Kept y) (hClass : y.scope = .onClass)
    (hDefault : y.HasDefault) :
    x.result.held? = m.result.map Width.machine ∧ y.result.held? = m.result.map Width.machine := by
  cases hSays : m.saysResult with
  | true => exact ⟨hShaped.result_eq hSays, hAlone.result_eq hSays⟩
  | false =>
    have hSilent := hAlone.undeclared hSays
    have hWritten := hKept.isWritten
    simp only [RubyWat.Method.isWritten, Bool.and_eq_true, Bool.not_eq_true'] at hWritten
    have hResult := hDefault hClass hWritten.2 hSilent
    rw [← hKept.result_eq hSilent, hResult, hShaped.default_eq hSays]
    exact ⟨rfl, rfl⟩

/- The code of a method that is compiled and left alone. -/
theorem codedIn_of_compiledAs {d : Definition} {ctx₀ ctx : Context} {c : ClassId}
    (hAs : d.CompiledAs ctx₀ c k ctx) (hDefault : (ctx.program.method k).HasDefault)
    (hScope : d.scope = .onClass) (hRead : Method.read? d.parts = some m)
    (hAlone : m.Alone (ctx.program.method k)) : m.CodedIn ctx k := by
  have hNames := hAs.evolves.names
  cases hAs.realizes with
  | imported _ _ _ hImported => cases (hNames.imported k hImported).symm.trans hAlone.written
  | @written names p₀ p₁ f hParams hNodup hCompletes =>
    rcases hCompletes.code with ⟨gs, hBody, hFinish⟩
    have hStarted := hCompletes.started
    have hDeclares := lowersBody_declares hBody
    have hWritten := (hDeclares.marked k).isWritten hStarted.isWritten
    rw [← hCompletes.program_eq] at hWritten
    have hIndexed := hAs.evolves.rooted.regular.indexed
    have hLast : (ctx.program.method k).scope = .onClass :=
      (hIndexed.own (hNames.ownMethod?_eq_some hAs.own)).2.2.2.trans hScope
    have hClass : (ctx₀.program.method k).scope = .onClass :=
      (hNames.same k (Program.index_lt_of_isWritten hWritten)).scope_eq.symm.trans hLast
    have hFirst : (p₀.method k).scope = .onClass := by
      have hIn := Program.index_lt_of_isWritten hStarted.isWritten
      rw [← (hDeclares.lasts.same k hIn).scope_eq, ← hCompletes.program_eq]
      exact hClass
    have hShaped := shaped_of_lowersBody hBody rfl hParams hNodup hStarted hFirst hRead
    rw [← hCompletes.program_eq] at hShaped hFinish
    have hKept := hNames.kept k (by simp) hWritten
    rcases hAlone.results hShaped hKept hLast hDefault with ⟨hThen, hNow⟩
    have hHeld := (hCompletes.defined.steps hAs.evolves.tree).held
    refine ⟨hAlone.written, hShaped.initialFrame_eq hLast hKept, hShaped.fits_frame, hNow, f, gs, _,
      _, ?_, hHeld, hThen, hShaped.emits, hFinish⟩
    rw [hKept.body_eq, hCompletes.program_eq]
    exact hCompletes.body_eq

end Integral

/-
  In a program that compiles, calls of a method that computes
  with integers in local variables end as its meaning says.
-/
theorem local_calls {options : Options} {loader : Loader} {main : Load SourceUnit}
    {ctx : Context} {root : Dump.Node} {d : Definition} {m : Integral.Method}
    (hRun : (Compilation.run options loader main).result = .ok ctx)
    (hReads : Compilation.Reads options loader main root) (hMem : d ∈ root.definitions none)
    (hScope : d.scope = .onClass) (hRead : Integral.Method.read? d.parts = some m) :
    ∃ c k, Owns ctx.program d.around c ∧ ctx.program.ownMethod? c d.parts.name .onClass = some k
      ∧ (m.Alone (ctx.program.method k) → ∀ {σ : Type} (h : Machine.Host σ), h.ctx = ctx →
          0 < h.maxDepth → ∀ args store store' out, out ≠ .outOfFuel →
            ((∃ fuel, Machine.callWithFuel fuel h k args store = (out, store'))
              ↔ store' = store ∧ ∃ fuel, (m.call fuel args).reported (ctx.program.methodName k)
                  = out)) := by
  rcases Compilation.run_compiled hRun hReads d hMem with ⟨ctx₀, c, k, hAs⟩
  have hNames := hAs.evolves.names
  have hOwn := hNames.ownMethod?_eq_some hAs.own
  have hDefault := (Compilation.run_evolves hRun).names.hasDefault fun m => by
      rw [Program.method_of_size_le (Nat.zero_le _)]
      exact fun _ _ _ => rfl
  refine ⟨c, k, hAs.owns.lasts hNames, hScope ▸ hOwn, ?_⟩
  rintro hAlone σ h rfl hDepth args store store' out hReal
  have hCoded := Integral.codedIn_of_compiledAs hAs (hDefault k) hScope hRead hAlone
  exact hCoded.call_iff hDepth hReal

/-
  A method that counts how often a wide number is halved, or
  tripled with one added, until it is one.
-/
def halvings : SourceUnit :=
  let node tag items : Dump.Node := ⟨tag, items, .generated⟩
  let number raw := node .int [.int raw]
  let n := node .getLocal [.symbol "n"]
  let operate left op raw := node .send [.node left, .symbol op, .node (number raw)]
  let change x op raw :=
    node .opAssign [.node (node .setLocal [.symbol x]), .symbol op, .node (number raw)]
  let direct name arg := node .send [.nil, .symbol name, .node arg]
  let wide := node .sym [.symbol "I64"]
  let pair := node .pair [.node (node .sym [.symbol "n"]), .node wide]
  let giveUp := node .cond [.node (operate n "<=" 0), .node (node .ret [.node (number (-1))]), .nil]
  let halve := node .begin [.node (change "n" "/" 2), .node (node .nextLoop [])]
  let even := node .cond [.node (operate (operate n "%" 2) "==" 0), .node halve, .nil]
  let odd := node .setLocal [.symbol "n", .node (operate (operate n "*" 3) "+" 1)]
  let body := node .begin [.node giveUp, .node (change "count" "+" 1), .node even, .node odd]
  let statements := node .begin
      [.node (direct "arg" (node .kwargs [.node pair])),
        .node (direct "result" wide),
        .node (node .setLocal [.symbol "count", .node (number 0)]),
        .node (node .untilLoop [.node (operate n "==" 1), .node body]),
        .node (node .getLocal [.symbol "count"])]
  let params := node .params [.node (node .param [.symbol "n"])]
  ⟨"main", none, node .methodDef [.symbol "steps", .node params, .node statements]⟩

/- From six it takes eight steps, with any host and any store. -/
theorem halvings_calls : ∃ ctx, (Compilation.run {} {} (pure halvings)).result = .ok ctx
      ∧ ∀ {σ : Type} (h : Host σ), h.ctx = ctx → 0 < h.maxDepth → ∀ store, ∃ fuel,
          callWithFuel fuel h ⟨0⟩ [.i64 6] store = (.value (some (.i64 8)), store) := by
  have hKnown : (Compilation.run {} {} (pure halvings)).satisfies fun ctx =>
        decide (ctx.program.methods.size = 1 ∧ (ctx.program.method ⟨0⟩).flags.imported = false
          ∧ (ctx.program.method ⟨0⟩).result.held? = some .i64) := by
    decide +kernel
  rcases Compilation.exists_of_satisfies hKnown with ⟨ctx, hRun, hSize, hWritten, hResult⟩
  have hSource : (halvings.root.definitions none).any fun d =>
        decide (d.scope = .onClass) && (Method.read? d.parts).any fun m =>
            decide (m.saysResult = true ∧ m.result = some .wide
              ∧ m.call 20 [.i64 6] = .value (some (.i64 8))) := by
    decide +kernel
  rcases any_eq_true.mp hSource with ⟨d, hMem, hMethod⟩
  rcases Bool.and_eq_true_iff.mp hMethod with ⟨hScope, hMethod⟩
  rcases (Option.any_eq_true _ _).mp hMethod with ⟨m, hRead, hMethod⟩
  rcases of_decide_eq_true hMethod with ⟨hSays, hWide, hCall⟩
  rcases local_calls hRun (.main rfl) hMem (of_decide_eq_true hScope)
    hRead with ⟨c, k, _, hOwn, hCalls⟩
  have hOnly : k = ⟨0⟩ := by
    have hIn := ((Compilation.run_evolves hRun).rooted.regular.indexed.own hOwn).1
    rw [hSize, Nat.lt_one_iff] at hIn
    exact congrArg MethodId.mk hIn
  subst hOnly
  have hAlone : m.Alone (ctx.program.method ⟨0⟩) :=
    ⟨hWritten, by simp [hSays], fun _ => by rw [hResult, hWide]; rfl⟩
  refine ⟨ctx, hRun, fun h hCtx hDepth store => ?_⟩
  refine (hCalls hAlone h hCtx hDepth _ _ _ _ (by simp)).mpr ⟨rfl, 20, ?_⟩
  rw [hCall]
  rfl

end RubyWat
