import RubyWat.Proofs.Lifting

/-
  What the code of conditions and assignments does.

  A condition is reduced to a narrow value that is true when the value is, or to zero or one.
  What is stored in a variable is cast before, which is what the variable would do with it.

  Main statements: `Supplies.tests`, `Supplies.branches`, `Supplies.decides` and
  `Computes.tees`.
-/

-- Conditions

namespace RubyWat

open Code Machine

variable {w : Integral.Width} {depth : Nat}
variable {x : String}

namespace Integral

open Translation

/- A value is true unless it is zero. -/
theorem nonzero_apply (w : Width) (v : Value) :
    (Binary.relation .ne).apply v (w.value 0) = some (.ofBool v.isTrue) := by
  cases w <;> rfl

/- A narrow value that is zero or one is a truth value. -/
theorem ofBool_isTrue (hWidth : widthOf v = .narrow)
    (hBoolean : isBoolean (.const v.toInt64) = true) : .ofBool v.isTrue = v := by
  rcases (Bool.or_eq_true _ _).mp hBoolean with hZero | hOne
  · have hNumber := eq_of_beq hZero
    refine Eq.trans ?_ (value_toInt64 hWidth)
    rw [Value.isTrue, hNumber]
    rfl
  · have hNumber := eq_of_beq hOne
    refine Eq.trans ?_ (value_toInt64 hWidth)
    rw [Value.isTrue, hNumber]
    rfl

variable {σ : Type}

/- Instructions that give nothing but truth values. -/
theorem behaviour_boolean (hHeld : Held h.ctx.tree f) (hBoolean : isBoolean f.instr = true)
    (hConst : ∀ raw, f.instr ≠ .const raw) (hEnd : behaviour h depth f.id s (.ok v s')) :
    ∃ b, v = some (.ofBool b) := by
  have hInstr := hHeld.instr
  generalize f.instr = instr at hBoolean hConst hInstr
  rw [behaviour_of (x := fun fuel =>
    evalNode h.ctx (eval h fuel depth) (callMethod h (eval h fuel (depth + 1)) depth)
      fuel f.id) fun _ => rfl] at hEnd
  rcases hEnd with ⟨⟨fuel, hEnd⟩, _⟩
  dsimp only at hEnd
  rw [evalNode, hInstr] at hEnd
  unfold isBoolean at hBoolean
  split at hBoolean
  · rcases ok_of_bind hEnd with ⟨_, _, _, hPure⟩
    cases hPure
    exact ⟨_, rfl⟩
  · rcases ok_of_bind hEnd with ⟨a, _, _, hUnary⟩
    rw [unary_eq, eqz_apply] at hUnary
    cases hUnary
    exact ⟨_, rfl⟩
  · exact absurd rfl (hConst _)
  · cases hBoolean

variable {h : Host σ}

namespace Supplies

/- A value compared with zero. -/
theorem nonzero (hF : Supplies h depth P f w B) (hExact : Exact f w)
    (fold : Bool) (n zero : NodeId) (ty : Wasm.MachineType) :
    let g := Fragment.folded fold ⟨n, .compare .ne ty, .i32, [f, .leaf zero (.const 0) w.type]⟩
    Supplies h depth P g .narrow ((fun v => .ofBool v.isTrue) <$> B) ∧ Exact g .narrow := by
  have hZero : Computes h depth P (.leaf zero (.const 0) w.type) w (pure (w.value 0)) :=
    .const (widthOf_value w 0) (by cases w <;> rfl) rfl
  rcases hF.relation hZero.toSupplies hExact hZero.exact fold n .ne ty with ⟨hCode, hExact'⟩
  refine ⟨hCode.congr ?_, hExact'⟩
  simp only [pure_bind, nonzero_apply, quotient]
  rw [bind_pure_comp]
  exact .refl _

/- A condition has the truth of its value. -/
theorem tests (hF : Supplies h depth P f w B) (hTests : Tests fold f g) :
    ∃ t : Value → Value, (∀ v, (t v).isTrue = v.isTrue) ∧ Supplies h depth P g .narrow (t <$> B)
      ∧ (Exact f w → Exact g .narrow) := by
  cases hTests with
  | narrow hTy =>
    cases hF.width_eq (a := .narrow) hTy rfl
    refine ⟨id, fun _ => rfl, ?_, id⟩
    rwa [id_map]
  | ref hTy =>
    cases hF.width_eq (a := .narrow) hTy rfl
    refine ⟨id, fun _ => rfl, ?_, id⟩
    rw [id_map]
    exact ⟨rfl, hF.keeps, hF.literal, fun ty hSame => hF.retyped ty (hSame.trans hF.held.symm)⟩
  | @wide n zero hTy =>
    cases hF.width_eq (a := .wide) hTy rfl
    rcases hF.nonzero (fun _ _ => rfl) fold n zero .i64 with ⟨hCode, hExact⟩
    exact ⟨_, fun v => isTrue_ofBool _, hCode, fun _ => hExact⟩

/- A condition of a branch has the truth of its value, or not. -/
theorem branches (hF : Supplies h depth P f w B) (hBranches : BranchesOn fold truth f g) :
    ∃ t : Value → Value, (∀ v, (t v).isTrue = (v.isTrue != truth))
      ∧ Supplies h depth P g .narrow (t <$> B) := by
  cases hBranches with
  | direct hTests =>
    rcases hF.tests hTests with ⟨t, hTruth, hG, _⟩
    refine ⟨t, fun v => ?_, hG⟩
    rw [hTruth, Bool.bne_false]
  | @inverted _ _ n hTests =>
    rcases hF.tests hTests with ⟨t, hTruth, hG, _⟩
    refine ⟨(Unary.native .eqz).apply ∘ t, fun v => ?_, ?_⟩
    · rw [Function.comp_apply, eqz_apply, isTrue_ofBool, hTruth, Bool.bne_true]
    · rw [comp_map]
      exact (hG.native fold n .eqz).1

/- A value reduced to a truth value. -/
theorem decides (hF : Supplies h depth P f w B) (hExact : Exact f w) (hDecides : Decides fold f g) :
    Supplies h depth P g .narrow ((fun v => .ofBool v.isTrue) <$> B) ∧ Exact g .narrow := by
  cases hDecides with
  | boolean hTests hBoolean =>
    rcases hF.tests hTests with ⟨t, hTruth, hG, hKeep⟩
    refine ⟨?_, hKeep hExact⟩
    have hTruths :
        (fun v => Value.ofBool v.isTrue) <$> B = (fun v => .ofBool v.isTrue) <$> t <$> B := by
      simp only [Functor.map_map, hTruth]
    rw [hTruths]
    by_cases hConst : ∃ raw, g.instr = .const raw
    · rcases hConst with ⟨raw, hConst⟩
      have hPure := hG.literal raw hConst
      rw [hConst, ← hKeep hExact raw hConst] at hBoolean
      have hSame := ofBool_isTrue (widthOf_value .narrow raw) hBoolean
      refine hG.congr (hPure.trans ?_)
      have hMap := hPure.map fun v => Value.ofBool v.isTrue
      rw [map_pure, hSame] at hMap
      exact hMap.symm
    · refine ⟨hG.held, ?_, ?_, fun ty hSame hHeld => ?_⟩
      · exact hG.keeps.map fun v _ => trivial
      · intro raw hRaw
        exact absurd ⟨raw, hRaw⟩ hConst
      · have hAgrees := hG.retyped ty hSame hHeld
        have hFixed : AgreeOn P (behaviour h depth g.id)
              (Option.map (fun v => .ofBool v.isTrue) <$> behaviour h depth g.id) := by
          refine .map_self fun s _ v s' hEnd => ?_
          rcases behaviour_boolean (f := { g with ty }) hHeld hBoolean
            (fun raw hRaw => hConst ⟨raw, hRaw⟩) hEnd with ⟨b, rfl⟩
          rw [Option.map_some, isTrue_ofBool]
        have hMap := hFixed.trans (hAgrees.map _)
        simpa only [Functor.map_map, Option.map_some] using hMap
  | @compare g n zero hTests =>
    rcases hF.tests hTests with ⟨t, hTruth, hG, hKeep⟩
    have hNonzero := hG.nonzero (hKeep hExact) fold n zero .i32
    simp only [Functor.map_map, hTruth] at hNonzero
    exact hNonzero

end Supplies

-- Assignments

/- What replaces a value of a width is cast to the width. -/
theorem replacing_castTo (v : Value) (hWidth : widthOf old = w) :
    old.replacing (castTo w true v) = old.replacing v := by
  subst hWidth
  cases old with
  | i32 x =>
    show Value.i32 (v.toInt64.toInt32.toInt64.toInt32) = _
    rw [Int32.toInt32_toInt64]
    rfl
  | i64 x => cases v <;> rfl

theorem assign?_castTo {frame : Slots} (v : Value)
    (hWidth : ∀ old, frame.lookup x = some old → widthOf old = w) :
    frame.assign? x (castTo w true v) = frame.assign? x v := by
  induction frame with
  | nil => rfl
  | cons slot rest ih =>
    rcases slot with ⟨key, old⟩
    by_cases hKey : key = x
    · subst hKey
      have hOld := hWidth old (by simp)
      simp only [Slots.assign?, if_true, replacing_castTo v hOld]
    have hOther : (x == key) = false := by simpa using fun hSame => hKey hSame.symm
    have hRest := ih fun old hLookup =>
      hWidth old (by simpa [List.lookup_cons, hOther] using hLookup)
    simp only [Slots.assign?, hKey, if_false, hRest]

/- An assignment whose value is not wanted. -/
theorem forget_rewrite (x : String) (v : Value) : (fun _ => (none : Option Value))
        <$> once .timeout (do writeVar x v; some <$> readVar x)
      = (fun _ => none) <$> once .timeout (writeVar x v) := by
  rw [← once_map, ← once_map]
  refine congrArg (once Jump.timeout) (funext fun frame => ?_)
  have hWrite := writeVar_eq x v frame
  simp only [map_eq_pure_bind, bind_assoc]
  cases hAssign : frame.assign? x v with
  | none =>
    rw [hAssign] at hWrite
    rw [bind_of_error hWrite, bind_of_error hWrite]
  | some frame' =>
    rw [hAssign] at hWrite
    rcases Slots.lookup_of_assign? hAssign with ⟨u, hLookup⟩
    have hRead := readVar_eq x frame'
    rw [hLookup] at hRead
    rw [bind_of_ok hWrite, bind_of_ok hWrite, bind_of_ok hRead]
    rfl

variable {Γ : Scope}

theorem once_writeVar_castTo (v : Value) (hVar : Γ.lookup x = some w) :
    AgreeOn (Fits Γ) (once .timeout (writeVar x (castTo w true v)))
      (once .timeout (writeVar x v)) := by
  intro frame hFits r
  have hWidth : ∀ old, frame.lookup x = some old → widthOf old = w := by
    intro old hLookup
    have hSame := (hFits x old hLookup).symm.trans hVar
    exact Option.some.inj hSame
  have hWrite : writeVar x (castTo w true v) frame = writeVar x v frame := by
    rw [writeVar_eq, writeVar_eq, assign?_castTo v hWidth]
  simp only [once, ends, hWrite]

variable {L : Option (NodeId × NodeId)}

/- A variable is read where the machine reads it. -/
theorem Computes.reads (n : NodeId) (hVar : Γ.lookup x = some w) :
    Computes h depth (Fitting Γ) (.leaf n (.localGet x) w.type) w
      (lifted L (once .timeout (readVar x))) := by
  have hKeeps : Preserves (Fitting Γ) (fun v => widthOf v = w)
      (lifted (σ := σ) L (once .timeout (readVar x))) := by
    refine lifted_keeps L ((once_readVar_keeps x).mono fun v hWidth => ?_)
    exact Option.some.inj (hWidth.symm.trans hVar)
  refine .of_silent rfl hKeeps (by simp) fun ty hHeld => ?_
  rw [behaviour_localGet hHeld, once_map, lifted_readVar]
  exact .refl _

/- A value is stored like the value that it is cast to. -/
theorem store_agrees {α : Type} (hVar : Γ.lookup x = some w) (hKeeps : Preserves (Fitting Γ) Q B)
    (K : Unit → Behaviour Exit (State σ) α) :
    AgreeOn (Fitting Γ) (castTo w true <$> B >>= fun v => once .outOfFuel (Exec.setLocal x v) >>= K)
      (B >>= fun v => once .outOfFuel (Exec.setLocal x v) >>= K) := by
  rw [bind_map_left]
  refine .bind (.refl B) hKeeps fun v _ => ?_
  rw [← lifted_writeVar none, ← lifted_writeVar none]
  exact .bind (lifted_agree none (once_writeVar_castTo v hVar))
    (lifted_keeps none (once_writeVar_keeps x v)) fun _ _ => .refl _

section

variable {a : Width} {V : Meaning Value}
variable {value value' : Fragment}

/- A store whose value is wanted. -/
theorem Computes.tees (n : NodeId) (hVar : Γ.lookup x = some w)
    (hValue : Computes h depth (Fitting Γ) value a (lifted L V))
    (hCasts : Casts true w.type value value') :
    Computes h depth (Fitting Γ) ⟨n, .localTee x, w.type, [value']⟩ w
      (lifted L (V >>= fun v => once .timeout (do writeVar x v; readVar x))) := by
  have hKeeps : Preserves (Fitting Γ) (fun v => widthOf v = w)
      (lifted (σ := σ) L (V >>= fun v => once .timeout (do writeVar x v; readVar x))) := by
    rw [lifted_bind]
    refine hValue.keeps.bind fun v _ => lifted_keeps L ?_
    rw [once_bind]
    refine (once_writeVar_keeps x v).bind fun _ _ => ?_
    refine (once_readVar_keeps x).mono fun v hWidth => ?_
    exact Option.some.inj (hWidth.symm.trans hVar)
  refine .of_silent rfl hKeeps (by simp) fun ty hHeld => ?_
  have hOperand := hHeld.child (.head _)
  rw [behaviour_operand hHeld rfl]
  refine ((hValue.casts rfl hCasts).operand hOperand _).trans ?_
  simp only [demand, pure_bind, once_bind, once_map, lifted_bind,
    lifted_writeVar, lifted_readVar, map_bind]
  exact store_agrees hVar hValue.keeps _

/- A store whose value is not wanted. -/
theorem sets_agrees {n : NodeId} (hVar : Γ.lookup x = some w)
    (hValue : Computes h depth (Fitting Γ) value a (lifted L V))
    (hCasts : Casts true w.type value value')
    (hHeld : Held h.ctx.tree ⟨n, .localSet x, .none, [value']⟩) :
    AgreeOn (Fitting Γ) (behaviour h depth n) ((fun _ => none) <$> lifted L (V >>= fun v =>
        once .timeout (do writeVar x v; some <$> readVar x))) := by
  have hOperand := hHeld.child (.head _)
  have hForget : (fun _ => none) <$> lifted L (V >>= fun v =>
          once .timeout (do writeVar x v; some <$> readVar x))
        = lifted L V >>= fun v =>
          once .outOfFuel (Exec.setLocal (σ := σ) x v) >>= fun _ => pure (none : Option Value) := by
    rw [← lifted_map L, map_bind, lifted_bind]
    simp only [forget_rewrite, lifted_map, lifted_writeVar]
    simp only [map_eq_pure_bind]
  rw [behaviour_operand hHeld rfl, hForget]
  refine ((hValue.casts rfl hCasts).operand hOperand _).trans ?_
  simp only [demand, pure_bind, once_bind, once_pure]
  exact store_agrees hVar hValue.keeps _

end

end Integral

end RubyWat
