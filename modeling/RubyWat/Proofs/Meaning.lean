import RubyWat.Proofs.Behaviour
import RubyWat.Proofs.Integral
import RubyWat.Proofs.Slots

/-
  The meaning of methods that compute with integers.

  More fuel does not change what a statement ends in, so that a statement has a meaning without
  fuel.  It is made of the meanings of its parts.

  Main statement: the value of an expression has the width that its text says, and variables
  keep theirs (`meaning_keeps`).
-/

-- Fuel

namespace RubyWat.Integral

open Machine Behaviour

/- What becomes of a loop after a round. -/
def roundVerdict : EStateM.Result Jump Slots Bool → Slots ⊕ EStateM.Result Jump Slots (Option Value)
  | .ok true s | .error .again s => .inl s
  | .ok false s | .error .leave s => .inr (.ok none s)
  | .error e s => .inr (.error e s)

/- A round that lacks fuel stops the loop for that reason, and no other one does. -/
theorem roundVerdict_passesStop : PassesStop .timeout roundVerdict := by
  intro r s
  unfold roundVerdict
  split <;> simp

/- The next round starts where a round ends. -/
theorem roundVerdict_again {r : EStateM.Result Jump Slots Bool} {frame : Slots}
    (hAgain : roundVerdict r = .inl frame) : frame = finalState r := by
  unfold roundVerdict at hAgain
  split at hAgain <;> cases hAgain <;> rfl

/- The rounds of a loop are an iteration, with a verdict on each round. -/
theorem rounds_eq (round : Run Bool) (fuel : Nat) :
    rounds round fuel = iterate .timeout roundVerdict round fuel := by
  induction fuel with
  | zero => rfl
  | succ fuel ih =>
    funext s
    rw [rounds, iterate]
    dsimp only
    rw [ih]
    cases round s with
    | ok go s' => cases go <;> rfl
    | error e s' => cases e <;> rfl

/- More fuel for each round and more rounds do not change an end that was reached. -/
theorem rounds_grows {round : Nat → Run Bool} (hRound : Grows .timeout round) :
    Grows .timeout fun fuel => rounds (round fuel) fuel := by
  simp only [rounds_eq]
  exact hRound.iterate roundVerdict_passesStop

variable (Γ : Scope) (result : Option Width)

mutual

/-
  An end that an expression comes to is the same with more fuel.  The proof goes by the parts of
  the expression.
-/
theorem run_grows (e : Expr) : Grows .timeout fun fuel => run Γ result fuel e := by
  cases e with
  | skip | int | bool | get | leave | again | ret =>
    simp only [run]
    exact .const _
  | set x e | update x op e | unary op e | cast w signed e
  | retWith e =>
    have hValue := run_grows e
    simp only [run]
    first
      | exact hValue.bind fun _ => .const _
      | exact .bind (.const _) fun _ => hValue.bind fun _ => .const _
  | binary op a b =>
    simp only [run]
    exact (run_grows a).bind fun _ => .bind (.const _) fun _ => (run_grows b).bind fun _ => .const _
  | both a b =>
    simp only [run]
    exact (run_grows a).bind fun _ => .bind (.const _) fun _ =>
      .ite ((run_grows b).bind fun _ => .const _) (.const _)
  | either a b =>
    simp only [run]
    exact (run_grows a).bind fun _ => .bind (.const _) fun _ =>
      .ite (.const _) ((run_grows b).bind fun _ => .const _)
  | cond test yes no =>
    simp only [run]
    exact (run_grows test).bind fun _ => .bind (.const _) fun _ =>
      .ite ((runAll_grows yes).bind fun _ => .const _) ((runAll_grows no).bind fun _ => .const _)
  | loop truth test body =>
    simp only [run]
    exact rounds_grows ((run_grows test).bind fun _ =>
      .bind (.const _) fun _ => .ite ((runAll_grows body).bind fun _ => .const _) (.const _))
  | postLoop truth test body =>
    simp only [run]
    exact rounds_grows ((runAll_grows body).bind fun _ => (run_grows test).bind fun _ => .const _)

theorem runAll_grows (es : List Expr) : Grows .timeout fun fuel => runAll Γ result fuel es := by
  match es with
  | [] =>
    simp only [runAll]
    exact .const _
  | [e] =>
    simp only [runAll]
    exact run_grows e
  | e :: e' :: es =>
    simp only [runAll]
    exact (run_grows e).bind fun _ => runAll_grows (e' :: es)

end

-- Meaning

/- What a computation with variables ends in. -/
abbrev Meaning (α : Type) :=
  Behaviour Jump Slots α

/- What an expression ends in with fuel enough. -/
def meaning (Γ : Scope) (result : Option Width) (e : Expr) : Meaning (Option Value) :=
  ends .timeout fun fuel => run Γ result fuel e

/- What statements end in with fuel enough. -/
def meaningAll (Γ : Scope) (result : Option Width) (es : List Expr) : Meaning (Option Value) :=
  ends .timeout fun fuel => runAll Γ result fuel es

/- The value of an expression, which has to be there. -/
def valueOf (Γ : Scope) (result : Option Width) (e : Expr) : Meaning Value :=
  meaning Γ result e >>= fun v => once .timeout (need v)

/- A round of a loop that tests its condition first. -/
def roundOf (Γ : Scope) (result : Option Width) (truth : Bool) (test : Expr) (body : List Expr) :
    Meaning Bool := do
  let c ← valueOf Γ result test
  if c.isTrue = truth then
    let _ ← meaningAll Γ result body
    return true
  else return false

/- A round of a loop that tests its condition last. -/
def postRoundOf (Γ : Scope) (result : Option Width) (truth : Bool) (test : Expr)
    (body : List Expr) : Meaning Bool := do
  let _ ← meaningAll Γ result body
  let c ← valueOf Γ result test
  return c.isTrue == truth

section

variable {Γ : Scope} {result : Option Width}

/- What a loop ends in is what its round does, repeated. -/
theorem ends_rounds {round : Nat → Run Bool} (hRound : Grows .timeout round) :
    ends .timeout (fun fuel => rounds (round fuel) fuel)
      = Iterates roundVerdict (ends .timeout round) := by
  simp only [rounds_eq]
  exact ends_iterate roundVerdict_passesStop hRound

/- A value that is needed, and what is done with it. -/
theorem ends_value {α : Type} {e : Expr} {k : Nat → Value → Run α}
    (hNext : ∀ v, Grows .timeout fun fuel => k fuel v) :
    ends .timeout (fun fuel => do k fuel (← need (← run Γ result fuel e)))
      = valueOf Γ result e >>= fun v => ends .timeout fun fuel => k fuel v := by
  rw [valueOf, bind_assoc]
  refine (ends_bind (run_grows Γ result e) fun v => ?_).trans ?_
  · exact .bind (.const _) hNext
  · refine bind_congr fun v => ?_
    exact ends_bind (.const _) hNext

/- The same for a step that needs no fuel. -/
theorem ends_value_once {α : Type} {e : Expr} (k : Value → Run α) :
    ends .timeout (fun fuel => do k (← need (← run Γ result fuel e)))
      = valueOf Γ result e >>= fun v => once .timeout (k v) :=
  ends_value (k := fun _ => k) fun v => .const (k v)

theorem meaning_skip : meaning Γ result .skip = pure none := by
  simp only [meaning, run]
  exact ends_pure _

/- A literal is as wide as its value needs. -/
theorem meaning_int (value : Int64) :
    meaning Γ result (.int value) = pure (some ((Width.ofLiteral value).value value)) := by
  simp only [meaning, run]
  exact ends_pure _

theorem meaning_bool (b : Bool) : meaning Γ result (.bool b) = pure (some (.ofBool b)) := by
  simp only [meaning, run]
  exact ends_pure _

theorem meaning_get (x : String) :
    meaning Γ result (.get x) = once .timeout (some <$> readVar x) := by
  simp only [meaning, run]
  rfl

/- An assignment has the value that the variable has after it. -/
theorem meaning_set (x : String) (e : Expr) : meaning Γ result (.set x e)
      = valueOf Γ result e >>= fun v => once .timeout (do writeVar x v; some <$> readVar x) := by
  simp only [meaning, run]
  exact ends_value_once _

/- The variable is read before the operand is evaluated. -/
theorem meaning_update (x : String) (op : Binary) (e : Expr) :
    meaning Γ result (.update x op e) = (do
      let a ← once .timeout (readVar x)
      let b ← valueOf Γ result e
      once .timeout (do
        let v ← divided (op.apply a b)
        writeVar x v
        some <$> readVar x)) := by
  simp only [meaning, run]
  refine (ends_bind (.const _) fun a => ?_).trans ?_
  · exact (run_grows Γ result e).bind fun _ => .const _
  · refine congrArg (once .timeout (readVar x) >>= ·) ?_
    exact funext fun a => ends_value_once _

theorem meaning_unary (op : Unary) (e : Expr) :
    meaning Γ result (.unary op e) = valueOf Γ result e >>= fun v => pure (some (op.apply v)) := by
  simp only [meaning, run]
  rw [ends_value_once]
  simp only [once_pure]

/- The left operand is evaluated before the right one. -/
theorem meaning_binary (op : Binary) (a b : Expr) : meaning Γ result (.binary op a b) = (do
      let u ← valueOf Γ result a
      let v ← valueOf Γ result b
      once .timeout (some <$> divided (op.apply u v))) := by
  simp only [meaning, run]
  refine (ends_value fun _ => ?_).trans ?_
  · exact (run_grows Γ result b).bind fun _ => .const _
  · refine bind_congr fun u => ?_
    exact ends_value_once _

theorem meaning_cast (w : Width) (signed : Bool) (e : Expr) : meaning Γ result (.cast w signed e)
      = valueOf Γ result e >>= fun v => pure (some (castTo w signed v)) := by
  simp only [meaning, run]
  rw [ends_value_once]
  simp only [once_pure]

/- The second operand counts only if the first one is true. -/
theorem meaning_both (a b : Expr) : meaning Γ result (.both a b) = (do
      let u ← valueOf Γ result a
      if u.isTrue then
        let v ← valueOf Γ result b
        pure (some (.ofBool v.isTrue))
      else pure (some (.ofBool false))) := by
  simp only [meaning, run]
  refine (ends_value fun _ => ?_).trans ?_
  · exact .ite ((run_grows Γ result b).bind fun _ => .const _) (.const _)
  · refine bind_congr fun u => ?_
    rw [ends_ite, ends_value_once]
    simp only [ends_pure, once_pure]

/- The second operand counts only if the first one is false. -/
theorem meaning_either (a b : Expr) : meaning Γ result (.either a b) = (do
      let u ← valueOf Γ result a
      if u.isTrue then pure (some (.ofBool true))
      else
        let v ← valueOf Γ result b
        pure (some (.ofBool v.isTrue))) := by
  simp only [meaning, run]
  refine (ends_value fun _ => ?_).trans ?_
  · exact .ite (.const _) ((run_grows Γ result b).bind fun _ => .const _)
  · refine bind_congr fun u => ?_
    rw [ends_ite, ends_value_once]
    simp only [ends_pure, once_pure]

/- The value of an arm is settled by the types of both. -/
theorem meaning_cond (test : Expr) (yes no : List Expr) : meaning Γ result (.cond test yes no) = (do
      let c ← valueOf Γ result test
      settle (joinArms (lastType Γ yes) (lastType Γ no)) <$>
        if c.isTrue then meaningAll Γ result yes
        else meaningAll Γ result no) := by
  have hYes := runAll_grows Γ result yes
  have hNo := runAll_grows Γ result no
  simp only [meaning, run]
  refine (ends_value fun _ => ?_).trans ?_
  · exact .ite (hYes.bind fun _ => .const _) (hNo.bind fun _ => .const _)
  · refine bind_congr fun c => ?_
    simp only [bind_pure_comp, ends_ite, ends_map _ hYes, ends_map _ hNo]
    split <;> rfl

/- A loop that tests its condition first does rounds that do. -/
theorem meaning_loop (truth : Bool) (test : Expr) (body : List Expr) :
    meaning Γ result (.loop truth test body) = Iterates roundVerdict
        (roundOf Γ result truth test body) := by
  have hBody := runAll_grows Γ result body
  simp only [meaning, run]
  refine (ends_rounds ?_).trans (congrArg _ ?_)
  · exact (run_grows Γ result test).bind fun _ => .bind (.const _)
      fun _ => .ite (hBody.bind fun _ => .const _) (.const _)
  · refine (ends_value fun _ => ?_).trans ?_
    · exact .ite (hBody.bind fun _ => .const _) (.const _)
    · refine bind_congr fun c => ?_
      rw [ends_ite, ends_bind hBody fun _ => .const _]
      simp only [ends_pure]
      rfl

/- A loop that tests its condition last does at least one round. -/
theorem meaning_postLoop (truth : Bool) (test : Expr) (body : List Expr) :
    meaning Γ result (.postLoop truth test body) = Iterates roundVerdict
        (postRoundOf Γ result truth test body) := by
  have hBody := runAll_grows Γ result body
  have hTest := run_grows Γ result test
  simp only [meaning, run]
  refine (ends_rounds ?_).trans (congrArg _ ?_)
  · exact hBody.bind fun _ => hTest.bind fun _ => .const _
  · refine (ends_bind hBody fun _ => ?_).trans ?_
    · exact hTest.bind fun _ => .const _
    · refine bind_congr fun _ => ?_
      rw [ends_value_once]
      simp only [once_pure]

/- Jumps out of a loop or a method end everything around them. -/
theorem meaning_leave : meaning Γ result .leave = .fail .leave := by
  simp only [meaning, run]
  exact ends_throw (by simp)

theorem meaning_again : meaning Γ result .again = .fail .again := by
  simp only [meaning, run]
  exact ends_throw (by simp)

theorem meaning_ret : meaning Γ result .ret = .fail (.ret none) := by
  simp only [meaning, run]
  exact ends_throw (by simp)

/- A value is fitted to the result of the method before it is returned. -/
theorem meaning_retWith (e : Expr) : meaning Γ result (.retWith e)
      = valueOf Γ result e >>= fun v => .fail (.ret (finish result (some v))) := by
  simp only [meaning, run]
  rw [ends_value_once]
  refine bind_congr fun v => ?_
  exact once_throw (by simp)

/- Statements have the value of the last one. -/
theorem meaningAll_nil : meaningAll Γ result [] = pure none := by
  simp only [meaningAll, runAll]
  exact ends_pure _

theorem meaningAll_single (e : Expr) : meaningAll Γ result [e] = meaning Γ result e := by
  simp only [meaningAll, runAll]
  rfl

theorem meaningAll_cons (e e' : Expr) (es : List Expr) : meaningAll Γ result (e :: e' :: es)
      = meaning Γ result e >>= fun _ => meaningAll Γ result (e' :: es) := by
  simp only [meaningAll, runAll]
  exact ends_bind (run_grows Γ result e) fun _ => runAll_grows Γ result (e' :: es)

end

-- Widths Of Results

@[simp]
theorem widthOf_value (w : Width) (raw : Int64) : widthOf (w.value raw) = w := by
  cases w <;> rfl

@[simp]
theorem widthOf_resize (w : Width) (v : Value) : widthOf (resize w v) = w :=
  widthOf_value w _

@[simp]
theorem widthOf_ofWord (w : Width) (word : BitVec w.bits) : widthOf (ofWord w word) = w :=
  widthOf_value w _

@[simp]
theorem widthOf_ofBool (b : Bool) : widthOf (.ofBool b) = .narrow :=
  rfl

/- A conversion gives a value of the width that was asked for. -/
@[simp]
theorem widthOf_castTo (w : Width) (signed : Bool) (v : Value) :
    widthOf (castTo w signed v) = w := by
  cases w with
  | narrow => exact widthOf_resize _ _
  | wide =>
    cases v with
    | i32 _ => cases signed <;> rfl
    | i64 _ => rfl

/- The width of a result follows from the widths of the operands. -/
theorem Unary.widthOf_apply (op : Unary) (v : Value) :
    widthOf (op.apply v) = op.width (widthOf v) := by
  cases op <;> simp [apply, width]

theorem Binary.widthOf_apply {op : Binary} {a b v : Value} (hApply : op.apply a b = some v) :
    widthOf v = op.width (widthOf a) (widthOf b) := by
  cases op with
  | arith op =>
    rcases Option.map_eq_some_iff.mp hApply with ⟨word, _, rfl⟩
    exact widthOf_ofWord _ _
  | relation op =>
    cases hApply
    rfl

/- What is settled at a width has that width, and without one nothing is left. -/
theorem map_widthOf_settle (w : Option Width) (v : Option Value) :
    (settle w v).map widthOf = w := by
  cases w <;> cases v <;> simp [settle]

-- Widths Of Variables

/- Variables that have the widths of their declarations. -/
def Fits (Γ : Scope) (frame : Slots) : Prop :=
  ∀ x v, frame.lookup x = some v → Γ.lookup x = some (widthOf v)

theorem widthOf_eq_iff {v v' : Value} : widthOf v = widthOf v' ↔ v.type = v'.type := by
  cases v <;> cases v' <;> simp [widthOf, Value.type]

/- An assignment keeps the width of the variable. -/
theorem Fits.assign {Γ : Scope} {frame : Slots}
    (hFits : Fits Γ frame) (hAssign : frame.assign? x v = some frame') : Fits Γ frame' := by
  have hTypes := Slots.types_assign? hAssign
  intro y u hLookup
  have hSame := (Slots.lookup_types frame' y).symm.trans (hTypes ▸ Slots.lookup_types frame y)
  rw [hLookup] at hSame
  rcases Option.map_eq_some_iff.mp hSame.symm with ⟨u', hOld, hType⟩
  rw [hFits y u' hOld, widthOf_eq_iff.mpr hType]

theorem readVar_eq (x : String) (frame : Slots) : readVar x frame = match frame.lookup x with
      | some v => .ok v frame
      | none => .error (.fault (.unread x)) frame := by
  refine (bind_of_ok rfl _).trans ?_
  cases frame.lookup x <;> rfl

theorem writeVar_eq (x : String) (v : Value) (frame : Slots) :
    writeVar x v frame = match frame.assign? x v with
      | some frame' => .ok () frame'
      | none => .error (.fault (.unwritten x)) frame := by
  refine (bind_of_ok rfl _).trans ?_
  cases frame.assign? x v <;> rfl

variable {Γ : Scope} {result : Option Width}

/- A variable is read at the width that the scope gives it. -/
theorem once_readVar_keeps (x : String) :
    Preserves (Fits Γ) (fun v => Γ.lookup x = some (widthOf v)) (once .timeout (readVar x)) := by
  rintro frame hFits r ⟨⟨_, hEnd⟩, _⟩
  rcases (readVar_eq x frame).symm.trans hEnd with rfl
  split
  · refine ⟨hFits, ?_⟩
    rintro _ _ ⟨⟩
    exact hFits x _ (by assumption)
  · exact ⟨hFits, by rintro _ _ ⟨⟩⟩

theorem once_writeVar_keeps (x : String) (v : Value) :
    Preserves (Fits Γ) (fun _ => True) (once .timeout (writeVar x v)) := by
  rintro frame hFits r ⟨⟨_, hEnd⟩, _⟩
  rcases (writeVar_eq x v frame).symm.trans hEnd with rfl
  refine ⟨?_, fun _ _ _ => trivial⟩
  split
  · exact hFits.assign (by assumption)
  · exact hFits

/- A variable after an assignment. -/
theorem once_rewrite_keeps (x : String) (v : Value) :
    Preserves (Fits Γ) (fun v => v.map widthOf = Γ.lookup x)
      (once .timeout (do writeVar x v; some <$> readVar x)) := by
  rw [once_bind]
  refine (once_writeVar_keeps x v).bind fun _ _ => ?_
  rw [once_map]
  exact (once_readVar_keeps x).map fun _ hWidth => hWidth.symm

/- Steps that demand something either give it or fail at once. -/
theorem once_need_some (v : Value) : once .timeout (need (some v)) = pure v :=
  once_pure v

theorem once_need_none : once .timeout (need none) = .fail (.fault .noValue) :=
  once_throw (by simp)

theorem once_divided_some (v : Value) : once .timeout (divided (some v)) = pure v :=
  once_pure v

theorem once_divided_none : once .timeout (divided none) = .fail (.fault .divisionByZero) :=
  once_throw (by simp)

theorem once_need_keeps (v : Option Value) :
    Preserves (Fits Γ) (fun u => v = some u) (once .timeout (need v)) := by
  cases v with
  | some v => exact once_need_some v ▸ .pure rfl
  | none => exact once_need_none ▸ .fail _

theorem once_divided_keeps (v : Option Value) :
    Preserves (Fits Γ) (fun u => v = some u) (once .timeout (divided v)) := by
  cases v with
  | some v => exact once_divided_some v ▸ .pure rfl
  | none => exact once_divided_none ▸ .fail _

/- What both kinds of rounds keep is kept by a loop. -/
theorem iterates_keeps {round : Meaning Bool} (hRound : Preserves (Fits Γ) (fun _ => True) round) :
    Preserves (Fits Γ) (fun v => v.map widthOf = none) (Iterates roundVerdict round) := by
  refine hRound.iterates (fun r s' => roundVerdict_again) fun r r' hDone => ?_
  unfold roundVerdict at hDone
  split at hDone <;> cases hDone <;> refine ⟨rfl, ?_⟩ <;> rintro _ _ ⟨⟩ <;> rfl

section

variable {Q : Value → Prop} {R : Option Value → Prop} {truth : Bool}
variable {test : Expr} {body : List Expr}

section

variable (hTest : Preserves (Fits Γ) Q (valueOf Γ result test))
variable (hBody : Preserves (Fits Γ) R (meaningAll Γ result body))
include hTest hBody

/- A round keeps to frames that fit if its condition and its body do. -/
theorem roundOf_keeps : Preserves (Fits Γ) (fun _ => True) (roundOf Γ result truth test body) := by
  refine hTest.bind fun c _ => .ite ?_ (.pure trivial)
  exact hBody.bind fun _ _ => .pure trivial

theorem postRoundOf_keeps :
    Preserves (Fits Γ) (fun _ => True) (postRoundOf Γ result truth test body) := by
  refine hBody.bind fun _ _ => ?_
  exact hTest.bind fun c _ => .pure trivial

end

end

mutual

/- Values have the widths that the text says. -/
theorem meaning_keeps (e : Expr) :
    Preserves (Fits Γ) (fun v => v.map widthOf = typeOf Γ e) (meaning Γ result e) := by
  cases e with
  | skip | int | bool =>
    simp only [meaning_skip, meaning_int, meaning_bool]
    exact .pure (by simp [typeOf])
  | get x =>
    rw [meaning_get, once_map]
    refine (once_readVar_keeps x).map fun v hWidth => ?_
    simp [typeOf, hWidth]
  | set x e =>
    rw [meaning_set]
    refine (valueOf_keeps e).bind fun v _ => ?_
    simpa only [typeOf] using once_rewrite_keeps x v
  | update x op e =>
    rw [meaning_update]
    refine (once_readVar_keeps x).bind fun a _ => ?_
    refine (valueOf_keeps e).bind fun b _ => ?_
    rw [once_bind]
    refine (once_divided_keeps _).bind fun v _ => ?_
    simpa only [typeOf] using once_rewrite_keeps x v
  | unary op e =>
    rw [meaning_unary]
    refine (valueOf_keeps e).bind fun v hWidth => .pure ?_
    simp [typeOf, hWidth, Unary.widthOf_apply]
  | binary op a b =>
    rw [meaning_binary]
    refine (valueOf_keeps a).bind fun u hLeft => ?_
    refine (valueOf_keeps b).bind fun v hRight => ?_
    rw [once_map]
    refine (once_divided_keeps _).map fun x hApply => ?_
    simp [typeOf, hLeft, hRight, Binary.widthOf_apply hApply]
  | cast w signed e =>
    rw [meaning_cast]
    refine (valueOf_keeps e).bind fun v _ => .pure ?_
    simp [typeOf]
  | both a b =>
    rw [meaning_both]
    refine (valueOf_keeps a).bind fun u _ => .ite ?_ (.pure ?_)
    · exact (valueOf_keeps b).bind fun v _ => .pure (by simp [typeOf])
    · simp [typeOf]
  | either a b =>
    rw [meaning_either]
    refine (valueOf_keeps a).bind fun u _ => .ite (.pure ?_) ?_
    · simp [typeOf]
    · exact (valueOf_keeps b).bind fun v _ => .pure (by simp [typeOf])
  | cond test yes no =>
    rw [meaning_cond]
    refine (valueOf_keeps test).bind fun c _ => ?_
    have hArms : Preserves (Fits Γ) (fun _ => True) (if c.isTrue then meaningAll Γ result yes
            else meaningAll Γ result no) :=
      .ite ((meaningAll_keeps yes).mono fun _ _ => trivial)
        ((meaningAll_keeps no).mono fun _ _ => trivial)
    refine hArms.map fun v _ => ?_
    simp only [typeOf, map_widthOf_settle]
  | loop truth test body =>
    rw [meaning_loop]
    exact iterates_keeps (roundOf_keeps (valueOf_keeps test) (meaningAll_keeps body))
  | postLoop truth test body =>
    rw [meaning_postLoop]
    exact iterates_keeps (postRoundOf_keeps (valueOf_keeps test) (meaningAll_keeps body))
  | leave | again | ret =>
    simp only [meaning_leave, meaning_again, meaning_ret]
    exact .fail _
  | retWith e =>
    rw [meaning_retWith]
    exact (valueOf_keeps e).bind fun v _ => .fail _

/- An expression that has a value has one of its type. -/
theorem valueOf_keeps (e : Expr) :
    Preserves (Fits Γ) (fun v => typeOf Γ e = some (widthOf v)) (valueOf Γ result e) := by
  refine (meaning_keeps e).bind fun v hWidth => ?_
  refine (once_need_keeps v).mono fun u hValue => ?_
  rw [← hWidth, hValue]
  rfl

/- Statements leave a value of the type of the last one. -/
theorem meaningAll_keeps (es : List Expr) :
    Preserves (Fits Γ) (fun v => v.map widthOf = lastType Γ es) (meaningAll Γ result es) := by
  match es with
  | [] =>
    rw [meaningAll_nil]
    exact .pure (by simp [lastType])
  | [e] =>
    rw [meaningAll_single]
    simpa only [lastType] using meaning_keeps e
  | e :: e' :: es =>
    rw [meaningAll_cons]
    refine (meaning_keeps e).bind fun _ _ => ?_
    simpa only [lastType] using meaningAll_keeps (e' :: es)

end

end RubyWat.Integral
