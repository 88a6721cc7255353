import RubyWat.Proofs.Arithmetic
import RubyWat.Proofs.Emission
import RubyWat.Proofs.Execution
import RubyWat.Proofs.Meaning

/-
  What the code of casts and operators computes.

  Key definitions: `Integral.quotient`, `Integral.Supplies`, `Integral.Computes`.

  The compiler converts literals and folds operators on them while it puts code together.
  Whether it does or not, the code computes what the operators and casts on values give.

  Main statements: `Computes.casts`, `Computes.combines` and `Computes.alters`.
-/

-- Words And Values

namespace RubyWat

open Code Machine Translation Wasm List Conversion

variable {fold : Bool} {f right : Fragment} {n : NodeId}
variable {op : Integral.Binary} {a w : Integral.Width}
variable {v : Value} {depth : Nat} {source target ty : ValueType}

namespace Wasm

/- The low half of an integer as a word. -/
theorem cut_eq (a : Int64) : cut 32 a = a.toInt32.toBitVec := by
  rw [cut, Int64.toBitVec_toInt32, BitVec.signExtend_eq_setWidth_of_le _ (by decide)]

theorem cut_toInt64 (a : Int32) : cut 32 a.toInt64 = a.toBitVec := by
  rw [cut_eq, Int32.toInt32_toInt64]

theorem extendSigned_cut (a : Int64) : extendSigned (cut 32 a) = a.toInt32.toInt64 := by
  apply Int64.toBitVec_inj.mp
  rw [cut_eq, Int32.toBitVec_toInt64]
  rfl

end Wasm

/- How values are held before and after each conversion. -/
theorem Conversion.between_held (source target : ValueType) : match between source target with
    | keep => source = target | retag => source.held = target.held
    | extend => source.held = .i32 ∧ target.held = .i64
    | wrap | wrapRetag => source.held = .i64 ∧ target.held = .i32
    | unsupported | invalid => True := by
  by_cases hEq : source = target
  · rw [between, if_pos hEq]
    exact hEq
  · rw [between, if_neg hEq]
    fun_cases ofDistinct source target <;> simp [ValueType.held, ValueType.held?, ValueType.pointer]

theorem ValueType.ne_none_of_held? (hTy : ty.held? = some t) : ty ≠ .none := by
  rintro rfl
  cases hTy

namespace Integral

/- A value is known by its width and its number. -/
theorem value_toInt64 (hWidth : widthOf v = w) : w.value v.toInt64 = v := by
  subst hWidth
  cases v with
  | i32 x =>
    show Value.i32 x.toInt64.toInt32 = .i32 x
    rw [Int32.toInt32_toInt64]
  | i64 x => rfl

theorem type_widthOf (v : Value) : v.type = (widthOf v).machine := by
  cases v <;> rfl

theorem ofType_machine (w : Width) (raw : Int64) :
    Value.ofType w.machine raw = .ok (w.value raw) := by
  cases w <;> rfl

/- Literals have the types of their widths. -/
theorem literalType_eq (value : Int64) : literalType value = (Width.ofLiteral value).type := by
  rw [literalType, Width.ofLiteral, extendSigned_cut]
  split <;> rfl

theorem toInt64_ofWord (w : Width) (word : BitVec w.bits) :
    (ofWord w word).toInt64 = extendSigned word := by
  cases w with
  | narrow =>
    have hWord : extendSigned word = (Int32.ofBitVec word).toInt64 :=
      Int64.toBitVec_inj.mp (Int32.toBitVec_toInt64 (Int32.ofBitVec word)).symm
    show (extendSigned word).toInt32.toInt64 = _
    rw [hWord, Int32.toInt32_toInt64]
  | wide => rfl

theorem extendSigned_wordOf (v : Value) : extendSigned (wordOf (widthOf v) v) = v.toInt64 := by
  cases v with
  | i32 x =>
    refine (extendSigned_cut x.toInt64).trans ?_
    rw [Int32.toInt32_toInt64]
    rfl
  | i64 x =>
    apply Int64.toBitVec_inj.mp
    simp [wordOf, widthOf, Width.bits, cut, extendSigned]

/- A cast to the width that a value has changes nothing. -/
theorem castTo_self (signed : Bool) (hWidth : widthOf v = w) : castTo w signed v = v := by
  cases w with
  | narrow => exact value_toInt64 hWidth
  | wide =>
    cases v with
    | i32 x => cases hWidth
    | i64 x => rfl

/- A cast that keeps the sign. -/
theorem castTo_true (w : Width) (v : Value) : castTo w true v = resize w v := by
  cases w with
  | narrow => rfl
  | wide => cases v <;> rfl

/- A value that meets another keeps its number. -/
theorem toInt64_castTo_join (v : Value) (b : Width) :
    (castTo ((widthOf v).join b) true v).toInt64 = v.toInt64 := by
  cases v with
  | i32 x =>
    cases b with
    | narrow => exact congrArg Value.toInt64 (castTo_self true rfl)
    | wide => rfl
  | i64 x => rfl

theorem join_comm (a b : Width) : a.join b = b.join a := by
  cases a <;> cases b <;> rfl

theorem join_self (a : Width) : a.join a = a := by
  cases a <;> rfl

theorem held_of_held? (hTy : ty.held? = some w.machine) : ty.held = w.machine := by
  rw [ValueType.held, hTy]
  rfl

/- A literal is converted like the value that it stands for. -/
theorem literal_eq (signed : Bool) (hSource : source.held? = some (widthOf v).machine)
    (hTarget : target.held? = some w.machine)
    (hAllowed : (between source target).isAllowed) :
    (between source target).literal signed v.toInt64 = (castTo w signed v).toInt64 := by
  have hHeld := between_held source target
  simp only [held_of_held? hSource, held_of_held? hTarget] at hHeld
  cases hKind : between source target with
  | unsupported | invalid => simp [hKind, isAllowed] at hAllowed
  | keep =>
    rw [hKind] at hHeld
    subst hHeld
    have hSame := Width.machine_inj.mp (Option.some.inj (hSource.symm.trans hTarget))
    exact congrArg Value.toInt64 (castTo_self signed hSame).symm
  | retag =>
    rw [hKind] at hHeld
    exact congrArg Value.toInt64 (castTo_self signed (Width.machine_inj.mp hHeld)).symm
  | extend =>
    rw [hKind] at hHeld
    cases v with
    | i64 x => cases hHeld.1
    | i32 x =>
      cases w with
      | narrow => cases hHeld.2
      | wide =>
        cases signed with
        | true => rfl
        | false =>
          show extendUnsigned (cut 32 x.toInt64) = _
          rw [cut_toInt64]
          rfl
  | wrap | wrapRetag =>
    rw [hKind] at hHeld
    cases v with
    | i32 x => cases hHeld.1
    | i64 x =>
      cases w with
      | wide => cases hHeld.2
      | narrow => exact extendSigned_cut x

-- Operators On Values

/- Arithmetic on numbers at the width where two values meet. -/
theorem arith_apply (op : BinaryOp) (a b : Value) :
    op.apply ((widthOf a).join (widthOf b)).machine a.toInt64 b.toInt64
      = ((Binary.arith op).apply a b).map Value.toInt64 := by
  simp only [Binary.apply, Option.map_map]
  generalize (widthOf a).join (widthOf b) = w
  have hWords : Value.toInt64 ∘ ofWord w = extendSigned := funext (toInt64_ofWord w)
  rw [hWords]
  cases w <;> rfl

/- Arithmetic only depends on numbers and the width. -/
theorem arith_apply_congr (op : BinaryOp) {a b a' b' : Value}
    (hWidth : (widthOf a).join (widthOf b) = (widthOf a').join (widthOf b'))
    (hLeft : a.toInt64 = a'.toInt64) (hRight : b.toInt64 = b'.toInt64) :
    (Binary.arith op).apply a b = (Binary.arith op).apply a' b' := by
  simp only [Binary.apply, wordOf, hLeft, hRight]
  rw [hWidth]

/- Operands that meet have the same result after casts. -/
theorem apply_castTo (op : Binary) (a b : Value) :
    op.apply (castTo ((widthOf a).join (widthOf b)) true a)
        (castTo ((widthOf a).join (widthOf b)) true b)
      = op.apply a b := by
  have hLeft := toInt64_castTo_join a (widthOf b)
  have hRight := toInt64_castTo_join b (widthOf a)
  rw [join_comm] at hRight
  cases op with
  | arith op =>
    refine arith_apply_congr op ?_ hLeft hRight
    rw [widthOf_castTo, widthOf_castTo, join_self]
  | relation op => simp only [Binary.apply, hLeft, hRight]

theorem native_apply (op : UnaryOp) (v : Value) :
    op.apply (widthOf v).machine v.toInt64 = some ((Unary.native op).apply v).toInt64 := by
  -- what is counted fits into a narrow result
  have hSmall : ∀ n ≤ 64, (Int64.ofNat n).toInt32.toInt64 = Int64.ofNat n := by decide
  cases v with
  | i32 x =>
    have hLe := Nat.le_trans (op.eval_le (by decide) (cut 32 x.toInt64)) (by decide : 32 ≤ 64)
    refine (congrArg some (hSmall _ hLe).symm).trans ?_
    cases op <;> rfl
  | i64 x =>
    cases op with
    | eqz =>
      have hLe := UnaryOp.eqz.eval_le (by decide) (cut 64 x)
      exact congrArg some (hSmall _ hLe).symm
    | clz | ctz | popcnt => rfl

theorem unary_eq (op : UnaryOp) (v : Value) :
    Value.unary op v = .ok ((Unary.native op).apply v) := by
  rw [Value.unary, type_widthOf, native_apply]
  dsimp only
  rw [Unary.resultType_eq, ofType_machine, value_toInt64 (Unary.widthOf_apply _ v)]

theorem isTrue_ofBool (b : Bool) : (Value.ofBool b).isTrue = b := by
  cases b <;> rfl

/- The opposite of a truth value. -/
theorem eqz_apply (v : Value) : (Unary.native .eqz).apply v = .ofBool (!v.isTrue) := by
  have hZero : wordOf (widthOf v) v = 0 ↔ v.toInt64 = 0 := by
    constructor
    · intro hWord
      rw [← extendSigned_wordOf v, hWord]
      cases v <;> rfl
    · intro hNumber
      rw [wordOf, hNumber]
      cases v <;> rfl
  show Width.narrow.value (Int64.ofNat
    (if wordOf (widthOf v) v = 0 then 1 else 0)) = .ofBool (!v.isTrue)
  by_cases hNumber : v.toInt64 = 0
  · rw [if_pos (hZero.mpr hNumber), Value.isTrue, hNumber]
    rfl
  · rw [if_neg (mt hZero.mp hNumber), Value.isTrue, bne_iff_ne.mpr hNumber]
    rfl

-- Computations

variable {σ : Type}

/- The result of a division that may have none. -/
def quotient (v : Option Value) : Behaviour Exit (State σ) Value :=
  match v with
  | some v => pure v
  | none => .fail (.trap ⟨.divisionByZero, none⟩)

/- Whether a literal is the number of the value that it has. -/
def Exact (f : Fragment) (w : Width) : Prop :=
  ∀ raw, f.instr = .const raw → (w.value raw).toInt64 = raw

/-
  What the code in a fragment leaves when it starts in certain states: a value, which it has at
  once if it is a literal. Types that are held alike make no difference.
-/
structure Supplies (h : Host σ) (depth : Nat) (P : State σ → Prop) (f : Fragment) (w : Width)
    (B : Behaviour Exit (State σ) Value) : Prop where
  held : f.ty.held? = some w.machine
  keeps : Preserves P (fun _ => True) B
  literal : ∀ raw, f.instr = .const raw → AgreeOn P B (pure (w.value raw))
  retyped : ∀ ty, ty.held? = f.ty.held? → Held h.ctx.tree { f with ty } →
      AgreeOn P (behaviour h depth f.id) (some <$> B)

/- Code that leaves values of its width. -/
structure Yields (h : Host σ) (depth : Nat) (P : State σ → Prop) (f : Fragment) (w : Width)
    (B : Behaviour Exit (State σ) Value) : Prop extends Supplies h depth P f w B where
  typed : Preserves P (fun v => widthOf v = w) B

/-
  Code whose literals are exact, too, so that it is known what
  becomes of them when they are converted or folded.
-/
structure Computes (h : Host σ) (depth : Nat) (P : State σ → Prop) (f : Fragment) (w : Width)
    (B : Behaviour Exit (State σ) Value) : Prop extends Yields h depth P f w B where
  exact : Exact f w

variable {h : Host σ} {P : State σ → Prop} {g : Fragment}
variable {B B' : Behaviour Exit (State σ) Value}

namespace Supplies

section

variable (hF : Supplies h depth P f w B)
include hF

theorem agrees (hHeld : Held h.ctx.tree f) : AgreeOn P (behaviour h depth f.id) (some <$> B) := by
  cases f
  exact hF.retyped _ rfl hHeld

theorem congr (hSame : AgreeOn P B B') : Supplies h depth P f w B' where
  held := hF.held
  keeps := hF.keeps.congr hSame
  literal := fun raw hConst => hSame.symm.trans (hF.literal raw hConst)
  retyped := fun ty hTy hHeld => (hF.retyped ty hTy hHeld).trans (hSame.map some)

/- The width of code, from its type. -/
theorem width_eq (hTy : f.ty = ty) (hHeld : ty.held? = some a.machine) : w = a := by
  subst hTy
  exact Width.machine_inj.mp (Option.some.inj (hF.held.symm.trans hHeld))

theorem ne_none : f.ty ≠ .none :=
  ValueType.ne_none_of_held? hF.held

end

/- A literal leaves its value. -/
theorem const (hInstr : f.instr = .const raw) (hTy : f.ty.held? = some w.machine) :
    Supplies h depth P f w (pure (w.value raw)) where
  held := hTy
  keeps := .pure trivial
  literal := by
    intro raw' hConst
    rw [hInstr] at hConst
    cases hConst
    exact .refl _
  retyped := by
    intro ty hSame hHeld
    rcases f with ⟨n, instr, _, cs⟩
    dsimp only at hInstr hTy hSame
    subst hInstr
    have hValue : Value.ofType ty.held raw = .ok (w.value raw) := by
      rw [held_of_held? (hSame.trans hTy)]
      exact ofType_machine w raw
    rw [behaviour_const hHeld hValue, map_pure]
    exact .refl _

/- An operand, and what is done with it. -/
theorem operand {α : Type} (hF : Supplies h depth P f w B) (hHeld : Held h.ctx.tree f)
    (K : Option Value → Behaviour Exit (State σ) α) :
    AgreeOn P (behaviour h depth f.id >>= K) (B >>= fun v => K (some v)) := by
  have hSome : Preserves P (fun _ => True) (some <$> B) := hF.keeps.map fun _ _ => trivial
  have hBoth := (hF.agrees hHeld).bind hSome fun v _ => .refl (K v)
  rwa [bind_map_left] at hBoth

/- Two operands, and what is done with them. -/
theorem operands {α : Type} (hF : Supplies h depth P f a B)
    (hG : Supplies h depth P g w B') (hHeldF : Held h.ctx.tree f) (hHeldG : Held h.ctx.tree g)
    (K : Option Value → Option Value → Behaviour Exit (State σ) α) :
    AgreeOn P (behaviour h depth f.id >>= fun u => behaviour h depth g.id >>= fun v => K u v)
      (B >>= fun u => B' >>= fun v => K (some u) (some v)) :=
  (hF.operand hHeldF _).trans (.bind (.refl B) hF.keeps fun u _ => hG.operand hHeldG (K (some u)))

end Supplies

theorem Yields.congr (hF : Yields h depth P f w B) (hSame : AgreeOn P B B') :
    Yields h depth P f w B' :=
  ⟨hF.toSupplies.congr hSame, hF.typed.congr hSame⟩

namespace Computes

theorem congr (hF : Computes h depth P f w B) (hSame : AgreeOn P B B') :
    Computes h depth P f w B' :=
  ⟨hF.toYields.congr hSame, hF.exact⟩

/- A literal computes its value. -/
theorem const (hWidth : widthOf v = w) (hInstr : f.instr = .const v.toInt64)
    (hTy : f.ty.held? = some w.machine) : Computes h depth P f w (pure v) := by
  have hValue := value_toInt64 hWidth
  have hCode : Supplies h depth P f w (pure (w.value v.toInt64)) := .const hInstr hTy
  rw [hValue] at hCode
  refine ⟨⟨hCode, .pure hWidth⟩, fun raw hConst => ?_⟩
  rw [hInstr] at hConst
  cases hConst
  rw [hValue]

/- Code that is no literal, from what its values are. -/
theorem of_silent (hTy : f.ty.held? = some w.machine)
    (hTyped : Preserves P (fun v => widthOf v = w) B) (hConst : ∀ raw, f.instr ≠ .const raw)
    (hAgrees : ∀ ty, Held h.ctx.tree { f with ty } →
      AgreeOn P (behaviour h depth f.id) (some <$> B)) :
    Computes h depth P f w B :=
  ⟨⟨⟨hTy, hTyped.mono fun _ _ => trivial, fun raw hRaw => absurd hRaw (hConst raw),
    fun ty _ => hAgrees ty⟩, hTyped⟩, fun raw hRaw => absurd hRaw (hConst raw)⟩

/- A cast computes the cast of a value. -/
theorem casts (hF : Computes h depth P f a B) (hTy : ty.held? = some w.machine)
    (hCasts : Casts signed ty f g) : Computes h depth P g w (castTo w signed <$> B) := by
  have hTyped : Preserves P (fun v => widthOf v = w) (castTo w signed <$> B) :=
    hF.typed.map fun v _ => widthOf_castTo w signed v
  have hSelf : a = w → AgreeOn P B (castTo w signed <$> B) := by
    rintro rfl
    refine .map_self fun s hState v s' hEnd => castTo_self signed ?_
    exact (hF.typed s hState _ hEnd).2 v s' rfl
  have hHeld := between_held f.ty ty
  simp only [held_of_held? hF.held, held_of_held? hTy] at hHeld
  cases hCasts with
  | keep hKind =>
    rw [hKind] at hHeld
    cases hF.width_eq hHeld hTy
    exact hF.congr (hSelf rfl)
  | @literal raw hConst _ hAllowed =>
    have hNumber := hF.exact raw hConst
    have hLiteral : (between f.ty ty).literal signed raw
          = (castTo w signed (a.value raw)).toInt64 := by
      rw [← literal_eq signed (by rw [hF.held, widthOf_value]) hTy hAllowed, hNumber]
    refine (const (widthOf_castTo w signed _) (congrArg Instr.const hLiteral) hTy).congr ?_
    have hMap := (hF.literal raw hConst).map (castTo w signed)
    rw [map_pure] at hMap
    exact hMap.symm
  | retag hConst hKind =>
    rw [hKind] at hHeld
    have hSame := Width.machine_inj.mp hHeld
    refine ⟨⟨⟨hTy, hTyped.mono fun _ _ => trivial, fun raw hRaw => absurd hRaw (hConst raw),
      fun ty' hTy' hNode => ?_⟩, hTyped⟩, fun raw hRaw => absurd hRaw (hConst raw)⟩
    refine (hF.retyped ty' (hTy'.trans ?_) hNode).trans ((hSelf hSame).map some)
    rw [hTy, hF.held, hSame]
  | extend hConst hKind =>
    rw [hKind] at hHeld
    have hWide : w = .wide := Width.machine_inj.mp hHeld.2
    subst hWide
    refine .of_silent hTy hTyped (by simp) fun _ hNode => ?_
    rw [behaviour_operand hNode rfl]
    refine (hF.operand (hNode.child (.head _)) _).trans ?_
    simp only [demand, pure_bind, once_pure, Functor.map_map]
    rw [bind_pure_comp]
    exact .refl _
  | wrap hConst hKind =>
    have hNarrow : w = .narrow := by
      rcases hKind with hKind | hKind <;> rw [hKind] at hHeld
      all_goals exact Width.machine_inj.mp hHeld.2
    subst hNarrow
    refine .of_silent hTy hTyped (by simp) fun _ hNode => ?_
    rw [behaviour_operand hNode rfl]
    refine (hF.operand (hNode.child (.head _)) _).trans ?_
    simp only [demand, pure_bind, once_pure, Functor.map_map]
    rw [bind_pure_comp]
    exact .refl _

/- A value that is made to have the type of a result. -/
theorem results (hF : Computes h depth P f a B)
    (hTy : ty.held? = some w.machine) (hCasts : Casts true ty f g) (hHeld : Held h.ctx.tree g) :
    AgreeOn P (behaviour h depth g.id) (some <$> resize w <$> B) := by
  have hResize : castTo w true = resize w := funext (castTo_true w)
  rw [← hResize]
  exact (hF.casts hTy hCasts).agrees hHeld

end Computes

namespace Yields

/- Code that gets another type which is held alike. -/
theorem retype (hF : Yields h depth P f w B) (hTy : ty.held? = f.ty.held?) :
    Yields h depth P { f with ty } w B :=
  ⟨⟨hTy.trans hF.held, hF.keeps, hF.literal, fun ty' hSame => hF.retyped ty' (hSame.trans hTy)⟩,
    hF.typed⟩

/- A cast to the narrow width, which any literal survives. -/
theorem narrowed (hF : Yields h depth P f a B) (hTy : ty.held? = some Width.narrow.machine)
    (hCasts : Casts signed ty f g) : Yields h depth P g .narrow (resize .narrow <$> B) := by
  by_cases hSome : ∃ raw, f.instr = .const raw
  · rcases hSome with ⟨raw, hRaw⟩
    have hPure : AgreeOn P (pure (Width.narrow.value raw)) (resize .narrow <$> B) := by
      have hMap := (hF.literal raw hRaw).map (resize .narrow)
      rw [map_pure] at hMap
      cases a with
      | narrow =>
        rw [resize, value_toInt64 (widthOf_value .narrow raw)] at hMap
        exact hMap.symm
      | wide => exact hMap.symm
    have hConst : ∃ raw', g.instr = .const raw' ∧ g.ty.held? = some Width.narrow.machine
        ∧ Width.narrow.value raw' = Width.narrow.value raw := by
      have hHeld := between_held f.ty ty
      cases hCasts with
      | keep hKind =>
        rw [hKind] at hHeld
        exact ⟨raw, hRaw, hHeld ▸ hTy, rfl⟩
      | literal hConst _ hAllowed =>
        rw [hRaw] at hConst
        cases hConst
        refine ⟨_, rfl, hTy, ?_⟩
        cases hKind : between f.ty ty with
        | unsupported | invalid => simp [hKind, isAllowed] at hAllowed
        | keep | retag => rfl
        | extend =>
          rw [hKind, held_of_held? hTy] at hHeld
          cases hHeld.2
        | wrap | wrapRetag =>
          show Value.i32 (extendSigned (cut 32 raw)).toInt32 = .i32 raw.toInt32
          rw [extendSigned_cut, Int32.toInt32_toInt64]
      | retag hConst | extend hConst | wrap hConst => exact absurd hRaw (hConst raw)
    rcases hConst with ⟨raw', hInstr, hHeld, hSame⟩
    have hCode : Supplies h depth P g .narrow (pure (Width.narrow.value raw')) :=
      .const hInstr hHeld
    rw [hSame] at hCode
    exact ⟨hCode.congr hPure, hF.typed.map fun v _ => widthOf_value .narrow _⟩
  · have hNone : Exact f a := fun raw hRaw => absurd ⟨raw, hRaw⟩ hSome
    exact (Computes.casts ⟨hF, hNone⟩ hTy hCasts).toYields

end Yields

end Integral

-- Operators In Code

namespace Code

namespace Fragment

theorem literal?_eq_some (hLiteral : f.literal? = some raw) : f.instr = .const raw := by
  unfold literal? at hLiteral
  split at hLiteral
  · cases hLiteral
    assumption
  · cases hLiteral

/- Two operands that are literals. -/
theorem literals_pair (hLiterals : [left, right].mapM literal? = some raws) :
    ∃ a b, left.instr = .const a ∧ right.instr = .const b ∧ raws = [a, b] := by
  simp only [mapM_cons, mapM_nil, Option.bind_eq_bind,
    Option.bind_eq_some_iff, Option.pure_def, Option.some.injEq] at hLiterals
  rcases hLiterals with ⟨a, hLeft, _, ⟨b, hRight, _, rfl, rfl⟩, rfl⟩
  exact ⟨a, b, literal?_eq_some hLeft, literal?_eq_some hRight, rfl⟩

end Fragment

end Code

namespace Integral

variable {σ : Type} {h : Host σ} {P : State σ → Prop}

theorem quotient_keeps {v : Option Value} (hWidth : ∀ x, v = some x → widthOf x = w) :
    Preserves P (fun x => widthOf x = w) (quotient v) := by
  cases v with
  | some x => exact .pure (hWidth x rfl)
  | none => exact .fail _

/- The instruction for arithmetic on values of one width. -/
theorem once_binary {op : BinaryOp} {u : Value} (hLeft : widthOf u = w) (hRight : widthOf v = w) :
    (once .outOfFuel (do
        let (u, v) ← demandBoth (some u) (some v)
        some <$> Exec.settle (Value.binary op u v))
      : Behaviour Exit (State σ) (Option Value))
      = some <$> quotient ((Binary.arith op).apply u v) := by
  have hApply := arith_apply op u v
  rw [hLeft, hRight, join_self] at hApply
  have hWidth : ∀ x, (Binary.arith op).apply u v = some x → widthOf x = w := by
    intro x hX
    rw [Binary.widthOf_apply hX, hLeft, hRight]
    exact join_self w
  simp only [demandBoth, pure_bind, once_map]
  refine congrArg (some <$> ·) ?_
  rw [Value.binary, type_widthOf, hLeft, hApply]
  cases hResult : (Binary.arith op).apply u v with
  | none => exact once_throw (by simp)
  | some x =>
    rw [Option.map_some]
    dsimp only
    rw [ofType_machine, value_toInt64 (hWidth x hResult)]
    exact once_pure x

variable {left : Fragment}
variable {B B' : Behaviour Exit (State σ) Value}

namespace Supplies

/- An operator leaves the same when it is folded. -/
theorem folded (hF : Supplies h depth P f w B) (fold : Bool) (hConst : ∀ raw, f.instr ≠ .const raw)
    (hValue : ∀ raw, f.foldedValue? = some raw →
        ∃ v, widthOf v = w ∧ v.toInt64 = raw ∧ AgreeOn P B (pure v)) :
    Supplies h depth P (f.folded fold) w B ∧ Exact (f.folded fold) w := by
  have hSame : Supplies h depth P f w B ∧ Exact f w :=
    ⟨hF, fun raw hRaw => absurd hRaw (hConst raw)⟩
  unfold Fragment.folded
  split
  · split
    · rename_i raw hRaw
      rcases hValue raw hRaw with ⟨v, hWidth, rfl, hPure⟩
      have hCode : Computes h depth P
          { f with instr := .const v.toInt64, children := [] } w (pure v) :=
        .const hWidth rfl hF.held
      exact ⟨hCode.toSupplies.congr hPure.symm, hCode.exact⟩
    · exact hSame
  · exact hSame

section

variable (hLeft : Supplies h depth P left w B) (hRight : Supplies h depth P right w B')
include hLeft hRight

/- Operands that are literals, and what is done with them. -/
theorem literals {a b : Int64} (hConstL : left.instr = .const a)
    (hConstR : right.instr = .const b) (K : Value → Value → Behaviour Exit (State σ) Value) :
    AgreeOn P (do let u ← B; let v ← B'; K u v) (K (w.value a) (w.value b)) := by
  have hFirst := (hLeft.literal a hConstL).bind (Q := fun x => x = w.value a) (.pure rfl) fun x _ =>
      ((hRight.literal b hConstR).bind (Q := fun y => y = w.value b) (.pure rfl) fun y _ =>
        .refl (K x y))
  rwa [pure_bind, pure_bind] at hFirst

/- A comparison of operands of one width, as it stands. -/
theorem compared (n : NodeId) (op : Relation) (ty : MachineType) :
    Supplies h depth P ⟨n, .compare op ty, .i32, [left, right]⟩ .narrow (do
        let u ← B
        let v ← B'
        quotient ((Binary.relation op).apply u v)) := by
  refine ⟨rfl, ?_, by rintro _ ⟨⟩, fun _ _ hHeld => ?_⟩
  · exact hLeft.keeps.bind fun u _ => hRight.keeps.bind fun v _ => .pure trivial
  · rw [behaviour_operands hHeld rfl]
    refine (hLeft.operands hRight (hHeld.child (.head _))
      (hHeld.child (.tail _ (.head _))) _).trans ?_
    simp only [map_bind, demandBoth, pure_bind, once_pure, quotient, Binary.apply, map_pure]
    exact .refl _

/- A comparison that may be folded. -/
theorem relation (hExactL : Exact left w) (hExactR : Exact right w)
    (fold : Bool) (n : NodeId) (op : Relation) (ty : MachineType) :
    let f := Fragment.folded fold ⟨n, .compare op ty, .i32, [left, right]⟩
    Supplies h depth P f .narrow (do
        let u ← B
        let v ← B'
        quotient ((Binary.relation op).apply u v))
      ∧ Exact f .narrow := by
  refine (hLeft.compared hRight n op ty).folded fold (by simp) fun raw hRaw => ?_
  simp only [Fragment.foldedValue?, Option.bind_eq_bind, Option.bind_eq_some_iff] at hRaw
  rcases hRaw with ⟨raws, hLiterals, hRest⟩
  rcases Fragment.literals_pair hLiterals with ⟨a, b, hConstL, hConstR, rfl⟩
  cases hRest
  have hAgree := hLeft.literals hRight hConstL hConstR
  refine ⟨.ofBool (op.holds a b), rfl, ?_, (hAgree _).trans ?_⟩
  · rw [Relation.apply]
    cases op.holds a b <;> rfl
  · rw [Binary.apply, hExactL a hConstL, hExactR b hConstR]
    exact .refl _

end

theorem native (hF : Supplies h depth P f w B) (fold : Bool) (n : NodeId) (op : UnaryOp) :
    let g := Fragment.folded fold ⟨n, .unary op, ((Unary.native op).width w).type, [f]⟩
    Supplies h depth P g ((Unary.native op).width w) ((Unary.native op).apply <$> B)
      ∧ Exact g ((Unary.native op).width w) := by
  refine folded ⟨rfl, ?_, by rintro _ ⟨⟩, fun _ _ hHeld => ?_⟩ fold (by simp) ?_
  · exact hF.keeps.map fun _ _ => trivial
  · rw [behaviour_operand hHeld rfl]
    refine (hF.operand (hHeld.child (.head _)) _).trans ?_
    simp only [demand, pure_bind, unary_eq, once_map, Functor.map_map]
    refine .trans (.bind (.refl B) hF.keeps fun v _ => ?_) (.of_eq (bind_pure_comp _ _))
    exact .of_eq ((congrArg (some <$> ·) (once_pure _)).trans (map_pure _ _))
  · intro raw hRaw
    simp only [Fragment.foldedValue?, Option.bind_eq_bind, Option.bind_eq_some_iff] at hRaw
    rcases hRaw with ⟨raws, hLiterals, hRest⟩
    simp only [mapM_cons, mapM_nil, Option.bind_eq_bind,
      Option.bind_eq_some_iff, Option.pure_def, Option.some.injEq]
      at hLiterals
    rcases hLiterals with ⟨a, hLiteral, _, rfl, rfl⟩
    simp only [head?_cons, Option.bind_some, Option.bind_eq_some_iff] at hRest
    rcases hRest with ⟨ty, hTy, hApply⟩
    have hMachine : ty = (widthOf (w.value a)).machine := by
      have hHeld := hF.held
      rw [widthOf_value]
      cases hType : f.ty with
      | machine t =>
        rw [hType] at hTy hHeld
        cases hTy
        cases hHeld
        rfl
      | none | ref => simp [hType, ValueType.machine?] at hTy
    have hNumber : op.apply ty a = some ((Unary.native op).apply (w.value a)).toInt64 := by
      rw [hMachine, ← native_apply]
      cases w with
      | narrow =>
        show op.apply .i32 a = op.apply .i32 a.toInt32.toInt64
        rw [UnaryOp.apply, UnaryOp.apply, cut_toInt64, cut_eq]
      | wide => rfl
    rw [hApply] at hNumber
    refine ⟨(Unary.native op).apply (w.value a), ?_, (Option.some.inj hNumber).symm, ?_⟩
    · rw [Unary.widthOf_apply, widthOf_value]
    · have hMap := (hF.literal a (Fragment.literal?_eq_some hLiteral)).map (Unary.native op).apply
      rwa [map_pure] at hMap

end Supplies

/- Arithmetic on operands of one width, as it stands. -/
theorem Yields.arith (hLeft : Yields h depth P left w B) (hRight : Yields h depth P right w B')
    (n : NodeId) (op : BinaryOp) (hTy : ty.held? = some w.machine) :
    Yields h depth P ⟨n, .binary op, ty, [left, right]⟩ w (do
        let u ← B
        let v ← B'
        quotient ((Binary.arith op).apply u v)) := by
  have hTyped : Preserves P (fun v => widthOf v = w) (do
        let u ← B
        let v ← B'
        quotient ((Binary.arith op).apply u v)) := by
    refine hLeft.typed.bind fun u hU => hRight.typed.bind fun v hV => ?_
    refine quotient_keeps fun x hX => ?_
    rw [Binary.widthOf_apply hX, hU, hV]
    exact join_self w
  refine ⟨⟨hTy, hTyped.mono fun _ _ => trivial, by rintro _ ⟨⟩, fun _ _ hHeld => ?_⟩, hTyped⟩
  rw [behaviour_operands hHeld rfl]
  refine (hLeft.operands hRight.toSupplies (hHeld.child (.head _))
    (hHeld.child (.tail _ (.head _))) _).trans ?_
  simp only [map_bind]
  refine .bind (.refl B) hLeft.typed fun u hU => ?_
  refine .bind (.refl B') hRight.typed fun v hV => ?_
  rw [once_binary hU hV]
  exact .refl _

namespace Computes

theorem of_supplies (hTyped : Preserves P (fun v => widthOf v = w) B)
    (hCode : Supplies h depth P f w B ∧ Exact f w) : Computes h depth P f w B :=
  ⟨⟨hCode.1, hTyped⟩, hCode.2⟩

section

variable (hLeft : Computes h depth P left w B) (hRight : Computes h depth P right w B')
variable (fold : Bool) (n : NodeId)
include hLeft hRight

theorem arith (op : BinaryOp) :
    Computes h depth P (Fragment.folded fold ⟨n, .binary op, w.type, [left, right]⟩) w (do
        let u ← B
        let v ← B'
        quotient ((Binary.arith op).apply u v)) := by
  have hCode := hLeft.toYields.arith hRight.toYields n op (show w.type.held? = _ from rfl)
  refine of_supplies hCode.typed (hCode.toSupplies.folded fold (by simp) fun raw hRaw => ?_)
  simp only [Fragment.foldedValue?, Option.bind_eq_bind, Option.bind_eq_some_iff] at hRaw
  rcases hRaw with ⟨raws, hLiterals, hRest⟩
  rcases Fragment.literals_pair hLiterals with ⟨a, b, hConstL, hConstR, rfl⟩
  rcases Option.bind_eq_some_iff.mp hRest with ⟨ty, hTy, hApply⟩
  cases hTy
  have hNumbers := arith_apply op (w.value a) (w.value b)
  rw [widthOf_value, widthOf_value, join_self, hLeft.exact a hConstL,
    hRight.exact b hConstR, hApply] at hNumbers
  rcases Option.map_eq_some_iff.mp hNumbers.symm with ⟨x, hX, rfl⟩
  refine ⟨x, ?_, rfl, ?_⟩
  · rw [Binary.widthOf_apply hX, widthOf_value, widthOf_value]
    exact join_self w
  · refine (hLeft.literals hRight.toSupplies hConstL hConstR _).trans ?_
    rw [hX]
    exact .refl _

theorem relation (op : Relation) (ty : MachineType) :
    Computes h depth P (Fragment.folded fold ⟨n, .compare op ty, .i32, [left, right]⟩) .narrow (do
        let u ← B
        let v ← B'
        quotient ((Binary.relation op).apply u v)) := by
  refine of_supplies ?_
    (hLeft.toSupplies.relation hRight.toSupplies hLeft.exact hRight.exact fold n op ty)
  exact hLeft.keeps.bind fun u _ => hRight.keeps.bind fun v _ => .pure rfl

end

theorem native (hF : Computes h depth P f w B) (fold : Bool) (n : NodeId) (op : UnaryOp) :
    Computes h depth P (Fragment.folded fold ⟨n, .unary op, ((Unary.native op).width w).type, [f]⟩)
      ((Unary.native op).width w)
      ((Unary.native op).apply <$> B) := by
  refine of_supplies (hF.typed.map fun v hWidth => ?_) (hF.toSupplies.native fold n op)
  rw [← hWidth, Unary.widthOf_apply]

variable (hLeft : Computes h depth P left a B) (hRight : Computes h depth P right b B')
include hLeft hRight

/- Two operands that are promoted to the width where they meet. -/
theorem promoted (hCastL : Casts true (a.join b).type left left')
    (hCastR : Casts true (a.join b).type right right')
    (hCode : Computes h depth P left' (a.join b) (castTo (a.join b) true <$> B) →
      Computes h depth P right' (a.join b) (castTo (a.join b) true <$> B') →
      Computes h depth P f w (do
          let u ← castTo (a.join b) true <$> B
          let v ← castTo (a.join b) true <$> B'
          quotient (op.apply u v))) :
    Computes h depth P f w (do
      let u ← B
      let v ← B'
      quotient (op.apply u v)) := by
  refine (hCode (hLeft.casts rfl hCastL) (hRight.casts rfl hCastR)).congr ?_
  simp only [bind_map_left]
  refine .bind (.refl B) hLeft.typed fun u hU => ?_
  refine .bind (.refl B') hRight.typed fun v hV => ?_
  subst hU hV
  rw [apply_castTo]
  exact .refl _

/- An operator on two operands computes its result on values. -/
theorem combines (hCombines : Combines fold n left right op f) :
    Computes h depth P f (op.width a b) (do
      let u ← B
      let v ← B'
      quotient (op.apply u v)) := by
  cases hCombines with
  | arith hTyL hTyR hCastL hCastR =>
    cases hLeft.width_eq rfl hTyL
    cases hRight.width_eq rfl hTyR
    exact hLeft.promoted hRight hCastL hCastR fun hL hR => hL.arith hR fold n _
  | relation hTyL hTyR hCastL hCastR =>
    cases hLeft.width_eq rfl hTyL
    cases hRight.width_eq rfl hTyR
    exact hLeft.promoted hRight hCastL hCastR fun hL hR => hL.relation hR fold n _ _

end Computes

/- Arithmetic on values of one width. -/
theorem arith_apply_of {a b : Value} (op : BinaryOp) (hLeft : widthOf a = w)
    (hRight : widthOf b = w) :
    (Binary.arith op).apply a b = (op.eval (wordOf w a) (wordOf w b)).map (ofWord w) := by
  have hJoin : (widthOf a).join (widthOf b) = w := by rw [hLeft, hRight, join_self]
  subst hJoin
  rfl

/- The negative and the complement as arithmetic. -/
theorem minus_eq (hWidth : widthOf v = w) :
    (Binary.arith .sub).apply (w.value 0) v = some (Unary.minus.apply v) := by
  have hZero : wordOf w (w.value 0) = 0#w.bits := by
    cases w <;> rfl
  rw [arith_apply_of _ (widthOf_value w 0) hWidth, hZero]
  subst hWidth
  simp only [BinaryOp.eval, BitVec.zero_sub]
  rfl

theorem complement_eq (hWidth : widthOf v = w) :
    (Binary.arith .xor).apply v (w.value (-1)) = some (Unary.complement.apply v) := by
  have hOnes : wordOf w (w.value (-1)) = BitVec.allOnes w.bits := by
    cases w <;> rfl
  rw [arith_apply_of _ hWidth (widthOf_value w (-1)), hOnes]
  subst hWidth
  simp only [BinaryOp.eval, BitVec.xor_allOnes]
  rfl

/- Operators with one operand, as what they do to a number. -/
theorem minus_apply (v : Value) : BinaryOp.sub.apply (widthOf v).machine 0 v.toInt64
      = some (Unary.minus.apply v).toInt64 := by
  have hApply := arith_apply .sub ((widthOf v).value 0) v
  rw [minus_eq rfl, widthOf_value, join_self] at hApply
  refine Eq.trans ?_ hApply
  cases v <;> rfl

theorem complement_apply (v : Value) : BinaryOp.xor.apply (widthOf v).machine v.toInt64 (-1)
      = some (Unary.complement.apply v).toInt64 := by
  have hApply := arith_apply .xor v ((widthOf v).value (-1))
  rw [complement_eq rfl, widthOf_value, join_self] at hApply
  refine Eq.trans ?_ hApply
  cases v <;> rfl

theorem toInt64_eqz (v : Value) :
    ((Unary.native .eqz).apply v).toInt64 = if v.toInt64 == 0 then 1 else 0 := by
  rw [eqz_apply, Value.isTrue, bne, Bool.not_not]
  cases v.toInt64 == 0 <;> rfl

namespace Computes

/- An operator on one operand computes its result on the value. -/
theorem alters {op : Unary} {g : Fragment} (hF : Computes h depth P f w B)
    (hAlters : Alters fold n f op g) : Computes h depth P g (op.width w) (op.apply <$> B) := by
  cases hAlters with
  | @minus zero _ hTy =>
    cases hF.width_eq hTy rfl
    have hZero : Computes h depth P (.leaf zero (.const 0) w.type) w (pure (w.value 0)) :=
      const (widthOf_value w 0) (by cases w <;> rfl) rfl
    refine (hZero.arith hF fold n .sub).congr ?_
    rw [pure_bind, map_eq_pure_bind]
    refine .bind (.refl B) hF.typed fun v hV => ?_
    rw [minus_eq hV]
    exact .refl _
  | @complement ones _ hTy =>
    cases hF.width_eq hTy rfl
    have hOnes : Computes h depth P (.leaf ones (.const (-1)) w.type) w (pure (w.value (-1))) :=
      const (widthOf_value w (-1)) (by cases w <;> rfl) rfl
    refine (hF.arith hOnes fold n .xor).congr ?_
    simp only [pure_bind]
    rw [map_eq_pure_bind]
    refine .bind (.refl B) hF.typed fun v hV => ?_
    rw [complement_eq hV]
    exact .refl _
  | native hTy =>
    cases hF.width_eq hTy rfl
    exact hF.native fold n _

end Computes

end Integral

end RubyWat
