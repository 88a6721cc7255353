import RubyWat.Proofs.Calls
import RubyWat.Proofs.Operands

/-
  Arithmetic on references.

  Key definitions: `Reference.moved`, `Reference.apart?`, `Build.Applied`.

  A reference counts in objects of its class.  How large they are is asked of a method that the
  compiler provides when the class is complete, so that code may be put together before.

  Main statement: in a finished program a reference is moved by the final size of its class, and
  the way back gives the number that it was moved by (`references_count_objects`).
-/

-- Addresses

namespace RubyWat

open Code Machine Translation Wasm Integral

namespace Reference

/- The lower half of a number. -/
def low (v : Value) : Int32 :=
  v.toInt64.toInt32

/- The address that is a number of objects ahead or back. -/
def moved (size : Int32) (back : Bool) (p n : Value) : Value :=
  .i32 (if back then low p - size * low n else low p + size * low n)

/- How many objects one address is ahead of another, if any. -/
def apart? (size : Int32) (p q : Value) : Option Value :=
  (Binary.arith .div).apply (.i32 (low p - low q)) (.i32 size)

/- Whether moving by a number stays in the range of addresses. -/
def Fits (size : Int32) (n : Value) : Prop :=
  -2 ^ 31 ≤ n.toInt64.toInt * size.toInt ∧ n.toInt64.toInt * size.toInt < 2 ^ 31

theorem low_i32 (a : Int32) : low (.i32 a) = a :=
  Int32.toInt32_toInt64 a

theorem eq_low (hWidth : widthOf v = .narrow) : v = .i32 (low v) :=
  (value_toInt64 hWidth).symm

theorem arith_narrow (op : BinaryOp) (a b : Int32) : (Binary.arith op).apply (.i32 a) (.i32 b)
      = (op.eval a.toBitVec b.toBitVec).map fun word => .i32 (.ofBitVec word) := by
  have hOf : ofWord .narrow = fun word => Value.i32 (.ofBitVec word) := by
    funext word
    have hWord : extendSigned word = (Int32.ofBitVec word).toInt64 :=
      Int64.toBitVec_inj.mp (Int32.toBitVec_toInt64 (.ofBitVec word)).symm
    show Value.i32 (extendSigned word).toInt32 = _
    rw [hWord, Int32.toInt32_toInt64]
  rw [arith_apply_of op rfl rfl (w := .narrow), hOf]
  show Option.map _ (op.eval (cut 32 a.toInt64) (cut 32 b.toInt64)) = _
  rw [cut_toInt64, cut_toInt64]

/- A product in range is divided again, whatever its sign. -/
theorem mul_div_cancel_of_fits {k : Int32} {n : Int} (hSize : 0 < k) (hLow : -2 ^ 31 ≤ n * k.toInt)
    (hHigh : n * k.toInt < 2 ^ 31) : k * .ofInt n / k = .ofInt n := by
  have hWord : ∀ {x : Int}, -2 ^ 31 ≤ x → x < 2 ^ 31 → x.bmod (2 ^ 32) = x := by
    intro x hLow hHigh
    exact Int.bmod_eq_of_le (by omega) (by omega)
  have hPos : 0 < k.toInt := Int32.lt_iff_toInt_lt.mp hSize
  have hN : (Int32.ofInt n).toInt = n :=
    Int32.toInt_ofInt.trans (hWord (by nlinarith) (by nlinarith))
  apply Int32.toInt_inj.mp
  rw [Int32.toInt_div, Int32.toInt_mul, hN, Int.mul_comm, hWord hLow hHigh,
    Int.mul_tdiv_cancel _ hPos.ne', hWord (by nlinarith) (by nlinarith)]

/- What the code of a move computes, step by step. -/
theorem move_eq {σ : Type} {size : Int32} (hWidth : widthOf u = .narrow)
    (hOp : op = if back then .sub else .add) :
    (do
        let x ← quotient ((Binary.arith .mul).apply (resize .narrow v) (.i32 size))
        quotient ((Binary.arith op).apply u x)
      : Behaviour Exit (State σ) Value)
      = pure (moved size back u v) := by
  have hProduct : (Binary.arith .mul).apply (resize .narrow v) (.i32 size)
      = some (.i32 (low v * size)) := arith_narrow .mul (low v) size
  rw [hProduct, eq_low hWidth, hOp, Int32.mul_comm]
  refine (pure_bind _ _).trans ?_
  rw [arith_narrow, moved, low_i32]
  cases back <;> rfl

/- From the place that a reference was moved to, it is as far. -/
theorem apart?_moved {size : Int32} (hSize : 0 < size) (hFits : Fits size n) :
    apart? size (moved size false p n) p = some (.i32 (low n)) := by
  have hApart : low (moved size false p n) - low p = size * low n := by
    rw [moved, low_i32, if_neg (by simp), Int32.add_comm, Int32.add_sub_cancel]
  have hNumber : low n = .ofInt n.toInt64.toInt := by
    apply Int32.toInt_inj.mp
    rw [low, Int64.toInt_toInt32, Int32.toInt_ofInt]
  have hDivide : BinaryOp.divisionFails (size * low n).toBitVec size.toBitVec = false := by
    have hWord : ∀ word, ¬ 0 < Int32.ofBitVec word → size.toBitVec ≠ word :=
      fun word hNot hEq => hNot (hEq ▸ hSize)
    rw [BinaryOp.divisionFails, beq_eq_false_iff_ne.mpr (hWord 0 (by decide)),
      beq_eq_false_iff_ne.mpr (hWord (BitVec.allOnes 32) (by decide)), Bool.and_false]
    rfl
  rw [apart?, hApart, arith_narrow]
  simp only [BinaryOp.eval, hDivide, Bool.false_eq_true, if_false, Option.map_some]
  refine congrArg (fun x => some (Value.i32 x)) ?_
  rw [hNumber]
  exact mul_div_cancel_of_fits hSize hFits.1 hFits.2

end Reference

-- Operators

namespace Build

open Reference

/-
  The code of an operator on a fragment in the host that runs it. The program may have grown
  since it was put together, and its node may have got another type that is held alike.
-/
structure Applied (h : Host σ) (name : String) (f g : Fragment) : Prop where
  made : ∃ ctx ctx' p span busy, Hung ctx.tree p f ∧ operator f.id name span ctx = .ok g.id ctx'
      ∧ Held ctx'.tree g ∧ ctx'.program.Lasts busy h.ctx.program
  held : ∃ ty, ty.held? = g.ty.held? ∧ Held h.ctx.tree { g with ty }
  reached : h.ctx.tree.Reaches Tree.root g.id

variable {σ : Type} {h : Host σ} {depth : Nat} {P : State σ → Prop} {c : ClassId} {m : MethodId}
variable {f g a b : Fragment} {A B : Behaviour Exit (State σ) Value} {w : Width}

namespace Applied

theorem operates (hApplied : Applied h name f g) :
    ∃ fold p p' busy, Operates fold name p f p' g ∧ p'.Lasts busy h.ctx.program := by
  rcases hApplied.made with ⟨ctx, ctx', p, span, busy, hHung, hRun, hHeld, hLasts⟩
  rcases operator_ok rfl hHung hRun with ⟨g', hOperates, hId, hStep⟩
  cases hStep.edit.held.unique hHeld hId.symm
  exact ⟨_, _, _, busy, hOperates, hLasts⟩

/- What is within the code of an operator is reached. -/
theorem reaches (hApplied : Applied h name f g) (hChild : d ∈ g.children) (hWithin : d.Within e) :
    h.ctx.tree.Reaches Tree.root e.id := by
  rcases hApplied.held with ⟨ty, _, hHeld⟩
  have hIn : Fragment.Within { g with ty } d := .child .self hChild
  exact hApplied.reached.trans ((hIn.trans hWithin).reaches hHeld)

theorem agrees (hApplied : Applied h name f g) (hYields : Yields h depth P g w B) :
    AgreeOn P (behaviour h depth g.id) (some <$> B) := by
  rcases hApplied.held with ⟨ty, hTy, hHeld⟩
  exact hYields.retyped ty hTy hHeld

end Applied

/- The method that code asks for a size is that of the class. -/
theorem sizeMethod_eq (hNames : Names (sizeMethod c) p size p')
    (hLasts : Program.Lasts busy p' q) (hOffers : Offers q c "_size_" .onClass m) : size = m := by
  rcases hNames with ⟨ctx, rfl, hRun⟩
  have hLater := hLasts.ownMethod?_eq_some (sizeMethod_own hRun)
  exact Option.some.inj (hLater.symm.trans hOffers.own)

/- The name of the operator that moves a reference. -/
def moving (back : Bool) : String :=
  if back then "-" else "+"

/- References are compared as addresses. -/
theorem Applied.compares (hApplied : Applied h name f g) (hChildren : f.children = [a, b])
    (hTy : a.ty = .ref c) (hOp : Relation.ofName? name = some op)
    (hA : Yields h depth P a .narrow A) (hB : Yields h depth P b w B) :
    g.ty = .i32 ∧ Supplies h depth P g .narrow (do
      let u ← A
      let v ← B
      return .ofBool (op.holds (low u).toInt64 (low v).toInt64)) := by
  rcases hApplied.operates with ⟨fold, p, p', busy, hOperates, hLasts⟩
  cases hOperates with
  | addressCompare hPair hRef hName hCastA hCastB =>
    cases hChildren.symm.trans hPair
    cases hOp.symm.trans hName
    refine ⟨rfl, ((hA.narrowed rfl hCastA).toSupplies.compared
      (hB.narrowed rfl hCastB).toSupplies _ _ _).congr ?_⟩
    simp only [bind_map_left]
    exact .of_eq rfl
  | distance => cases hOp
  | move hName => rcases hName with ⟨rfl, _⟩ | ⟨rfl, _⟩ <;> cases hOp
  | _ => simp_all [ValueType.isRef]

section

variable {main : Load SourceUnit}
variable (hDone : (Compilation.run options loader main).result = .ok h.ctx)
variable (hOffers : Offers h.ctx.program c "_size_" .onClass m) (hDepth : depth < h.maxDepth)
include hDone hOffers hDepth

/- A call of the method that gives the size of a class. -/
theorem size_yields (hReach : h.ctx.tree.Reaches Tree.root n) :
    Yields h depth P (.leaf n (.call m) address) .narrow (pure (.i32 (sizeOf h c))) := by
  have hRooted := (Compilation.run_evolves hDone).rooted
  rcases Compilation.run_ok hDone with ⟨_, _, _, _, _, _, _, hLink⟩
  have hCheck := hRooted.checked (Compilation.run_arranged hDone) hLink hReach
  refine ⟨⟨rfl, .pure trivial, by rintro _ ⟨⟩, fun ty hTy hHeld => ?_⟩, .pure rfl⟩
  have hLinked := Context.linked_of_checkNode hCheck hHeld.instr
  have hResult := hLinked.result
  rw [show h.ctx.tree.ty n = ty from hHeld.ty, hTy] at hResult
  have hSize := behaviourOfCall_size hRooted hOffers hLinked.hasCode hResult.symm hDepth
  rw [behaviour_call hHeld, map_pure, ← hSize]
  exact .of_eq (LawfulMonad.pure_bind _ _)

/- A reference and a number give a reference. -/
theorem Applied.moves (hApplied : Applied h (moving back) f g) (hChildren : f.children = [a, b])
    (hTy : a.ty = .ref c) (hInteger : b.ty.isInteger = true) (hA : Yields h depth P a .narrow A)
    (hB : Yields h depth P b w B) :
    g.ty = .ref c ∧ Yields h depth P g .narrow (do
      let u ← A
      let v ← B
      return moved (sizeOf h c) back u v) := by
  rcases hApplied.operates with ⟨fold, p, p', busy, hOperates, hLasts⟩
  generalize hName : moving back = name at hOperates
  cases hOperates with
  | move hOp hPair hRef _ hSize hCast =>
    cases hChildren.symm.trans hPair
    cases hTy.symm.trans hRef
    cases sizeMethod_eq hSize hLasts hOffers
    have hCall := hApplied.reaches (.tail _ (.head _)) (.child .self (.tail _ (.head _)))
    have hScaled : ∀ n, Yields h depth P ⟨n, .binary .mul, address, _⟩ .narrow _ := fun n =>
      (hB.narrowed rfl hCast).arith (size_yields hDone hOffers hDepth hCall) n .mul rfl
    refine ⟨rfl, (hA.arith (hScaled _) _ _ rfl).congr ?_⟩
    simp only [bind_map_left, bind_assoc, LawfulMonad.pure_bind]
    refine .bind (.refl A) hA.typed fun u hU => .bind (.refl B) hB.keeps fun v _ => .of_eq ?_
    refine move_eq hU ?_
    rcases hOp with ⟨rfl, rfl⟩ | ⟨rfl, rfl⟩ <;> cases back <;> first | rfl | simp [moving] at hName
  | distance _ _ hArg => simp_all [ValueType.isInteger]
  | addressCompare _ _ hOp =>
    subst hName
    cases back <;> cases hOp
  | _ => simp_all [ValueType.isRef]

/- Two references give how far they are apart. -/
theorem Applied.measures (hApplied : Applied h "-" f g) (hChildren : f.children = [a, b])
    (hTyA : a.ty = .ref c) (hTyB : b.ty = .ref c) (hA : Yields h depth P a .narrow A)
    (hB : Yields h depth P b .narrow B) :
    g.ty = .i32 ∧ Yields h depth P g .narrow (do
      let u ← A
      let v ← B
      quotient (apart? (sizeOf h c) u v)) := by
  rcases hApplied.operates with ⟨fold, p, p', busy, hOperates, hLasts⟩
  generalize hName : "-" = name at hOperates
  cases hOperates with
  | distance hPair hRef _ hSize =>
    cases hChildren.symm.trans hPair
    cases hTyA.symm.trans hRef
    cases sizeMethod_eq hSize hLasts hOffers
    have hCall := hApplied.reaches (.tail _ (.head _)) .self
    have hAddress : ∀ {d D}, d.ty = .ref c → Yields h depth P d .narrow D →
        Yields h depth P { d with ty := address } .narrow D :=
      fun hTy hD => hD.retype (hTy ▸ rfl)
    have hApart : ∀ n, Yields h depth P ⟨n, .binary .sub, address, _⟩ .narrow _ := fun n =>
      (hAddress hTyA hA).arith (hAddress hTyB hB) n .sub rfl
    refine ⟨rfl, ((hApart _).arith (size_yields hDone hOffers hDepth hCall) _ _ rfl).congr ?_⟩
    simp only [bind_assoc, LawfulMonad.pure_bind]
    refine .bind (.refl A) hA.typed fun u hU => .bind (.refl B) hB.typed fun v hV => .of_eq ?_
    rw [eq_low hU, eq_low hV, arith_narrow, apart?, low_i32, low_i32]
    exact LawfulMonad.pure_bind _ _
  | addressCompare _ _ hOp =>
    subst hName
    cases hOp
  | _ => simp_all [ValueType.isRef, ValueType.isInteger]

end

/-
  A reference is moved by objects of its class, as large as they are in the end, and is as far
  from where it was.  References are compared as addresses.
-/
theorem references_count_objects {σ : Type} {h : Host σ} {depth : Nat} {P : State σ → Prop}
    {c : ClassId} {m : MethodId} {a b : Fragment} {A B : Behaviour Exit (State σ) Value} {w : Width}
    {options : Options} {loader : Loader} {main : Load SourceUnit}
    (hDone : (Compilation.run options loader main).result = .ok h.ctx)
    (hOffers : Offers h.ctx.program c "_size_" .onClass m) (hDepth : depth < h.maxDepth)
    (hTy : a.ty = .ref c) (hA : Yields h depth P a .narrow A) (hB : Yields h depth P b w B) :
    (∀ back f g, Applied h (moving back) f g → f.children = [a, b] → b.ty.isInteger = true →
        g.ty = .ref c ∧ AgreeOn P (behaviour h depth g.id) (do
          let u ← A
          let v ← B
          return some (moved (sizeOf h c) back u v)))
      ∧ (∀ f g f' g' a' A', Applied h "+" f g → f.children = [a, b] → b.ty.isInteger = true →
        Applied h "-" f' g' → f'.children = [g, a'] → a'.ty = .ref c →
        Yields h depth P a' .narrow A' → 0 < sizeOf h c →
        Preserves P (fun (u, v, u') => u = u' ∧ Fits (sizeOf h c) v) (do
          let u ← A
          let v ← B
          let u' ← A'
          return (u, v, u')) →
        g'.ty = .i32 ∧ AgreeOn P (behaviour h depth g'.id) (do
          let _ ← A
          let v ← B
          let _ ← A'
          return some (.i32 (low v))))
      ∧ ∀ name op f g, Applied h name f g → f.children = [a, b] → Relation.ofName? name = some op →
        g.ty = .i32 ∧ AgreeOn P (behaviour h depth g.id) (do
          let u ← A
          let v ← B
          return some (.ofBool (op.holds (low u).toInt64 (low v).toInt64))) := by
  refine ⟨?_, ?_, ?_⟩
  · intro back f g hApplied hChildren hInteger
    rcases hApplied.moves hDone hOffers hDepth hChildren hTy hInteger hA hB with ⟨hType, hMoved⟩
    have hAgrees := hApplied.agrees hMoved
    simp only [map_bind, map_pure] at hAgrees
    exact ⟨hType, hAgrees⟩
  · intro f g f' g' a' A' hApplied hChildren hInteger hApplied' hChildren' hTy' hA' hSize hSame
    have hPlus : Applied h (moving false) f g := hApplied
    rcases hPlus.moves hDone hOffers hDepth hChildren hTy hInteger hA hB with ⟨hType, hMoved⟩
    rcases hApplied'.measures hDone hOffers hDepth hChildren' hType hTy' hMoved hA' with
      ⟨hNumber, hApart⟩
    refine ⟨hNumber, (hApplied'.agrees hApart).trans ?_⟩
    have hBack : ∀ t : Value × Value × Value, t.1 = t.2.2 ∧ Fits (sizeOf h c) t.2.1 →
        AgreeOn P (some <$> quotient (apart? (sizeOf h c)
          (moved (sizeOf h c) false t.1 t.2.1) t.2.2))
        (pure (some (.i32 (low t.2.1)))) := by
      rintro t ⟨hSame, hFits⟩
      rw [← hSame, apart?_moved hSize hFits]
      exact .of_eq (map_pure _ _)
    have hAll := AgreeOn.bind (.refl _) hSame hBack
    simp only [bind_assoc, LawfulMonad.pure_bind] at hAll
    simpa only [bind_assoc, LawfulMonad.pure_bind, map_bind] using hAll
  · intro name op f g hApplied hChildren hOp
    rcases hApplied.compares hChildren hTy hOp hA hB with ⟨hType, hCompared⟩
    rcases hApplied.held with ⟨ty, hHeld, hIn⟩
    have hAgrees := hCompared.retyped ty hHeld hIn
    simp only [map_bind, map_pure] at hAgrees
    exact ⟨hType, hAgrees⟩

/- Asking again for a size that the program gives changes nothing. -/
theorem sizeMethod_same (hNames : Names (sizeMethod c) p size p')
    (hOffers : Offers p c "_size_" .onClass m) : p' = p := by
  rcases hNames with ⟨ctx, rfl, hRun⟩
  have hDeclared : ctx.program.declareMethod c "_size_" .onClass .generated = (m, ctx.program) := by
    rw [Program.declareMethod, hOffers.own]
  rw [sizeMethod, declare_bind, hDeclared, program_bind] at hRun
  simp only [hOffers.synthesized] at hRun
  cases hRun
  rfl

/- An operator that is applied in the finished program. -/
theorem Applied.of_run {h : Host σ} {t : Tree}
    (hOffers : ∀ d ∈ f.children.head?, ∀ c, d.ty = .ref c → ∃ m,
      Offers h.ctx.program c "_size_" .onClass m) (hHung : Hung t p f)
    (hRun : operator f.id name span { h.ctx with tree := t } = .ok g.id ctx')
    (hMade : Held ctx'.tree g) (hTy : ty.held? = g.ty.held?) (hHeld : Held h.ctx.tree { g with ty })
    (hReach : h.ctx.tree.Reaches Tree.root g.id) : Applied h name f g := by
  rcases operator_ok rfl hHung hRun with ⟨_, hOperates, _, _⟩
  have hSame : ctx'.program = h.ctx.program := by
    generalize hEnd : ctx'.program = p' at hOperates
    cases hOperates with
    | distance hChildren hTy _ hSize | move _ hChildren hTy _ hSize =>
      rcases hOffers _ (by simp [hChildren]) _ hTy with ⟨m, hOffers⟩
      exact sizeMethod_same hSize hOffers
    | _ => rfl
  exact ⟨⟨_, _, p, span, none, hHung, hRun, hMade, hSame ▸ .refl _ _⟩, ⟨ty, hTy, hHeld⟩, hReach⟩

/-
  A class with a method that moves an object back and measures
  how far, all before the class has its only field.
-/
def earlyDistance : SourceUnit :=
  let node tag items : Dump.Node := ⟨tag, items, .generated⟩
  let symbol x := node .sym [.symbol x]
  let send x name y := node .send [.node x, .symbol name, .node y]
  let define name params body :=
    node .methodDef [.symbol name, .node (node .params params), .node body]
  let object := send (node .int [.int 8]) "cast_to" (symbol "C")
  let number := send (node .int [.int (-3)]) "cast_to" (symbol "I64")
  let far := define "far" [] (send (send object "+" number) "-" object)
  let field := node .send [.nil, .symbol "attr_accessor", .node (symbol "x")]
  let size := node .param [.symbol "n"]
  let body := node .begin [.node far, .node field]
  ⟨"main", none, node .begin
      [.node (node .classDef [.node (node .const [.nil, .symbol "C"]), .nil, .node body]),
        .node (define "allocate" [.node size] (node .getLocal [.symbol "n"]))]⟩

/- The sum in the code of the method, before and after. -/
def apartThree : Fragment :=
  ⟨⟨4⟩, .drop, .none,
    [.leaf ⟨5⟩ (.const 8) (.ref ⟨1⟩),
      .leaf ⟨6⟩ (.const (-3)) .i64]⟩

def movedThree : Fragment :=
  ⟨⟨4⟩, .binary .add, .ref ⟨1⟩,
    [.leaf ⟨5⟩ (.const 8) (.ref ⟨1⟩),
      ⟨⟨7⟩, .binary .mul, address,
        [.leaf ⟨6⟩ (.const (-3)) address,
          .leaf ⟨8⟩ (.call ⟨1⟩) address]⟩]⟩

/- All of its code, before and after. -/
def apartMoved : Fragment :=
  ⟨⟨3⟩, .drop, .none, [movedThree, .leaf ⟨9⟩ (.const 8) (.ref ⟨1⟩)]⟩

def measuredThree : Fragment :=
  ⟨⟨10⟩, .binary .div, address,
    [⟨⟨3⟩, .binary .sub, address,
        [{ movedThree with ty := address },
          .leaf ⟨9⟩ (.const 8) address]⟩,
      .leaf ⟨11⟩ (.call ⟨1⟩) address]⟩

/- What it is in front of each operator. -/
def apartTree : Tree :=
  [.add ⟨0⟩ .drop .none,
    .add ⟨1⟩ .drop .none,
    .add ⟨2⟩ .drop .none,
    .add ⟨3⟩ .drop .none,
    .add ⟨4⟩ (.const 8) (.ref ⟨1⟩),
    .add ⟨4⟩ (.const (-3)) .i64].foldl Edit.apply .empty

def movedTree : Tree :=
  [.setTy ⟨6⟩ address,
    .insertAbove ⟨6⟩ (.binary .mul) address,
    .add ⟨7⟩ (.call ⟨1⟩) address,
    .setInstr ⟨4⟩ (.binary .add),
    .setTy ⟨4⟩ (.ref ⟨1⟩),
    .add ⟨3⟩ (.const 8) (.ref ⟨1⟩)].foldl Edit.apply apartTree

/- What an operator that is applied to a tree makes of it. -/
def Makes (ctx : Context) (t : Tree) (n : NodeId) (name : String) (g : Fragment) : Bool :=
  match operator n name default { ctx with tree := t } with
  | .ok k ctx' => k = g.id && Held ctx'.tree g
  | .error .. => false

theorem Makes.exists (hMakes : Makes ctx t n name g) :
    ∃ ctx', operator n name default { ctx with tree := t } = .ok g.id ctx' ∧ Held ctx'.tree g := by
  unfold Makes at hMakes
  split at hMakes
  · rename_i k ctx' hRun
    simp only [Bool.and_eq_true, decide_eq_true_eq] at hMakes
    exact ⟨ctx', hMakes.1 ▸ hRun, hMakes.2⟩
  · cases hMakes

theorem earlyDistance_known : (Compilation.run {} {} (pure earlyDistance)).satisfies fun ctx =>
      decide (Held ctx.tree measuredThree
        ∧ (Makes ctx apartTree ⟨4⟩ "+" movedThree ∧ Makes ctx movedTree ⟨3⟩ "-" measuredThree)
        ∧ (ctx.program.ownMethod? ⟨1⟩ "_size_" .onClass = some ⟨1⟩
          ∧ (ctx.program.method ⟨1⟩).flags.synthesized = true)
        ∧ (ctx.program.cls ⟨1⟩).size = 4
        ∧ ⟨1⟩ ∈ ctx.tree.children Tree.root ∧ ⟨2⟩ ∈ ctx.tree.children ⟨1⟩
        ∧ ⟨10⟩ ∈ ctx.tree.children ⟨2⟩) := by
  decide +kernel

theorem hung_apart : Hung apartTree ⟨3⟩ apartThree := by
  refine .of_checks (by decide +kernel) rfl ?_ ⟨by decide +kernel, by decide +kernel⟩
  simp only [apartThree, Fragment.leaf, Fragment.ids, List.flatMap_cons, List.flatMap_nil]
  decide

theorem hung_moved : Hung movedTree ⟨2⟩ apartMoved := by
  refine .of_checks (by decide +kernel) rfl ?_ ⟨by decide +kernel, by decide +kernel⟩
  simp only [apartMoved, movedThree, Fragment.leaf, Fragment.ids, List.flatMap_cons,
    List.flatMap_nil]
  decide

theorem earlyDistance_measured :
    ∃ h : Host Unit, (Compilation.run {} {} (pure earlyDistance)).result = .ok h.ctx
      ∧ behaviour h 0 ⟨4⟩ = pure (some (.i32 (-4)))
      ∧ behaviour h 0 ⟨10⟩ = pure (some (.i32 (-3))) := by
  rcases Compilation.exists_of_satisfies earlyDistance_known with
    ⟨ctx, hRun, hHeld, ⟨hMove, hMeasure⟩, ⟨hOwn, hSynthesized⟩, hSize, hClass, hMethod, hCode⟩
  have hOffers : Offers ctx.program ⟨1⟩ "_size_" .onClass ⟨1⟩ := ⟨hOwn, hSynthesized⟩
  have hReach : ctx.tree.Reaches Code.Tree.root ⟨10⟩ :=
    .child (.child (.child .self hClass) hMethod) hCode
  rcases Makes.exists hMove with ⟨ctx₁, hMoveRun, hMoved⟩
  rcases Makes.exists hMeasure with ⟨ctx₂, hMeasureRun, hMeasured⟩
  let h : Host Unit := { ctx }
  have hSub := hHeld.child (.head _)
  have hWithin : measuredThree.Within { movedThree with ty := address } :=
    .child (.child .self (.head _)) (.head _)
  have hPlus : Applied h "+" apartThree movedThree :=
    .of_run (by rintro _ ⟨⟩ _ ⟨⟩; exact ⟨_, hOffers⟩) hung_apart hMoveRun hMoved
      (show address.held? = _ from rfl) (hSub.child (.head _))
      (hReach.trans (hWithin.reaches hHeld))
  have hMinus : Applied h "-" apartMoved measuredThree :=
    .of_run (by rintro _ ⟨⟩ _ ⟨⟩; exact ⟨_, hOffers⟩) hung_moved hMeasureRun hMeasured rfl hHeld
      hReach
  have hObject : ∀ n, Yields h 0 (fun _ => True) (.leaf n (.const 8) (.ref ⟨1⟩)) .narrow
      (pure (.i32 8)) := fun n => Integral.Computes.toYields (.const rfl rfl rfl)
  have hNumber : Yields h 0 (fun _ => True) (.leaf ⟨6⟩ (.const (-3)) .i64) .wide
      (pure (.i64 (-3))) := Integral.Computes.toYields (.const rfl rfl rfl)
  have hFour : sizeOf h ⟨1⟩ = 4 := by
    rw [Machine.sizeOf, hSize]
    rfl
  rcases references_count_objects hRun hOffers (Nat.zero_lt_succ _) rfl (hObject ⟨5⟩) hNumber with
    ⟨hMoves, hBack, _⟩
  rw [hFour] at hMoves hBack
  have hThere := (hMoves false _ _ hPlus rfl rfl).2
  have hAgain := (hBack _ _ _ _ _ _ hPlus rfl rfl hMinus rfl rfl (hObject ⟨9⟩) (by decide) (by
    simp only [LawfulMonad.pure_bind]
    exact .pure ⟨rfl, by decide, by decide⟩)).2
  simp only [LawfulMonad.pure_bind] at hThere hAgain
  refine ⟨h, hRun, ?_, ?_⟩
  · ext s r
    exact hThere s trivial r
  · ext s r
    exact hAgain s trivial r

end Build

end RubyWat
