import RubyWat.Proofs.Casting
import RubyWat.Proofs.Statements

/-
  What operands leave in code that is rebuilt around them.

  Key definitions: `Machine.operandOf`, `Machine.Operand`, `Build.Made`.

  The compiler puts instructions above operands, moves them into arms and gives them other
  types.  All of this is looked at in the code that comes out, where an operand may call the
  method that it stands in.

  Main statement: an operand computes the value that it leaves there (`Computes.of_operand`).
-/

-- Fragments In A Tree

namespace RubyWat

open Code Machine List

variable {depth : Nat} {ty : ValueType}

/- A fragment is held if its node and its children are. -/
theorem Code.held_iff :
    Held t ⟨n, instr, ty, cs⟩ ↔ n.index < t.size ∧ t.instr n = instr ∧ t.ty n = ty
      ∧ t.children n = cs.map Fragment.id ∧ ∀ c ∈ cs, t.parent? c.id = some n ∧ Held t c := by
  constructor
  · rintro ⟨hIn, hInstr, hTy, hChildren, hParent, hHeld⟩
    exact ⟨hIn, hInstr, hTy, hChildren, fun c hMem => ⟨hParent c hMem, hHeld c hMem⟩⟩
  · rintro ⟨hIn, hInstr, hTy, hChildren, hBelow⟩
    exact ⟨hIn, hInstr, hTy, hChildren, fun c hMem => (hBelow c hMem).1,
      fun c hMem => (hBelow c hMem).2⟩

mutual

def Code.Held.decide (t : Tree) : (f : Fragment) → Decidable (Held t f)
  | ⟨n, _, _, cs⟩ =>
    have := decideAll t n cs
    decidable_of_iff _ held_iff.symm

def Code.Held.decideAll (t : Tree) (n : NodeId) :
    (cs : List Fragment) → Decidable (∀ c ∈ cs, t.parent? c.id = some n ∧ Held t c)
  | [] => isTrue (by simp)
  | c :: cs =>
    have := Held.decide t c
    have := decideAll t n cs
    decidable_of_iff _ forall_mem_cons.symm

end

instance : Decidable (Held t f) :=
  Held.decide t f

theorem Code.Hung.of_checks (hHeld : Held t f) (hParent : t.parent? f.id = some p)
    (hNodup : (p :: f.ids).Nodup) (hOpen : Open t p) : Hung t p f :=
  ⟨hHeld, hParent, (nodup_cons.mp hNodup).2, (nodup_cons.mp hNodup).1, hOpen⟩

/- A fragment is known by its root. -/
theorem Code.Held.unique (hF : Held t f) (hG : Held t g) (hId : f.id = g.id) : f = g := by
  induction hF generalizing g with
  | @intro f _ hInstr hTy hChildren _ _ ih =>
    have hIds : f.children.map Fragment.id = g.children.map Fragment.id := by
      rw [← hChildren, hId, hG.children]
    have hSame : f.children = g.children := by
      refine ext_getElem (by simpa using congrArg length hIds) fun i hIn hIn' => ?_
      refine ih _ (getElem_mem hIn) (hG.child (getElem_mem hIn')) ?_
      simpa [hIn, hIn'] using congrArg (·[i]?) hIds
    rcases f with ⟨n, instr, ty, fs⟩
    rcases g with ⟨k, instr', ty', gs⟩
    cases hId
    cases hSame
    cases hInstr.symm.trans hG.instr
    cases hTy.symm.trans hG.ty
    rfl

-- Values Of Operands

namespace Machine

variable {σ : Type} {h : Host σ} {f : Fragment} {P : State σ → Prop}

/- A number as a value of a type. -/
def Value.ofNumber (ty : Wasm.MachineType) (raw : Int64) : Value :=
  if ty = .i64 then .i64 raw else .i32 raw.toInt32

/- The value of an operand: that of a literal, or what other code leaves. -/
def operandOf (h : Host σ) (depth : Nat) (f : Fragment) : Behaviour Exit (State σ) Value :=
  match f.instr with
  | .const raw => pure (.ofNumber f.ty.held raw)
  | _ => behaviour h depth f.id >>= fun v => once .outOfFuel (demand v)

theorem operandOf_const (hInstr : f.instr = .const raw) :
    operandOf h depth f = pure (.ofNumber f.ty.held raw) := by
  rw [operandOf, hInstr]

theorem operandOf_code (hNot : ∀ raw, f.instr ≠ .const raw) :
    operandOf h depth f = behaviour h depth f.id >>= fun v => once .outOfFuel (demand v) := by
  unfold operandOf
  split
  · exact absurd (by assumption) (hNot _)
  · rfl

/-
  Code that leaves a value of its type whenever it starts in certain states, and keeps to them.
  A literal is a value of its type.
-/
structure Operand (h : Host σ) (depth : Nat) (P : State σ → Prop) (f : Fragment) : Prop where
  literal : ∀ raw, f.instr = .const raw → Value.InRange f.ty.held raw
  typed : (∀ raw, f.instr ≠ .const raw) →
      Preserves P (fun v => v.map Value.type = f.ty.held?) (behaviour h depth f.id)

/- Code that was evaluated has no other end. -/
theorem behaviour_iff_of_eval (hEval : eval h fuel depth n s = .ok v s') :
    behaviour h depth n s r ↔ r = .ok v s' := by
  constructor
  · rintro ⟨⟨fuel', hEnd⟩, hReal⟩
    have hGrows := eval_grows h depth n
    rcases Nat.le_total fuel fuel' with hLe | hLe
    · rw [← hEnd]
      exact hGrows.eq_of_le hLe hEval nofun
    · rw [← hEval]
      exact (hGrows.eq_of_le hLe hEnd hReal).symm
  · rintro rfl
    exact ⟨⟨fuel, hEval⟩, nofun⟩

/- Code that is evaluated from each of certain states. -/
theorem preserves_of_eval {Q : Option Value → Prop}
    (hEval : ∀ s, P s → ∃ fuel v s', eval h fuel depth n s = .ok v s' ∧ P s' ∧ Q v) :
    Preserves P Q (behaviour h depth n) := by
  intro s hState r hEnd
  rcases hEval s hState with ⟨fuel, v, s', hRun, hAfter, hResult⟩
  cases (behaviour_iff_of_eval hRun).mp hEnd
  refine ⟨hAfter, ?_⟩
  rintro _ _ ⟨⟩
  exact hResult

theorem operandOf_of_eval (hNot : ∀ raw, f.instr ≠ .const raw)
    (hEval : eval h fuel depth f.id s = .ok (some v) s') : operandOf h depth f s (.ok v s') := by
  rw [operandOf_code hNot]
  refine .next ((behaviour_iff_of_eval hEval).mpr rfl) ?_
  exact (congrFun (congrFun (once_pure v) s') _).mpr rfl

end Machine

namespace Integral

variable {σ : Type} {h : Host σ} {P : State σ → Prop} {w : Width}

theorem ofNumber_machine (w : Width) (raw : Int64) : .ofNumber w.machine raw = w.value raw := by
  cases w <;> rfl

/- An operand supplies the value that it leaves. -/
theorem Supplies.of_operand (hTy : f.ty.held? = some w.machine)
    (hSome : (∀ raw, f.instr ≠ .const raw) →
      Preserves P (fun v => v.isSome) (behaviour h depth f.id)) :
    Supplies h depth P f w (operandOf h depth f) := by
  by_cases hLiteral : ∃ raw, f.instr = .const raw
  · rcases hLiteral with ⟨raw, hInstr⟩
    rw [operandOf_const hInstr, held_of_held? hTy, ofNumber_machine]
    exact .const hInstr hTy
  have hNot : ∀ raw, f.instr ≠ .const raw := fun raw hEq => hLiteral ⟨raw, hEq⟩
  rw [operandOf_code hNot]
  refine ⟨hTy, (hSome hNot).bind fun v hV => ?_, fun raw hInstr => absurd hInstr (hNot raw),
    fun ty _ _ => ?_⟩
  · rcases Option.isSome_iff_exists.mp hV with ⟨x, rfl⟩
    exact (Preserves.pure trivial).congr (.of_eq (once_pure x).symm)
  · rw [map_bind]
    have hBoth : AgreeOn P (behaviour h depth f.id >>= fun v => pure v)
        (behaviour h depth f.id >>= fun v => some <$> once .outOfFuel (demand v)) := by
      refine .bind (.refl _) (hSome hNot) fun v hV => ?_
      rcases Option.isSome_iff_exists.mp hV with ⟨x, rfl⟩
      exact .of_eq ((congrArg (some <$> ·) (once_pure x)).trans (map_pure some x)).symm
    rwa [bind_pure] at hBoth

theorem exact_of_inRange (hTy : f.ty.held? = some w.machine)
    (hRange : ∀ raw, f.instr = .const raw → Value.InRange f.ty.held raw) : Exact f w := by
  intro raw hConst
  have hIn := hRange raw hConst
  rw [held_of_held? hTy] at hIn
  cases w with
  | narrow => exact hIn.toInt64_toInt32
  | wide => rfl

/- A typed operand computes the value that it leaves. -/
theorem Computes.of_operand (hOperand : Operand h depth P c) (hTy : c.ty.held? = some w.machine) :
    Computes h depth P c w (operandOf h depth c) := by
  refine ⟨⟨.of_operand hTy fun hNot => (hOperand.typed hNot).mono fun v hV => ?_, ?_⟩,
    exact_of_inRange hTy hOperand.literal⟩
  · rw [hTy] at hV
    rcases Option.map_eq_some_iff.mp hV with ⟨x, rfl, _⟩
    rfl
  by_cases hLiteral : ∃ raw, c.instr = .const raw
  · rcases hLiteral with ⟨raw, hInstr⟩
    rw [operandOf_const hInstr, held_of_held? hTy, ofNumber_machine]
    exact .pure (widthOf_value w raw)
  have hNot : ∀ raw, c.instr ≠ .const raw := fun raw hEq => hLiteral ⟨raw, hEq⟩
  rw [operandOf_code hNot]
  refine (hOperand.typed hNot).bind fun v hV => ?_
  rw [hTy] at hV
  rcases Option.map_eq_some_iff.mp hV with ⟨x, rfl, hX⟩
  rw [type_widthOf] at hX
  have hPure : Preserves P (fun y => widthOf y = w) (pure x : Behaviour Exit (State σ) Value) :=
    .pure (Width.machine_inj.mp hX)
  exact hPure.congr (.of_eq (once_pure x).symm)

end Integral

-- A Number And The Next

end RubyWat
