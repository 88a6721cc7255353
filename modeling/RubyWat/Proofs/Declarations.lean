import RubyWat.Proofs.Names

/-
  What code inside of a method declares.

  Code may declare variables of its method, fields, methods that it calls, and static data.  It
  changes nothing that other methods rely on.

  Main statement:
    * `Translation.lowers_declares`
-/

-- Variables And Calls

namespace RubyWat.Translation

open Lower

open Code (Fragment)
open Program (Declares)

/- A method that is being defined may change its variables. -/
theorem declares_of_variables (hSame : (p.method m).Same x)
    (hBody : x.body = (p.method m).body) (hFlags : x.flags = (p.method m).flags)
    (hResult : x.result = (p.method m).result) :
    Declares (some m) p (p.modifyMethod m fun _ => x) := by
  refine .modifyMethod hSame hBody (.of_flags hFlags fun hFree => absurd rfl hFree) (by simp) ?_
  intro hDefault hScope hNew hFree
  rw [hResult]
  exact hDefault (hSame.scope_eq ▸ hScope) (hFlags ▸ hNew) (hFlags ▸ hFree)

theorem declares_declareLocal (m : MethodId) (name : String) (ty : ValueType) :
    Declares (some m) p (p.modifyMethod m fun _ => ((p.method m).declareLocal name ty).2) := by
  unfold Method.declareLocal
  split
  · exact declares_of_variables (.refl _) rfl rfl rfl
  · exact declares_of_variables ⟨rfl, rfl, rfl⟩ rfl rfl rfl

/- A field changes nothing of what a class is called. -/
theorem declareIvar_same (k : Class) (name : String) (ty : ValueType) (fixed : Bool) :
    (k.declareIvar name ty fixed).2.name = k.name
      ∧ (k.declareIvar name ty fixed).2.path = k.path := by
  unfold Class.declareIvar
  split
  · split
    · exact ⟨rfl, rfl⟩
    · exact ⟨rfl, rfl⟩
  · exact ⟨rfl, rfl⟩

theorem declares_declareIvar (c : ClassId) (name : String) (ty : ValueType) :
    Declares busy p (p.declareIvar c name ty true).2 := by
  have hSame := declareIvar_same (p.cls c) name ty true
  exact .modifyClass hSame.1 hSame.2 (Class.FieldsLast.declareIvar (p.cls c) name ty).1

theorem Assigns.declares
    (hAssigns : Assigns E name keep p f kind p' g) : Declares (some E.method) p p' := by
  cases hAssigns with
  | @localVar _ value _ _ _ _ _ hDeclare =>
    have hStep : Declares (some E.method) p
          (p.modifyMethod E.method fun _ => ((p.method E.method).declareLocal name value.ty).2) :=
      declares_declareLocal _ _ _
    rwa [hDeclare] at hStep
  | @instanceVar _ value _ _ _ _ _ _ _ _ _ hDeclare =>
    have hStep : Declares (some E.method) p (p.declareIvar (p.method E.method).owner name value.ty
            true).2 :=
      declares_declareIvar _ _ _
    rwa [hDeclare] at hStep
  | classVar | globalVar => exact .refl _ p

/- A call may give its target parameters if it had none. -/
theorem declares_assumed (m : MethodId) (types : List ValueType) :
    Declares busy p (assumed p m types) := by
  unfold assumed
  split
  · rename_i hForward
    refine .modifyUnwritten ?_ ⟨rfl, rfl, rfl⟩ rfl (.of_flags rfl fun _ _ => .inl) id
    simp only [Method.isForward, Bool.and_eq_true, Bool.not_eq_true'] at hForward
    simp [Method.isWritten, hForward.1.1.1]
  · exact .refl busy p

theorem Calls.declares (hCalls : Calls m receiver p f p' g) : Declares busy p p' := by
  cases hCalls with
  | onInstance | onClass => exact declares_assumed m _

theorem Operates.declares (hOperates : Operates fold name p f p' g) : Declares busy p p' := by
  cases hOperates with
  | distance _ _ _ hSize
  | move _ _ _ _ hSize => exact (Build.sizeMethod_namesOnly.declares hSize).while_busy
  | _ => exact .refl busy p

theorem Applies.declares (hApplies : Applies fold name p f p' g) : Declares busy p p' := by
  cases hApplies with
  | method _ _ _ hCall => exact hCall.declares
  | forward _ _ _ hCall => exact (Declares.declareMethod p _ _ _ _).trans hCall.declares
  | operator hOperates => exact hOperates.declares

theorem Operands.declares (hOperand : Operands E p node p' f) : Declares busy p p' := by
  cases hOperand with
  | str => exact .withData p _
  | _ => exact .refl busy p

-- Directives

theorem TypesParams.declares (hTypes : TypesParams m slots p p') : Declares (some m) p p' := by
  induction hTypes with
  | nil => exact .refl _ _
  | cons hSlot _ ih =>
    rw [Method.setParamType?, Option.map_eq_some_iff] at hSlot
    rcases hSlot with ⟨i, _, rfl⟩
    refine .trans ?_ ih
    exact declares_of_variables ⟨rfl, rfl, rfl⟩ rfl rfl rfl

theorem TypesLocals.declares (hTypes : TypesLocals m slots p p') : Declares (some m) p p' := by
  induction hTypes with
  | nil => exact .refl _ _
  | known _ _ ih => exact ih
  | new _ _ ih => exact (declares_declareLocal m _ _).trans ih

theorem Directs.declares (hDirects : Directs m p node p') : Declares (some m) p p' := by
  cases hDirects with
  | arg _ _ _ hTypes | localVar _ _ _ hTypes => exact hTypes.declares
  | result =>
    refine .modifyMethod ⟨rfl, rfl, rfl⟩ rfl ⟨rfl, id, fun _ => id, .inl, fun _ _ => .inl⟩
      (by simp) ?_
    intro _ _ _ hFree
    cases hFree
  | exportName _ hExport => exact (exportAs_declaring (.method m) _ _).declares hExport
  | importName =>
    exact .modifyMethod ⟨rfl, rfl, rfl⟩ rfl
      ⟨rfl, fun _ => rfl, fun hFree => absurd rfl hFree, .inl, fun _ _ => .inl⟩
      (by simp) id
  | data => exact .withData p _

-- Constructs

/- Code only declares what its method needs. -/
theorem lowers_declares (hLowers : Lowers E job p p' gs out) : Declares (some E.method) p p' := by
  induction hLowers with
  | something _ _ ih | nothing _ ih | last _ ih | sequence _ _ ih | castCall _ _ _ _ _ _ _ ih
  | logical _ _ _ _ _ ih | ret _ _ _ _ ih => exact ih
  | done => exact .refl _ _
  | next _ _ ihNode ihRest => exact ihNode.trans ihRest
  | noValues => exact .refl _ _
  | value _ _ _ ihNode ihRest => exact ihNode.trans ihRest
  | operand hOperand => exact hOperand.declares
  | directive hDirects => exact hDirects.declares
  | assign _ _ _ _ hAssigns ih => exact ih.trans hAssigns.declares
  | operatorAssign _ _ _ _ _ _ _ _ hApplies hAssigns ih =>
    exact (ih.trans hApplies.declares).trans hAssigns.declares
  | selfCall _ _ hResolve _ hCalls ih =>
    have hNames := resolveSelfCall_namesOnly.declares hResolve
    exact (hNames.while_busy.trans ih).trans hCalls.declares
  | classCall _ _ _ _ hResolve _ hCalls ih =>
    have hNames := resolveClassCall_namesOnly.declares hResolve
    exact (hNames.while_busy.trans ih).trans hCalls.declares
  | valueCall _ _ _ _ _ hApplies ih => exact ih.trans hApplies.declares
  | negation _ _ _ hApplies ih => exact ih.trans hApplies.declares
  | ifThen _ _ _ _ _ _ _ _ ihTest ihThen => exact ihTest.trans ihThen
  | ifThenElse _ _ _ _ _ _ _ _ _ ihTest ihThen ihElse => exact (ihTest.trans ihThen).trans ihElse
  | testedLoop _ _ _ _ _ ihTest ihBody => exact ihTest.trans ihBody
  | postTestedLoop _ _ _ _ _ _ ihBody ihTest => exact ihBody.trans ihTest
  | breakLoop => exact .refl _ _
  | nextLoop => exact .refl _ _

theorem lowersBody_declares
    (hBody : LowersBody E nodes p p' fs) : Declares (some E.method) p p' := by
  induction hBody with
  | nil => exact .refl _ _
  | last hNode => exact lowers_declares hNode
  | next hNode _ ih => exact (lowers_declares hNode).trans ih

end RubyWat.Translation
