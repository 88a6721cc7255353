import RubyWat.Proofs.CachedOrder
import RubyWat.Proofs.Toplevel

/-
  Programs that refer only to what they have.

  Key definitions: `Program.Declaration`, `Program.Arises`, `Program.Coherent`,
    `Program.Complete`.

  Main statements: whatever is declared, and whatever is refused, names lead to what has them,
  references lead to classes of the program, and the ways out of a class and up from it pass
  earlier classes only and end (`arises_coherent`).  A path stands for one class as a constant
  and as a type, where no ancestor adds its last name (`class_names_agree`).
-/

-- Declarations

namespace RubyWat

open Option Nat Array

namespace Program

/- A step in the making of a program. -/
inductive Declaration where
  | cls (name : String) (lexical : ClassId) (kind : ClassKind)
      (superclass : Option ClassId) (span : Span)
  | method (c : ClassId) (name : String) (scope : MethodScope) (span : Span)
  | global (name : String) (ty : ValueType) (init : Int64) (span : Span)
  | ivar (c : ClassId) (name : String) (ty : ValueType) (fixed : Bool)
  | cvar (c : ClassId) (name : String) (value : Int64) (ty : ValueType) (span : Span)
  | const (c : ClassId) (name : String) (value : ConstValue) (span : Span)
  | mix (c module : ClassId) (how : Mixin) (span : Span)
  | close (c : ClassId)

end Program

def ValueType.references : ValueType → List ClassId
  | .ref c => [c]
  | .none | .machine _ => []

def ConstValue.references : ConstValue → List ClassId
  | .int _ ty => ty.references
  | .cls c => [c]

namespace Program

namespace Declaration

def references : Declaration → List ClassId
  | cls _ lexical _ superclass _ => lexical :: superclass.toList
  | method c _ _ _ | close c => [c]
  | global _ ty _ _ => ty.references
  | ivar c _ ty _ | cvar c _ _ ty _ => c :: ty.references
  | const c _ value _ => c :: value.references
  | mix c module _ _ => [c, module]

end Declaration

/- What a declaration makes of a program. -/
def declare (p : Program) : Declaration → Except Fault Program
  | .cls name lexical kind superclass span =>
    (p.defineClass name lexical kind superclass span).map Prod.snd
  | .method c name scope span => .ok (p.declareMethod c name scope span).2
  | .global name ty init span => (p.declareGlobal name ty init span).map Prod.snd
  | .ivar c name ty fixed => .ok (p.declareIvar c name ty fixed).2
  | .cvar c name value ty span => (p.declareCvar c name value ty span).map Prod.snd
  | .const c name value span => (p.declareConst c name value span).map Prod.snd
  | .mix c module how span => p.mixIn c module how span
  | .close c => .ok (p.finalize c)

/- A program after a declaration, the same if it is refused. -/
def attempt (p : Program) (d : Declaration) : Program :=
  match p.declare d with
  | .ok p' => p'
  | .error _ => p

/- Programs that declarations make, each of classes that exist. -/
inductive Arises (base : Nat) : Program → Prop where
  | empty : Arises base (.empty base)
  | attempt {p : Program} (hArises : Arises base p) (d : Declaration)
      (hRefers : ∀ c ∈ d.references, p.hasClass c) : Arises base (p.attempt d)

end Program

-- References

def Class.references (k : Class) : List ClassId :=
  k.lexicalParent.toList ++ k.superclass.toList ++ k.included ++ k.prepended
    ++ k.extended ++ k.cachedAncestors ++ k.ivars.flatMap (·.ty.references)
    ++ k.cvars.flatMap (·.ty.references) ++ k.consts.flatMap (·.2.references)

def Method.references (m : Method) : List ClassId :=
  m.owner :: m.result.references ++ (m.params ++ m.locals).flatMap (·.ty.references)

/- Of the fields of a class one at most gets a type. -/
theorem Class.declareIvar_ivars (k : Class) (name : String) (ty : ValueType) (fixed : Bool) :
    ∃ ivars, (k.declareIvar name ty fixed).2 = { k with ivars }
      ∧ ∀ v ∈ ivars, v ∈ k.ivars ∨ v.ty = ty := by
  unfold declareIvar
  split
  · rename_i slot _
    split
    · refine ⟨_, rfl, fun v hV => ?_⟩
      rcases List.mem_iff_getElem?.mp hV with ⟨i, hI⟩
      rw [List.getElem?_modify] at hI
      rcases map_eq_some_iff.mp hI with ⟨u, hU, rfl⟩
      have hMem : u ∈ k.ivars := List.mem_of_getElem? hU
      split
      · unfold fixIvar
        split
        · exact .inl hMem
        · exact .inr rfl
      · exact .inl hMem
    · exact ⟨k.ivars, rfl, fun v => .inl⟩
  · refine ⟨_, rfl, fun v hV => ?_⟩
    rcases List.mem_append.mp hV with hOld | hNew
    · exact .inl hOld
    · rw [List.mem_singleton.mp hNew]
      exact .inr rfl

namespace Program

/- Whether a program has what an export names. -/
def hasTarget (p : Program) : ExportTarget → Prop
  | .method m => m.index < p.methods.size
  | .globalVar g => g.index < p.globals.size

/-
  Names that stand for one thing each, and references to classes that exist.  A class comes
  after the class around it and after its superclass.
-/
structure Coherent (p : Program) : Prop where
  indexed : p.Indexed
  root : p.hasClass objectClass
  rooted : ∀ c, p.hasClass c → (p.cls c).lexicalParent = none → c = objectClass
  classes : ∀ c, ∀ d ∈ (p.cls c).references, p.hasClass d
  methods : ∀ m, m.index < p.methods.size → ∀ d ∈ (p.method m).references, p.hasClass d
  globals : ∀ g, g.index < p.globals.size → ∀ d ∈ (p.globalVar g).ty.references, p.hasClass d
  exports : ∀ e ∈ p.exports, p.hasTarget e.target
  outer : ∀ c d, (p.cls c).lexicalParent = some d → d.index < c.index
  upper : ∀ c d, (p.cls c).superclass = some d → d.index < c.index

variable {p p' : Program} {c d : ClassId}

theorem hasClass_of_le (hLe : p.classes.size ≤ p'.classes.size) (hHas : p.hasClass d) :
    p'.hasClass d := by
  simp only [hasClass, decide_eq_true_eq] at hHas ⊢
  omega

theorem hasTarget_of_le (hMethods : p.methods.size ≤ p'.methods.size)
    (hGlobals : p.globals.size ≤ p'.globals.size) (hHas : p.hasTarget target) :
    p'.hasTarget target := by
  cases target with
  | method m => exact lt_of_lt_of_le hHas hMethods
  | globalVar g => exact lt_of_lt_of_le hHas hGlobals

namespace Coherent

theorem empty (base : Nat) : (Program.empty base).Coherent := by
  have hClass : ∀ c : ClassId, (Program.empty base).cls c = (Program.empty base).cls objectClass
      ∧ c = objectClass ∨ (Program.empty base).cls c = default := by
    rintro ⟨_ | i⟩
    · exact .inl ⟨rfl, rfl⟩
    · exact .inr rfl
  have hObject : ∀ c, (Program.empty base).hasClass c → c = objectClass := by
    rintro ⟨_ | i⟩ hHas
    · rfl
    · simp [hasClass, Program.empty] at hHas
  have hLoose : ∀ c, ((Program.empty base).cls c).lexicalParent = none
      ∧ ((Program.empty base).cls c).superclass = none := by
    intro c
    rcases hClass c with ⟨hEq, _⟩ | hEq <;> rw [hEq] <;> exact ⟨rfl, rfl⟩
  refine ⟨.empty base, rfl, fun c hHas _ => hObject c hHas, ?_,
    by rintro _ ⟨⟩, by rintro _ ⟨⟩, by rintro _ ⟨⟩, fun c d hD => ?_, fun c d hD => ?_⟩
  · intro c d hD
    rcases hClass c with ⟨hEq, _⟩ | hEq <;> rw [hEq] at hD
    · cases List.mem_singleton.mp hD
      rfl
    · cases hD
  · rw [(hLoose c).1] at hD
    cases hD
  · rw [(hLoose c).2] at hD
    cases hD

variable (hCoherent : p.Coherent)
include hCoherent

/- A class that keeps its path and what it is below. -/
theorem modifyClass (hPath : (f (p.cls c)).path = (p.cls c).path)
    (hOuter : (f (p.cls c)).lexicalParent = (p.cls c).lexicalParent)
    (hUpper : (f (p.cls c)).superclass = (p.cls c).superclass)
    (hRefers : ∀ d ∈ (f (p.cls c)).references, d ∈ (p.cls c).references ∨ p.hasClass d) :
    (p.modifyClass c f).Coherent := by
  have hView : ∀ {α : Type} (view : Class → α), view (f (p.cls c)) = view (p.cls c) →
      ∀ k, view ((p.modifyClass c f).cls k) = view (p.cls k) := by
    intro α view hSame k
    rw [cls_modifyClass]
    split
    · rename_i hEq
      rw [hEq.1, hSame]
    · rfl
  have hSize : (p.modifyClass c f).classes.size = p.classes.size := size_modifyClass
  have hHas : ∀ d, (p.modifyClass c f).hasClass d = p.hasClass d := fun d => by
    rw [hasClass, hasClass, hSize]
  have hLexical := hView Class.lexicalParent hOuter
  have hSuper := hView Class.superclass hUpper
  constructor
  case indexed =>
    exact hCoherent.indexed.of_same rfl rfl rfl rfl (fun _ => .refl _) hSize
      (hView Class.path hPath) rfl id
  case classes =>
    intro k d hD
    rw [hHas]
    rw [cls_modifyClass] at hD
    split at hD
    · exact (hRefers d hD).elim (hCoherent.classes c d) id
    · exact hCoherent.classes k d hD
  case exports => exact hCoherent.exports
  case methods =>
    intro m hIn d hD
    exact hHas d ▸ hCoherent.methods m hIn d hD
  case globals =>
    intro g hIn d hD
    exact hHas d ▸ hCoherent.globals g hIn d hD
  case root => exact hHas _ ▸ hCoherent.root
  case rooted =>
    intro k hK hNone
    exact hCoherent.rooted k (hHas k ▸ hK) (hLexical k ▸ hNone)
  case outer => exact fun k d hD => hCoherent.outer k d (hLexical k ▸ hD)
  case upper => exact fun k d hD => hCoherent.upper k d (hSuper k ▸ hD)

/- A class with a new path, below classes that are there. -/
theorem pushClass (hNew : p.findClass? k.path = none) (hFields : k.ivars = [])
    (hLexical : k.lexicalParent = some lexical) (hRefers : ∀ d ∈ k.references, p.hasClass d) :
    (p.pushClass k).Coherent := by
  have hSize : (p.pushClass k).classes.size = p.classes.size + 1 := size_push k
  have hPush : ∀ c, (p.pushClass k).cls c = if c.index = p.classes.size then k else p.cls c :=
    cls_push rfl
  have hHas : ∀ d, p.hasClass d → (p.pushClass k).hasClass d := fun d => hasClass_of_le (by omega)
  have hEarlier : ∀ c : ClassId, c.index = p.classes.size → ∀ d ∈ k.references,
      d.index < c.index := by
    intro c hC d hD
    have hIn := hRefers d hD
    rw [hasClass, decide_eq_true_eq] at hIn
    omega
  constructor
  case indexed =>
    have hDeclares : Declares none p (p.pushClass k) := .pushClass p k hNew hFields
    exact hDeclares.lasts.indexed hCoherent.indexed
  case classes =>
    intro c d hD
    rw [hPush] at hD
    split at hD
    · exact hHas d (hRefers d hD)
    · exact hHas d (hCoherent.classes c d hD)
  case exports => exact hCoherent.exports
  case methods => exact fun m hIn d hD => hHas d (hCoherent.methods m hIn d hD)
  case globals => exact fun g hIn d hD => hHas d (hCoherent.globals g hIn d hD)
  case root => exact hHas _ hCoherent.root
  case rooted =>
    intro c hC hNone
    rw [hPush] at hNone
    split at hNone
    · rw [hLexical] at hNone
      cases hNone
    · refine hCoherent.rooted c ?_ hNone
      simp only [hasClass, hSize, decide_eq_true_eq] at hC ⊢
      omega
  case outer =>
    intro c d hD
    rw [hPush] at hD
    split at hD
    · rename_i hC
      exact hEarlier c hC d (by simp [Class.references, hD])
    · exact hCoherent.outer c d hD
  case upper =>
    intro c d hD
    rw [hPush] at hD
    split at hD
    · rename_i hC
      exact hEarlier c hC d (by simp [Class.references, hD])
    · exact hCoherent.upper c d hD

theorem declareMethod (hC : p.hasClass c) : (p.declareMethod c name scope span).2.Coherent := by
  have hDeclares : Declares none p (p.declareMethod c name scope span).2 :=
    .declareMethod p c name scope span
  have hIndexed := hDeclares.lasts.indexed hCoherent.indexed
  unfold Program.declareMethod at hIndexed ⊢
  split
  · exact hCoherent
  rename_i hNone
  rw [hNone] at hIndexed
  refine { hCoherent with
    indexed := hIndexed
    methods := fun m hIn d hD => ?_
    exports := fun e hE =>
      hasTarget_of_le (p := p) (by simp) (le_refl _) (hCoherent.exports e hE) }
  rw [method_push rfl] at hD
  split at hD
  · rw [List.mem_singleton.mp hD]
    exact hC
  · refine hCoherent.methods m ?_ d hD
    rw [size_push] at hIn
    omega

theorem declareGlobal (hTy : ∀ c ∈ ty.references, p.hasClass c)
    (hGlobal : p.declareGlobal name ty init span = .ok (g, p')) : p'.Coherent := by
  have hDeclares : Declares none p p' := .declareGlobal hGlobal
  have hIndexed := hDeclares.lasts.indexed hCoherent.indexed
  simp only [Program.declareGlobal] at hGlobal
  split at hGlobal
  · cases hGlobal
  cases hGlobal
  refine { hCoherent with
    indexed := hIndexed
    globals := fun g hIn d hD => ?_
    exports := fun e hE =>
      hasTarget_of_le (p := p) (le_refl _) (by simp) (hCoherent.exports e hE) }
  rw [globalVar_push rfl] at hD
  split at hD
  · exact hTy d hD
  · refine hCoherent.globals g ?_ d hD
    rw [size_push] at hIn
    omega

theorem defineClass (hRefers : ∀ d ∈ lexical :: superclass.toList, p.hasClass d)
    (hDefine : p.defineClass name lexical kind superclass span = .ok (c, p')) : p'.Coherent := by
  rcases hFound : p.findClass? (p.childPath lexical name) with _ | k
  case some =>
    rcases reopenClass_ok hFound hDefine with ⟨rfl, rfl⟩
    exact hCoherent.modifyClass rfl rfl rfl fun d => .inl
  case none =>
    simp only [Program.defineClass, hFound] at hDefine
    cases hDefine
    refine hCoherent.pushClass hFound rfl rfl fun d hD => ?_
    simp only [Class.references, toList_some, List.flatMap_nil, List.append_nil,
      List.mem_append, List.mem_singleton, mem_toList] at hD
    rcases hD with rfl | hUpper
    · exact hRefers d (.head _)
    cases kind with
    | mixin => cases hUpper
    | cls =>
      cases hUpper
      rcases superclass with _ | s
      · exact hCoherent.root
      · exact hRefers s (by simp)

theorem declareIvar (hTy : ∀ c ∈ ty.references, p.hasClass c) :
    (p.declareIvar c name ty fixed).2.Coherent := by
  rcases (p.cls c).declareIvar_ivars name ty fixed with ⟨ivars, hClass, hIvars⟩
  simp only [Program.declareIvar, hClass]
  refine hCoherent.modifyClass rfl rfl rfl fun d hD => ?_
  have hNew : d ∈ ivars.flatMap (·.ty.references) →
      d ∈ (p.cls c).ivars.flatMap (·.ty.references) ∨ p.hasClass d := by
    intro hMem
    rcases List.mem_flatMap.mp hMem with ⟨v, hV, hD⟩
    rcases hIvars v hV with hOld | hSame
    · exact .inl (List.mem_flatMap.mpr ⟨v, hOld, hD⟩)
    · exact .inr (hTy d (hSame ▸ hD))
  simp only [Class.references, List.mem_append] at hD ⊢
  grind

/- Static data has no references. -/
theorem withData (data : StaticData) : { p with data }.Coherent :=
  have hDeclares : Declares none p { p with data } := .withData p data
  { hCoherent with indexed := hDeclares.lasts.indexed hCoherent.indexed }

theorem declareCvar (hTy : ∀ c ∈ ty.references, p.hasClass c)
    (hDeclare : p.declareCvar c name value ty span = .ok (what, p')) : p'.Coherent := by
  rcases declareCvar_ok hDeclare with rfl | ⟨data, address, _, rfl⟩
  · exact hCoherent
  · refine (hCoherent.withData data).modifyClass rfl rfl rfl fun d hD => ?_
    simp only [Class.references, List.mem_append, List.flatMap_append,
      List.flatMap_singleton] at hD ⊢
    have hNew := hTy d
    tauto

theorem declareConst (hValue : ∀ c ∈ value.references, p.hasClass c)
    (hDeclare : p.declareConst c name value span = .ok (what, p')) : p'.Coherent := by
  simp only [Program.declareConst] at hDeclare
  split at hDeclare
  · split at hDeclare
    · cases hDeclare
      exact hCoherent
    · cases hDeclare
  · cases hDeclare
    refine hCoherent.modifyClass rfl rfl rfl fun d hD => ?_
    simp only [Class.references, List.mem_append, List.flatMap_append,
      List.flatMap_singleton] at hD ⊢
    have hNew := hValue d
    grind

theorem mixIn (hModule : p.hasClass module) (hMix : p.mixIn c module how span = .ok p') :
    p'.Coherent := by
  rw [mixIn_ok hMix]
  refine hCoherent.modifyClass ?_ ?_ ?_ fun d hD => ?_
  iterate 3 cases how <;> rfl
  have hNew : ∀ cs, d ∈ addOnce module cs → d ∈ cs ∨ p.hasClass d := by
    intro cs hMem
    rcases mem_of_mem_addOnce hMem with hOld | rfl
    · exact .inl hOld
    · exact .inr hModule
  cases how
  all_goals
    simp only [mixed, Class.references, List.mem_append] at hD ⊢
    grind

/- The order that a closed class keeps has classes that exist. -/
theorem finalize (hC : p.hasClass c) : (p.finalize c).Coherent := by
  have hOrder : ∀ d ∈ p.computeAncestors c, p.hasClass d := by
    intro d hD
    cases mem_computeAncestors.mp hD with
    | refl => exact hC
    | @tail k _ _ hAbove =>
      refine hCoherent.classes k d ?_
      simp only [Above, classesBefore, classesAfter, List.mem_reverse, List.mem_append] at hAbove
      simp only [Class.references, List.mem_append]
      grind
  refine hCoherent.modifyClass rfl rfl rfl fun d hD => ?_
  have hNew := hOrder d
  simp only [Class.references, List.mem_append] at hD ⊢
  grind

/- A declaration of classes that exist, refused or not. -/
theorem attempt (hRefers : ∀ c ∈ step.references, p.hasClass c) : (p.attempt step).Coherent := by
  have hFirst : ∀ {α : Type} {r : Except Fault (α × Program)} {q : Program},
      r.map Prod.snd = .ok q → ∃ a, r = .ok (a, q) := by
    rintro α (_ | ⟨a, q⟩) _ ⟨⟩
    exact ⟨a, rfl⟩
  rw [Program.attempt]
  split
  · rename_i p' hStep
    cases step with
    | cls name lexical kind superclass span =>
      rcases hFirst hStep with ⟨c, hDefine⟩
      exact hCoherent.defineClass hRefers hDefine
    | method c name scope span =>
      cases hStep
      exact hCoherent.declareMethod (hRefers c (.head _))
    | global name ty init span =>
      rcases hFirst hStep with ⟨g, hGlobal⟩
      exact hCoherent.declareGlobal hRefers hGlobal
    | ivar c name ty fixed =>
      cases hStep
      exact hCoherent.declareIvar (List.forall_mem_cons.mp hRefers).2
    | cvar c name value ty span =>
      rcases hFirst hStep with ⟨what, hDeclare⟩
      exact hCoherent.declareCvar (List.forall_mem_cons.mp hRefers).2 hDeclare
    | const c name value span =>
      rcases hFirst hStep with ⟨what, hDeclare⟩
      exact hCoherent.declareConst (List.forall_mem_cons.mp hRefers).2 hDeclare
    | mix c module how span =>
      exact hCoherent.mixIn (hRefers module (by simp [Declaration.references])) hStep
    | close c =>
      cases hStep
      exact hCoherent.finalize (hRefers c (.head _))
  · exact hCoherent

end Coherent

/- Every program that declarations make is coherent. -/
theorem Arises.coherent (hArises : Arises base p) : p.Coherent := by
  induction hArises with
  | empty => exact .empty base
  | attempt _ step hRefers ih => exact ih.attempt hRefers

-- Ways Out And Up

/- A way along links, followed until there is none. -/
inductive Complete (next : ClassId → Option ClassId) : ClassId → List ClassId → Prop where
  | last {c : ClassId} (hNext : next c = none) : Complete next c [c]
  | step {c d : ClassId} {cs : List ClassId} (hNext : next c = some d)
      (hRest : Complete next d cs) : Complete next c (c :: cs)

/- Links to earlier classes are followed to their end. -/
theorem Complete.of_earlier
    {next : ClassId → Option ClassId} {walk : Nat → Option ClassId → List ClassId}
    (hNone : ∀ fuel, walk fuel none = [])
    (hSome : ∀ fuel c, walk (fuel + 1) (some c) = c :: walk fuel (next c))
    (hEarlier : ∀ c d, next c = some d → d.index < c.index) (hFuel : c.index < fuel) :
    Complete next c (walk fuel (some c)) := by
  induction fuel generalizing c with
  | zero => exact absurd hFuel (not_lt_zero _)
  | succ fuel ih =>
    rw [hSome]
    cases hNext : next c with
    | none =>
      rw [hNone]
      exact .last hNext
    | some d =>
      have hLess := hEarlier c d hNext
      exact .step hNext (ih (by omega))

namespace Coherent

/- The way up from a class is followed to its end. -/
theorem complete_superclasses (hCoherent : p.Coherent) (hC : p.hasClass c) :
    Complete (fun c => (p.cls c).superclass) c (p.superclasses c) := by
  rw [hasClass, decide_eq_true_eq] at hC
  refine .of_earlier (fun fuel => ?_) (fun _ _ => rfl) hCoherent.upper (by omega)
  cases fuel <;> rfl

/- The way out of a class is followed to the root scope. -/
theorem complete_lexicalChain (hCoherent : p.Coherent) (hC : p.hasClass c) :
    Complete (fun c => (p.cls c).lexicalParent) c (p.lexicalChain c) := by
  have hWay : Complete (fun c => (p.cls c).lexicalParent) c
      (p.outward (p.classes.size + 1) (some c)) := by
    have hFuel := hC
    rw [hasClass, decide_eq_true_eq] at hFuel
    refine .of_earlier (fun fuel => ?_) (fun _ _ => rfl) hCoherent.outer (by omega)
    cases fuel <;> rfl
  have hLast : ∀ {c : ClassId} {cs : List ClassId}, p.hasClass c →
      Complete (fun c => (p.cls c).lexicalParent) c cs → cs.getLast? = some objectClass := by
    intro c cs hC hWay
    induction hWay with
    | last hNext => rw [hCoherent.rooted _ hC hNext, List.getLast?_singleton]
    | @step c d cs hNext _ ih =>
      have hD := hCoherent.classes c d (by simp [Class.references, hNext])
      rw [List.getLast?_cons, ih hD]
      rfl
  rw [lexicalChain, if_pos (hLast hC hWay)]
  exact hWay

end Coherent

/-
  Whatever is declared, and whatever is refused, names lead to what has them and to nothing
  else, all references are to what exists, and ways out of a class and up from it pass earlier
  classes and end.
-/
theorem arises_coherent {base : Nat} (hArises : Arises base p) :
    (∀ path c, p.findClass? path = some c ↔ p.hasClass c ∧ (p.cls c).path = path)
      ∧ (∀ c name scope m, p.ownMethod? c name scope = some m
          ↔ m.index < p.methods.size ∧ (p.method m).owner = c
            ∧ (p.method m).name = name ∧ (p.method m).scope = scope)
      ∧ (∀ name g, p.findGlobal? name = some g
          ↔ g.index < p.globals.size ∧ (p.globalVar g).name = name)
      ∧ (∀ c, p.hasClass c → ∀ d ∈ (p.cls c).references, p.hasClass d)
      ∧ (∀ m, m.index < p.methods.size → ∀ d ∈ (p.method m).references, p.hasClass d)
      ∧ (∀ g, g.index < p.globals.size → ∀ d ∈ (p.globalVar g).ty.references, p.hasClass d)
      ∧ (∀ e ∈ p.exports, p.hasTarget e.target)
      ∧ (∀ c d, (p.cls c).lexicalParent = some d ∨ (p.cls c).superclass = some d →
          d.index < c.index)
      ∧ ∀ c, p.hasClass c → Complete (fun c => (p.cls c).lexicalParent) c (p.lexicalChain c)
            ∧ Complete (fun c => (p.cls c).superclass) c (p.superclasses c) := by
  have hCoherent := hArises.coherent
  have hIndexed := hCoherent.indexed
  refine ⟨fun path c => ?_, fun c name scope m => ?_, hIndexed.globals,
    fun c _ => hCoherent.classes c, hCoherent.methods, hCoherent.globals, hCoherent.exports,
    fun c d hD => ?_, fun c hC => ?_⟩
  · rw [hasClass, decide_eq_true_eq]
    exact hIndexed.classes path c
  · refine (hIndexed.methods (c, name, scope) m).trans (and_congr_right fun _ => ?_)
    simp [Method.key]
  · exact hD.elim (hCoherent.outer c d) (hCoherent.upper c d)
  · exact ⟨hCoherent.complete_lexicalChain hC, hCoherent.complete_superclasses hC⟩

/- A module in a class, which no second class can be. -/
def nestedModule : List Declaration :=
  [.cls "A" ⟨0⟩ .cls none default,
    .cls "M" ⟨1⟩ .mixin none default,
    .cls "M" ⟨1⟩ .cls (some ⟨1⟩) default,
    .method ⟨2⟩ "run" .onInstance default,
    .ivar ⟨1⟩ "next" (.ref ⟨1⟩) true,
    .close ⟨2⟩,
    .mix ⟨1⟩ ⟨2⟩ .include default,
    .close ⟨1⟩]

theorem nestedModule_coherent : let p := nestedModule.foldl attempt (.empty 16)
    Arises 16 p ∧ p.classes.size = 3 ∧ (p.cls ⟨1⟩).references = [⟨0⟩, ⟨0⟩, ⟨2⟩, ⟨1⟩, ⟨2⟩, ⟨0⟩, ⟨1⟩]
      ∧ p.findClass? "A::M" = some ⟨2⟩
      ∧ p.ownMethod? ⟨2⟩ "run" .onInstance = some ⟨0⟩
      ∧ Complete (fun c => (p.cls c).lexicalParent) ⟨2⟩ (p.lexicalChain ⟨2⟩) := by
  intro p
  have hArises : Arises 16 p := by
    simp only [p, nestedModule, List.foldl_cons, List.foldl_nil]
    refine .attempt (.attempt (.attempt (.attempt (.attempt (.attempt (.attempt (.attempt
      .empty _ ?_) _ ?_) _ ?_) _ ?_) _ ?_) _ ?_) _ ?_) _ ?_ <;> decide +kernel
  rcases arises_coherent hArises with ⟨hClass, hMethod, -, -, -, -, -, -, hWays⟩
  refine ⟨hArises, by decide +kernel, by decide +kernel, ?_, ?_, (hWays ⟨2⟩ (by decide +kernel)).1⟩
  · exact (hClass _ _).mpr (by decide +kernel)
  · exact (hMethod _ _ _ _).mpr (by decide +kernel)

-- Paths

theorem descend?_append (c : ClassId) (names : List String) (name : String) :
    p.descend? c (names ++ [name]) = (p.descend? c names).bind (p.nested? · name) := by
  induction names generalizing c with
  | nil =>
    simp only [List.nil_append, descend?, bind_some]
    cases p.nested? c name <;> rfl
  | cons first rest ih =>
    simp only [List.cons_append, descend?]
    rcases p.nested? c first with _ | d
    · rfl
    · exact ih d

/- Where names stand for classes only, both searches find the same. -/
theorem findSome?_classes {scopes : List ClassId} {name : String}
    (hPlain : ∀ k ∈ scopes, p.ownConst? name k = (p.nested? k name).map .cls) :
    scopes.findSome? (p.ownConst? name) = (scopes.findSome? (p.nested? · name)).map .cls := by
  induction scopes with
  | nil => rfl
  | cons k scopes ih =>
    rw [List.forall_mem_cons] at hPlain
    simp only [List.findSome?_cons, hPlain.1]
    cases p.nested? k name with
    | none => exact ih hPlain.2
    | some d => rfl

/-
  A path stands for the same class as a constant and as a type, if no constant but a class has
  its last name where that is searched, and no ancestor of the class before it adds a class of
  that name.
-/
theorem class_names_agree (outer : List String) (name : String) (rooted : Bool)
    (lexical c : ClassId)
    (hPlain : ∀ scopes, p.constOwners? outer rooted lexical = some scopes →
        ∀ k ∈ scopes, p.ownConst? name k = (p.nested? k name).map .cls)
    (hOwner : ∀ owner, p.resolveClass? ⟨outer, rooted⟩ lexical = some owner →
        (p.ancestors owner).findSome? (p.nested? · name) = p.nested? owner name) :
    p.findConst? ⟨outer ++ [name], rooted⟩ lexical = some (.cls c)
      ↔ p.resolveClass? ⟨outer ++ [name], rooted⟩ lexical = some c := by
  suffices hSame : p.findConst? ⟨outer ++ [name], rooted⟩ lexical
      = (p.resolveClass? ⟨outer ++ [name], rooted⟩ lexical).map .cls by
    simp [hSame]
  simp only [findConst?, List.getLast?_concat, List.dropLast_concat]
  cases outer with
  | nil =>
    rw [constOwners?, List.isEmpty_nil, if_pos rfl, bind_some, findSome?_classes (hPlain _ rfl)]
    cases rooted <;> simp [resolveClass?, descend?]
  | cons first rest =>
    have hOwners : p.constOwners? (first :: rest) rooted lexical
        = (p.resolveClass? ⟨first :: rest, rooted⟩ lexical).map p.ancestors := rfl
    have hLast : p.resolveClass? ⟨first :: rest ++ [name], rooted⟩ lexical
        = (p.resolveClass? ⟨first :: rest, rooted⟩ lexical).bind (p.nested? · name) := by
      simp only [resolveClass?, List.cons_append, descend?_append, bind_assoc]
    rw [hLast]
    cases hFound : p.resolveClass? ⟨first :: rest, rooted⟩ lexical with
    | none => simp [hOwners, hFound]
    | some owner =>
      rw [hFound] at hOwners
      rw [hOwners, map_some, bind_some, findSome?_classes (hPlain _ hOwners),
        hOwner owner hFound, bind_some]

theorem nestedModule_path : let p := nestedModule.foldl attempt (.empty 16)
    p.findConst? ⟨["A", "M"], false⟩ ⟨0⟩ = some (.cls ⟨2⟩)
      ∧ p.resolveClass? ⟨["A", "M"], false⟩ ⟨0⟩ = some ⟨2⟩ := by
  intro p
  have hOwners : p.constOwners? ["A"] false ⟨0⟩ = some [⟨1⟩, ⟨2⟩, ⟨0⟩] := by decide +kernel
  have hType : p.resolveClass? ⟨["A", "M"], false⟩ ⟨0⟩ = some ⟨2⟩ := by decide +kernel
  refine ⟨(class_names_agree ["A"] "M" false ⟨0⟩ ⟨2⟩ (fun scopes hScopes => ?_)
    fun owner hOwner => ?_).mpr hType, hType⟩
  · cases hOwners.symm.trans hScopes
    decide +kernel
  · have hA : p.resolveClass? ⟨["A"], false⟩ ⟨0⟩ = some ⟨1⟩ := by decide +kernel
    cases hA.symm.trans hOwner
    decide +kernel

end Program

end RubyWat
