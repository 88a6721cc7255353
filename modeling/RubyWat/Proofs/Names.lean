import RubyWat.Proofs.Fields
import RubyWat.Proofs.Step

/-
  What stays of declared names while a program is compiled.

  Key definitions: `Method.isWritten`, `Program.Indexed`, `Program.Lasts`, `Program.Declares`,
    `NamesOnly`.

  A method that the program wrote keeps its parameters, its variables and its body while other
  code is compiled.  Only its result can still be declared.  Classes and methods keep their
  names.
-/

-- Access

namespace RubyWat

open Build Step List Program Method

variable {c : ClassId} {ctx ctx' : Context}
variable {x : Method} {f : Method → Method} {m : MethodId}
variable {scope : MethodScope} {busy : Option MethodId}
variable {p p' p₁ : Program} {span : Span} {name : String}

namespace Program

/- A changed method, and all others. -/
theorem method_modifyMethod_self (f : Method → Method) (hIn : m.index < p.methods.size) :
    (p.modifyMethod m f).method m = f (p.method m) := by
  simp [modifyMethod, method, Array.getD_eq_getD_getElem?, Array.getElem_modify, hIn]

theorem method_modifyMethod_of_ne (f : Method → Method) (hNe : k ≠ m) :
    (p.modifyMethod m f).method k = p.method k := by
  have hIndex : m.index ≠ k.index := fun hEq => hNe (congrArg MethodId.mk hEq).symm
  simp [modifyMethod, method, Array.getD_eq_getD_getElem?, Array.getElem?_modify, hIndex]

theorem modifyMethod_of_size_le (f : Method → Method) (hOut : p.methods.size ≤ m.index) :
    p.modifyMethod m f = p := by
  have hSame : p.methods.modify m.index f = p.methods := by
    ext i hI hI'
    · simp
    · rw [Array.getElem_modify, if_neg (by omega)]
  simp [modifyMethod, hSame]

/- What holds of a changed method and held of all others. -/
theorem forall_modifyMethod {Q : MethodId → Method → Prop} (hSelf : Q m (f (p.method m)))
    (hRest : ∀ k, Q k (p.method k)) (k : MethodId) : Q k ((p.modifyMethod m f).method k) := by
  by_cases hIn : m.index < p.methods.size
  · by_cases hEq : k = m
    · rw [hEq, method_modifyMethod_self f hIn]
      exact hSelf
    · rw [method_modifyMethod_of_ne f hEq]
      exact hRest k
  · rw [modifyMethod_of_size_le f (by omega)]
    exact hRest k

/- A change that changes nothing, and two changes in a row. -/
theorem modifyMethod_eq_self (hSame : f (p.method m) = p.method m) : p.modifyMethod m f = p := by
  have hMethods : p.methods.modify m.index f = p.methods := by
    ext i hI hI'
    · simp
    · rw [Array.getElem_modify]
      split
      · rename_i hEq
        subst hEq
        have hIn : m.index < p.methods.size := by simpa using hI
        rwa [method, Array.getD_eq_getD_getElem?, Array.getElem?_eq_getElem hIn] at hSame
      · rfl
  simp [modifyMethod, hMethods]

theorem modify_modify {α : Type} (xs : Array α) (i : Nat) (f g : α → α) :
    (xs.modify i f).modify i g = xs.modify i fun x => g (f x) := by
  ext j hJ hJ'
  · simp
  · simp only [Array.getElem_modify]
    split <;> rfl

theorem modifyMethod_modifyMethod (m : MethodId) (f g : Method → Method) :
    (p.modifyMethod m f).modifyMethod m g = p.modifyMethod m fun x => g (f x) := by
  simp [modifyMethod, modify_modify]

theorem method_of_size_le (hOut : p.methods.size ≤ m.index) : p.method m = default := by
  rw [method, Array.getD_eq_getD_getElem?, Array.getElem?_eq_none hOut]
  rfl

/- A new method, and all others. -/
theorem method_push (hMethods : p'.methods = p.methods.push x) (m : MethodId) :
    p'.method m = if m.index = p.methods.size then x else p.method m := by
  simp only [method, hMethods, Array.getD_eq_getD_getElem?, Array.getElem?_push]
  split <;> rfl

/- A new class, and all others. -/
theorem cls_push (hClasses : p'.classes = p.classes.push k) (c : ClassId) :
    p'.cls c = if c.index = p.classes.size then k else p.cls c := by
  simp only [cls, hClasses, Array.getD_eq_getD_getElem?, Array.getElem?_push]
  split <;> rfl

/- A new global, and all others. -/
theorem globalVar_push (hGlobals : p'.globals = p.globals.push v) (g : GlobalId) :
    p'.globalVar g = if g.index = p.globals.size then v else p.globalVar g := by
  simp only [globalVar, hGlobals, Array.getD_eq_getD_getElem?, Array.getElem?_push]
  split <;> rfl

/- What is declared is there. -/
theorem ownMethod?_declareMethod (p : Program) (c : ClassId) (name : String) (scope : MethodScope)
    (span : Span) :
    (p.declareMethod c name scope span).2.ownMethod? c name scope
      = some (p.declareMethod c name scope span).1 := by
  unfold declareMethod
  split
  · rename_i m hOwn
    exact hOwn
  · exact lookup_cons_self

/- A changed class, and all others. -/
theorem modifyClass_modifyClass (c : ClassId) (f g : Class → Class) :
    (p.modifyClass c f).modifyClass c g = p.modifyClass c fun x => g (f x) := by
  simp [modifyClass, modify_modify]

theorem cls_modifyClass (c k : ClassId) (f : Class → Class) : (p.modifyClass c f).cls k
      = if k = c ∧ c.index < p.classes.size then f (p.cls c) else p.cls k := by
  by_cases hEq : k = c
  · subst hEq
    by_cases hIn : k.index < p.classes.size
    · simp [modifyClass, cls, Array.getD_eq_getD_getElem?, Array.getElem_modify, hIn]
    · simp [modifyClass, cls, Array.getD_eq_getD_getElem?, hIn]
  · have hIndex : c.index ≠ k.index := fun hIndex => hEq (congrArg ClassId.mk hIndex).symm
    simp [modifyClass, cls, Array.getD_eq_getD_getElem?, Array.getElem?_modify, hIndex, hEq]

/- A class that is opened again is open, and nothing else changes. -/
theorem reopenClass_ok (hFound : p.findClass? (p.childPath lexical name) = some k)
    (hDefine : p.defineClass name lexical kind superclass span = .ok (c, p')) :
    c = k ∧ p' = p.modifyClass k fun k => { k with finalized := false } := by
  simp only [defineClass, hFound, reopenClass] at hDefine
  split at hDefine
  · cases hDefine
  split at hDefine
  · split at hDefine
    · cases hDefine
    · cases hDefine
      exact ⟨rfl, rfl⟩
  · cases hDefine
    exact ⟨rfl, rfl⟩

def mixed (module : ClassId) (how : Mixin) (k : Class) : Class :=
  match how with
  | .include => { k with included := addOnce module k.included }
  | .prepend => { k with prepended := addOnce module k.prepended }
  | .extend => { k with extended := addOnce module k.extended }

theorem mixIn_ok (hMix : p.mixIn c module how span = .ok p') :
    p' = p.modifyClass c (mixed module how) := by
  simp only [mixIn] at hMix
  split at hMix
  · cases hMix
  split at hMix
  · cases hMix
  · cases hMix
    rfl

/- A class variable is there already, or it is new and has a place in static data. -/
theorem declareCvar_ok (hDeclare : p.declareCvar c name value ty span = .ok (what, p')) :
    p' = p ∨ ∃ data address,
      p.data.declare (p.cvarLabel c name) (.int ty.held value) span = .ok (address, data)
        ∧ p' = modifyClass { p with data } c fun k =>
          { k with cvars := k.cvars ++ [⟨name, ty, address, value⟩] } := by
  simp only [declareCvar] at hDeclare
  split at hDeclare
  · split at hDeclare
    · cases hDeclare
      exact .inl rfl
    · cases hDeclare
  · rcases hData : p.data.declare (p.cvarLabel c name) (.int ty.held value) span with
      _ | ⟨address, data⟩
    · rw [hData] at hDeclare
      cases hDeclare
    · rw [hData] at hDeclare
      cases hDeclare
      exact .inr ⟨data, address, rfl, rfl⟩

end Program

-- Methods

namespace Method

/- Whether a method has a body that the program wrote. -/
def isWritten (x : Method) : Bool :=
  x.flags.implemented && !x.flags.synthesized

/- A method of a class gives a number unless it says otherwise. -/
def HasDefault (x : Method) : Prop :=
  x.scope = .onClass → x.flags.synthesized = false →
    x.flags.declaredResult = false → x.result = .i32

/- What leads to a method: its class, its name and its scope. -/
def key (x : Method) : ClassId × String × MethodScope :=
  (x.owner, x.name, x.scope)

/- One method at two times. -/
structure Same (x x' : Method) : Prop where
  name_eq : x'.name = x.name
  owner_eq : x'.owner = x.owner
  scope_eq : x'.scope = x.scope

/- What a method keeps that the program wrote. -/
structure Kept (x x' : Method) : Prop where
  isWritten : x'.isWritten = true
  params_eq : x'.params = x.params
  locals_eq : x'.locals = x.locals
  body_eq : x'.body = x.body
  imported_eq : x'.flags.imported = x.flags.imported
  declared : x.flags.declaredResult = true → x'.flags.declaredResult = true
  result_eq : x'.flags.declaredResult = false → x'.result = x.result

theorem Same.refl (x : Method) : x.Same x :=
  ⟨rfl, rfl, rfl⟩

theorem Same.key_eq (hSame : x.Same y) : y.key = x.key := by
  rw [key, hSame.owner_eq, hSame.name_eq, hSame.scope_eq, key]

theorem Same.trans (hFirst : x.Same y) (hSecond : y.Same z) : x.Same z :=
  ⟨hSecond.name_eq.trans hFirst.name_eq, hSecond.owner_eq.trans hFirst.owner_eq,
    hSecond.scope_eq.trans hFirst.scope_eq⟩

theorem Kept.refl (hWritten : x.isWritten = true) : x.Kept x :=
  ⟨hWritten, rfl, rfl, rfl, rfl, id, fun _ => rfl⟩

theorem Kept.trans (hFirst : x.Kept y) (hSecond : y.Kept z) : x.Kept z where
  isWritten := hSecond.isWritten
  params_eq := hSecond.params_eq.trans hFirst.params_eq
  locals_eq := hSecond.locals_eq.trans hFirst.locals_eq
  body_eq := hSecond.body_eq.trans hFirst.body_eq
  imported_eq := hSecond.imported_eq.trans hFirst.imported_eq
  declared := fun hIs => hSecond.declared (hFirst.declared hIs)
  result_eq := by
    intro hNot
    have hBefore : y.flags.declaredResult = false := by
      by_contra hIs
      rw [hSecond.declared (by simpa using hIs)] at hNot
      contradiction
    rw [hSecond.result_eq hNot, hFirst.result_eq hBefore]

/-
  What declarations may change of where the code of a method comes from.  A method that has none
  may be marked as one that the compiler provides, and a method in the middle of its definition
  as one that the host provides.
-/
structure Marked (isBusy : Prop) (x x' : Method) : Prop where
  implemented_eq : x'.flags.implemented = x.flags.implemented
  imported : x.flags.imported = true → x'.flags.imported = true
  unimported : ¬ isBusy → x'.flags.imported = true → x.flags.imported = true
  synthesized : x'.flags.synthesized = true → x.flags.synthesized = true
        ∨ x.flags.implemented = false ∧ x.flags.imported = false
  locals : ¬ isBusy → ∀ s ∈ x'.locals, s ∈ x.locals ∨ s.ty.isRef = true

/- A method without code of the program has no locals of its own. -/
def Bare (x : Method) : Prop :=
  x.flags.synthesized = true ∨ x.flags.implemented = false ∧ x.flags.imported = false →
    ∀ s ∈ x.locals, s.ty.isRef = true

namespace Marked

variable {isBusy : Prop} {y : Method}

theorem of_flags (hFlags : y.flags = x.flags)
    (hLocals : ¬ isBusy → ∀ s ∈ y.locals, s ∈ x.locals ∨ s.ty.isRef = true) :
    x.Marked isBusy y := by
  refine ⟨?_, ?_, fun _ => ?_, ?_, hLocals⟩
  · rw [hFlags]
  · rw [hFlags]
    exact id
  · rw [hFlags]
    exact id
  · rw [hFlags]
    exact .inl

theorem refl (x : Method) : x.Marked isBusy x :=
  of_flags rfl fun _ _ => .inl

/- Where there is no code, there was none. -/
theorem free (hMarked : x.Marked isBusy y)
    (hFree : y.flags.implemented = false ∧ y.flags.imported = false) :
    x.flags.implemented = false ∧ x.flags.imported = false := by
  refine ⟨hMarked.implemented_eq ▸ hFree.1, ?_⟩
  by_contra hImported
  rw [hMarked.imported (by simpa using hImported)] at hFree
  cases hFree.2

theorem bare (hMarked : x.Marked False y) (hBare : x.Bare) : y.Bare := by
  intro hIs s hMem
  refine (hMarked.locals id s hMem).elim (hBare ?_ s) id
  exact hIs.elim hMarked.synthesized fun hFree => .inr (hMarked.free hFree)

theorem trans (hFirst : x.Marked isBusy y) (hSecond : y.Marked isBusy z) : x.Marked isBusy z where
  implemented_eq := hSecond.implemented_eq.trans hFirst.implemented_eq
  imported := fun hIs => hSecond.imported (hFirst.imported hIs)
  unimported := fun hFree hIs => hFirst.unimported hFree (hSecond.unimported hFree hIs)
  synthesized := fun hIs =>
    (hSecond.synthesized hIs).elim hFirst.synthesized fun hFree => .inr (hFirst.free hFree)
  locals := fun hFree s hMem => (hSecond.locals hFree s hMem).elim (hFirst.locals hFree s) .inr

theorem while_busy (hMarked : x.Marked False y) : x.Marked isBusy y :=
  ⟨hMarked.implemented_eq, hMarked.imported, fun _ => hMarked.unimported id, hMarked.synthesized,
    fun _ => hMarked.locals id⟩

/- What the program wrote is not marked anew. -/
theorem isWritten (hMarked : x.Marked isBusy y) (hWritten : x.isWritten = true) :
    y.isWritten = true := by
  simp only [Method.isWritten, Bool.and_eq_true, Bool.not_eq_true'] at hWritten ⊢
  refine ⟨hMarked.implemented_eq.trans hWritten.1, ?_⟩
  by_contra hIs
  rcases hMarked.synthesized (by simpa using hIs) with hOld | hNo
  · rw [hWritten.2] at hOld
    contradiction
  · rw [hWritten.1] at hNo
    exact absurd hNo.1 (by simp)

end Marked

end Method

-- Programs

/- The method that an export names. -/
def ExportTarget.method? : ExportTarget → Option MethodId
  | .method m => some m
  | .globalVar _ => none

namespace Program

/-
  The maps lead to exactly what has the names, and nothing is exported under a name that
  something else is exported under.
-/
structure Indexed (p : Program) : Prop where
  classes : ∀ path c, p.findClass? path = some c ↔ c.index < p.classes.size
        ∧ (p.cls c).path = path
  methods : ∀ key m, p.methodByName.lookup key = some m ↔ m.index < p.methods.size
        ∧ (p.method m).key = key
  globals : ∀ name g, p.findGlobal? name = some g ↔ g.index < p.globals.size
        ∧ (p.globalVar g).name = name
  exports : (p.exports.map (·.name)).Nodup

/- A program with one more class, and with one more method. -/
def pushClass (p : Program) (k : Class) : Program :=
  { p with
    classByPath := (k.path, ⟨p.classes.size⟩) :: p.classByPath
    classes := p.classes.push k }

def pushMethod (p : Program) (x : Method) : Program :=
  { p with
    methods := p.methods.push x
    methodByName := (x.key, ⟨p.methods.size⟩) :: p.methodByName }

/- A map leads to what is new if the key of it is inserted. -/
theorem lookup_push {ι κ : Type} [BEq κ] [LawfulBEq κ] {map : List (κ × ι)} {index : ι → Nat}
    {key key' : ι → κ} {new : κ} {last : ι}
    (hMap : ∀ k i, map.lookup k = some i ↔ index i < size ∧ key i = k)
    (hNew : map.lookup new = none) (hLast : ∀ i, index i = size ↔ i = last)
    (hKey : ∀ i, key' i = if index i = size then new else key i) (k : κ) (i : ι) :
    ((new, last) :: map).lookup k = some i ↔ index i < size + 1 ∧ key' i = k := by
  rw [hKey]
  by_cases hEq : k = new
  · rw [hEq, lookup_cons_self]
    constructor
    · rintro ⟨⟩
      have hIs := (hLast last).mpr rfl
      exact ⟨by omega, if_pos hIs⟩
    · rintro ⟨hLess, hIs⟩
      split at hIs
      · rename_i hSize
        rw [(hLast i).mp hSize]
      · have hFound := (hMap new i).mpr ⟨by omega, hIs⟩
        rw [hNew] at hFound
        cases hFound
  · rw [lookup_cons, beq_eq_false_iff_ne.mpr hEq]
    show map.lookup k = some i ↔ _
    rw [hMap]
    split
    · exact ⟨fun hOld => by omega, fun hIs => absurd hIs.2.symm hEq⟩
    · exact and_congr_left' (by omega)

namespace Indexed

/- What a program starts with. -/
theorem empty (base : Nat) : (Program.empty base).Indexed where
  classes path c := by
    change [("Object", objectClass)].lookup path = some c ↔ c.index < 1 ∧ _
    rw [lookup_cons, lookup_nil]
    rcases c with ⟨_ | c⟩
    · by_cases hEq : path = "Object"
      · simp [hEq, objectClass, Program.empty, cls]
      · rw [beq_eq_false_iff_ne.mpr hEq]
        simp [Ne.symm hEq, Program.empty, cls]
    · split <;> simp [objectClass]
  methods _ _ := ⟨(nomatch ·), fun hIn => absurd hIn.1 (Nat.not_lt_zero _)⟩
  globals _ _ := ⟨(nomatch ·), fun hIn => absurd hIn.1 (Nat.not_lt_zero _)⟩
  exports := nodup_nil

variable (hIndexed : p.Indexed)
include hIndexed

/- Nothing is added, and what is there keeps its name. -/
theorem of_same (hClassMap : p'.classByPath = p.classByPath)
    (hMethodMap : p'.methodByName = p.methodByName) (hGlobalMap : p'.globalByName = p.globalByName)
    (hMethods : p'.methods.size = p.methods.size) (hSame : ∀ m, (p.method m).Same (p'.method m))
    (hClasses : p'.classes.size = p.classes.size) (hPath : ∀ c, (p'.cls c).path = (p.cls c).path)
    (hGlobals : p'.globals = p.globals)
    (hExports : (p.exports.map (·.name)).Nodup → (p'.exports.map (·.name)).Nodup) :
    p'.Indexed where
  classes path c := by
    rw [findClass?, hClassMap, hClasses, hPath]
    exact hIndexed.classes path c
  methods key m := by
    rw [hMethodMap, hMethods, (hSame m).key_eq]
    exact hIndexed.methods key m
  globals name g := by
    rw [findGlobal?, hGlobalMap, globalVar, hGlobals]
    exact hIndexed.globals name g
  exports := hExports hIndexed.exports

/- A method has the name that leads to it. -/
theorem own (hOwn : p.ownMethod? c name scope = some m) :
    m.index < p.methods.size ∧ (p.method m).owner = c ∧ (p.method m).name = name
      ∧ (p.method m).scope = scope := by
  rcases (hIndexed.methods _ m).mp hOwn with ⟨hIn, hKey⟩
  cases hKey
  exact ⟨hIn, rfl, rfl, rfl⟩

/- What has one name is one thing. -/
theorem class_eq (hC : c.index < p.classes.size) (hD : d.index < p.classes.size)
    (hPath : (p.cls c).path = (p.cls d).path) : c = d := by
  have hFound := (hIndexed.classes _ c).mpr ⟨hC, hPath⟩
  rw [(hIndexed.classes _ d).mpr ⟨hD, rfl⟩] at hFound
  exact (Option.some.inj hFound).symm

theorem method_eq (hM : m.index < p.methods.size) (hK : k.index < p.methods.size)
    (hKey : (p.method m).key = (p.method k).key) : m = k := by
  have hFound := (hIndexed.methods _ m).mpr ⟨hM, hKey⟩
  rw [(hIndexed.methods _ k).mpr ⟨hK, rfl⟩] at hFound
  exact (Option.some.inj hFound).symm

theorem globals_nodup : (p.globals.toList.map (·.name)).Nodup := by
  rw [nodup_iff_getElem?_ne_getElem?]
  intro i j hLess hIn hEq
  rw [length_map, Array.length_toList] at hIn
  have hName : (p.globalVar ⟨i⟩).name = (p.globalVar ⟨j⟩).name := by
    have hI : i < p.globals.size := by omega
    simpa [globalVar, Array.getD_eq_getD_getElem?, hI, hIn] using hEq
  have hFound := (hIndexed.globals _ ⟨i⟩).mpr ⟨Nat.lt_trans hLess hIn, hName⟩
  rw [(hIndexed.globals _ ⟨j⟩).mpr ⟨hIn, rfl⟩] at hFound
  cases hFound
  exact Nat.lt_irrefl _ hLess

end Indexed

/-
  What lasts of the names of a program, but for the parameters
  and variables of a method that is being defined.
-/
structure Lasts (busy : Option MethodId) (p p' : Program) : Prop where
  methods_le : p.methods.size ≤ p'.methods.size
  same : ∀ m, m.index < p.methods.size → (p.method m).Same (p'.method m)
  kept : ∀ m, busy ≠ some m → (p.method m).isWritten = true → (p.method m).Kept (p'.method m)
  hasDefault : (∀ m, (p.method m).HasDefault) → ∀ m, (p'.method m).HasDefault
  imported : ∀ m, (p.method m).flags.imported = true → (p'.method m).flags.imported = true
  classes_le : p.classes.size ≤ p'.classes.size
  classes : ∀ c, c.index < p.classes.size → (p'.cls c).name = (p.cls c).name
        ∧ (p'.cls c).path = (p.cls c).path
  fields : ∀ c, (p.cls c).FieldsLast (p'.cls c)
  own : ∀ key m, p.methodByName.lookup key = some m → p'.methodByName.lookup key = some m
  indexed : p.Indexed → p'.Indexed

/- A method of a class that the program has. -/
def Owned (p : Program) (m : MethodId) : Prop :=
  m.index < p.methods.size ∧ (p.method m).owner.index < p.classes.size

theorem Owned.lasts (hOwned : p.Owned m) (hLasts : p.Lasts busy p') : p'.Owned m := by
  refine ⟨Nat.lt_of_lt_of_le hOwned.1 hLasts.methods_le, ?_⟩
  rw [(hLasts.same m hOwned.1).owner_eq]
  exact Nat.lt_of_lt_of_le hOwned.2 hLasts.classes_le

/- A program whose names and fields are in order. -/
structure Regular (p : Program) : Prop where
  object : objectClass.index < p.classes.size
  fields : ∀ c, (p.cls c).Provisional
  indexed : p.Indexed

theorem Regular.lasts (hRegular : p.Regular) (hLasts : p.Lasts busy p') : p'.Regular :=
  ⟨Nat.lt_of_lt_of_le hRegular.object hLasts.classes_le,
    fun c => (hLasts.fields c).provisional (hRegular.fields c),
    hLasts.indexed hRegular.indexed⟩

/-
  Names that are declared without a change of any body.  Of
  methods, only the one that is being defined is exported.
-/
structure Declares (busy : Option MethodId) (p p' : Program) : Prop where
  lasts : Lasts busy p p'
  body_eq : ∀ m, (p'.method m).body = (p.method m).body
  marked : ∀ m, (p.method m).Marked (busy = some m) (p'.method m)
  exports : ∀ e ∈ p'.exports, e ∈ p.exports ∨ ∀ m, e.target = .method m → busy = some m

/- Only methods that are declared are written. -/
theorem index_lt_of_isWritten (hWritten : (p.method m).isWritten = true) :
    m.index < p.methods.size := by
  by_contra hOut
  rw [method_of_size_le (by omega)] at hWritten
  cases hWritten

theorem index_lt_of_body (hBody : (p.method m).body = some n) : m.index < p.methods.size := by
  by_contra hOut
  rw [method_of_size_le (by omega)] at hBody
  cases hBody

namespace Lasts

theorem refl (busy : Option MethodId) (p : Program) : Lasts busy p p where
  methods_le := Nat.le_refl _
  same := fun m _ => .refl (p.method m)
  kept := fun _ _ hWritten => .refl hWritten
  hasDefault := id
  imported := fun _ => id
  classes_le := Nat.le_refl _
  classes := fun _ _ => ⟨rfl, rfl⟩
  fields := fun c => .refl (p.cls c)
  own := fun _ _ => id
  indexed := id

theorem trans (hFirst : Lasts busy p p₁) (hSecond : Lasts busy p₁ p₂) : Lasts busy p p₂ where
  methods_le := Nat.le_trans hFirst.methods_le hSecond.methods_le
  same := by
    intro m hIn
    have hLe := hFirst.methods_le
    exact (hFirst.same m hIn).trans (hSecond.same m (by omega))
  kept := by
    intro m hFree hWritten
    have hKept := hFirst.kept m hFree hWritten
    exact hKept.trans (hSecond.kept m hFree hKept.isWritten)
  hasDefault := fun hAll => hSecond.hasDefault (hFirst.hasDefault hAll)
  imported := fun m hIs => hSecond.imported m (hFirst.imported m hIs)
  classes_le := Nat.le_trans hFirst.classes_le hSecond.classes_le
  classes := by
    intro c hIn
    have hLe := hFirst.classes_le
    have hOld := hFirst.classes c hIn
    have hNew := hSecond.classes c (by omega)
    exact ⟨hNew.1.trans hOld.1, hNew.2.trans hOld.2⟩
  fields := fun c => (hFirst.fields c).trans (hSecond.fields c)
  own := fun key m hOwn => hSecond.own key m (hFirst.own key m hOwn)
  indexed := fun hAll => hSecond.indexed (hFirst.indexed hAll)

/- What lasts while nothing is defined lasts in any case. -/
theorem while_busy (hLasts : Lasts none p p₁) : Lasts busy p p₁ :=
  { hLasts with kept := fun m _ => hLasts.kept m (by simp) }

/- A name goes on to stand for the same method. -/
theorem ownMethod?_eq_some (hLasts : Lasts busy p p₁) (hOwn : p.ownMethod? c name scope = some m) :
    p₁.ownMethod? c name scope = some m :=
  hLasts.own _ m hOwn

/- A method that was not written before may be defined. -/
theorem after_definition (hLasts : Lasts (some m) p p₁) (hNew : (p.method m).isWritten = false) :
    Lasts none p p₁ := by
  refine { hLasts with kept := fun k _ hWritten => hLasts.kept k ?_ hWritten }
  intro hEq
  cases hEq
  rw [hNew] at hWritten
  contradiction

/- A change of one method. -/
theorem modifyMethod (hSame : (p.method m).Same (f (p.method m)))
    (hKept : busy ≠ some m → (p.method m).isWritten = true → (p.method m).Kept (f (p.method m)))
    (hDefault : (p.method m).HasDefault → (f (p.method m)).HasDefault)
    (hImported : (p.method m).flags.imported = true → (f (p.method m)).flags.imported = true) :
    Lasts busy p (p.modifyMethod m f) := by
  have hAll : ∀ k, (p.method k).Same ((p.modifyMethod m f).method k) :=
    forall_modifyMethod (Q := fun k x => (p.method k).Same x) hSame fun k => .refl (p.method k)
  have hSize : (p.modifyMethod m f).methods.size = p.methods.size := by simp [Program.modifyMethod]
  refine ⟨Nat.le_of_eq hSize.symm, fun k _ => hAll k, ?_, fun hHas => ?_, ?_, Nat.le_refl _,
    fun _ _ => ⟨rfl, rfl⟩, fun _ => .refl _, fun _ _ => id,
    fun hIndexed => hIndexed.of_same rfl rfl rfl hSize hAll rfl (fun _ => rfl) rfl id⟩
  · exact forall_modifyMethod
      (Q := fun k x => busy ≠ some k → (p.method k).isWritten = true → (p.method k).Kept x)
      hKept fun _ _ => .refl
  · exact forall_modifyMethod (Q := fun _ x => x.HasDefault) (hDefault (hHas m)) hHas
  · exact forall_modifyMethod
      (Q := fun k x => (p.method k).flags.imported = true → x.flags.imported = true)
      hImported fun _ => id

/- A change of one class. -/
theorem modifyClass {f : Class → Class} (hName : (f (p.cls c)).name = (p.cls c).name)
    (hPath : (f (p.cls c)).path = (p.cls c).path) (hFields : (p.cls c).FieldsLast (f (p.cls c))) :
    Lasts busy p (p.modifyClass c f) := by
  have hClass : ∀ k, ((p.modifyClass c f).cls k).name = (p.cls k).name
        ∧ ((p.modifyClass c f).cls k).path = (p.cls k).path
        ∧ (p.cls k).FieldsLast ((p.modifyClass c f).cls k) := by
    intro k
    rw [cls_modifyClass]
    split
    · rename_i hBoth
      rw [hBoth.1]
      exact ⟨hName, hPath, hFields⟩
    · exact ⟨rfl, rfl, .refl _⟩
  have hSize : (p.modifyClass c f).classes.size = p.classes.size := by simp [Program.modifyClass]
  exact ⟨Nat.le_refl _, fun m _ => .refl (p.method m),
    fun _ _ hWritten => .refl hWritten, id, fun _ => id,
    Nat.le_of_eq hSize.symm,
    fun k _ => ⟨(hClass k).1, (hClass k).2.1⟩,
    fun k => (hClass k).2.2, fun _ _ => id, fun hIndexed =>
      hIndexed.of_same rfl rfl rfl rfl (fun _ => .refl _) hSize (fun k => (hClass k).2.1) rfl id⟩

/- Changes of anything but methods and classes. -/
theorem of_eq (hMethods : p₁.methods = p.methods) (hClasses : p₁.classes = p.classes)
    (hOwn : p₁.methodByName = p.methodByName) (hIndexed : p.Indexed → p₁.Indexed) :
    Lasts busy p p₁ := by
  cases p
  cases p₁
  cases hMethods
  cases hClasses
  cases hOwn
  exact { refl busy _ with indexed := hIndexed }

end Lasts

/- An export is a new name, and nothing else. -/
theorem addExport_ok (hAdd : p.addExport target name span = .ok p') :
    ∃ exports, p' = { p with exports } ∧ (p.Indexed → p'.Indexed)
      ∧ ∀ e ∈ exports, e ∈ p.exports ∨ e.target = target := by
  unfold addExport at hAdd
  split at hAdd
  · split at hAdd
    · cases hAdd
      exact ⟨_, rfl, id, fun _ => .inl⟩
    · cases hAdd
  · rename_i hFree
    cases hAdd
    refine ⟨_, rfl, fun hIndexed => ?_, fun e hMem => ?_⟩
    · refine hIndexed.of_same rfl rfl rfl rfl (fun _ => .refl _) rfl (fun _ => rfl) rfl ?_
      intro hOnce
      rw [map_append, nodup_append]
      refine ⟨hOnce, nodup_singleton _, ?_⟩
      simpa using hFree
    rcases mem_append.mp hMem with hOld | hNew
    · exact .inl hOld
    · rw [mem_singleton] at hNew
      rw [hNew]
      exact .inr rfl

namespace Declares

theorem refl (busy : Option MethodId) (p : Program) : Declares busy p p :=
  ⟨.refl busy p, fun _ => rfl, fun m => .refl (p.method m), fun _ => .inl⟩

theorem trans (hFirst : Declares busy p p₁) (hSecond : Declares busy p₁ p₂) :
    Declares busy p p₂ where
  lasts := hFirst.lasts.trans hSecond.lasts
  body_eq := fun m => (hSecond.body_eq m).trans (hFirst.body_eq m)
  marked := fun m => (hFirst.marked m).trans (hSecond.marked m)
  exports := by
    intro e hMem
    rcases hSecond.exports e hMem with hOld | hNew
    · exact hFirst.exports e hOld
    · exact .inr hNew

theorem while_busy (hDeclares : Declares none p p₁) : Declares busy p p₁ where
  lasts := hDeclares.lasts.while_busy
  body_eq := hDeclares.body_eq
  marked := by
    intro m
    have hMarked : (p.method m).Marked False (p₁.method m) := by simpa using hDeclares.marked m
    exact hMarked.while_busy
  exports := by
    intro e hMem
    rcases hDeclares.exports e hMem with hOld | hNew
    · exact .inl hOld
    · refine .inr fun m hTarget => ?_
      cases hNew m hTarget

theorem modifyMethod (hSame : (p.method m).Same (f (p.method m)))
    (hBody : (f (p.method m)).body = (p.method m).body)
    (hMarked : (p.method m).Marked (busy = some m) (f (p.method m)))
    (hKept : busy ≠ some m → (p.method m).isWritten = true → (p.method m).Kept (f (p.method m)))
    (hDefault : (p.method m).HasDefault → (f (p.method m)).HasDefault) :
    Declares busy p (p.modifyMethod m f) := by
  refine ⟨.modifyMethod hSame hKept hDefault hMarked.imported, ?_, ?_, fun _ => .inl⟩
  · exact forall_modifyMethod (Q := fun k x => x.body = (p.method k).body) hBody fun _ => rfl
  · exact forall_modifyMethod (Q := fun k x => (p.method k).Marked (busy = some k) x) hMarked
      fun k => .refl (p.method k)

/- A change of a method that the program did not write. -/
theorem modifyUnwritten (hNew : (p.method m).isWritten = false)
    (hSame : (p.method m).Same (f (p.method m))) (hBody : (f (p.method m)).body = (p.method m).body)
    (hMarked : (p.method m).Marked (busy = some m) (f (p.method m)))
    (hDefault : (p.method m).HasDefault → (f (p.method m)).HasDefault) :
    Declares busy p (p.modifyMethod m f) :=
  .modifyMethod hSame hBody hMarked (by simp [hNew]) hDefault

theorem modifyClass {f : Class → Class} (hName : (f (p.cls c)).name = (p.cls c).name)
    (hPath : (f (p.cls c)).path = (p.cls c).path) (hFields : (p.cls c).FieldsLast (f (p.cls c))) :
    Declares busy p (p.modifyClass c f) :=
  ⟨.modifyClass hName hPath hFields, fun _ => rfl, fun m => .refl (p.method m), fun _ => .inl⟩

theorem of_eq (hMethods : p₁.methods = p.methods) (hClasses : p₁.classes = p.classes)
    (hOwn : p₁.methodByName = p.methodByName) (hIndexed : p.Indexed → p₁.Indexed)
    (hExports : ∀ e ∈ p₁.exports, e ∈ p.exports ∨ ∀ m, e.target = .method m → busy = some m) :
    Declares busy p p₁ := by
  have hMethod : ∀ m, p₁.method m = p.method m := fun m => by simp [method, hMethods]
  refine ⟨.of_eq hMethods hClasses hOwn hIndexed, fun m => by rw [hMethod], fun m => ?_, hExports⟩
  rw [hMethod]
  exact .refl _

/- Static data has no part in the names. -/
theorem withData (p : Program) (data : StaticData) : Declares busy p { p with data } :=
  .of_eq rfl rfl rfl
    (fun hIndexed =>
      hIndexed.of_same rfl rfl rfl rfl (fun _ => .refl _) rfl (fun _ => rfl) rfl id)
    fun _ => .inl

/- A new name for something. -/
theorem addExport (hAdd : p.addExport target name span = .ok p₁) :
    Declares target.method? p p₁ := by
  rcases addExport_ok hAdd with ⟨exports, rfl, hIndexed, hExports⟩
  refine .of_eq rfl rfl rfl hIndexed fun e hMem => (hExports e hMem).imp_right ?_
  rintro hNew m hTarget
  rw [← hNew, hTarget]
  rfl

/- A new method without a body, under a new name. -/
theorem push (hBody : x.body = none) (hFlags : x.flags = {}) (hLocals : x.locals = [])
    (hDefault : x.HasDefault) (hNew : p.methodByName.lookup x.key = none) :
    Declares busy p (p.pushMethod x) := by
  have hUnwritten : ∀ {m : MethodId}, m.index = p.methods.size →
        (p.method m).isWritten = true → False := by
    intro m hEq hWritten
    have := index_lt_of_isWritten hWritten
    omega
  have hPush : ∀ m, (p.pushMethod x).method m
      = if m.index = p.methods.size then x else p.method m := method_push rfl
  refine ⟨⟨?_, ?_, ?_, ?_, ?_, Nat.le_refl _, fun _ _ => ⟨rfl, rfl⟩, fun _ => .refl _, ?_,
    fun hIndexed => { hIndexed with methods := ?_ }⟩, ?_, ?_, fun _ => .inl⟩
  · simp [pushMethod]
  · intro m hIn
    rw [hPush, if_neg (by omega)]
    exact .refl _
  · intro m _ hWritten
    rw [hPush, if_neg fun hEq => hUnwritten hEq hWritten]
    exact .refl hWritten
  · intro hAll m
    rw [hPush]
    split
    · exact hDefault
    · exact hAll m
  · intro m hIs
    rw [hPush]
    split
    · rename_i hEq
      rw [method_of_size_le (by omega)] at hIs
      cases hIs
    · exact hIs
  · intro key m hOwn
    rw [pushMethod, lookup_cons]
    split
    · rename_i hEq
      rw [beq_iff_eq.mp hEq, hNew] at hOwn
      cases hOwn
    · exact hOwn
  · rw [show (p.pushMethod x).methods.size = p.methods.size + 1 from Array.size_push x]
    refine lookup_push hIndexed.methods hNew (fun m => ?_) fun m => ?_
    · exact ⟨fun hEq => congrArg MethodId.mk hEq, fun hEq => hEq ▸ rfl⟩
    · rw [hPush]
      split <;> rfl
  · intro m
    rw [hPush]
    split
    · rename_i hEq
      rw [hBody, method_of_size_le (by omega)]
      rfl
    · rfl
  · intro m
    rw [hPush]
    split
    · rename_i hEq
      refine .of_flags ?_ (by simp [hLocals])
      rw [hFlags, method_of_size_le (by omega)]
      rfl
    · exact .refl _

/- The method with a name, created if it is missing. -/
theorem declareMethod (p : Program) (c : ClassId) (name : String) (scope : MethodScope)
    (span : Span) : Declares busy p (p.declareMethod c name scope span).2 := by
  unfold Program.declareMethod
  split
  · exact .refl busy p
  · rename_i hNone
    exact .push rfl rfl rfl (fun _ _ _ => rfl) hNone

end Declares

end Program

-- Steps On Names

/- A change of nothing but names, which lets written ones be. -/
structure Declaring (busy : Option MethodId) (ctx ctx' : Context) : Prop where
  same : ctx' = { ctx with program := ctx'.program }
  program : Declares busy ctx.program ctx'.program

instance {busy : Option MethodId} : Lasting (Declaring busy) where
  refl := fun ctx => ⟨rfl, .refl busy ctx.program⟩
  trans := by
    intro ctx₁ ctx₂ ctx₃ hFirst hSecond
    refine ⟨?_, hFirst.program.trans hSecond.program⟩
    rw [hSecond.same, hFirst.same]

namespace Declaring

variable {α : Type}

theorem readProgram : Changes (Declaring busy) Build.program :=
  .bind .get fun _ => .pure _

theorem modifyProgram {f : Program → Program} (hDeclares : ∀ p, Declares busy p (f p)) :
    Changes (Declaring busy) (modifyProgram f) := by
  intro ctx _ ctx' hRun
  cases hRun
  exact ⟨rfl, hDeclares ctx.program⟩

theorem declare {f : Program → α × Program} (hDeclares : ∀ p, Declares busy p (f p).2) :
    Changes (Declaring busy) (declare f) := by
  intro ctx _ ctx' hRun
  cases hRun
  exact ⟨rfl, hDeclares ctx.program⟩

theorem declareMethod (c : ClassId) (name : String) (scope : MethodScope) (span : Span) :
    Changes (Declaring busy) (Build.declare (·.declareMethod c name scope span)) :=
  declare fun p => .declareMethod p c name scope span

theorem tryDeclare {f : Program → Except Fault (α × Program)}
    (hDeclares : ∀ p a p', f p = .ok (a, p') → Declares busy p p') :
    Changes (Declaring busy) (tryDeclare f) := by
  intro ctx a ctx' hRun
  rcases tryDeclare_ok hRun with ⟨p, hResult, rfl⟩
  exact ⟨rfl, hDeclares _ _ _ hResult⟩

end Declaring

namespace Changes

variable {α : Type}

theorem names (hStep : Changes (Declaring busy) step)
    (hRun : step ctx = .ok a ctx') : Translation.Names step ctx.program a ctx'.program :=
  ⟨ctx, rfl, by rw [hRun, ← (hStep ctx a ctx' hRun).same]⟩

theorem declares (hStep : Changes (Declaring busy) step)
    (hNames : Translation.Names step p a p') : Declares busy p p' := by
  rcases hNames with ⟨ctx, rfl, hRun⟩
  exact (hStep _ _ _ hRun).program

end Changes

/- A step that declares names and does nothing else. -/
abbrev NamesOnly {α : Type} (step : Build α) : Prop :=
  Changes (Declaring none) step

-- Methods That Calls Name

namespace Build

/- A method that was provided before or is provided now. -/
theorem declareProvided_namesOnly : NamesOnly (declareProvided c name scope span) := by
  refine .bind (Declaring.declareMethod c name scope span) ?_
  intro m ctx a ctx' hRun
  rw [program_bind] at hRun
  split at hRun
  · cases hRun
    exact Lasting.refl ctx
  rename_i hNot
  cases hRun
  simp only [Bool.and_eq_true, Bool.not_eq_true', Bool.or_eq_true, not_and_or, not_or,
    Bool.not_eq_false, Bool.not_eq_true] at hNot
  refine ⟨rfl, .modifyUnwritten ?_ ⟨rfl, rfl, rfl⟩ rfl
    ⟨rfl, id, fun _ => id, fun _ => hNot, fun _ _ => .inl⟩ ?_⟩
  · rcases hNot with hIs | hNo
    · simp [isWritten, hIs]
    · simp [isWritten, hNo.1]
  · intro _ _ hNew
    cases hNew

/- A method that the compiler provides under a name. -/
structure Offers (p : Program) (c : ClassId) (name : String) (scope : MethodScope) (m : MethodId) :
    Prop where
  own : p.ownMethod? c name scope = some m
  synthesized : (p.method m).flags.synthesized = true

/- What is provided is marked so, if it is there. -/
theorem declareProvided_marks
    (hRun : declareProvided c name scope span ctx = .ok (some m) ctx') :
    ctx'.program.ownMethod? c name scope = some m
      ∧ (m.index < ctx'.program.methods.size
          → (ctx'.program.method m).flags.synthesized = true) := by
  rw [declareProvided, declare_bind, program_bind] at hRun
  split at hRun
  · cases hRun
  · cases hRun
    refine ⟨ctx.program.ownMethod?_declareMethod c name scope span, fun hIn => ?_⟩
    simp only [Program.modifyFlags, Program.modifyMethod, Array.size_modify] at hIn
    exact congrArg (·.flags.synthesized) (method_modifyMethod_self _ hIn)

theorem declareProvided_some (hRun : declareProvided c name scope span ctx = .ok (some m) ctx')
    (hIndexed : ctx'.program.Indexed) : Offers ctx'.program c name scope m := by
  rcases declareProvided_marks hRun with ⟨hOwn, hMarked⟩
  exact ⟨hOwn, hMarked (hIndexed.own hOwn).1⟩

/- The constructor of a class takes what its initializer does. -/
theorem newMethod_namesOnly : NamesOnly (newMethod c) := by
  intro ctx a ctx' hRun
  rcases bind_ok hRun with ⟨found, ctx₁, hProvided, hRun⟩
  have hFirst := declareProvided_namesOnly _ _ _ hProvided
  cases found with
  | none =>
    cases hRun
    exact hFirst
  | some m =>
    cases hRun
    by_cases hOut : ctx₁.program.methods.size ≤ m.index
    · refine Lasting.trans _ _ _ hFirst ⟨rfl, ?_⟩
      simp only [modifyMethod_of_size_le _ hOut]
      exact .refl none ctx₁.program
    have hIs := (declareProvided_marks hProvided).2 (by omega)
    refine Lasting.trans _ _ _ hFirst
      ⟨rfl, .modifyUnwritten ?_ ⟨rfl, rfl, rfl⟩ rfl (.of_flags rfl fun _ _ => .inl) ?_⟩
    · simp [isWritten, hIs]
    · intro _ _ hNew
      rw [hIs] at hNew
      cases hNew

theorem newMethod_some (hRun : newMethod c ctx = .ok (some m) ctx')
    (hIndexed : ctx'.program.Indexed) : Offers ctx'.program c "new" .onClass m := by
  rcases bind_ok hRun with ⟨found, ctx₁, hProvided, hRun⟩
  cases found with
  | none => cases hRun
  | some k =>
    rcases declareProvided_marks hProvided with ⟨hOwn, hMarked⟩
    cases hRun
    have hIn := (hIndexed.own hOwn).1
    simp only [Program.modifyMethod, Array.size_modify] at hIn
    refine ⟨hOwn, ?_⟩
    rw [method_modifyMethod_self _ hIn]
    exact hMarked hIn

theorem sizeMethod_own (hRun : sizeMethod c ctx = .ok m ctx') :
    ctx'.program.ownMethod? c "_size_" .onClass = some m := by
  have hOwn := ctx.program.ownMethod?_declareMethod c "_size_" .onClass .generated
  rw [sizeMethod, declare_bind, program_bind] at hRun
  split at hRun
  · cases hRun
    exact hOwn
  · cases hRun
    exact hOwn

theorem sizeMethod_namesOnly : NamesOnly (sizeMethod c) := by
  refine .bind (Declaring.declareMethod c _ _ _) ?_
  intro m ctx a ctx' hRun
  rw [program_bind] at hRun
  split at hRun
  · rename_i hNew
    cases hRun
    simp only [Bool.and_eq_true, Bool.not_eq_true'] at hNew
    refine ⟨rfl, .modifyUnwritten ?_ ⟨rfl, rfl, rfl⟩ rfl
      ⟨rfl, id, fun _ => id, fun _ => .inr ⟨hNew.1.2, hNew.2⟩, fun _ _ => .inl⟩ ?_⟩
    · simp [isWritten, hNew.1.2]
    · intro _ _ _ _
      rfl
  · cases hRun
    exact Lasting.refl ctx

end Build

namespace Lower

theorem constructor_namesOnly : NamesOnly (constructor c span) := by
  refine .bind Declaring.readProgram fun p => .guard (.throw _)
    (.bind Build.newMethod_namesOnly fun found => ?_)
  cases found with
  | some m => exact .pure m
  | none =>
    refine .bind Declaring.readProgram fun p => ?_
    cases p.ownMethod? c "new" .onClass with
    | some m => exact .pure m
    | none => exact .throw _

theorem resolveSelfCall_namesOnly : NamesOnly (resolveSelfCall c scope name span) := by
  refine .bind Declaring.readProgram fun p => ?_
  dsimp only
  split
  · exact .pure _
  · exact .pure _
  · exact .bind (Declaring.declareMethod c name scope span) fun m => .pure _

theorem resolveClassCall_namesOnly : NamesOnly (resolveClassCall c name span) := by
  unfold resolveClassCall
  split
  · exact .bind constructor_namesOnly fun m => .pure _
  refine .bind Declaring.readProgram fun p => ?_
  cases p.classMethod? c name with
  | some found => exact .pure _
  | none => exact .bind (Declaring.declareMethod c name _ span) fun m => .pure _

def markExported (target : ExportTarget) (p : Program) : Program :=
  match target with
  | .method m => p.modifyFlags m ({ · with exported := true })
  | .globalVar _ => p

theorem lasts_markExported (target : ExportTarget) (p : Program) :
    Lasts busy p (markExported target p) := by
  cases target with
  | globalVar => exact .refl busy p
  | method m =>
    refine .modifyMethod ⟨rfl, rfl, rfl⟩ ?_ id id
    intro _ hWritten
    exact ⟨hWritten, rfl, rfl, rfl, rfl, id, fun _ => rfl⟩

/- An export adds a name and marks what it names. -/
theorem exportAs_ok {name : Option String}
    (hRun : exportAs target name span ctx = .ok () ctx') :
    ∃ given p, ctx.program.addExport target given span = .ok p
        ∧ ctx' = { ctx with program := markExported target p } := by
  rcases bind_ok hRun with ⟨_, _, hGet, hRun⟩
  cases hGet
  rcases bind_ok hRun with ⟨_, ctx₁, hAdd, hRun⟩
  rw [tryDeclare, program_bind] at hAdd
  rcases hExport : ctx.program.addExport target _ span with fault | p
  · rw [hExport] at hAdd
    cases hAdd
  rw [hExport] at hAdd
  cases hAdd
  refine ⟨_, p, hExport, ?_⟩
  cases target with
  | globalVar | method =>
    cases hRun
    rfl

theorem exportAs_declaring (target : ExportTarget) (name : Option String) (span : Span) :
    Changes (Declaring target.method?) (exportAs target name span) := by
  intro ctx _ ctx' hRun
  rcases exportAs_ok hRun with ⟨given, p, hAdd, rfl⟩
  refine ⟨rfl, (Declares.addExport hAdd).trans ?_⟩
  cases target with
  | globalVar => exact .refl _ p
  | method m =>
    refine .modifyMethod ⟨rfl, rfl, rfl⟩ rfl ⟨rfl, id, fun _ => id, .inl, fun _ _ => .inl⟩ ?_ id
    intro _ hWritten
    exact ⟨hWritten, rfl, rfl, rfl, rfl, id, fun _ => rfl⟩

/- What lasts does so when something is exported. -/
theorem exportAs_lasts {name : Option String}
    (hRun : exportAs target name span ctx = .ok () ctx') :
    Lasts none ctx.program ctx'.program := by
  rcases exportAs_ok hRun with ⟨given, p, hAdd, rfl⟩
  refine Lasts.trans ?_ (lasts_markExported target p)
  rcases addExport_ok hAdd with ⟨_, rfl, hIndexed, _⟩
  exact .of_eq rfl rfl rfl hIndexed

end Lower

end RubyWat
