import RubyWat.Proofs.Declarations
import RubyWat.Proofs.Reshaping

/-
  Fields that the code of a method reads and writes.

  The code of a method accesses fields of the class that the method belongs to.  An access has
  the machine type of its field if the type of the field was fixed when the access was compiled,
  and is narrow otherwise; then the field is an attribute.

  Main statement: this holds of all code that the rules of the translation give for the
  statements of a method (`Translation.lowersBody_accesses`).
-/

-- Accesses

namespace RubyWat

open Code Lower List Program

variable {c : ClassId} {f g : Fragment} {instr : Instr}
variable {n : NodeId} {fs gs : List Fragment} {m : MethodId}
variable {busy : Option MethodId} {p p' : Program} {name : String}
variable {ty : ValueType} {fold keep : Bool}

namespace Code.Fragment

/- Code of which every access has a property. -/
inductive Accesses (Q : Access → Prop) : Fragment → Prop where
  | intro {f : Fragment} (hOwn : ∀ a, f.instr.access? f.ty = some a → Q a)
      (hChildren : ∀ c ∈ f.children, Accesses Q c) : Accesses Q f

variable {Q R : Access → Prop}

theorem accesses_mk {children : List Fragment} :
    Accesses Q ⟨n, instr, ty, children⟩ ↔ (∀ a, instr.access? ty = some a → Q a)
        ∧ ∀ c ∈ children, Accesses Q c := by
  constructor
  · rintro ⟨hOwn, hChildren⟩
    exact ⟨hOwn, hChildren⟩
  · exact fun hBoth => .intro hBoth.1 hBoth.2

namespace Accesses

theorem child {c : Fragment} (hAll : f.Accesses Q) (hChild : c ∈ f.children) : c.Accesses Q := by
  cases hAll with
  | intro _ hChildren => exact hChildren c hChild

theorem mono (hAll : f.Accesses Q) (hImp : ∀ a, Q a → R a) : f.Accesses R := by
  induction hAll with
  | intro hOwn _ ih => exact .intro (fun a hIs => hImp a (hOwn a hIs)) ih

/- Another instruction, which is no access, above some code. -/
theorem above {children : List Fragment} (hFree : instr.access? ty = none)
    (hChildren : ∀ c ∈ children, Accesses Q c) : Accesses Q ⟨n, instr, ty, children⟩ :=
  accesses_mk.mpr ⟨by simp [hFree], hChildren⟩

theorem leaf (hFree : instr.access? ty = none) : Accesses Q (.leaf n instr ty) :=
  above hFree (forall_mem_nil _)

/- Another type that is held in the same way. -/
theorem retype (hAll : f.Accesses Q) (hHeld : ty.held = f.ty.held) : Accesses Q { f with ty } := by
  have hSame : f.instr.access? ty = f.instr.access? f.ty := by
    unfold Instr.access?
    split <;> simp [hHeld]
  cases hAll with
  | intro hOwn hChildren =>
    refine .intro (fun a hIs => hOwn a ?_) hChildren
    rw [← hSame]
    exact hIs

/- What the nodes of held code access. -/
theorem at_node (hAll : f.Accesses Q) (hHeld : Held t f)
    (hAccess : (t.instr f.id).access? (t.ty f.id) = some a) : Q a := by
  rw [hHeld.instr, hHeld.ty] at hAccess
  cases hAll with
  | intro hOwn _ => exact hOwn a hAccess

end Accesses

end Code.Fragment

-- Accesses That Fit

/-
  An access of a class that its field allows.  A field whose type came late may be accessed with
  the narrow type that it had before, if it is an attribute.
-/
def Program.Fits (p : Program) (c : ClassId) (a : Access) : Prop :=
  a.cls = c ∧ ∃ v, (p.cls c).ivars[a.slot]? = some v ∧ (v.fixed = true ∧ a.held = v.ty.held
      ∨ a.held = .i32 ∧ v.name ∈ (p.cls c).attrNames)

theorem Program.Fits.lasts (hFits : p.Fits c a) (hLasts : p.Lasts busy p') : p'.Fits c a := by
  rcases hFits with ⟨hClass, v, hAt, hIs⟩
  rcases (hLasts.fields c).slots _ v hAt with ⟨v', hAt', hName, hFixed⟩
  refine ⟨hClass, v', hAt', ?_⟩
  rcases hIs with ⟨hIs, hHeld⟩ | ⟨hHeld, hAttr⟩
  · rw [hFixed hIs]
    exact .inl ⟨hIs, hHeld⟩
  · rw [hName]
    exact .inr ⟨hHeld, (hLasts.fields c).attrs hAttr⟩

/- An access that is left to a method. -/
structure Program.Allows (p : Program) (m : MethodId) (a : Access) : Prop where
  isIn : m.index < p.methods.size
  fits : p.Fits (p.method m).owner a

theorem Program.Allows.lasts (hAllows : p.Allows m a) (hLasts : p.Lasts busy p') :
    p'.Allows m a := by
  refine ⟨Nat.lt_of_lt_of_le hAllows.isIn hLasts.methods_le, ?_⟩
  rw [(hLasts.same m hAllows.isIn).owner_eq]
  exact hAllows.fits.lasts hLasts

/- The field that a name stands for may be accessed. -/
theorem Program.fits_of_ivar? (hProvisional : (p.cls c).Provisional)
    (hSlot : (p.cls c).ivarSlot? name = some slot) (hIvar : (p.cls c).ivar? name = some v) :
    p.Fits c ⟨c, slot, v.ty.held⟩ := by
  have hAt := Class.getElem?_of_ivar? hSlot hIvar
  refine ⟨rfl, v, hAt, ?_⟩
  rcases hFixed : v.fixed with _ | _
  · rcases hProvisional slot v hAt hFixed with ⟨hTy, hAttr⟩
    exact .inr ⟨by rw [hTy]; rfl, hAttr⟩
  · exact .inl ⟨rfl, rfl⟩

/- A field whose type is declared may be accessed. -/
theorem Program.fits_declareIvar (hIn : c.index < p.classes.size)
    (hDeclare : p.declareIvar c name ty true = (slot, p')) :
    p'.Fits c ⟨c, slot, ((p'.cls c).ivars.getD slot default).ty.held⟩ := by
  rcases (Class.FieldsLast.declareIvar (p.cls c) name ty).2 with ⟨v, hAt, hFixed⟩
  rw [declareIvar] at hDeclare
  generalize (p.cls c).declareIvar name ty true = declared at *
  rcases declared with ⟨i, k⟩
  cases hDeclare
  rw [Fits, cls_modifyClass, if_pos ⟨rfl, hIn⟩, getD_eq_getElem?_getD, hAt]
  exact ⟨rfl, v, rfl, .inl ⟨hFixed, rfl⟩⟩

/- A method of a class whose fields are in order. -/
structure Program.OwnedBy (p : Program) (m : MethodId) (c : ClassId) : Prop where
  isIn : m.index < p.methods.size
  owner_eq : (p.method m).owner = c
  classIn : c.index < p.classes.size
  provisional : (p.cls c).Provisional

theorem Program.OwnedBy.lasts (hOwned : p.OwnedBy m c) (hLasts : p.Lasts busy p') :
    p'.OwnedBy m c := by
  have hSame := hLasts.same m hOwned.isIn
  exact ⟨Nat.lt_of_lt_of_le hOwned.isIn hLasts.methods_le, hSame.owner_eq.trans hOwned.owner_eq,
    Nat.lt_of_lt_of_le hOwned.classIn hLasts.classes_le,
    (hLasts.fields c).provisional hOwned.provisional⟩

theorem Program.OwnedBy.allows (hOwned : p.OwnedBy m c) (hFits : p.Fits c a) : p.Allows m a :=
  ⟨hOwned.isIn, by rwa [hOwned.owner_eq]⟩

theorem Program.OwnedBy.owned (hOwned : p.OwnedBy m c) : p.Owned m :=
  ⟨hOwned.isIn, by rw [hOwned.owner_eq]; exact hOwned.classIn⟩

-- Changes Of Code

namespace Translation

open Code.Fragment (Accesses)
variable {Q : Access → Prop}

theorem accesses_folded (hAll : f.Accesses Q) : (f.folded fold).Accesses Q := by
  unfold Fragment.folded
  split
  · split
    · exact .leaf rfl
    · exact hAll
  · exact hAll

/- An arm with other parts. -/
theorem accesses_parts (hAll : f.Accesses Q) (hParts : ∀ c ∈ gs, c.Accesses Q) :
    Accesses Q { f with children := gs } := by
  cases hAll with
  | intro hOwn _ => exact .intro hOwn hParts

/- Changes of code add accesses of their kind only. -/
theorem Reshapes.accesses (hReshapes : Reshapes Q fs gs) (hAll : ∀ f ∈ fs, f.Accesses Q) :
    ∀ g ∈ gs, g.Accesses Q := by
  induction hReshapes with
  | refl => exact hAll
  | trans _ _ ihFirst ihSecond => exact ihSecond (ihFirst hAll)
  | append _ _ ihFirst ihSecond =>
    rw [forall_mem_append] at hAll ⊢
    exact ⟨ihFirst hAll.1, ihSecond hAll.2⟩
  | const => exact forall_mem_singleton.mpr (.leaf rfl)
  | node _ hOwn _ ih => exact forall_mem_singleton.mpr (.intro hOwn (ih hAll))
  | sequence hInstr _ _ ih =>
    refine forall_mem_singleton.mpr (.above ?_ (ih hAll))
    rcases hInstr with rfl | rfl | rfl <;> rfl
  | cond _ _ ih => exact forall_mem_singleton.mpr (.above rfl (ih hAll))
  | drop => exact forall_mem_singleton.mpr (.above rfl hAll)
  | empty => exact forall_mem_nil _
  | literal =>
    rw [forall_mem_singleton] at hAll ⊢
    exact .above rfl fun _ => hAll.child
  | retype _ hHeld =>
    rw [forall_mem_singleton] at hAll ⊢
    exact hAll.retype hHeld
  | folded =>
    rw [forall_mem_singleton] at hAll ⊢
    exact accesses_folded hAll
  | @last _ _ arm _ _ hChildren _ _ ih =>
    rw [forall_mem_singleton] at hAll ⊢
    have hParts : ∀ c ∈ arm.children, c.Accesses Q := fun _ => hAll.child
    rw [hChildren, forall_mem_append] at hParts
    exact accesses_parts hAll (forall_mem_append.mpr ⟨hParts.1, ih hParts.2⟩)
  | zero =>
    rw [forall_mem_singleton] at hAll ⊢
    refine accesses_parts hAll (forall_mem_append.mpr ⟨fun _ => hAll.child, ?_⟩)
    exact forall_mem_singleton.mpr (.leaf rfl)

-- Variables

variable {E : Env} {kind : VariableKind}

theorem Reads.accesses (hReads : Reads E p name kind f) (hOwned : p.OwnedBy E.method c) :
    f.Accesses (p.Fits c) := by
  refine Reshapes.accesses (hReads.reshapes ?_) (forall_mem_nil _) f (.head [])
  rw [hOwned.owner_eq]
  exact fun slot v hSlot hIvar => p.fits_of_ivar? hOwned.provisional hSlot hIvar

theorem Assigns.accesses (hAssigns : Assigns E name keep p f kind p' g)
    (hOwned : p.OwnedBy E.method c) (hAll : ∀ c' ∈ f.children, c'.Accesses (p.Fits c)) :
    ∀ g' ∈ [g], g'.Accesses (p'.Fits c) := by
  have hLater : ∀ c' ∈ f.children, c'.Accesses (p'.Fits c) :=
    fun c' hChild => (hAll c' hChild).mono fun a hFits => hFits.lasts hAssigns.declares.lasts
  refine Reshapes.accesses (hAssigns.reshapes ?_) hLater
  rw [hOwned.owner_eq]
  exact fun ty slot hDeclare => fits_declareIvar hOwned.classIn hDeclare

theorem Operands.accesses (hOperand : Operands E p node p' f)
    (hOwned : p.OwnedBy E.method c) : ∀ g ∈ [f], g.Accesses (p'.Fits c) := by
  cases hOperand with
  | read _ _ hReads => exact forall_mem_singleton.mpr (hReads.accesses hOwned)
  | _ => exact forall_mem_singleton.mpr (.leaf rfl)

-- Constructs

/- What is declared later lets accesses be. -/
theorem accesses_later (hAll : ∀ f ∈ fs, f.Accesses (p.Fits c)) (hDeclares : p.Declares busy p') :
    ∀ f ∈ fs, f.Accesses (p'.Fits c) :=
  fun f hMem => (hAll f hMem).mono fun _ hFits => hFits.lasts hDeclares.lasts

/- The parts of a construct that stand alone. -/
theorem accesses_alone (hAll : ∀ f ∈ gs ++ (none : Option Fragment).toList, f.Accesses Q) :
    ∀ f ∈ gs, f.Accesses Q :=
  fun f hMem => hAll f (mem_append_left _ hMem)

theorem lowers_accesses {job : Job} {out : Option Fragment} (hLowers : Lowers E job p p' gs out)
    (hOwned : p.OwnedBy E.method c) : ∀ f ∈ gs ++ out.toList, f.Accesses (p'.Fits c) := by
  induction hLowers with
  | something _ hDiscards ih => exact (hDiscards.reshapes.replace _).accesses (ih hOwned)
  | nothing _ ih | last _ ih | sequence _ _ ih => exact ih hOwned
  | done | noValues | directive => exact forall_mem_nil _
  | next hNode hRest ihNode ihRest =>
    have hFirst := lowers_declares hNode
    rw [append_assoc, forall_mem_append]
    exact ⟨accesses_later (ihNode hOwned) (lowers_declares hRest),
      ihRest (hOwned.lasts hFirst.lasts)⟩
  | value hNode _ hRest ihNode ihRest =>
    have hFirst := lowers_declares hNode
    have hHead := accesses_later (ihNode hOwned) (lowers_declares hRest)
    have hTail := ihRest (hOwned.lasts hFirst.lasts)
    simp only [Option.toList_some, Option.toList_none, append_nil, forall_mem_append,
      forall_mem_cons] at hHead hTail ⊢
    exact ⟨hHead.1, hHead.2.1, hTail⟩
  | operand hOperand => exact hOperand.accesses hOwned
  | assign _ _ _ hValue hAssigns ih =>
    exact hAssigns.accesses (hOwned.lasts (lowers_declares hValue).lasts)
      (accesses_alone (ih hOwned))
  | operatorAssign _ _ _ _ _ _ hReads hValue hApplies hAssigns ih =>
    have hFirst := lowers_declares hValue
    have hSecond : Declares none _ _ := hApplies.declares
    have hRead := accesses_later (forall_mem_singleton.mpr (hReads.accesses hOwned)) hFirst
    have hAll := accesses_later (forall_mem_append.mpr ⟨hRead, accesses_alone (ih hOwned)⟩) hSecond
    exact hAssigns.accesses ((hOwned.lasts hFirst.lasts).lasts hSecond.lasts)
      (hApplies.reshapes.accesses hAll)
  | selfCall _ _ hResolve _ hCalls ih =>
    have hNames := resolveSelfCall_namesOnly.declares hResolve
    have hNames' : Declares none _ _ := hCalls.declares
    exact hCalls.reshapes.accesses (accesses_later
      (accesses_alone (ih (hOwned.lasts hNames.lasts))) hNames')
  | classCall _ _ _ _ hResolve _ hCalls ih =>
    have hNames := resolveClassCall_namesOnly.declares hResolve
    have hNames' : Declares none _ _ := hCalls.declares
    exact hCalls.reshapes.accesses (accesses_later
      (accesses_alone (ih (hOwned.lasts hNames.lasts))) hNames')
  | castCall _ _ _ _ _ _ hCasts ih => exact (hCasts.reshapes.replace _).accesses (ih hOwned)
  | valueCall _ _ _ _ _ hApplies ih | negation _ _ _ hApplies ih =>
    have hNames : Declares none _ _ := hApplies.declares
    exact hApplies.reshapes.accesses (accesses_later (accesses_alone (ih hOwned)) hNames)
  | logical _ _ _ _ hShort ih => exact hShort.reshapes.accesses (accesses_alone (ih hOwned))
  | ifThen _ _ _ hValue _ hTests hThen hFinish ihTest ihThen =>
    have hHead := (hTests.reshapes.replace _).accesses
      (accesses_later (ihTest hOwned) (lowers_declares hThen))
    have hArm := ihThen (hOwned.lasts (lowers_declares hValue).lasts)
    refine (reshapes_conditional hFinish hTests (by simp) (by simp)).accesses ?_
    rw [append_cons, forall_mem_append, forall_mem_singleton]
    exact ⟨hHead, .above rfl hArm⟩
  | ifThenElse _ _ _ hValue _ hTests hThen hSecond hFinish ihTest ihThen ihSecond =>
    have hFirst := lowers_declares hValue
    have hNext := lowers_declares hThen
    have hLast := lowers_declares hSecond
    have hHead := (hTests.reshapes.replace _).accesses
      (accesses_later (accesses_later (ihTest hOwned) hNext) hLast)
    have hArm := accesses_later (ihThen (hOwned.lasts hFirst.lasts)) hLast
    have hOther := ihSecond ((hOwned.lasts hFirst.lasts).lasts hNext.lasts)
    refine (reshapes_conditional hFinish hTests (by simp) (by simp)).accesses ?_
    rw [append_cons, forall_mem_append, forall_mem_cons, forall_mem_singleton]
    exact ⟨hHead, .above rfl hArm, .above rfl hOther⟩
  | testedLoop _ _ hValue hBranch hBody ihTest ihBody =>
    have hHead := accesses_later (accesses_alone (ihTest hOwned)) (lowers_declares hBody)
    have hRest := ihBody (hOwned.lasts (lowers_declares hValue).lasts)
    refine forall_mem_singleton.mpr (.above rfl (forall_mem_singleton.mpr (.above rfl ?_)))
    rw [forall_mem_cons, forall_mem_append, forall_mem_singleton]
    exact ⟨.above rfl ((hBranch.reshapes.cons (.refl _)).accesses hHead), hRest, .leaf rfl⟩
  | postTestedLoop _ _ _ hBody hValue hBranch ihBody ihTest =>
    have hFirst := accesses_later (ihBody hOwned) (lowers_declares hValue)
    have hHead := accesses_alone (ihTest (hOwned.lasts (lowers_declares hBody).lasts))
    refine forall_mem_singleton.mpr (.above rfl (forall_mem_singleton.mpr (.above rfl ?_)))
    rw [forall_mem_append, forall_mem_singleton]
    exact ⟨hFirst, .above rfl ((hBranch.reshapes.cons (.refl _)).accesses hHead)⟩
  | breakLoop | nextLoop => exact forall_mem_singleton.mpr (.leaf rfl)
  | ret _ _ _ hReturns ih => exact hReturns.reshapes.accesses (accesses_alone (ih hOwned))

theorem lowersBody_accesses (hBody : LowersBody E nodes p p' gs)
    (hOwned : p.OwnedBy E.method c) : ∀ f ∈ gs, f.Accesses (p'.Fits c) := by
  induction hBody with
  | nil => exact forall_mem_nil _
  | last hNode => exact lowers_accesses hNode hOwned
  | next hNode hRest ih =>
    rw [forall_mem_append]
    exact ⟨accesses_later (lowers_accesses hNode hOwned) (lowersBody_declares hRest),
      ih (hOwned.lasts (lowers_declares hNode).lasts)⟩

end Translation

end RubyWat
