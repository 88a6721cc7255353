import RubyWat.Proofs.ResolutionOrder

/-
  Resolution orders that classes keep.

  Key definitions: `Program.SameLinks`, `Program.arrange`, `Program.Quietly`, `Program.Current`.

  A class that is closed keeps its resolution order, and only opening the class itself makes it
  forget the order.  A mixin that comes to a class later is missing in the orders that the
  classes below it keep.

  Main statement: as long as nothing is mixed into a class that a closed class has in its order,
  the order in force is the one that follows from the mixins (`kept_orders_current`).  A module
  that is included into a superclass after the subclass was closed is lost there
  (`late_include_lost`).
-/

-- What An Order Depends On

namespace RubyWat.Program

open Option Nat

variable {p q : Program} {c d : ClassId} {w : Walked} {fuel : Nat}

/- Whether two programs search the same on behalf of a class. -/
def SameLinks (p q : Program) (c : ClassId) : Prop :=
  q.classesBefore c = p.classesBefore c ∧ q.classesAfter c = p.classesAfter c

/- A walk depends on the classes that it meets. -/
theorem Walks.congr (hWalks : p.Walks cs w w')
    (hSame : ∀ d ∈ w'.seen, d ∉ w.seen → SameLinks p q d) : q.Walks cs w w' := by
  induction hWalks with
  | done => exact .done
  | pass hSeen _ ih => exact .pass hSeen (ih hSame)
  | visit hUnseen hBefore hAfter hRest ihBefore ihAfter ihRest =>
    have hMet := hBefore.seen_subset
    have hPast := List.Subset.trans hAfter.seen_subset hRest.seen_subset
    rcases hSame _ (hPast (hMet (.head _))) hUnseen with ⟨hSameB, hSameA⟩
    have hBefore' := ihBefore fun d hD hNew => hSame d (hPast hD) fun hOld => hNew (.tail _ hOld)
    have hAfter' := ihAfter fun d hD hNew => hSame d (hRest.seen_subset hD) fun hOld =>
      hNew (hMet (.tail _ hOld))
    rw [← hSameB] at hBefore'
    rw [← hSameA] at hAfter'
    exact .visit hUnseen hBefore' hAfter' (ihRest fun d hD hNew => hSame d hD fun hOld =>
      hNew (hAfter.seen_subset (hMet (.tail _ hOld))))

/- The resolution order depends on the classes in it. -/
theorem computeAncestors_congr (hSame : ∀ d ∈ p.computeAncestors c, SameLinks p q d) :
    q.computeAncestors c = p.computeAncestors c := by
  rcases p.exists_walks c with ⟨w, hWalks, hOrder⟩
  rcases q.exists_walks c with ⟨w', hWalks', hOrder'⟩
  rw [hOrder] at hSame ⊢
  have hCongr : q.Walks [c] {} w := hWalks.congr fun d hMet hNew =>
    hSame d (List.mem_reverse.mpr (hWalks.closed hMet hNew).1)
  rw [hOrder', hWalks'.unique hCongr]

-- Programs In The Making

/- A step in the making of a program. -/
inductive Arrangement where
  | define (name : String) (lexical : ClassId) (kind : ClassKind)
      (superclass : Option ClassId) (span : Span)
  | mix (c module : ClassId) (how : Mixin) (span : Span)
  | close (c : ClassId)

def hasClass (p : Program) (c : ClassId) : Bool :=
  c.index < p.classes.size

/- What a step makes of a program, if it succeeds. -/
def arrange (p : Program) : Arrangement → Option Program
  | .define name lexical kind superclass span =>
    if p.hasClass lexical && superclass.all p.hasClass then
      (p.defineClass name lexical kind superclass span).toOption.map Prod.snd
    else none
  | .mix c module how span =>
    if p.hasClass c && p.hasClass module then (p.mixIn c module how span).toOption
    else none
  | .close c => if p.hasClass c then some (p.finalize c) else none

/- What steps in a row make of a program. -/
def arrangeAll (p : Program) (steps : List Arrangement) : Option Program :=
  steps.foldlM arrange p

/-
  Whether a mixin changes the order of no closed class: it is for the class itself, it is there
  already, or no closed class has the class it goes to in its order.
-/
def Undisturbed (p : Program) (c module : ClassId) (how : Mixin) : Prop :=
  how = .extend ∨ (how = .include ∧ module ∈ (p.cls c).included)
    ∨ (how = .prepend ∧ module ∈ (p.cls c).prepended)
    ∨ ∀ k ∈ p.classIds, (p.cls k).finalized = true → c ∉ p.computeAncestors k

instance (p : Program) (c module : ClassId) (how : Mixin) :
    Decidable (p.Undisturbed c module how) :=
  inferInstanceAs (Decidable (_ ∨ _))

/- Whether a step is no disturbing mixin. -/
def Tolerates (p : Program) : Arrangement → Prop
  | .mix c module how _ => p.Undisturbed c module how
  | .define _ _ _ _ _ | .close _ => True

instance (p : Program) : (step : Arrangement) → Decidable (p.Tolerates step)
  | .mix c module how _ => inferInstanceAs (Decidable (p.Undisturbed c module how))
  | .define _ _ _ _ _ | .close _ => .isTrue trivial

/- Whether no step in a row is a disturbing mixin. -/
def Quietly : Program → List Arrangement → Prop
  | _, [] => True
  | p, step :: steps => p.Tolerates step ∧ ∀ p' ∈ p.arrange step, Quietly p' steps

def decideQuietly : (p : Program) → (steps : List Arrangement) → Decidable (Quietly p steps)
  | _, [] => .isTrue trivial
  | p, step :: steps =>
    have := fun p' => decideQuietly p' steps
    inferInstanceAs (Decidable (p.Tolerates step ∧ ∀ p' ∈ p.arrange step, Quietly p' steps))

instance (p : Program) (steps : List Arrangement) : Decidable (Quietly p steps) :=
  decideQuietly p steps

/-
  Whether classes refer to classes of the program, and closed
  ones keep the order that follows from the mixins.
-/
structure Current (p : Program) : Prop where
  inside : ∀ c d, p.Above c d → d.index < p.classes.size
  kept : ∀ c, (p.cls c).finalized = true → (p.cls c).cachedAncestors = p.computeAncestors c

theorem Current.ancestors_eq (hCurrent : p.Current) (c : ClassId) :
    p.ancestors c = p.computeAncestors c := by
  simp only [ancestors]
  split
  · rename_i hClosed
    rw [Bool.and_eq_true] at hClosed
    exact hCurrent.kept c hClosed.1
  · rfl

/- Only classes of the program are closed. -/
theorem index_lt_of_finalized (hClosed : (p.cls c).finalized = true) :
    c.index < p.classes.size := by
  by_contra hOut
  have hClass : p.cls c = default := by simp [cls, Array.getD_eq_getD_getElem?, not_lt.mp hOut]
  rw [hClass] at hClosed
  exact Bool.noConfusion hClosed

theorem Current.empty (base : Nat) : (Program.empty base).Current := by
  have hObject : ∀ c : ClassId, c.index < (Program.empty base).classes.size → c = objectClass := by
    rintro ⟨index⟩ hIn
    have hZero : index < 1 := hIn
    rw [objectClass, lt_one_iff.mp hZero]
  refine ⟨fun c d hAbove => ?_, fun c hClosed => ?_⟩
  · rw [hObject c hAbove.index_lt] at hAbove
    simp [Above, classesBefore, classesAfter, Program.empty, cls, objectClass] at hAbove
  · rw [hObject c (index_lt_of_finalized hClosed)]
    rfl

-- What Keeps Orders Current

variable {k : ClassId}

/- Nothing changes if classes refer to what they referred to. -/
theorem Current.of_sameLinks (hCurrent : p.Current) (hSize : p'.classes.size = p.classes.size)
    (hLinks : ∀ c, SameLinks p p' c)
    (hKept : ∀ c, (p'.cls c).finalized = true → (p'.cls c).cachedAncestors = p.computeAncestors c) :
    p'.Current where
  inside c d hAbove := by
    rw [Above, (hLinks c).1, (hLinks c).2] at hAbove
    rw [hSize]
    exact hCurrent.inside c d hAbove
  kept c hClosed := by rw [hKept c hClosed, computeAncestors_congr fun d _ => hLinks d]

/- A class whose mixins and superclass stay. -/
theorem sameLinks_modifyClass (hPrepended : (f (p.cls c)).prepended = (p.cls c).prepended)
    (hIncluded : (f (p.cls c)).included = (p.cls c).included)
    (hSuperclass : (f (p.cls c)).superclass = (p.cls c).superclass) (k : ClassId) :
    SameLinks p (p.modifyClass c f) k := by
  rw [SameLinks, classesBefore, classesAfter, cls_modifyClass]
  split
  · rename_i hEq
    rw [hEq.1, hPrepended, hIncluded, hSuperclass]
    exact ⟨rfl, rfl⟩
  · exact ⟨rfl, rfl⟩

/- All classes but one refer to what they referred to. -/
theorem sameLinks_modifyClass_of_ne (hNe : k ≠ c) : SameLinks p (p.modifyClass c f) k := by
  rw [SameLinks, classesBefore, classesAfter, cls_modifyClass, if_neg fun hEq => hNe hEq.1]
  exact ⟨rfl, rfl⟩

theorem size_modifyClass : (p.modifyClass c f).classes.size = p.classes.size := by
  simp [modifyClass]

/- A class that is opened keeps no order. -/
theorem Current.reopened (hCurrent : p.Current) (c : ClassId) :
    (p.modifyClass c fun k => { k with finalized := false }).Current := by
  refine hCurrent.of_sameLinks size_modifyClass
    (sameLinks_modifyClass rfl rfl rfl) fun k hClosed => ?_
  rw [cls_modifyClass] at hClosed ⊢
  split at hClosed
  · cases hClosed
  · rename_i hOther
    rw [if_neg hOther]
    exact hCurrent.kept k hClosed

/- A class that is closed keeps the order that it has then. -/
theorem Current.finalize (hCurrent : p.Current) (c : ClassId) : (p.finalize c).Current := by
  refine hCurrent.of_sameLinks size_modifyClass
    (sameLinks_modifyClass rfl rfl rfl) fun k hClosed => ?_
  rw [Program.finalize, cls_modifyClass] at hClosed ⊢
  split at hClosed
  · rename_i hSelf
    rw [if_pos hSelf, hSelf.1]
  · rename_i hOther
    rw [if_neg hOther]
    exact hCurrent.kept k hClosed

/- A new class is in no order yet. -/
theorem Current.push (hCurrent : p.Current) (x : Class) (hOpen : x.finalized = false)
    (hPrepended : x.prepended = []) (hIncluded : x.included = [])
    (hSuperclass : ∀ s ∈ x.superclass, s.index < p.classes.size) :
    (p.pushClass x).Current := by
  set q : Program := p.pushClass x with hQ
  have hSize : q.classes.size = p.classes.size + 1 := Array.size_push x
  have hPush : ∀ k, q.cls k = if k.index = p.classes.size then x else p.cls k := cls_push rfl
  have hOld : ∀ k : ClassId, k.index < p.classes.size → q.cls k = p.cls k := by
    intro k hIn
    rw [hPush, if_neg hIn.ne]
  have hNew : ∀ k : ClassId, ¬k.index < p.classes.size →
      k.index < q.classes.size → q.cls k = x := by
    intro k hOut hIn
    rw [hPush, if_pos (by omega)]
  refine ⟨fun c d hAbove => ?_, fun c hClosed => ?_⟩
  · have hIn := hAbove.index_lt
    rw [hSize]
    by_cases hC : c.index < p.classes.size
    · rw [Above, classesBefore, classesAfter, hOld c hC] at hAbove
      exact lt_succ_of_lt (hCurrent.inside c d hAbove)
    · rw [Above, classesBefore, classesAfter, hNew c hC hIn, hPrepended, hIncluded] at hAbove
      exact lt_succ_of_lt (hSuperclass d (by simpa using hAbove))
  · have hIn := index_lt_of_finalized hClosed
    by_cases hC : c.index < p.classes.size
    · rw [hOld c hC] at hClosed ⊢
      rw [hCurrent.kept c hClosed]
      refine (computeAncestors_congr fun d hD => ?_).symm
      have hInside : d.index < p.classes.size := by
        cases mem_computeAncestors.mp hD with
        | refl => exact hC
        | tail _ hAbove => exact hCurrent.inside _ d hAbove
      rw [SameLinks, classesBefore, classesAfter, hOld d hInside]
      exact ⟨rfl, rfl⟩
    · rw [hNew c hC hIn, hOpen] at hClosed
      cases hClosed

/- Opening a class, be it new or not. -/
theorem Current.defineClass (hCurrent : p.Current) (hLexical : lexical.index < p.classes.size)
    (hSuperclass : ∀ s ∈ superclass, s.index < p.classes.size)
    (hDefine : p.defineClass name lexical kind superclass span = .ok (c, p')) : p'.Current := by
  rcases hFound : p.findClass? (p.childPath lexical name) with _ | k
  · simp only [Program.defineClass, hFound] at hDefine
    cases hDefine
    refine hCurrent.push _ rfl rfl rfl fun s hS => ?_
    cases kind with
    | mixin => cases hS
    | cls =>
      cases hS
      rcases superclass with _ | s
      · exact (zero_le _).trans_lt hLexical
      · exact hSuperclass s rfl
  · rcases reopenClass_ok hFound hDefine with ⟨rfl, rfl⟩
    exact hCurrent.reopened _

theorem mem_of_mem_addOnce (hMem : d ∈ addOnce c cs) : d ∈ cs ∨ d = c := by
  rw [addOnce] at hMem
  split at hMem
  · exact .inl hMem
  · simpa using hMem

theorem addOnce_of_mem (hMem : c ∈ cs) : addOnce c cs = cs := by
  rw [addOnce, if_pos (by simpa using hMem)]

/- Mixing in adds at most the module to what is searched. -/
theorem Above.of_mixed (hAbove : (p.modifyClass c (mixed module how)).Above k d) :
    p.Above k d ∨ d = module := by
  rw [Above, classesBefore, classesAfter, cls_modifyClass] at hAbove
  split at hAbove
  · rename_i hSelf
    rw [hSelf.1, Above, classesBefore, classesAfter]
    simp only [List.mem_reverse, List.mem_append] at hAbove ⊢
    rcases how with _ | _ | _
    · rcases hAbove with hD | hD | hD
      · exact .inl (.inl hD)
      · exact (mem_of_mem_addOnce hD).imp_left fun h => .inr (.inl h)
      · exact .inl (.inr (.inr hD))
    · rcases hAbove with hD | hD
      · exact (mem_of_mem_addOnce hD).imp_left .inl
      · exact .inl (.inr hD)
    · exact .inl hAbove
  · exact .inl hAbove

/- Mixins leave alone what a class keeps. -/
theorem kept_mixed (k : ClassId) :
    ((p.modifyClass c (mixed module how)).cls k).finalized = (p.cls k).finalized
      ∧ ((p.modifyClass c (mixed module how)).cls k).cachedAncestors
        = (p.cls k).cachedAncestors := by
  rw [cls_modifyClass]
  split
  · rename_i hSelf
    rw [hSelf.1]
    cases how <;> exact ⟨rfl, rfl⟩
  · exact ⟨rfl, rfl⟩

/- Mixins that change the order of no closed class. -/
theorem Current.mixIn (hCurrent : p.Current) (hModule : module.index < p.classes.size)
    (hQuiet : p.Undisturbed c module how) (hMix : p.mixIn c module how span = .ok p') :
    p'.Current := by
  rw [mixIn_ok hMix]
  refine ⟨fun k d hAbove => ?_, fun k hClosed => ?_⟩
  · rw [size_modifyClass]
    rcases hAbove.of_mixed with hAbove | rfl
    · exact hCurrent.inside k d hAbove
    · exact hModule
  · rw [(kept_mixed k).1] at hClosed
    rw [(kept_mixed k).2, hCurrent.kept k hClosed]
    refine (computeAncestors_congr fun d hD => ?_).symm
    rcases hQuiet with rfl | ⟨rfl, hThere⟩ | ⟨rfl, hThere⟩ | hAway
    · exact sameLinks_modifyClass rfl rfl rfl d
    · exact sameLinks_modifyClass rfl (addOnce_of_mem hThere) rfl d
    · exact sameLinks_modifyClass (addOnce_of_mem hThere) rfl rfl d
    refine sameLinks_modifyClass_of_ne fun hEq => ?_
    have hClass : k ∈ p.classIds :=
      List.mem_map.mpr ⟨k.index, List.mem_range.mpr (index_lt_of_finalized hClosed), rfl⟩
    rw [hEq] at hD
    exact hAway k hClass hClosed hD

/- A step keeps the orders current if it is no disturbing mixin. -/
theorem Current.arrange (hCurrent : p.Current) (hQuiet : p.Tolerates step)
    (hStep : p.arrange step = some p') : p'.Current := by
  cases step with
  | define name lexical kind superclass span =>
    simp only [Program.arrange, ite_none_right_eq_some, Bool.and_eq_true, hasClass,
      decide_eq_true_eq, map_eq_some_iff] at hStep
    rcases hStep with ⟨⟨hLexical, hSuperclass⟩, ⟨c, q⟩, hDefine, rfl⟩
    refine hCurrent.defineClass hLexical (fun s hS => ?_) (toOption_eq_some.mp hDefine)
    rw [mem_def.mp hS] at hSuperclass
    simpa [hasClass] using hSuperclass
  | mix c module how span =>
    simp only [Program.arrange, ite_none_right_eq_some,
      Bool.and_eq_true, hasClass, decide_eq_true_eq] at hStep
    exact hCurrent.mixIn hStep.1.2 hQuiet (toOption_eq_some.mp hStep.2)
  | close c =>
    simp only [Program.arrange, ite_none_right_eq_some] at hStep
    rcases hStep with ⟨-, hStep⟩
    cases hStep
    exact hCurrent.finalize c

/- Quiet steps in a row keep the orders current. -/
theorem Current.arrangeAll (hCurrent : p.Current)
    (hQuiet : Quietly p steps) (hSteps : p.arrangeAll steps = some p') : p'.Current := by
  induction steps generalizing p with
  | nil =>
    cases hSteps
    exact hCurrent
  | cons step steps ih =>
    rw [Program.arrangeAll, List.foldlM_cons] at hSteps
    rcases bind_eq_some_iff.mp hSteps with ⟨q, hStep, hRest⟩
    exact ih (hCurrent.arrange hQuiet.1 hStep) (hQuiet.2 q hStep) hRest

/-
  As long as mixins change the order of no closed class, the
  order in force follows from the mixins of all classes.
-/
theorem kept_orders_current (base : Nat) (steps : List Arrangement) (p : Program)
    (hSteps : (empty base).arrangeAll steps = some p) (hQuiet : Quietly (empty base) steps)
    (c : ClassId) : p.ancestors c = p.computeAncestors c :=
  ((Current.empty base).arrangeAll hQuiet hSteps).ancestors_eq c

/- A module, a class that includes it while it is open, and its subclass. -/
def earlyInclude : List Arrangement :=
  [.define "M" objectClass .mixin none .generated,
    .close ⟨1⟩,
    .define "A" objectClass .cls none .generated,
    .mix ⟨2⟩ ⟨1⟩ .include .generated,
    .close ⟨2⟩,
    .define "B" objectClass .cls (some ⟨2⟩) .generated,
    .close ⟨3⟩]

theorem earlyInclude_current :
    Quietly (empty 0) earlyInclude ∧ ∃ p, (empty 0).arrangeAll earlyInclude = some p
        ∧ p.ancestors ⟨3⟩ = p.computeAncestors ⟨3⟩ := by
  have hQuiet : Quietly (empty 0) earlyInclude := by decide +kernel
  have hSome : ((empty 0).arrangeAll earlyInclude).isSome = true := by decide +kernel
  rcases isSome_iff_exists.mp hSome with ⟨p, hSteps⟩
  exact ⟨hQuiet, p, hSteps, kept_orders_current 0 earlyInclude p hSteps hQuiet ⟨3⟩⟩

/-
  The same module, class and subclass, all of them closed before
  the class is opened again and includes the module.
-/
def lateInclude : List Arrangement :=
  [.define "M" objectClass .mixin none .generated,
    .close ⟨1⟩,
    .define "A" objectClass .cls none .generated,
    .close ⟨2⟩,
    .define "B" objectClass .cls (some ⟨2⟩) .generated,
    .close ⟨3⟩,
    .define "A" objectClass .cls none .generated,
    .mix ⟨2⟩ ⟨1⟩ .include .generated,
    .close ⟨2⟩]

/- The subclass still has the order without the module. -/
theorem late_include_lost : ((empty 0).arrangeAll lateInclude).map
        (fun p => (p.ancestors ⟨3⟩, p.computeAncestors ⟨3⟩))
      = some ([⟨3⟩, ⟨2⟩, ⟨0⟩], [⟨3⟩, ⟨2⟩, ⟨1⟩, ⟨0⟩]) := by
  decide +kernel

end RubyWat.Program
