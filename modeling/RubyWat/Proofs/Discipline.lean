import RubyWat.Proofs.Arrange
import RubyWat.Proofs.Reshaping

/-
  Values that statements leave behind.

  Code is neat if in every sequence of it only the last part may leave a value, and if every
  drop has one value to drop. All code that the rules of the translation allow is neat. What
  stands in front of the value of a construct leaves nothing, and neither does a construct whose
  value is not wanted.

  Main statements:
    * `Translation.lowers_orderly`
    * `Translation.Coded.neat`
-/

-- Neat Fragments

namespace RubyWat

open Code List Option

variable {arm c f g : Fragment}
variable {instr : Instr} {n : NodeId} {node : Dump.Node}
variable {fs gs : List Fragment}
variable {out : Option Fragment} {p p' : Program}
variable {E : Translation.Env}

namespace Code

namespace Instr

/- Whether an instruction groups classes and methods. -/
def isOuter : Instr → Bool
  | root | classBody _ | function _ => true
  | _ => false

/- Whether the children of an instruction run one by one. -/
def isSequence : Instr → Bool
  | thenArm | elseArm | block | loop => true
  | _ => false

/- Whether neatness asks nothing of an instruction. -/
def isSimple (instr : Instr) : Bool :=
  !instr.isOuter && !instr.isSequence && decide (instr ≠ .drop)

theorem isSimple_of_isInner (hInner : instr.isInner = true) : instr.isSimple = true := by
  cases instr <;> first | rfl | cases hInner

end Instr

/- What neatness asks of the top of a fragment. -/
structure Tidy (f : Fragment) : Prop where
  inner : f.instr.isOuter = false
  sequence : f.instr.isSequence = true → BlankUntilLast f.children
  drop : f.instr = .drop → f.ty = .none ∧ ∃ c, f.children = [c] ∧ c.ty ≠ .none

/- A fragment that is tidy everywhere. -/
inductive Neat : Fragment → Prop where
  | intro {f : Fragment} (hTidy : Tidy f) (hChildren : ∀ c ∈ f.children, Neat c) : Neat f

namespace BlankUntilLast

theorem of_blank (hBlank : ∀ f ∈ fs, f.ty = .none) : BlankUntilLast fs :=
  fun f hMem => hBlank f (dropLast_subset fs hMem)

/- What has no value may stand in front of anything. -/
theorem append (hBlank : ∀ f ∈ fs, f.ty = .none) : BlankUntilLast (fs ++ [g]) := by
  intro f hMem
  rw [dropLast_concat] at hMem
  exact hBlank f hMem

theorem single (f : Fragment) : BlankUntilLast [f] := by
  simp [BlankUntilLast]

theorem append_left (hBlank : ∀ f ∈ fs, f.ty = .none) (hLast : BlankUntilLast gs) :
    BlankUntilLast (fs ++ gs) := by
  by_cases hNil : gs = []
  · rw [hNil, append_nil]
    exact of_blank hBlank
  · rw [BlankUntilLast, dropLast_append_of_ne_nil hNil, forall_mem_append]
    exact ⟨hBlank, hLast⟩

theorem append_toList (hBlank : ∀ f ∈ fs, f.ty = .none) : BlankUntilLast (fs ++ out.toList) := by
  cases out with
  | none =>
    rw [toList_none, append_nil]
    exact of_blank hBlank
  | some g => exact append hBlank

/- The last fragment does not matter. -/
theorem replace (hBlank : BlankUntilLast (fs ++ [g])) : BlankUntilLast (fs ++ [h]) := by
  intro f hMem
  rw [dropLast_concat] at hMem
  refine hBlank f ?_
  rw [dropLast_concat]
  exact hMem

end BlankUntilLast

namespace Neat

theorem tidy (hNeat : Neat f) : Tidy f := by
  cases hNeat
  assumption

theorem child (hNeat : Neat f) (hChild : c ∈ f.children) : Neat c := by
  cases hNeat with
  | intro _ hChildren => exact hChildren c hChild

/- An instruction of which nothing is asked. -/
theorem plain (hSimple : f.instr.isSimple = true) (hChildren : ∀ c ∈ f.children, Neat c) :
    Neat f := by
  simp only [Instr.isSimple, Bool.and_eq_true, Bool.not_eq_true', decide_eq_true_eq] at hSimple
  rcases hSimple with ⟨⟨hOuter, hSequence⟩, hDrop⟩
  refine .intro ⟨hOuter, ?_, ?_⟩ hChildren
  · intro hIs
    rw [hSequence] at hIs
    contradiction
  · intro hIs
    exact absurd hIs hDrop

theorem leaf (hSimple : instr.isSimple = true) : Neat (.leaf n instr ty) :=
  plain hSimple (by simp)

/- An instruction whose children run one by one. -/
theorem sequence (hSequence : f.instr.isSequence = true) (hBlank : BlankUntilLast f.children)
    (hChildren : ∀ c ∈ f.children, Neat c) : Neat f := by
  refine .intro ⟨?_, fun _ => hBlank, ?_⟩ hChildren
  · cases hInstr : f.instr <;> simp_all [Instr.isSequence, Instr.isOuter]
  · intro hIs
    simp [hIs, Instr.isSequence] at hSequence

/- A value of another type, where there is one. -/
theorem retype (hNeat : Neat f) (hNone : f.ty ≠ .none) (ty : ValueType) : Neat { f with ty } := by
  have hTidy := hNeat.tidy
  refine .intro ⟨hTidy.inner, hTidy.sequence, ?_⟩ fun _ => hNeat.child
  intro hIs
  exact absurd (hTidy.drop hIs).1 hNone

end Neat

end Code

-- Changes Of Neat Code

namespace Translation

/- A value that is not wanted is gone. -/
theorem Discards.blank (hDiscards : Discards false f g) : g.ty = .none := by
  cases hDiscards with
  | keep hKeep => simpa using hKeep
  | drop => rfl

theorem neat_folded (hNeat : Neat f) : Neat (f.folded fold) := by
  unfold Fragment.folded
  split
  · split
    · exact .leaf rfl
    · exact hNeat
  · exact hNeat

/- Nothing leaves a value if the last fragment does not. -/
theorem blank_of_lastType? (hTy : f.lastType? = none) (hBlank : BlankUntilLast f.children) :
    ∀ c ∈ f.children, c.ty = .none := by
  rcases eq_nil_or_concat f.children with hNil | ⟨cs, c, hEq⟩
  · simp [hNil]
  rw [concat_eq_append] at hEq
  have hLast : c.ty = .none := by
    by_contra hNone
    rw [Fragment.lastType?_of_value hEq hNone] at hTy
    contradiction
  rw [BlankUntilLast, hEq, dropLast_concat] at hBlank
  rw [hEq]
  intro g hMem
  rcases mem_append.mp hMem with hOld | hNew
  · exact hBlank g hOld
  · rw [mem_singleton.mp hNew]
    exact hLast

/- What leaves a value is no drop, and an arm is none either. -/
theorem ne_drop_of_isArm (hArm : arm.IsArm) (hNeat : Neat arm) : arm.instr ≠ .drop := by
  intro hIs
  rcases hArm with hNone | hThen | hElse
  · exact hNone (hNeat.tidy.drop hIs).1
  · simp [hIs] at hThen
  · simp [hIs] at hElse

/- An arm stays neat with other parts if its sequence does. -/
theorem neat_parts (hArm : arm.IsArm) (hNeat : Neat arm) (hParts : ∀ g ∈ gs, Neat g)
    (hBlank : BlankUntilLast arm.children → BlankUntilLast gs) :
    Neat { arm with children := gs } := by
  have hDrop := ne_drop_of_isArm hArm hNeat
  exact .intro ⟨hNeat.tidy.inner, fun hIs => hBlank (hNeat.tidy.sequence hIs),
    fun hIs => absurd hIs hDrop⟩ hParts

/- All changes of code keep it neat. -/
theorem Reshapes.neat (hReshapes : Reshapes (fun _ => True) fs gs) (hNeat : ∀ f ∈ fs, Neat f) :
    ∀ g ∈ gs, Neat g := by
  induction hReshapes with
  | refl => exact hNeat
  | trans _ _ ihFirst ihSecond => exact ihSecond (ihFirst hNeat)
  | append _ _ ihFirst ihSecond =>
    rw [forall_mem_append] at hNeat ⊢
    exact ⟨ihFirst hNeat.1, ihSecond hNeat.2⟩
  | const => exact forall_mem_singleton.mpr (.leaf rfl)
  | node hInner _ _ ih =>
    exact forall_mem_singleton.mpr (.plain (Instr.isSimple_of_isInner hInner) (ih hNeat))
  | sequence hInstr hBlank _ ih =>
    refine forall_mem_singleton.mpr (.sequence ?_ hBlank (ih hNeat))
    rcases hInstr with rfl | rfl | rfl <;> rfl
  | cond _ _ ih => exact forall_mem_singleton.mpr (.plain rfl (ih hNeat))
  | empty => exact forall_mem_nil _
  | literal =>
    rw [forall_mem_singleton] at hNeat ⊢
    exact .plain rfl fun _ => hNeat.child
  | retype hNone =>
    rw [forall_mem_singleton] at hNeat ⊢
    exact hNeat.retype hNone _
  | folded =>
    rw [forall_mem_singleton] at hNeat ⊢
    exact neat_folded hNeat
  | @drop _ f hNone =>
    refine forall_mem_singleton.mpr (.intro ⟨rfl, ?_, ?_⟩ hNeat)
    · intro hIs
      simp [Instr.isSequence] at hIs
    · exact fun _ => ⟨rfl, f, rfl, hNone⟩
  | @last _ _ arm _ hArm hChildren _ _ ih =>
    rw [forall_mem_singleton] at hNeat ⊢
    have hAll : ∀ c ∈ arm.children, Neat c := fun _ => hNeat.child
    rw [hChildren, forall_mem_append] at hAll
    refine neat_parts hArm hNeat (forall_mem_append.mpr ⟨hAll.1, ih hAll.2⟩) ?_
    rw [hChildren]
    exact .replace
  | zero hArm hTy =>
    rw [forall_mem_singleton] at hNeat ⊢
    refine neat_parts hArm hNeat ?_ fun hBlank => .append (blank_of_lastType? hTy hBlank)
    rw [forall_mem_append]
    exact ⟨fun _ => hNeat.child, forall_mem_singleton.mpr (.leaf rfl)⟩

theorem Reshapes.neat_single (hReshapes : Reshapes (fun _ => True) [f] [g]) (hNeat : Neat f) :
    Neat g :=
  hReshapes.neat (forall_mem_singleton.mpr hNeat) g (.head [])

/- An arm that leaves one value and does nothing else. -/
theorem neat_arm (hSequence : instr.isSequence = true) (hNeat : Neat f) :
    Neat ⟨n, instr, .none, [f]⟩ := by
  exact .sequence hSequence (.single f) (by simpa using hNeat)

-- Constructs

/- Neat fragments that leave nothing behind. -/
def Quiet (fs : List Fragment) : Prop :=
  ∀ f ∈ fs, Neat f ∧ f.ty = .none

/-
  What holds of the code of a job.  Only the fragment at its
  end may leave a value, and none does if it is not wanted.
-/
def Orderly : Job → List Fragment → Option Fragment → Prop
  | .node _ keep, gs, out
  | .statements _ keep, gs, out => Quiet gs ∧ ∀ f ∈ out, Neat f ∧ (keep = false → f.ty = .none)
  | .code _ _, gs, out => Quiet gs ∧ ∀ f ∈ out, Neat f
  | .values _, gs, _ => ∀ g ∈ gs, Neat g

namespace Quiet

theorem nil : Quiet [] := by
  simp [Quiet]

theorem cons (hRest : Quiet fs) (hNeat : Neat f) (hBlank : f.ty = .none) : Quiet (f :: fs) := by
  rw [Quiet, forall_mem_cons]
  exact ⟨⟨hNeat, hBlank⟩, hRest⟩

theorem append (hFirst : Quiet fs) (hSecond : Quiet gs) : Quiet (fs ++ gs) := by
  rw [Quiet, forall_mem_append]
  exact ⟨hFirst, hSecond⟩

theorem neat (hQuiet : Quiet fs) : ∀ f ∈ fs, Neat f :=
  fun f hMem => (hQuiet f hMem).1

theorem blank (hQuiet : Quiet fs) : ∀ f ∈ fs, f.ty = .none :=
  fun f hMem => (hQuiet f hMem).2

end Quiet

/- One construct that is neat. -/
theorem orderly_neat (hNeat : Neat f) : Orderly (.code node keep) [] (some f) :=
  ⟨.nil, by simpa using hNeat⟩

/- One construct whose code is made of neat code. -/
theorem orderly_some (hReshapes : Reshapes (fun _ => True) fs [f]) (hNeat : ∀ f ∈ fs, Neat f) :
    Orderly (.code node keep) [] (some f) :=
  orderly_neat (hReshapes.neat hNeat f (.head []))

theorem neat_toList {P : Fragment → Prop} (hNeat : ∀ f ∈ out, Neat f ∧ P f) :
    ∀ f ∈ out.toList, Neat f := by
  intro f hMem
  exact (hNeat f (mem_toList.mp hMem)).1

/- An unwanted value at the end is like what stands before it. -/
theorem quiet_toList (hOut : ∀ f ∈ out, Neat f ∧ (false = false → f.ty = .none)) :
    Quiet out.toList := by
  intro f hMem
  have hF := hOut f (mem_toList.mp hMem)
  exact ⟨hF.1, hF.2 rfl⟩

/- An arm of a conditional with its statements in it. -/
theorem neat_statements {P : Fragment → Prop} (hSequence : instr.isSequence = true)
    (hQuiet : Quiet gs) (hOut : ∀ f ∈ out, Neat f ∧ P f) :
    Neat ⟨n, instr, .none, gs ++ out.toList⟩ := by
  refine .sequence hSequence (.append_toList hQuiet.blank) ?_
  rw [forall_mem_append]
  exact ⟨hQuiet.neat, neat_toList hOut⟩

/- A loop whose body leaves nothing but its last branch. -/
theorem neat_loop (hQuiet : Quiet gs) (hLast : Neat last) :
    Neat ⟨block, .block, .none, [⟨loop, .loop, .none, gs ++ [last]⟩]⟩ := by
  refine neat_arm rfl (.sequence rfl (.append hQuiet.blank) ?_)
  rw [forall_mem_append]
  exact ⟨hQuiet.neat, by simpa using hLast⟩

/- A branch whose children are a condition. -/
theorem neat_branch (hBranch : BranchesOn fold negate c c') (hNeat : ∀ g ∈ c :: cs, Neat g) :
    Neat ⟨n, .brIf target, .none, c' :: cs⟩ := by
  exact .plain rfl ((hBranch.reshapes.cons (.refl cs)).neat hNeat)

/- All code of the translation is neat. -/
theorem lowers_orderly (hLowers : Lowers E job p p' gs out) : Orderly job gs out := by
  induction hLowers with
  | something _ hDiscards ih =>
    refine ⟨ih.1, ?_⟩
    intro f hMem
    cases hMem
    refine ⟨hDiscards.reshapes.neat_single (ih.2 _ rfl), ?_⟩
    rintro rfl
    exact hDiscards.blank
  | nothing _ ih => exact ⟨ih.1, by simp⟩
  | done | directive => exact ⟨.nil, by simp⟩
  | last _ ih => exact ih
  | next _ _ ihNode ihRest =>
    exact ⟨(ihNode.1.append (quiet_toList ihNode.2)).append ihRest.1, ihRest.2⟩
  | noValues => exact Quiet.nil.neat
  | value _ _ _ ihNode ihRest =>
    show ∀ g ∈ _, Neat g
    rw [forall_mem_append, forall_mem_cons]
    exact ⟨ihNode.1.neat, (ihNode.2 _ rfl).1, ihRest⟩
  | sequence _ _ ih => exact ⟨ih.1, fun f hMem => (ih.2 f hMem).1⟩
  | operand hOperand =>
    exact orderly_some (hOperand.reshapes fun _ _ hRead => hRead.reshapes fun _ _ _ _ => trivial)
      (forall_mem_nil _)
  | assign _ _ _ _ hAssigns ih => exact orderly_some (hAssigns.reshapes fun _ _ _ => trivial) ih
  | operatorAssign _ _ _ _ _ _ hReads _ hApplies hAssigns ih =>
    have hRead : Reshapes (fun _ => True) [] _ := hReads.reshapes fun _ _ _ _ => trivial
    exact orderly_some ((hRead.idle_cons (.refl _)).trans (hApplies.reshapes.trans
      (hAssigns.reshapes fun _ _ _ => trivial))) ih
  | selfCall _ _ _ _ hCalls ih
  | classCall _ _ _ _ _ _ hCalls ih => exact orderly_some hCalls.reshapes ih
  | castCall _ _ _ _ _ _ hCasts ih =>
    refine ⟨ih.1, ?_⟩
    intro f hMem
    cases hMem
    exact hCasts.reshapes.neat_single (ih.2 _ rfl).1
  | valueCall _ _ _ _ _ hApplies ih => exact orderly_some hApplies.reshapes ih
  | negation _ _ _ hApplies ih => exact orderly_some hApplies.reshapes ih
  | logical _ _ _ _ hShort ih => exact orderly_some hShort.reshapes ih
  | ifThen _ _ _ _ _ hTests _ hFinish ihTest ihThen =>
    have hTest := hTests.reshapes.neat_single (ihTest.2 _ rfl).1
    refine orderly_some (reshapes_conditional hFinish hTests (by simp) (by simp)) ?_
    rw [forall_mem_append, forall_mem_cons, forall_mem_singleton]
    exact ⟨ihTest.1.neat, hTest, neat_statements rfl ihThen.1 ihThen.2⟩
  | ifThenElse _ _ _ _ _ hTests _ _ hFinish ihTest ihThen ihElse =>
    have hTest := hTests.reshapes.neat_single (ihTest.2 _ rfl).1
    refine orderly_some (reshapes_conditional hFinish hTests (by simp) (by simp)) ?_
    rw [forall_mem_append, forall_mem_cons, forall_mem_cons, forall_mem_singleton]
    exact ⟨ihTest.1.neat, hTest, neat_statements rfl ihThen.1 ihThen.2,
      neat_statements rfl ihElse.1 ihElse.2⟩
  | testedLoop _ _ _ hBranch _ ihTest ihBody =>
    have hBody := ihBody.1.append (quiet_toList ihBody.2)
    exact orderly_neat (neat_loop (hBody.cons (neat_branch hBranch ihTest) rfl) (.leaf rfl))
  | postTestedLoop _ _ _ _ _ hBranch ihBody ihTest =>
    exact orderly_neat (neat_loop (ihBody.1.append (quiet_toList ihBody.2))
      (neat_branch hBranch ihTest))
  | breakLoop => exact orderly_neat (.leaf rfl)
  | nextLoop => exact orderly_neat (.leaf rfl)
  | ret _ _ _ hReturns ih => exact orderly_some hReturns.reshapes ih

-- Methods

/- Neat fragments of which only the last may leave a value. -/
structure NeatBody (fs : List Fragment) : Prop where
  neat : ∀ f ∈ fs, Neat f
  blank : BlankUntilLast fs

/- The statements of a method in order. -/
theorem lowersBody_neat (hBody : LowersBody E nodes p p' fs) : NeatBody fs := by
  induction hBody with
  | nil => exact ⟨by simp, by simp [BlankUntilLast]⟩
  | last hNode =>
    have hOrder := lowers_orderly hNode
    refine ⟨?_, .append_toList hOrder.1.blank⟩
    rw [forall_mem_append]
    exact ⟨hOrder.1.neat, neat_toList hOrder.2⟩
  | next hNode _ ih =>
    have hOrder := lowers_orderly hNode
    have hQuiet := hOrder.1.append (quiet_toList hOrder.2)
    refine ⟨?_, .append_left hQuiet.blank ih.blank⟩
    rw [forall_mem_append]
    exact ⟨hQuiet.neat, ih.neat⟩

theorem Finishes.neat (hFinish : Finishes result gs fs) (hBody : NeatBody gs) : NeatBody fs := by
  refine ⟨hFinish.reshapes.neat hBody.neat, ?_⟩
  cases hFinish with
  | empty | terminated => exact hBody.blank
  | blank | value => exact hBody.blank.replace

theorem Provides.neat {c : ClassId} (hProvides : Provides c name scope fs) : NeatBody fs := by
  refine ⟨hProvides.reshapes.neat (forall_mem_nil _), ?_⟩
  cases hProvides with
  | size | reader | writer => exact .single _
  | initializer => simp [BlankUntilLast]
  | constructor _ _ _ hDiscards => simp [BlankUntilLast, hDiscards.blank]

/- All methods have neat code. -/
theorem Coded.neat (hCoded : Coded fs) : NeatBody fs := by
  cases hCoded with
  | written hBody hFinish => exact hFinish.neat (lowersBody_neat hBody)
  | provided hProvides => exact hProvides.neat

end Translation

end RubyWat
