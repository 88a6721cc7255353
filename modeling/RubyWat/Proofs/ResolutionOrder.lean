import Mathlib.Logic.Relation
import Mathlib.Order.WellFoundedSet
import RubyWat.Proofs.Names

/-
  The order in which methods are looked up.

  Key definitions: `Program.Above`, `Program.Walks`, `Program.Acyclic`, `Program.Searches`.

  The order of a class is listed by one walk over its mixins and superclasses, which passes by
  what it met before.  The rule for looking a method up has no such memory: it searches
  prepended modules, the class itself, included modules and the superclass, each of them by the
  same rule.

  Main statements: the walk ends, and it lists each class that is searched once
  (`resolution_order_complete`).  What it passes by is listed already, so that the first class
  on the list that has a method is the one that the rule finds (`resolution_order_searches`).
-/

-- Steps Of A Walk

namespace RubyWat

open Option

variable {c : ClassId} {fuel : Nat}
variable {p : Program} {w' : Program.Walked}

namespace Program

/- The classes that are searched before a class. -/
def classesBefore (p : Program) (c : ClassId) : List ClassId :=
  (p.cls c).prepended.reverse

/- The classes that are searched after a class. -/
def classesAfter (p : Program) (c : ClassId) : List ClassId :=
  (p.cls c).included.reverse ++ (p.cls c).superclass.toList

/- Whether a class is searched directly on behalf of another. -/
def Above (p : Program) (c d : ClassId) : Prop :=
  d ∈ p.classesBefore c ∨ d ∈ p.classesAfter c

/- A walk that has met a class. -/
def Walked.meet (w : Walked) (c : ClassId) : Walked :=
  { w with seen := c :: w.seen }

def Walked.list (w : Walked) (c : ClassId) : Walked :=
  { w with listed := c :: w.listed }

/- Add several classes to a walk. -/
def collectAll (p : Program) (fuel : Nat) (cs : List ClassId) (w : Walked) : Walked :=
  cs.foldl (fun w c => p.collect fuel c w) w

variable {q : Program} {w : Walked}

theorem collectAll_cons (cs : List ClassId) :
    p.collectAll fuel (c :: cs) w = p.collectAll fuel cs (p.collect fuel c w) :=
  rfl

theorem collect_of_seen (hSeen : c ∈ w.seen) : p.collect fuel c w = w := by
  cases fuel with
  | zero => rfl
  | succ fuel => simp [collect, hSeen]

theorem collect_of_unseen (hUnseen : c ∉ w.seen) :
    p.collect (fuel + 1) c w = p.collectAll fuel (p.classesAfter c)
          ((p.collectAll fuel (p.classesBefore c) (w.meet c)).list c) := by
  simp only [collectAll, classesAfter, classesBefore, List.foldl_append, Walked.meet, Walked.list]
  rw [collect, if_neg (by simpa using hUnseen)]
  dsimp only
  rcases (p.cls c).superclass with _ | s
  · rfl
  · rfl

/- Nothing is searched on behalf of a class that is not there. -/
theorem classesBefore_of_size_le (hOut : p.classes.size ≤ c.index) : p.classesBefore c = [] := by
  have hClass : p.cls c = default := by simp [cls, Array.getD_eq_getD_getElem?, hOut]
  rw [classesBefore, hClass]
  rfl

theorem classesAfter_of_size_le (hOut : p.classes.size ≤ c.index) : p.classesAfter c = [] := by
  have hClass : p.cls c = default := by simp [cls, Array.getD_eq_getD_getElem?, hOut]
  rw [classesAfter, hClass]
  rfl

theorem Above.index_lt (hAbove : p.Above c d) : c.index < p.classes.size := by
  by_contra hOut
  rw [Above, classesBefore_of_size_le (not_lt.mp hOut),
    classesAfter_of_size_le (not_lt.mp hOut)] at hAbove
  simp at hAbove

-- Walks To The End

/-
  A walk over classes, from what was met and listed before it to
  what is after it.  It passes by what it met, and has no bound.
-/
inductive Walks (p : Program) : List ClassId → Walked → Walked → Prop where
  | done {w : Walked} : Walks p [] w w
  | pass {c : ClassId} {cs : List ClassId} {w w' : Walked} (hSeen : c ∈ w.seen)
      (hRest : Walks p cs w w') : Walks p (c :: cs) w w'
  | visit {c : ClassId} {cs : List ClassId} {w w₁ w₂ w' : Walked} (hUnseen : c ∉ w.seen)
      (hBefore : Walks p (p.classesBefore c) (w.meet c) w₁)
      (hAfter : Walks p (p.classesAfter c) (w₁.list c) w₂) (hRest : Walks p cs w₂ w') :
      Walks p (c :: cs) w w'

variable {cs : List ClassId}

theorem Walks.seen_subset (hWalks : p.Walks cs w w') : w.seen ⊆ w'.seen := by
  induction hWalks with
  | done => exact List.Subset.refl _
  | pass _ _ ih => exact ih
  | visit _ _ _ _ ihBefore ihAfter ihRest =>
    exact fun k hK => ihRest (ihAfter (ihBefore (.tail _ hK)))

/- The classes that a walk can still meet. -/
def unmet (p : Program) (w : Walked) : Finset Nat :=
  (Finset.range p.classes.size).filter (ClassId.mk · ∉ w.seen)

theorem unmet_card_le (p : Program) (w : Walked) : (p.unmet w).card ≤ p.classes.size :=
  (Finset.card_filter_le _ _).trans_eq (Finset.card_range _)

theorem unmet_anti (hSeen : w.seen ⊆ w'.seen) : p.unmet w' ⊆ p.unmet w := by
  intro i hNew
  simp only [unmet, Finset.mem_filter] at hNew ⊢
  exact ⟨hNew.1, fun hOld => hNew.2 (hSeen hOld)⟩

/- A class that is met for the first time is one less to meet. -/
theorem unmet_meet_ssubset (hIn : c.index < p.classes.size) (hUnseen : c ∉ w.seen) :
    p.unmet (w.meet c) ⊂ p.unmet w := by
  have hOld : c.index ∈ p.unmet w := by simpa [unmet] using ⟨hIn, hUnseen⟩
  have hNew : c.index ∉ p.unmet (w.meet c) := by simp [unmet, Walked.meet]
  exact ⟨unmet_anti (List.subset_cons_self _ _), fun h => hNew (h hOld)⟩

/- With fuel for what it can meet, a walk comes to its end. -/
theorem walks_collectAll (hEnough : (p.unmet w).card < fuel) (cs : List ClassId) :
    p.Walks cs w (p.collectAll fuel cs w) := by
  induction fuel generalizing cs w with
  | zero => omega
  | succ fuel ih =>
    induction cs generalizing w with
    | nil => exact .done
    | cons c cs ihRest =>
      rw [collectAll_cons]
      by_cases hSeen : c ∈ w.seen
      · rw [collect_of_seen hSeen]
        exact .pass hSeen (ihRest hEnough)
      rw [collect_of_unseen hSeen]
      have hUp : ∀ ds w', (∀ d ∈ ds, p.Above c d) → (w.meet c).seen ⊆ w'.seen →
          p.Walks ds w' (p.collectAll fuel ds w') := by
        intro ds w' hAbove hSub
        cases ds with
        | nil => exact .done
        | cons d ds =>
          have hIn := (hAbove d (.head _)).index_lt
          have hLess := (Finset.card_le_card (unmet_anti hSub)).trans_lt
            (Finset.card_lt_card (unmet_meet_ssubset hIn hSeen))
          exact ih (by omega) _
      have hBefore := hUp (p.classesBefore c) (w.meet c) (fun _ => .inl) fun _ => id
      have hAfter := hUp (p.classesAfter c)
        ((p.collectAll fuel (p.classesBefore c) (w.meet c)).list c) (fun _ => .inr)
        hBefore.seen_subset
      refine .visit hSeen hBefore hAfter (ihRest (lt_of_le_of_lt ?_ hEnough))
      refine Finset.card_le_card (unmet_anti fun k hK => ?_)
      exact hAfter.seen_subset (hBefore.seen_subset (.tail _ hK))

theorem Walks.unique (hWalks : p.Walks cs w w') (hOther : p.Walks cs w w'') : w' = w'' := by
  induction hWalks generalizing w'' with
  | done =>
    cases hOther
    rfl
  | pass hSeen _ ih =>
    cases hOther with
    | pass _ hRest => exact ih hRest
    | visit hUnseen => exact absurd hSeen hUnseen
  | visit hUnseen _ _ _ ihBefore ihAfter ihRest =>
    cases hOther with
    | pass hSeen => exact absurd hSeen hUnseen
    | visit _ hBefore hAfter hRest =>
      cases ihBefore hBefore
      cases ihAfter hAfter
      exact ihRest hRest

/- The resolution order is what the walk for a class lists. -/
theorem exists_walks (p : Program) (c : ClassId) :
    ∃ w, p.Walks [c] {} w ∧ p.computeAncestors c = w.listed.reverse :=
  ⟨_, walks_collectAll (Nat.lt_succ_of_le (p.unmet_card_le _)) [c], rfl⟩

theorem Walks.split (hWalks : p.Walks (cs ++ ds) w w'') :
    ∃ w', p.Walks cs w w' ∧ p.Walks ds w' w'' := by
  induction cs generalizing w with
  | nil => exact ⟨w, .done, hWalks⟩
  | cons c cs ih =>
    cases hWalks with
    | pass hSeen hRest =>
      rcases ih hRest with ⟨w', hFirst, hSecond⟩
      exact ⟨w', .pass hSeen hFirst, hSecond⟩
    | visit hUnseen hBefore hAfter hRest =>
      rcases ih hRest with ⟨w', hFirst, hSecond⟩
      exact ⟨w', .visit hUnseen hBefore hAfter hFirst, hSecond⟩

-- What A Walk Lists

section

variable (hWalks : p.Walks cs w w')
include hWalks

theorem Walks.listed_subset : w.listed ⊆ w'.listed := by
  induction hWalks with
  | done => exact List.Subset.refl _
  | pass _ _ ih => exact ih
  | visit _ _ _ _ ihBefore ihAfter ihRest =>
    exact fun k hK => ihRest (ihAfter (.tail _ (ihBefore hK)))

theorem Walks.met : cs ⊆ w'.seen := by
  induction hWalks with
  | done => exact List.nil_subset _
  | pass hSeen hRest ih => exact List.cons_subset.mpr ⟨hRest.seen_subset hSeen, ih⟩
  | visit _ hBefore hAfter hRest _ _ ihRest =>
    refine List.cons_subset.mpr ⟨hRest.seen_subset (hAfter.seen_subset ?_), ihRest⟩
    exact hBefore.seen_subset (.head _)

/- All that a walk lists is searched on behalf of its classes. -/
theorem Walks.reached (hListed : d ∈ w'.listed) :
    d ∈ w.listed ∨ ∃ c ∈ cs, Relation.ReflTransGen p.Above c d := by
  induction hWalks with
  | done => exact .inl hListed
  | pass _ _ ih => exact (ih hListed).imp_right fun ⟨k, hK, hWay⟩ => ⟨k, .tail _ hK, hWay⟩
  | visit _ _ _ _ ihBefore ihAfter ihRest =>
    rcases ihRest hListed with hListed | ⟨k, hK, hWay⟩
    · rcases ihAfter hListed with hListed | ⟨k, hK, hWay⟩
      · rcases List.mem_cons.mp hListed with rfl | hListed
        · exact .inr ⟨d, (.head _), .refl⟩
        · exact (ihBefore hListed).imp_right fun ⟨k, hK, hWay⟩ =>
            ⟨_, (.head _), .head (.inl hK) hWay⟩
      · exact .inr ⟨_, (.head _), .head (.inr hK) hWay⟩
    · exact .inr ⟨k, .tail _ hK, hWay⟩

/- A walk lists what it meets for the first time, and only once. -/
theorem Walks.nodup (hNodup : w.listed.Nodup) (hMet : w.listed ⊆ w.seen) :
    w'.listed.Nodup ∧ w'.listed ⊆ w'.seen ∧ ∀ d ∈ w.seen, d ∈ w'.listed → d ∈ w.listed := by
  induction hWalks with
  | done => exact ⟨hNodup, hMet, fun _ _ => id⟩
  | pass _ _ ih => exact ih hNodup hMet
  | @visit c cs w w₁ w₂ w' hUnseen hBefore hAfter hRest ihBefore ihAfter ihRest =>
    rcases ihBefore hNodup fun d hD => .tail _ (hMet hD) with ⟨hNodupB, hMetB, hOldB⟩
    have hSelf : c ∉ w₁.listed := fun hListed => hUnseen (hMet (hOldB c (.head _) hListed))
    rcases ihAfter (List.nodup_cons.mpr ⟨hSelf, hNodupB⟩)
      (List.cons_subset.mpr ⟨hBefore.seen_subset (.head _), hMetB⟩) with
      ⟨hNodupA, hMetA, hOldA⟩
    rcases ihRest hNodupA hMetA with ⟨hNodupR, hMetR, hOldR⟩
    refine ⟨hNodupR, hMetR, fun d hSeen hListed => ?_⟩
    have hSeenB := hBefore.seen_subset (.tail c hSeen)
    rcases List.mem_cons.mp (hOldA d hSeenB (hOldR d (hAfter.seen_subset hSeenB) hListed)) with
      rfl | hListed
    · exact absurd hSeen hUnseen
    · exact hOldB d (.tail _ hSeen) hListed

/- A class that a walk met is listed, and what is above it is met. -/
theorem Walks.closed (hMet : d ∈ w'.seen) (hNew : d ∉ w.seen) :
    d ∈ w'.listed ∧ ∀ k, p.Above d k → k ∈ w'.seen := by
  induction hWalks with
  | done => exact absurd hMet hNew
  | pass _ _ ih => exact ih hMet hNew
  | @visit c cs w w₁ w₂ w' _ hBefore hAfter hRest ihBefore ihAfter ihRest =>
    by_cases hRestNew : d ∉ w₂.seen
    · exact ihRest hMet hRestNew
    have hDone : d ∈ w₂.listed ∧ ∀ k, p.Above d k → k ∈ w₂.seen := by
      by_cases hAfterNew : d ∉ w₁.seen
      · exact ihAfter (not_not.mp hRestNew) hAfterNew
      by_cases hSelf : d = c
      · subst hSelf
        refine ⟨hAfter.listed_subset (.head _), fun k hAbove => ?_⟩
        rcases hAbove with hK | hK
        · exact hAfter.seen_subset (hBefore.met hK)
        · exact hAfter.met hK
      · rcases ihBefore (not_not.mp hAfterNew) (by simp [Walked.meet, hSelf, hNew]) with
          ⟨hListed, hUp⟩
        exact ⟨hAfter.listed_subset (.tail _ hListed), fun k hAbove =>
          hAfter.seen_subset (hUp k hAbove)⟩
    exact ⟨hRest.listed_subset hDone.1, fun k hAbove => hRest.seen_subset (hDone.2 k hAbove)⟩

end

theorem mem_computeAncestors : d ∈ p.computeAncestors c ↔ Relation.ReflTransGen p.Above c d := by
  rcases p.exists_walks c with ⟨w, hWalks, hOrder⟩
  rw [hOrder, List.mem_reverse]
  constructor
  · intro hListed
    rcases hWalks.reached hListed with hNone | ⟨k, hK, hWay⟩
    · cases hNone
    · exact List.mem_singleton.mp hK ▸ hWay
  · intro hWay
    suffices hMet : d ∈ w.seen from (hWalks.closed hMet List.not_mem_nil).1
    induction hWay with
    | refl => exact hWalks.met (.head _)
    | tail _ hAbove ih => exact (hWalks.closed ih List.not_mem_nil).2 _ hAbove

/-
  The resolution order of a class, also where modules mix each other in.  The walk for it ends,
  and it lists the class and all that is searched on its behalf, each of them once.
-/
theorem resolution_order_complete (p : Program) (c : ClassId) :
    (∃ w, p.Walks [c] {} w ∧ p.computeAncestors c = w.listed.reverse) ∧ (p.computeAncestors c).Nodup
      ∧ ∀ d, d ∈ p.computeAncestors c ↔ Relation.ReflTransGen p.Above c d := by
  rcases p.exists_walks c with ⟨w, hWalks, hOrder⟩
  refine ⟨⟨w, hWalks, hOrder⟩, ?_, fun d => mem_computeAncestors⟩
  rw [hOrder, List.nodup_reverse]
  exact (hWalks.nodup List.nodup_nil (List.nil_subset _)).1

/- Two modules that include each other. -/
example : computeAncestors
    { classes :=
        #[{ name := "M", path := "M", kind := .mixin, included := [⟨1⟩] },
          { name := "N", path := "N", kind := .mixin, included := [⟨0⟩] }]
      data := { cursor := 0 } } ⟨1⟩ = [⟨1⟩, ⟨0⟩] := by
  decide

-- The Rule

/- Whether a class itself has an instance method under a name. -/
def defines (p : Program) (name : String) (c : ClassId) : Bool :=
  (p.ownMethod? c name .onInstance).isSome

/-
  The class that is found when classes are searched one after the other: for each of them the
  prepended modules from the latest to the oldest, the class itself, the included modules from
  the latest to the oldest, and the superclass.
-/
inductive Searches (p : Program) (name : String) : List ClassId → Option ClassId → Prop
  | nothing : Searches p name [] none
  | next {c : ClassId} {cs : List ClassId} {prepended included inherited rest : Option ClassId}
      (hPrepended : Searches p name (p.cls c).prepended.reverse prepended)
      (hIncluded : Searches p name (p.cls c).included.reverse included)
      (hInherited : Searches p name (p.cls c).superclass.toList inherited)
      (hRest : Searches p name cs rest) :
      Searches p name (c :: cs) (prepended <|> (if p.defines name c then some c else none)
          <|> included <|> inherited <|> rest)

/- Whether no class is searched on its own behalf. -/
def Acyclic (p : Program) : Prop :=
  ∀ c, ¬Relation.TransGen p.Above c c

variable {name : String}
variable {found : Option ClassId}

/- Classes in a row are searched one after the other. -/
theorem Searches.append (hFirst : p.Searches name cs found) (hRest : p.Searches name ds rest) :
    p.Searches name (cs ++ ds) (found <|> rest) := by
  induction hFirst with
  | nothing => simpa using hRest
  | next hPrepended hIncluded hInherited _ _ _ _ ih =>
    simpa only [Option.orElse_eq_orElse, Option.orElse_eq_or, Option.or_assoc, List.cons_append]
      using Searches.next hPrepended hIncluded hInherited ih

/- A class that is searched alone. -/
theorem Searches.single (hPrepended : p.Searches name (p.cls c).prepended.reverse prepended)
    (hIncluded : p.Searches name (p.cls c).included.reverse included)
    (hInherited : p.Searches name (p.cls c).superclass.toList inherited) :
    p.Searches name [c] (prepended <|> (if p.defines name c then some c else none)
        <|> included <|> inherited) := by
  have hSearch := Searches.next hPrepended hIncluded hInherited .nothing
  simpa only [orElse_eq_orElse, orElse_eq_or, or_none] using hSearch

/- What is found has the method and is searched on the way. -/
theorem Searches.of_found (hSearch : p.Searches name cs found) (hFound : found = some d) :
    p.defines name d = true ∧ ∃ c ∈ cs, Relation.ReflTransGen p.Above c d := by
  induction hSearch with
  | nothing => cases hFound
  | @next c cs _ _ _ _ _ _ _ _ ihPrepended ihIncluded ihInherited ihRest =>
    have hUp : ∀ {k}, p.Above c k → Relation.ReflTransGen p.Above k d →
        ∃ c' ∈ c :: cs, Relation.ReflTransGen p.Above c' d :=
      fun hAbove hWay => ⟨c, (.head _), .head hAbove hWay⟩
    simp only [orElse_eq_orElse, orElse_eq_or, or_eq_some_iff] at hFound
    rcases hFound with hFound | ⟨-, hFound | ⟨-, hFound | ⟨-, hFound | ⟨-, hFound⟩⟩⟩⟩
    · rcases ihPrepended hFound with ⟨hHas, k, hK, hWay⟩
      exact ⟨hHas, hUp (.inl hK) hWay⟩
    · split at hFound
      · rename_i hHas
        cases hFound
        exact ⟨hHas, _, (.head _), .refl⟩
      · cases hFound
    · rcases ihIncluded hFound with ⟨hHas, k, hK, hWay⟩
      exact ⟨hHas, hUp (.inr (List.mem_append_left _ hK)) hWay⟩
    · rcases ihInherited hFound with ⟨hHas, k, hK, hWay⟩
      exact ⟨hHas, hUp (.inr (List.mem_append_right _ hK)) hWay⟩
    · rcases ihRest hFound with ⟨hHas, k, hK, hWay⟩
      exact ⟨hHas, k, List.mem_cons_of_mem _ hK, hWay⟩

-- Where The Search Ends

/- Without a cycle, every way up from a class ends. -/
theorem Acyclic.acc (hAcyclic : p.Acyclic) (c : ClassId) : Acc (fun d c => p.Above c d) c := by
  let inside : Set ClassId := { c | c.index < p.classes.size }
  let order : ClassId → ClassId → Prop := fun d c => Relation.TransGen p.Above c d
  have hFinite : inside.Finite := by
    refine ((Set.finite_lt_nat p.classes.size).image ClassId.mk).subset ?_
    exact fun k hK => ⟨k.index, hK, rfl⟩
  have : IsStrictOrder ClassId order :=
    { irrefl := hAcyclic, trans := fun _ _ _ h h' => h'.trans h }
  have hOutside : ∀ k ∉ inside, Acc (fun d c => p.Above c d) k :=
    fun k hOut => ⟨_, fun _ hAbove => absurd hAbove.index_lt hOut⟩
  have hInside : ∀ k ∈ inside, Acc (fun d c => p.Above c d) k := by
    intro k hIn
    have hWell : inside.WellFoundedOn order := hFinite.wellFoundedOn
    refine hWell.induction hIn fun k _ ih => ⟨_, fun d hAbove => ?_⟩
    by_cases hD : d ∈ inside
    · exact ih d hD (.single hAbove)
    · exact hOutside d hD
  by_cases hIn : c ∈ inside
  · exact hInside c hIn
  · exact hOutside c hIn

/- Without a cycle, the rule comes to an answer. -/
theorem Acyclic.exists_searches (hAcyclic : p.Acyclic) (name : String) (c : ClassId) :
    ∃ found, p.Searches name [c] found := by
  induction hAcyclic.acc c with
  | intro c _ ih =>
    have hAll : ∀ cs : List ClassId, (∀ d ∈ cs, p.Above c d) →
        ∃ found, p.Searches name cs found := by
      intro cs
      induction cs with
      | nil => exact fun _ => ⟨none, .nothing⟩
      | cons d cs ihAll =>
        intro hAbove
        rcases ih d (hAbove d (.head _)) with ⟨first, hFirst⟩
        rcases ihAll fun k hK => hAbove k (.tail _ hK) with ⟨rest, hRest⟩
        exact ⟨_, hFirst.append hRest⟩
    rcases hAll (p.cls c).prepended.reverse fun d hD => .inl hD with ⟨prepended, hPrepended⟩
    rcases hAll (p.cls c).included.reverse fun d hD =>
      .inr (List.mem_append_left _ hD) with ⟨included, hIncluded⟩
    rcases hAll (p.cls c).superclass.toList fun d hD =>
      .inr (List.mem_append_right _ hD) with ⟨inherited, hInherited⟩
    exact ⟨_, .single hPrepended hIncluded hInherited⟩

-- The Walk Follows The Rule

/- The first class that a walk has listed and that has a method. -/
def firstListed (p : Program) (name : String) (w : Walked) : Option ClassId :=
  w.listed.reverse.find? (p.defines name)

/-
  Whether a walk has listed all that the classes it met stand
  for, but for classes that it is still under way for.
-/
def Settles (p : Program) (under : List ClassId) (w : Walked) : Prop :=
  ∀ c ∈ w.seen, c ∈ under ∨ ∀ d, Relation.ReflTransGen p.Above c d → d ∈ w.listed

/- What a walk over classes does if the rule finds a class there. -/
structure Follows (p : Program) (name : String) (under cs : List ClassId)
    (found : Option ClassId) (w w' : Walked) : Prop where
  settles : p.Settles under w'
  listed : w.listed ⊆ w'.listed
  reached : ∀ c ∈ cs, ∀ d, Relation.ReflTransGen p.Above c d → d ∈ w'.listed
  first : p.firstListed name w' = (p.firstListed name w <|> found)

theorem firstListed_list (w : Walked) (c : ClassId) :
    p.firstListed name (w.list c) = (p.firstListed name w
          <|> if p.defines name c then some c else none) := by
  simp only [firstListed, Walked.list, List.reverse_cons, List.find?_append, List.find?_singleton,
    orElse_eq_orElse, orElse_eq_or]

/- A listed class that has the method is not the first in vain. -/
theorem firstListed_isSome (hListed : c ∈ w.listed) (hHas : p.defines name c = true) :
    (p.firstListed name w).isSome = true := by
  rw [firstListed, List.find?_isSome]
  exact ⟨c, List.mem_reverse.mpr hListed, hHas⟩

theorem Follows.append (hFirst : p.Follows name under cs found w w')
    (hRest : p.Follows name under ds rest w' w'') :
    p.Follows name under (cs ++ ds) (found <|> rest) w w'' where
  settles := hRest.settles
  listed := List.Subset.trans hFirst.listed hRest.listed
  reached c hC d hWay := by
    rcases List.mem_append.mp hC with hC | hC
    · exact hRest.listed (hFirst.reached c hC d hWay)
    · exact hRest.reached c hC d hWay
  first := by
    rw [hRest.first, hFirst.first]
    simp only [Option.orElse_eq_orElse, Option.orElse_eq_or, Option.or_assoc]

/- A class that was met before adds nothing that is not listed. -/
theorem Follows.seen (hSettles : p.Settles under w) (hSearch : p.Searches name [c] found)
    (hSeen : c ∈ w.seen) (hAway : c ∉ under) : p.Follows name under [c] found w w := by
  have hReached := (hSettles c hSeen).resolve_left hAway
  refine ⟨hSettles, List.Subset.refl _, ?_, ?_⟩
  · intro k hK
    rw [List.mem_singleton.mp hK]
    exact hReached
  · rcases hFound : found with _ | d
    · simp
    rcases hSearch.of_found hFound with ⟨hHas, k, hK, hWay⟩
    rw [List.mem_singleton.mp hK] at hWay
    rcases isSome_iff_exists.mp (firstListed_isSome (hReached d hWay) hHas) with ⟨first, hFirst⟩
    rw [hFirst]
    rfl

/-
  A class that is met for the first time is under way while the
  walk is with the classes before and after it.
-/
theorem Follows.visit
    (hBefore : p.Follows name (c :: under) (p.classesBefore c) before (w.meet c) w')
    (hAfter : p.Follows name (c :: under) (p.classesAfter c) after (w'.list c) w'') :
    p.Follows name under [c] (before <|> (if p.defines name c then some c else none) <|> after)
      w w'' := by
  have hOwn : w'.listed ⊆ w''.listed := List.Subset.trans (List.subset_cons_self c _) hAfter.listed
  have hReached : ∀ d, Relation.ReflTransGen p.Above c d → d ∈ w''.listed := by
    intro d hWay
    rcases hWay.cases_head with rfl | ⟨k, hAbove, hWay⟩
    · exact hAfter.listed (.head _)
    · rcases hAbove with hK | hK
      · exact hOwn (hBefore.reached k hK d hWay)
      · exact hAfter.reached k hK d hWay
  refine ⟨?_, List.Subset.trans hBefore.listed hOwn, ?_, ?_⟩
  · intro k hSeen
    rcases hAfter.settles k hSeen with hUnder | hListed
    · rcases List.mem_cons.mp hUnder with rfl | hUnder
      · exact .inr hReached
      · exact .inl hUnder
    · exact .inr hListed
  · intro k hK
    rw [List.mem_singleton.mp hK]
    exact hReached
  · have hSame : p.firstListed name (w.meet c) = p.firstListed name w :=
      rfl
    rw [hAfter.first, firstListed_list, hBefore.first, hSame]
    simp only [Option.orElse_eq_orElse, Option.orElse_eq_or, Option.or_assoc]

/-
  A walk over classes does what the rule says, as long as none of
  them leads to a class that the walk is under way for.
-/
theorem Searches.follows (hAcyclic : p.Acyclic) (hSearch : p.Searches name cs found)
    (hWalks : p.Walks cs w w') (hSettles : p.Settles under w)
    (hAway : ∀ c ∈ cs, ∀ d ∈ under, ¬Relation.ReflTransGen p.Above c d) :
    p.Follows name under cs found w w' := by
  induction hSearch generalizing under w w' with
  | nothing =>
    cases hWalks
    exact ⟨hSettles, List.Subset.refl _, by simp, by simp⟩
  | @next c cs prepended included inherited _ hPrepended hIncluded hInherited _
      ihPrepended ihIncluded ihInherited ihRest =>
    -- what is searched for the class leads back to nothing under way
    have hUp : ∀ k, p.Above c k → ∀ d ∈ c :: under, ¬Relation.ReflTransGen p.Above k d := by
      intro k hAbove d hD hWay
      rcases List.mem_cons.mp hD with rfl | hD
      · exact hAcyclic _ (.head' hAbove hWay)
      · exact hAway c (.head _) d hD (.head hAbove hWay)
    have hClass : ∃ w₂, p.Walks cs w₂ w' ∧ p.Follows name under [c] (prepended
        <|> (if p.defines name c then some c else none) <|> included <|> inherited) w w₂ := by
      cases hWalks with
      | pass hSeen hRest =>
        exact ⟨w, hRest, .seen hSettles (.single hPrepended hIncluded hInherited) hSeen
          fun hUnder => hAway c (.head _) c hUnder .refl⟩
      | visit _ hBefore hAfter hRest =>
        rcases hAfter.split with ⟨w₂, hFirst, hLast⟩
        have hMet : p.Settles (c :: under) (w.meet c) := by
          intro k hK
          rcases List.mem_cons.mp hK with rfl | hK
          · exact .inl (.head _)
          · exact (hSettles k hK).imp_left (List.mem_cons_of_mem _)
        have hPast := ihPrepended hBefore hMet fun k hK => hUp k (.inl hK)
        have hIncludes := ihIncluded hFirst
          (fun k hK => (hPast.settles k hK).imp_right fun hAll d hWay =>
            List.mem_cons_of_mem _ (hAll d hWay))
          fun k hK => hUp k (.inr (List.mem_append_left _ hK))
        have hInherits := ihInherited hLast hIncludes.settles fun k hK =>
          hUp k (.inr (List.mem_append_right _ hK))
        exact ⟨_, hRest, .visit hPast (hIncludes.append hInherits)⟩
    rcases hClass with ⟨w₂, hRest, hClass⟩
    have hOthers := ihRest hRest hClass.settles fun k hK => hAway k (.tail _ hK)
    simpa only [Option.orElse_eq_orElse, Option.orElse_eq_or, Option.or_assoc,
      List.singleton_append] using hClass.append hOthers

/- Classes that refer to earlier ones only have no cycle. -/
theorem Acyclic.of_earlier (hEarlier : ∀ i < p.classes.size,
      ∀ d ∈ p.classesBefore ⟨i⟩ ++ p.classesAfter ⟨i⟩, d.index < i) :
    p.Acyclic := by
  have hStep : ∀ {c d}, p.Above c d → d.index < c.index := fun hAbove =>
    hEarlier _ hAbove.index_lt _ (List.mem_append.mpr hAbove)
  have hWay : ∀ {c d}, Relation.TransGen p.Above c d → d.index < c.index := by
    intro c d hWay
    induction hWay with
    | single hAbove => exact hStep hAbove
    | tail _ hAbove ih => exact (hStep hAbove).trans ih
  exact fun c hCycle => lt_irrefl _ (hWay hCycle)

/-
  Where no class is searched on its own behalf, the first class in the resolution order that has
  a method is the one that the rule finds.
-/
theorem resolution_order_searches (p : Program) (hAcyclic : p.Acyclic)
    (c : ClassId) (name : String) (found : Option ClassId) :
    p.Searches name [c] found ↔ (p.computeAncestors c).find? (p.defines name) = found := by
  have hWalk : ∀ {found}, p.Searches name [c] found →
      (p.computeAncestors c).find? (p.defines name) = found := by
    intro found hSearch
    rcases p.exists_walks c with ⟨w, hWalks, hOrder⟩
    have hEmpty : p.Settles [] {} := fun _ hNone => absurd hNone List.not_mem_nil
    have hFirst := (hSearch.follows hAcyclic hWalks hEmpty (by simp)).first
    simpa [firstListed, hOrder] using hFirst
  refine ⟨hWalk, fun hFirst => ?_⟩
  rcases hAcyclic.exists_searches name c with ⟨found', hSearch⟩
  rwa [← hFirst, hWalk hSearch]

/-
  A class that mixes a module in directly, through a prepended module and through its
  superclass.  The module and the superclass have a method of one name.
-/
def diamond : Program :=
  { classes := #[
      { name := "Object", path := "Object", kind := .cls },
      { name := "M", path := "M", kind := .mixin },
      { name := "P", path := "P", kind := .mixin, included := [⟨1⟩] },
      { name := "A", path := "A", kind := .cls, included := [⟨1⟩], superclass := some objectClass },
      { name := "B", path := "B", kind := .cls, included := [⟨1⟩], prepended := [⟨2⟩],
        superclass := some ⟨3⟩ }]
    methods := #[
      { name := "f", owner := ⟨3⟩, scope := .onInstance },
      { name := "f", owner := ⟨1⟩, scope := .onInstance }]
    methodByName := [
      ((⟨3⟩, "f", .onInstance), ⟨0⟩),
      ((⟨1⟩, "f", .onInstance), ⟨1⟩)]
    data := { cursor := 0 } }

theorem diamond_searches :
    diamond.Acyclic ∧ diamond.computeAncestors ⟨4⟩ = [⟨2⟩, ⟨1⟩, ⟨4⟩, ⟨3⟩, ⟨0⟩]
      ∧ diamond.Searches "f" [⟨4⟩] (some ⟨1⟩) := by
  have hAcyclic : diamond.Acyclic := .of_earlier (by decide)
  exact ⟨hAcyclic, by decide, (resolution_order_searches diamond hAcyclic ⟨4⟩ "f" _).mpr
      (by decide +kernel)⟩

end Program

end RubyWat
