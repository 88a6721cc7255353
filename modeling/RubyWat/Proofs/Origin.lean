import RubyWat.Proofs.Provided

/-
  Where the methods of a program come from.

  Key definitions: `Dump.Node.definitions`, `Definition.Compiled`, `Lower.Gathers`.

  A syntax tree has method definitions outside of methods, each of them below the root or below
  a class.  A definition is compiled if its method was realized at some time, whatever the
  program became since.
-/

-- Values Of Syntax Trees

namespace RubyWat

open Code Lower List Context

namespace Dump

namespace Node

variable {α : Type}

mutual

/- The value of a node, from the values of what it holds. -/
def fold (f : Node → List α → α) (other : α) : Node → α
  | ⟨tag, items, span⟩ => f ⟨tag, items, span⟩ (foldItems f other items)

/- The values of a list, where other items than nodes may be. -/
def foldItems (f : Node → List α → α) (other : α) : List (Item Node) → List α
  | [] => []
  | .node n :: items => fold f other n :: foldItems f other items
  | _ :: items => other :: foldItems f other items

end

variable {f : Node → List α → α} {other : α}

theorem foldItems_eq (items : List (Item Node)) :
    foldItems f other items = items.map fun item => (item.node?.map (fold f other)).getD other := by
  induction items with
  | nil => rfl
  | cons item items ih => cases item <;> simp [foldItems, Item.node?, ih]

/- What the nodes in a list give, one after the other. -/
theorem flatMap_node? {β : Type} (g : Node → List β) (items : List (Item Node)) :
    (items.flatMap fun item => (item.node?.map g).getD [])
      = (items.filterMap Item.node?).flatMap g := by
  induction items with
  | nil => rfl
  | cons item items ih =>
    rw [flatMap_cons, ih, filterMap_cons]
    rcases item.node? with _ | n
    · rfl
    · rfl

theorem fold_eq (node : Node) : node.fold f other
      = f node (node.items.map fun item => (item.node?.map (fold f other)).getD other) := by
  cases node
  rw [fold, foldItems_eq]

end Node

end Dump

-- Definitions In A Syntax Tree

/-
  A method definition.  It stands below the root or in a class,
  of which the last part of the name is written there.
-/
structure Definition where
  around : Option String
  singleton : Bool
  parts : MethodParts

/- What a definition belongs to. -/
def Definition.scope (d : Definition) : MethodScope :=
  if d.singleton || d.around.isNone then .onClass else .onInstance

namespace Dump

namespace Node

/- The parts of a definition whose name stands at an index. -/
def methodParts? (node : Node) (first : Nat) : Option MethodParts :=
  match node.symbolAt first, node.nodeAt (first + 1) with
  | .ok name, .ok params => some ⟨name, params, node.node? (first + 2)⟩
  | _, _ => none

/- The last part of the name of a class. -/
def className? (node : Node) : Option String := do
  let name ← node.node? 0
  let path ← name.constPath?
  path.segments.getLast?

/- What a node defines if it is known what its parts define. -/
def gather (node : Node) (parts : List (Option String → List Definition)) (around : Option String) :
    List Definition :=
  let inside (kind : ClassKind) : List Definition :=
    match node.className? with
    | some name => (parts.getD (bodyIndex kind) fun _ => []) (some name)
    | none => []
  match node.tag with
  | .begin | .kwbegin => parts.flatMap (· around)
  | .classDef => inside .cls
  | .moduleDef => inside .mixin
  | .methodDef => (node.methodParts? 0).toList.map (⟨around, false, ·⟩)
  | .singletonDef => (node.methodParts? 1).toList.map (⟨around, true, ·⟩)
  | _ => []

/- The definitions in a tree, none of them in a method. -/
def definitions (node : Node) : Option String → List Definition :=
  node.fold gather fun _ => []

variable {node : Node} {around : Option String}

theorem definitions_eq (node : Node) : node.definitions
      = node.gather (node.items.map fun item => (item.node?.map definitions).getD fun _ => []) :=
  fold_eq node

theorem definitions_sequence (hTag : node.tag = .begin ∨ node.tag = .kwbegin) :
    node.definitions around = node.nodes.flatMap (·.definitions around) := by
  have hAll : node.definitions around = node.items.flatMap fun item =>
          ((item.node?.map definitions).getD fun _ => []) around := by
    rw [definitions_eq]
    rcases hTag with hTag | hTag <;> simp only [gather, hTag, flatMap_map]
  rw [hAll, nodes, ← flatMap_node?]
  refine congrArg (flatMap · node.items) (funext fun item => ?_)
  rcases item.node? with _ | n
  · rfl
  · rfl

theorem definitions_class (hTag : node.tag = match kind with
        | .cls => .classDef
        | .mixin => .moduleDef)
    (hName : node.className? = some name) :
    node.definitions around = (node.node? (bodyIndex kind)).toList.flatMap
        (·.definitions (some name)) := by
  have hBody : node.definitions around = (((node.items.map fun item =>
          (item.node?.map definitions).getD fun _ => []).getD
            (bodyIndex kind) fun _ => []) (some name)) := by
    rw [definitions_eq]
    cases kind <;> simp only [gather, hTag, hName]
  rw [hBody, node?, getD_eq_getElem?_getD, getElem?_map]
  rcases node.items[bodyIndex kind]? with _ | item
  · rfl
  · cases item <;> simp [Item.node?]

theorem definitions_method {singleton : Bool}
    (hTag : node.tag = if singleton then .singletonDef else .methodDef) :
    node.definitions around = (node.methodParts? singleton.toNat).toList.map
        (⟨around, singleton, ·⟩) := by
  rw [definitions_eq]
  cases singleton <;> simp [gather, hTag]

end Node

end Dump

-- Places In Classes

def EndsIn (path name : String) : Prop :=
  path = name ∨ ∃ outer, path = outer ++ "::" ++ name

/- The body of a class as a place of definitions. -/
structure InClass (ctx : Context) (n : NodeId) (c : ClassId) (name : String) : Prop where
  place : Grouping ctx.tree n
  instr : ctx.tree.instr n = .classBody c
  isIn : c.index < ctx.program.classes.size
  path : EndsIn (ctx.program.cls c).path name

/- A class that is meant by the name that is written for it. -/
inductive Owns (p : Program) : Option String → ClassId → Prop where
  | root : Owns p none objectClass
  | named {name : String} {c : ClassId} (hIn : c.index < p.classes.size)
      (hPath : EndsIn (p.cls c).path name) : Owns p (some name) c

theorem Owns.lasts (hOwns : Owns p around c) (hLasts : p.Lasts busy p') : Owns p' around c := by
  cases hOwns with
  | root => exact .root
  | named hIn hPath =>
    refine .named (Nat.lt_of_lt_of_le hIn hLasts.classes_le) ?_
    rw [(hLasts.classes c hIn).2]
    exact hPath

/- A place of definitions with the name of the class around it. -/
inductive Stands (ctx : Context) (p : NodeId) : Option String → Prop where
  | root (hPlace : Grouping ctx.tree p) (hInstr : ctx.tree.instr p = .root) : Stands ctx p none
  | inClass {c : ClassId} {name : String} (hClass : InClass ctx p c name) : Stands ctx p (some name)

namespace Stands

variable {ctx ctx' : Context}

variable (hStands : Stands ctx p around)
include hStands

theorem place : Grouping ctx.tree p := by
  cases hStands with
  | root hPlace _ => exact hPlace
  | inClass hClass => exact hClass.place

theorem evolves (hEvolves : EvolvesTo busy ctx ctx') : Stands ctx' p around := by
  have hPlace := hStands.place
  have hInstr := (hEvolves.tree.group p hPlace.isOpen.isIn hPlace.isGroup).1
  have hPlace' := hPlace.steps hEvolves.tree
  cases hStands with
  | root _ hRoot => exact .root hPlace' (hInstr.trans hRoot)
  | inClass hClass =>
    have hIn := hClass.isIn
    refine .inClass ⟨hPlace', hInstr.trans hClass.instr,
      Nat.lt_of_lt_of_le hIn hEvolves.names.classes_le, ?_⟩
    rw [(hEvolves.names.classes _ hIn).2]
    exact hClass.path

theorem owns : Owns ctx.program around (ctx.classOf p) := by
  cases hStands with
  | root hPlace hInstr =>
    rcases scopeOf_grouping hPlace with ⟨_, hScope⟩ | ⟨c, hClass, _⟩
    · rw [classOf, hScope]
      exact .root
    · rw [hInstr] at hClass
      cases hClass
  | inClass hClass =>
    rcases scopeOf_grouping hClass.place with ⟨hInstr, _⟩ | ⟨c, hInstr, hScope⟩
    · rw [hClass.instr] at hInstr
      cases hInstr
    rw [hClass.instr] at hInstr
    cases hInstr
    rw [classOf, hScope]
    exact .named hClass.isIn hClass.path

theorem definedScope_eq (singleton : Bool) (parts : MethodParts) :
    definedScope ctx p singleton = (⟨around, singleton, parts⟩ : Definition).scope := by
  cases hStands with
  | root hPlace hInstr =>
    rcases scopeOf_grouping hPlace with ⟨_, hScope⟩ | ⟨c, hClass, _⟩
    · simp [definedScope, Definition.scope, hScope]
    · rw [hInstr] at hClass
      cases hClass
  | inClass hClass =>
    rcases scopeOf_grouping hClass.place with ⟨hInstr, _⟩ | ⟨c, _, hScope⟩
    · rw [hClass.instr] at hInstr
      cases hInstr
    · simp [definedScope, Definition.scope, hScope]

/- What is defined at a place belongs to a class. -/
theorem classOf_isIn (hRooted : Rooted ctx) : (ctx.classOf p).index < ctx.program.classes.size := by
  have hOwns := hStands.owns
  generalize ctx.classOf p = c at hOwns
  cases hOwns with
  | root => exact hRooted.regular.object
  | named hIn _ => exact hIn

end Stands

-- Compiled Definitions

/- A definition whose method was realized, now or before. -/
structure Definition.CompiledAs (d : Definition) (ctx₀ : Context) (c : ClassId) (m : MethodId)
    (ctx : Context) : Prop where
  owns : Owns ctx₀.program d.around c
  own : ctx₀.program.ownMethod? c d.parts.name d.scope = some m
  realizes : Realizes ⟨ctx₀.options.foldConstants, m, none⟩ d.parts ctx₀
  evolves : Evolves ctx₀ ctx

def Definition.Compiled (d : Definition) (ctx : Context) : Prop :=
  ∃ ctx₀ c m, d.CompiledAs ctx₀ c m ctx

theorem Definition.Compiled.evolves {d : Definition} {ctx ctx' : Context}
    (hCompiled : d.Compiled ctx) (hEvolves : Evolves ctx ctx') : d.Compiled ctx' := by
  rcases hCompiled with ⟨ctx₀, c, m, hAs⟩
  exact ⟨ctx₀, c, m, hAs.owns, hAs.own, hAs.realizes, hAs.evolves.trans hEvolves⟩

/- A tree below the root of which every method is compiled. -/
def Dump.Node.Compiled (root : Node) (ctx : Context) : Prop :=
  ∀ d ∈ root.definitions none, d.Compiled ctx

theorem Dump.Node.Compiled.evolves {root : Node} {ctx ctx' : Context}
    (hCompiled : root.Compiled ctx) (hEvolves : Evolves ctx ctx') : root.Compiled ctx' :=
  fun d hMem => (hCompiled d hMem).evolves hEvolves

namespace Lower

/- Every unit that is read on the way is compiled as well. -/
def Gathers (s s' : LowerState) : Prop :=
  ∃ fresh, s'.loader.sources = fresh ++ s.loader.sources
    ∧ ∀ source ∈ fresh, ∃ root, Dump.read source.2 = .ok root ∧ root.Compiled s'.ctx

namespace Gathers

variable {s s₁ s' : LowerState}

theorem of_sources_eq (hSources : s'.loader.sources = s.loader.sources) : Gathers s s' :=
  ⟨[], hSources, forall_mem_nil _⟩

theorem trans (hFirst : Gathers s s₁) (hSecond : Gathers s₁ s') (hEvolves : Evolves s₁.ctx s'.ctx) :
    Gathers s s' := by
  rcases hFirst with ⟨fresh₁, hSources₁, hCompiled₁⟩
  rcases hSecond with ⟨fresh₂, hSources₂, hCompiled₂⟩
  refine ⟨fresh₂ ++ fresh₁, ?_, ?_⟩
  · rw [hSources₂, hSources₁, append_assoc]
  · rw [forall_mem_append]
    refine ⟨hCompiled₂, fun source hMem => ?_⟩
    rcases hCompiled₁ source hMem with ⟨root, hRead, hRoot⟩
    exact ⟨root, hRead, hRoot.evolves hEvolves⟩

end Gathers

end Lower

end RubyWat
