import RubyWat.Program.Basic

/-
  Mixins and the order in which methods are looked up.

  Prepended modules come before a class, the latest first, then the class itself, then included
  modules, the latest first, and then its superclass.  Each class appears once, where it is met
  first.
-/

-- Resolution Order

namespace RubyWat

namespace Program

/- What a walk over the mixins has met and what it has listed, the last one first. -/
structure Walked where
  seen : List ClassId := []
  listed : List ClassId := []

/- Add a class and what comes with it to a walk. -/
def collect (p : Program) : Nat → ClassId → Walked → Walked
  | 0, _, w => w
  | fuel + 1, c, w =>
    if w.seen.contains c then w
    else
      let k := p.cls c
      let w := { w with seen := c :: w.seen }
      let w := k.prepended.reverse.foldl (fun w m => collect p fuel m w) w
      let w := { w with listed := c :: w.listed }
      let w := k.included.reverse.foldl (fun w m => collect p fuel m w) w
      match k.superclass with
      | some s => collect p fuel s w
      | none => w

/-
  The resolution order of a class.  A walk meets a new class at
  every level, so it is never deeper than there are classes.
-/
def computeAncestors (p : Program) (c : ClassId) : List ClassId :=
  (p.collect (p.classes.size + 1) c {}).listed.reverse

/-
  The resolution order in force: the one kept when the class
  was closed, and a fresh one while it is open.
-/
def ancestors (p : Program) (c : ClassId) : List ClassId :=
  let k := p.cls c
  if k.finalized && !k.cachedAncestors.isEmpty then k.cachedAncestors
  else p.computeAncestors c

def finalize (p : Program) (c : ClassId) : Program :=
  let order := p.computeAncestors c
  p.modifyClass c fun k => { k with cachedAncestors := order, finalized := true }

end Program

-- Mixins

inductive Mixin where
  | include
  | prepend
  | extend
deriving DecidableEq

def Mixin.keyword : Mixin → String
  | .include => "include"
  | .prepend => "prepend"
  | .extend => "extend"

/- A list with an element at its end, unless it is there. -/
def addOnce (c : ClassId) (cs : List ClassId) : List ClassId :=
  if cs.contains c then cs else cs ++ [c]

namespace Program

/- Mix a module that is completely defined into a class. -/
def mixIn (p : Program) (c module : ClassId) (how : Mixin) (span : Span) : Except Fault Program :=
  let m := p.cls module
  if !m.isModule then .error (.notModule how.keyword m.path span)
  else if !m.finalized then .error (.unfinishedModule how.keyword m.path span m.span)
  else
    .ok <| p.modifyClass c fun k =>
      match how with
      | .include => { k with included := addOnce module k.included }
      | .prepend => { k with prepended := addOnce module k.prepended }
      | .extend => { k with extended := addOnce module k.extended }

/- At most `fuel` classes on the way up from a class. -/
def superclassesFrom (p : Program) : Nat → Option ClassId → List ClassId
  | 0, _ => []
  | _, none => []
  | fuel + 1, some c => c :: superclassesFrom p fuel (p.cls c).superclass

/- A class, its superclass, and so on. -/
def superclasses (p : Program) (c : ClassId) : List ClassId :=
  p.superclassesFrom (p.classes.size + 1) (some c)

-- Method Lookup

def instanceMethod? (p : Program) (c : ClassId) (name : String) : Option MethodId :=
  (p.ancestors c).findSome? (p.ownMethod? · name .onInstance)

/-
  The method that a class itself answers to, of its own or of a module that extends it.  Methods
  of modules expect a receiver, which the flag says.
-/
def classMethodOf? (p : Program) (name : String) (c : ClassId) : Option (MethodId × Bool) :=
  match p.ownMethod? c name .onClass with
  | some m => some (m, false)
  | none => ((p.cls c).extended.reverse.findSome? (p.instanceMethod? · name)).map (·, true)

/-
  The method that a class answers to, its superclasses
  included.  Methods of the root scope answer everywhere.
-/
def classMethod? (p : Program) (c : ClassId) (name : String) : Option (MethodId × Bool) :=
  let chain := p.superclasses c
  match chain.findSome? (p.classMethodOf? name) with
  | some found => some found
  | none =>
    if chain.contains objectClass then none
    else (p.ownMethod? objectClass name .onClass).map (·, false)

end Program

end RubyWat
