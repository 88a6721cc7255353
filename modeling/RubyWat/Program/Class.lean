import RubyWat.Program.Type
import RubyWat.Source.Span
import RubyWat.Text.Lowercase

/-
  Classes and modules.

  The fields of an object lie one after the other in the order
  in which they were declared, without gaps.
-/

-- Members

namespace RubyWat

/- Classes have instances, modules are mixed into classes. -/
inductive ClassKind where
  | cls
  | mixin
deriving DecidableEq, Inhabited

def ClassKind.keyword : ClassKind → String
  | .cls => "class"
  | .mixin => "module"

/- An instance variable.  Its type is provisional until it is fixed. -/
structure Ivar where
  name : String
  ty : ValueType
  fixed : Bool
deriving DecidableEq, Inhabited

/- A class variable: a cell in static data. -/
structure Cvar where
  name : String
  ty : ValueType
  address : Nat
  value : Int64
deriving DecidableEq, Inhabited

inductive ConstValue where
  | int (value : Int64) (ty : ValueType)
  | cls (c : ClassId)
deriving DecidableEq, Inhabited

/- An attribute, with the accessors it has. -/
structure Attr where
  name : String
  reader : Bool
  writer : Bool
deriving DecidableEq, Inhabited

structure Class where
  name : String
  path : String
  kind : ClassKind
  lexicalParent : Option ClassId := none
  superclass : Option ClassId := none
  ivars : List Ivar := []
  cvars : List Cvar := []
  consts : List (String × ConstValue) := []
  included : List ClassId := []
  prepended : List ClassId := []
  extended : List ClassId := []
  attrs : List Attr := []
  span : Span := .generated
  finalized : Bool := false
  cachedAncestors : List ClassId := []
deriving Inhabited

-- Layout

namespace Class

def isModule (c : Class) : Bool :=
  c.kind == .mixin

def ivarSlot? (c : Class) (name : String) : Option Nat :=
  c.ivars.findIdx? (·.name == name)

def ivar? (c : Class) (name : String) : Option Ivar :=
  c.ivars.find? (·.name == name)

def cvar? (c : Class) (name : String) : Option Cvar :=
  c.cvars.find? (·.name == name)

def const? (c : Class) (name : String) : Option ConstValue :=
  c.consts.lookup name

def fieldsSize : List Ivar → Nat
  | [] => 0
  | v :: vs => v.ty.size + fieldsSize vs

def size (c : Class) : Nat :=
  fieldsSize c.ivars

def fieldOffset (c : Class) (slot : Nat) : Nat :=
  fieldsSize (c.ivars.take slot)

/- The class path in the form that default export names have. -/
def exportPath (c : Class) : String :=
  Text.lowercase (c.path.replace "::" "_")

-- Fields

/- Fix the type of an instance variable that is not fixed yet. -/
def fixIvar (ty : ValueType) (v : Ivar) : Ivar :=
  if v.fixed then v else { v with ty, fixed := true }

/-
  Declare an instance variable, or find the slot it already has.  A provisional type gives way
  to the first type that is declared as fixed.
-/
def declareIvar (c : Class) (name : String) (ty : ValueType) (fixed : Bool) : Nat × Class :=
  match c.ivarSlot? name with
  | some slot =>
    if fixed then (slot, { c with ivars := c.ivars.modify slot (fixIvar ty) })
    else (slot, c)
  | none => (c.ivars.length, { c with ivars := c.ivars ++ [⟨name, ty, fixed⟩] })

def declareAttr (c : Class) (name : String) (reader writer : Bool) : Class :=
  match c.attrs.findIdx? (·.name == name) with
  | some i =>
    { c with
      attrs := c.attrs.modify i fun a =>
        { a with
          reader := a.reader || reader
          writer := a.writer || writer } }
  | none => { c with attrs := c.attrs ++ [⟨name, reader, writer⟩] }

end Class

end RubyWat
