import RubyWat.Compile.Context
import RubyWat.Wat.Tree

/-
  The text of a whole module.

  A module lists what it imports, its memory, what it exports,
  its globals, the content of memory and its functions.
-/

-- Memory

namespace RubyWat

def pageSize : Nat :=
  65536

/- The number of pages that hold a number of bytes. -/
def pagesFor (bytes : Nat) : Nat :=
  (bytes + (pageSize - 1)) / pageSize

/- The number of memory pages: enough for the static data, and no fewer than the options ask for. -/
def Context.memoryPages (ctx : Context) : Nat :=
  max ctx.options.memoryPages (pagesFor ctx.program.data.endAddress)

-- Declarations

namespace Program

def importLine? (p : Program) (m : MethodId) : Option String :=
  let x := p.method m
  match x.flags.imported, x.binding with
  | true, some (moduleName, function) =>
    some ("  (import \"" ++ moduleName ++ "\" \"" ++ function
      ++ "\" (func $" ++ p.methodName m ++ x.signature ++ "))")
  | _, _ => none

/- What an export makes visible, as it is written. -/
def exportTarget (p : Program) : ExportTarget → String
  | .method m => "(func $" ++ p.methodName m ++ ")"
  | .globalVar g => "(global $" ++ (p.globalVar g).name ++ ")"

def exportLine (p : Program) (e : Export) : String :=
  "  (export \"" ++ e.name ++ "\" " ++ p.exportTarget e.target ++ ")"

end Program

/- The line of a global variable, if it holds anything. -/
def Global.line? (g : Global) : Option String :=
  g.ty.held?.map fun held =>
    let ty := held.mnemonic
    let declared := if g.mutable then "(mut " ++ ty ++ ")" else ty
    "  (global $" ++ g.name ++ " " ++ declared ++ " (" ++ ty
      ++ ".const " ++ toString g.init.toInt ++ "))"

def DataEntry.line (e : DataEntry) : String :=
  "  (data (i32.const " ++ toString e.address ++ ") \""
    ++ dataText e.value.toBytes ++ "\") ;; " ++ e.label

namespace Context

/- The lines of a module before its functions. -/
def headLines (ctx : Context) : List String :=
  let p := ctx.program
  ["(module"]
    ++ p.methodIds.filterMap p.importLine?
    ++ ["  (memory $0 " ++ toString ctx.memoryPages ++ ")"]
    ++ (if ctx.options.exportMemory then
          ["  (export \"memory\" (memory $0))"]
        else [])
    ++ p.exports.map p.exportLine
    ++ p.globals.toList.filterMap Global.line?
    ++ p.data.byAddress.map DataEntry.line

def moduleText (ctx : Context) : String :=
  String.join (ctx.headLines.map (· ++ "\n"))
    ++ Wat.treeText ctx.program ctx.tree 1 Code.Tree.root
    ++ ")\n"

end Context

end RubyWat
