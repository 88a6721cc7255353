/-
  Tags of syntax nodes.

  Tags are read in either spelling, with hyphens or with underscores, and shown with
  underscores.  A word that names no known tag is kept as it was written.
-/

-- Tags

namespace RubyWat.Dump

/- What a syntax node stands for. -/
inductive Tag where
  | begin
  | kwbegin
  | classDef
  | moduleDef
  | singletonClass
  | methodDef
  | singletonDef
  | params
  | param
  | setLocal
  | setIvar
  | setCvar
  | setGlobal
  | setConst
  | opAssign
  | orAssign
  | andAssign
  | getLocal
  | getIvar
  | getCvar
  | getGlobal
  | const
  | rootScope
  | selfRef
  | int
  | float
  | str
  | interpolated
  | sym
  | trueLit
  | falseLit
  | nilLit
  | hash
  | kwargs
  | pair
  | array
  | send
  | cond
  | whileLoop
  | untilLoop
  | whilePost
  | untilPost
  | breakLoop
  | nextLoop
  | ret
  | conj
  | disj
  | negation
  | other (word : String)
deriving DecidableEq, Inhabited

namespace Tag

/- The shown spelling of a tag. -/
def text : Tag → String
  | begin => "begin"
  | kwbegin => "kwbegin"
  | classDef => "class"
  | moduleDef => "module"
  | singletonClass => "sclass"
  | methodDef => "def"
  | singletonDef => "defs"
  | params => "args"
  | param => "arg"
  | setLocal => "lvasgn"
  | setIvar => "ivasgn"
  | setCvar => "cvasgn"
  | setGlobal => "gvasgn"
  | setConst => "casgn"
  | opAssign => "op_asgn"
  | orAssign => "or_asgn"
  | andAssign => "and_asgn"
  | getLocal => "lvar"
  | getIvar => "ivar"
  | getCvar => "cvar"
  | getGlobal => "gvar"
  | const => "const"
  | rootScope => "cbase"
  | selfRef => "self"
  | int => "int"
  | float => "float"
  | str => "str"
  | interpolated => "dstr"
  | sym => "sym"
  | trueLit => "true"
  | falseLit => "false"
  | nilLit => "nil"
  | hash => "hash"
  | kwargs => "kwargs"
  | pair => "pair"
  | array => "array"
  | send => "send"
  | cond => "if"
  | whileLoop => "while"
  | untilLoop => "until"
  | whilePost => "while_post"
  | untilPost => "until_post"
  | breakLoop => "break"
  | nextLoop => "next"
  | ret => "return"
  | conj => "and"
  | disj => "or"
  | negation => "not"
  | other word => word

def known : List Tag :=
  [begin, kwbegin, classDef, moduleDef, singletonClass,
   methodDef, singletonDef, params, param, setLocal, setIvar,
   setCvar, setGlobal, setConst, opAssign, orAssign, andAssign,
   getLocal, getIvar, getCvar, getGlobal, const, rootScope,
   selfRef, int, float, str, interpolated, sym, trueLit,
   falseLit, nilLit, hash, kwargs, pair, array, send, cond,
   whileLoop, untilLoop, whilePost, untilPost, breakLoop,
   nextLoop, ret, conj, disj, negation]

def ofWord (word : String) : Tag :=
  let spelled := String.ofList (word.toList.map fun c => if c = '-' then '_' else c)
  (known.find? (·.text == spelled)).getD (other word)

def isKnown : Tag → Bool
  | other _ => false
  | _ => true

end Tag

end RubyWat.Dump
