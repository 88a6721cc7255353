import RubyWat.Dump.Escape
import RubyWat.Dump.Node
import RubyWat.Dump.Token

/-
  Reading a dump into a syntax tree.

  Each list starts with a bare word, its tag, and goes on with items.  Lexemes are handled in
  order, so the first one that does not fit decides the error.  A dump of one form is that form;
  any other number of forms is wrapped in a sequence.
-/

-- Read Errors

namespace RubyWat.Dump

inductive ReadFault where
  | invalidToken
  | unexpectedClose
  | unclosed
  | missingTag
  | unexpectedWord (word : String)
  | strayValue
  | badEscape
  | integerRange
deriving DecidableEq

def ReadFault.text : ReadFault → String
  | .invalidToken => "invalid token"
  | .unexpectedClose => "unexpected `)`"
  | .unclosed => "unclosed `(`"
  | .missingTag => "list does not start with a tag"
  | .unexpectedWord word => "unexpected bare word `" ++ word ++ "`"
  | .strayValue => "value outside of any list"
  | .badEscape => "invalid escape sequence"
  | .integerRange => "integer literal out of range"

structure ReadError where
  fault : ReadFault
  span : Span
deriving DecidableEq

-- Reader State

namespace Reader

/- A list that is not closed yet, its items last first. -/
structure Frame where
  start : Nat
  tag : Option Tag := none
  items : List (Item Node) := []

/- The open lists, innermost first, and the finished forms, last first. -/
structure State where
  frames : List Frame := []
  forms : List Node := []

/- Whether a bare word would be the tag of the innermost list. -/
def State.expectsTag (s : State) : Bool :=
  match s.frames with
  | [] => false
  | frame :: _ => frame.tag.isNone && frame.items.isEmpty

def State.setTag (s : State) (tag : Tag) : State :=
  match s.frames with
  | [] => s
  | frame :: rest => { s with frames := { frame with tag := some tag } :: rest }

def State.addForm (s : State) (n : Node) : State :=
  match s.frames with
  | [] => { s with forms := n :: s.forms }
  | frame :: rest => { s with frames := { frame with items := .node n :: frame.items } :: rest }

end Reader

-- Steps

namespace Reader

def openFrame (s : State) (start : Nat) : State :=
  { s with frames := { start } :: s.frames }

def closeFrame (s : State) (stop : Nat) : Except ReadFault State :=
  match s.frames with
  | [] => .error .unexpectedClose
  | frame :: rest =>
    match frame.tag with
    | none => .error .missingTag
    | some tag =>
      .ok <| State.addForm { s with frames := rest }
        ⟨tag, frame.items.reverse, .ofRange frame.start stop⟩

/- The payload or absent child that a token stands for. -/
def atom? : Token → Except ReadFault (Item Node)
  | .nil => .ok .nil
  | .symbol name => .ok (.symbol name)
  | .quotedSymbol body =>
    match Escape.decode? body with
    | some bytes => .ok (.symbol (Text.Utf8.decodeLossy bytes))
    | none => .error .badEscape
  | .int value =>
    match Text.Numeral.int64? value with
    | some v => .ok (.int v)
    | none => .error .integerRange
  | .float value => .ok (.float (Text.Binary64.ofDecimal value))
  | .str body =>
    match Escape.decode? body with
    | some bytes => .ok (.str bytes)
    | none => .error .badEscape
  | .word text => .error (.unexpectedWord text)
  | .openList | .closeList | .invalid => .error .invalidToken

/- Add a payload or an absent child to the innermost list. -/
def addAtom (s : State) (item : Item Node) : Except ReadFault State :=
  match s.frames with
  | [] => .error .strayValue
  | frame :: rest =>
    if frame.tag.isNone then .error .missingTag
    else .ok { s with frames := { frame with items := item :: frame.items } :: rest }

/- Handle a token that is neither a bracket nor a tag. -/
def atomStep (s : State) (token : Token) : Except ReadFault State :=
  (atom? token).bind (addAtom s)

def tokenStep (s : State) (l : Lexeme) : Except ReadFault State :=
  match l.token with
  | .openList => .ok (openFrame s l.start)
  | .closeList => closeFrame s l.stop
  | .word text =>
    if s.expectsTag then .ok (s.setTag (Tag.ofWord text))
    else atomStep s (.word text)
  | .nil =>
    if s.expectsTag then .ok (s.setTag (Tag.ofWord "nil"))
    else atomStep s .nil
  | token => atomStep s token

/- Handle one lexeme, with errors placed at it. -/
def step (s : State) (l : Lexeme) : Except ReadError State :=
  (tokenStep s l).mapError (⟨·, .ofRange l.start l.stop⟩)

/- The tree of finished forms in order. -/
def wrap : List Node → Node
  | [form] => form
  | [] => ⟨.begin, [], .generated⟩
  | first :: rest =>
    let last := rest.getLast?.getD first
    ⟨.begin, (first :: rest).map .node, first.span.merge last.span⟩

/- The tree of a state in which no list is open. -/
def finish (s : State) : Except ReadError Node :=
  match s.frames with
  | frame :: _ => .error ⟨.unclosed, .ofRange frame.start (frame.start + 1)⟩
  | [] => .ok (wrap s.forms.reverse)

end Reader

def read (text : String) : Except ReadError Node := do
  let s ← (Token.scan 0 text.toList).foldlM Reader.step {}
  Reader.finish s

end RubyWat.Dump
