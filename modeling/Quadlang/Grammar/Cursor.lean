-- Reading tokens from left to right: looking at the next ones, taking them, and noting
-- the actions that they ask for.
import Quadlang.Action
import Quadlang.Token

namespace Quadlang.Grammar

/-- Where the reading stands: the tokens ahead, the last line of the text, the line of the
token taken last, and the events so far, newest first. -/
structure Cursor where
  rest : List Token
  lastLine : Nat
  line : Nat
  events : List Event
  deriving DecidableEq

/-- A reader of tokens. The events before an error stay. -/
abbrev Parser := EStateM SyntaxError Cursor

/-- The next token, or the end of the file. -/
def Cursor.next (c : Cursor) : Token :=
  match c.rest with
  | [] => Token.endOfFile c.lastLine
  | t :: _ => t

/-- The token behind the next one, or the end of the file. -/
def Cursor.afterNext (c : Cursor) : Token :=
  match c.rest with
  | _ :: t :: _ => t
  | _ => Token.endOfFile c.lastLine

/-- Looks at the next token. -/
def peek : Parser Token := do return (← get).next

/-- Looks at the token behind the next one. -/
def peekSecond : Parser Token := do return (← get).afterNext

/-- Takes the next token. The end of the file stays where it is. -/
def take : Parser Token := do
  let c ← get
  let t := c.next
  set { c with rest := c.rest.tail, line := t.line }
  return t

/-- Stops at an error. Its line is that of the next token. -/
def fail {α : Type} (cause : SyntaxCause) : Parser α := do
  throw ⟨(← peek).line, cause⟩

/-- Notes an action. -/
def fire (action : Action) : Parser Unit :=
  modify fun c => { c with events := ⟨c.line, action⟩ :: c.events }

/-- Takes the next token if it is the given word. -/
def skip (word : String) : Parser Bool := do
  if (← peek).is (ascii word) then
    let _ ← take
    return true
  else return false

/-- Takes the next token, which has to be the given word. -/
def expect (word : String) : Parser Unit := do
  let t ← take
  unless t.is (ascii word) do fail (.expected (ascii word) t)

/-! ## Names -/

/-- The words that name no variable, function or class. -/
def keywords : List Bytes :=
  ["program", "class", "func", "main", "if", "else", "while", "read", "write", "return", "true",
    "false", "int", "float", "char", "bool", "boolean", "string", "void"].map ascii

def isKeyword (word : Bytes) : Bool := keywords.contains word

/-- Whether a token can name something. -/
def isName (t : Token) : Bool := t.kind = .identifier && !isKeyword t.text

/-- Takes a name. -/
def ident : Parser Bytes := do
  let t ← take
  if isName t then return t.text else fail (.identifierExpected t)

/-- Takes the name of a type: a type keyword or what may be a class. -/
def typeName : Parser Bytes := do
  let t ← take
  if t.kind = .identifier && (!isKeyword t.text || (Ty.ofWord? t.text).isSome) then return t.text
  else fail (.typeExpected t)

/-! ## Sequences -/

/-- Items with commas between them up to a closing parenthesis. `bound` limits their
number. -/
def items (item : Parser Unit) : (bound : Nat) → (first : Bool) → Parser Unit
  | 0, _ => fail .tooDeep
  | bound + 1, first => do
    if ← skip ")" then return
    unless first do expect ","
    item
    items item bound false

end Quadlang.Grammar
