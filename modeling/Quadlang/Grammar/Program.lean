-- Statements, declarations and whole programs. A program is read as the actions that it
-- asks for; whether they can be performed does not change how the text is read.
import Quadlang.Grammar.Expression
import Quadlang.Token.Lexer

namespace Quadlang.Grammar

/-! ## Declarations -/

/-- Dimensions behind a declared name. -/
def dimensions : (bound : Nat) → Parser Unit
  | 0 => fail .tooDeep
  | bound + 1 => do
    if ← skip "[" then
      let t ← take
      if t.kind ≠ .int then fail (.arraySizeExpected t)
      match Decimal.readInt t.text with
      | .error _ => fail (.badArraySize t.text)
      | .ok n => do
        fire (.addDim n)
        expect "]"
        dimensions bound

/-- The names of one declaration. -/
def names : (bound : Nat) → Parser Unit
  | 0 => fail .tooDeep
  | bound + 1 => do
    let name ← ident
    fire (.pushPending name)
    dimensions (bound + 1)
    if ← skip "," then names bound

def variableList (bound : Nat) : Parser Unit := do
  let ty ← typeName
  names bound
  expect ";"
  fire (.declarePending ty)

/-- Whether a declaration begins here: with the keyword of a type of values, or with two
names in a row. -/
def atDeclaration : Parser Bool := do
  let t ← peek
  if t.kind ≠ .identifier then return false
  match Ty.ofWord? t.text with
  | some ty => return ty ≠ .void
  | none =>
    if isKeyword t.text then return false
    return isName (← peekSecond)

/-! ## Statements -/

/-- Statements up to a closing brace. -/
def statements (statement : Parser Unit) : (bound : Nat) → Parser Unit
  | 0 => fail .tooDeep
  | bound + 1 => do
    if ← skip "\x7d" then return
    if (← peek).kind = .endOfFile then fail .unexpectedEnd
    statement
    statements statement bound

def block (statement : Parser Unit) (bound : Nat) : Parser Unit := do
  expect "\x7b"
  statements statement bound

/-- A condition in parentheses. -/
def condition (bound : Nat) : Parser Unit := do
  expect "("
  expression bound
  expect ")"

/-- An `if` with its branches. The other branch may be an `if` in turn. -/
def conditional (condition body : Parser Unit) : (bound : Nat) → Parser Unit
  | 0 => fail .tooDeep
  | bound + 1 => do
    let _ ← take
    condition
    fire .ifCond
    body
    if ← skip "else" then
      fire .orElse
      if (← peek).is (ascii "if") then conditional condition body bound else body
    fire .endIf

def loop (condition body : Parser Unit) : Parser Unit := do
  let _ ← take
  fire .whileStart
  condition
  fire .whileCond
  body
  fire .whileEnd

/-- A statement of a keyword and items in parentheses, with an action for each item. -/
def listed (item : Parser Unit) (action : Action) (bound : Nat) : Parser Unit := do
  let _ ← take
  expect "("
  items (do item; fire action) bound true
  expect ";"

/-- A return, with a value or without. -/
def returned (bound : Nat) : Parser Unit := do
  let _ ← take
  if ← skip ";" then fire (.ret false)
  else
    expression bound
    fire (.ret true)
    expect ";"

def assignment (bound : Nat) : Parser Unit := do
  reference (expression bound) bound
  expect "="
  fire (.pushOperator .assign)
  expression bound
  fire (.collapse Level.assign)
  expect ";"

/-- A statement. `bound` limits the depth of nesting. -/
def statement : (bound : Nat) → Parser Unit
  | 0 => fail .tooDeep
  | bound + 1 => do
    let t ← peek
    let body := block (statement bound) (bound + 1)
    if t.is (ascii "if") then conditional (condition bound) body (bound + 1)
    else if t.is (ascii "while") then loop (condition bound) body
    else if t.is (ascii "read") then listed (reference (expression bound) bound) .read bound
    else if t.is (ascii "write") then listed (expression bound) .write bound
    else if t.is (ascii "return") then returned bound
    else if t.kind = .identifier then
      if (← peekSecond).is (ascii "(") then
        let _ ← take
        call (expression bound) bound t.text true
        expect ";"
      else assignment bound
    else fail (.statementExpected t)

/-! ## Programs -/

/-- Declarations as long as they begin one. -/
def declarations : (bound : Nat) → Parser Unit
  | 0 => fail .tooDeep
  | bound + 1 => do
    if ← atDeclaration then
      variableList (bound + 1)
      declarations bound

/-- A body: declarations, then statements. -/
def body (bound : Nat) : Parser Unit := do
  expect "\x7b"
  declarations bound
  statements (statement bound) bound

/-- The fields of a class up to its closing brace. -/
def fields : (bound : Nat) → Parser Unit
  | 0 => fail .tooDeep
  | bound + 1 => do
    unless (← peek).is (ascii "\x7d") do
      variableList (bound + 1)
      fields bound

/-- A class. A semicolon may follow it. -/
def classDeclaration (bound : Nat) : Parser Unit := do
  let _ ← take
  let name ← ident
  fire (.declareClass name)
  expect "\x7b"
  fields bound
  let _ ← take
  let _ ← skip ";"
  fire .leaveScope

def parameter : Parser Unit := do
  let ty ← typeName
  let name ← ident
  fire (Action.declareParam name ty)

def functionDeclaration (bound : Nat) : Parser Unit := do
  let _ ← take
  let ty ← typeName
  let name ← ident
  fire (Action.declareFunction name ty)
  expect "("
  items parameter bound true
  body bound
  fire .endFunction

/-- The main body, behind which the text ends. -/
def mainBody (bound : Nat) : Parser Unit := do
  let _ ← take
  fire .main
  body bound
  let t ← peek
  if t.kind ≠ .endOfFile then fail (.unexpectedAfterMain t)

/-- The parts of a program, the main body last. -/
def parts : (bound : Nat) → Parser Unit
  | 0 => fail .tooDeep
  | bound + 1 => do
    let t ← peek
    if t.is (ascii "class") then
      classDeclaration (bound + 1)
      parts bound
    else if t.is (ascii "func") then
      functionDeclaration (bound + 1)
      parts bound
    else if t.is (ascii "main") then mainBody (bound + 1)
    else if t.kind = .identifier then
      variableList (bound + 1)
      parts bound
    else fail (.unexpected t)

def program (bound : Nat) : Parser Unit := do
  expect "program"
  let name ← ident
  expect ";"
  fire (.start name)
  parts bound

/-! ## Readings -/

/-- How a text reads: the events in its order, the line of the token taken last, and the
error that ended the reading, if any. -/
structure Reading where
  events : List Event
  line : Nat
  error : Option SyntaxError
  deriving DecidableEq

/-- The depth of nesting that a number of tokens can reach. -/
def depth (tokens : Nat) : Nat := 16 * (tokens + 1)

/-- Reads the tokens of a program. -/
def read (ts : Tokens) : Reading :=
  match program (depth ts.list.length) ⟨ts.list, ts.lastLine, 0, []⟩ with
  | .ok _ c => ⟨c.events.reverse, c.line, none⟩
  | .error e c => ⟨c.events.reverse, c.line, some e⟩

end Quadlang.Grammar
