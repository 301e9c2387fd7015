-- Expressions: operators of one level group to the left, a tighter level binds first,
-- and every operator is generated as soon as its last operand is complete.
import Quadlang.Grammar.Cursor

namespace Quadlang.Grammar

/-! ## Operators -/

/-- The operators of two operands, level by level, the tightest one first. -/
def binaryOps : (level : Nat) → List (String × BinaryOp)
  | 1 => [("*", .arith .mult), ("/", .arith .div)]
  | 2 => [("+", .arith .sum), ("-", .arith .sub)]
  | 3 => [("==", .compare .eq), ("!=", .compare .neq), ("<", .compare .lt), ("<=", .compare .lte),
      (">", .compare .gt), (">=", .compare .gte)]
  | 4 => [("&&", .logic .and), ("||", .logic .or)]
  | _ => []

/-- The operators of one operand. -/
def unaryOps : List (String × UnaryOp) := [("!", .not), ("-", .neg)]

/-- The operator that a token stands for, among some. -/
def operator? {α : Type} (ops : List (String × α)) (t : Token) : Option α :=
  if t.kind = .punctuation then (ops.find? fun (mark, _) => ascii mark = t.text).map (·.2) else none

/-- Takes an operator, if the next token is one of them. -/
def operator {α : Type} (ops : List (String × α)) : Parser (Option α) := do
  match operator? ops (← peek) with
  | some op => do
    let _ ← take
    return some op
  | none => return none

/-- The loosest level of an expression. -/
def loosest : Nat := 4

/-- Whether the operators of a level may follow one another without parentheses. -/
def associates (level : Nat) : Bool := level ≠ 3

/-- Operators of one level with their right operands. `bound` limits their number. -/
def chain (operand : Parser Unit) (level : Nat) : (bound : Nat) → Parser Unit
  | 0 => fail .tooDeep
  | bound + 1 => do
    match ← operator (binaryOps level) with
    | none => return
    | some op => do
      fire (.pushOperator op.opcode)
      operand
      fire (.collapse level)
      if associates level then chain operand level bound

/-! ## Operands -/

/-- Fields of instances behind a variable. -/
def members : (bound : Nat) → Parser Unit
  | 0 => fail .tooDeep
  | bound + 1 => do
    if ← skip "." then
      let name ← ident
      fire (.member name)
      members bound

/-- Indices behind a variable. -/
def indices (index : Parser Unit) : (bound : Nat) → Parser Unit
  | 0 => fail .tooDeep
  | bound + 1 => do
    if ← skip "[" then
      fire .indexStart
      index
      expect "]"
      fire .indexEnd
      indices index bound

/-- A reference to a variable, a field or an element. -/
def reference (index : Parser Unit) (bound : Nat) : Parser Unit := do
  let name ← ident
  fire (.var name)
  members bound
  indices index bound
  fire .varEnd

/-- A call, from the parenthesis behind the name on. -/
def call (argument : Parser Unit) (bound : Nat) (name : Bytes) (discard : Bool) : Parser Unit := do
  fire (.callStart name)
  expect "("
  items (do argument; fire .argument) bound true
  fire (.callEnd discard)

def constant (t : Token) : Parser Unit := do
  let _ ← take
  match t.kind with
  | .int =>
    match Decimal.readInt t.text with
    | .ok n => fire (.pushConst .int (.int n))
    | .error _ => fail (.badInt t.text)
  | .float =>
    match Decimal.readFloat t.text with
    | .ok x => fire (.pushConst .float (.float x))
    | .error _ => fail (.badFloat t.text)
  | .char =>
    match Text.scalars t.text with
    | [n] => fire (.pushConst .char (.char (.ofNat n)))
    | _ => fail (.badChar t.text)
  | .string => fire (.pushConst .string (.string t.text))
  | _ => fire (.pushConst .bool (.bool (t.text = ascii "true")))

/-- What an operator can be applied to: a constant, an expression in parentheses, a call
or a reference. -/
def primary (inner : Parser Unit) (bound : Nat) : Parser Unit := do
  let t ← peek
  match t.kind with
  | .int | .float | .char | .string => constant t
  | .punctuation =>
    if t.is (ascii "(") then
      let _ ← take
      fire .openGroup
      inner
      expect ")"
      fire .closeGroup
    else fail (.expressionExpected t)
  | .identifier =>
    if t.is (ascii "true") || t.is (ascii "false") then constant t
    else if (← peekSecond).is (ascii "(") then
      let _ ← take
      call inner bound t.text false
    else reference inner bound
  | .endOfFile => fail (.expressionExpected t)

/-- An expression of a level: operands of the next tighter level with operators between
them. The tightest level is that of the operators of one operand. `bound` limits the depth
of nesting. -/
def expressionAt : (bound : Nat) → (level : Nat) → Parser Unit
  | 0, _ => fail .tooDeep
  | bound + 1, 0 => do
    match ← operator unaryOps with
    | some op => do
      fire (.pushOperator op.opcode)
      expressionAt bound 0
      fire (.collapse Level.unary)
    | none => primary (expressionAt bound loosest) bound
  | bound + 1, level + 1 => do
    expressionAt bound level
    chain (expressionAt bound level) (level + 1) (bound + 1)

def expression (bound : Nat) : Parser Unit := expressionAt bound loosest

end Quadlang.Grammar
