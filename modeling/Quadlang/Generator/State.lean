-- The state of a compilation: memory, instructions, scopes, and the stacks of what the
-- text has begun and not yet ended. A failed action keeps what it did before it failed.
import Quadlang.Generator.Fault
import Quadlang.Program
import Quadlang.Symbol

namespace Quadlang

/-- An operand with its type. Only what names a variable can be assigned to. -/
structure TypedOperand where
  ty : Ty
  operand : Operand
  addressable : Bool := false
  deriving DecidableEq, Repr

/-- An entry of the operator stack: an operator, or the bottom of a group, which shields
the operators around the group. -/
inductive Pending
  | bottom
  | operator (op : Operator)
  deriving DecidableEq, Repr

/-- A reference under construction: the symbol reached, and the number of indices. -/
structure Reference where
  symbol : Symbol
  indices : Nat := 0
  deriving DecidableEq, Repr

/-- A function as its calls and its body see it. -/
structure Callee where
  name : Bytes
  ty : Ty
  address : Addr
  target : Nat
  deriving DecidableEq, Repr

/-- A call under construction: the function, and the number of arguments passed. -/
structure Call where
  callee : Callee
  passed : Nat := 0
  deriving DecidableEq, Repr

/-- A name whose type is not known yet, with the sizes of its dimensions. -/
structure Waiting where
  name : Bytes
  dims : List Int64 := []
  deriving DecidableEq, Repr

/-- The state of a compilation. Every stack has its top first. -/
structure Generator where
  memory : Memory
  name : Bytes := []
  /-- The line of the text that asks for the action under way. -/
  line : Int := 0
  quads : Array Quad := #[]
  scopes : Array Scope
  /-- The innermost scope. -/
  current : ScopeId := 0
  /-- The scopes around it. -/
  enclosing : List ScopeId := []
  /-- The function whose body is open, and the scope of the body. -/
  function : Option (Callee × ScopeId) := none
  waiting : List Waiting := []
  operators : List Pending := []
  operands : List TypedOperand := []
  jumps : List Nat := []
  references : List Reference := []
  calls : List Call := []

/-- Why an action ends early: a cause that can be reported, or an index of a reference
that has no such dimension, which leaves nothing to report. -/
inductive Stop
  | fault (cause : Fault)
  | crash
  deriving DecidableEq

/-- A step of a compilation. -/
abbrev Generate := EStateM Stop Generator

namespace Generator

/-- A compilation that has not begun. -/
def ofMemory (m : Memory) : Generator :=
  { memory := m, scopes := #[Scope.empty (ascii "global") .program none] }

/-- A compilation with the standard memory layout. -/
def initial : Generator := ofMemory (Memory.ofLayout Layout.standard)

def scope (g : Generator) (id : ScopeId) : Scope :=
  g.scopes.getD id (Scope.empty [] .program none)

/-- The innermost scope. -/
def here (g : Generator) : Scope := g.scope g.current

/-- The scope of the program. -/
def outermost (g : Generator) : Scope := g.scope 0

/-- The program as far as it is generated. -/
def program (g : Generator) : Program :=
  { name := g.name, quads := g.quads, layout := g.memory.layout, consts := g.memory.values }

/-- Where the variables declared here are stored. -/
def segment (g : Generator) : Segment := if g.function.isSome then .functions else .locals

end Generator

namespace Generate

/-- Fails with a cause. -/
def fault {α : Type} (cause : Fault) : Generate α := throw (.fault cause)

/-! ## Memory and instructions -/

/-- Takes addresses. -/
def alloc (purpose : Purpose) (ty : Ty) (segment : Segment) (n : Int64) : Generate Addr := do
  let g ← get
  match g.memory.alloc ty segment n with
  | .ok (a, m) => do
    set { g with memory := m }
    return a
  | .error e => fault (.noRoom purpose e)

/-- Takes the address of a constant. -/
def intern (ty : Ty) (v : Value) : Generate Addr := do
  let g ← get
  match g.memory.intern ty v with
  | .ok (a, m) => do
    set { g with memory := m }
    return a
  | .error e => fault (.noConstantRoom e)

/-- Takes a cell for an intermediate value. -/
def temporary (ty : Ty) : Generate TypedOperand := do
  let a ← alloc .temporary ty .temps 1
  return { ty, operand := .cell a }

/-- Appends an instruction. -/
def emit (q : Quad) : Generate Unit := modify fun g => { g with quads := g.quads.push q }

/-! ## Stacks -/

def pushOperand (x : TypedOperand) : Generate Unit :=
  modify fun g => { g with operands := x :: g.operands }

/-- The last operand. -/
def peekOperand : Generate TypedOperand := do
  match (← get).operands with
  | x :: _ => return x
  | [] => fault .noOperand

/-- Takes the last operand. -/
def popOperand : Generate TypedOperand := do
  let x ← peekOperand
  modify fun g => { g with operands := g.operands.tail }
  return x

/-- Pushes the bottom of a group. -/
def openGroup : Generate Unit := modify fun g => { g with operators := .bottom :: g.operators }

/-- Takes the bottom of a group, which has to be on top. -/
def closeGroup : Generate Unit := do
  match (← get).operators with
  | .bottom :: rest => modify fun g => { g with operators := rest }
  | _ => fault .noGroup

end Generate

end Quadlang
