-- What a program does outside of its functions, read off its tree alone: expressions have values,
-- statements change what the variables hold, take lines of the input and write lines. There are no
-- calls, both operands of an operator are always evaluated, and a run may come to a mishap.
import Quadlang.Machine.Step
import Quadlang.Proofs.Source.Storage

namespace Quadlang.Source

/-! ## States -/

/-- An element of a variable. A variable that is no array is its only element, without indices. -/
structure Element where
  path : List Bytes
  indices : List Int64
  deriving DecidableEq

/-- What the elements hold. -/
abbrev Store := Element → Option Value

/-- Why a run stops before its end. -/
inductive Mishap
  | uninitialized (e : Element)
  | outOfBounds (index size : Int64)
  | divisionByZero
  | endOfInput
  | badLine (e : Value.ReadError)
  /-- The text has no meaning here: a name or a type is wrong, or it is a call. -/
  | meaningless
  /-- A loop goes on after all turns that it may take. -/
  | unfinished
  deriving DecidableEq

/-- The mishap behind a failed operator. -/
def Mishap.ofFault : RunFault → Mishap
  | .divisionByZero => .divisionByZero
  | _ => .meaningless

structure State where
  store : Store := fun _ => none
  input : Bytes
  output : Bytes := []

/-! ## Expressions -/

/-- The variable of a path. -/
def leaf? (leaves : List Leaf) (path : List Bytes) : Option Leaf := leaves.find? (·.path = path)

/-- What an element holds, if it holds something. -/
def Store.fetch (store : Store) (e : Element) : Except Mishap Value :=
  match store e with
  | some v => .ok v
  | none => .error (.uninitialized e)

/-- A value as an index within a size. -/
def checkIndex (size : Int64) : Value → Except Mishap Int64
  | .int i => if i < 0 ∨ size ≤ i then .error (.outOfBounds i size) else .ok i
  | _ => .error .meaningless

mutual

def Expr.eval (leaves : List Leaf) (store : Store) : Expr → Except Mishap Value
  | .constant ty v => .ok (v.convert ty)
  | .group e => e.eval leaves store
  | .call _ _ => .error .meaningless
  | .reference name members indices =>
    match leaf? leaves (name :: members) with
    | none => .error .meaningless
    | some l => do
      let is ← evalIndices leaves store l.sizes indices
      store.fetch ⟨l.path, is⟩
  | .unary op e => do
    let v ← e.eval leaves store
    (Value.unary op v).mapError .ofFault
  | .binary op l r => do
    let v ← l.eval leaves store
    let w ← r.eval leaves store
    (Value.binary op v w).mapError .ofFault

/-- The values of indices, each within its size. -/
def Expr.evalIndices (leaves : List Leaf) (store : Store) :
    List Int64 → List Expr → Except Mishap (List Int64)
  | [], [] => .ok []
  | size :: sizes, e :: es => do
    let v ← e.eval leaves store
    let i ← checkIndex size v
    let is ← evalIndices leaves store sizes es
    return i :: is
  | _, _ => .error .meaningless

end

/-- The variable and the element that a place stands for. -/
def Place.element (leaves : List Leaf) (store : Store) (p : Place) :
    Except Mishap (Leaf × Element) :=
  match leaf? leaves (p.name :: p.members) with
  | none => .error .meaningless
  | some l => do
    let is ← Expr.evalIndices leaves store l.sizes p.indices
    return (l, ⟨l.path, is⟩)

/-! ## Statements -/

/-- A run, which may change the state and come to a mishap. -/
abbrev Interpret := EStateM Mishap State

namespace Interpret

/-- Goes on with a result, or comes to its mishap. -/
def lift {α : Type} : Except Mishap α → Interpret α
  | .ok a => return a
  | .error cause => throw cause

/-- The value of an expression by now. -/
def value (leaves : List Leaf) (e : Expr) : Interpret Value := do
  lift (e.eval leaves (← get).store)

/-- Whether a condition holds by now. -/
def condition (leaves : List Leaf) (e : Expr) : Interpret Bool := do
  match ← value leaves e with
  | .bool b => return b
  | _ => throw .meaningless

/-- What a place stands for by now. -/
def element (leaves : List Leaf) (p : Place) : Interpret (Leaf × Element) := do
  lift (p.element leaves (← get).store)

/-- Gives an element a value. -/
def put (e : Element) (v : Value) : Interpret Unit :=
  modify fun s => { s with store := fun e' => if e' = e then some v else s.store e' }

/-- Gives a place the value of an expression, in the representation of its type. -/
def assign (leaves : List Leaf) (p : Place) (e : Expr) : Interpret Unit := do
  let (l, target) ← element leaves p
  let v ← value leaves e
  put target (v.convert l.ty)

/-- Reads a line into a place, as a value of its type. -/
def read (leaves : List Leaf) (p : Place) : Interpret Unit := do
  let (l, target) ← element leaves p
  let input := (← get).input
  if input.isEmpty then throw .endOfInput
  let (line, rest) := Execute.splitLine input
  modify fun s => { s with input := rest }
  match Value.read l.ty (Execute.trimLine line) with
  | .ok v => put target v
  | .error cause => throw (.badLine cause)

/-- Writes a value on a line of its own. -/
def write (leaves : List Leaf) (e : Expr) : Interpret Unit := do
  let v ← value leaves e
  modify fun s => { s with output := s.output ++ (v.text ++ ascii "\n") }

/-- Does something for each item of a list. -/
def each {α : Type} (f : α → Interpret Unit) : List α → Interpret Unit
  | [] => return
  | a :: as => do
    f a
    each f as

/-- Does something as long as a condition holds, at most so many times. -/
def whileHolds (holds : Interpret Bool) (body : Interpret Unit) : (turns : Nat) → Interpret Unit
  | 0 => throw .unfinished
  | turns + 1 => do
    if ← holds then
      body
      whileHolds holds body turns

end Interpret

mutual

/-- Executes a statement. Every loop may take so many turns. -/
def Stmt.exec (leaves : List Leaf) (turns : Nat) : Stmt → Interpret Unit
  | .assign p e => Interpret.assign leaves p e
  | .read places => Interpret.each (Interpret.read leaves) places
  | .write values => Interpret.each (Interpret.write leaves) values
  | .branch c body => do if ← Interpret.condition leaves c then execAll leaves turns body
  | .branchElse c body other => do
    if ← Interpret.condition leaves c then execAll leaves turns body else execAll leaves turns other
  | .loop c body => Interpret.whileHolds (Interpret.condition leaves c)
    (execAll leaves turns body) turns
  | .call _ _ | .ret _ => throw .meaningless

def Stmt.execAll (leaves : List Leaf) (turns : Nat) : List Stmt → Interpret Unit
  | [] => return
  | s :: ss => do
    s.exec leaves turns
    execAll leaves turns ss

end

/-- Runs the main body of a program on an input. -/
def Tree.interpret (t : Tree) (turns : Nat) (input : Bytes) : EStateM.Result Mishap State Unit :=
  Stmt.execAll t.leaves turns t.main.statements { input }

end Quadlang.Source
