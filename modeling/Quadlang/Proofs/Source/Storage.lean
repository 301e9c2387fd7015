-- What a program stores outside of its functions: every declared variable, every field of an
-- instance, and for arrays the sizes of the dimensions, read off the declarations alone.
import Quadlang.Proofs.Source.Tree

namespace Quadlang.Source

/-- A stored variable: its name and the fields that lead to it, its type, and its sizes. -/
structure Leaf where
  path : List Bytes
  ty : Ty
  sizes : List Int64
  deriving DecidableEq, Repr

/-- A variable as a field of an instance. -/
def Leaf.under (name : Bytes) (l : Leaf) : Leaf := { l with path := name :: l.path }

/-- The classes of a program by name, with what their instances store. -/
abbrev Classes := List (Bytes × List Leaf)

def Declarator.leaves (classes : Classes) (typeName : Bytes) (d : Declarator) : List Leaf :=
  match Ty.ofWord? typeName with
  | some ty => [⟨[d.name], ty, d.sizes⟩]
  | none => ((classes.lookup typeName).getD []).map (Leaf.under d.name)

def Variables.leaves (classes : Classes) (v : Variables) : List Leaf :=
  v.names.flatMap (·.leaves classes v.typeName)

/-- The classes and the variables declared so far. -/
structure Declared where
  classes : Classes := []
  leaves : List Leaf := []

/-- What is declared after a part of a program. Functions keep their variables to themselves. -/
def Declared.part (d : Declared) : Part → Declared
  | .record name fields =>
    { d with classes := d.classes ++ [(name, fields.flatMap (Variables.leaves d.classes))] }
  | .function _ => d
  | .declaration v => { d with leaves := d.leaves ++ v.leaves d.classes }

/-- What is declared in front of the main body. -/
def Tree.declared (t : Tree) : Declared := t.parts.foldl Declared.part {}

/-- All that the main body of a program sees stored. -/
def Tree.leaves (t : Tree) : List Leaf :=
  t.declared.leaves ++ t.main.declarations.flatMap (Variables.leaves t.declared.classes)

/-- A body in its surroundings: the function that it belongs to, if it is not the main body, what it
sees stored, and its statements. -/
structure Scene where
  function : Option Bytes
  leaves : List Leaf
  statements : List Stmt

/-- The body of a function with what it sees stored besides its parameters: all that is declared
in front of the function, and its own variables. -/
def Declared.body? (d : Declared) : Part → Option Scene
  | .function f => some ⟨some f.name,
      d.leaves ++ f.body.declarations.flatMap (Variables.leaves d.classes), f.body.statements⟩
  | _ => none

/-- The bodies of the functions among some parts of a program. -/
def Declared.bodies (d : Declared) : List Part → List Scene
  | [] => []
  | part :: parts => (d.body? part).toList ++ (d.part part).bodies parts

/-- The bodies of a program, the main body last. -/
def Tree.bodies (t : Tree) : List Scene :=
  Declared.bodies {} t.parts ++ [⟨none, t.leaves, t.main.statements⟩]

end Quadlang.Source
