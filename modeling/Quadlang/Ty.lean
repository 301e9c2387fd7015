-- The types of the language. A class is a type of symbols only: its instances are
-- stored field by field and are no values.
import Quadlang.Bytes

namespace Quadlang

/-- A type. Any other number may stand where a type is asked for; it names none. -/
inductive Ty
  | invalid
  | int
  | float
  | char
  | bool
  | string
  | void
  | record
  | other (code : Int64)
  deriving DecidableEq, Repr

namespace Ty

/-- The types of values, in the order of the memory layout. -/
def primitives : List Ty := [.int, .float, .char, .bool, .string]

/-- All the types that have a name. -/
def named : List Ty := [.invalid, .int, .float, .char, .bool, .string, .void, .record]

/-- The type with a given number. -/
def ofCode (code : Int64) : Ty :=
  if code < 0 then .other code else (named[code.toNatClampNeg]?).getD (.other code)

/-- How a type is written in listings and messages. -/
def name : Ty → Bytes
  | .invalid => ascii "invalid"
  | .int => ascii "int"
  | .float => ascii "float"
  | .char => ascii "char"
  | .bool => ascii "bool"
  | .string => ascii "string"
  | .void => ascii "void"
  | .record => ascii "class"
  | .other code => ascii "type(" ++ Bytes.ofWord code ++ ascii ")"

/-- The type that a word of program text names, if it is a type keyword. Classes are
found among the symbols. -/
def ofWord? (word : Bytes) : Option Ty :=
  if word = ascii "int" then some .int
  else if word = ascii "float" then some .float
  else if word = ascii "char" then some .char
  else if word = ascii "bool" ∨ word = ascii "boolean" then some .bool
  else if word = ascii "string" then some .string
  else if word = ascii "void" then some .void
  else none

end Ty

end Quadlang
