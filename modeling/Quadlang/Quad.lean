-- Quadruples: an instruction with two arguments and a result. Each of the three is an
-- operand: a number together with the way to read it.
import Quadlang.Memory.Layout
import Quadlang.Opcode

namespace Quadlang

/-- How the number of an operand is read: not at all, as the address of a cell, as the
address of a cell that holds the address, as the position of an instruction, or as itself.
Any other number may stand in place of the way to read it. -/
inductive Operand.Kind
  | empty
  | address
  | pointer
  | label
  | literal
  | other (code : Int8)
  deriving DecidableEq, Repr

/-- One of the three places of a quadruple. Some instructions take the number whatever
the kind is, so an empty place has one too. -/
structure Operand where
  kind : Operand.Kind
  value : Int
  deriving DecidableEq, Repr

namespace Operand

/-- An unused place. -/
def none : Operand := ⟨.empty, 0⟩

def cell (a : Addr) : Operand := ⟨.address, a.toInt⟩

/-- The cell whose address another cell holds. -/
def pointer (a : Addr) : Operand := ⟨.pointer, a.toInt⟩

def label (position : Nat) : Operand := ⟨.label, position⟩

def literal (n : Int64) : Operand := ⟨.literal, n.toInt⟩

/-- A number of things. -/
def count (n : Nat) : Operand := ⟨.literal, n⟩

/-- The way to read an operand with a given number. -/
def Kind.ofCode (code : Int8) : Kind :=
  if code = 0 then .empty
  else if code = 1 then .address
  else if code = 2 then .pointer
  else if code = 3 then .label
  else if code = 4 then .literal
  else .other code

/-- The number of an operand as a machine word. -/
def word (o : Operand) : Int64 := Int64.ofInt o.value

/-- How an operand is written in plain listings and messages. -/
def text (o : Operand) : Bytes :=
  match o.kind with
  | .empty => ascii "-"
  | .address => Bytes.ofInt o.value
  | .pointer => ascii "(" ++ Bytes.ofInt o.value ++ ascii ")"
  | .label => ascii "@" ++ Bytes.ofInt o.value
  | .literal => ascii "#" ++ Bytes.ofInt o.value
  | .other code =>
    ascii "operand(" ++ Bytes.ofInt code.toInt ++ ascii ":" ++ Bytes.ofInt o.value ++ ascii ")"

@[simp]
theorem word_cell (a : Addr) : (cell a).word = a := by simp [cell, word]

@[simp]
theorem word_pointer (a : Addr) : (pointer a).word = a := by simp [pointer, word]

@[simp]
theorem word_literal (n : Int64) : (literal n).word = n := by simp [literal, word]

end Operand

/-- An instruction with its operands. -/
structure Quad where
  op : Opcode
  arg1 : Operand := Operand.none
  arg2 : Operand := Operand.none
  res : Operand := Operand.none
  deriving DecidableEq, Repr

/-- A quadruple in columns. -/
def Quad.text (q : Quad) : Bytes :=
  Bytes.padRight 8 q.op.name ++ ascii " " ++ Bytes.padLeft 6 q.arg1.text ++ ascii " " ++
    Bytes.padLeft 6 q.arg2.text ++ ascii " " ++ Bytes.padLeft 6 q.res.text

end Quadlang
