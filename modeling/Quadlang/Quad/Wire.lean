-- Quadruples as data for logs: a map of texts in the concise binary form, in which the
-- first byte of an item tells its kind and, below twenty-four, its length.
import Quadlang.Quad

namespace Quadlang.Wire

def null : Bytes := [0xF6]

/-- A text of fewer than 256 bytes. -/
def text (b : Bytes) : Bytes :=
  if b.length < 24 then [0x60 + b.length.toUInt8] ++ b else [0x78, b.length.toUInt8] ++ b

/-- An operand: its text, or nothing for an unused place. -/
def operand (o : Operand) : Bytes := if o.kind = .empty then null else text o.text

/-- A quadruple: a map of four entries. -/
def quad (q : Quad) : Bytes :=
  [0xA4] ++ text (ascii "op") ++ text q.op.name ++ text (ascii "a1") ++ operand q.arg1 ++
    text (ascii "a2") ++ operand q.arg2 ++ text (ascii "res") ++ operand q.res

end Quadlang.Wire
