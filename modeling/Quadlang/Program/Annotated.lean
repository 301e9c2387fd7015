-- The annotated listing of a program: jump targets carry labels, addresses are shown by
-- segment, type and offset, and constants with their values.
import Quadlang.Program
import Quadlang.Text.Quoted

namespace Quadlang.Program

/-- Why a program has no annotated listing. -/
inductive ListingError
  | unsupportedOperand (position : Nat) (op : Opcode) (o : Operand)
  | malformedConstant
  deriving DecidableEq, Repr

/-- The message about an operand of unknown kind. A character range that holds something
else is beyond any message. -/
def ListingError.message : ListingError → Bytes
  | .unsupportedOperand position op o =>
    ascii "quad " ++ Bytes.ofNat position ++ ascii ": " ++ op.name ++
    ascii ": unsupported operand: " ++
      o.text
  | .malformedConstant => []

/-- A constant as its type writes it. -/
def constantText (ty : Ty) (v : Value) : Except ListingError Bytes :=
  match ty, v with
  | .string, v => .ok (Text.quote v.text)
  | .char, .char c => .ok (Text.quoteChar c.toInt)
  | .char, _ => .error .malformedConstant
  | _, v => .ok v.text

/-- An address by its owner, with the value if it is a constant, or as a bare number if no
range holds it. -/
def addressText (p : Program) (t : Table) (a : Addr) : Except ListingError Bytes :=
  match t.locate? a with
  | none => .ok (Bytes.ofWord a)
  | some s => do
    let place := s.segment.name ++ ascii "." ++ s.ty.name ++ ascii "+" ++ Bytes.ofWord (a - s.low)
    match p.consts[a]? with
    | some v =>
      if s.segment = .globals then
        let text ← constantText s.ty v
        return place ++ ascii "(" ++ text ++ ascii ")"
      else return place
    | none => return place

/-- An operand of the instruction at a position. -/
def operandText (p : Program) (t : Table) (position : Nat) (op : Opcode) (o : Operand) :
    Except ListingError Bytes :=
  match o.kind with
  | .empty => .ok (ascii "-")
  | .literal => .ok (ascii "#" ++ Bytes.ofInt o.value)
  | .label => .ok (ascii "L" ++ Bytes.ofInt o.value)
  | .pointer => do return ascii "*" ++ (← p.addressText t o.word)
  | .address => p.addressText t o.word
  | .other _ => .error (.unsupportedOperand position op o)

/-- The positions that carry a label: the entry and every label among the results. -/
def targets (p : Program) : List Int :=
  p.entry :: (p.quads.toList.filter fun q => q.res.kind = .label).map (·.res.value)

/-- An instruction with its operands, under its label if it has one. -/
def annotatedLine (p : Program) (t : Table) (labels : List Int) (i : Nat) (q : Quad) :
    Except ListingError Bytes := do
  let label := if labels.contains (i : Int) then ascii "L" ++ Bytes.ofNat i ++ ascii ":\n" else []
  let arg1 ← p.operandText t i q.op q.arg1
  let arg2 ← p.operandText t i q.op q.arg2
  let res ← p.operandText t i q.op q.res
  return label ++ ascii "\t" ++ Bytes.padRight 8 q.op.name ++ ascii " " ++ arg1 ++
    ascii ", " ++ arg2 ++ ascii ", " ++ res ++ ascii "\n"

def annotated (p : Program) : Except ListingError Bytes := do
  let t := p.layout.table
  let labels := p.targets
  let lines ← p.quads.toList.zipIdx.mapM fun (q, i) => p.annotatedLine t labels i q
  return ascii "program " ++ p.name ++ ascii "\n" ++ lines.flatten

end Quadlang.Program
