-- Compiled programs, and their plain listing.
import Quadlang.Memory.Cells
import Quadlang.Quad

namespace Quadlang

/-- A compiled program: its instructions, the layout of its memory, and its constants. -/
structure Program where
  name : Bytes
  quads : Array Quad
  layout : Layout
  consts : Cells

namespace Program

/-- Where execution begins: at the target of a jump in the first place, else at the first
instruction. -/
def entry (p : Program) : Int :=
  match p.quads[0]? with
  | some q => if q.op = .goto ∧ q.res.kind = .label then q.res.value else 0
  | none => 0

/-- A line of the listing: a position and the instruction there. -/
def listingLine (i : Nat) (q : Quad) : Bytes :=
  Bytes.padLeft 4 (Bytes.ofNat i) ++ ascii "  " ++ q.text ++ ascii "\n"

def listingHead (p : Program) : Bytes :=
  ascii "// program " ++ p.name ++ ascii ": " ++ Bytes.ofNat p.quads.size ++
  ascii " quadruples, " ++
    Bytes.ofNat p.consts.size ++ ascii " constants\n"

/-- The numbered listing of a program. -/
def listing (p : Program) : Bytes :=
  p.listingHead ++ (p.quads.toList.zipIdx.map fun (q, i) => listingLine i q).flatten

end Program

end Quadlang
