-- The state of a machine: memory in frames, calls under way, and what is left of the
-- input. The innermost call reads its own frame first and then those around it.
import Quadlang.Machine.Fault
import Quadlang.Program

namespace Quadlang

/-- The record of a call: the return slot of the function, the cells that belong to the
call, the instruction after it, and the value that a return has put aside. -/
structure Frame where
  callee : Addr
  cells : Cells := Cells.empty
  returnTo : Int := 0
  staged : Option Value := none

/-- An index that was checked, and the distance of the elements that it counts. -/
structure Index where
  index : Int64
  stride : Int64
  deriving DecidableEq, Repr

/-- A program as the machine keeps it: its instructions, the owners of its addresses, and
how many records may be live. -/
structure Image where
  quads : Array Quad
  table : Table
  depth : Nat

/-- The state of a machine. Every stack has its top first. -/
structure Machine where
  /-- The next instruction. -/
  ip : Int
  /-- The number of instructions begun. -/
  steps : Nat := 0
  globals : Cells
  /-- The calls under way. -/
  frames : List Frame := []
  /-- The records of calls whose arguments are being passed. -/
  pending : List Frame := []
  /-- The indices that were checked and not yet used. -/
  indices : List Index := []
  input : Bytes
  /-- The lines written. -/
  output : List Bytes := []
  /-- How many more lines can be written, if that is limited. -/
  room : Option Nat := none

namespace Image

/-- The number of live records that a program may have unless it is told otherwise. -/
def defaultDepth : Nat := 1024

/-- A program with a limit on its live records. A limit below one stands for the default. -/
def ofProgram (p : Program) (depth : Int) : Image :=
  ⟨p.quads, p.layout.table, if depth ≤ 0 then defaultDepth else depth.toNat⟩

/-- The type that an address holds. -/
def typeOf (im : Image) (a : Addr) : Ty := (im.table.locate? a).elim .invalid (·.ty)

/-- The instruction at a position. -/
def fetch? (im : Image) : (ip : Int) → Option Quad
  | .ofNat i => im.quads[i]?
  | .negSucc _ => none

/-- The first end of a function at or after a position. -/
def functionEnd? (im : Image) (function : Addr) (position : Nat) : Option Nat :=
  if h : position < im.quads.size then
    let q := im.quads[position]
    if q.op = .endFunction ∧ q.res.word = function then some position
    else functionEnd? im function (position + 1)
  else none
termination_by im.quads.size - position

end Image

namespace Machine

/-- A machine at the beginning of a program. -/
def start (p : Program) (input : Bytes) (room : Option Nat) : Machine :=
  { ip := p.entry, globals := p.consts, input, room }

/-- The cells of the innermost call, or those of the program outside of any call. -/
def current (m : Machine) : Cells :=
  match m.frames with
  | [] => m.globals
  | f :: _ => f.cells

/-- What a cell holds, looked for from the innermost call outwards. -/
def get? (m : Machine) (a : Addr) : Option Value :=
  match m.frames.findSome? fun f => f.cells[a]? with
  | some v => some v
  | none => m.globals[a]?

/-- Writes a cell of the innermost call. -/
def setCurrent (m : Machine) (a : Addr) (v : Value) : Machine :=
  match m.frames with
  | [] => { m with globals := m.globals.insert a v }
  | f :: rest => { m with frames := { f with cells := f.cells.insert a v } :: rest }

/-- Writes a cell of the program. -/
def setGlobal (m : Machine) (a : Addr) (v : Value) : Machine :=
  { m with globals := m.globals.insert a v }

/-- All that was written, in order. -/
def written (m : Machine) : Bytes := m.output.reverse.flatten

end Machine

/-- A step of a machine. A failed instruction keeps what it did before it failed. -/
abbrev Execute := EStateM RunFault Machine

namespace Execute

/-- Goes on with a result, or fails with its cause. -/
def lift {α : Type} : Except RunFault α → Execute α
  | .ok a => return a
  | .error cause => throw cause

def cell (a : Addr) : Execute Value := do
  match (← get).get? a with
  | some v => return v
  | none => throw (.uninitialized a)

/-- The cell that an operand names. -/
def address (o : Operand) : Execute Addr :=
  match o.kind with
  | .address => return o.word
  | .pointer => do
    match (← get).get? o.word with
    | none => throw (.uninitializedPointer o.word)
    | some (.int a) => return a
    | some v => throw (.notAPointer o.word v)
  | _ => throw (.notAnAddress o)

/-- The value of an operand. -/
def load (o : Operand) : Execute Value :=
  match o.kind with
  | .literal => return .int o.word
  | .address | .pointer => do cell (← address o)
  | _ => throw (.notLoadable o)

/-- Writes a cell: of the innermost call if its segment belongs to calls, else of the
program. -/
def store (im : Image) (a : Addr) (v : Value) : Execute Unit :=
  match im.table.locate? a with
  | none => throw (.outOfLayout a)
  | some s =>
    match s.segment with
    | .functions | .temps | .stack => modify fun m => m.setCurrent a v
    | _ => modify fun m => m.setGlobal a v

/-- Writes a cell in the representation of its type. -/
def storeAs (im : Image) (a : Addr) (v : Value) : Execute Unit :=
  store im a (v.convert (im.typeOf a))

def jump (position : Int) : Execute Unit := modify fun m => { m with ip := position }

end Execute

end Quadlang
