-- Running a program: instruction after instruction until the next one would lie behind
-- the last, until one fails, or until a number of steps is used up.
import Quadlang.Machine.Step

namespace Quadlang

/-- How a run ends. -/
inductive Outcome
  | finished
  | failed (ip : Int) (op : Opcode) (cause : RunFault)
  | canceled (ip : Int)
  /-- A jump went to a position before the first instruction. -/
  | crashed
  deriving DecidableEq

def Outcome.message : Outcome → Bytes
  | .failed ip op cause =>
    ascii "ip " ++ Bytes.ofInt ip ++ ascii ": " ++ Bytes.within op.name cause.message
  | .canceled ip => ascii "ip " ++ Bytes.ofInt ip ++ ascii ": context canceled"
  | _ => []

/-- How far a machine is: the next instruction, and the numbers of calls under way, of
records not yet entered and of indices not yet used. -/
structure Progress where
  ip : Int
  frames : Nat
  pending : Nat
  indices : Nat
  deriving DecidableEq, Repr

namespace Machine

def progress (m : Machine) : Progress :=
  ⟨m.ip, m.frames.length, m.pending.length, m.indices.length⟩

/-- Whether the next instruction lies behind the last. -/
def isDone (m : Machine) (im : Image) : Bool := im.quads.size ≤ m.ip

/-- A machine that has begun its next instruction. -/
def advance (m : Machine) : Machine := { m with ip := m.ip + 1, steps := m.steps + 1 }

/-- One step: the machine after it, and how the run ends if it ends here. -/
def step (im : Image) (m : Machine) : Option Outcome × Machine :=
  match im.fetch? m.ip with
  | none => (some .crashed, m)
  | some q =>
    match Execute.exec im q m.advance with
    | .ok _ m' => (none, m')
    | .error cause m' => (some (.failed m.ip q.op cause), m')

/-- Runs a machine for at most `limit` steps. -/
def run (im : Image) : (limit : Nat) → Machine → Outcome × Machine
  | 0, m => if m.isDone im then (.finished, m) else (.canceled m.ip, m)
  | limit + 1, m =>
    if m.isDone im then (.finished, m)
    else match m.step im with
      | (some outcome, m') => (outcome, m')
      | (none, m') => run im limit m'

/-- How far a machine is before each of its first `limit` steps. -/
def trace (im : Image) : (limit : Nat) → Machine → List Progress
  | 0, _ => []
  | limit + 1, m =>
    if m.isDone im then []
    else match m.step im with
      | (some _, _) => [m.progress]
      | (none, m') => m.progress :: trace im limit m'

end Machine

end Quadlang
