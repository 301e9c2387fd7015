-- Commands in a directory that is a value: what they read is given, and what they write
-- is kept.
import Quadlang.Command.Perform

namespace Quadlang

/-- The surroundings of a command as a value. -/
structure Session where
  directory : Directory
  /-- The input that is left. -/
  input : Bytes
  /-- What was printed. -/
  output : Bytes := []
  /-- What was complained of. -/
  complaints : Bytes := []

namespace Session

/-- The name of the lock beside a file. -/
def lockName (name : Bytes) : Bytes := name ++ ascii ".lock"

/-- Saves a file. The lock stays behind as an empty file, also if the file is not written. -/
def save (name content : Bytes) : StateM Session (Except SaveError Unit) := do
  match (← get).directory.touch (lockName name) with
  | .error e => return .error (.lock e)
  | .ok d =>
    modify fun s => { s with directory := d }
    match d.write name content with
    | .error e => return .error (.write e)
    | .ok d =>
      modify fun s => { s with directory := d }
      return .ok ()

/-- Runs a program for at most `limit` steps. -/
def execute (limit : Nat) (im : Image) (p : Program) : StateM Session Outcome := do
  let (outcome, m) := (Machine.start p (← get).input none).run im limit
  modify fun s => { s with input := m.input, output := s.output ++ m.written }
  return outcome

/-- The commands in a session, each program of which runs for at most `limit` steps. -/
def host (limit : Nat) : Host (StateM Session) where
  readFile name := return (← get).directory.read name
  saveFile := save
  print b := modify fun s => { s with output := s.output ++ b }
  complain b := modify fun s => { s with complaints := s.complaints ++ b }
  execute := execute limit

end Session

end Quadlang
