-- The command line program. Lines of input are read when a program asks for them, and
-- output is written as it comes.
import Quadlang.Command.Perform

namespace Quadlang

/-- Whether a system error has a number, with either sign. -/
def hasNumber (code number : UInt32) : Bool := code = number || code + number = 0

/-- What went wrong with a file, as far as the messages tell. -/
def causeOf : IO.Error → FileCause
  | .inappropriateType _ code _ => if hasNumber code 21 then .isADirectory else .notADirectory
  | .invalidArgument _ code _ => if hasNumber code 22 then .invalidName else .nameTooLong
  | .permissionDenied .. => .permissionDenied
  | _ => .notFound

/-- A name as the system takes it. -/
def systemName (name : Bytes) : String := (String.fromUTF8? ⟨name.toArray⟩).getD ""

def readFile (name : Bytes) : IO (Except FileError Bytes) := do
  try
    let content ← IO.FS.readBinFile (systemName name)
    return .ok content.toList
  catch e =>
    let cause := causeOf e
    return .error ⟨if cause = .isADirectory then .reading else .opening, name, cause⟩

/-- Writes a file while it holds the lock beside it. -/
def saveFile (name content : Bytes) : IO (Except SaveError Unit) := do
  let lock := name ++ ascii ".lock"
  try
    let handle ← IO.FS.Handle.mk (systemName lock) .append
    handle.lock
    try
      IO.FS.writeBinFile (systemName name) ⟨content.toArray⟩
      return .ok ()
    catch e => return .error (.write ⟨.opening, name, causeOf e⟩)
    finally handle.unlock
  catch e => return .error (.lock ⟨.opening, lock, causeOf e⟩)

/-- Reads a line of input, its end included. -/
partial def readLine (stream : IO.FS.Stream) (line : Bytes) : IO Bytes := do
  match (← stream.read 1).toList with
  | [] => return line.reverse
  | b :: _ => if b = '\n'.toUInt8 then return (b :: line).reverse else readLine stream (b :: line)

/-- Runs a machine to its end. -/
partial def runMachine (input output : IO.FS.Stream) (im : Image) (m : Machine) : IO Outcome := do
  if m.isDone im then return .finished
  match m.step im with
  | (some (.failed ip op .endOfInput), _) =>
    let line ← readLine input []
    if line.isEmpty then return .failed ip op .endOfInput
    runMachine input output im { m with input := line }
  | (some outcome, _) => return outcome
  | (none, m) =>
    unless m.output.isEmpty do
      output.write ⟨m.written.toArray⟩
      output.flush
    runMachine input output im { m with output := [] }

/-- The system around the commands. -/
def systemHost : IO (Host IO) := do
  let input ← IO.getStdin
  let output ← IO.getStdout
  let errors ← IO.getStderr
  return {
    readFile
    saveFile
    print := fun b => do
      output.write ⟨b.toArray⟩
      output.flush
    complain := fun b => do
      errors.write ⟨b.toArray⟩
      errors.flush
    execute := fun im p => runMachine input output im (Machine.start p [] none) }

end Quadlang

def main (args : List String) : IO UInt32 := do
  let host ← Quadlang.systemHost
  host.follow (args.map fun a => a.toUTF8.toList)
