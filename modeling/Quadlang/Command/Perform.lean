-- What the commands do, over whatever gives them files, input and output.
import Quadlang.Command.Line
import Quadlang.Compile
import Quadlang.Files
import Quadlang.Machine.Run
import Quadlang.Program.Annotated

namespace Quadlang

/-- Why a file was not saved: its lock was not had, or it was not written. -/
inductive SaveError
  | lock (e : FileError)
  | write (e : FileError)
  deriving DecidableEq

/-- What the commands need around them. -/
structure Host (m : Type → Type) where
  /-- Reads a file. -/
  readFile : (name : Bytes) → m (Except FileError Bytes)
  /-- Writes a file while it holds the lock beside it. -/
  saveFile : (name content : Bytes) → m (Except SaveError Unit)
  /-- Writes to the output. -/
  print : Bytes → m Unit
  /-- Writes to the output for errors. -/
  complain : Bytes → m Unit
  /-- Runs a program on the input that is left. -/
  execute : Image → Program → m Outcome

/-! ## Errors -/

/-- Why a file does not give a program. -/
inductive SourceError
  | unreadable (e : FileError)
  | wrong (e : CompileError)
  deriving DecidableEq

def SourceError.message : SourceError → Bytes
  | .unreadable e => Bytes.within (ascii "read file") e.message
  | .wrong e => e.message

/-- Why a program was not run to its end. -/
inductive RunError
  | source (e : SourceError)
  | stopped (outcome : Outcome)
  deriving DecidableEq

def RunError.message : RunError → Bytes
  | .source e => Bytes.within (ascii "compile") e.message
  | .stopped outcome => Bytes.within (ascii "run") outcome.message

/-- Why a command failed. -/
inductive CommandError
  | source (name : Bytes) (e : SourceError)
  | listing (name : Bytes) (e : Program.ListingError)
  | save (name : Bytes) (e : SaveError)
  | programsFailed (failed total : Nat)
  deriving DecidableEq

def CommandError.message : CommandError → Bytes
  | .source name e => Bytes.within (ascii "compile " ++ name) e.message
  | .listing name e => Bytes.within (ascii "format " ++ name) e.message
  | .save name (.lock e) => Bytes.within (ascii "lock " ++ name) e.message
  | .save _ (.write e) => Bytes.within (ascii "write listing") e.message
  | .programsFailed failed total =>
    Bytes.ofNat failed ++ ascii " of " ++ Bytes.ofNat total ++ ascii " programs failed"

/-! ## Commands -/

namespace Host

variable {m : Type → Type} [Monad m]

/-- The program in a file. -/
def program (host : Host m) (name : Bytes) : m (Except SourceError Program) := do
  match ← host.readFile name with
  | .error e => return .error (.unreadable e)
  | .ok text =>
    match compile text with
    | .error e => return .error (.wrong e)
    | .ok p => return .ok p

/-- The listings of the programs in files, one after another, up to the first that fails. -/
def listings (host : Host m) (annotate : Bool) :
    (names : List Bytes) → m (Except CommandError Bytes)
  | [] => return .ok []
  | name :: rest => do
    match ← host.program name with
    | .error e => return .error (.source name e)
    | .ok p =>
      match if annotate then p.annotated else .ok p.listing with
      | .error e => return .error (.listing name e)
      | .ok b => return (← host.listings annotate rest).map (b ++ ·)

/-- Compiles files and prints or saves their listings. -/
def compileFiles (host : Host m) (o : Options) (names : List Bytes) :
    m (Except CommandError Unit) := do
  match ← host.listings o.annotate names with
  | .error e => return .error e
  | .ok b =>
    if o.out = [] then
      host.print b
      return .ok ()
    else
      match ← host.saveFile o.out b with
      | .error e => return .error (.save o.out e)
      | .ok _ => return .ok ()

/-- Compiles a file and runs its program. -/
def runFile (host : Host m) (maxDepth : Int) (name : Bytes) : m (Except RunError Unit) := do
  match ← host.program name with
  | .error e => return .error (.source e)
  | .ok p =>
    match ← host.execute (Image.ofProgram p maxDepth) p with
    | .finished => return .ok ()
    | outcome => return .error (.stopped outcome)

/-- Runs files one after another, complains of each that fails, and counts them. -/
def countFailed (host : Host m) (maxDepth : Int) : (names : List Bytes) → m Nat
  | [] => return 0
  | name :: rest => do
    match ← host.runFile maxDepth name with
    | .ok _ => host.countFailed maxDepth rest
    | .error e =>
      host.complain (name ++ ascii ": " ++ e.message ++ ascii "\n")
      return (← host.countFailed maxDepth rest) + 1

/-- Runs files one after another, whether or not those before succeeded. -/
def runFiles (host : Host m) (o : Options) (names : List Bytes) : m (Except CommandError Unit) := do
  match ← host.countFailed o.maxDepth names with
  | 0 => return .ok ()
  | failed => return .error (.programsFailed failed names.length)

/-- Does what a command asks for. -/
def perform (host : Host m) : Command → Options → List Bytes → m (Except CommandError Unit)
  | .compile => host.compileFiles
  | .run => host.runFiles

/-- Follows a command line and gives the exit code. -/
def follow (host : Host m) (args : List Bytes) : m UInt32 := do
  let refuse (message : Bytes) : m UInt32 := do
    host.complain (ascii "error: " ++ message ++ ascii "\n")
    return 1
  match Command.find {} args with
  | .error e => refuse e.message
  | .ok (_, none) => return 0
  | .ok (o, some (c, rest)) =>
    match c.arguments o rest with
    | .error e => refuse (Bytes.within c.name e.message)
    | .ok (o, names) =>
      match ← host.perform c o names with
      | .error e => refuse (Bytes.within c.name e.message)
      | .ok _ => return 0

end Host

end Quadlang
