-- Compiling a text: its tokens are read as actions, and the actions are performed up to
-- the first that fails.
import Quadlang.Generator.Perform
import Quadlang.Grammar.Program

namespace Quadlang

/-- Why a text does not compile. -/
inductive TextError
  | text (e : SyntaxError)
  | meaning (line : Int) (cause : Fault)
  | crash
  deriving DecidableEq

namespace TextError

/-- The message of an error. A crash has none. -/
def message : TextError → Bytes
  | .text e => e.message
  | .meaning line cause =>
    ascii "semantic error at line " ++ Bytes.ofInt line ++ ascii ": " ++ cause.message
  | .crash => []

def line? : TextError → Option Int
  | .text e => some e.line
  | .meaning line _ => some line
  | .crash => none

/-- What ended an action, seen from the line of the action. -/
def ofStop (g : Generator) : Stop → TextError
  | .fault cause => .meaning g.line cause
  | .crash => .crash

end TextError

namespace Generator

/-- Performs what a text asks for. An action that fails comes before any error in the
text behind it, and an error in a token before everything. -/
def parse (g : Generator) (text : Bytes) : Except TextError Unit × Generator :=
  match Token.scan text with
  | .error e => (.error (.text e), g)
  | .ok tokens =>
    let reading := Grammar.read tokens
    match Generate.performAll reading.events g with
    | .error stop g => (.error (.ofStop g stop), g)
    | .ok _ g =>
      let g := { g with line := reading.line }
      match reading.error with
      | some e => (.error (.text e), g)
      | none => (.ok (), g)

end Generator

/-- Why a program is not compiled: its text is wrong, or leaves something open. -/
inductive CompileError
  | parse (e : TextError)
  | finish (e : TextError)
  deriving DecidableEq

namespace CompileError

def cause : CompileError → TextError
  | .parse e => e
  | .finish e => e

def message : CompileError → Bytes
  | .parse e => Bytes.within (ascii "parse text") e.message
  | .finish e => Bytes.within (ascii "finish") e.message

end CompileError

def compile (text : Bytes) : Except CompileError Program :=
  match Generator.initial.parse text with
  | (.error e, _) => .error (.parse e)
  | (.ok _, g) =>
    match Generate.finish g with
    | .error stop g => .error (.finish (.ofStop g stop))
    | .ok p _ => .ok p

end Quadlang
