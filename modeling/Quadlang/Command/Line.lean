-- The command line: flags, a command, and the names of its files. Flags are read from
-- left to right, before anything is done.
import Quadlang.Decimal.Reading
import Quadlang.Machine.State
import Quadlang.Text.Quoted

namespace Quadlang

/-- What can be asked for. -/
inductive Command
  | compile
  | run
  deriving DecidableEq, Repr

def Command.name : Command → Bytes
  | .compile => ascii "compile"
  | .run => ascii "run"

/-- The command that a word stands for. -/
def Command.ofWord? (word : Bytes) : Option Command := [compile, run].find? (·.name = word)

/-- What the flags set. -/
structure Options where
  /-- Where listings are written; standard output if empty. -/
  out : Bytes := []
  annotate : Bool := false
  maxDepth : Int := Image.defaultDepth
  /-- The topics to log. -/
  verbosity : Bytes := []
  deriving DecidableEq

namespace Options

inductive Flag
  | out
  | annotate
  | maxDepth
  | verbosity
  deriving DecidableEq, Repr

def Flag.names : Flag → List Bytes
  | .out => [ascii "out", ascii "o"]
  | .annotate => [ascii "annotate", ascii "a"]
  | .maxDepth => [ascii "max-depth"]
  | .verbosity => [ascii "verbosity", ascii "v"]

/-- The flags of a command, and those that stand before any command. -/
def flags : Option Command → List Flag
  | some .compile => [.out, .annotate, .verbosity]
  | some .run => [.maxDepth, .verbosity]
  | none => [.verbosity]

/-- What is wrong with a flag. -/
inductive FlagError
  | unknown
  | missingValue
  | notANumber (text : Bytes) (e : Decimal.NumberError)
  | notATruthValue
  deriving DecidableEq

def FlagError.message : FlagError → Bytes
  | .unknown => ascii "no such flag"
  | .missingValue => ascii "flag value is required"
  | .notANumber text e =>
    ascii "strconv.ParseInt: parsing " ++ Text.quote text ++ ascii ": " ++ e.message
  | .notATruthValue => ascii "not a bool value"

/-- A byte with a capital letter made small. -/
def smallLetter (b : UInt8) : UInt8 := if 65 ≤ b ∧ b ≤ 90 then b + 32 else b

/-- Reads a truth value. An empty text is true. -/
def readBool (text : Bytes) : Except FlagError Bool :=
  let word := text.map smallLetter
  if ["", "1", "t", "true", "y", "yes"].any fun w => word = ascii w then .ok true
  else if ["0", "f", "false", "n", "no"].any fun w => word = ascii w then .ok false
  else .error .notATruthValue

def set (o : Options) (f : Flag) (value : Bytes) : Except FlagError Options :=
  match f with
  | .out => .ok { o with out := value }
  | .annotate => (readBool value).map fun b => { o with annotate := b }
  | .maxDepth =>
    match Decimal.readInt value with
    | .ok n => .ok { o with maxDepth := n.toInt }
    | .error e => .error (.notANumber value e)
  | .verbosity => .ok { o with verbosity := value }

def isFlag (argument : Bytes) : Bool :=
  argument.head? = some '-'.toUInt8 && argument ≠ ascii "-" && argument ≠ ascii "--"

/-- The name of a flag and the value written behind it, if there is one. The name ends at
the first equals sign or space. -/
def splitFlag (argument : Bytes) : Bytes × Option Bytes :=
  let dash := '-'.toUInt8
  let body := argument.drop (if argument[1]? = some dash then 2 else 1)
  let isName (b : UInt8) : Bool := b ≠ '='.toUInt8 && b ≠ ' '.toUInt8
  match body.dropWhile isName with
  | [] => (body, none)
  | _ :: value => (body.takeWhile isName, some value)

/-- Reads the flag that an argument holds, with the arguments behind it: the options and
the arguments that are left. Only a flag of a truth value needs no value. -/
def take (command : Option Command) (o : Options) (argument : Bytes) (rest : List Bytes) :
    Except FlagError (Options × List Bytes) :=
  let (name, value) := splitFlag argument
  match (flags command).find? fun f => f.names.contains name, value, rest with
  | none, _, _ => .error .unknown
  | some f, some value, rest => (o.set f value).map (·, rest)
  | some .annotate, none, rest => (o.set .annotate []).map (·, rest)
  | some _, none, [] => .error .missingValue
  | some f, none, value :: rest => (o.set f value).map (·, rest)

/-- Setting a flag leaves the arguments alone. -/
theorem rest_of_map_set {x : Except FlagError Options} {o : Options} {rest rest' : List Bytes}
    (h : x.map (·, rest) = .ok (o, rest')) : rest' = rest := by
  cases x with
  | error e => cases h
  | ok o' =>
    simp only [Except.map, Except.ok.injEq, Prod.mk.injEq] at h
    exact h.2.symm

/-- Reading a flag leaves no more arguments than there were. -/
theorem length_take_le {command : Option Command} {o o' : Options} {argument : Bytes}
    {rest rest' : List Bytes} (h : o.take command argument rest = .ok (o', rest')) :
    rest'.length ≤ rest.length := by
  unfold take at h
  dsimp only at h
  split at h
  · cases h
  · exact Nat.le_of_eq (congrArg List.length (rest_of_map_set h))
  · exact Nat.le_of_eq (congrArg List.length (rest_of_map_set h))
  · cases h
  · rw [rest_of_map_set h]
    exact Nat.le_succ _

end Options

/-- Why a command line is refused. -/
inductive LineError
  | flag (argument : Bytes) (e : Options.FlagError)
  | unexpected (argument : Bytes)
  deriving DecidableEq

def LineError.message : LineError → Bytes
  | .flag argument e => ascii "parse flag: " ++ argument ++ ascii ": " ++ e.message
  | .unexpected argument => ascii "no args expected, got " ++ argument

/-- Reads the arguments of a command: its options and the names of its files. Behind `--`
everything is a name. -/
def Command.arguments (c : Command) (o : Options) (args : List Bytes) :
    Except LineError (Options × List Bytes) :=
  match args with
  | [] => .ok (o, [])
  | a :: rest =>
    if a = ascii "--" then .ok (o, rest)
    else if Options.isFlag a then
      match h : o.take (some c) a rest with
      | .error e => .error (.flag a e)
      | .ok (o, rest') =>
        have := Options.length_take_le h
        c.arguments o rest'
    else (c.arguments o rest).map fun (o, names) => (o, a :: names)
termination_by args.length

/-- The command line before any command: its options, and the command with the arguments
behind it, if there is one. Nothing but flags may stand before a command, and `--` is
no flag. -/
def Command.find (o : Options) (args : List Bytes) :
    Except LineError (Options × Option (Command × List Bytes)) :=
  match args with
  | [] => .ok (o, none)
  | a :: rest =>
    if Options.isFlag a then
      match h : o.take none a rest with
      | .error e => .error (.flag a e)
      | .ok (o, rest') =>
        have := Options.length_take_le h
        Command.find o rest'
    else match Command.ofWord? a with
      | some c => .ok (o, some (c, rest))
      | none => .error (.unexpected a)
termination_by args.length

end Quadlang
