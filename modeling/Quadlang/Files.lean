-- Files by name, as the commands read and write them. A directory holds files and no other
-- directories; a name may still pass through `.` or lead out of it.
import Quadlang.Bytes

namespace Quadlang

/-- What is wrong with a name or with what it stands for. -/
inductive FileCause
  | notFound
  | notADirectory
  | isADirectory
  | nameTooLong
  | invalidName
  | permissionDenied
  deriving DecidableEq, Repr

def FileCause.text : FileCause → Bytes
  | .notFound => ascii "no such file or directory"
  | .notADirectory => ascii "not a directory"
  | .isADirectory => ascii "is a directory"
  | .nameTooLong => ascii "file name too long"
  | .invalidName => ascii "invalid argument"
  | .permissionDenied => ascii "permission denied"

/-- What was done to a file when it failed. -/
inductive FileAccess
  | opening
  | reading
  deriving DecidableEq, Repr

structure FileError where
  access : FileAccess
  name : Bytes
  cause : FileCause
  deriving DecidableEq, Repr

def FileError.message (e : FileError) : Bytes :=
  let access := match e.access with
    | .opening => ascii "open "
    | .reading => ascii "read "
  access ++ e.name ++ ascii ": " ++ e.cause.text

/-- The files of a directory by name. -/
structure Directory where
  files : List (Bytes × Bytes)
  deriving DecidableEq, Repr

namespace Directory

/-- The content of a file of the directory. -/
def get? (d : Directory) (file : Bytes) : Option Bytes := d.files.lookup file

/-- The directory with a file written. -/
def put (d : Directory) (file content : Bytes) : Directory :=
  ⟨(file, content) :: d.files.filter fun f => f.1 ≠ file⟩

/-! ## Names -/

/-- What a name stands for: a directory, or a file of this one that may exist or not. -/
inductive Place
  | directory
  | file (name : Bytes)
  deriving DecidableEq, Repr

/-- The parts of a name between its slashes. -/
def parts : Bytes → List Bytes
  | [] => [[]]
  | b :: rest =>
    if b = '/'.toUInt8 then [] :: parts rest
    else match parts rest with
      | [] => [[b]]
      | part :: more => (b :: part) :: more

/-- A part that stays in its directory. -/
def isHere (part : Bytes) : Bool := part = [] || part = ascii "."

/-- Follows the parts of a name that has left the directory. Nothing is known there but
directories above directories. -/
def walkOutside : List Bytes → Except FileCause Place
  | [] => .ok .directory
  | part :: rest =>
    if isHere part || part = ascii ".." then walkOutside rest
    else if 255 < part.length then .error .nameTooLong
    else .error .notFound

/-- Follows the parts of a name from the directory. -/
def walk (d : Directory) : List Bytes → Except FileCause Place
  | [] => .ok .directory
  | part :: rest =>
    if isHere part then walk d rest
    else if part = ascii ".." then walkOutside rest
    else if 255 < part.length then .error .nameTooLong
    else if rest = [] then .ok (.file part)
    else if (d.get? part).isSome then .error .notADirectory
    else .error .notFound

/-- What a name stands for. -/
def locate (d : Directory) (name : Bytes) : Except FileCause Place :=
  if name.contains 0 then .error .invalidName
  else if name = [] then .error .notFound
  else if 4096 ≤ name.length then .error .nameTooLong
  else if name.head? = some '/'.toUInt8 then walkOutside (parts name)
  else d.walk (parts name)

/-! ## Access -/

/-- Reads a file. A directory can be opened, but has no content. -/
def read (d : Directory) (name : Bytes) : Except FileError Bytes :=
  match d.locate name with
  | .error cause => .error ⟨.opening, name, cause⟩
  | .ok .directory => .error ⟨.reading, name, .isADirectory⟩
  | .ok (.file file) =>
    match d.get? file with
    | some content => .ok content
    | none => .error ⟨.opening, name, .notFound⟩

/-- Makes a change to the file that a name stands for. -/
def change (d : Directory) (name : Bytes) (f : Option Bytes → Bytes) : Except FileError Directory :=
  match d.locate name with
  | .error cause => .error ⟨.opening, name, cause⟩
  | .ok .directory => .error ⟨.opening, name, .isADirectory⟩
  | .ok (.file file) => .ok (d.put file (f (d.get? file)))

def write (d : Directory) (name content : Bytes) : Except FileError Directory :=
  d.change name fun _ => content

/-- Makes sure that a file exists. -/
def touch (d : Directory) (name : Bytes) : Except FileError Directory :=
  d.change name fun old => old.getD []

end Directory

end Quadlang
