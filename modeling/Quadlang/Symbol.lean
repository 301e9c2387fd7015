-- Symbols and scopes: what the identifiers of a program stand for, and the directories
-- that hold them.
import Quadlang.Memory.Layout

namespace Quadlang

/-- A dimension of an array: how many indices it has, and how far apart their elements
are. -/
structure Dim where
  size : Int64
  stride : Int64
  deriving DecidableEq, Repr

/-- The number of elements of an array, as a machine word. A variable that is no array
counts as one. -/
def Dim.total (dims : List Dim) : Int64 := dims.foldl (fun n d => n * d.size) 1

/-- The fields of a class, in order of declaration. A field is a variable, or an instance
of another class with fields of its own. -/
inductive Template
  | nil
  | variable (name : Bytes) (ty : Ty) (dims : List Dim) (rest : Template)
  | nested (name : Bytes) (className : Bytes) (fields : Template) (rest : Template)
  deriving DecidableEq, Repr

inductive SymbolType
  | value (ty : Ty)
  | object (className : Bytes) (fields : Template)
  deriving DecidableEq, Repr

structure Param where
  name : Bytes
  ty : Ty
  address : Addr
  deriving DecidableEq, Repr

/-- The number of a scope. Scopes are numbered in order of creation. -/
abbrev ScopeId := Nat

/-- What a symbol stands for. A variable has an address if it is stored on its own: an
instance and a field of a class are not. A function has an address for its return value,
and the position of its first instruction. -/
inductive Symbol.Kind
  | variable (address : Option Addr)
  | function (address : Addr) (target : Nat) (params : List Param)
  | record
  deriving DecidableEq, Repr

/-- A declared identifier. -/
structure Symbol where
  name : Bytes
  kind : Symbol.Kind
  type : SymbolType
  isParam : Bool := false
  dims : List Dim := []
  /-- The directory behind the symbol: the body of a function, the fields of a class or
  of an instance. -/
  scope : Option ScopeId := none
  deriving DecidableEq, Repr

namespace Symbol

/-- The type of the values that a symbol yields. -/
def ty (s : Symbol) : Ty :=
  match s.type with
  | .value ty => ty
  | .object _ _ => .record

def typeName (s : Symbol) : Bytes :=
  match s.type with
  | .value ty => ty.name
  | .object className _ => className

/-- The number of addresses that a symbol occupies. -/
def size (s : Symbol) : Int64 := Dim.total s.dims

/-- Where a symbol is stored. -/
def address? (s : Symbol) : Option Addr :=
  match s.kind with
  | .variable address => address
  | .function address _ _ => some address
  | .record => none

def params (s : Symbol) : List Param :=
  match s.kind with
  | .function _ _ params => params
  | _ => []

def isFunction (s : Symbol) : Bool :=
  match s.kind with
  | .function .. => true
  | _ => false

def isRecord (s : Symbol) : Bool := s.kind = .record

end Symbol

/-! ## Scopes -/

/-- What a scope belongs to. -/
inductive Scope.Kind
  | program
  | function
  | record
  | object
  deriving DecidableEq, Repr

def Scope.Kind.name : Scope.Kind → Bytes
  | .program => ascii "program"
  | .function => ascii "func"
  | .record => ascii "class"
  | .object => ascii "instance"

/-- The directory of a program, of the body of a function, of the fields of a class, or of
one of its instances. Its symbols are in order of declaration. -/
structure Scope where
  name : Bytes
  kind : Scope.Kind
  owner : Option Bytes
  symbols : List Symbol
  deriving DecidableEq, Repr

namespace Scope

/-- A directory without symbols. -/
def empty (name : Bytes) (kind : Kind) (owner : Option Bytes) : Scope := ⟨name, kind, owner, []⟩

/-- The symbol of a name. -/
def find? (s : Scope) (name : Bytes) : Option Symbol := s.symbols.find? (·.name = name)

/-- Adds a symbol behind the others. -/
def add (s : Scope) (sym : Symbol) : Scope := { s with symbols := s.symbols ++ [sym] }

def addParam (s : Scope) (function : Bytes) (p : Param) : Scope :=
  { s with
    symbols := s.symbols.map fun sym =>
      match sym.kind with
      | .function address target params =>
        if sym.name = function then { sym with kind := .function address target (params ++ [p]) }
        else sym
      | _ => sym }

/-- The fields that the symbols of a class describe. -/
def fields (symbols : List Symbol) : Template :=
  symbols.foldr (fun sym rest =>
    match sym.type with
    | .value ty => .variable sym.name ty sym.dims rest
    | .object className inner => .nested sym.name className inner rest) .nil

end Scope

end Quadlang
