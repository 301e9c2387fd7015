-- Scopes: entering and leaving them, and finding what an identifier stands for.
import Quadlang.Generator.State

namespace Quadlang

/-- The symbol of a name, looked for from the innermost scope outwards. -/
def Generator.lookup (g : Generator) (id : Bytes) : Option Symbol :=
  (g.current :: g.enclosing).findSome? fun scope => (g.scope scope).find? id

/-- The function that a symbol is, if it is one. -/
def Symbol.callee? (s : Symbol) : Option Callee :=
  match s.kind with
  | .function address target _ => some ⟨s.name, s.ty, address, target⟩
  | _ => none

/-- The parameters that a function has so far. -/
def Generator.paramsOf (g : Generator) (callee : Callee) : List Param :=
  (g.outermost.find? callee.name).elim [] (·.params)

namespace Generate

def newScope (name : Bytes) (kind : Scope.Kind) (owner : Option Bytes) : Generate ScopeId := do
  let id := (← get).scopes.size
  modify fun g => { g with scopes := g.scopes.push (Scope.empty name kind owner) }
  return id

def modifyScope (id : ScopeId) (f : Scope → Scope) : Generate Unit :=
  modify fun g => { g with scopes := g.scopes.modify id f }

def enterScope (id : ScopeId) : Generate Unit :=
  modify fun g => { g with current := id, enclosing := g.current :: g.enclosing }

/-- Goes back to the enclosing scope. -/
def leaveScope : Generate Unit := do
  match (← get).enclosing with
  | id :: rest => modify fun g => { g with current := id, enclosing := rest }
  | [] => fault .leaveOutermost

/-- Finds a declared identifier. It has to be a function if one is expected, and of the
expected type unless that is invalid. -/
def resolve (id : Bytes) (expected : Ty) (expectFunction : Bool) : Generate Symbol := do
  let g ← get
  match g.lookup id with
  | none => fault (.undeclared id g.here.name)
  | some sym => do
    if expectFunction && !sym.isFunction then fault (.notAFunction id)
    if expected ≠ .invalid ∧ sym.ty ≠ expected then fault (.wrongType id sym.typeName expected)
    return sym

def resolveFunction (id : Bytes) : Generate Callee := do
  let g ← get
  match g.lookup id with
  | none => fault (.undeclared id g.here.name)
  | some sym =>
    match sym.callee? with
    | some callee => return callee
    | none => fault (.notAFunction id)

/-- Finds a field in the directory behind a symbol, and nowhere else. -/
def findMember (base : Symbol) (id : Bytes) : Generate Symbol := do
  if base.isFunction then fault (.functionMember base.name id)
  match base.scope with
  | none => fault (.noMembers base.name)
  | some scope =>
    match ((← get).scope scope).find? id with
    | some sym => return sym
    | none => fault (.noSuchMember id base.name)

end Generate

end Quadlang
