-- Declarations: variables, functions, parameters, classes and their instances.
import Quadlang.Action
import Quadlang.Generator.Scopes

namespace Quadlang

/-! ## Arrays -/

/-- Why the sizes of an array are refused. -/
inductive DimError
  | badSize (size : Int64)
  | tooMany
  deriving DecidableEq, Repr

/-- The dimensions of an array in row-major order, and the number of elements. The last
dimension is laid out first, and no part may have more elements than `limit`. -/
def Dim.layOut (limit : Int64) : (sizes : List Int64) → Except DimError (Int64 × List Dim)
  | [] => .ok (1, [])
  | size :: sizes =>
    match layOut limit sizes with
    | .error e => .error e
    | .ok (stride, dims) =>
      if size ≤ 0 then .error (.badSize size)
      else if limit / stride < size then .error .tooMany
      else .ok (stride * size, ⟨size, stride⟩ :: dims)

/-! ## Types of declarations -/

/-- The type that a declaration gives to its identifier. A class may hold instances of
other classes only, and its values are not passed around. -/
def Generator.declaredType (g : Generator) (id typeName : Bytes) (o : DeclOptions) :
    Except Fault SymbolType :=
  match Ty.ofWord? typeName with
  | some ty =>
    if ty = .void ∧ !o.isFunction then .error (.voidVariable id) else .ok (.value ty)
  | none =>
    match g.lookup typeName with
    | none => .error (.unknownType typeName id)
    | some sym =>
      if !sym.isRecord then .error (.unknownType typeName id)
      else if sym.scope = some g.current then .error (.containsItself typeName id)
      else if o.isFunction ∨ o.isParam then .error (.classPassed typeName id)
      else .ok (.object sym.name (Scope.fields (sym.scope.elim [] fun scope =>
        (g.scope scope).symbols)))

/-- The dimensions of a declaration. -/
def Generator.declaredDims (g : Generator) (id : Bytes) (o : DeclOptions) :
    Except Fault (List Dim) :=
  match Dim.layOut g.memory.layout.widest o.dims with
  | .ok (_, dims) => .ok dims
  | .error (.badSize size) => .error (.badDimension id size)
  | .error .tooMany => .error (.tooManyElements id o.dims g.memory.layout.widest)

namespace Generate

/-- Goes on with a result, or fails with its cause. -/
def lift {α : Type} : Except Fault α → Generate α
  | .ok a => return a
  | .error cause => fault cause

/-! ## Instances -/

/-- Gives the fields of a template their own addresses in the directory of an instance. -/
def fillFields (object : Bytes) (segment : Segment) : (scope : ScopeId) → (path : List Bytes) →
    Template → Generate Unit
  | _, _, .nil => return
  | scope, path, .variable name ty dims rest => do
    let a ← alloc (.field object (path ++ [name])) ty segment (Dim.total dims)
    modifyScope scope (·.add { name, kind := .variable (some a), type := .value ty, dims })
    fillFields object segment scope path rest
  | scope, path, .nested name className fields rest => do
    let inner ← newScope name .object (some name)
    fillFields object segment inner (path ++ [name]) fields
    modifyScope scope (·.add
      { name, kind := .variable none, type := .object className fields, scope := some inner })
    fillFields object segment scope path rest

/-- Makes the directory of a new instance. -/
def instantiate (object : Bytes) (fields : Template) : Generate ScopeId := do
  let segment := (← get).segment
  let scope ← newScope object .object (some object)
  fillFields object segment scope [] fields
  return scope

/-! ## Declarations -/

/-- Adds a symbol to the innermost scope. -/
def addHere (sym : Symbol) : Generate Unit := do
  modifyScope (← get).current (·.add sym)

/-- Adds the parameter just declared to the function whose header is open. -/
def addParam (sym : Symbol) : Generate Unit := do
  let g ← get
  match g.function, sym.kind with
  | some (callee, scope), .variable (some address) =>
    if scope = g.current then
      modifyScope 0 (·.addParam callee.name ⟨sym.name, sym.ty, address⟩)
    else fault (.paramOutsideHeader sym.name)
  | _, _ => fault (.paramOutsideHeader sym.name)

/-- Declares a function of a type and enters its body. -/
def declareFunction (id : Bytes) (ty : Ty) (o : DeclOptions) : Generate Symbol := do
  let g ← get
  if g.here.kind ≠ .program then fault (.functionNotOutermost id)
  let target := g.quads.size
  let address ← alloc (.function id) ty .stack 1
  let sym : Symbol :=
    { name := id, kind := .function address target [], type := .value ty, isParam := o.isParam }
  if o.isParam then
    addHere sym
    fault (.paramOutsideHeader id)
  let scope ← newScope id .function (some id)
  let sym := { sym with scope := some scope }
  addHere sym
  modify fun g => { g with function := some (⟨id, ty, address, target⟩, scope) }
  enterScope scope
  return sym

/-- Declares a variable: an instance of a class, a field of a class, which is stored only
as part of an instance, or a variable with addresses of its own. -/
def declareVariable (id : Bytes) (type : SymbolType) (dims : List Dim) (o : DeclOptions) :
    Generate Symbol := do
  let g ← get
  let sym : Symbol := { name := id, kind := .variable none, type, dims, isParam := o.isParam }
  let sym ← match type with
    | .object _ fields =>
      if g.here.kind = .record then pure sym
      else do
        let scope ← instantiate id fields
        pure { sym with scope := some scope }
    | .value ty =>
      if g.here.kind = .record then pure sym
      else do
        let address ← alloc (.variable id) ty g.segment sym.size
        pure { sym with kind := .variable (some address) }
  addHere sym
  if o.isParam then addParam sym
  if o.enter then
    if let some scope := sym.scope then enterScope scope
  return sym

/-- Declares an identifier of the named type in the innermost scope. -/
def declare (id typeName : Bytes) (o : DeclOptions) : Generate Symbol := do
  let g ← get
  if (g.here.find? id).isSome then fault (.duplicate id g.here.name)
  let type ← lift (g.declaredType id typeName o)
  let dims ← lift (g.declaredDims id o)
  match type with
  | .object _ _ => do
    if !dims.isEmpty then fault (.notArrayable id)
    declareVariable id type dims o
  | .value ty => do
    if !dims.isEmpty ∧ (o.isFunction ∨ o.isParam) then fault (.notArrayable id)
    if o.isFunction then declareFunction id ty o else declareVariable id type dims o

/-- Ends the body of the function that is open. -/
def endFunction : Generate Unit := do
  let g ← get
  match g.function with
  | none => fault .endFunctionOutside
  | some (callee, scope) => do
    if scope ≠ g.current then fault .endFunctionOutside
    emit { op := .endFunction, res := .cell callee.address }
    modify fun g => { g with function := none }
    leaveScope

/-- Declares a class and enters its body. -/
def declareClass (id : Bytes) : Generate Symbol := do
  let g ← get
  if g.here.kind ≠ .program then fault (.classNotOutermost id)
  if (g.here.find? id).isSome then fault (.duplicate id g.here.name)
  let scope ← newScope id .record (some id)
  let sym : Symbol :=
    { name := id, kind := .record, type := .object id .nil, scope := some scope }
  addHere sym
  enterScope scope
  return sym

/-! ## Declarations put aside -/

/-- Puts a name aside until its type is complete. -/
def pushPending (id : Bytes) : Generate Unit :=
  modify fun g => { g with waiting := { name := id } :: g.waiting }

/-- Adds a dimension to the last name put aside. -/
def addPendingDim (size : Int64) : Generate Unit := do
  match (← get).waiting with
  | [] => fault .noPendingDeclaration
  | w :: rest =>
    modify fun g => { g with waiting := { w with dims := w.dims ++ [size] } :: rest }

/-- Declares names of one type, one after another. -/
def declareAll (typeName : Bytes) : List Waiting → Generate Unit
  | [] => return
  | w :: rest => do
    let _ ← declare w.name typeName { dims := w.dims }
    declareAll typeName rest

/-- Declares the names put aside. -/
def declarePending (typeName : Bytes) : Generate Unit := do
  let waiting := (← get).waiting.reverse
  modify fun g => { g with waiting := [] }
  declareAll typeName waiting

end Generate

end Quadlang
