-- References to variables, fields and elements of arrays.
import Quadlang.Generator.Scopes
import Quadlang.Typing

namespace Quadlang.Generate

/-- Begins a reference to a variable. -/
def var (name : Bytes) : Generate Unit := do
  let sym ← resolve name .invalid false
  modify fun g => { g with references := { symbol := sym } :: g.references }

/-- The reference under construction. -/
def topReference : Generate Reference := do
  match (← get).references with
  | r :: _ => return r
  | [] => fault .noReference

/-- Changes the reference under construction. -/
def setReference (r : Reference) : Generate Unit :=
  modify fun g => { g with references := r :: g.references.tail }

/-- Goes on to a field of an instance. -/
def member (name : Bytes) : Generate Unit := do
  let r ← topReference
  if r.indices ≠ 0 then fault (.elementMember name)
  let sym ← findMember r.symbol name
  setReference { r with symbol := sym }

/-- Begins an index. -/
def indexStart : Generate Unit := do
  let r ← topReference
  if r.symbol.dims.length ≤ r.indices then
    fault (.noMoreDimensions r.symbol.name r.symbol.dims.length)
  openGroup

/-- Ends an index: the machine checks it against the size of its dimension. -/
def indexEnd : Generate Unit := do
  let r ← topReference
  closeGroup
  let index ← popOperand
  if (Typing.binaryOf .ver index.ty .int).isNone then fault (.wrongIndexType index.ty r.symbol.name)
  match r.symbol.dims[r.indices]? with
  | none => throw .crash
  | some d => do
    setReference { r with indices := r.indices + 1 }
    emit { op := .ver, arg1 := index.operand, arg2 := .literal d.size, res := .literal d.stride }

/-- Pushes a stored variable, or an element of it once the machine has worked out where it
is. -/
def pushVariable (sym : Symbol) (address : Addr) (indices : Nat) : Generate Unit := do
  if indices = 0 then
    pushOperand { ty := sym.ty, operand := .cell address, addressable := true }
  else
    let pointer ← alloc .elementPointer .int .temps 1
    emit
      { op := .addDim, arg1 := .count indices, arg2 := .literal address, res := .cell pointer }
    pushOperand { ty := sym.ty, operand := .pointer pointer, addressable := true }

/-- Ends a reference, which has to reach a stored variable with an index for each of its
dimensions. -/
def varEnd : Generate Unit := do
  let r ← topReference
  modify fun g => { g with references := g.references.tail }
  let sym := r.symbol
  match sym.kind with
  | .function .. => fault (.functionAsVariable sym.name)
  | .record => fault (.classAsVariable sym.name)
  | .variable address => do
    if sym.ty = .record then fault (.objectAsValue sym.name sym.typeName)
    match address with
    | none => fault (.notStored sym.name)
    | some address => do
      if r.indices ≠ sym.dims.length then
        fault (.wrongIndexCount sym.name sym.dims.length r.indices)
      pushVariable sym address r.indices

end Quadlang.Generate
