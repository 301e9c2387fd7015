-- Calls of functions, and returns from them.
import Quadlang.Generator.Expression
import Quadlang.Generator.Scopes

namespace Quadlang.Generate

/-- Begins a call: the machine makes a record for it. -/
def callStart (name : Bytes) : Generate Unit := do
  let callee ← resolveFunction name
  emit { op := .era, arg1 := .label callee.target, res := .cell callee.address }
  modify fun g => { g with calls := { callee } :: g.calls }
  openGroup

/-- Passes the last operand as the next argument. It has to be of the type of its
parameter. -/
def argument : Generate Unit := do
  let g ← get
  match g.calls with
  | [] => fault .argumentOutside
  | call :: rest =>
    let params := g.paramsOf call.callee
    match params[call.passed]? with
    | none => fault (.tooManyArguments call.callee.name params.length)
    | some p => do
      let x ← popOperand
      if x.ty ≠ p.ty then
        fault (.wrongArgument call.callee.name (call.passed + 1) p.name p.ty x.ty)
      modify fun g => { g with calls := { call with passed := call.passed + 1 } :: rest }
      emit { op := .param, arg1 := x.operand, res := .cell p.address }

/-- Ends a call. Its value goes to a cell of its own unless it is discarded. -/
def callEnd (discard : Bool) : Generate Unit := do
  let g ← get
  match g.calls with
  | [] => fault .endCallOutside
  | call :: rest => do
    modify fun g => { g with calls := rest }
    let callee := call.callee
    let params := g.paramsOf callee
    if call.passed < params.length then
      fault (.tooFewArguments callee.name params.length call.passed)
    closeGroup
    emit { op := .gosub, arg1 := .cell callee.address, res := .label callee.target }
    unless discard do
      if callee.ty = .void then fault (.voidAsValue callee.name)
      let result ← temporary callee.ty
      emit { op := .assign, arg1 := .cell callee.address, res := result.operand }
      pushOperand result

/-- Returns from the function whose body is open. A value has to be of its type. -/
def ret (hasValue : Bool) : Generate Unit := do
  match (← get).function with
  | none => fault .returnOutside
  | some (callee, _) =>
    if hasValue then do
      let x ← peekOperand
      if x.ty ≠ callee.ty then fault (.wrongReturnValue callee.name callee.ty x.ty)
      let x ← popFor .ret
      emit { op := .ret, arg1 := x.operand, res := .cell callee.address }
    else do
      if callee.ty ≠ .void then fault (.missingReturnValue callee.name callee.ty)
      emit { op := .ret, res := .cell callee.address }

end Quadlang.Generate
