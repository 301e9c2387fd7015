-- Control flow: jumps are emitted without a target, and the target is filled in when the
-- text reaches it.
import Quadlang.Generator.Expression

namespace Quadlang.Generate

/-! ## Jumps -/

/-- Pushes the position of an open jump, or of a place to jump back to. -/
def pushJump (position : Nat) : Generate Unit :=
  modify fun g => { g with jumps := position :: g.jumps }

/-- Takes the last position. -/
def popJump : Generate Nat := do
  match (← get).jumps with
  | position :: rest => do
    modify fun g => { g with jumps := rest }
    return position
  | [] => fault .noJump

/-- Emits a jump whose target is still open. -/
def emitJump (q : Quad) : Generate Unit := do
  let position := (← get).quads.size
  emit q
  pushJump position

/-- Fills in the target of a jump. -/
def fill (position target : Nat) : Generate Unit := do
  match (← get).quads[position]? with
  | none => fault (.noSuchQuad position)
  | some q => do
    if q.res.kind ≠ .empty then fault (.alreadyFilled position q.res)
    modify fun g =>
      { g with quads := g.quads.setIfInBounds position { q with res := .label target } }

/-- Fills in the target of the last jump: the next instruction, or the position pushed
before the jump. -/
def fillJump (usePop : Bool) : Generate Unit := do
  let position ← popJump
  let target ← if usePop then popJump else do pure (← get).quads.size
  fill position target

/-! ## Programs -/

/-- Names the program and jumps to its main body. -/
def start (name : Bytes) : Generate Unit := do
  modify fun g =>
    { g with name, scopes := g.scopes.modify g.current fun scope => { scope with name } }
  emitJump { op := .goto }

def beginMain : Generate Unit := do
  let g ← get
  unless g.enclosing.isEmpty do fault (.mainInside g.here.name)
  fillJump false

/-- What a compilation has left open. -/
def leftover (g : Generator) : Option Leftover :=
  if !g.enclosing.isEmpty then some (.scopes g.enclosing.length)
  else if !g.operators.isEmpty then some (.operators g.operators.length)
  else if !g.operands.isEmpty then some (.operands g.operands.length)
  else if !g.jumps.isEmpty then some (.jumps g.jumps.length)
  else if !g.references.isEmpty || !g.calls.isEmpty then some .referenceOrCall
  else if !g.waiting.isEmpty then some (.declarations g.waiting.length)
  else none

/-- Ends the program, which has to leave nothing open. -/
def finish : Generate Program := do
  let g ← get
  match leftover g with
  | some what => fault (.leftover what)
  | none => return g.program

/-! ## Branches and loops -/

/-- Jumps away unless the last operand is true. -/
def jumpIfFalse : Generate Unit := do
  let x ← popFor .gotoFalse
  emitJump { op := .gotoFalse, arg1 := x.operand }

/-- Begins the other branch: the first one jumps over it, and the condition jumps to it. -/
def orElse : Generate Unit := do
  let condition ← popJump
  emitJump { op := .goto }
  fill condition (← get).quads.size

def whileStart : Generate Unit := do pushJump (← get).quads.size

/-- Ends a loop: the body jumps back to the condition, and the condition jumps here. -/
def whileEnd : Generate Unit := do
  let exit ← popJump
  emitJump { op := .goto }
  fillJump true
  fill exit (← get).quads.size

end Quadlang.Generate
