-- The instructions of the machine.
import Quadlang.Machine.Operate
import Quadlang.Machine.State

namespace Quadlang.Execute

/-! ## Values -/

/-- Applies an operator of two operands. -/
def binary (im : Image) (op : BinaryOp) (q : Quad) : Execute Unit := do
  let l ← load q.arg1
  let r ← load q.arg2
  let a ← address q.res
  let v ← lift (Value.binary op l r)
  storeAs im a v

/-- Applies an operator of one operand. -/
def unary (im : Image) (op : UnaryOp) (q : Quad) : Execute Unit := do
  let x ← load q.arg1
  let a ← address q.res
  let v ← lift (Value.unary op x)
  store im a v

/-- Copies a value. -/
def assign (im : Image) (source target : Operand) : Execute Unit := do
  let v ← load source
  let a ← address target
  storeAs im a v

/-- Jumps if a value is false. -/
def jumpIfFalse (condition target : Operand) : Execute Unit := do
  match ← load condition with
  | .bool true => return
  | .bool false => jump target.value
  | v => throw (.notACondition v)

/-! ## Input and output -/

/-- The first line of a text, its end included, and the text after it. -/
def splitLine (b : Bytes) : Bytes × Bytes :=
  let newline := '\n'.toUInt8
  match b.dropWhile (· ≠ newline) with
  | [] => (b, [])
  | mark :: rest => (b.takeWhile (· ≠ newline) ++ [mark], rest)

/-- A line without the marks at its end. -/
def trimLine (line : Bytes) : Bytes :=
  (line.reverse.dropWhile fun b => b = '\r'.toUInt8 || b = '\n'.toUInt8).reverse

/-- Reads a line into a cell, as a value of its type. -/
def read (im : Image) (target : Operand) : Execute Unit := do
  let a ← address target
  let input := (← get).input
  if input.isEmpty then throw .endOfInput
  let (line, rest) := splitLine input
  modify fun m => { m with input := rest }
  match Value.read (im.typeOf a) (trimLine line) with
  | .ok v => store im a v
  | .error e => throw (.badLine e)

/-- Writes a value on a line of its own. -/
def write (source : Operand) : Execute Unit := do
  let v ← load source
  let m ← get
  match m.room with
  | some 0 => throw .closedOutput
  | room =>
    set { m with output := (v.text ++ ascii "\n") :: m.output, room := room.map (· - 1) }

/-! ## Calls -/

/-- Makes the record of a call. -/
def era (im : Image) (callee : Addr) : Execute Unit := do
  let m ← get
  if im.depth ≤ m.frames.length + m.pending.length then throw (.tooDeep im.depth)
  set { m with pending := { callee } :: m.pending }

/-- Passes an argument to the newest record. -/
def param (im : Image) (source : Operand) (target : Addr) : Execute Unit := do
  match (← get).pending with
  | [] => throw .paramWithoutRecord
  | f :: rest => do
    let v ← load source
    let f := { f with cells := f.cells.insert target (v.convert (im.typeOf target)) }
    modify fun m => { m with pending := f :: rest }

/-- Enters a function with the newest record. -/
def gosub (target : Int) : Execute Unit := do
  let m ← get
  match m.pending with
  | [] => throw .gosubWithoutRecord
  | f :: rest =>
    set { m with
      pending := rest
      frames := { f with returnTo := m.ip } :: m.frames
      ip := target }

/-- Puts the value of a return aside, in the representation of the function's type, and
goes to the end of the function. -/
def ret (im : Image) (source : Operand) (function : Addr) : Execute Unit := do
  match (← get).frames with
  | [] => throw .returnOutside
  | f :: rest => do
    if source.kind ≠ .empty then
      let v ← load source
      let f := { f with staged := some (v.convert (im.typeOf function)) }
      modify fun m => { m with frames := f :: rest }
    match im.functionEnd? function (← get).ip.toNat with
    | some position => jump position
    | none => throw (.noFunctionEnd function)

/-- Leaves a function. A value put aside goes to the return slot, in the frame of the
caller. -/
def endFunction (function : Addr) : Execute Unit := do
  let m ← get
  match m.frames with
  | [] => throw (.functionEndOutside function)
  | f :: rest => do
    set { m with frames := rest, ip := f.returnTo }
    match f.staged with
    | some v => modify fun m => m.setCurrent function v
    | none => return

/-! ## Arrays -/

/-- Checks an index against the size of its dimension. -/
def ver (source : Operand) (size stride : Int64) : Execute Unit := do
  match ← load source with
  | .int i => do
    if i < 0 ∨ size ≤ i then throw (.outOfBounds i size)
    modify fun m => { m with indices := ⟨i, stride⟩ :: m.indices }
  | v => throw (.notAnIndex v)

/-- Works out the address of an element from the last `n` indices, oldest first. -/
def addDim (im : Image) (n : Int) (base : Int64) (pointer : Addr) : Execute Unit := do
  let m ← get
  if n < 1 ∨ m.indices.length < n then throw (.tooFewIndices n m.indices.length)
  let used := (m.indices.take n.toNat).reverse
  let a := used.foldl (fun a i => a + i.index * i.stride) base
  set { m with indices := m.indices.drop n.toNat }
  store im pointer (.int a)

/-! ## Instructions -/

def exec (im : Image) (q : Quad) : Execute Unit :=
  match q.op with
  | .nop => return
  | .arith op => binary im (.arith op) q
  | .compare op => binary im (.compare op) q
  | .logic op => binary im (.logic op) q
  | .not => unary im .not q
  | .neg => unary im .neg q
  | .assign => assign im q.arg1 q.res
  | .read => read im q.res
  | .write => write q.res
  | .goto => jump q.res.value
  | .gotoFalse => jumpIfFalse q.arg1 q.res
  | .era => era im q.res.word
  | .param => param im q.arg1 q.res.word
  | .gosub => gosub q.res.value
  | .ret => ret im q.arg1 q.res.word
  | .endFunction => endFunction q.res.word
  | .ver => ver q.arg1 q.arg2.word q.res.word
  | .addDim => addDim im q.arg1.value q.arg2.word q.res.word
  | .other _ => throw .unknownOpcode

end Quadlang.Execute
