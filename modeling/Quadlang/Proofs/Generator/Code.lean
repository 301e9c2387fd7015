-- The code of trees: which instructions an expression or a statement stands for, in the
-- order of the text, and where its value is found. Performing the actions of a tree appends
-- exactly its code and leaves every stack as it was, but for the value of an expression.
import Quadlang.Proofs.Generator.Actions
import Quadlang.Proofs.Source.Tree

namespace Quadlang

open Source Generate

variable {m m' : Memory} {names : Names} {es : List Expr} {code : List Quad}

/-! ## Instructions of trees -/

/-- The instruction that makes the record of a call. -/
def Callee.era (f : Callee) : Quad :=
  { op := .era, arg1 := .label f.target, res := .cell f.address }

/-- The instruction that enters a function. -/
def Callee.gosub (f : Callee) : Quad :=
  { op := .gosub, arg1 := .cell f.address, res := .label f.target }

/-- The instruction that passes an argument. -/
def Param.bind (p : Param) (x : Operand) : Quad :=
  { op := .param, arg1 := x, res := .cell p.address }

/-- The instruction that checks an index. -/
def Dim.check (d : Dim) (x : Operand) : Quad :=
  { op := .ver, arg1 := x, arg2 := .literal d.size, res := .literal d.stride }

/-- The instruction that works out the address of an element. -/
def elementQuad (n : Nat) (base pointer : Addr) : Quad :=
  { op := .addDim, arg1 := .count n, arg2 := .literal base, res := .cell pointer }

/-- The instruction that copies a value. -/
def copyQuad (source target : Operand) : Quad := { op := .assign, arg1 := source, res := target }

mutual

/-- The code of an expression: from a memory, the operand that holds its value, its
instructions, and the memory after them. -/
inductive ExprCode (names : Names) : Expr → Memory → TypedOperand → List Quad → Memory → Prop
  | constant {ty : Ty} {v : Value} {a : Addr} {m m' : Memory} :
      m.intern ty (v.convert ty) = .ok (a, m') →
      ExprCode names (.constant ty v) m { ty, operand := .cell a } [] m'
  | group {e : Expr} {x : TypedOperand} {code : List Quad} {m m' : Memory} :
      ExprCode names e m x code m' → ExprCode names (.group e) m x code m'
  | call {function : Bytes} {args : List Expr} {f : Callee} {a : Addr} {code : List Quad}
      {m m₁ m' : Memory} :
      names.callee? function = some f → ArgsCode names (names.params f) args m code m₁ →
      f.ty ≠ .void → m₁.alloc f.ty .temps 1 = .ok (a, m') →
      ExprCode names (.call function args) m { ty := f.ty, operand := .cell a }
        (f.era :: code ++ [f.gosub, copyQuad (.cell f.address) (.cell a)]) m'
  | variable {name : Bytes} {members : List Bytes} {sym : Symbol} {a : Addr} {m : Memory} :
      names.reach? name members = some sym → sym.kind = .variable (some a) → sym.ty ≠ .record →
      sym.dims = [] → ExprCode names (.reference name members []) m ⟨sym.ty, .cell a, true⟩ [] m
  | element {name : Bytes} {members : List Bytes} {indices : List Expr} {sym : Symbol} {a p : Addr}
      {code : List Quad} {m m₁ m' : Memory} :
      names.reach? name members = some sym → sym.kind = .variable (some a) → sym.ty ≠ .record →
      indices ≠ [] → IndicesCode names sym.dims indices m code m₁ →
      m₁.alloc .int .temps 1 = .ok (p, m') →
      ExprCode names (.reference name members indices) m ⟨sym.ty, .pointer p, true⟩
        (code ++ [elementQuad sym.dims.length a p]) m'
  | unary {op : UnaryOp} {e : Expr} {x : TypedOperand} {ty : Ty} {a : Addr} {code : List Quad}
      {m m₁ m' : Memory} :
      ExprCode names e m x code m₁ → Typing.unary op x.ty = some ty →
      m₁.alloc ty .temps 1 = .ok (a, m') →
      ExprCode names (.unary op e) m { ty, operand := .cell a }
        (code ++ [{ op := op.opcode, arg1 := x.operand, res := .cell a }]) m'
  | binary {op : BinaryOp} {l r : Expr} {x y : TypedOperand} {ty : Ty} {a : Addr}
      {code code' : List Quad} {m m₁ m₂ m' : Memory} :
      ExprCode names l m x code m₁ → ExprCode names r m₁ y code' m₂ →
      Typing.binary op x.ty y.ty = some ty → m₂.alloc ty .temps 1 = .ok (a, m') →
      ExprCode names (.binary op l r) m { ty, operand := .cell a }
        (code ++ code' ++
          [{ op := op.opcode, arg1 := x.operand, arg2 := y.operand, res := .cell a }]) m'

inductive ArgsCode (names : Names) : List Param → List Expr → Memory → List Quad → Memory → Prop
  | nil {m : Memory} : ArgsCode names [] [] m [] m
  | cons {p : Param} {ps : List Param} {e : Expr} {es : List Expr} {x : TypedOperand}
      {code code' : List Quad} {m m₁ m' : Memory} :
      ExprCode names e m x code m₁ → x.ty = p.ty → ArgsCode names ps es m₁ code' m' →
      ArgsCode names (p :: ps) (e :: es) m (code ++ p.bind x.operand :: code') m'

inductive IndicesCode (names : Names) : List Dim → List Expr → Memory → List Quad → Memory → Prop
  | nil {m : Memory} : IndicesCode names [] [] m [] m
  | cons {d : Dim} {ds : List Dim} {e : Expr} {es : List Expr} {x : TypedOperand}
      {code code' : List Quad} {m m₁ m' : Memory} :
      ExprCode names e m x code m₁ → x.ty = .int → IndicesCode names ds es m₁ code' m' →
      IndicesCode names (d :: ds) (e :: es) m (code ++ d.check x.operand :: code') m'

end

/-- The code of values that an instruction each uses. -/
inductive UsesCode (names : Names) (use : Operand → Quad) :
    List Expr → Memory → List Quad → Memory → Prop
  | nil {m : Memory} : UsesCode names use [] m [] m
  | cons {e : Expr} {es : List Expr} {x : TypedOperand} {code code' : List Quad}
    {m m₁ m' : Memory} :
      ExprCode names e m x code m₁ → Typing.isPrimitive x.ty = true →
      UsesCode names use es m₁ code' m' →
      UsesCode names use (e :: es) m (code ++ use x.operand :: code') m'

def writeQuad (x : Operand) : Quad := { op := .write, res := x }

/-- The instruction that reads a value. -/
def readQuad (x : Operand) : Quad := { op := .read, res := x }

/-- The instruction that jumps if a value is false. -/
def skipQuad (x : Operand) (target : Nat) : Quad :=
  { op := .gotoFalse, arg1 := x, res := .label target }

def jumpQuad (target : Nat) : Quad := { op := .goto, res := .label target }

mutual

/-- The code of a statement at a position, in the body of a function or outside of any. -/
inductive StmtCode (names : Names) (function : Option Callee) :
    Nat → Stmt → Memory → List Quad → Memory → Prop
  | assign {base : Nat} {p : Place} {e : Expr} {x y : TypedOperand} {code code' : List Quad}
      {m m₁ m' : Memory} :
      ExprCode names p.expr m x code m₁ → ExprCode names e m₁ y code' m' →
      Typing.assignable x.ty y.ty = true →
      StmtCode names function base (.assign p e) m
        (code ++ code' ++ [copyQuad y.operand x.operand]) m'
  | call {base : Nat} {name : Bytes} {args : List Expr} {f : Callee} {code : List Quad}
      {m m' : Memory} :
      names.callee? name = some f → ArgsCode names (names.params f) args m code m' →
      StmtCode names function base (.call name args) m (f.era :: code ++ [f.gosub]) m'
  | read {base : Nat} {places : List Place} {code : List Quad} {m m' : Memory} :
      UsesCode names readQuad (places.map Place.expr) m code m' →
      StmtCode names function base (.read places) m code m'
  | write {base : Nat} {values : List Expr} {code : List Quad} {m m' : Memory} :
      UsesCode names writeQuad values m code m' →
      StmtCode names function base (.write values) m code m'
  | retNone {base : Nat} {f : Callee} {m : Memory} :
      function = some f → f.ty = .void →
      StmtCode names function base (.ret none) m [{ op := .ret, res := .cell f.address }] m
  | retSome {base : Nat} {f : Callee} {e : Expr} {x : TypedOperand} {code : List Quad}
      {m m' : Memory} :
      function = some f → ExprCode names e m x code m' → x.ty = f.ty →
      Typing.isPrimitive x.ty = true →
      StmtCode names function base (.ret (some e)) m
        (code ++ [{ op := .ret, arg1 := x.operand, res := .cell f.address }]) m'
  | branch {base : Nat} {c : Expr} {body : List Stmt} {x : TypedOperand} {code code' : List Quad}
      {m m₁ m' : Memory} :
      ExprCode names c m x code m₁ → x.ty = .bool →
      StmtsCode names function (base + code.length + 1) body m₁ code' m' →
      StmtCode names function base (.branch c body) m
        (code ++ skipQuad x.operand (base + code.length + 1 + code'.length) :: code') m'
  | branchElse {base : Nat} {c : Expr} {body other : List Stmt} {x : TypedOperand}
      {code code' code'' : List Quad} {m m₁ m₂ m' : Memory} :
      ExprCode names c m x code m₁ → x.ty = .bool →
      StmtsCode names function (base + code.length + 1) body m₁ code' m₂ →
      StmtsCode names function (base + code.length + 1 + code'.length + 1) other m₂ code'' m' →
      StmtCode names function base (.branchElse c body other) m
        (code ++ skipQuad x.operand (base + code.length + 1 + code'.length + 1) :: code' ++
          jumpQuad (base + code.length + 1 + code'.length + 1 + code''.length) :: code'') m'
  | loop {base : Nat} {c : Expr} {body : List Stmt} {x : TypedOperand} {code code' : List Quad}
      {m m₁ m' : Memory} :
      ExprCode names c m x code m₁ → x.ty = .bool →
      StmtsCode names function (base + code.length + 1) body m₁ code' m' →
      StmtCode names function base (.loop c body) m
        (code ++ skipQuad x.operand (base + code.length + 1 + code'.length + 1) :: code' ++
          [jumpQuad base]) m'

inductive StmtsCode (names : Names) (function : Option Callee) :
    Nat → List Stmt → Memory → List Quad → Memory → Prop
  | nil {base : Nat} {m : Memory} : StmtsCode names function base [] m [] m
  | cons {base : Nat} {s : Stmt} {ss : List Stmt} {code code' : List Quad} {m m₁ m' : Memory} :
      StmtCode names function base s m code m₁ →
      StmtsCode names function (base + code.length) ss m₁ code' m' →
      StmtsCode names function base (s :: ss) m (code ++ code') m'

end

/-! ## Performing expressions -/

/-- A compilation with another memory, more instructions and other operands. -/
def Generator.grow (g : Generator) (line : Int) (m : Memory) (code : List Quad)
    (operands : List TypedOperand) : Generator :=
  { g with line, memory := m, quads := g.quads ++ code.toArray, operands }

theorem push_append (quads : Array Quad) (code : List Quad) (q : Quad) :
    (quads ++ code.toArray).push q = quads ++ (code ++ [q]).toArray := by
  apply Array.ext'
  simp

theorem ArgsCode.length_eq {ps : List Param} (h : ArgsCode names ps es m code m') :
    ps.length = es.length := by
  induction es generalizing ps m code with
  | nil => cases h; rfl
  | cons e es ih =>
    cases h with
    | cons _ _ h => simp [ih h]

theorem IndicesCode.length_eq {ds : List Dim} (h : IndicesCode names ds es m code m') :
    ds.length = es.length := by
  induction es generalizing ds m code with
  | nil => cases h; rfl
  | cons e es ih =>
    cases h with
    | cons _ _ h => simp [ih h]

/-! ## Code in place -/

section

variable (quads : Array Quad)

theorem size_append_toArray (code : List Quad) :
    (quads ++ code.toArray).size = quads.size + code.length := by simp

theorem size_append_snoc (code : List Quad) (q : Quad) :
    (quads ++ (code ++ [q]).toArray).size = quads.size + code.length + 1 := by simp; omega

theorem append_snoc (code code' : List Quad) (q : Quad) :
    quads ++ (code ++ [q]).toArray ++ code'.toArray = quads ++ (code ++ q :: code').toArray := by
      simp

theorem size_append_middle (code code' : List Quad) (q : Quad) :
    (quads ++ (code ++ q :: code').toArray).size = quads.size + code.length + 1 + code'.length := by
  simp
  omega

theorem getElem?_middle (code code' : List Quad) (q : Quad) :
    (quads ++ (code ++ q :: code').toArray)[quads.size + code.length]? = some q := by
  simp

/-- Filling in a jump changes one instruction of the code around it. -/
theorem setIfInBounds_middle (code code' : List Quad) (q q' : Quad) :
    (quads ++ (code ++ q :: code').toArray).setIfInBounds (quads.size + code.length) q' =
      quads ++ (code ++ q' :: code').toArray := by
  simp

end

/-- A jump whose target is open. -/
def openSkip (x : Operand) : Quad := { op := .gotoFalse, arg1 := x }

/-- The function whose body is open. -/
def Generator.callee? (g : Generator) : Option Callee := g.function.map (·.1)

end Quadlang
