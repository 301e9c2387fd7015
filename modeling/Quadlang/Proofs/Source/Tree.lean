-- Program text as trees: what the words of a text spell, and the actions that a tree asks
-- for. Parentheses stay in the trees, so the actions are a function of the tree.
import Quadlang.Grammar.Program

namespace Quadlang.Source

/-! ## Trees -/

/-- An expression. A reference names a variable, then fields of instances, then indices. -/
inductive Expr
  | constant (ty : Ty) (v : Value)
  | group (inner : Expr)
  | call (function : Bytes) (args : List Expr)
  | reference (name : Bytes) (members : List Bytes) (indices : List Expr)
  | unary (op : UnaryOp) (operand : Expr)
  | binary (op : BinaryOp) (left right : Expr)

/-- A reference as the target of an assignment or of a reading. -/
structure Place where
  name : Bytes
  members : List Bytes
  indices : List Expr

def Place.expr (p : Place) : Expr := .reference p.name p.members p.indices

/-- A statement. The other branch of an `if` that is an `if` in turn is a branch of one
statement. -/
inductive Stmt
  | assign (target : Place) (value : Expr)
  | call (function : Bytes) (args : List Expr)
  | read (targets : List Place)
  | write (values : List Expr)
  | ret (value : Option Expr)
  | branch (condition : Expr) (body : List Stmt)
  | branchElse (condition : Expr) (body other : List Stmt)
  | loop (condition : Expr) (body : List Stmt)

/-- A declared name with the sizes of its dimensions. -/
structure Declarator where
  name : Bytes
  sizes : List Int64

/-- A declaration of variables of one type. -/
structure Variables where
  typeName : Bytes
  names : List Declarator

/-- Declarations, then statements. -/
structure Body where
  declarations : List Variables
  statements : List Stmt

structure Parameter where
  typeName : Bytes
  name : Bytes

structure Function where
  typeName : Bytes
  name : Bytes
  params : List Parameter
  body : Body

/-- A part of a program in front of its main body. -/
inductive Part
  | record (name : Bytes) (fields : List Variables)
  | function (f : Function)
  | declaration (v : Variables)

/-- A program. -/
structure Tree where
  name : Bytes
  parts : List Part
  main : Body

/-! ## Spelling -/

/-- How tightly an expression holds together. -/
def Expr.level : Expr → Level
  | .binary op _ _ => (Operator.binary op).level
  | _ => Level.unary

/-- The constant that a token spells. -/
def constant? (t : Token) : Option (Ty × Value) :=
  match t.kind with
  | .int => (Decimal.readInt t.text).toOption.map fun n => (.int, .int n)
  | .float => (Decimal.readFloat t.text).toOption.map fun x => (.float, .float x)
  | .char =>
    match Text.scalars t.text with
    | [n] => some (.char, .char (.ofNat n))
    | _ => none
  | .string => some (.string, .string t.text)
  | .identifier =>
    if t.text = ascii "true" then some (.bool, .bool true)
    else if t.text = ascii "false" then some (.bool, .bool false)
    else none
  | _ => none

/-- Items behind the first one of a list, each with a comma in front. -/
inductive Following {α : Type} (Spelled : α → List Token → Prop) : List α → List Token → Prop
  | nil : Following Spelled [] []
  | cons {comma : Token} {a : α} {as : List α} {ts us : List Token} :
      comma.is (ascii ",") → Spelled a ts → Following Spelled as us →
      Following Spelled (a :: as) (comma :: ts ++ us)

/-- Items with commas between them. -/
inductive Listed {α : Type} (Spelled : α → List Token → Prop) : List α → List Token → Prop
  | nil : Listed Spelled [] []
  | cons {a : α} {as : List α} {ts us : List Token} :
      Spelled a ts → Following Spelled as us → Listed Spelled (a :: as) (ts ++ us)

/-- Items one after another. -/
inductive InRow {α : Type} (Spelled : α → List Token → Prop) : List α → List Token → Prop
  | nil : InRow Spelled [] []
  | cons {a : α} {as : List α} {ts us : List Token} :
      Spelled a ts → InRow Spelled as us → InRow Spelled (a :: as) (ts ++ us)

/-- Items in brackets, one after another. -/
inductive Bracketed {α : Type} (Spelled : α → List Token → Prop) : List α → List Token → Prop
  | nil : Bracketed Spelled [] []
  | cons {l r : Token} {a : α} {as : List α} {ts us : List Token} :
      l.is (ascii "[") → Spelled a ts → r.is (ascii "]") → Bracketed Spelled as us →
      Bracketed Spelled (a :: as) (l :: ts ++ r :: us)

inductive Named : Bytes → List Token → Prop
  | mk {t : Token} : Grammar.isName t → Named t.text [t]

/-- The name of a field behind a point. -/
inductive Pointed : Bytes → List Token → Prop
  | mk {point t : Token} : point.is (ascii ".") → Grammar.isName t → Pointed t.text [point, t]

/-- The texts of an expression. Operators of one level group to the left, comparisons do
not follow one another, and parentheses override both. -/
inductive Expr.Spelled : Expr → List Token → Prop
  | constant {t : Token} {ty : Ty} {v : Value} :
      constant? t = some (ty, v) → Spelled (.constant ty v) [t]
  | group {l r : Token} {e : Expr} {ts : List Token} :
      l.is (ascii "(") → Spelled e ts → r.is (ascii ")") → Spelled (.group e) (l :: ts ++ [r])
  | call {t l r : Token} {args : List Expr} {ts : List Token} :
      t.kind = .identifier → constant? t = none → l.is (ascii "(") → Listed Spelled args ts →
      r.is (ascii ")") → Spelled (.call t.text args) (t :: l :: ts ++ [r])
  | reference {name : Bytes} {members : List Bytes} {indices : List Expr} {ts us vs : List Token} :
      Named name ts → InRow Pointed members us → Bracketed Spelled indices vs →
      Spelled (.reference name members indices) (ts ++ us ++ vs)
  | unary {t : Token} {op : UnaryOp} {e : Expr} {ts : List Token} :
      Grammar.operator? Grammar.unaryOps t = some op → Spelled e ts → e.level ≤ Level.unary →
      Spelled (.unary op e) (t :: ts)
  | binary {level : Nat} {t : Token} {op : BinaryOp} {l r : Expr} {ts us : List Token} :
      Grammar.operator? (Grammar.binaryOps level) t = some op → Spelled l ts → Spelled r us →
      r.level < level → l.level ≤ level → (l.level = level → Grammar.associates level) →
      Spelled (.binary op l r) (ts ++ t :: us)

def Place.Spelled (p : Place) (ts : List Token) : Prop := Expr.Spelled p.expr ts

/-- A condition in parentheses behind a keyword. -/
inductive Condition (word : String) : Expr → List Token → Prop
  | mk {t l r : Token} {c : Expr} {ts : List Token} :
      t.is (ascii word) → l.is (ascii "(") → Expr.Spelled c ts → r.is (ascii ")") →
      Condition word c (t :: l :: ts ++ [r])

/-- A keyword with items in parentheses behind it. -/
inductive Commanded {α : Type} (word : String) (Spelled : α → List Token → Prop) :
    List α → List Token → Prop
  | mk {t l r close : Token} {as : List α} {ts : List Token} :
      t.is (ascii word) → l.is (ascii "(") → Listed Spelled as ts → r.is (ascii ")") →
      close.is (ascii ";") → Commanded word Spelled as (t :: l :: ts ++ [r, close])

/-- Whether a token is a keyword that begins a statement. -/
def opensStatement (t : Token) : Bool :=
  ["if", "while", "read", "write", "return"].any fun word => t.is (ascii word)

inductive Stmt.Spelled : Stmt → List Token → Prop
  | assign {p : Place} {e : Expr} {t close : Token} {ts us : List Token} :
      p.Spelled ts → t.is (ascii "=") → Expr.Spelled e us → close.is (ascii ";") →
      Spelled (.assign p e) (ts ++ t :: us ++ [close])
  | call {t l r close : Token} {args : List Expr} {ts : List Token} :
      t.kind = .identifier → opensStatement t = false → l.is (ascii "(") →
      Listed Expr.Spelled args ts → r.is (ascii ")") → close.is (ascii ";") →
      Spelled (.call t.text args) (t :: l :: ts ++ [r, close])
  | read {places : List Place} {ts : List Token} :
      Commanded "read" Place.Spelled places ts → Spelled (.read places) ts
  | write {values : List Expr} {ts : List Token} :
      Commanded "write" Expr.Spelled values ts → Spelled (.write values) ts
  | retNone {t close : Token} :
      t.is (ascii "return") → close.is (ascii ";") → Spelled (.ret none) [t, close]
  | retSome {t close : Token} {e : Expr} {ts : List Token} :
      t.is (ascii "return") → Expr.Spelled e ts → close.is (ascii ";") →
      Spelled (.ret (some e)) (t :: ts ++ [close])
  | branch {c : Expr} {l r : Token} {body : List Stmt} {ts us : List Token} :
      Condition "if" c ts → l.is (ascii "\x7b") → InRow Spelled body us → r.is (ascii "\x7d") →
      Spelled (.branch c body) (ts ++ l :: us ++ [r])
  | branchElse {c : Expr} {l r t l' r' : Token} {body other : List Stmt} {ts us vs : List Token} :
      Condition "if" c ts → l.is (ascii "\x7b") → InRow Spelled body us → r.is (ascii "\x7d") →
      t.is (ascii "else") → l'.is (ascii "\x7b") → InRow Spelled other vs →
      r'.is (ascii "\x7d") → Spelled (.branchElse c body other)
      (ts ++ l :: us ++ r :: t :: l' :: vs ++ [r'])
  | branchElseIf {c : Expr} {l r t : Token} {body : List Stmt} {other : Stmt}
    {ts us vs : List Token} :
      Condition "if" c ts → l.is (ascii "\x7b") → InRow Spelled body us → r.is (ascii "\x7d") →
      t.is (ascii "else") → (∃ first rest, vs = first :: rest ∧ first.is (ascii "if")) →
      Spelled other vs → Spelled (.branchElse c body [other]) (ts ++ l :: us ++ r :: t :: vs)
  | loop {c : Expr} {l r : Token} {body : List Stmt} {ts us : List Token} :
      Condition "while" c ts → l.is (ascii "\x7b") → InRow Spelled body us → r.is (ascii "\x7d") →
      Spelled (.loop c body) (ts ++ l :: us ++ [r])

/-- The size of a dimension. -/
inductive Sized : Int64 → List Token → Prop
  | mk {t : Token} {n : Int64} :
      t.kind = .int → Decimal.readInt t.text = .ok n → Sized n [t]

inductive Declarator.Spelled : Declarator → List Token → Prop
  | mk {name : Bytes} {sizes : List Int64} {ts us : List Token} :
      Named name ts → Bracketed Sized sizes us → Spelled ⟨name, sizes⟩ (ts ++ us)

/-- Whether a token can name a type. -/
def isTypeName (t : Token) : Bool :=
  t.kind = .identifier && (!Grammar.isKeyword t.text || (Ty.ofWord? t.text).isSome)

inductive Variables.Spelled : Variables → List Token → Prop
  | mk {t close : Token} {d : Declarator} {ds : List Declarator} {ts us : List Token} :
      isTypeName t → d.Spelled ts → Following Declarator.Spelled ds us → close.is (ascii ";") →
      Spelled ⟨t.text, d :: ds⟩ (t :: ts ++ us ++ [close])

inductive Body.Spelled : Body → List Token → Prop
  | mk {l r : Token} {vars : List Variables} {stmts : List Stmt} {ts us : List Token} :
      l.is (ascii "\x7b") → InRow Variables.Spelled vars ts → InRow Stmt.Spelled stmts us →
      r.is (ascii "\x7d") → Spelled ⟨vars, stmts⟩ (l :: ts ++ us ++ [r])

inductive Parameter.Spelled : Parameter → List Token → Prop
  | mk {t : Token} {name : Bytes} {ts : List Token} :
      isTypeName t → Named name ts → Spelled ⟨t.text, name⟩ (t :: ts)

inductive Function.Spelled : Function → List Token → Prop
  | mk {t ty l r : Token} {name : Bytes} {params : List Parameter} {body : Body}
      {ts us vs : List Token} :
      t.is (ascii "func") → isTypeName ty → Named name ts → l.is (ascii "(") →
      Listed Parameter.Spelled params us → r.is (ascii ")") → body.Spelled vs →
      Spelled ⟨ty.text, name, params, body⟩ (t :: ty :: ts ++ l :: us ++ r :: vs)

/-- The texts of a part. A semicolon may follow a class. -/
inductive Part.Spelled : Part → List Token → Prop
  | record {t l r : Token} {name : Bytes} {fields : List Variables} {ts us vs : List Token} :
      t.is (ascii "class") → Named name ts → l.is (ascii "\x7b") →
      InRow Variables.Spelled fields us → r.is (ascii "\x7d") →
      vs = [] ∨ (∃ close, close.is (ascii ";") ∧ vs = [close]) →
      Spelled (.record name fields) (t :: ts ++ l :: us ++ r :: vs)
  | function {f : Function} {ts : List Token} : f.Spelled ts → Spelled (.function f) ts
  | declaration {v : Variables} {ts : List Token} : v.Spelled ts → Spelled (.declaration v) ts

inductive Tree.Spelled : Tree → List Token → Prop
  | mk {t close m : Token} {name : Bytes} {parts : List Part} {main : Body}
      {ts us vs : List Token} :
      t.is (ascii "program") → Named name ts → close.is (ascii ";") →
      InRow Part.Spelled parts us → m.is (ascii "main") → main.Spelled vs →
      Spelled ⟨name, parts, main⟩ (t :: ts ++ close :: us ++ m :: vs)

/-! ## Lists of other items -/

section

variable {α β : Type} {P : α → List Token → Prop} {Q : β → List Token → Prop} {f : α → β}
  {as : List α} {ts : List Token}

theorem Following.map (h : Following P as ts) (hf : ∀ a ∈ as, ∀ us, P a us → Q (f a) us) :
    Following Q (as.map f) ts := by
  induction h with
  | nil => exact .nil
  | cons hcomma ha _ ih =>
    exact .cons hcomma (hf _ (List.mem_cons_self ..) _ ha) (ih fun a ha =>
      hf a (List.mem_cons_of_mem _ ha))

theorem Listed.map (h : Listed P as ts) (hf : ∀ a ∈ as, ∀ us, P a us → Q (f a) us) :
    Listed Q (as.map f) ts := by
  cases h with
  | nil => exact .nil
  | cons ha hrest =>
    exact .cons (hf _ (List.mem_cons_self ..) _ ha) (hrest.map fun a ha =>
      hf a (List.mem_cons_of_mem _ ha))

theorem Bracketed.map (h : Bracketed P as ts) (hf : ∀ a ∈ as, ∀ us, P a us → Q (f a) us) :
    Bracketed Q (as.map f) ts := by
  induction h with
  | nil => exact .nil
  | cons hl ha hr _ ih =>
    exact .cons hl (hf _ (List.mem_cons_self ..) _ ha) hr (ih fun a ha =>
      hf a (List.mem_cons_of_mem _ ha))

end

/-! ## Actions -/

mutual

/-- The actions of an expression. -/
def Expr.actions : Expr → List Action
  | .constant ty v => [.pushConst ty v]
  | .group e => .openGroup :: e.actions ++ [.closeGroup]
  | .call function args => .callStart function :: argumentActions args ++ [.callEnd false]
  | .reference name members indices =>
    .var name :: members.map .member ++ indexActions indices ++ [.varEnd]
  | .unary op e => .pushOperator op.opcode :: e.actions ++ [.collapse Level.unary]
  | .binary op l r =>
    l.actions ++ .pushOperator op.opcode :: r.actions ++ [.collapse (Operator.binary op).level]

def Expr.argumentActions : List Expr → List Action
  | [] => []
  | e :: es => e.actions ++ .argument :: argumentActions es

def Expr.indexActions : List Expr → List Action
  | [] => []
  | e :: es => .indexStart :: e.actions ++ .indexEnd :: indexActions es

end

mutual

def Stmt.actions : Stmt → List Action
  | .assign p e =>
    p.expr.actions ++ .pushOperator .assign :: e.actions ++ [.collapse Level.assign]
  | .call function args => .callStart function :: Expr.argumentActions args ++ [.callEnd true]
  | .read places => places.flatMap fun p => p.expr.actions ++ [.read]
  | .write values => values.flatMap fun e => e.actions ++ [.write]
  | .ret none => [.ret false]
  | .ret (some e) => e.actions ++ [.ret true]
  | .branch c body => c.actions ++ .ifCond :: allActions body ++ [.endIf]
  | .branchElse c body other =>
    c.actions ++ .ifCond :: allActions body ++ .orElse :: allActions other ++ [.endIf]
  | .loop c body => .whileStart :: c.actions ++ .whileCond :: allActions body ++ [.whileEnd]

def Stmt.allActions : List Stmt → List Action
  | [] => []
  | s :: ss => s.actions ++ allActions ss

end

def Declarator.actions (d : Declarator) : List Action :=
  .pushPending d.name :: d.sizes.map .addDim

def Variables.actions (v : Variables) : List Action :=
  v.names.flatMap Declarator.actions ++ [.declarePending v.typeName]

def Body.actions (b : Body) : List Action :=
  b.declarations.flatMap Variables.actions ++ Stmt.allActions b.statements

def Parameter.action (p : Parameter) : Action := Action.declareParam p.name p.typeName

def Function.actions (f : Function) : List Action :=
  Action.declareFunction f.name f.typeName :: f.params.map Parameter.action ++ f.body.actions ++
    [.endFunction]

def Part.actions : Part → List Action
  | .record name fields => .declareClass name :: fields.flatMap Variables.actions ++ [.leaveScope]
  | .function f => f.actions
  | .declaration v => v.actions

def Tree.actions (t : Tree) : List Action :=
  .start t.name :: t.parts.flatMap Part.actions ++ .main :: t.main.actions

end Quadlang.Source
