-- What code is made of: calls around the code of their arguments, operators behind the code of
-- their operands, and single instructions between them.
import Quadlang.Proofs.Program.Charted

namespace Quadlang

open Source

/-! ## Calls of a tree -/

mutual

/-- The calls in an expression, with their arguments. -/
def Source.Expr.calls : Expr → List (Bytes × List Expr)
  | .constant _ _ => []
  | .group e => e.calls
  | .call function args => (function, args) :: allCalls args
  | .reference _ _ indices => allCalls indices
  | .unary _ e => e.calls
  | .binary _ l r => l.calls ++ r.calls

def Source.Expr.allCalls : List Expr → List (Bytes × List Expr)
  | [] => []
  | e :: es => e.calls ++ allCalls es

end

mutual

def Source.Stmt.calls : Stmt → List (Bytes × List Expr)
  | .assign p e => p.expr.calls ++ e.calls
  | .call function args => (function, args) :: Expr.allCalls args
  | .read places => Expr.allCalls (places.map Place.expr)
  | .write values => Expr.allCalls values
  | .ret none => []
  | .ret (some e) => e.calls
  | .branch c body => c.calls ++ allCalls body
  | .branchElse c body other => c.calls ++ (allCalls body ++ allCalls other)
  | .loop c body => c.calls ++ allCalls body

def Source.Stmt.allCalls : List Stmt → List (Bytes × List Expr)
  | [] => []
  | s :: ss => s.calls ++ allCalls ss

end

/-! ## Operations of a tree -/

/-- An operator between two expressions. -/
structure Source.Operation where
  op : BinaryOp
  left : Expr
  right : Expr

mutual

def Source.Expr.operations : Expr → List Operation
  | .constant _ _ => []
  | .group e => e.operations
  | .call _ args => allOperations args
  | .reference _ _ indices => allOperations indices
  | .unary _ e => e.operations
  | .binary op l r => ⟨op, l, r⟩ :: (l.operations ++ r.operations)

def Source.Expr.allOperations : List Expr → List Operation
  | [] => []
  | e :: es => e.operations ++ allOperations es

end

mutual

def Source.Stmt.operations : Stmt → List Operation
  | .assign p e => p.expr.operations ++ e.operations
  | .call _ args => Expr.allOperations args
  | .read places => Expr.allOperations (places.map Place.expr)
  | .write values => Expr.allOperations values
  | .ret none => []
  | .ret (some e) => e.operations
  | .branch c body => c.operations ++ allOperations body
  | .branchElse c body other => c.operations ++ (allOperations body ++ allOperations other)
  | .loop c body => c.operations ++ allOperations body

def Source.Stmt.allOperations : List Stmt → List Operation
  | [] => []
  | s :: ss => s.operations ++ allOperations ss

end

/-- The operations in the functions of a program and in its main body. -/
def Source.Tree.operations (t : Tree) : List Operation :=
  t.functions.flatMap (fun f => Stmt.allOperations f.body.statements) ++
    Stmt.allOperations t.main.statements

/-! ## Parts of code -/

/-- Code that works out an expression and leaves its value in an operand. -/
def Names.Works (names : Names) (e : Expr) (x : Operand) (code : List Quad) : Prop :=
  ∃ outer inner fs m t m', names.Ready outer inner fs m ∧ e.Literals (fun _ _ => True) ∧
    ExprCode names e m t code m' ∧ t.operand = x

/-- The instruction that applies an operator. -/
def Source.Operation.quad (o : Operation) (x y : Operand) (a : Addr) : Quad :=
  { op := o.op.opcode, arg1 := x, arg2 := y, res := .cell a }

/-- The code of the arguments of a call. -/
structure CallCode (names : Names) (name : Bytes) (args : List Expr) (f : Callee)
    (code : List Quad) : Prop where
  callee : names.callee? name = some f
  args : ∃ m m', ArgsCode names (names.params f) args m code m'

/-- An instruction that neither takes part in a call nor applies an operator to two operands. -/
def Opcode.simple (op : Opcode) : Bool :=
  op ≠ .era && op ≠ .gosub && match Operator.ofOpcode? op with
    | some (.binary _) => false
    | _ => true

/-- An instruction that fills a temporary, or prepares or enters a call, or checks an index. -/
def Quad.Straight (q : Quad) : Prop :=
  (∃ a, q.Fills a) ∨ q.op = .era ∨ q.op = .param ∨ q.op = .gosub ∨ q.op = .ver

theorem Quad.Fills.not_call {q : Quad} {a : Addr} (h : q.Fills a) :
    q.op ≠ .era ∧ q.op ≠ .gosub := by
  constructor <;> intro hop <;> have hstores := h.1 <;> rw [hop] at hstores <;> cases hstores

theorem Opcode.not_call_of_simple {op : Opcode} (h : op.simple = true) :
    op ≠ .era ∧ op ≠ .gosub := by
  constructor <;> rintro rfl <;> cases h

/-- Code of some calls and operations, with simple instructions between them of which a property
holds. -/
inductive Composed (names : Names) (P : Quad → Prop) (calls : List (Bytes × List Expr))
    (os : List Operation) : List Quad → Prop
  | nil : Composed names P calls os []
  | append {code code' : List Quad} : Composed names P calls os code →
    Composed names P calls os code' →
      Composed names P calls os (code ++ code')
  | single {q : Quad} : q.op.simple = true → P q → Composed names P calls os [q]
  | call {name : Bytes} {args : List Expr} {f : Callee} {code : List Quad} :
      CallCode names name args f code → (name, args) ∈ calls → Composed names P calls os code →
      Composed names P calls os (f.era :: code ++ [f.gosub])
  | operation {o : Operation} {x y : Operand} {a : Addr} {code code' : List Quad} :
      o ∈ os → names.Works o.left x code → names.Works o.right y code' → (o.quad x y a).Fills a →
      Composed names P calls os code → Composed names P calls os code' →
      Composed names P calls os (code ++ code' ++ [o.quad x y a])

section

variable {m m' : Memory} {code code' : List Quad} {q : Quad} {names : Names} {P : Quad → Prop}
  {calls : List (Bytes × List Expr)} {os : List Operation} {outer inner : List Placement}
  {fs : List (Callee × List Param)}

theorem Composed.cons (h : Composed names P calls os code) (hop : q.op.simple = true) (hq : P q) :
    Composed names P calls os (q :: code) := .append (.single hop hq) h

theorem Composed.trivial (h : Composed names P calls os code) :
    Composed names (fun _ => True) calls os code := by
  induction h with
  | nil => exact .nil
  | append _ _ ih ih' => exact .append ih ih'
  | single hop _ => exact .single hop True.intro
  | call hcode hcall _ ih => exact .call hcode hcall ih
  | operation ho hl hr hfill _ _ ih ih' => exact .operation ho hl hr hfill ih ih'

theorem Composed.straight (h : Composed names Quad.Straight calls os code) :
    ∀ q ∈ code, q.Straight := by
  induction h with
  | nil => simp
  | append _ _ ih ih' => exact List.forall_mem_append.2 ⟨ih, ih'⟩
  | single _ hq => exact List.forall_mem_singleton.2 hq
  | call _ _ _ ih =>
    refine List.forall_mem_append.2 ⟨List.forall_mem_cons.2 ⟨.inr (.inl rfl), ih⟩, ?_⟩
    exact List.forall_mem_singleton.2 (.inr (.inr (.inr (.inl rfl))))
  | operation _ _ _ hfill _ _ ih ih' =>
    refine List.forall_mem_append.2 ⟨List.forall_mem_append.2 ⟨ih, ih'⟩, ?_⟩
    exact List.forall_mem_singleton.2 (.inl ⟨_, hfill⟩)

theorem ExprCode.works {e : Expr} {x : TypedOperand} (h : ExprCode names e m x code m')
    (hready : names.Ready outer inner fs m) : names.Works e x.operand code :=
  ⟨outer, inner, fs, m, x, m', hready, e.literals_true, h, rfl⟩

mutual

/-- The code of an expression fills temporaries and makes calls, and does nothing else. -/
theorem ExprCode.composed {e : Expr} {x : TypedOperand} {m m' : Memory} {code : List Quad} :
    ExprCode names e m x code m' → names.Ready outer inner fs m → e.calls ⊆ calls →
      e.operations ⊆ os →
    Composed names Quad.Straight calls os code
  | .constant _, _, _, _ => .nil
  | .group he, hready, hc, ho => he.composed hready hc ho
  | @ExprCode.call _ _ _ f _ _ _ _ _ hname hargs _ ha, hready, hc, ho => by
    obtain ⟨hcall, hc⟩ := List.cons_subset.1 hc
    rw [f.append_result]
    refine .append (.call ⟨hname, _, _, hargs⟩ hcall (hargs.composed hready hc ho)) (.single rfl ?_)
    exact .inl ⟨_, (hargs.ready hready).fills ha rfl rfl⟩
  | .variable _ _ _ _, _, _, _ => .nil
  | .element _ _ _ _ his ha, hready, hc, ho =>
    (his.composed hready hc ho).append (.single rfl (.inl ⟨_, (his.ready hready).fills ha rfl rfl⟩))
  | @ExprCode.unary _ op _ _ _ _ _ _ _ _ he _ ha, hready, hc, ho => by
    refine (he.composed hready hc ho).append (.single ?_ ?_)
    · cases op <;> rfl
    · exact .inl ⟨_, (he.ready hready).fills ha op.opcode_stores rfl⟩
  | @ExprCode.binary _ op l r _ _ _ _ _ _ _ _ _ _ hl hr _ ha, hready, hc, ho => by
    obtain ⟨hcl, hcr⟩ := List.append_subset.1 hc
    obtain ⟨hop, ho⟩ := List.cons_subset.1 ho
    obtain ⟨hol, hor⟩ := List.append_subset.1 ho
    have hready₁ := hl.ready hready
    exact .operation hop (hl.works hready) (hr.works hready₁)
      ((hr.ready hready₁).fills ha op.opcode_stores rfl) (hl.composed hready hcl hol)
      (hr.composed hready₁ hcr hor)

theorem ArgsCode.composed {ps : List Param} {es : List Expr} {m m' : Memory} {code : List Quad} :
    ArgsCode names ps es m code m' → names.Ready outer inner fs m →
    Expr.allCalls es ⊆ calls → Expr.allOperations es ⊆ os →
      Composed names Quad.Straight calls os code
  | .nil, _, _, _ => .nil
  | .cons he _ hes, hready, hc, ho => by
    obtain ⟨hc, hcs⟩ := List.append_subset.1 hc
    obtain ⟨ho, hos⟩ := List.append_subset.1 ho
    exact (he.composed hready hc ho).append
      ((hes.composed (he.ready hready) hcs hos).cons rfl (.inr (.inr (.inl rfl))))

theorem IndicesCode.composed {ds : List Dim} {es : List Expr} {m m' : Memory} {code : List Quad} :
    IndicesCode names ds es m code m' → names.Ready outer inner fs m →
    Expr.allCalls es ⊆ calls → Expr.allOperations es ⊆ os →
      Composed names Quad.Straight calls os code
  | .nil, _, _, _ => .nil
  | .cons he _ hes, hready, hc, ho => by
    obtain ⟨hc, hcs⟩ := List.append_subset.1 hc
    obtain ⟨ho, hos⟩ := List.append_subset.1 ho
    exact (he.composed hready hc ho).append
      ((hes.composed (he.ready hready) hcs hos).cons rfl (.inr (.inr (.inr (.inr rfl)))))

end

/-- What works out an expression fills temporaries and makes calls, and does nothing else. -/
theorem Names.Works.straight {e : Expr} {x : Operand} (h : names.Works e x code) (hq : q ∈ code) :
    q.Straight := by
  obtain ⟨outer, inner, fs, m, t, m', hready, -, hcode, -⟩ := h
  exact (hcode.composed hready (List.Subset.refl _) (List.Subset.refl _)).straight q hq

theorem UsesCode.composed {use : Operand → Quad} {es : List Expr}
    (h : UsesCode names use es m code m')
    (hready : names.Ready outer inner fs m) (huse : ∀ x, (use x).op.simple = true)
    (hc : Expr.allCalls es ⊆ calls) (ho : Expr.allOperations es ⊆ os) :
    Composed names (fun _ => True) calls os code := by
  induction h with
  | nil => exact .nil
  | cons he _ _ ih =>
    obtain ⟨hc, hcs⟩ := List.append_subset.1 hc
    obtain ⟨ho, hos⟩ := List.append_subset.1 ho
    exact .append (he.composed hready hc ho).trivial ((ih (he.ready hready) hcs hos).cons (huse _)
      True.intro)

variable {function : Option Callee}

mutual

theorem StmtCode.composed {base : Nat} {s : Stmt} {m m' : Memory} {code : List Quad} :
    StmtCode names function base s m code m' → names.Ready outer inner fs m → s.calls ⊆ calls →
    s.operations ⊆ os → Composed names (fun _ => True) calls os code
  | .assign hx hy _, hready, hc, ho => by
    obtain ⟨hcx, hcy⟩ := List.append_subset.1 hc
    obtain ⟨hox, hoy⟩ := List.append_subset.1 ho
    exact .append (.append (hx.composed hready hcx hox).trivial
      (hy.composed (hx.ready hready) hcy hoy).trivial) (.single rfl True.intro)
  | .call hname hargs, hready, hc, ho => by
    obtain ⟨hcall, hc⟩ := List.cons_subset.1 hc
    exact .call ⟨hname, _, _, hargs⟩ hcall (hargs.composed hready hc ho).trivial
  | .read huses, hready, hc, ho => huses.composed hready (fun _ => rfl) hc ho
  | .write huses, hready, hc, ho => huses.composed hready (fun _ => rfl) hc ho
  | .retNone _ _, _, _, _ => .single rfl True.intro
  | .retSome _ hx _ _, hready, hc, ho =>
    .append (hx.composed hready hc ho).trivial (.single rfl True.intro)
  | .branch hx _ hbody, hready, hc, ho => by
    obtain ⟨hcx, hcbody⟩ := List.append_subset.1 hc
    obtain ⟨hox, hobody⟩ := List.append_subset.1 ho
    exact .append (hx.composed hready hcx hox).trivial
      ((hbody.composed (hx.ready hready) hcbody hobody).cons rfl True.intro)
  | .branchElse hx _ hbody hother, hready, hc, ho => by
    obtain ⟨hcx, hc⟩ := List.append_subset.1 hc
    obtain ⟨hcbody, hcother⟩ := List.append_subset.1 hc
    obtain ⟨hox, ho⟩ := List.append_subset.1 ho
    obtain ⟨hobody, hoother⟩ := List.append_subset.1 ho
    have hready₁ := hx.ready hready
    exact .append (.append (hx.composed hready hcx hox).trivial
      ((hbody.composed hready₁ hcbody hobody).cons rfl True.intro))
      ((hother.composed (hbody.ready hready₁) hcother hoother).cons rfl True.intro)
  | .loop hx _ hbody, hready, hc, ho => by
    obtain ⟨hcx, hcbody⟩ := List.append_subset.1 hc
    obtain ⟨hox, hobody⟩ := List.append_subset.1 ho
    exact .append (.append (hx.composed hready hcx hox).trivial
      ((hbody.composed (hx.ready hready) hcbody hobody).cons rfl True.intro))
      (.single rfl True.intro)

theorem StmtsCode.composed {base : Nat} {ss : List Stmt} {m m' : Memory} {code : List Quad} :
    StmtsCode names function base ss m code m' → names.Ready outer inner fs m →
    Stmt.allCalls ss ⊆ calls → Stmt.allOperations ss ⊆ os →
      Composed names (fun _ => True) calls os code
  | .nil, _, _, _ => .nil
  | .cons hs hss, hready, hc, ho => by
    obtain ⟨hcs, hcss⟩ := List.append_subset.1 hc
    obtain ⟨hos, hoss⟩ := List.append_subset.1 ho
    exact .append (hs.composed hready hcs hos) (hss.composed (hs.ready hready) hcss hoss)

end

theorem Routine.Compiled.composed {L : Ty → Value → Prop} {r : Routine} {start : Nat}
    (h : r.Compiled L fs start) :
    Composed r.names (fun _ => True) (Stmt.allCalls r.body) (Stmt.allOperations r.body) r.quads :=
  .append (h.code.composed h.ready (List.Subset.refl _) (List.Subset.refl _))
  (.single rfl True.intro)

theorem Assembly.Of.composed {L : Ty → Value → Prop} {t : Tree} {p : Program} {b : Assembly}
    (h : b.Of L t p) : Composed b.names (fun _ => True) (Stmt.allCalls t.main.statements)
      (Stmt.allOperations t.main.statements) b.main :=
  h.body.composed h.ready (List.Subset.refl _) (List.Subset.refl _)

end

end Quadlang
