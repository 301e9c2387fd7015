-- Expressions printed as tokens, with parentheses only where the levels of the operators and their
-- grouping to the left ask for them. What is printed spells the tree with these parentheses, and
-- parentheses stand for no code.
import Quadlang.Proofs.Generator.Code
import Quadlang.Proofs.Source.Acceptance

namespace Quadlang

namespace Source

open Grammar

/-! ## Parentheses -/

/-- The left operand of an operator needs parentheses if it is of a looser level, and of the same
level if operators of that level do not follow one another. -/
def Expr.enclosedLeft (op : BinaryOp) (e : Expr) : Bool :=
  decide ((Operator.binary op).level < e.level) ||
    e.level = (Operator.binary op).level && (Operator.binary op).level = Level.compare

/-- The right operand of an operator needs parentheses if it is of the same level or a looser
one. -/
def Expr.enclosedRight (op : BinaryOp) (e : Expr) : Bool := (Operator.binary op).level ≤ e.level

/-- The operand of an operator of one operand needs parentheses if it is an operation of two. -/
def Expr.enclosedOnly (e : Expr) : Bool := Level.unary < e.level

/-- A text, in parentheses or as it is. -/
inductive Enclosed (Printed : Expr → List Token → Prop) : Bool → Expr → List Token → Prop
  | bare {e : Expr} {ts : List Token} : Printed e ts → Enclosed Printed false e ts
  | parentheses {l r : Token} {e : Expr} {ts : List Token} :
      l.is (ascii "(") → Printed e ts → r.is (ascii ")") → Enclosed Printed true e (l :: ts ++ [r])

/-- The tokens that an expression is printed as. -/
inductive Expr.Printed : Expr → List Token → Prop
  | constant {t : Token} {ty : Ty} {v : Value} :
      constant? t = some (ty, v) → Printed (.constant ty v) [t]
  | call {t l r : Token} {args : List Expr} {ts : List Token} :
      t.kind = .identifier → constant? t = none → l.is (ascii "(") → Listed Printed args ts →
      r.is (ascii ")") → Printed (.call t.text args) (t :: l :: ts ++ [r])
  | reference {name : Bytes} {members : List Bytes} {indices : List Expr} {ts us vs : List Token} :
      Named name ts → InRow Pointed members us → Bracketed Printed indices vs →
      Printed (.reference name members indices) (ts ++ us ++ vs)
  | unary {t : Token} {op : UnaryOp} {e : Expr} {ts : List Token} :
      operator? unaryOps t = some op → Enclosed Printed e.enclosedOnly e ts →
      Printed (.unary op e) (t :: ts)
  | binary {level : Nat} {t : Token} {op : BinaryOp} {l r : Expr} {ts us : List Token} :
      operator? (binaryOps level) t = some op → Enclosed Printed (l.enclosedLeft op) l ts →
      Enclosed Printed (r.enclosedRight op) r us → Printed (.binary op l r) (ts ++ t :: us)

/-- An expression, in parentheses or as it is. -/
def Expr.enclose (parentheses : Bool) (e : Expr) : Expr := if parentheses then .group e else e

mutual

/-- An expression with the parentheses that it is printed with. -/
def Expr.parenthesized : Expr → Expr
  | .constant ty v => .constant ty v
  | .group e => .group e.parenthesized
  | .call function args => .call function (allParenthesized args)
  | .reference name members indices => .reference name members (allParenthesized indices)
  | .unary op e => .unary op (e.parenthesized.enclose e.enclosedOnly)
  | .binary op l r =>
    .binary op (l.parenthesized.enclose (l.enclosedLeft op))
    (r.parenthesized.enclose (r.enclosedRight op))

def Expr.allParenthesized : List Expr → List Expr
  | [] => []
  | e :: es => e.parenthesized :: allParenthesized es

end

theorem Expr.level_parenthesized (e : Expr) : e.parenthesized.level = e.level := by
  cases e <;> rfl

theorem Expr.allParenthesized_eq (es : List Expr) : allParenthesized es = es.map parenthesized := by
  induction es with
  | nil => rfl
  | cons e es ih => rw [allParenthesized, ih, List.map_cons]

theorem Expr.level_enclose (b : Bool) (e : Expr) :
    (e.parenthesized.enclose b).level = if b then Level.unary else e.level := by
  cases b with
  | true => rfl
  | false => exact e.level_parenthesized

/-! ## What is printed -/

theorem Enclosed.spelled {e : Expr} {b : Bool} {ts : List Token} (h : Enclosed Expr.Printed b e ts)
    (hspelled : ∀ {us}, e.Printed us → e.parenthesized.Spelled us) :
    (e.parenthesized.enclose b).Spelled ts := by
  cases h with
  | bare h => exact hspelled h
  | parentheses hl h hr => exact .group hl (hspelled h) hr

theorem unary_lt_level (op : BinaryOp) : Level.unary < (Operator.binary op).level := by
  rcases op with op | op | op <;> cases op <;> decide

/-- With its parentheses the operand of an operator of one operand is tight. -/
theorem level_enclosedOnly (e : Expr) :
    (e.parenthesized.enclose e.enclosedOnly).level ≤ Level.unary := by
  rw [Expr.level_enclose]
  unfold Expr.enclosedOnly
  by_cases h : Level.unary < e.level
  · exact Int.le_of_eq (if_pos (decide_eq_true h))
  · rw [if_neg (by simpa using h)]
    exact Int.not_lt.1 h

/-- With its parentheses the right operand is tighter than the operator. -/
theorem level_enclosedRight (op : BinaryOp) (e : Expr) :
    (e.parenthesized.enclose (e.enclosedRight op)).level < (Operator.binary op).level := by
  rw [Expr.level_enclose]
  unfold Expr.enclosedRight
  by_cases h : (Operator.binary op).level ≤ e.level
  · rw [if_pos (decide_eq_true h)]
    exact unary_lt_level op
  · rw [if_neg (by simpa using h)]
    exact Int.not_le.1 h

/-- With its parentheses the left operand is tighter than the operator, or as tight if such
operators follow one another. -/
theorem level_enclosedLeft (op : BinaryOp) (e : Expr) :
    (e.parenthesized.enclose (e.enclosedLeft op)).level ≤ (Operator.binary op).level ∧
      ((e.parenthesized.enclose (e.enclosedLeft op)).level = (Operator.binary op).level →
        (Operator.binary op).level ≠ Level.compare) := by
  rw [Expr.level_enclose]
  cases hb : e.enclosedLeft op with
  | true =>
    have hlt := unary_lt_level op
    exact ⟨Int.le_of_lt hlt, fun heq => absurd heq (Int.ne_of_lt hlt)⟩
  | false =>
    simp only [Expr.enclosedLeft, Bool.or_eq_false_iff, decide_eq_false_iff_not,
      Bool.and_eq_false_iff] at hb
    refine ⟨Int.not_lt.1 hb.1, ?_⟩
    intro heq
    exact hb.2.resolve_left fun hne => hne heq

mutual

/-- What is printed spells the expression with its parentheses. -/
theorem spelled_of_printed : (e : Expr) → {ts : List Token} → e.Printed ts →
    e.parenthesized.Spelled ts
  | .constant ty v, _, h => by
    cases h with
    | constant hconst => exact .constant hconst
  | .group e, _, h => by cases h
  | .call function args, _, h => by
    cases h with
    | call hkind hconst hl hargs hr =>
      rw [Expr.parenthesized, Expr.allParenthesized_eq]
      exact .call hkind hconst hl (hargs.map (all_spelled_of_printed args)) hr
  | .reference name members indices, _, h => by
    cases h with
    | reference hname hmembers hindices =>
      rw [Expr.parenthesized, Expr.allParenthesized_eq]
      exact .reference hname hmembers (hindices.map (all_spelled_of_printed indices))
  | .unary op e, _, h => by
    cases h with
    | unary hop he =>
      exact .unary hop (he.spelled (spelled_of_printed e)) (level_enclosedOnly e)
  | .binary op l r, _, h => by
    cases h with
    | binary hop hl hr =>
      have hlevel := level_of_binaryOps hop
      have hleft := level_enclosedLeft op l
      have hright := level_enclosedRight op r
      rw [hlevel] at hleft hright
      refine .binary hop (hl.spelled (spelled_of_printed l))
        (hr.spelled (spelled_of_printed r)) hright
        hleft.1 ?_
      intro heq
      have hne := hleft.2 heq
      unfold associates
      rw [decide_eq_true_eq]
      rintro rfl
      exact hne rfl

theorem all_spelled_of_printed : (es : List Expr) → ∀ e ∈ es, ∀ ts, e.Printed ts →
    e.parenthesized.Spelled ts
  | [], _, he, _, _ => by cases he
  | e :: es, e', he, ts, h => by
    rcases List.mem_cons.1 he with heq | he
    · rw [heq] at h ⊢
      exact spelled_of_printed e h
    · exact all_spelled_of_printed es e' he ts h

end

end Source

/-! ## Code -/

open Source

theorem ExprCode.enclose {names : Names} {e : Expr} {m m' : Memory} {x : TypedOperand}
    {code : List Quad} (h : ExprCode names e m x code m') (b : Bool) :
    ExprCode names (e.enclose b) m x code m' := by
  cases b with
  | true => exact .group h
  | false => exact h

mutual

/-- Parentheses stand for no code. -/
theorem exprCode_parenthesized {names : Names} : (e : Expr) → {m m' : Memory} → {x : TypedOperand} →
    {code : List Quad} → ExprCode names e m x code m' → ExprCode names e.parenthesized m x code m'
  | .constant ty v, _, _, _, _, h => h
  | .group e, _, _, _, _, h => by
    cases h with
    | group h => exact .group (exprCode_parenthesized e h)
  | .call function args, _, _, _, _, h => by
    cases h with
    | call hf hargs hty ha => exact .call hf (argsCode_parenthesized args hargs) hty ha
  | .reference name members indices, _, _, _, _, h => by
    cases h with
    | «variable» hsym hkind hty hdims => exact .variable hsym hkind hty hdims
    | element hsym hkind hty hne hcode ha =>
      refine .element hsym hkind hty ?_ (indicesCode_parenthesized indices hcode) ha
      cases indices with
      | nil => exact absurd rfl hne
      | cons e es => simp [Expr.allParenthesized]
  | .unary op e, _, _, _, _, h => by
    cases h with
    | unary he hty ha =>
      refine .unary ?_ hty ha
      exact (exprCode_parenthesized e he).enclose _
  | .binary op l r, _, _, _, _, h => by
    cases h with
    | binary hl hr hty ha =>
      exact .binary ((exprCode_parenthesized l hl).enclose _)
        ((exprCode_parenthesized r hr).enclose _) hty ha

theorem argsCode_parenthesized {names : Names} :
    (es : List Expr) → {ps : List Param} → {m m' : Memory} →
    {code : List Quad} → ArgsCode names ps es m code m' →
    ArgsCode names ps (Expr.allParenthesized es) m code m'
  | [], _, _, _, _, h => h
  | e :: es, _, _, _, _, h => by
    cases h with
    | cons he hty hes =>
      exact .cons (exprCode_parenthesized e he) hty (argsCode_parenthesized es hes)

theorem indicesCode_parenthesized {names : Names} :
    (es : List Expr) → {ds : List Dim} → {m m' : Memory} →
    {code : List Quad} → IndicesCode names ds es m code m' →
    IndicesCode names ds (Expr.allParenthesized es) m code m'
  | [], _, _, _, _, h => h
  | e :: es, _, _, _, _, h => by
    cases h with
    | cons he hty hes =>
      exact .cons (exprCode_parenthesized e he) hty (indicesCode_parenthesized es hes)

end

end Quadlang
