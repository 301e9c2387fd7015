-- The literals of a program text: every constant of a tree is spelled by one of the tokens.
import Quadlang.Proofs.Source.Tree

namespace Quadlang.Source

variable {α : Type} {ts : List Token}

variable (P : Ty → Value → Prop)

mutual

/-- All constants of an expression have a property. -/
def Expr.Literals : Expr → Prop
  | .constant ty v => P ty v
  | .group e => e.Literals
  | .call _ args => allLiterals args
  | .reference _ _ indices => allLiterals indices
  | .unary _ e => e.Literals
  | .binary _ l r => l.Literals ∧ r.Literals

def Expr.allLiterals : List Expr → Prop
  | [] => True
  | e :: es => e.Literals ∧ allLiterals es

end

mutual

def Stmt.Literals : Stmt → Prop
  | .assign p e => p.expr.Literals P ∧ e.Literals P
  | .call _ args => Expr.allLiterals P args
  | .read places => Expr.allLiterals P (places.map Place.expr)
  | .write values => Expr.allLiterals P values
  | .ret none => True
  | .ret (some e) => e.Literals P
  | .branch c body => c.Literals P ∧ allLiterals body
  | .branchElse c body other => c.Literals P ∧ allLiterals body ∧ allLiterals other
  | .loop c body => c.Literals P ∧ allLiterals body

def Stmt.allLiterals : List Stmt → Prop
  | [] => True
  | s :: ss => s.Literals ∧ allLiterals ss

end

/-- All constants of the functions of a program and of its main body have a property. -/
def Tree.Literals (t : Tree) : Prop :=
  (∀ f, .function f ∈ t.parts → Stmt.allLiterals P f.body.statements) ∧
    Stmt.allLiterals P t.main.statements

variable {P}

/-! ## Literals of lists -/

/-- Each of some things is spelled by tokens of a text. -/
def Among (Spelled : α → List Token → Prop) (as : List α) (ts : List Token) : Prop :=
  ∀ a ∈ as, ∃ us, Spelled a us ∧ ∀ t ∈ us, t ∈ ts

section

variable {Spelled : α → List Token → Prop} {a : α} {as : List α} {us : List Token}

theorem Among.nil : Among Spelled [] ts := by simp [Among]

theorem Among.cons (ha : Spelled a us) (hus : ∀ t ∈ us, t ∈ ts) (h : Among Spelled as ts) :
    Among Spelled (a :: as) ts := List.forall_mem_cons.2 ⟨⟨us, ha, hus⟩, h⟩

theorem Among.mono (h : Among Spelled as us) (hus : ∀ t ∈ us, t ∈ ts) : Among Spelled as ts := by
  intro a ha
  obtain ⟨vs, hvs, hsub⟩ := h a ha
  exact ⟨vs, hvs, fun t ht => hus t (hsub t ht)⟩

theorem Following.among (h : Following Spelled as ts) : Among Spelled as ts := by
  induction h with
  | nil => exact .nil
  | cons _ ha _ ih => exact .cons ha (by simp +contextual) (ih.mono (by simp +contextual))

theorem Listed.among (h : Listed Spelled as ts) : Among Spelled as ts := by
  cases h with
  | nil => exact .nil
  | cons ha hrest => exact .cons ha (by simp +contextual) (hrest.among.mono (by simp +contextual))

theorem Bracketed.among (h : Bracketed Spelled as ts) : Among Spelled as ts := by
  induction h with
  | nil => exact .nil
  | cons _ ha _ _ ih => exact .cons ha (by simp +contextual) (ih.mono (by simp +contextual))

theorem InRow.among (h : InRow Spelled as ts) : Among Spelled as ts := by
  induction h with
  | nil => exact .nil
  | cons ha _ ih => exact .cons ha (by simp +contextual) (ih.mono (by simp +contextual))

theorem Commanded.among {word : String} (h : Commanded word Spelled as ts) :
    Among Spelled as ts := by
  cases h with
  | mk _ _ h _ _ => exact h.among.mono (by simp +contextual)

end

/-! ## Spelled constants -/

mutual

theorem Expr.Spelled.literals : (e : Expr) → {ts : List Token} → Expr.Spelled e ts →
    (∀ t ∈ ts, ∀ ty v, constant? t = some (ty, v) → P ty v) → e.Literals P
  | .constant ty v, _, h, hP => by
    cases h with
    | constant hc => exact hP _ (by simp) ty v hc
  | .group e, _, h, hP => by
    cases h with
    | group _ h _ => exact literals e h fun t ht => hP t (by simp [ht])
  | .call f args, _, h, hP => by
    cases h with
    | call _ _ _ h _ => exact allLiterals args h.among fun t ht => hP t (by simp [ht])
  | .reference n ms indices, _, h, hP => by
    cases h with
    | reference _ _ h => exact allLiterals indices h.among fun t ht => hP t (by simp [ht])
  | .unary op e, _, h, hP => by
    cases h with
    | unary _ h _ => exact literals e h fun t ht => hP t (by simp [ht])
  | .binary op l r, _, h, hP => by
    cases h with
    | binary _ hl hr _ _ _ =>
      exact ⟨literals l hl fun t ht => hP t (by simp [ht]),
        literals r hr fun t ht => hP t (by simp [ht])⟩

theorem Expr.Spelled.allLiterals : (es : List Expr) → {ts : List Token} → Among Expr.Spelled es ts →
    (∀ t ∈ ts, ∀ ty v, constant? t = some (ty, v) → P ty v) → Expr.allLiterals P es
  | [], _, _, _ => trivial
  | e :: es, _, h, hP => by
    obtain ⟨⟨us, hus, hsub⟩, h⟩ := List.forall_mem_cons.1 h
    exact ⟨literals e hus fun t ht => hP t (hsub t ht), allLiterals es h hP⟩

end

theorem Condition.literals {word : String} {c : Expr} (h : Condition word c ts)
    (hP : ∀ t ∈ ts, ∀ ty v, constant? t = some (ty, v) → P ty v) : c.Literals P := by
  cases h with
  | mk _ _ h _ => exact Expr.Spelled.literals c h fun t ht => hP t (by simp [ht])

mutual

theorem Stmt.Spelled.literals : (s : Stmt) → {ts : List Token} → Stmt.Spelled s ts →
    (∀ t ∈ ts, ∀ ty v, constant? t = some (ty, v) → P ty v) → s.Literals P
  | .assign p e, _, h, hP => by
    cases h with
    | assign hp _ he _ =>
      exact ⟨Expr.Spelled.literals _ hp fun t ht => hP t (by simp [ht]),
        Expr.Spelled.literals _ he fun t ht => hP t (by simp [ht])⟩
  | .call f args, _, h, hP => by
    cases h with
    | call _ _ _ h _ _ =>
      exact Expr.Spelled.allLiterals args h.among fun t ht => hP t (by simp [ht])
  | .read places, _, h, hP => by
    cases h with
    | read h => exact Expr.Spelled.allLiterals _ (List.forall_mem_map.2 h.among) hP
  | .write values, _, h, hP => by
    cases h with
    | write h => exact Expr.Spelled.allLiterals _ h.among hP
  | .ret none, _, _, _ => trivial
  | .ret (some e), _, h, hP => by
    cases h with
    | retSome _ h _ => exact Expr.Spelled.literals e h fun t ht => hP t (by simp [ht])
  | .branch c body, _, h, hP => by
    cases h with
    | branch hc _ hbody _ =>
      exact ⟨hc.literals fun t ht => hP t (by simp [ht]),
        allLiterals body hbody.among fun t ht => hP t (by simp [ht])⟩
  | .branchElse c body other, _, h, hP => by
    cases h with
    | branchElse hc _ hbody _ _ _ hother _ =>
      exact ⟨hc.literals fun t ht => hP t (by simp [ht]),
        allLiterals body hbody.among fun t ht => hP t (by simp [ht]),
        allLiterals other hother.among fun t ht => hP t (by simp [ht])⟩
    | branchElseIf hc _ hbody _ _ _ hother =>
      exact ⟨hc.literals fun t ht => hP t (by simp [ht]),
        allLiterals body hbody.among fun t ht => hP t (by simp [ht]),
        allLiterals [_] (.cons hother (by simp +contextual) .nil) hP⟩
  | .loop c body, _, h, hP => by
    cases h with
    | loop hc _ hbody _ =>
      exact ⟨hc.literals fun t ht => hP t (by simp [ht]),
        allLiterals body hbody.among fun t ht => hP t (by simp [ht])⟩

theorem Stmt.Spelled.allLiterals : (ss : List Stmt) → {ts : List Token} → Among Stmt.Spelled ss ts →
    (∀ t ∈ ts, ∀ ty v, constant? t = some (ty, v) → P ty v) → Stmt.allLiterals P ss
  | [], _, _, _ => trivial
  | s :: ss, _, h, hP => by
    obtain ⟨⟨us, hus, hsub⟩, h⟩ := List.forall_mem_cons.1 h
    exact ⟨literals s hus fun t ht => hP t (hsub t ht), allLiterals ss h hP⟩

end

theorem Body.Spelled.literals {b : Body} (h : b.Spelled ts)
    (hP : ∀ t ∈ ts, ∀ ty v, constant? t = some (ty, v) → P ty v) :
    Stmt.allLiterals P b.statements := by
  cases h with
  | mk _ _ h _ => exact Stmt.Spelled.allLiterals _ h.among fun t ht => hP t (by simp [ht])

/-- The constants of a program are those that its tokens spell. -/
theorem Tree.Spelled.literals {t : Tree} (h : t.Spelled ts)
    (hP : ∀ t ∈ ts, ∀ ty v, constant? t = some (ty, v) → P ty v) : t.Literals P := by
  cases h with
  | mk _ _ _ hparts _ hmain =>
    refine ⟨?_, hmain.literals fun t ht => hP t (by simp [ht])⟩
    intro f hf
    obtain ⟨us, hus, hsub⟩ := hparts.among _ hf
    cases hus with
    | function h =>
      cases h with
      | mk _ _ _ _ _ _ hbody =>
        exact hbody.literals fun t ht => hP t (by simp [hsub t (by simp [ht])])

/-! ## Constants among actions -/

/-- All constants among some actions have a property. -/
def ConstantActions (P : Ty → Value → Prop) (as : List Action) : Prop :=
  ∀ ty v, .pushConst ty v ∈ as → P ty v

namespace ConstantActions

@[simp]
theorem nil : ConstantActions P [] := by simp [ConstantActions]

@[simp]
theorem append {as bs : List Action} :
    ConstantActions P (as ++ bs) ↔ ConstantActions P as ∧ ConstantActions P bs := by
  simp only [ConstantActions, List.mem_append, or_imp, forall_and]

@[simp]
theorem cons {a : Action} {as : List Action} (ha : ∀ ty v, a ≠ .pushConst ty v) :
    ConstantActions P (a :: as) ↔ ConstantActions P as := by
  simp [ConstantActions, fun ty v => (ha ty v).symm]

theorem of_forall {as : List Action} (h : ∀ a ∈ as, ∀ ty v, a ≠ .pushConst ty v) :
    ConstantActions P as := fun ty v hv => absurd rfl (h _ hv ty v)

theorem flatMap {as : List α} {f : α → List Action} :
    ConstantActions P (as.flatMap f) ↔ ∀ a ∈ as, ConstantActions P (f a) := by
  induction as with
  | nil => simp
  | cons a as ih => simp [ih]

end ConstantActions

mutual

/-- The constants of an expression are those of its actions. -/
theorem Expr.literals_iff : (e : Expr) → (e.Literals P ↔ ConstantActions P e.actions)
  | .constant ty v => by simp [Expr.Literals, Expr.actions, ConstantActions]
  | .group e => by simp [Expr.Literals, Expr.actions, literals_iff e]
  | .call f args => by simp [Expr.Literals, Expr.actions, argumentLiterals_iff args]
  | .reference name members indices => by
    have hmembers : ConstantActions P (members.map .member) := .of_forall (by simp)
    simp [Expr.Literals, Expr.actions, hmembers, indexLiterals_iff indices]
  | .unary op e => by simp [Expr.Literals, Expr.actions, literals_iff e]
  | .binary op l r => by simp [Expr.Literals, Expr.actions, literals_iff l, literals_iff r]

theorem Expr.argumentLiterals_iff : (es : List Expr) →
    (Expr.allLiterals P es ↔ ConstantActions P (Expr.argumentActions es))
  | [] => by simp [Expr.allLiterals, Expr.argumentActions]
  | e :: es => by
    simp [Expr.allLiterals, Expr.argumentActions, literals_iff e, argumentLiterals_iff es]

theorem Expr.indexLiterals_iff : (es : List Expr) →
    (Expr.allLiterals P es ↔ ConstantActions P (Expr.indexActions es))
  | [] => by simp [Expr.allLiterals, Expr.indexActions]
  | e :: es => by
    simp [Expr.allLiterals, Expr.indexActions, literals_iff e, indexLiterals_iff es]

end

/-- The constants of expressions that one action each uses. -/
theorem Expr.usedLiterals_iff {α : Type} {use : Action} (huse : ∀ ty v, use ≠ .pushConst ty v)
    (f : α → Expr) (as : List α) : Expr.allLiterals P (as.map f) ↔
      ConstantActions P (as.flatMap fun a => (f a).actions ++ [use]) := by
  induction as with
  | nil => simp [Expr.allLiterals]
  | cons a as ih => simp [Expr.allLiterals, ih, huse, Expr.literals_iff]

mutual

/-- The constants of a statement are those of its actions. -/
theorem Stmt.literals_iff : (s : Stmt) → (s.Literals P ↔ ConstantActions P s.actions)
  | .assign p e => by simp [Stmt.Literals, Stmt.actions, Expr.literals_iff]
  | .call f args => by simp [Stmt.Literals, Stmt.actions, Expr.argumentLiterals_iff]
  | .read places => Expr.usedLiterals_iff (by simp) Place.expr places
  | .write values => by
    have h := @Expr.usedLiterals_iff P _ .write (by simp) id values
    simpa [Stmt.Literals, Stmt.actions] using h
  | .ret none => by simp [Stmt.Literals, Stmt.actions]
  | .ret (some e) => by simp [Stmt.Literals, Stmt.actions, Expr.literals_iff]
  | .branch c body => by
    simp [Stmt.Literals, Stmt.actions, Expr.literals_iff, allLiterals_iff body]
  | .branchElse c body other => by
    simp [Stmt.Literals, Stmt.actions, Expr.literals_iff, allLiterals_iff body,
      allLiterals_iff other]
  | .loop c body => by
    simp [Stmt.Literals, Stmt.actions, Expr.literals_iff, allLiterals_iff body]

theorem Stmt.allLiterals_iff : (ss : List Stmt) →
    (Stmt.allLiterals P ss ↔ ConstantActions P (Stmt.allActions ss))
  | [] => by simp [Stmt.allLiterals, Stmt.allActions]
  | s :: ss => by simp [Stmt.allLiterals, Stmt.allActions, literals_iff s, allLiterals_iff ss]

end

/-- Nothing may be asked of constants. -/
theorem Expr.literals_true (e : Expr) : e.Literals fun _ _ => True :=
  e.literals_iff.2 fun _ _ _ => trivial

theorem Expr.allLiterals_true (es : List Expr) : Expr.allLiterals (fun _ _ => True) es :=
  (Expr.argumentLiterals_iff es).2 fun _ _ _ => trivial

theorem Stmt.literals_true (s : Stmt) : s.Literals fun _ _ => True :=
  s.literals_iff.2 fun _ _ _ => trivial

theorem Stmt.allLiterals_true (ss : List Stmt) : Stmt.allLiterals (fun _ _ => True) ss :=
  (Stmt.allLiterals_iff ss).2 fun _ _ _ => trivial

theorem Variables.constantActions (vs : List Variables) :
    ConstantActions P (vs.flatMap Variables.actions) := by
  apply ConstantActions.of_forall
  intro a ha ty v
  obtain ⟨d, -, ha⟩ := List.mem_flatMap.1 ha
  simp only [Variables.actions, List.mem_append, List.mem_flatMap, List.mem_singleton] at ha
  rcases ha with ⟨n, -, ha⟩ | rfl
  · simp only [Declarator.actions, List.mem_cons, List.mem_map] at ha
    rcases ha with rfl | ⟨size, -, rfl⟩
    · simp
    · simp
  · simp

theorem Body.literals_iff (b : Body) :
    Stmt.allLiterals P b.statements ↔ ConstantActions P b.actions := by
  simp [Body.actions, Variables.constantActions, Stmt.allLiterals_iff]

theorem Part.constantActions (part : Part) : ConstantActions P part.actions ↔
    ∀ f, part = .function f → Stmt.allLiterals P f.body.statements := by
  cases part with
  | record name fields => simp [Part.actions, Variables.constantActions]
  | function f =>
    have hparams : ConstantActions P (f.params.map Parameter.action) :=
      .of_forall (by simp [Parameter.action, Action.declareParam])
    simp [Part.actions, Function.actions, Action.declareFunction, hparams, Body.literals_iff]
  | declaration v =>
    have := @Variables.constantActions P [v]
    simpa [Part.actions] using this

/-- The constants of a program are those of its actions. -/
theorem Tree.literals_iff (t : Tree) : t.Literals P ↔ ConstantActions P t.actions := by
  simp only [Tree.Literals, Tree.actions, List.cons_append, ne_eq, reduceCtorEq, not_false_eq_true,
    implies_true, ConstantActions.cons, ConstantActions.append, ConstantActions.flatMap,
    Part.constantActions, Body.literals_iff]
  constructor
  · rintro ⟨hparts, hmain⟩
    refine ⟨?_, hmain⟩
    rintro part hpart f rfl
    exact hparts f hpart
  · rintro ⟨hparts, hmain⟩
    exact ⟨fun f hf => hparts _ hf f rfl, hmain⟩

end Quadlang.Source
