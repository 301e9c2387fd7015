-- Compiling a statement checks it: in every body, the text of a statement is read as a whole, and
-- its actions succeed exactly if the statement is well typed and finds room. Each expression in it
-- then leaves an operand of the type that the rules give it.
import Quadlang.Proofs.Generator.Expressions
import Quadlang.Proofs.Generator.Rules
import Quadlang.Proofs.Source.Statements

namespace Quadlang

open Source Grammar Generate Success

/-! ## Expressions of statements -/

namespace Source

/-- An expression is another one or a part of it. -/
inductive Expr.Inside (e : Expr) : Expr → Prop
  | self : Inside e e
  | group {e' : Expr} : Inside e e' → Inside e (.group e')
  | argument {function : Bytes} {args : List Expr} {arg : Expr} : arg ∈ args → Inside e arg →
      Inside e (.call function args)
  | index {name : Bytes} {members : List Bytes} {indices : List Expr} {i : Expr} : i ∈ indices →
      Inside e i → Inside e (.reference name members indices)
  | unary {op : UnaryOp} {e' : Expr} : Inside e e' → Inside e (.unary op e')
  | left {op : BinaryOp} {l r : Expr} : Inside e l → Inside e (.binary op l r)
  | right {op : BinaryOp} {l r : Expr} : Inside e r → Inside e (.binary op l r)

/-- An expression stands in a statement. -/
inductive Stmt.Mentions (e : Expr) : Stmt → Prop
  | target {p : Place} {value : Expr} : e.Inside p.expr → Mentions e (.assign p value)
  | value {p : Place} {value : Expr} : e.Inside value → Mentions e (.assign p value)
  | argument {function : Bytes} {args : List Expr} {arg : Expr} : arg ∈ args → e.Inside arg →
      Mentions e (.call function args)
  | read {places : List Place} {p : Place} : p ∈ places → e.Inside p.expr →
    Mentions e (.read places)
  | write {values : List Expr} {value : Expr} : value ∈ values → e.Inside value →
      Mentions e (.write values)
  | ret {value : Expr} : e.Inside value → Mentions e (.ret (some value))
  | branch {c : Expr} {body : List Stmt} : e.Inside c → Mentions e (.branch c body)
  | branchBody {c : Expr} {body : List Stmt} {s : Stmt} : s ∈ body → Mentions e s →
      Mentions e (.branch c body)
  | either {c : Expr} {body other : List Stmt} : e.Inside c → Mentions e (.branchElse c body other)
  | eitherBody {c : Expr} {body other : List Stmt} {s : Stmt} : s ∈ body → Mentions e s →
      Mentions e (.branchElse c body other)
  | eitherOther {c : Expr} {body other : List Stmt} {s : Stmt} : s ∈ other → Mentions e s →
      Mentions e (.branchElse c body other)
  | loop {c : Expr} {body : List Stmt} : e.Inside c → Mentions e (.loop c body)
  | loopBody {c : Expr} {body : List Stmt} {s : Stmt} : s ∈ body → Mentions e s →
      Mentions e (.loop c body)

theorem infix_argumentActions {es : List Expr} {e : Expr} (h : e ∈ es) :
    e.actions <:+: Expr.argumentActions es := by
  induction es with
  | nil => cases h
  | cons e' es ih =>
    rcases List.mem_cons.1 h with rfl | h
    · exact ⟨[], .argument :: Expr.argumentActions es, by simp [Expr.argumentActions]⟩
    · exact (ih h).trans ⟨e'.actions ++ [.argument], [], by simp [Expr.argumentActions]⟩

theorem infix_indexActions {es : List Expr} {e : Expr} (h : e ∈ es) :
    e.actions <:+: Expr.indexActions es := by
  induction es with
  | nil => cases h
  | cons e' es ih =>
    rcases List.mem_cons.1 h with rfl | h
    · exact ⟨[.indexStart], .indexEnd :: Expr.indexActions es, by simp [Expr.indexActions]⟩
    · exact (ih h).trans ⟨.indexStart :: e'.actions ++ [.indexEnd], [], by simp [Expr.indexActions]⟩

/-- The actions of a part are in one piece. -/
theorem Expr.Inside.piece {e e' : Expr} (h : e.Inside e') : e.actions <:+: e'.actions := by
  induction h with
  | self => exact List.infix_refl _
  | group _ ih => exact ih.trans ⟨[.openGroup], [.closeGroup], by simp [Expr.actions]⟩
  | @argument function args arg hmem _ ih =>
    exact (ih.trans (infix_argumentActions hmem)).trans
      ⟨[.callStart function], [.callEnd false], by simp [Expr.actions]⟩
  | @index name members indices i hmem _ ih =>
    exact (ih.trans (infix_indexActions hmem)).trans
      ⟨.var name :: members.map .member, [.varEnd], by simp [Expr.actions]⟩
  | @unary op e' _ ih =>
    exact ih.trans ⟨[.pushOperator op.opcode], [.collapse Level.unary], by simp [Expr.actions]⟩
  | @left op l r _ ih =>
    exact ih.trans ⟨[], .pushOperator op.opcode :: r.actions ++
      [.collapse (Operator.binary op).level], by simp [Expr.actions]⟩
  | @right op l r _ ih =>
    exact ih.trans ⟨l.actions ++ [.pushOperator op.opcode], [.collapse (Operator.binary op).level],
      by simp [Expr.actions]⟩

theorem infix_flatMap {α : Type} {f : α → List Action} {as : List α} {a : α} (h : a ∈ as) :
    f a <:+: as.flatMap f := by
  induction as with
  | nil => cases h
  | cons b as ih =>
    rcases List.mem_cons.1 h with rfl | h
    · exact ⟨[], as.flatMap f, by simp⟩
    · exact (ih h).trans ⟨f b, [], by simp⟩

theorem infix_allActions {ss : List Stmt} {s : Stmt} (h : s ∈ ss) :
    s.actions <:+: Stmt.allActions ss := by
  induction ss with
  | nil => cases h
  | cons s' ss ih =>
    rcases List.mem_cons.1 h with rfl | h
    · exact ⟨[], Stmt.allActions ss, by simp [Stmt.allActions]⟩
    · exact (ih h).trans ⟨s'.actions, [], by simp [Stmt.allActions]⟩

theorem Stmt.Mentions.piece {e : Expr} {s : Stmt} (h : s.Mentions e) :
    e.actions <:+: s.actions := by
  induction h with
  | @target p value h =>
    exact h.piece.trans ⟨[], .pushOperator .assign :: value.actions ++ [.collapse Level.assign],
      by simp [Stmt.actions]⟩
  | @value p value h =>
    exact h.piece.trans ⟨p.expr.actions ++ [.pushOperator .assign], [.collapse Level.assign],
      by simp [Stmt.actions]⟩
  | @argument function args arg hmem h =>
    exact (h.piece.trans (infix_argumentActions hmem)).trans
      ⟨[.callStart function], [.callEnd true], by simp [Stmt.actions]⟩
  | read hmem h =>
    refine h.piece.trans (.trans ⟨[], [.read], ?_⟩ (infix_flatMap hmem))
    simp
  | write hmem h =>
    refine h.piece.trans (.trans ⟨[], [.write], ?_⟩ (infix_flatMap hmem))
    simp
  | ret h => exact h.piece.trans ⟨[], [.ret true], by simp [Stmt.actions]⟩
  | @branch c body h =>
    exact h.piece.trans ⟨[], .ifCond :: allActions body ++ [.endIf], by simp [Stmt.actions]⟩
  | @branchBody c body s hmem _ ih =>
    exact (ih.trans (infix_allActions hmem)).trans
      ⟨c.actions ++ [.ifCond], [.endIf], by simp [Stmt.actions]⟩
  | @either c body other h =>
    exact h.piece.trans ⟨[], .ifCond :: allActions body ++ .orElse :: allActions other ++ [.endIf],
      by simp [Stmt.actions]⟩
  | @eitherBody c body other s hmem _ ih =>
    exact (ih.trans (infix_allActions hmem)).trans
      ⟨c.actions ++ [.ifCond], .orElse :: allActions other ++ [.endIf], by simp [Stmt.actions]⟩
  | @eitherOther c body other s hmem _ ih =>
    exact (ih.trans (infix_allActions hmem)).trans
      ⟨c.actions ++ .ifCond :: allActions body ++ [.orElse], [.endIf], by simp [Stmt.actions]⟩
  | @loop c body h =>
    exact h.piece.trans ⟨[.whileStart], .whileCond :: allActions body ++ [.whileEnd],
      by simp [Stmt.actions]⟩
  | @loopBody c body s hmem _ ih =>
    exact (ih.trans (infix_allActions hmem)).trans
      ⟨.whileStart :: c.actions ++ [.whileCond], [.whileEnd], by simp [Stmt.actions]⟩

theorem plain_of_constant? {t : Token} {ty : Ty} {v : Value} (h : constant? t = some (ty, v)) :
    Plain ty v := by
  unfold constant? at h
  split at h
  · obtain ⟨n, -, hn⟩ := Option.map_eq_some_iff.1 h
    cases hn
    rfl
  · obtain ⟨x, -, hx⟩ := Option.map_eq_some_iff.1 h
    cases hx
    rfl
  · split at h
    · cases h
      rfl
    · cases h
  · cases h
    rfl
  · split_ifs at h
    · cases h
      rfl
    · cases h
      rfl
  · cases h

end Source

/-! ## Bodies -/

/-- A state that a compilation can be in after some actions, whichever of them failed. -/
def Generator.Reached (g : Generator) : Prop :=
  ∃ l events n, g = ((Trace.start l).run events).generator.onLine n

theorem Generator.Reached.filed {g : Generator} (h : g.Reached) : g.Filed := by
  obtain ⟨l, events, n, rfl⟩ := h
  exact ((Generator.Filed.start l).run events).of_same rfl rfl rfl rfl

theorem Generator.InBody.callee? {g : Generator} {function : Option Ty} (h : g.InBody function) :
    g.callee?.map (·.ty) = function := by
  cases h with
  | main _ hf => rw [Generator.callee?, hf]; rfl
  | function hf => rw [Generator.callee?, hf]; rfl

theorem names_of_same {g g' : Generator} (hscopes : g'.scopes = g.scopes)
    (hcurrent : g'.current = g.current) (henclosing : g'.enclosing = g.enclosing) :
    g'.names = g.names := by
  have hscope : g'.scope = g.scope := by
    funext id
    simp only [Generator.scope, hscopes]
  have hlookup : g'.lookup = g.lookup := by
    funext id
    simp only [Generator.lookup, hscope, hcurrent, henclosing]
  have hparams : g'.paramsOf = g.paramsOf := by
    funext callee
    simp only [Generator.paramsOf, Generator.outermost, hscope]
  simp only [Generator.names, hscope, hlookup, hparams]

/-- Actions that compute leave all names alone. -/
theorem names_performAll {events : List Event} {g g' : Generator}
    (hcomputes : ∀ e ∈ events, e.action.computes = true) (h : performAll events g = .ok () g') :
    g'.names = g.names := by
  induction events generalizing g with
  | nil =>
    obtain ⟨-, rfl⟩ := pure_eq_ok.1 h
    rfl
  | cons e events ih =>
    obtain ⟨hfirst, hrest⟩ := List.forall_mem_cons.1 hcomputes
    simp only [performAll, setLine, bind_eq_ok, modify_eq_ok] at h
    obtain ⟨_, _, rfl, r, g₁, hperform, h⟩ := h
    obtain ⟨m, halike⟩ := alike_perform (Action.declares_of_computes hfirst)
      { g with line := e.line }
    rw [after_of_ok hperform] at halike
    exact (ih hrest h).trans (names_of_same halike.scopes halike.current halike.enclosing)

theorem performAll_append_eq_ok {es fs : List Event} {g g' : Generator}
    (h : performAll (es ++ fs) g = .ok () g') :
    ∃ g₁, performAll es g = .ok () g₁ ∧ performAll fs g₁ = .ok () g' := by
  rw [performAll_append, bind_eq_ok] at h
  obtain ⟨_, g₁, hes, hfs⟩ := h
  exact ⟨g₁, hes, hfs⟩

/-! ## Statements -/

/-- Between some events of an expression, an operand of the one type that the expression has
appears. -/
def Generator.Types (g : Generator) (es fs : List Event) (e : Expr) : Prop :=
  ∃ g₁ g₂ x, performAll es g = .ok () g₁ ∧ performAll fs g₁ = .ok () g₂ ∧
    g₂.operands = x :: g₁.operands ∧ ∀ ty, HasType g.declarations e ty ↔ ty = x.ty

/-- Reading a statement in a body and performing its actions succeeds exactly if the statement is
well typed and there are addresses for its constants and for the values in between. All its
expressions then leave operands of their types. -/
theorem statement_checked {g : Generator} {function : Option Ty} {s : Stmt} {ts after : List Token}
    {c : Cursor} {bound : Nat} (hreached : g.Reached) (hbody : g.InBody function)
    (hspelled : s.Spelled ts) (hwords : ∀ t ∈ ts, Worded t) (hnames : s.callsNames = true)
    (hrest : c.rest = ts ++ after) (hends : Ends after) (hbound : 6 * ts.length + loosest ≤ bound) :
    ∃ c' events, statement bound c = .ok () c' ∧ c'.rest = after ∧
      c'.events = events.reverse ++ c.events ∧
      ((∃ g', performAll events g = .ok () g') ↔ WellTyped g.declarations function s ∧
        (g.memory.meetAll? (g.names.stmtDemands s)).isSome = true) ∧
      (∀ e, s.Mentions e → ∃ es fs rest, events = es ++ fs ++ rest ∧
        fs.map (·.action) = e.actions) ∧
      ∀ g', performAll events g = .ok () g' → ∀ e es fs rest, events = es ++ fs ++ rest →
        fs.map (·.action) = e.actions → g.Types es fs e := by
  have hfiled := hreached.filed
  have hhere := hbody.here_ne hfiled
  obtain ⟨c', hread, htook⟩ := statement_accepts hspelled hwords hnames hbound c after hrest hends
  obtain ⟨events, hevents, hactions⟩ := htook.exists_events
  have hafter : c'.rest = after := List.append_cancel_left (htook.rest.symm.trans hrest)
  have hliterals : s.Literals Plain := Stmt.Spelled.literals s hspelled fun t _ _ _ =>
    plain_of_constant?
  refine ⟨c', events, hread, hafter, hevents, ?_, ?_, ?_⟩
  · have hcode : (∃ g', performAll events g = .ok () g') ↔
        ∃ m code, StmtCode g.names g.callee? g.quads.size s g.memory code m := by
      constructor
      · rintro ⟨g', h⟩
        obtain ⟨code, m, n, hcode, -⟩ := perform_stmt s ⟨events, hactions, h⟩
        exact ⟨m, code, hcode⟩
      · rintro ⟨m, code, hcode⟩
        obtain ⟨n, h⟩ := achieves_stmt s hcode events g.line hactions
        exact ⟨_, h⟩
    rw [hcode, Option.isSome_iff_exists, ← hbody.callee?, ← exists_and_left]
    exact exists_congr fun m => stmtCode_iff hfiled hhere s hliterals
  · intro e he
    obtain ⟨as, bs, has⟩ := he.piece
    rw [← hactions] at has
    obtain ⟨es, rest, rfl, hes, -⟩ := List.map_eq_append_iff.1 has.symm
    obtain ⟨es, fs, rfl, -, hfs⟩ := List.map_eq_append_iff.1 hes
    exact ⟨es, fs, rest, rfl, hfs⟩
  · rintro g' hperform e es fs rest rfl hfs
    obtain ⟨g₂, hfirst, -⟩ := performAll_append_eq_ok hperform
    obtain ⟨g₁, hbefore, hperforms⟩ := performAll_append_eq_ok hfirst
    obtain ⟨x, code, m, n, hcode, rfl⟩ := perform_expr e ⟨fs, hfs, hperforms⟩
    refine ⟨g₁, _, x, hbefore, hperforms, rfl, fun ty => ?_⟩
    have hkeeps : g₁.names = g.names := by
      refine names_performAll (fun ev hev => s.computes _ ?_) hbefore
      rw [← hactions]
      exact List.mem_map_of_mem (by simp [hev])
    obtain ⟨htype, -⟩ := hcode.checked
    rw [hkeeps] at htype
    rw [hasType_iff hfiled hhere e, htype, Option.some.injEq, eq_comm]

namespace Branches

def text : Bytes :=
  ascii "program branches; class C \x7b int w[2]; \x7d C o; int n; " ++
    ascii "func void p(int i, bool b) \x7b \x7d func int f(int k) \x7b"

/-- A compilation in the body of a function. -/
def state : Generator := (Generator.initial.parse text).2

def limit : Expr := .reference (ascii "k") [] []

def count : Expr := .reference (ascii "n") [] []

/-- An element of the array in an instance, at an index that a call gives. -/
def element : Expr := .reference (ascii "o") [ascii "w"]
    [.call (ascii "f") [.constant .int (.int 1)]]

def condition : Expr := .binary (.compare .lt) element limit

/-- The tree of `if (o.w[f(1)] < k) \x7b p(n, true); \x7d else \x7b return k; \x7d`. -/
def tree : Stmt :=
  .branchElse condition [.call (ascii "p") [count, .constant .bool (.bool true)]]
  [.ret (some limit)]

def word (w : String) : Token := ⟨.identifier, ascii w, 1⟩

def mark (w : String) : Token := ⟨.punctuation, ascii w, 1⟩

def one : Token := ⟨.int, ascii "1", 1⟩

def tokens : List Token :=
  [word "if", mark "(", word "o", mark ".", word "w", mark "[", word "f", mark "(", one, mark ")",
    mark "]", mark "<", word "k", mark ")", mark "\x7b", word "p", mark "(", word "n", mark ",",
    word "true", mark ")", mark ";", mark "\x7d", word "else", mark "\x7b", word "return", word "k",
    mark ";", mark "\x7d"]

theorem tree_spelled : tree.Spelled tokens := by
  have hk : limit.Spelled [word "k"] := .reference (.mk (t := word "k") (by decide)) .nil .nil
  have hn : count.Spelled [word "n"] := .reference (.mk (t := word "n") (by decide)) .nil .nil
  have hone : Expr.Spelled (.constant .int (.int 1)) [one] := .constant (by decide)
  have htrue : Expr.Spelled (.constant .bool (.bool true)) [word "true"] := .constant (by decide)
  have hf : Expr.Spelled (.call (ascii "f") [.constant .int (.int 1)])
      [word "f", mark "(", one, mark ")"] :=
    .call (t := word "f") (l := mark "(") (r := mark ")") rfl (by decide) (by decide)
    (.cons hone .nil)
      (by decide)
  have helement : element.Spelled
      [word "o", mark ".", word "w", mark "[", word "f", mark "(", one, mark ")", mark "]"] :=
    .reference (.mk (t := word "o") (by decide))
    (.cons (.mk (t := word "w") (by decide) (by decide)) .nil)
      (.cons (l := mark "[") (r := mark "]") (by decide) hf (by decide) .nil)
  have hcondition : condition.Spelled (tokens.drop 2 |>.take 11) :=
    .binary (t := mark "<") (by decide : operator? (binaryOps 3) _ = _) helement hk (by decide)
    (by decide)
      (by decide)
  have hcall : Stmt.Spelled (.call (ascii "p") [count, .constant .bool (.bool true)])
      [word "p", mark "(", word "n", mark ",", word "true", mark ")", mark ";"] :=
    .call (t := word "p") (l := mark "(") (r := mark ")") rfl (by decide) (by decide)
      (.cons hn (.cons (by decide) htrue .nil)) (by decide) (by decide)
  have hret : Stmt.Spelled (.ret (some limit)) [word "return", word "k", mark ";"] :=
    .retSome (t := word "return") (by decide) hk (by decide)
  have hif : Condition "if" condition (tokens.take 14) :=
    .mk (t := word "if") (l := mark "(") (r := mark ")") (by decide)
    (by decide) hcondition (by decide)
  have hopen : (mark "\x7b").is (ascii "\x7b") := by decide
  have hclose : (mark "\x7d").is (ascii "\x7d") := by decide
  exact .branchElse (t := word "else") hif hopen (.cons hcall .nil) hclose (by decide) hopen
    (.cons hret .nil) hclose

theorem state_reached : state.Reached := by
  obtain ⟨line, h⟩ := generator_ofText Layout.standard text
  exact ⟨Layout.standard, fired _ text, line, h⟩

/-- What the text declared, evaluated once. -/
theorem state_declares :
    state.function.map (fun f => (f.1.ty, f.2)) = some (.int, state.current) ∧
      state.names.typeOf? condition = some .bool ∧ state.names.typeOf? limit = some .int ∧
      (state.names.callee? (ascii "p")).map (fun f => (state.names.params f).map (·.ty)) =
        some [.int, .bool] ∧
      state.names.typesOf? [count, .constant .bool (.bool true)] = some [.int, .bool] ∧
      (state.memory.meetAll? (state.names.stmtDemands tree)).isSome = true := by
  decide +kernel

theorem state_inBody : state.InBody (some .int) := by
  obtain ⟨⟨f, scope⟩, hf, hty⟩ := Option.map_eq_some_iff.1 state_declares.1
  obtain ⟨hty, rfl⟩ := Prod.mk.inj hty
  have hbody : state.InBody (some f.ty) := .function hf
  rwa [hty] at hbody

theorem tree_wellTyped : WellTyped state.declarations (some .int) tree := by
  have hfiled := state_reached.filed
  have hhere := state_inBody.here_ne hfiled
  obtain ⟨-, hcondition, hk, hp, hargs, -⟩ := state_declares
  have hcondition : HasType state.declarations condition .bool :=
    (hasType_iff hfiled hhere condition).2 hcondition
  have hk : HasType state.declarations limit .int := (hasType_iff hfiled hhere limit).2 hk
  obtain ⟨f, hf, hparams⟩ := Option.map_eq_some_iff.1 hp
  obtain ⟨sym, address, target, hlookup, -, hkind⟩ := lookup_of_callee hfiled hf
  have hargs : HasTypes state.declarations [count, .constant .bool (.bool true)] [.int, .bool] :=
    (hasTypes_iff hfiled hhere _).2 hargs
  rw [← hparams] at hargs
  refine .branchElse hcondition ?_ ?_
  · simpa using WellTyped.call (resolves_lookup.2 hlookup) hkind hargs
  · simpa using WellTyped.retSome rfl hk

/-- Both branches are checked in the function, and the element gets its type. -/
theorem branches_checked : ∃ c' events g', statement 200 ⟨tokens ++ [mark "\x7d"], 1, 1, []⟩ =
    .ok () c' ∧ c'.rest = [mark "\x7d"] ∧ c'.events = events.reverse ∧
      performAll events state = .ok () g' ∧
    ∃ es fs rest, events = es ++ fs ++ rest ∧ fs.map (·.action) = element.actions ∧
      state.Types es fs element := by
  have hwords : ∀ t ∈ tokens, Worded t := by
    unfold Worded
    decide
  have hends : Ends [mark "\x7d"] := by
    unfold Ends
    decide
  obtain ⟨-, -, -, -, -, hroom⟩ := state_declares
  obtain ⟨c', events, hread, hafter, hevents, hchecked, hmentions, htypes⟩ :=
    statement_checked (c := ⟨tokens ++ [mark "\x7d"], 1, 1, []⟩) state_reached state_inBody
    tree_spelled
      hwords rfl rfl hends (by decide : 6 * tokens.length + loosest ≤ 200)
  obtain ⟨g', hperform⟩ := hchecked.2 ⟨tree_wellTyped, hroom⟩
  obtain ⟨es, fs, rest, hsplit, hfs⟩ := hmentions element (.either (.left .self))
  rw [List.append_nil] at hevents
  exact ⟨c', events, g', hread, hafter, hevents, hperform, es, fs, rest, hsplit, hfs,
    htypes g' hperform element es fs rest hsplit hfs⟩

end Branches

end Quadlang
