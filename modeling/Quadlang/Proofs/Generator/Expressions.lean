-- Expressions from their tokens to their instructions: what is printed for a tree is read back as
-- the tree, and reading it generates the code of the tree.
import Quadlang.Compile
import Quadlang.Proofs.Generator.Generation
import Quadlang.Proofs.Source.Printing

namespace Quadlang

open Source Grammar Generate

/-- Reading only adds to the events, and what it adds are the actions that it noted. -/
theorem Source.Took.exists_events {c c' : Cursor} {ts : List Token} {as : List Action}
    (h : Took c ts as c') : ∃ events : List Event, c'.events = events.reverse ++ c.events ∧
      events.map (·.action) = as := by
  obtain ⟨new, hnew⟩ := h.kept
  refine ⟨new.reverse, by rw [List.reverse_reverse, hnew], ?_⟩
  have hactions : new.map (·.action) ++ c.events.map (·.action) = as.reverse ++
    c.events.map (·.action) := by
    rw [← List.map_append, hnew, h.events]
  rw [List.map_reverse, List.append_cancel_right hactions, List.reverse_reverse]

/-- The text of an expression that type checks and finds room, in front of what continues no
expression, is taken as a whole and nothing else is. Its events append the code of the expression
and push its operand. Every cell that the code stores to is a temporary that was not taken before,
and no other instruction of the code stores to it. -/
theorem expression_generated {e : Expr} {ts after : List Token} {c : Cursor} {bound : Nat}
    {g : Generator} {ty : Ty} {m : Memory} (hprinted : e.Printed ts) (hwords : ∀ t ∈ ts, Worded t)
    (hrest : c.rest = ts ++ after) (hstops : Stops loosest after)
    (hbound : 6 * ts.length + loosest ≤ bound) (hty : g.names.typeOf? e = some ty)
    (hroom : g.memory.meetAll? (g.names.demands e) = some m) :
    ∃ c' events line x code,
      expression bound c = .ok () c' ∧ c'.rest = after ∧ c'.events = events.reverse ++ c.events ∧
      performAll events g = .ok () (g.grow line m code (x :: g.operands)) ∧
      ExprCode g.names e g.memory x code m ∧ x.ty = ty ∧
      (g.memory.Valid → code.Pairwise (fun q q' => ∀ a, q.Stores a → ¬ q'.Stores a) ∧
        ∀ q ∈ code, ∀ a, q.Stores a →
          (∀ ty, ¬ g.memory.Taken .temps ty a) ∧ ∃ ty, m.Taken .temps ty a) := by
  have hspelled := spelled_of_printed e hprinted
  obtain ⟨c', hread, htook⟩ := expression_accepts hspelled hwords hbound c after hrest hstops
  obtain ⟨events, hevents, hactions⟩ := htook.exists_events
  obtain ⟨x, code, hcode, hx⟩ := exprCode_of_typeOf? e hty hroom
  have hcode' := exprCode_parenthesized e hcode
  obtain ⟨line, hperform⟩ := achieves_expr e.parenthesized hcode' events g.line hactions
  have hafter : c'.rest = after := List.append_cancel_left (htook.rest.symm.trans hrest)
  refine ⟨c', events, line, x, code, hread, hafter, hevents, hperform, hcode, hx, ?_⟩
  intro hvalid
  have hliterals := Expr.Spelled.literals (P := fun _ _ => True) e.parenthesized hspelled (by simp)
  have hgrowth := hcode'.growth (T := fun _ => True) (P := fun _ _ => True) hvalid hliterals
  have hfills : ∀ {q : Quad} {a : Addr}, q.Stores a → q.FillsIn (fun _ => True) a := fun h =>
    ⟨h.1, h.2, trivial⟩
  refine ⟨hgrowth.once.imp fun honce a h h' => honce a (hfills h) (hfills h'), fun q hq a h => ?_⟩
  exact ⟨hgrowth.new q hq a (hfills h), hgrowth.taken q hq a (hfills h)⟩

namespace Difference

/-- A compilation at the beginning of a body, with a variable, an array and a function. -/
def state : Generator :=
  (Generator.initial.parse (ascii "program difference; int n; int v[3]; " ++
    ascii "func int f(int k) \x7b return k; \x7d main \x7b")).2

def minuend : Expr := .reference (ascii "n") [] []

def result : Expr := .call (ascii "f") [.constant .int (.int 2)]

def element : Expr := .reference (ascii "v") [] [.constant .int (.int 1)]

/-- The tree of `n - (n - f(2)) * v[1]`. -/
def tree : Expr :=
  .binary (.arith .sub) minuend (.binary (.arith .mult) (.binary (.arith .sub) minuend result)
  element)

def word (w : String) : Token := ⟨.identifier, ascii w, 1⟩

def mark (w : String) : Token := ⟨.punctuation, ascii w, 1⟩

def number (w : String) : Token := ⟨.int, ascii w, 1⟩

def tokens : List Token :=
  [word "n", mark "-", mark "(", word "n", mark "-", word "f", mark "(", number "2",
    mark ")", mark ")", mark "*", word "v", mark "[", number "1", mark "]"]

/-- Only the difference on the right is in parentheses. -/
theorem tree_printed : tree.Printed tokens := by
  have hn : minuend.Printed [word "n"] := .reference (.mk (t := word "n") (by decide)) .nil .nil
  have htwo : Expr.Printed (.constant .int (.int 2)) [number "2"] := .constant (by decide)
  have hf : result.Printed [word "f", mark "(", number "2", mark ")"] :=
    .call (t := word "f") (l := mark "(") (r := mark ")") rfl (by decide) (by decide)
    (.cons htwo .nil)
      (by decide)
  have hone : Expr.Printed (.constant .int (.int 1)) [number "1"] := .constant (by decide)
  have hv : element.Printed [word "v", mark "[", number "1", mark "]"] :=
    .reference (.mk (t := word "v") (by decide)) .nil
      (.cons (l := mark "[") (r := mark "]") (by decide) hone (by decide) .nil)
  have hleft : Enclosed Expr.Printed (minuend.enclosedLeft (.arith .sub)) minuend [word "n"] :=
    .bare hn
  have hright : Enclosed Expr.Printed (result.enclosedRight (.arith .sub)) result
      [word "f", mark "(", number "2", mark ")"] := .bare hf
  have hbare : Expr.Printed (.binary (.arith .sub) minuend result)
      [word "n", mark "-", word "f", mark "(", number "2", mark ")"] :=
    .binary (t := mark "-") (by decide : operator? (binaryOps 2) _ = _) hleft hright
  have hinner : Enclosed Expr.Printed (Expr.enclosedLeft (.arith .mult)
    (.binary (.arith .sub) minuend result))
      (.binary (.arith .sub) minuend result)
      [mark "(", word "n", mark "-", word "f", mark "(", number "2", mark ")", mark ")"] :=
    .parentheses (l := mark "(") (r := mark ")") (by decide) hbare (by decide)
  have hproduct : Enclosed Expr.Printed
      (Expr.enclosedRight (.arith .sub) (.binary (.arith .mult)
      (.binary (.arith .sub) minuend result) element))
      (.binary (.arith .mult) (.binary (.arith .sub) minuend result) element) (tokens.drop 2) :=
    .bare (.binary (t := mark "*") (by decide : operator? (binaryOps 1) _ = _) hinner (.bare hv))
  exact .binary (t := mark "-") (by decide : operator? (binaryOps 2) _ = _) hleft hproduct

/-- Reading takes the expression with its parentheses and stops at the mark behind it. -/
theorem difference_generated : ∃ m c' events line x code,
    expression 100 ⟨tokens ++ [mark ";"], 1, 1, []⟩ = .ok () c' ∧ c'.rest = [mark ";"] ∧
    c'.events = events.reverse ∧
    performAll events state = .ok () (state.grow line m code (x :: state.operands)) ∧
    ExprCode state.names tree state.memory x code m ∧ x.ty = .int ∧
    code.Pairwise (fun q q' => ∀ a, q.Stores a → ¬ q'.Stores a) ∧
    ∀ q ∈ code, ∀ a, q.Stores a →
      (∀ ty, ¬ state.memory.Taken .temps ty a) ∧ ∃ ty, m.Taken .temps ty a := by
  have hstate : state.names.typeOf? tree = some .int ∧
      (state.memory.meetAll? (state.names.demands tree)).isSome = true ∧
      state.memory.layout = Layout.standard ∧ state.memory.constants.isEmpty = true ∧
      (∀ r ∈ state.memory.regions, 0 ≤ r.low.toInt ∧ r.high.toInt < 0x4000000000000000) ∧
      ∀ r ∈ state.memory.regions, r.low.toInt ≤ r.next.toInt ∧ r.next.toInt ≤ r.high.toInt + 1 := by
    decide +kernel
  obtain ⟨hty, hroom, hlayout, hconstants, hsmall, hcursors⟩ := hstate
  rw [List.isEmpty_iff] at hconstants
  have hvalid : state.memory.Valid :=
    ⟨hlayout ▸ Layout.standard_disjoint, hsmall, hcursors,
    by simp [hconstants], by simp [hconstants]⟩
  obtain ⟨m, hm⟩ := Option.isSome_iff_exists.1 hroom
  have hwords : ∀ t ∈ tokens, Worded t := by
    unfold Worded
    decide
  have hmark : (mark ";").is (ascii ";") := by decide
  have hstops : Stops loosest [mark ";"] := stops_of_is hmark (by decide)
  obtain ⟨c', events, line, x, code, hread, hafter, hevents, hperform, hcode, hx, hfresh⟩ :=
    expression_generated (c := ⟨tokens ++ [mark ";"], 1, 1, []⟩) tree_printed hwords rfl hstops
      (by decide : 6 * tokens.length + loosest ≤ 100) hty hm
  rw [List.append_nil] at hevents
  exact ⟨m, c', events, line, x, code, hread, hafter, hevents, hperform, hcode, hx, hfresh hvalid⟩

end Difference

end Quadlang
