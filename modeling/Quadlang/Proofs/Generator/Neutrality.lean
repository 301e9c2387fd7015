-- Expressions and statements keep the stacks of a compilation: an expression leaves its operand
-- behind and a statement nothing, whatever was begun around them.
import Quadlang.Proofs.Generator.Expressions
import Quadlang.Proofs.Source.Beginnings

namespace Quadlang

open Source Grammar Generate

variable {p : Parser Unit} {c c' : Cursor} {g g' : Generator} {α : Type} {actions : α → List Action}
  {k : Nat}

/-- A reader succeeds, and so does the performing of what it notes. -/
structure Generates (p : Parser Unit) (c : Cursor) (g : Generator) (c' : Cursor) (g' : Generator) :
    Prop where
  read : p c = .ok () c'
  performed : ∃ events : List Event, c'.events = events.reverse ++ c.events ∧
    performAll events g = .ok () g'

/-- From one state of a compilation to another some operands are new. Every other stack, the scopes
and the instructions that were there are as before. -/
structure Balanced (g : Generator) (new : List TypedOperand) (g' : Generator) : Prop where
  operands : g'.operands = new ++ g.operands
  operators : g'.operators = g.operators
  jumps : g'.jumps = g.jumps
  references : g'.references = g.references
  calls : g'.calls = g.calls
  waiting : g'.waiting = g.waiting
  current : g'.current = g.current
  enclosing : g'.enclosing = g.enclosing
  function : g'.function = g.function
  scopes : g'.scopes = g.scopes
  quads : g.quads.toList <+: g'.quads.toList

theorem balanced_grow (g : Generator) (line : Int) (m : Memory) (code : List Quad)
    (new : List TypedOperand) : Balanced g new (g.grow line m code (new ++ g.operands)) where
  operands := rfl
  operators := rfl
  jumps := rfl
  references := rfl
  calls := rfl
  waiting := rfl
  current := rfl
  enclosing := rfl
  function := rfl
  scopes := rfl
  quads := ⟨code, by simp [Generator.grow]⟩

/-- What is performed behind a reader are the actions that it should note. -/
theorem Generates.leads {Q : List Token → List Action → Cursor → Prop} (h : Generates p c g c' g')
    (hp : Source.Leads k c Q actions (p c)) :
    ∃ ts as, Q ts as c' ∧ c.rest = ts ++ c'.rest ∧ Performs as g g' := by
  obtain ⟨events, hevents, hperform⟩ := h.performed
  rw [h.read] at hp
  obtain ⟨ts, as, hq, htook⟩ := hp
  obtain ⟨noted, hnoted, hactions⟩ := htook.exists_events
  have hsame : events = noted :=
    List.reverse_injective (List.append_cancel_right (hevents.symm.trans hnoted))
  exact ⟨ts, as, hq, htook.rest, noted, hactions, hsame ▸ hperform⟩

theorem Generates.performs {Spelled : α → List Token → Prop} (hp : Reads k p Spelled actions)
    (h : Generates p c g c' g') : ∃ a, Performs (actions a) g g' := by
  obtain ⟨ts, _, ⟨a, -, rfl⟩, -, hperforms⟩ := h.leads (hp c)
  exact ⟨a, hperforms⟩

/-- An expression pushes one operand and a statement none, from every state of the compilation and
of the reading. -/
theorem expressions_and_statements_balanced {bound : Nat} {c c' : Cursor} {g g' : Generator} :
    (Generates (expression bound) c g c' g' → ∃ x, Balanced g [x] g') ∧
      (Generates (statement bound) c g c' g' → Balanced g [] g') := by
  constructor
  · intro h
    obtain ⟨e, he⟩ := h.performs (reads_expression (k := 0) (Nat.zero_le _))
    obtain ⟨x, code, m, n, -, rfl⟩ := perform_expr e he
    exact ⟨x, balanced_grow g n m code [x]⟩
  · intro h
    obtain ⟨s, hs⟩ := h.performs (reads_statement (k := 0) (Nat.zero_le _))
    obtain ⟨code, m, n, -, rfl⟩ := perform_stmt s hs
    exact balanced_grow g n m code []

namespace Nested

/-- A compilation inside a call in an index on the right of an assignment in a branch. -/
def state : Generator :=
  (Generator.initial.parse
  (ascii "program nested; int v[3]; func int f(int k) \x7b return k; \x7d " ++
    ascii "main \x7b if (true) \x7b v[1] = 2 * v[f(")).2

/-- A cursor in front of a text. -/
def before (text : String) : Cursor :=
  match Token.scan (ascii text) with
  | .ok ts => ⟨ts.list, ts.lastLine, 1, []⟩
  | .error _ => ⟨[], 1, 1, []⟩

/-- Where a reader and the actions behind it end. -/
def outcome? (p : Parser Unit) (c : Cursor) : Option (Cursor × Generator) :=
  match p c with
  | .ok _ c' =>
    match performAll c'.events.reverse state with
    | .ok _ g => some (c', g)
    | .error _ _ => none
  | .error _ _ => none

def index : Cursor := before "f(v[f(0)] - 1) + 2)"

def branch : Cursor :=
  before "if (v[f(1)] < 2) \x7b v[0] = f(v[1]); \x7d else \x7b while (false) \x7b f(0); \x7d \x7d"

theorem generates_of_outcome (hc : c.events = []) (h : outcome? p c = some (c', g)) :
    Generates p c state c' g := by
  unfold outcome? at h
  split at h
  · rename_i u c₁ hread
    split at h
    · rename_i v g₁ hperform
      obtain ⟨rfl, rfl⟩ := Prod.mk.inj (Option.some.inj h)
      exact ⟨hread, c₁.events.reverse, by simp [hc], hperform⟩
    · cases h
  · cases h

/-- No stack is empty here, and both the expression and the statement succeed. -/
theorem nested_balanced :
    (state.operands ≠ [] ∧ state.operators ≠ [] ∧ state.jumps ≠ [] ∧ state.references ≠ [] ∧
      state.calls ≠ []) ∧
    (∃ c' g' x, Generates (expression 60) index state c' g' ∧ Balanced state [x] g') ∧
    ∃ c' g', Generates (statement 60) branch state c' g' ∧ Balanced state [] g' := by
  have hruns : (state.operands ≠ [] ∧ state.operators ≠ [] ∧ state.jumps ≠ [] ∧
      state.references ≠ [] ∧ state.calls ≠ []) ∧
      index.events = [] ∧ (outcome? (expression 60) index).isSome ∧
      branch.events = [] ∧ (outcome? (statement 60) branch).isSome := by
    decide +kernel
  obtain ⟨hstacks, hindex, hexpression, hbranch, hstatement⟩ := hruns
  obtain ⟨⟨c₁, g₁⟩, h₁⟩ := Option.isSome_iff_exists.1 hexpression
  obtain ⟨⟨c₂, g₂⟩, h₂⟩ := Option.isSome_iff_exists.1 hstatement
  have hgenerates := generates_of_outcome hindex h₁
  have hgenerates' := generates_of_outcome hbranch h₂
  obtain ⟨x, hx⟩ := expressions_and_statements_balanced.1 hgenerates
  exact ⟨hstacks, ⟨c₁, g₁, x, hgenerates, hx⟩, c₂, g₂, hgenerates',
    expressions_and_statements_balanced.2 hgenerates'⟩

end Nested

end Quadlang
