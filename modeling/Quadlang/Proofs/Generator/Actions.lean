-- What a row of actions does: the next action begins where the one before it ended. What names
-- stand for while actions are performed.
import Quadlang.Generator.Perform
import Quadlang.Proofs.Success

namespace Quadlang

open Success

variable {g g' : Generator} {a : Action} {as : List Action} {p : Generate Unit} {α : Type}
  {cause : Fault} {q : Quad} {op : Opcode}

/-! ## Rows of actions -/

/-- A compilation on another line. -/
def Generator.onLine (g : Generator) (n : Int) : Generator := { g with line := n }

/-- Some actions, each on some line, lead from one state of a compilation to another. -/
def Performs (as : List Action) (g g' : Generator) : Prop :=
  ∃ events : List Event, events.map (·.action) = as ∧ Generate.performAll events g = .ok () g'

theorem performs_nil : Performs [] g g' ↔ g = g' := by
  constructor
  · rintro ⟨events, he, h⟩
    obtain rfl := List.map_eq_nil_iff.1 he
    simp only [Generate.performAll, pure_eq_ok] at h
    exact h.2
  · rintro rfl
    exact ⟨[], rfl, rfl⟩

theorem performs_cons (h : Performs (a :: as) g g') :
    ∃ n r g₁, Generate.perform a (g.onLine n) = .ok r g₁ ∧ Performs as g₁ g' := by
  obtain ⟨events, he, h⟩ := h
  obtain ⟨e, rest, rfl, rfl, rfl⟩ := List.map_eq_cons_iff.1 he
  simp only [Generate.performAll, Generate.setLine, bind_eq_ok, modify_eq_ok] at h
  obtain ⟨_, _, rfl, r, g₁, h₁, h⟩ := h
  exact ⟨e.line, r, g₁, h₁, rest, rfl, h⟩

theorem performs_append {bs : List Action} (h : Performs (as ++ bs) g g') :
    ∃ g₁, Performs as g g₁ ∧ Performs bs g₁ g' := by
  obtain ⟨events, he, h⟩ := h
  obtain ⟨es, fs, rfl, rfl, rfl⟩ := List.map_eq_append_iff.1 he
  clear he
  induction es generalizing g with
  | nil => exact ⟨g, ⟨[], rfl, rfl⟩, fs, rfl, h⟩
  | cons e es ih =>
    simp only [List.cons_append, Generate.performAll, bind_eq_ok] at h
    obtain ⟨_, g₁, h₁, r, g₂, h₂, h⟩ := h
    obtain ⟨g₃, ⟨es', hes', h₃⟩, h₄⟩ := ih h
    refine ⟨g₃, ⟨e :: es', by simp [hes'], ?_⟩, h₄⟩
    simp only [Generate.performAll, bind_eq_ok]
    exact ⟨_, g₁, h₁, r, g₂, h₂, h₃⟩

theorem performs_singleton (h : Performs [a] g g') :
    ∃ n r, Generate.perform a (g.onLine n) = .ok r g' := by
  obtain ⟨n, r, g₁, h₁, h₂⟩ := performs_cons h
  obtain rfl := performs_nil.1 h₂
  exact ⟨n, r, h₁⟩

/-- An action that only does something, in front of others. -/
theorem performs_done (hp : Generate.perform a = do p; return Reply.done)
    (h : Performs (a :: as) g g') :
    ∃ n g₁, p (g.onLine n) = .ok () g₁ ∧ Performs as g₁ g' := by
  obtain ⟨n, r, g₁, h₁, h⟩ := performs_cons h
  simp only [hp, bind_eq_ok, pure_eq_ok] at h₁
  obtain ⟨_, _, h₁, -, rfl⟩ := h₁
  exact ⟨n, _, h₁, h⟩

/-! ## Names -/

/-- What the names of a program stand for at some place of it. -/
structure Names where
  lookup : Bytes → Option Symbol
  scope : ScopeId → Scope
  params : Callee → List Param

/-- What names stand for at this point of a compilation. -/
def Generator.names (g : Generator) : Names := ⟨g.lookup, g.scope, g.paramsOf⟩

namespace Names

def member? (names : Names) (base : Symbol) (id : Bytes) : Option Symbol :=
  if base.isFunction then none else base.scope.bind fun scope => (names.scope scope).find? id

/-- The symbol at the end of a way through instances. -/
def follow? (names : Names) : Symbol → List Bytes → Option Symbol
  | sym, [] => some sym
  | sym, id :: ids => (names.member? sym id).bind fun sym => follow? names sym ids

/-- The symbol that a reference reaches before its indices. -/
def reach? (names : Names) (name : Bytes) (members : List Bytes) : Option Symbol :=
  (names.lookup name).bind fun sym => names.follow? sym members

def callee? (names : Names) (name : Bytes) : Option Callee := (names.lookup name).bind (·.callee?)

end Names

namespace Generate

variable {g g' : Generator} {t ty : Ty} {u : Unit}

/-! ## Single steps -/

theorem fault_eq_ok {a : α} : fault cause g = .ok a g' ↔ False := throw_eq_ok

/-- What is behind a check that succeeds. -/
theorem guard_eq_ok {c : Prop} [Decidable c] {k : PUnit → Generate α} {x : Generate α} {a : α} :
    (if c then fault cause >>= k else x) g = .ok a g' ↔ ¬ c ∧ x g = .ok a g' := by
  split <;> simp [*, bind_eq_ok, fault_eq_ok]

theorem alloc_eq_ok {purpose : Purpose} {segment : Segment} {n : Int64} {a : Addr}
    (h : alloc purpose ty segment n g = .ok a g') :
    ∃ m, g.memory.alloc ty segment n = .ok (a, m) ∧ g' = { g with memory := m } := by
  simp only [alloc, get_bind] at h
  rcases ha : g.memory.alloc ty segment n with e | ⟨b, m⟩
  · simp [ha, fault_eq_ok] at h
  · simp only [ha, bind_eq_ok, set_eq_ok, pure_eq_ok] at h
    obtain ⟨_, _, rfl, rfl, rfl⟩ := h
    exact ⟨m, rfl, rfl⟩

theorem emit_eq_ok : emit q g = .ok u g' ↔ { g with quads := g.quads.push q } = g' := modify_eq_ok

theorem isPrimitive_of_unaryOf {x : Ty} (hop : op = .read ∨ op = .write ∨ op = .ret)
    (h : Typing.unaryOf op x = some t) : Typing.isPrimitive x = true := by
  rcases hop with rfl | rfl | rfl <;> simp [Typing.unaryOf] at h <;> exact h.1

theorem int_of_binaryOf_ver (h : ¬ (Typing.binaryOf .ver ty .int).isNone) : ty = .int := by
  cases ty <;> simp [Typing.binaryOf] at h ⊢

theorem bool_of_unaryOf_gotoFalse {x : Ty} (h : Typing.unaryOf .gotoFalse x = some t) :
    x = .bool := by
  cases x <;> simp [Typing.unaryOf] at h ⊢

theorem emitJump_eq_ok (h : emitJump q g = .ok u g') :
    g' = { g with quads := g.quads.push q, jumps := g.quads.size :: g.jumps } := by
  obtain ⟨_, _, ⟨rfl, rfl⟩, _, _, rfl, rfl⟩ := h
  rfl

end Generate

end Quadlang
