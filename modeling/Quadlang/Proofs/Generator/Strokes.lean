-- What actions do to instructions and stacks, whether they succeed or fail: every action that
-- declares nothing is a row of a few kinds of strokes, and one that yields a value takes at most
-- one temporary in the end.
import Mathlib.Logic.Relation
import Quadlang.Proofs.Generator.Declarations

namespace Quadlang

open Success

/-! ## Strokes -/

/-- The state that a step ends in, also when it fails. -/
def Generate.after {α : Type} (x : Generate α) (g : Generator) : Generator :=
  match x g with
  | .ok _ g' | .error _ g' => g'

/-- A symbol is in one of the directories. -/
def Generator.Knows (g : Generator) (sym : Symbol) : Prop := ∃ scope, sym ∈ (g.scope scope).symbols

/-- The instructions that are no jumps and yield no value, with the operands that they take from
the stack. -/
inductive Writes (g : Generator) : List TypedOperand → Quad → Prop
  | assign {l r} : Typing.assignable l.ty r.ty = true →
      Writes g [r, l] { op := .assign, arg1 := r.operand, res := l.operand }
  | use {op x} : op = .write ∨ op = .read → Typing.isPrimitive x.ty = true →
      Writes g [x] { op, res := x.operand }
  | index {x} (d : Dim) : x.ty = .int →
      Writes g
      [x] { op := .ver, arg1 := x.operand, arg2 := .literal d.size, res := .literal d.stride }
  | era {sym callee} : g.Knows sym → sym.callee? = some callee →
      Writes g [] { op := .era, arg1 := .label callee.target, res := .cell callee.address }
  | param {call p x} : call ∈ g.calls → p ∈ g.paramsOf call.callee → x.ty = p.ty →
      Writes g [x] { op := .param, arg1 := x.operand, res := .cell p.address }
  | gosub {call} : call ∈ g.calls →
      Writes g
      [] { op := .gosub, arg1 := .cell call.callee.address, res := .label call.callee.target }
  | ret {callee scope x} : g.function = some (callee, scope) → x.ty = callee.ty →
      Writes g [x] { op := .ret, arg1 := x.operand, res := .cell callee.address }
  | leave {callee scope} : g.function = some (callee, scope) →
      Writes g [] { op := .ret, res := .cell callee.address }
  | close {callee scope} : g.function = some (callee, scope) →
      Writes g [] { op := .endFunction, res := .cell callee.address }

/-- One stroke: memory and directories stay as they are. -/
inductive Stroke (g : Generator) : Generator → Prop
  /-- No instruction comes from the operators and the names put aside. -/
  | asides (operators : List Pending) (waiting : List Waiting) :
    Stroke g { g with operators, waiting }
  | operands {operands} : operands <:+ g.operands → Stroke g { g with operands }
  | jumps {jumps} : jumps <:+ g.jumps → Stroke g { g with jumps }
  | references {references} : references <:+ g.references → Stroke g { g with references }
  | calls {calls} : calls <:+ g.calls → Stroke g { g with calls }
  /-- A reference reaches a symbol, or gets an index. -/
  | refer {r references} : g.Knows r.symbol ∨ (∃ r' ∈ g.references, r'.symbol = r.symbol) →
      references <:+ g.references → Stroke g { g with references := r :: references }
  /-- A call begins, or gets an argument. -/
  | call {c calls} : (∃ sym, g.Knows sym ∧ sym.callee? = some c.callee) ∨
      (∃ c' ∈ g.calls, c'.callee = c.callee) → calls <:+ g.calls →
      Stroke g { g with calls := c :: calls }
  /-- A stored variable is an operand. -/
  | variable {r references a} : g.references = r :: references →
    r.symbol.kind = .variable (some a) →
      Stroke g { g with
        references
        operands := { ty := r.symbol.ty, operand := .cell a, addressable := true } :: g.operands }
  | emit {xs operands q} : Writes g xs q → g.operands = xs ++ operands →
      Stroke g { g with quads := g.quads.push q, operands }
  /-- A position to jump back to is put aside. -/
  | label : Stroke g { g with jumps := g.quads.size :: g.jumps }
  | goto : Stroke g { g with
      quads := g.quads.push { op := .goto }, jumps := g.quads.size :: g.jumps }
  | branch {x operands} : g.operands = x :: operands → x.ty = .bool →
      Stroke g { g with
        operands, quads := g.quads.push { op := .gotoFalse, arg1 := x.operand }
        jumps := g.quads.size :: g.jumps }
  /-- A jump gets its target: the next instruction, or a position put aside. -/
  | aim {i target q jumps} : g.quads[i]? = some q → q.res.kind = .empty →
      target = g.quads.size ∨ target ∈ g.jumps → jumps <:+ g.jumps →
      Stroke g { g with quads := g.quads.setIfInBounds i { q with res := .label target }, jumps }

/-- A value gets a temporary. -/
inductive Take (g : Generator) : Generator → Prop
  | unary {op x operands ty a m} : g.operands = x :: operands → Typing.unary op x.ty = some ty →
      g.memory.alloc ty .temps 1 = .ok (a, m) →
      Take g { g with
        memory := m, quads := g.quads.push { op := op.opcode, arg1 := x.operand, res := .cell a }
        operands := { ty, operand := .cell a } :: operands }
  | binary {op l r operands ty a m} : g.operands = r :: l :: operands →
      Typing.binary op l.ty r.ty = some ty → g.memory.alloc ty .temps 1 = .ok (a, m) →
      Take g { g with
        memory := m
        quads := g.quads.push
          { op := op.opcode, arg1 := l.operand, arg2 := r.operand, res := .cell a }
        operands := { ty, operand := .cell a } :: operands }
  /-- The temporary points to an element. -/
  | element {r references address a m} : g.references = r :: references →
      r.symbol.kind = .variable (some address) → g.memory.alloc .int .temps 1 = .ok (a, m) →
      Take g { g with
        memory := m, references
        quads := g.quads.push
          { op := .addDim, arg1 := .count r.indices, arg2 := .literal address, res := .cell a }
        operands :=
          { ty := r.symbol.ty, operand := .pointer a, addressable := true } :: g.operands }
  /-- The temporary keeps what a call has returned. -/
  | result {c calls a m} : g.calls = c :: calls → c.callee.ty ≠ .void →
      g.memory.alloc c.callee.ty .temps 1 = .ok (a, m) →
      Take g { g with
        memory := m, calls
        quads := g.quads.push { op := .assign, arg1 := .cell c.callee.address, res := .cell a }
        operands := { ty := c.callee.ty, operand := .cell a } :: g.operands }

/-- Two states differ in instructions and stacks at most. -/
structure Alike (g g' : Generator) : Prop where
  memory : g'.memory = g.memory
  scopes : g'.scopes = g.scopes
  line : g'.line = g.line
  current : g'.current = g.current
  enclosing : g'.enclosing = g.enclosing
  function : g'.function = g.function

theorem Alike.refl (g : Generator) : Alike g g := ⟨rfl, rfl, rfl, rfl, rfl, rfl⟩

theorem Alike.trans {g g₁ g' : Generator} (h : Alike g g₁) (h' : Alike g₁ g') : Alike g g' :=
  ⟨h'.memory.trans h.memory, h'.scopes.trans h.scopes, h'.line.trans h.line,
    h'.current.trans h.current, h'.enclosing.trans h.enclosing, h'.function.trans h.function⟩

theorem Stroke.alike {g g' : Generator} (h : Stroke g g') : Alike g g' := by
  cases h <;> exact ⟨rfl, rfl, rfl, rfl, rfl, rfl⟩

theorem Take.alike {g g' : Generator} (h : Take g g') :
    ∃ ty a m, g.memory.alloc ty .temps 1 = .ok (a, m) ∧ Alike { g with memory := m } g' := by
  cases h with
  | unary _ _ ha | binary _ _ ha | element _ _ ha | result _ _ ha =>
    exact ⟨_, _, _, ha, rfl, rfl, rfl, rfl, rfl, rfl⟩

/-- Strokes one after another, and behind them a temporary, if one is to be taken. -/
def Row (takes : Bool) (g g' : Generator) : Prop :=
  ∃ g₁, Relation.ReflTransGen Stroke g g₁ ∧ (g' = g₁ ∨ takes = true ∧ Take g₁ g')

namespace Row

variable {takes : Bool} {g g₁ g' : Generator}

theorem refl (g : Generator) : Row takes g g := ⟨g, .refl, .inl rfl⟩

theorem head (h : Stroke g g₁) (h' : Row takes g₁ g') : Row takes g g' := by
  obtain ⟨g₂, hstrokes, hend⟩ := h'
  exact ⟨g₂, hstrokes.head h, hend⟩

theorem trans (h : Row false g g₁) (h' : Row takes g₁ g') : Row takes g g' := by
  obtain ⟨_, hstrokes, rfl | ⟨hfalse, -⟩⟩ := h
  · obtain ⟨g₂, hstrokes', hend⟩ := h'
    exact ⟨g₂, hstrokes.trans hstrokes', hend⟩
  · cases hfalse

theorem single (h : Stroke g g') : Row takes g g' := .head h (.refl g')

theorem take (h : Take g g') : Row true g g' := ⟨g, .refl, .inr ⟨rfl, h⟩⟩

/-- What strokes keep holds until the temporary is taken. -/
theorem last {P : Generator → Prop} (h : Row takes g g') (hg : P g)
    (hstroke : ∀ {g₁ g₂}, P g₁ → Stroke g₁ g₂ → P g₂) :
    ∃ g₁, P g₁ ∧ (g' = g₁ ∨ takes = true ∧ Take g₁ g') := by
  obtain ⟨g₁, hstrokes, hend⟩ := h
  refine ⟨g₁, ?_, hend⟩
  clear hend
  induction hstrokes with
  | refl => exact hg
  | tail _ h ih => exact hstroke ih h

/-- A row takes one temporary at most, and leaves the directories alone. -/
theorem alike (h : Row takes g g') : Alike g g' ∨ takes = true ∧
    ∃ ty a m, g.memory.alloc ty .temps 1 = .ok (a, m) ∧ Alike { g with memory := m } g' := by
  obtain ⟨g₁, h₁, hend⟩ := h.last (.refl g) fun h h' => Alike.trans h h'.alike
  rcases hend with rfl | ⟨htakes, htake⟩
  · exact .inl h₁
  · obtain ⟨ty, a, m, ha, h₂⟩ := htake.alike
    rw [h₁.memory] at ha
    have h₀ : Alike { g with memory := m } { g₁ with memory := m } :=
      ⟨rfl, h₁.scopes, h₁.line, h₁.current, h₁.enclosing, h₁.function⟩
    exact .inr ⟨htakes, ty, a, m, ha, h₀.trans h₂⟩

end Row

section Steps

variable {α β : Type} {x : Generate α} {f : α → Generate β} {g g₁ : Generator}

theorem after_of_ok {a : α} (h : x g = .ok a g₁) : x.after g = g₁ := by
  unfold Generate.after
  rw [h]

theorem after_of_error {stop : Stop} (h : x g = .error stop g₁) : x.after g = g₁ := by
  unfold Generate.after
  rw [h]

theorem after_bind_of_ok {a : α} (h : x g = .ok a g₁) : (x >>= f).after g = (f a).after g₁ := by
  unfold Generate.after
  rw [bind_of_ok h]

theorem after_bind_of_error {stop : Stop} (h : x g = .error stop g₁) :
    (x >>= f).after g = x.after g := by
  unfold Generate.after
  rw [bind_of_error h, h]

theorem after_get_bind {f : Generator → Generate β} : (get >>= f).after g = (f g).after g := rfl

end Steps

namespace Generate

section Walk

variable {α β : Type} {takes : Bool} {g g₀ : Generator} {f : α → Generate β}

/-! ## Steps of an action -/

theorem row_guard {c : Prop} [Decidable c] {cause : Fault} {y : Generate β}
    (hfail : Row takes g₀ g) (hy : ¬ c → Row takes g₀ (y.after g)) :
    Row takes g₀ ((if c then fault cause >>= f else y).after g) := by
  split
  · exact hfail
  · rename_i hc
    exact hy hc

theorem row_require {c : Prop} [Decidable c] {cause : Fault} {y : Generate β}
    (hfail : Row takes g₀ g) (hy : c → Row takes g₀ (y.after g)) :
    Row takes g₀ ((if c then y else fault cause >>= f).after g) := by
  split
  · rename_i hc
    exact hy hc
  · exact hfail

section

variable (hfail : Row takes g₀ g) {f : TypedOperand → Generate β}

include hfail

theorem row_peekOperand (hf : ∀ x rest, g.operands = x :: rest → Row takes g₀ ((f x).after g)) :
    Row takes g₀ ((peekOperand >>= f).after g) := by
  rcases g with ⟨_, _, _, _, _, _, _, _, _, _, _ | ⟨x, rest⟩, _, _, _⟩
  · exact hfail
  · exact hf x rest rfl

theorem row_popOperand
    (hf : ∀ x rest, g.operands = x :: rest →
      Row takes g₀ ((f x).after { g with operands := rest })) :
    Row takes g₀ ((popOperand >>= f).after g) := by
  rcases g with ⟨_, _, _, _, _, _, _, _, _, _, _ | ⟨x, rest⟩, _, _, _⟩
  · exact hfail
  · exact hf x rest rfl

theorem row_popFor {op : Opcode}
    (hmismatch : ∀ rest, rest <:+ g.operands → Row takes g₀ { g with operands := rest })
    (hf : ∀ x rest ty, g.operands = x :: rest → Typing.unaryOf op x.ty = some ty →
      Row takes g₀ ((f x).after { g with operands := rest })) :
    Row takes g₀ ((popFor op >>= f).after g) := by
  unfold popFor
  rw [bind_assoc]
  refine row_popOperand hfail fun x rest hx => ?_
  cases hty : Typing.unaryOf op x.ty with
  | none => exact hmismatch rest ⟨[x], hx.symm⟩
  | some ty => exact hf x rest ty hx hty

theorem row_popJump {f : Nat → Generate β}
    (hf : ∀ i rest, g.jumps = i :: rest → Row takes g₀ ((f i).after { g with jumps := rest })) :
    Row takes g₀ ((popJump >>= f).after g) := by
  rcases g with ⟨_, _, _, _, _, _, _, _, _, _, _, _ | ⟨i, rest⟩, _, _⟩
  · exact hfail
  · exact hf i rest rfl

theorem row_topReference {f : Reference → Generate β}
    (hf : ∀ r rest, g.references = r :: rest → Row takes g₀ ((f r).after g)) :
    Row takes g₀ ((topReference >>= f).after g) := by
  rcases g with ⟨_, _, _, _, _, _, _, _, _, _, _, _, _ | ⟨r, rest⟩, _⟩
  · exact hfail
  · exact hf r rest rfl

theorem row_closeGroup {f : Unit → Generate β}
    (hf : ∀ operators, Row takes g₀ ((f ()).after { g with operators })) :
    Row takes g₀ ((closeGroup >>= f).after g) := by
  rcases g with ⟨_, _, _, _, _, _, _, _, _, _ | ⟨_ | op, rest⟩, _, _, _, _⟩
  · exact hfail
  · exact hf rest
  · exact hfail

theorem row_alloc {purpose : Purpose} {ty : Ty} {f : Addr → Generate β}
    (hf : ∀ a m, g.memory.alloc ty .temps 1 = .ok (a, m) →
      Row takes g₀ ((f a).after { g with memory := m })) :
    Row takes g₀ ((alloc purpose ty .temps 1 >>= f).after g) := by
  cases h : g.memory.alloc ty .temps 1 with
  | ok r =>
    rw [after_bind_of_ok (alloc_of_ok h)]
    exact hf r.1 r.2 h
  | error e =>
    rw [after_bind_of_error (alloc_of_error h), after_of_error (alloc_of_error h)]
    exact hfail

end

theorem knows_of_lookup {id : Bytes} {sym : Symbol} (h : g.lookup id = some sym) : g.Knows sym := by
  obtain ⟨scope, -, hfind⟩ := List.exists_of_findSome?_eq_some h
  exact ⟨scope, List.mem_of_find?_eq_some hfind⟩

/-! ## Operators and statements -/

theorem row_pushOperator (op : Opcode) : Row takes g ((pushOperator op).after g) := by
  unfold pushOperator
  cases Operator.ofOpcode? op with
  | none => exact .refl g
  | some op =>
    simp only
    split
    · exact row_peekOperand (.refl g) fun _ _ _ => row_require (.refl g) fun _ =>
        .single (.asides _ g.waiting)
    · exact .single (.asides _ g.waiting)

theorem row_unary (op : UnaryOp) : Row true g ((unary op).after g) := by
  refine row_popOperand (.refl g) fun x rest hx => ?_
  have hpop : Row true g { g with operands := rest } := .single (.operands ⟨[x], hx.symm⟩)
  cases hty : Typing.unary op x.ty with
  | none => exact hpop
  | some ty =>
    simp only [temporary, bind_assoc, pure_bind]
    exact row_alloc hpop fun a m ha => .take (.unary hx hty ha)

theorem row_binary (op : BinaryOp) : Row true g ((binary op).after g) := by
  refine row_popOperand (.refl g) fun r rest hr => ?_
  refine row_popOperand (.single (.operands ⟨[r], hr.symm⟩)) fun l rest' hl => ?_
  obtain rfl : rest = l :: rest' := hl
  have hpop : Row true g { g with operands := rest' } := .single (.operands ⟨[r, l], hr.symm⟩)
  cases hty : Typing.binary op l.ty r.ty with
  | none => exact hpop
  | some ty =>
    simp only [temporary, bind_assoc, pure_bind]
    exact row_alloc hpop fun a m ha => .take (.binary hr hty ha)

theorem row_assign : Row takes g (assign.after g) := by
  refine row_popOperand (.refl g) fun r rest hr => ?_
  refine row_popOperand (.single (.operands ⟨[r], hr.symm⟩)) fun l rest' hl => ?_
  obtain rfl : rest = l :: rest' := hl
  exact row_require (.single (.operands ⟨[r, l], hr.symm⟩)) fun h => .single (.emit (.assign h) hr)

theorem row_collapse (level : Level) : Row true g ((collapse level).after g) := by
  unfold collapse
  rw [after_get_bind]
  rcases g.operators with _ | ⟨_ | op, rest⟩
  · exact .refl g
  · exact .refl g
  · simp only
    split
    · refine .head (.asides rest g.waiting) ?_
      cases op with
      | unary op => exact row_unary op
      | binary op => exact row_binary op
      | assign => exact row_assign
    · exact .refl g

theorem row_popped {rest : List TypedOperand} (h : rest <:+ g.operands) :
    Row takes g { g with operands := rest } := .single (.operands h)

theorem row_write : Row takes g (write.after g) :=
  row_popFor (.refl g) (fun _ => row_popped) fun x rest ty hx hty =>
    .single (.emit (.use (.inl rfl) (isPrimitive_of_unaryOf (by simp) hty)) hx)

theorem row_read : Row takes g (read.after g) :=
  row_popFor (.refl g) (fun _ => row_popped) fun x rest ty hx hty =>
    row_require (row_popped ⟨[x], hx.symm⟩) fun _ =>
      .single (.emit (.use (.inr rfl) (isPrimitive_of_unaryOf (by simp) hty)) hx)

/-! ## References and calls -/

theorem row_resolve {id : Bytes} {expected : Ty} {expectFunction : Bool} {f : Symbol → Generate β}
    (hfail : Row takes g₀ g) (hf : ∀ sym, g.lookup id = some sym → Row takes g₀ ((f sym).after g)) :
    Row takes g₀ ((resolve id expected expectFunction >>= f).after g) := by
  unfold resolve
  rw [bind_assoc, after_get_bind]
  cases hlookup : g.lookup id with
  | none => exact hfail
  | some sym =>
    simp only
    split
    · exact hfail
    · split
      · exact hfail
      · exact hf sym hlookup

theorem row_var (name : Bytes) : Row takes g ((var name).after g) :=
  row_resolve (.refl g) fun _ h => .single (.refer (.inl (knows_of_lookup h)) (List.suffix_refl _))

theorem row_member (name : Bytes) : Row takes g ((member name).after g) := by
  refine row_topReference (.refl g) fun r rest hr => row_guard (.refl g) fun _ => ?_
  simp only [findMember]
  split
  · exact .refl g
  · cases r.symbol.scope with
    | none => exact .refl g
    | some scope =>
      simp only [bind_assoc]
      rw [after_get_bind]
      cases hfind : (g.scope scope).find? name with
      | none => exact .refl g
      | some sym =>
        exact .single (.refer (.inl ⟨scope, List.mem_of_find?_eq_some hfind⟩) (List.tail_suffix _))

theorem row_indexStart : Row takes g (indexStart.after g) :=
  row_topReference (.refl g) fun _ _ _ => row_guard (.refl g) fun _ => .single (.asides _ g.waiting)

theorem row_indexEnd : Row takes g (indexEnd.after g) := by
  refine row_topReference (.refl g) fun r rest hr => row_closeGroup (.refl g) fun operators => ?_
  have hclose : Stroke g { g with operators } := .asides operators g.waiting
  refine row_popOperand (.single hclose) fun x rest' hx => ?_
  have hpop : Row takes g { g with operators, operands := rest' } :=
    .head hclose (row_popped ⟨[x], hx.symm⟩)
  refine row_guard hpop fun hty => ?_
  cases r.symbol.dims[r.indices]? with
  | none => exact hpop
  | some d =>
    refine .head hclose (.head (.emit (.index d (int_of_binaryOf_ver hty)) hx)
      (.single (.refer (.inr ⟨r, ?_, rfl⟩) ?_)))
    · simp [hr]
    · exact List.tail_suffix _

theorem row_varEnd : Row true g (varEnd.after g) := by
  refine row_topReference (.refl g) fun r rest hr => ?_
  have htail : { g with references := g.references.tail } = { g with references := rest } := by
    rw [hr]; rfl
  have hpop : Row true g { g with references := g.references.tail } :=
    .single (.references (List.tail_suffix _))
  show Row true g (Generate.after _ { g with references := g.references.tail })
  rcases hkind : r.symbol.kind with (_ | address) | _ | _
  · exact row_guard hpop fun _ => hpop
  · refine row_guard hpop fun _ => row_guard hpop fun _ => ?_
    unfold pushVariable
    rw [htail]
    split
    · exact .single (.variable hr hkind)
    · exact row_alloc (htail ▸ hpop) fun a m ha => .take (.element hr hkind ha)
  · exact hpop
  · exact hpop

theorem row_callStart (name : Bytes) : Row takes g ((callStart name).after g) := by
  unfold callStart resolveFunction
  rw [bind_assoc, after_get_bind]
  cases hlookup : g.lookup name with
  | none => exact .refl g
  | some sym =>
    cases hcallee : sym.callee? with
    | none =>
      simp only [hcallee]
      exact .refl g
    | some callee =>
      simp only [hcallee]
      have hsym : g.Knows sym := knows_of_lookup hlookup
      exact .head (.emit (.era hsym hcallee) rfl)
        (.head (.call (.inl ⟨sym, hsym, hcallee⟩) (List.suffix_refl _))
        (.single (.asides _ g.waiting)))

theorem row_argument : Row takes g (argument.after g) := by
  unfold argument
  rw [after_get_bind]
  rcases hcalls : g.calls with _ | ⟨call, rest⟩
  · exact .refl g
  · simp only
    cases hp : (g.paramsOf call.callee)[call.passed]? with
    | none => exact .refl g
    | some p =>
      refine row_popOperand (.refl g) fun x ops hx =>
        row_guard (row_popped ⟨[x], hx.symm⟩) fun hty => ?_
      have hcall : call ∈ g.calls := by simp [hcalls]
      exact .head (.emit (.param hcall (List.mem_of_getElem? hp) (not_not.1 hty)) hx)
        (.single (.call (.inr ⟨call, hcall, rfl⟩) ⟨[call], hcalls.symm⟩))

theorem row_callEnd (discard : Bool) : Row true g ((callEnd discard).after g) := by
  unfold callEnd
  rw [after_get_bind]
  rcases hcalls : g.calls with _ | ⟨call, rest⟩
  · exact .refl g
  · have hpop : Row true g { g with calls := rest } := .single (.calls ⟨[call], hcalls.symm⟩)
    show Row true g (Generate.after _ { g with calls := rest })
    refine row_guard hpop fun _ => row_closeGroup hpop fun operators => ?_
    -- The call stays on its stack until its result has a place.
    have hgosub : ∀ {g'}, Row true { g with operators, quads := g.quads.push _ } g' →
      Row true g g' := fun h =>
      .head (.asides operators g.waiting)
      (.head (.emit (@Writes.gosub _ call (by simp [hcalls])) rfl) h)
    have hend : Row true g { g with operators, quads := g.quads.push _, calls := rest } :=
      hgosub (.single (.calls ⟨[call], hcalls.symm⟩))
    cases discard with
    | true => exact hend
    | false =>
      refine row_guard hend fun hvoid => ?_
      simp only [temporary, bind_assoc, pure_bind]
      exact row_alloc hend fun a m ha => hgosub (.take (.result hcalls hvoid ha))

theorem row_ret (hasValue : Bool) : Row takes g ((ret hasValue).after g) := by
  unfold ret
  rw [after_get_bind]
  rcases hf : g.function with _ | ⟨callee, scope⟩
  · exact .refl g
  · cases hasValue with
    | true =>
      refine row_peekOperand (.refl g) fun x rest hx => row_guard (.refl g) fun hty => ?_
      refine row_popFor (.refl g) (fun _ => row_popped) fun y rest' ty hy _ => ?_
      obtain ⟨rfl, -⟩ := List.cons.inj (hx.symm.trans hy)
      exact .single (.emit (.ret hf (not_not.1 hty)) hy)
    | false => exact row_guard (.refl g) fun _ => .single (.emit (.leave hf) rfl)

/-! ## Jumps -/

theorem row_fill {i target : Nat} (hfail : Row takes g₀ g)
    (hf : ∀ q, g.quads[i]? = some q → q.res.kind = .empty → Row takes g₀
      { g with quads := g.quads.setIfInBounds i { q with res := .label target } }) :
    Row takes g₀ ((fill i target).after g) := by
  unfold fill
  rw [after_get_bind]
  cases hq : g.quads[i]? with
  | none => exact hfail
  | some q => exact row_guard hfail fun hkind => hf q hq (not_not.1 hkind)

theorem row_fillJump (usePop : Bool) : Row takes g ((fillJump usePop).after g) := by
  refine row_popJump (.refl g) fun i rest hi => ?_
  have hpop : Row takes g { g with jumps := rest } := .single (.jumps ⟨[i], hi.symm⟩)
  cases usePop with
  | true =>
    refine row_popJump hpop fun target rest' htarget => ?_
    obtain rfl : rest = target :: rest' := htarget
    have hsuffix : rest' <:+ g.jumps := ⟨[i, target], hi.symm⟩
    exact row_fill (.single (.jumps hsuffix)) fun q hq hkind =>
      .single (.aim hq hkind (.inr (by simp [hi])) hsuffix)
  | false =>
    exact row_fill hpop fun q hq hkind => .single (.aim hq hkind (.inl rfl) ⟨[i], hi.symm⟩)

theorem row_bind {x : Generate α} (hx : Row false g₀ (x.after g))
    (hf : ∀ a g₁, x g = .ok a g₁ → Row takes g₁ ((f a).after g₁)) :
    Row takes g₀ ((x >>= f).after g) := by
  cases h : x g with
  | ok a g₁ =>
    rw [after_of_ok h] at hx
    rw [after_bind_of_ok h]
    exact hx.trans (hf a g₁ h)
  | error stop g₁ =>
    rw [after_bind_of_error h]
    exact hx.trans (.refl _)

theorem row_beginMain : Row takes g (beginMain.after g) :=
  row_require (.refl g) fun _ => row_fillJump false

theorem row_finish : Row takes g (finish.after g) := by
  unfold finish
  rw [after_get_bind]
  cases leftover g with
  | none => exact .refl g
  | some what => exact .refl g

theorem row_jumpIfFalse : Row takes g (jumpIfFalse.after g) :=
  row_popFor (.refl g) (fun _ => row_popped) fun _ _ _ hx hty =>
    .single (.branch hx (bool_of_unaryOf_gotoFalse hty))

theorem row_orElse : Row takes g (orElse.after g) := by
  refine row_popJump (.refl g) fun i rest hi => ?_
  have hgoto : ∀ {g'}, Row takes _ g' → Row takes g g' :=
    fun h => .head (.jumps ⟨[i], hi.symm⟩) (.head .goto h)
  exact row_fill (hgoto (.refl _)) fun q hq hkind =>
    hgoto (.single (.aim hq hkind (.inl rfl) (List.suffix_refl _)))

theorem row_whileEnd : Row takes g (whileEnd.after g) := by
  refine row_popJump (.refl g) fun i rest hi => ?_
  refine .head (.jumps ⟨[i], hi.symm⟩) (.head .goto ?_)
  show Row takes _ ((fillJump true >>= fun _ => get >>= fun g => fill i g.quads.size).after _)
  refine row_bind (row_fillJump true) fun _ g₁ _ => ?_
  exact row_fill (.refl g₁) fun q hq hkind =>
    .single (.aim hq hkind (.inl rfl) (List.suffix_refl _))

end Walk

end Generate

/-! ## Actions -/

/-- Whether an action may take a temporary. -/
def Action.yields : Action → Bool
  | .collapse _ | .varEnd | .callEnd _ => true
  | _ => false

/-- Whether an action only works on instructions and stacks, a temporary apart. -/
def Action.draws : Action → Bool
  | .start _ | .leaveScope | .declare .. | .endFunction | .declareClass _ | .declarePending _
  | .pushConst .. => false
  | _ => true

theorem Action.draws_of_yields {a : Action} (h : a.yields = true) : a.draws = true := by
  cases a <;> first | rfl | cases h

namespace Generate

theorem after_answer {α β : Type} {x : Generate α} {r : α → β} {g : Generator} :
    (x >>= fun a => pure (r a)).after g = x.after g := by
  cases h : x g with
  | ok a g₁ => rw [after_bind_of_ok h, after_of_ok h]; rfl
  | error stop g₁ => rw [after_bind_of_error h]

/-- An action that only works on instructions and stacks is a row of strokes. -/
theorem row_perform {a : Action} (h : a.draws = true) (g : Generator) :
    Row a.yields g ((perform a).after g) := by
  have hanswer : ∀ {α : Type} {x : Generate α} {r : α → Reply} {takes : Bool},
      Row takes g (x.after g) → Row takes g ((x >>= fun a => pure (r a)).after g) := by
    intro α x r takes hx
    rw [after_answer]
    exact hx
  cases a with
  | start | leaveScope | declare | endFunction | declareClass | declarePending | pushConst =>
    cases h
  | main => exact hanswer row_beginMain
  | finish => exact hanswer row_finish
  | resolve id expected expectFunction =>
    exact row_resolve (.refl g) fun _ _ => .refl g
  | pushPending id => exact .single (.asides g.operators _)
  | addDim size =>
    refine hanswer ?_
    unfold addPendingDim
    rw [after_get_bind]
    cases g.waiting with
    | nil => exact .refl g
    | cons w rest => exact .single (.asides g.operators _)
  | pushOperator op => exact hanswer (row_pushOperator op)
  | openGroup => exact .single (.asides _ g.waiting)
  | closeGroup =>
    exact row_closeGroup (.refl g) fun operators => .single (.asides operators g.waiting)
  | collapse level => exact hanswer (row_collapse level)
  | write => exact hanswer row_write
  | read => exact hanswer row_read
  | ifCond | whileCond => exact hanswer row_jumpIfFalse
  | orElse => exact hanswer row_orElse
  | endIf => exact hanswer (row_fillJump false)
  | whileStart => exact .single .label
  | whileEnd => exact hanswer row_whileEnd
  | fillJump usePop => exact hanswer (row_fillJump usePop)
  | var name => exact hanswer (row_var name)
  | member name => exact hanswer (row_member name)
  | indexStart => exact hanswer row_indexStart
  | indexEnd => exact hanswer row_indexEnd
  | varEnd => exact hanswer row_varEnd
  | callStart name => exact hanswer (row_callStart name)
  | argument => exact hanswer row_argument
  | callEnd discard => exact hanswer (row_callEnd discard)
  | ret hasValue => exact hanswer (row_ret hasValue)

end Generate

end Quadlang
