-- What single actions do, and how they fail. An action that finds what it takes from the stacks
-- can only be ended by the meaning of the text, or by a memory that is used up.
import Quadlang.Proofs.Generator.Code
import Quadlang.Proofs.Generator.Placement

namespace Quadlang

open Source Success

variable {l ty : Ty} {g g₁ : Generator} {rest xs : List TypedOperand} {q q' : Quad} {cause : Fault}
  {m : Memory} {segment : Segment} {x : TypedOperand} {r : Reference} {p : Nat} {name : Bytes}
  {call : Call} {quads : Array Quad} {a : Action} {as : List Action}

/-! ## Causes -/

/-- The refusal of the memory behind a cause. -/
def Fault.refusal? : Fault → Option AllocError
  | .noRoom _ e => some e
  | .noConstantRoom e => some e.cause
  | _ => none

/-- The cause lies in the meaning of a text: it is not the order of the actions, and memory is
refused only when it is used up. -/
structure Fault.Meant (cause : Fault) : Prop where
  category : cause.category ≠ some .unbalanced
  refusal : ∀ e ∈ cause.refusal?, e.category = some .addressSpaceExhausted

theorem Fault.Meant.of_plain (h : (cause.refusal?.isNone && cause.category != some .unbalanced) =
    true) : cause.Meant := by
  obtain ⟨hrefusal, hcategory⟩ := Bool.and_eq_true_iff.1 h
  refine ⟨by simpa using hcategory, fun e he => ?_⟩
  rw [Option.isNone_iff_eq_none.1 hrefusal] at he
  cases he

theorem Fault.Meant.of_exhausted {e : AllocError} (hrefusal : cause.refusal? = some e)
    (hcategory : cause.category = e.category) (he : e.category = some .addressSpaceExhausted) :
    cause.Meant := by
  refine ⟨by rw [hcategory, he]; decide, fun e' he' => ?_⟩
  rw [hrefusal] at he'
  cases he'
  exact he

/-- Something that can be reported ends an action, and its cause lies in the meaning. -/
def Stop.Meant : Stop → Prop
  | .fault cause => cause.Meant
  | .crash => False

/-- A memory has a range for values of a type in a segment. -/
def Memory.Offers (m : Memory) (segment : Segment) (ty : Ty) : Prop :=
  (m.region? segment ty).isSome = true

theorem Memory.Offers.alloc {n : Int64} {e : AllocError} (h : m.Offers segment ty) (hn : 1 ≤ n)
    (he : m.alloc ty segment n = .error e) : e.category = some .addressSpaceExhausted := by
  obtain ⟨r, hr⟩ := Option.isSome_iff_exists.1 h
  simp only [Memory.alloc, hr] at he
  split at he
  · rename_i hlt
    exact absurd hlt (Int64.not_lt.2 hn)
  · split at he
    · cases he
      rfl
    · cases he

theorem Memory.offers_of_range (hm : m.layout = Layout.standard)
    (h : (Layout.standard.range? segment ty).isSome = true) : m.Offers segment ty := by
  rw [← hm] at h
  simpa [Memory.Offers, Memory.region?, Layout.range?, Memory.layout] using h

theorem standard_range_primitive : ∀ segment ∈ Segment.named, ∀ ty ∈ Ty.primitives,
    (Layout.standard.range? segment ty).isSome = true := by
  decide +kernel

/-- Values of every type have their range in every segment. -/
theorem Memory.offers (hm : m.layout = Layout.standard) (hsegment : segment ∈ Segment.named)
    (hty : Typing.isPrimitive ty = true) : m.Offers segment ty :=
  offers_of_range hm (standard_range_primitive segment hsegment ty
  (by simpa [Typing.isPrimitive] using hty))

/-- Every function has a range for its return slot. -/
theorem Memory.offers_stack (hm : m.layout = Layout.standard)
    (hty : ty = .void ∨ Typing.isPrimitive ty = true) : m.Offers .stack ty := by
  rcases hty with rfl | hty
  · exact offers_of_range hm (by decide +kernel)
  · exact m.offers hm (by decide) hty

/-! ## Steps -/

/-- A step that fails does so for a cause in the meaning. -/
def Orderly {α : Type} (x : Generate α) (g : Generator) : Prop :=
  ∀ stop g', x g = .error stop g' → stop.Meant

namespace Orderly

variable {α β : Type} {x : Generate α} {f : α → Generate β} {g : Generator}

theorem bind (hx : Orderly x g) (hf : ∀ a g₁, x g = .ok a g₁ → Orderly (f a) g₁) :
    Orderly (x >>= f) g := by
  intro stop g' h
  rcases bind_eq_error.1 h with h | ⟨a, g₁, ha, h⟩
  · exact hx stop g' h
  · exact hf a g₁ ha stop g' h

theorem of_ok {a : α} (h : x g = .ok a g₁) : Orderly x g := by
  intro stop g' hstop
  rw [h] at hstop
  cases hstop

theorem bind_ok {a : α} (h : x g = .ok a g₁) (hf : Orderly (f a) g₁) : Orderly (x >>= f) g := by
  intro stop g' hstop
  rw [bind_of_ok h] at hstop
  exact hf stop g' hstop

theorem fault (h : cause.Meant) : Orderly (Generate.fault cause : Generate α) g := by
  intro stop g' hstop
  obtain ⟨rfl, -⟩ := throw_eq_error.1 hstop
  exact h

theorem fault_bind (h : cause.Meant) : Orderly (Generate.fault cause >>= f) g :=
  bind (fault h) fun _ _ hok => (Generate.fault_eq_ok.1 hok).elim

theorem guard {c : Prop} [Decidable c] {y : Generate β} (h : cause.Meant) (hy : ¬ c → Orderly y g) :
    Orderly (if c then Generate.fault cause >>= f else y) g := by
  split
  · exact fault_bind h
  · rename_i hc
    exact hy hc

/-- An answer behind a step changes nothing. -/
theorem answer {r : α → β} (hx : Orderly x g) : Orderly (x >>= fun a => pure (r a)) g :=
  bind hx fun _ _ _ => of_ok rfl

end Orderly

theorem Generate.orderly_alloc {purpose : Purpose} {n : Int64} (h : g.memory.Offers segment ty)
    (hn : 1 ≤ n) :
    Orderly (alloc purpose ty segment n) g := by
  refine .bind_ok rfl ?_
  cases ha : g.memory.alloc ty segment n with
  | ok r => exact .of_ok rfl
  | error e => exact .fault (.of_exhausted rfl rfl (h.alloc hn ha))

/-! ## Outcomes of steps -/

/-- What a step does from a state, whatever the line: it succeeds exactly with the outcomes `P`, and
under the condition `R` it fails only for a cause in the meaning. -/
structure Acts (p : Generate Unit) (g : Generator) (R : Prop) (P : Generator → Prop) : Prop where
  found : ∀ {n u g'}, p (g.onLine n) = .ok u g' → ∃ g₁, P g₁ ∧ g' = g₁.onLine n
  reached : ∀ {g₁}, P g₁ → ∀ n, p (g.onLine n) = .ok () (g₁.onLine n)
  meant : R → ∀ n, Orderly p (g.onLine n)

namespace Acts

variable {α : Type} {p p' : Generate Unit} {y : Generate α} {a : α} {f : α → Generate Unit}
  {k : PUnit → Generate Unit} {g : Generator} {R c : Prop} {P P' : Generator → Prop}

theorem congr (h : Acts p g R P) (hP : ∀ g', P' g' ↔ P g') : Acts p g R P' where
  found hok := by simpa only [hP] using h.found hok
  reached hg := h.reached ((hP _).1 hg)
  meant := h.meant

theorem of_eq (hp : ∀ n, p (g.onLine n) = p' (g₁.onLine n)) (h : Acts p' g₁ R P) :
    Acts p g R P where
  found hok := h.found (hp _ ▸ hok)
  reached hg n := hp n ▸ h.reached hg n
  meant hR n stop g' hstop := h.meant hR n stop g' (hp n ▸ hstop)

theorem ok (hp : ∀ n, p (g.onLine n) = .ok () (g₁.onLine n)) : Acts p g R (· = g₁) where
  found hok := by
    rw [hp] at hok
    cases hok
    exact ⟨g₁, rfl, rfl⟩
  reached hg n := hg ▸ hp n
  meant _ n := .of_ok (hp n)

theorem bind (hy : ∀ n, y (g.onLine n) = .ok a (g₁.onLine n)) (h : Acts (f a) g₁ R P) :
    Acts (y >>= f) g R P :=
  of_eq (fun n => bind_of_ok (hy n)) h

/-- A step that looks at the state, but not at the line. -/
theorem get {f : Generator → Generate Unit} (hf : ∀ n, f (g.onLine n) = f g)
    (h : Acts (f g) g R P) :
    Acts (MonadState.get >>= f) g R P :=
  of_eq (fun n => get_bind.trans (congrFun (hf n) _)) h

theorem change {f : Generator → Generator} (hf : ∀ n, f (g.onLine n) = (f g).onLine n)
    (h : Acts (k ⟨⟩) (f g) R P) : Acts (modify f >>= k) g R P :=
  bind (fun n => congrArg _ (hf n)) h

theorem fault (hcause : R → cause.Meant) (hP : ∀ g', ¬ P g') :
    Acts (Generate.fault cause) g R P where
  found hok := (Generate.fault_eq_ok.1 hok).elim
  reached hg := absurd hg (hP _)
  meant hR _ := .fault (hcause hR)

theorem fault_bind (hcause : R → cause.Meant) (hP : ∀ g', ¬ P g') :
    Acts (Generate.fault cause >>= f) g R P :=
  of_eq (fun _ => bind_of_error rfl) (fault hcause hP)

theorem guard [Decidable c] (hcause : cause.Meant) (h : ¬ c → Acts p g R P) :
    Acts (if c then Generate.fault cause >>= k else p) g R fun g' => ¬ c ∧ P g' := by
  split
  · rename_i hc
    exact fault_bind (fun _ => hcause) fun _ hg => hg.1 hc
  · rename_i hc
    exact (h hc).congr (by simp [hc])

theorem agree {β : Type} [DecidableEq β] {b b' : β} (hcause : cause.Meant)
    (h : b = b' → Acts p g R P) :
    Acts (if b ≠ b' then Generate.fault cause >>= k else p) g R fun g' => b = b' ∧ P g' :=
  (guard hcause fun hb => h (not_not.1 hb)).congr (by simp)

/-- A step behind a test that has to hold. -/
theorem require [Decidable c] (hcause : cause.Meant) (h : c → Acts p g R P) :
    Acts (if c then p else Generate.fault cause >>= k) g R fun g' => c ∧ P g' := by
  split
  · rename_i hc
    exact (h hc).congr (by simp [hc])
  · rename_i hc
    exact fault_bind (fun _ => hcause) fun _ hg => hc hg.1

/-- A step with a cell of its own. -/
theorem cell {purpose : Purpose} {P : Addr → Memory → Generator → Prop} {f : Addr → Generate Unit}
    (hm : R → g.memory.layout = Layout.standard) (hty : R → Typing.isPrimitive ty = true)
    (h : ∀ a m, Acts (f a) { g with memory := m } R (P a m)) :
    Acts (Generate.alloc purpose ty .temps 1 >>= f) g R fun g' =>
      ∃ a m, g.memory.alloc ty .temps 1 = .ok (a, m) ∧ P a m g' := by
  unfold Generate.alloc
  cases ha : g.memory.alloc ty .temps 1 with
  | ok r =>
    refine (bind (fun n => ?_) (h r.1 r.2)).congr (by simp [Prod.ext_iff, and_assoc])
    rw [get_bind, show (g.onLine n).memory.alloc ty .temps 1 = .ok (r.1, r.2) from ha]
    rfl
  | error e =>
    have hcause (hR : R) : (Fault.noRoom purpose e).Meant :=
      .of_exhausted rfl rfl ((Memory.offers (hm hR) (by decide) (hty hR)).alloc (by decide) ha)
    refine of_eq (fun n => bind_of_error ?_) (fault (g := g) hcause (by simp))
    rw [get_bind, show (g.onLine n).memory.alloc ty .temps 1 = .error e from ha]
    rfl

theorem temporary {P : Addr → Memory → Generator → Prop} {f : TypedOperand → Generate Unit}
    (hm : R → g.memory.layout = Layout.standard) (hty : R → Typing.isPrimitive ty = true)
    (h : ∀ a m, Acts (f { ty, operand := .cell a }) { g with memory := m } R (P a m)) :
    Acts (Generate.temporary ty >>= f) g R fun g' =>
      ∃ a m, g.memory.alloc ty .temps 1 = .ok (a, m) ∧ P a m g' := by
  simp only [Generate.temporary, bind_assoc, pure_bind]
  exact cell hm hty h

end Acts

namespace Generate

variable {g : Generator} {R : Prop}

/-! ## Stacks -/

theorem peekOperand_of_cons (h : g.operands = x :: rest) (n : Int) :
    peekOperand (g.onLine n) = .ok x (g.onLine n) := by
  unfold peekOperand
  rw [get_bind, show (g.onLine n).operands = x :: rest from h]
  rfl

theorem popOperand_of_cons (h : g.operands = x :: rest) (n : Int) :
    popOperand (g.onLine n) = .ok x (Generator.onLine { g with operands := rest } n) := by
  unfold popOperand
  rw [bind_of_ok (peekOperand_of_cons h n), modify_bind, show (g.onLine n).operands =
    x :: rest from h]
  rfl

theorem openGroup_eq_ok (n : Int) : openGroup (g.onLine n) =
    .ok () (Generator.onLine { g with operators := .bottom :: g.operators } n) := rfl

theorem closeGroup_of_cons {rest : List Pending} (h : g.operators = .bottom :: rest) (n : Int) :
    closeGroup (g.onLine n) = .ok () (Generator.onLine { g with operators := rest } n) := by
  unfold closeGroup
  rw [get_bind, show (g.onLine n).operators = .bottom :: rest from h]
  rfl

theorem topReference_of_cons {rest : List Reference} (h : g.references = r :: rest) (n : Int) :
    topReference (g.onLine n) = .ok r (g.onLine n) := by
  unfold topReference
  rw [get_bind, show (g.onLine n).references = r :: rest from h]
  rfl

theorem popJump_of_cons {rest : List Nat} (h : g.jumps = p :: rest) (n : Int) :
    popJump (g.onLine n) = .ok p (Generator.onLine { g with jumps := rest } n) := by
  unfold popJump
  rw [get_bind, show (g.onLine n).jumps = p :: rest from h]
  rfl

/-! ## Operators -/

theorem isPrimitive_of_unary {op : UnaryOp} {x : Ty} (h : Typing.unary op x = some ty) :
    Typing.isPrimitive ty = true := by
  unfold Typing.unary at h
  split at h <;> cases h <;> rfl

theorem isPrimitive_of_meet {r : Ty} (h : Typing.meet l r = some ty) :
    Typing.isPrimitive ty = true := by
  unfold Typing.meet at h
  split at h
  · cases h
    split <;> rfl
  · cases h

theorem isPrimitive_of_binary {op : BinaryOp} {r : Ty} (h : Typing.binary op l r = some ty) :
    Typing.isPrimitive ty = true := by
  unfold Typing.binary at h
  split at h
  · cases h
    rfl
  · exact isPrimitive_of_meet h
  all_goals first
    | (cases h <;> rfl)
    | (obtain ⟨_, -, rfl⟩ := Option.map_eq_some_iff.1 h; rfl)

theorem acts_pushConst {v : Value} (hm : R → g.memory.layout = Layout.standard)
    (hty : R → Typing.isPrimitive ty = true) :
    Acts (pushConst ty v) g R fun g' => ∃ a m, g.memory.intern ty (v.convert ty) = .ok (a, m) ∧
      g' = { g with memory := m, operands := { ty, operand := .cell a } :: g.operands } := by
  unfold pushConst
  cases hi : g.memory.intern ty (v.convert ty) with
  | ok r =>
    simp only [Except.ok.injEq, Prod.ext_iff, and_assoc, exists_and_left, exists_eq_left']
    have hintern (n : Int) : intern ty (v.convert ty) (g.onLine n) =
        .ok r.1 (Generator.onLine { g with memory := r.2 } n) := by
      unfold intern
      rw [get_bind, show (g.onLine n).memory.intern ty (v.convert ty) = .ok (r.1, r.2) from hi]
      rfl
    exact .bind hintern (.ok fun n => rfl)
  | error e =>
    have hcause (hR : R) : (Fault.noConstantRoom e).Meant := by
      unfold Memory.intern at hi
      split at hi
      · cases hi
      · split at hi
        · rename_i e' he
          cases hi
          exact .of_exhausted rfl rfl ((Memory.offers (hm hR) (by decide) (hty hR)).alloc
            (by decide) he)
        · cases hi
    refine .of_eq (fun n => bind_of_error ?_) (.fault (g := g) hcause (by simp))
    unfold intern
    rw [get_bind, show (g.onLine n).memory.intern ty (v.convert ty) = .error e from hi]
    rfl

theorem pushOperator_of_ne {op : Operator} (h : op ≠ .assign) (n : Int) :
    pushOperator op.opcode (g.onLine n) =
      .ok () (Generator.onLine { g with operators := .operator op :: g.operators } n) := by
  unfold pushOperator
  rw [Operator.ofOpcode?_eq_some_iff.2 rfl]
  show (if op = .assign then _ else _ : Generate Unit) _ = _
  rw [if_neg h]
  rfl

theorem acts_pushOperator_assign (h : g.operands = x :: rest) :
    Acts (pushOperator .assign) g R fun g' =>
      x.addressable = true ∧ g' = { g with operators := .operator .assign :: g.operators } := by
  refine .bind (peekOperand_of_cons h) (.require ?_ fun _ => .ok fun n => rfl)
  exact .of_plain rfl

theorem acts_collapse {op : Operator} {rest : List Pending} {P : Generator → Prop}
    (h : g.operators = .operator op :: rest)
    (hop : Acts (generate op) { g with operators := rest } R P) :
    Acts (collapse op.level) g R P := by
  refine .of_eq (fun n => ?_) hop
  unfold collapse
  rw [get_bind, show (g.onLine n).operators = .operator op :: rest from h]
  show (if op.level = op.level then _ else _ : Generate Unit) _ = _
  rw [if_pos rfl, modify_bind]
  rfl

theorem acts_unary {op : UnaryOp} (h : g.operands = x :: rest)
    (hm : R → g.memory.layout = Layout.standard) :
    Acts (unary op) g R fun g' => ∃ ty, Typing.unary op x.ty = some ty ∧ ∃ a m,
      g.memory.alloc ty .temps 1 = .ok (a, m) ∧ g' = { g with
        memory := m
        quads := g.quads.push { op := op.opcode, arg1 := x.operand, res := .cell a }
        operands := { ty, operand := .cell a } :: rest } := by
  refine .bind (popOperand_of_cons h) ?_
  cases hty : Typing.unary op x.ty with
  | none => exact .fault (fun _ => .of_plain rfl) (by simp)
  | some ty =>
    simp only [Option.some.injEq, exists_eq_left']
    exact .temporary hm (fun _ => isPrimitive_of_unary hty) fun a m => .ok fun n => rfl

theorem acts_binary {op : BinaryOp} {l r : TypedOperand} (h : g.operands = r :: l :: rest)
    (hm : R → g.memory.layout = Layout.standard) :
    Acts (binary op) g R fun g' => ∃ ty, Typing.binary op l.ty r.ty = some ty ∧ ∃ a m,
      g.memory.alloc ty .temps 1 = .ok (a, m) ∧ g' = { g with
        memory := m
        quads :=
          g.quads.push { op := op.opcode, arg1 := l.operand, arg2 := r.operand, res := .cell a }
        operands := { ty, operand := .cell a } :: rest } := by
  refine .bind (popOperand_of_cons h) (.bind (popOperand_of_cons rfl) ?_)
  cases hty : Typing.binary op l.ty r.ty with
  | none => exact .fault (fun _ => .of_plain rfl) (by simp)
  | some ty =>
    simp only [Option.some.injEq, exists_eq_left']
    exact .temporary hm (fun _ => isPrimitive_of_binary hty) fun a m => .ok fun n => rfl

theorem acts_assign {l r : TypedOperand} (h : g.operands = r :: l :: rest) :
    Acts assign g R fun g' => Typing.assignable l.ty r.ty = true ∧
      g' = { g with quads := g.quads.push (copyQuad r.operand l.operand), operands := rest } := by
  refine .bind (popOperand_of_cons h) (.bind (popOperand_of_cons rfl) (.require ?_ fun _ =>
    .ok fun n => rfl))
  exact .of_plain rfl

/-! ## Values in use -/

theorem unaryOf_isSome_use {op : Opcode} (hop : op = .read ∨ op = .write ∨ op = .ret) (ty : Ty) :
    (Typing.unaryOf op ty).isSome = Typing.isPrimitive ty := by
  rcases hop with rfl | rfl | rfl <;> cases ty <;> rfl

theorem unaryOf_isSome_gotoFalse : (Typing.unaryOf .gotoFalse ty).isSome = true ↔ ty = .bool := by
  cases ty <;> simp [Typing.unaryOf]

section

variable (h : g.operands = x :: rest)

include h

theorem acts_popFor {op : Opcode} {f : TypedOperand → Generate Unit} {P : Generator → Prop}
    (hf : Acts (f x) { g with operands := rest } R P) :
    Acts (popFor op >>= f) g R fun g' => (Typing.unaryOf op x.ty).isSome = true ∧ P g' := by
  cases hty : Typing.unaryOf op x.ty with
  | none =>
    have hcause (_ : R) : (Fault.unaryMismatch op x.ty).Meant := .of_plain rfl
    refine .of_eq (fun n => bind_of_error ?_) (.fault (g := { g with operands := rest }) hcause
      (by simp))
    unfold popFor
    rw [bind_of_ok (popOperand_of_cons h n), hty]
    rfl
  | some ty =>
    refine (Acts.bind (fun n => ?_) hf).congr (by simp)
    unfold popFor
    rw [bind_of_ok (popOperand_of_cons h n), hty]
    rfl

theorem acts_write :
    Acts write g R fun g' => Typing.isPrimitive x.ty = true ∧
      g' = { g with quads := g.quads.push (writeQuad x.operand), operands := rest } := by
  rw [← unaryOf_isSome_use (.inr (.inl rfl))]
  exact acts_popFor h (.ok fun n => rfl)

theorem acts_read :
    Acts read g R fun g' => Typing.isPrimitive x.ty = true ∧ x.addressable = true ∧
      g' = { g with quads := g.quads.push (readQuad x.operand), operands := rest } := by
  rw [← unaryOf_isSome_use (.inl rfl)]
  exact acts_popFor h (.require (by exact .of_plain rfl) fun _ => .ok fun n => rfl)

theorem acts_jumpIfFalse :
    Acts jumpIfFalse g R fun g' => x.ty = .bool ∧ g' = { g with
      operands := rest
      quads := g.quads.push (openSkip x.operand)
      jumps := g.quads.size :: g.jumps } := by
  simp only [← unaryOf_isSome_gotoFalse]
  exact acts_popFor h (.ok fun n => rfl)

end

/-! ## References -/

theorem acts_var : Acts (var name) g R fun g' => ∃ sym, g.names.lookup name = some sym ∧
    g' = { g with references := { symbol := sym } :: g.references } := by
  simp only [var, resolve, bind_assoc, show g.names.lookup = g.lookup from rfl]
  refine .get (fun n => rfl) ?_
  cases g.lookup name with
  | none => exact .fault_bind (fun _ => .of_plain rfl) (by simp)
  | some sym =>
    simp only [Option.some.injEq, exists_eq_left']
    exact .ok fun n => rfl

theorem setReference_of_cons {r' : Reference} {rest : List Reference} (h : g.references = r :: rest)
    (n : Int) :
    setReference r' (g.onLine n) = .ok ()
      (Generator.onLine { g with references := r' :: rest } n) := by
  have htail : g.references.tail = rest := by rw [h, List.tail_cons]
  rw [← htail]
  rfl

theorem acts_member {rest : List Reference} (h : g.references = r :: rest)
    (hindices : r.indices = 0) :
    Acts (member name) g R fun g' => ∃ sym, g.names.member? r.symbol name = some sym ∧
      g' = { g with references := { r with symbol := sym } :: rest } := by
  unfold member findMember Names.member?
  refine .bind (topReference_of_cons h) ?_
  rw [if_neg (not_not.2 hindices)]
  by_cases hfunction : r.symbol.isFunction = true
  · simp only [hfunction, if_true, bind_assoc]
    exact .fault_bind (fun _ => .of_plain rfl) (by simp)
  simp only [hfunction, Bool.false_eq_true, if_false]
  cases r.symbol.scope with
  | none => exact .fault_bind (fun _ => .of_plain rfl) (by simp)
  | some scope =>
    dsimp only
    rw [bind_assoc]
    refine .get (fun n => rfl) ?_
    show Acts _ g R fun g' => ∃ sym, (g.scope scope).find? name = some sym ∧ _
    cases (g.scope scope).find? name with
    | none => exact .fault_bind (fun _ => .of_plain rfl) (by simp)
    | some sym =>
      simp only [Option.some.injEq, exists_eq_left']
      exact .ok (setReference_of_cons h)

theorem acts_indexStart {rest : List Reference} (h : g.references = r :: rest) :
    Acts indexStart g R fun g' => ∃ d, r.symbol.dims[r.indices]? = some d ∧
      g' = { g with operators := .bottom :: g.operators } := by
  have hlt : (∃ d, r.symbol.dims[r.indices]? = some d) ↔ ¬ r.symbol.dims.length ≤ r.indices := by
    simp [← Option.isSome_iff_exists]
  simp only [exists_and_right, hlt]
  exact .bind (topReference_of_cons h) (.guard (by exact .of_plain rfl) fun _ => .ok fun n => rfl)

theorem acts_indexEnd {rest : List Reference} {ops : List Pending} {d : Dim}
    (hr : g.references = r :: rest) (ho : g.operators = .bottom :: ops) (hx : g.operands = x :: xs)
    (hd : r.symbol.dims[r.indices]? = some d) :
    Acts indexEnd g R fun g' => x.ty = .int ∧ g' = { g with
      operators := ops
      operands := xs
      references := { r with indices := r.indices + 1 } :: rest
      quads := g.quads.push (d.check x.operand) } := by
  have hint : x.ty = .int ↔ ¬ (Typing.binaryOf .ver x.ty .int).isNone = true := by
    cases x.ty <;> simp [Typing.binaryOf]
  simp only [hint]
  refine .bind (topReference_of_cons hr) (.bind (closeGroup_of_cons ho)
    (.bind (popOperand_of_cons hx) (.guard (by exact .of_plain rfl) fun _ => ?_)))
  rw [hd]
  exact .bind (setReference_of_cons hr) (.ok fun n => rfl)

theorem acts_varEnd {rest : List Reference} (hr : g.references = r :: rest)
    (hm : R → g.memory.layout = Layout.standard) :
    Acts varEnd g R fun g' => ∃ a, r.symbol.kind = .variable (some a) ∧ r.symbol.ty ≠ .record ∧
      r.indices = r.symbol.dims.length ∧
      if r.indices = 0 then
        g' = { g with references := rest, operands := ⟨r.symbol.ty, .cell a, true⟩ :: g.operands }
      else ∃ p m, g.memory.alloc .int .temps 1 = .ok (p, m) ∧ g' = { g with
        memory := m
        references := rest
        quads := g.quads.push (elementQuad r.indices a p)
        operands := ⟨r.symbol.ty, .pointer p, true⟩ :: g.operands } := by
  refine .bind (topReference_of_cons hr) (.change (fun n => rfl) ?_)
  dsimp only
  simp only [hr, List.tail_cons]
  rcases r.symbol.kind with address | _ | _
  · cases address with
    | none =>
      refine (Acts.guard (P := fun _ => False) (by exact .of_plain rfl) fun _ => ?_).congr (by simp)
      exact .fault (fun _ => .of_plain rfl) (by simp)
    | some a =>
      simp only [Symbol.Kind.variable.injEq, Option.some.injEq, exists_eq_left']
      refine .guard (by exact .of_plain rfl) fun _ => .agree (by exact .of_plain rfl) fun _ => ?_
      unfold pushVariable
      split
      · exact .ok fun n => rfl
      · exact .cell hm (fun _ => rfl) fun p m => .ok fun n => rfl
  · exact .fault (fun _ => .of_plain rfl) (by simp)
  · exact .fault (fun _ => .of_plain rfl) (by simp)

/-! ## Calls -/

theorem acts_callStart : Acts (callStart name) g R fun g' => ∃ f, g.names.callee? name = some f ∧
    g' = { g with
      quads := g.quads.push f.era
      calls := { callee := f } :: g.calls
      operators := .bottom :: g.operators } := by
  simp only [callStart, resolveFunction, bind_assoc,
    show g.names.callee? name = (g.lookup name).bind (·.callee?) from rfl]
  refine .get (fun n => rfl) ?_
  cases g.lookup name with
  | none => exact .fault_bind (fun _ => .of_plain rfl) (by simp)
  | some sym =>
    dsimp only [Option.bind_some]
    cases sym.callee? with
    | none => exact .fault_bind (fun _ => .of_plain rfl) (by simp)
    | some f =>
      simp only [Option.some.injEq, exists_eq_left']
      exact .ok fun n => rfl

theorem acts_argument {rest : List Call} (hc : g.calls = call :: rest) (hx : g.operands = x :: xs) :
    Acts argument g R fun g' => ∃ p, ((g.names.params call.callee)[call.passed]? = some p ∧
      x.ty = p.ty) ∧ g' = { g with
        operands := xs
        calls := { call with passed := call.passed + 1 } :: rest
        quads := g.quads.push (p.bind x.operand) } := by
  refine .get (fun n => rfl) ?_
  rw [hc]
  dsimp only
  show Acts _ g R fun g' => ∃ p, ((g.paramsOf call.callee)[call.passed]? = some p ∧ _) ∧ _
  cases (g.paramsOf call.callee)[call.passed]? with
  | none => exact .fault (fun _ => .of_plain rfl) (by simp)
  | some p =>
    simp only [Option.some.injEq, and_assoc, exists_eq_left']
    exact .bind (popOperand_of_cons hx) (.agree (by exact .of_plain rfl) fun _ => .ok fun n => rfl)

theorem acts_callEnd {discard : Bool} {rest : List Call} {ops : List Pending}
    (hc : g.calls = call :: rest) (ho : g.operators = .bottom :: ops)
    (hm : R → g.memory.layout = Layout.standard)
    (hty : R → call.callee.ty = .void ∨ Typing.isPrimitive call.callee.ty = true) :
    Acts (callEnd discard) g R fun g' => (g.names.params call.callee).length ≤ call.passed ∧
      if discard then g' = { g with
        calls := rest
        operators := ops
        quads := g.quads.push call.callee.gosub }
      else call.callee.ty ≠ .void ∧ ∃ a m, g.memory.alloc call.callee.ty .temps 1 = .ok (a, m) ∧
        g' = { g with
          memory := m
          calls := rest
          operators := ops
          quads := (g.quads.push call.callee.gosub).push
            (copyQuad (.cell call.callee.address) (.cell a))
          operands := { ty := call.callee.ty, operand := .cell a } :: g.operands } := by
  refine .get (fun n => rfl) ?_
  rw [hc]
  simp only [← Nat.not_lt]
  refine .change (fun n => rfl) (.guard (by exact .of_plain rfl) fun _ => ?_)
  refine .bind (closeGroup_of_cons ho) (.change (fun n => rfl) ?_)
  cases discard with
  | true => exact .ok fun n => rfl
  | false =>
    simp only [Bool.false_eq_true, if_false]
    refine .guard (by exact .of_plain rfl) fun hvoid => ?_
    exact .temporary hm (fun hR => (hty hR).resolve_left hvoid) fun a m => .ok fun n => rfl

theorem acts_ret_void : Acts (ret false) g R fun g' => ∃ f, g.callee? = some f ∧ f.ty = .void ∧
    g' = { g with quads := g.quads.push { op := .ret, res := .cell f.address } } := by
  unfold Generator.callee?
  refine .get (fun n => rfl) ?_
  rcases hf : g.function with _ | ⟨f, scope⟩
  · exact .fault (fun _ => .of_plain rfl) (by simp)
  · simp only [Option.map_some, Option.some.injEq, exists_eq_left']
    exact .agree (by exact .of_plain rfl) fun _ => .ok fun n => by rw [← hf]; rfl

theorem acts_ret_value (h : g.operands = x :: rest) :
    Acts (ret true) g R fun g' => ∃ f, g.callee? = some f ∧ x.ty = f.ty ∧
      Typing.isPrimitive x.ty = true ∧ g' = { g with
        quads := g.quads.push { op := .ret, arg1 := x.operand, res := .cell f.address }
        operands := rest } := by
  unfold Generator.callee?
  rw [← unaryOf_isSome_use (.inr (.inr rfl))]
  refine .get (fun n => rfl) ?_
  rcases hf : g.function with _ | ⟨f, scope⟩
  · exact .fault (fun _ => .of_plain rfl) (by simp)
  · simp only [Option.map_some, Option.some.injEq, exists_eq_left']
    exact .bind (peekOperand_of_cons h) (.agree (by exact .of_plain rfl) fun _ =>
      acts_popFor h (.ok fun n => by rw [← hf]; rfl))

/-! ## Jumps -/

theorem fill_of_open {position target : Nat} (hq : g.quads[position]? = some q)
    (hres : q.res.kind = .empty)
    (n : Int) : fill position target (g.onLine n) = .ok () (Generator.onLine { g with
      quads := g.quads.setIfInBounds position { q with res := .label target } } n) := by
  unfold fill
  rw [get_bind, show (g.onLine n).quads[position]? = some q from hq]
  simp only [hres, ne_eq, not_true_eq_false, if_false]
  rfl

theorem fillJump_of_open {rest : List Nat} (hj : g.jumps = p :: rest) (hq : g.quads[p]? = some q)
    (hres : q.res.kind = .empty) (n : Int) :
    fillJump false (g.onLine n) = .ok () (Generator.onLine { g with
      jumps := rest
      quads := g.quads.setIfInBounds p { q with res := .label g.quads.size } } n) :=
  (bind_of_ok (popJump_of_cons hj n)).trans (fill_of_open (g := { g with jumps := rest }) hq hres n)

theorem getElem?_push_of_some (h : quads[p]? = some q) : (quads.push q')[p]? = some q := by
  have hlt : p < quads.size := (Array.getElem?_eq_some_iff.1 h).1
  rw [Array.getElem?_push_lt hlt, ← Array.getElem?_eq_getElem hlt, h]

theorem orElse_of_open {rest : List Nat} (hj : g.jumps = p :: rest) (hq : g.quads[p]? = some q)
    (hres : q.res.kind = .empty) (n : Int) : orElse (g.onLine n) = .ok () (Generator.onLine { g with
      jumps := g.quads.size :: rest
      quads := (g.quads.push { op := .goto }).setIfInBounds p
        { q with res := .label (g.quads.size + 1) } } n) := by
  rw [← Array.size_push { op := .goto }]
  exact (bind_of_ok (popJump_of_cons hj n)).trans (fill_of_open (g := { g with
    jumps := g.quads.size :: rest
    quads := g.quads.push { op := .goto } }) (getElem?_push_of_some hq) hres n)

theorem whileStart_eq_ok (n : Int) : whileStart (g.onLine n) =
    .ok () (Generator.onLine { g with jumps := g.quads.size :: g.jumps } n) := rfl

/-- The jump back is emitted and aimed before the jump away is. -/
theorem whileEnd_of_open {exit start : Nat} {rest : List Nat} (hj : g.jumps = exit :: start :: rest)
    (hq : g.quads[exit]? = some q) (hres : q.res.kind = .empty) (n : Int) :
    whileEnd (g.onLine n) = .ok () (Generator.onLine { g with
      jumps := rest
      quads := (g.quads.push (jumpQuad start)).setIfInBounds exit
        { q with res := .label (g.quads.size + 1) } } n) := by
  have hjump : (g.quads.push { op := .goto })[g.quads.size]? = some { op := .goto } := by simp
  have hback : fillJump true (Generator.onLine { g with
      quads := g.quads.push { op := .goto }
      jumps := g.quads.size :: start :: rest } n) = .ok () (Generator.onLine { g with
      quads := g.quads.push (jumpQuad start)
      jumps := rest } n) := by
    refine (@fill_of_open { op := .goto } { g with
      quads := g.quads.push { op := .goto }
      jumps := rest } _ _ hjump rfl n).trans ?_
    simpa [jumpQuad, Generator.onLine] using setIfInBounds_middle g.quads [] [] { op := .goto }
      (jumpQuad start)
  rw [← Array.size_push (jumpQuad start)]
  refine (bind_of_ok (popJump_of_cons hj n)).trans ((bind_of_ok rfl).trans
    ((bind_of_ok hback).trans ?_))
  exact fill_of_open (g := { g with quads := g.quads.push (jumpQuad start), jumps := rest })
    (getElem?_push_of_some hq) hres n

end Generate

/-! ## Rows of actions -/

/-- Some actions that fail on any lines do so for a cause in the meaning. -/
def OrderlyAll (as : List Action) (g : Generator) : Prop :=
  ∀ events : List Event, events.map (·.action) = as → Orderly (Generate.performAll events) g

theorem performAll_append (es fs : List Event) :
    Generate.performAll (es ++ fs) = Generate.performAll es >>= fun _ =>
      Generate.performAll fs := by
  induction es with
  | nil => rfl
  | cons e es ih => simp [Generate.performAll, ih]

theorem orderlyAll_nil : OrderlyAll [] g := by
  intro events he
  obtain rfl := List.map_eq_nil_iff.1 he
  exact .of_ok rfl

theorem orderlyAll_cons (ha : ∀ n, Orderly (Generate.perform a) (g.onLine n))
    (has : ∀ n r g₁, Generate.perform a (g.onLine n) = .ok r g₁ → OrderlyAll as g₁) :
    OrderlyAll (a :: as) g := by
  intro events he
  obtain ⟨e, rest, rfl, rfl, rfl⟩ := List.map_eq_cons_iff.1 he
  exact .bind_ok rfl (.bind (ha e.line) fun r g₁ h => has e.line r g₁ h rest rfl)

theorem orderlyAll_step {α : Type} {x : Generate α} {reply : α → Reply}
    (ha : Generate.perform a = x >>= fun y => pure (reply y)) (hx : ∀ n, Orderly x (g.onLine n))
    (has : ∀ n y g₁, x (g.onLine n) = .ok y g₁ → OrderlyAll as g₁) : OrderlyAll (a :: as) g := by
  refine orderlyAll_cons (fun n => ha ▸ .answer (hx n)) ?_
  intro n r g₁ h
  rw [ha] at h
  obtain ⟨y, _, hy, h⟩ := bind_eq_ok.1 h
  obtain ⟨-, rfl⟩ := pure_eq_ok.1 h
  exact has n y _ hy

theorem orderlyAll_append {bs : List Action} (ha : OrderlyAll as g)
    (hb : ∀ g₁, Performs as g g₁ → OrderlyAll bs g₁) : OrderlyAll (as ++ bs) g := by
  intro events he
  obtain ⟨es, fs, rfl, rfl, rfl⟩ := List.map_eq_append_iff.1 he
  rw [performAll_append]
  exact .bind (ha es rfl) fun _ g₁ h => hb g₁ ⟨es, rfl, h⟩ fs rfl

theorem orderlyAll_singleton (ha : ∀ n, Orderly (Generate.perform a) (g.onLine n)) :
    OrderlyAll [a] g :=
  orderlyAll_cons ha fun _ _ _ _ => orderlyAll_nil

/-! ## Outcomes of rows -/

/-- What a row of actions does from a state, whatever lines they stand on: it succeeds exactly with
the outcomes `P`, up to the line, and under the condition `R` it fails only for a cause in the
meaning. -/
structure Does (as : List Action) (g : Generator) (R : Prop) (P : Generator → Prop) : Prop where
  found : ∀ {events n u g'}, events.map (·.action) = as → Generate.performAll events (g.onLine n) =
    .ok u g' → ∃ g₁ n', P g₁ ∧ g' = g₁.onLine n'
  reached : ∀ {events g₁}, events.map (·.action) = as → P g₁ → ∀ n,
    ∃ n', Generate.performAll events (g.onLine n) = .ok () (g₁.onLine n')
  meant : R → ∀ n, OrderlyAll as (g.onLine n)

namespace Does

variable {bs : List Action} {p : Generate Unit} {R c : Prop} {P P' : Generator → Prop}

theorem congr (h : Does as g R P) (hP : ∀ g', P' g' ↔ P g') : Does as g R P' where
  found he hok := by simpa only [hP] using h.found he hok
  reached he hg := h.reached he ((hP _).1 hg)
  meant := h.meant

theorem nil : Does [] g R (· = g) where
  found he hok := by
    obtain rfl := List.map_eq_nil_iff.1 he
    cases hok
    exact ⟨g, _, rfl, rfl⟩
  reached he hg n := by
    obtain rfl := List.map_eq_nil_iff.1 he
    exact ⟨n, hg ▸ rfl⟩
  meant _ _ := orderlyAll_nil

theorem append {ι : Type} {C : ι → Prop} {F : ι → Generator} {Q : ι → Generator → Prop}
    (h : Does as g R fun g' => ∃ i, C i ∧ g' = F i) (h' : ∀ i, C i → Does bs (F i) R (Q i)) :
    Does (as ++ bs) g R fun g' => ∃ i, C i ∧ Q i g' where
  found he hok := by
    obtain ⟨es, fs, rfl, hes, hfs⟩ := List.map_eq_append_iff.1 he
    rw [performAll_append] at hok
    obtain ⟨u, g₁, hfirst, hok⟩ := bind_eq_ok.1 hok
    obtain ⟨_, n₁, ⟨i, hi, rfl⟩, rfl⟩ := h.found hes hfirst
    obtain ⟨g₂, n₂, hg₂, rfl⟩ := (h' i hi).found hfs hok
    exact ⟨g₂, n₂, ⟨i, hi, hg₂⟩, rfl⟩
  reached he hg n := by
    obtain ⟨es, fs, rfl, hes, hfs⟩ := List.map_eq_append_iff.1 he
    obtain ⟨i, hi, hg₂⟩ := hg
    obtain ⟨n₁, h₁⟩ := h.reached hes ⟨i, hi, rfl⟩ n
    obtain ⟨n₂, h₂⟩ := (h' i hi).reached hfs hg₂ n₁
    exact ⟨n₂, by rw [performAll_append, bind_of_ok h₁, h₂]⟩
  meant hR n := by
    refine orderlyAll_append (h.meant hR n) ?_
    rintro _ ⟨es, hes, hok⟩
    obtain ⟨_, n₁, ⟨i, hi, rfl⟩, rfl⟩ := h.found hes hok
    exact (h' i hi).meant hR n₁

section

variable (hp : Generate.perform a = do p; return Reply.done)

include hp

theorem last (h : Acts p g R P) : Does [a] g R P where
  found he hok := by
    obtain ⟨e, es, rfl, rfl, hes⟩ := List.map_eq_cons_iff.1 he
    obtain rfl := List.map_eq_nil_iff.1 hes
    simp only [Generate.performAll, hp, bind_eq_ok, Generate.setLine, modify_eq_ok,
      pure_eq_ok] at hok
    obtain ⟨_, _, rfl, _, _, ⟨_, _, hok, -, rfl⟩, -, rfl⟩ := hok
    obtain ⟨g₁, hg₁, rfl⟩ := h.found hok
    exact ⟨g₁, e.line, hg₁, rfl⟩
  reached he hg n := by
    obtain ⟨e, es, rfl, rfl, hes⟩ := List.map_eq_cons_iff.1 he
    obtain rfl := List.map_eq_nil_iff.1 hes
    have hdone := bind_of_ok (f := fun _ => pure Reply.done) (h.reached hg e.line)
    exact ⟨e.line, bind_of_ok (hp ▸ hdone)⟩
  meant hR n := orderlyAll_singleton fun n' => hp ▸ .answer (h.meant hR n')

theorem act {ι : Type} {C : ι → Prop} {F : ι → Generator} {Q : ι → Generator → Prop}
    (h : Acts p g R fun g' => ∃ i, C i ∧ g' = F i)
    (h' : ∀ i, C i → Does as (F i) R (Q i)) : Does (a :: as) g R fun g' => ∃ i, C i ∧ Q i g' :=
  (last hp h).append h'

theorem check (h : Acts p g R fun g' => c ∧ g' = g₁)
    (h' : c → Does as g₁ R P) : Does (a :: as) g R fun g' => c ∧ P g' :=
  (act (C := fun _ : Unit => c) (F := fun _ => g₁) (Q := fun _ => P) hp (h.congr (by simp))
    fun _ => h').congr (by simp)

theorem step (h : ∀ n, p (g.onLine n) = .ok () (g₁.onLine n)) (h' : Does as g₁ R P) :
    Does (a :: as) g R P :=
  (check (c := True) hp ((Acts.ok h).congr (by simp)) fun _ => h').congr (by simp)

end

end Does

end Quadlang
