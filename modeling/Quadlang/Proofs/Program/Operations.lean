-- Operators in compiled code: every instruction that applies an operator to two operands stands
-- behind the code of both, and nothing jumps or calls into the middle of that code.
import Quadlang.Proofs.Program.CallSites

namespace Quadlang

open Source

variable {base i k : Nat} {m m' : Memory} {code quads : List Quad} {q : Quad} {a : Addr}
  {op : BinaryOp}

/-! ## Code of operations -/

/-- An instruction of some code applies the operator of one of some operations, right behind the
code of its operands. -/
def EndsOperation (names : Names) (os : List Operation) (code : List Quad) (k : Nat) : Prop :=
  ∃ o x y a left right start, o ∈ os ∧ names.Works o.left x left ∧ names.Works o.right y right ∧
    (o.quad x y a).Fills a ∧ Placed code start (left ++ right ++ [o.quad x y a]) ∧
    k = start + left.length + right.length

/-- Every instruction of some code that applies an operator to two operands belongs to one of some
operations. -/
def EndsOperations (names : Names) (os : List Operation) (code : List Quad) : Prop :=
  ∀ k q op, code[k]? = some q → Operator.ofOpcode? q.op = some (.binary op) →
    EndsOperation names os code k

section

variable {names : Names} {os os' : List Operation} {code code' : List Quad} {k : Nat}

section

variable (h : EndsOperation names os code k)

include h

theorem EndsOperation.left (code' : List Quad) : EndsOperation names os (code ++ code') k := by
  obtain ⟨o, x, y, a, left, right, start, ho, hl, hr, hfill, hplaced, hk⟩ := h
  exact ⟨o, x, y, a, left, right, start, ho, hl, hr, hfill, hplaced.left code', hk⟩

theorem EndsOperation.right (code' : List Quad) :
    EndsOperation names os (code' ++ code) (code'.length + k) := by
  obtain ⟨o, x, y, a, left, right, start, ho, hl, hr, hfill, hplaced, hk⟩ := h
  exact ⟨o, x, y, a, left, right, code'.length + start, ho, hl, hr, hfill, hplaced.right code',
    by omega⟩

theorem EndsOperation.placed (hcode : Placed quads base code) :
    EndsOperation names os quads (base + k) := by
  obtain ⟨o, x, y, a, left, right, start, ho, hl, hr, hfill, hplaced, hk⟩ := h
  exact ⟨o, x, y, a, left, right, base + start, ho, hl, hr, hfill, hcode.trans hplaced, by omega⟩

theorem EndsOperation.mono (hos : ∀ o ∈ os, o ∈ os') : EndsOperation names os' code k := by
  obtain ⟨o, x, y, a, left, right, start, ho, hrest⟩ := h
  exact ⟨o, x, y, a, left, right, start, hos o ho, hrest⟩

end

theorem endsOperations_single (hop : ∀ op, Operator.ofOpcode? q.op ≠ some (.binary op)) :
    EndsOperations names os [q] := by
  intro k q' op hq' hop'
  obtain rfl := List.mem_singleton.1 (List.mem_of_getElem? hq')
  exact absurd hop' (hop op)

theorem EndsOperations.append (h : EndsOperations names os code)
    (h' : EndsOperations names os code') :
    EndsOperations names os (code ++ code') := by
  intro k q op hq hop
  by_cases hk : k < code.length
  · rw [List.getElem?_append_left hk] at hq
    exact (h k q op hq hop).left code'
  · rw [List.getElem?_append_right (Nat.not_lt.1 hk)] at hq
    have hright := (h' _ q op hq hop).right code
    rw [Nat.add_sub_cancel' (Nat.not_lt.1 hk)] at hright
    exact hright

theorem EndsOperations.operation (h : EndsOperations names os code)
    (h' : EndsOperations names os code')
    {o : Operation} (ho : o ∈ os) {x y : Operand} (hl : names.Works o.left x code)
    (hr : names.Works o.right y code') (hfill : (o.quad x y a).Fills a) :
    EndsOperations names os (code ++ code' ++ [o.quad x y a]) := by
  intro k q op hq hop
  by_cases hk : k < (code ++ code').length
  · rw [List.getElem?_append_left hk] at hq
    exact (h.append h' k q op hq hop).left _
  · obtain ⟨hlt, -⟩ := List.getElem?_eq_some_iff.1 hq
    rw [List.length_append, List.length_singleton] at hlt
    rw [List.length_append] at hk hlt
    refine ⟨o, x, y, a, code, code', 0, ho, hl, hr, hfill, ?_, by omega⟩
    intro i q' hq'
    rw [Nat.zero_add]
    exact hq'

theorem Composed.endsOperations {P : Quad → Prop} {calls : List (Bytes × List Expr)}
    (h : Composed names P calls os code) : EndsOperations names os code := by
  induction h with
  | nil => simp [EndsOperations]
  | append _ _ ih ih' => exact ih.append ih'
  | single hop _ =>
    refine endsOperations_single fun op hbinary => ?_
    simp [Opcode.simple, hbinary] at hop
  | call _ _ _ ih =>
    refine EndsOperations.append (.append (endsOperations_single ?_) ih)
      (endsOperations_single ?_) <;>
      exact fun _ hbinary => by cases hbinary
  | operation ho hl hr hfill _ _ ih ih' => exact ih.operation ih' ho hl hr hfill

end

/-! ## Operations of a program -/

/-- Every instruction of a program that applies an operator ends an operation of its source. -/
theorem Assembly.Of.endsOperation {t : Tree} {p : Program} {b : Assembly}
    (h : b.Of (fun _ _ => True) t p) (hq : p.quads.toList[k]? = some q)
    (hop : Operator.ofOpcode? q.op = some (.binary op)) :
    ∃ names, EndsOperation names t.operations p.quads.toList k := by
  have hi := h.one_le hq (by rintro hgoto; rw [hgoto] at hop; cases hop)
  rcases h.body_cases hi hq with ⟨r, hr, k, rfl, hk⟩ | ⟨k, rfl, hk⟩
  · obtain ⟨rs', hsub, hcompiled⟩ := h.outline.compiled hr
    obtain ⟨f, hf, hof⟩ := h.function hr
    have hends := hcompiled.composed.endsOperations _ q op hk hop
    rw [hof.body] at hends
    refine ⟨_, (hends.mono fun o ho => ?_).placed (h.outline.placed h.placed.1 hr)⟩
    exact List.mem_append_left _ (List.mem_flatMap.2 ⟨f, hf, ho⟩)
  · refine ⟨_, ((h.composed.endsOperations _ q op hk hop).mono fun o ho => ?_).placed h.placed.2⟩
    exact List.mem_append_right _ ho

/-! ## The middle of an expression -/

/-- Something is still to be used or ended at a position: a call, an index, a result, or a
temporary that was filled before. -/
def Engaged (quads : List Quad) (i : Nat) : Prop :=
  standing quads i ≠ {} ∨ (∃ q, quads[i]? = some q ∧ q.TakesResult) ∨
    ∃ a k q k' q', k < i ∧ quads[k]? = some q ∧ q.Fills a ∧ i ≤ k' ∧ quads[k']? = some q' ∧
    q'.Uses a

/-- A temporary is used from a position on. -/
def UsedFrom (quads : List Quad) (i : Nat) (a : Addr) : Prop :=
  ∃ k q, i ≤ k ∧ quads[k]? = some q ∧ q.Uses a

theorem Chart.position_of_fills (h : Chart quads) {k' : Nat} {q' : Quad} (hq : quads[k]? = some q)
    (hq' : quads[k']? = some q') (hfill : q.Fills a) (hfill' : q'.Fills a) : k = k' := by
  obtain ⟨hk, rfl⟩ := List.getElem?_eq_some_iff.1 hq
  obtain ⟨hk', rfl⟩ := List.getElem?_eq_some_iff.1 hq'
  have honce := List.pairwise_iff_getElem.1 h.once
  rcases Nat.lt_trichotomy k k' with hlt | heq | hlt
  · exact absurd hfill' (honce k k' hk hk' hlt a hfill)
  · exact heq
  · exact absurd hfill (honce k' k hk' hk hlt a hfill')

/-- Nothing jumps or calls to where something is still to be used or ended. -/
theorem Engaged.not_clear (hchart : Chart quads) (h : Engaged quads i) : ¬ Clear quads i := by
  intro hclear
  rcases h with hstanding | ⟨q, hq, htakes⟩ | ⟨a, k, q, k', q', hk, hq, hfill, hk', hq', huse⟩
  · exact hstanding hclear.standing
  · exact hclear.plain q hq htakes
  · obtain ⟨k'', q'', hstart, -, hq'', hfill'⟩ := hclear.contained k' q' hk' hq' a huse
    have := hchart.position_of_fills hq hq'' hfill hfill'
    omega

/-- Behind an instruction that fills a temporary which is used later on. -/
theorem engaged_behind (hq : quads[i]? = some q) (hfill : q.Fills a)
    (hused : UsedFrom quads (i + 1) a) :
    Engaged quads (i + 1) := by
  obtain ⟨k', q', hk', hq', huse⟩ := hused
  exact .inr (.inr ⟨a, i, q, k', q', Nat.lt_succ_self i, hq, hfill, hk', hq', huse⟩)

/-- Code with an instruction behind it that fills a temporary which is used later on. -/
theorem engaged_concat (hinside : ∀ k, 0 < k → k ≤ code.length → Engaged quads (base + k))
    (hplaced : Placed quads base (code ++ [q])) (hfill : q.Fills a)
    (hused : UsedFrom quads (base + (code ++ [q]).length) a) :
    ∀ k, 0 < k → k ≤ (code ++ [q]).length → Engaged quads (base + k) := by
  intro k hk hle
  rw [List.length_append, List.length_singleton] at hle hused
  by_cases hlast : k ≤ code.length
  · exact hinside k hk hlast
  · obtain rfl : k = code.length + 1 := by omega
    exact engaged_behind hplaced.append.2.head hfill hused

section

variable {names : Names} {outer inner : List Placement}
  {fs : List (Callee × List Param)} {quads : List Quad}

theorem needs_filled (h : q.Fills a) : (Operand.cell a).Needs a := by
  obtain ⟨-, -, ty, ha⟩ := h
  exact ⟨Operand.word_cell a, .inr ⟨rfl, ty, ha⟩⟩

theorem ExprCode.standing {e : Expr} {x : TypedOperand} (h : ExprCode names e m x code m')
    (hplaced : Placed quads base code) :
    standing quads (base + code.length) = standing quads base := by
  rw [hplaced.standing, h.neutral]

/-- Something is under way all the time while code leads from there. -/
theorem Standing.Leads.engaged {s : Standing}
    (h : (standing quads base).Leads (standing quads base) s code)
    (hplaced : Placed quads base code)
    (hidle : standing quads base ≠ {}) (hk : k ≤ code.length) : Engaged quads (base + k) := by
  refine .inl fun hend => hidle ?_
  have hunder := h.placed hplaced hk
  rw [hend] at hunder
  exact congrArg₂ Standing.mk (List.suffix_nil.1 hunder.1) (List.suffix_nil.1 hunder.2)

-- Each part of an expression is followed by the instruction that uses its value, so the positions
-- inside of a part are covered by the part, and those behind it by the temporary that it filled.
mutual

/-- Inside of the code of an expression, behind its first instruction, and right behind it
something is still to be used or ended, if the value of the expression is used later on. -/
theorem ExprCode.engaged {e : Expr} {x : TypedOperand} {m m' : Memory} {code : List Quad}
    {base : Nat} : ExprCode names e m x code m' → names.Ready outer inner fs m →
    Placed quads base code → (∀ a, x.operand.Needs a → UsedFrom quads (base + code.length) a) →
    ∀ k, 0 < k → k ≤ code.length → Engaged quads (base + k)
  | .constant _, _, _, _ => by
    intro k hk hle
    exact absurd hle (Nat.not_le.2 hk)
  | .group he, hready, hplaced, hused => he.engaged hready hplaced hused
  | @ExprCode.call _ _ _ f a code _ _ _ hname hargs _ ha, hready,
      hplaced, hused => by
    have hslot := hready.holds (hready.functions _ (hready.sound.called hname)).slot
    have hfill : (copyQuad (.cell f.address) (.cell a)).Fills a :=
      (hargs.ready hready).fills ha rfl rfl
    have hused := hused a (needs_filled hfill)
    rw [f.append_result] at hplaced hused ⊢
    refine engaged_concat ?_ hplaced hfill hused
    obtain ⟨hcall, hend⟩ := hplaced.append
    have hera : Quadlang.standing quads (base + 1) ≠ {} := by
      rw [standing_succ hcall.append.1.head]
      simp [Standing.after, Callee.era]
    intro k hk hle
    rw [List.length_append, List.length_cons, List.length_singleton] at hle
    by_cases hinside : k ≤ code.length + 1
    · obtain ⟨k, rfl⟩ := Nat.exists_eq_add_of_le hk
      rw [← Nat.add_assoc]
      exact (hargs.leads _).engaged hcall.append.1.tail hera (by omega)
    · have hresult : k = (f.era :: code ++ [f.gosub]).length := by
        simp only [List.length_append, List.length_cons, List.length_nil]
        omega
      rw [hresult]
      exact .inr (.inl ⟨_, hend.head, rfl, f.address, _, rfl, hslot⟩)
  | .variable _ _ _ _, _, _, _ => by
    intro k hk hle
    exact absurd hle (Nat.not_le.2 hk)
  | @ExprCode.element _ _ _ _ sym a p _ _ _ _ _ _ _ _ his ha, hready,
      hplaced, hused => by
    have hfill : (elementQuad sym.dims.length a p).Fills p := (his.ready hready).fills ha rfl rfl
    have hneeds : (Operand.pointer p).Needs p := ⟨Operand.word_pointer p, .inl rfl⟩
    refine engaged_concat ?_ hplaced hfill (hused p hneeds)
    exact his.engaged hready hplaced.append.1
  | @ExprCode.unary _ op _ x _ a _ _ _ _ he _ ha, hready, hplaced, hused => by
    have hfill : ({ op := op.opcode, arg1 := x.operand, res := .cell a } : Quad).Fills a :=
      (he.ready hready).fills ha (UnaryOp.opcode_stores _) rfl
    refine engaged_concat ?_ hplaced hfill (hused a (needs_filled hfill))
    obtain ⟨hbody, hend⟩ := hplaced.append
    refine he.engaged hready hbody ?_
    intro b hb
    refine ⟨_, _, Nat.le_refl _, hend.head, .inl ⟨x.operand, ?_, hb⟩⟩
    rw [UnaryOp.sources_opcode]
    exact List.mem_singleton_self _
  | @ExprCode.binary _ op _ _ x y _ a code code' _ _ _ _ hl hr _ ha, hready,
      hplaced, hused => by
    have hready₁ := hl.ready hready
    have hfill : ({ op := op.opcode, arg1 := x.operand, arg2 := y.operand, res := .cell a } :
      Quad).Fills a :=
      (hr.ready hready₁).fills ha (BinaryOp.opcode_stores _) rfl
    refine engaged_concat ?_ hplaced hfill (hused a (needs_filled hfill))
    obtain ⟨hbody, hend⟩ := hplaced.append
    obtain ⟨hleft, hright⟩ := hbody.append
    rw [List.length_append, ← Nat.add_assoc] at hend
    have huses : ∀ o ∈ [x.operand, y.operand], ∀ b, o.Needs b →
        UsedFrom quads (base + code.length + code'.length) b := by
      intro o ho b hb
      refine ⟨_, _, Nat.le_refl _, hend.head, .inl ⟨o, ?_, hb⟩⟩
      rw [BinaryOp.sources_opcode]
      exact ho
    intro k hk hle
    rw [List.length_append] at hle
    by_cases hfirst : k ≤ code.length
    · refine hl.engaged hready hleft ?_ k hk hfirst
      intro b hb
      obtain ⟨k', q', hk', hq'⟩ := huses x.operand (by simp) b hb
      exact ⟨k', q', by omega, hq'⟩
    · obtain ⟨k', rfl⟩ := Nat.exists_eq_add_of_le (Nat.le_of_not_le hfirst)
      rw [← Nat.add_assoc]
      exact hr.engaged hready₁ hright (huses y.operand (by simp)) k' (by omega) (by omega)

/-- While indices are checked, they are under way. -/
theorem IndicesCode.engaged {ds : List Dim} {es : List Expr} {m m' : Memory} {code : List Quad}
    {base : Nat} : IndicesCode names ds es m code m' → names.Ready outer inner fs m →
    Placed quads base code → ∀ k, 0 < k → k ≤ code.length → Engaged quads (base + k)
  | .nil, _, _ => by
    intro k hk hle
    exact absurd hle (Nat.not_le.2 hk)
  | @IndicesCode.cons _ d _ _ _ x code _ _ _ _ he _ hes, hready, hplaced => by
    obtain ⟨hbody, hrest⟩ := hplaced.append
    intro k hk hle
    rw [List.length_append, List.length_cons] at hle
    by_cases hinside : k ≤ code.length
    · refine he.engaged hready hbody ?_ k hk hinside
      intro b hb
      exact ⟨_, _, Nat.le_refl _, hrest.head, .inl ⟨x.operand, List.mem_singleton_self _, hb⟩⟩
    · obtain ⟨k', rfl⟩ := Nat.exists_eq_add_of_le (Nat.not_le.1 hinside)
      have hcheck : Quadlang.standing quads (base + code.length + 1) ≠ {} := by
        rw [standing_succ hrest.head]
        simp [Standing.after, Dim.check]
      rw [← Nat.add_assoc]
      exact (hes.leads _).engaged hrest.tail hcheck (by omega)

end

end

/-! ## Places of operations -/

/-- Where an operation stands in a program: the code of its left operand from `start` to `middle`,
that of its right operand from there to `position`, and there the instruction that applies the
operator to the operands that hold their values. -/
structure OperationSite where
  operation : Operation
  left : Operand
  right : Operand
  start : Nat
  middle : Nat
  position : Nat

structure OperationSite.In (names : Names) (quads : List Quad) (s : OperationSite) : Prop where
  left : ∃ code, names.Works s.operation.left s.left code ∧ Placed quads s.start code ∧
    s.start + code.length = s.middle
  right : ∃ code, names.Works s.operation.right s.right code ∧ Placed quads s.middle code ∧
    s.middle + code.length = s.position
  quad : ∃ a, (s.operation.quad s.left s.right a).Fills a ∧
    quads[s.position]? = some (s.operation.quad s.left s.right a)

theorem EndsOperation.site {names : Names} {os : List Operation}
    (h : EndsOperation names os quads k) :
    ∃ s : OperationSite, s.operation ∈ os ∧ s.In names quads ∧ s.position = k := by
  obtain ⟨o, x, y, a, left, right, start, ho, hl, hr, hfill, hplaced, rfl⟩ := h
  obtain ⟨hboth, hend⟩ := hplaced.append
  obtain ⟨hleft, hright⟩ := hboth.append
  rw [List.length_append, ← Nat.add_assoc] at hend
  exact ⟨⟨o, x, y, start, start + left.length, start + left.length + right.length⟩, ho,
    ⟨⟨left, hl, hleft, rfl⟩, ⟨right, hr, hright, rfl⟩, a, hfill, hend.head⟩, rfl⟩

section

variable {names : Names} {quads : List Quad} {s : OperationSite}

section

variable (h : s.In names quads)

include h

theorem OperationSite.In.middle_le : s.middle ≤ s.position := by
  obtain ⟨code, -, -, hlength⟩ := h.right
  omega

/-- The temporaries that the left operand needs are filled by its own code. -/
theorem OperationSite.In.supplied (ha : s.left.Needs a) :
    ∃ k q, k < s.middle ∧ quads[k]? = some q ∧ q.Fills a := by
  obtain ⟨code, ⟨outer, inner, fs, m, t, m', hready, -, hcode, hoperand⟩, hplaced, hlength⟩ :=
    h.left
  rw [← hoperand] at ha
  obtain ⟨q, hq, hfill⟩ := (hcode.supplies hready).filled a ha
  obtain ⟨i, hi⟩ := List.mem_iff_getElem?.1 hq
  obtain ⟨hlt, -⟩ := List.getElem?_eq_some_iff.1 hi
  exact ⟨s.start + i, q, by omega, hplaced i q hi, hfill⟩

/-- Nothing jumps or calls into the code of the right operand. -/
theorem OperationSite.In.engaged (hk : s.middle < k) (hk' : k ≤ s.position) : Engaged quads k := by
  obtain ⟨code, ⟨outer, inner, fs, m, t, m', hready, -, hcode, hoperand⟩, hplaced, hlength⟩ :=
    h.right
  obtain ⟨a, -, hquad⟩ := h.quad
  obtain ⟨i, rfl⟩ := Nat.exists_eq_add_of_lt hk
  refine hcode.engaged hready hplaced ?_ (i + 1) (by omega) (by omega)
  intro b hb
  rw [hoperand] at hb
  refine ⟨s.position, _, by omega, hquad, .inl ⟨s.right, ?_, hb⟩⟩
  unfold Operation.quad
  rw [BinaryOp.sources_opcode]
  simp

theorem OperationSite.In.getElem?_right (hk : s.middle ≤ k)
    (hk' : k < s.position) (hq : quads[k]? = some q) :
    ∃ code, names.Works s.operation.right s.right code ∧ q ∈ code := by
  obtain ⟨code, hworks, hplaced, hlength⟩ := h.right
  obtain ⟨i, -, hi⟩ := hplaced.inside hk (by omega) hq
  exact ⟨code, hworks, List.mem_of_getElem? hi⟩

/-- Up to the operator, temporaries are filled and calls are made, and nothing else is done. -/
theorem OperationSite.In.straight (hk : s.middle ≤ k) (hk' : k ≤ s.position)
    (hq : quads[k]? = some q) : q.Straight := by
  by_cases hlast : k = s.position
  · subst hlast
    obtain ⟨a, hfill, hquad⟩ := h.quad
    rw [hquad] at hq
    obtain rfl := Option.some.inj hq
    exact .inl ⟨a, hfill⟩
  · obtain ⟨code, hworks, hmem⟩ := h.getElem?_right hk (by omega) hq
    exact hworks.straight hmem

theorem OperationSite.In.calls (hcalls : s.operation.right.calls = [])
    (hk : s.middle ≤ k) (hk' : k ≤ s.position) (hq : quads[k]? = some q) : q.op ≠ .gosub := by
  intro hop
  by_cases hlast : k = s.position
  · subst hlast
    obtain ⟨a, -, hquad⟩ := h.quad
    rw [hquad] at hq
    obtain rfl := Option.some.inj hq
    have hstores := BinaryOp.opcode_stores s.operation.op
    have hgosub : s.operation.op.opcode = .gosub := hop
    rw [hgosub] at hstores
    cases hstores
  · obtain ⟨code, hworks, hmem⟩ := h.getElem?_right hk (by omega) hq
    exact hworks.ne_gosub hcalls hmem hop

end

end

/-- Every instruction of a compiled program that applies an operator to two operands belongs to an
operation of the source. -/
theorem compile_site {text : Bytes} {p : Program} (h : compile text = .ok p) {t : Tree}
    (hread : t.ReadFrom text) (hq : p.quads.toList[i]? = some q) (hop : q.op = op.opcode) :
    ∃ (s : OperationSite) (names : Names), s.operation ∈ t.operations ∧ s.In names p.quads.toList ∧
      s.position = i := by
  obtain ⟨b, -, hb⟩ := hread.assembled h (fun _ _ => True)
    (hread.literals h fun _ _ _ _ _ _ => trivial)
  have hbinary : Operator.ofOpcode? q.op = some (.binary op) :=
    Operator.ofOpcode?_eq_some_iff.2 hop.symm
  obtain ⟨names, hends⟩ := hb.endsOperation hq hbinary
  obtain ⟨s, hs, hin, rfl⟩ := hends.site
  exact ⟨s, names, hs, hin, rfl⟩

end Quadlang
