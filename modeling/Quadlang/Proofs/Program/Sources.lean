-- Where instructions find their values: the operands that each of them reads. In the code of a
-- tree every temporary is filled before it is used, and every constant is in memory.
import Quadlang.Proofs.Generator.Growth

namespace Quadlang

open Source

variable {m m' : Memory} {q : Quad} {es : List Expr} {code : List Quad}

/-! ## Operands that are read -/

/-- The operands whose values an instruction takes. -/
def Quad.sources (q : Quad) : List Operand :=
  match q.op with
  | .arith _ | .compare _ | .logic _ => [q.arg1, q.arg2]
  | .not | .neg | .assign | .gotoFalse | .param | .ver | .ret => [q.arg1]
  | .write => [q.res]
  | _ => []

/-- The operands whose cells an instruction writes. -/
def Quad.targets (q : Quad) : List Operand :=
  match q.op with
  | .arith _ | .compare _ | .logic _ | .not | .neg | .assign | .read => [q.res]
  | _ => []

/-- The value of an operand is found with the help of a temporary: in it, or where it leads to. -/
def Operand.Needs (o : Operand) (a : Addr) : Prop :=
  o.word = a ∧ (o.kind = .pointer ∨ o.kind = .address ∧ ∃ ty, Layout.standard.Holds .temps ty a)

/-- An instruction reads a temporary. -/
def Quad.Uses (q : Quad) (a : Addr) : Prop :=
  (∃ o ∈ q.sources, o.Needs a) ∨ ∃ o ∈ q.targets, o.kind = .pointer ∧ o.word = a

/-- An operand names a constant of a memory, if it names a constant. -/
def Operand.KnownTo (o : Operand) (m : Memory) : Prop :=
  o.kind = .address → ∀ ty, Layout.standard.Holds .globals ty o.word → ∃ c ∈ m.constants,
  c.address = o.word

/-- Behind some code the value of an operand can be found: the code has filled the temporaries
that it needs, and the memory has the constant that it names. -/
structure Supplies (m : Memory) (code : List Quad) (o : Operand) : Prop where
  filled : ∀ a, o.Needs a → ∃ q ∈ code, q.Fills a
  known : o.KnownTo m

/-- Code that fills every temporary before it uses it, with its constants in a memory. -/
structure Closed (m : Memory) (code : List Quad) : Prop where
  filled : ∀ k q, code[k]? = some q → ∀ a, q.Uses a → ∃ q' ∈ code.take k, q'.Fills a
  known : ∀ q ∈ code, ∀ o ∈ q.sources, o.KnownTo m

section

variable {m m' : Memory} {code code' : List Quad} {o : Operand} {a : Addr}

theorem Operand.KnownTo.mono (h : o.KnownTo m) (hm : m.Extends m') : o.KnownTo m' := by
  intro hkind ty ha
  obtain ⟨c, hc, hca⟩ := h hkind ty ha
  obtain ⟨new, hnew⟩ := hm.constants
  exact ⟨c, by rw [hnew]; exact List.mem_append_right _ hc, hca⟩

theorem Supplies.mono (h : Supplies m code o) (hm : m.Extends m') (hcode : ∀ q ∈ code, q ∈ code') :
    Supplies m' code' o := by
  refine ⟨?_, h.known.mono hm⟩
  intro a ha
  obtain ⟨q, hq, hfill⟩ := h.filled a ha
  exact ⟨q, hcode q hq, hfill⟩

/-- A cell that is neither a temporary nor a constant is there without help. -/
theorem supplies_cell {segment : Segment} {ty : Ty} (ha : Layout.standard.Holds segment ty a)
    (htemp : segment ≠ .temps) (hglobal : segment ≠ .globals) : Supplies m code (.cell a) := by
  constructor
  · rintro b ⟨rfl, hkind | ⟨-, ty', hb⟩⟩
    · cases hkind
    · rw [Operand.word_cell] at hb
      exact absurd (Layout.standard_holds_inj ha hb).1 htemp
  · intro _ ty' hb
    rw [Operand.word_cell] at hb
    exact absurd (Layout.standard_holds_inj ha hb).1 hglobal

/-- A temporary is there once it is filled. -/
theorem supplies_filled (hq : q ∈ code) (hfill : q.Fills a) : Supplies m code (.cell a) := by
  constructor
  · rintro b ⟨rfl, -⟩
    rw [Operand.word_cell]
    exact ⟨q, hq, hfill⟩
  · intro _ ty hb
    rw [Operand.word_cell] at hb
    obtain ⟨-, -, ty', ha⟩ := hfill
    exact absurd (Layout.standard_holds_inj ha hb).1 (by simp)

/-- An element is there once the pointer to it is. -/
theorem supplies_pointer (hq : q ∈ code) (hfill : q.Fills a) : Supplies m code (.pointer a) := by
  constructor
  · rintro b ⟨rfl, -⟩
    rw [Operand.word_pointer]
    exact ⟨q, hq, hfill⟩
  · intro hkind
    cases hkind

theorem closed_nil (m : Memory) : Closed m [] := ⟨by simp, by simp⟩

section

variable (h : Closed m code)

include h

theorem Closed.mono (hm : m.Extends m') : Closed m' code :=
  ⟨h.filled, fun q hq o ho => (h.known q hq o ho).mono hm⟩

theorem Closed.append (h' : Closed m code') : Closed m (code ++ code') := by
  constructor
  · intro k q hq a huse
    by_cases hk : k < code.length
    · rw [List.getElem?_append_left hk] at hq
      rw [List.take_append_of_le_length (Nat.le_of_lt hk)]
      exact h.filled k q hq a huse
    · rw [List.getElem?_append_right (Nat.not_lt.1 hk)] at hq
      obtain ⟨q', hq', hfill⟩ := h'.filled _ q hq a huse
      rw [List.take_append]
      exact ⟨q', List.mem_append_right _ hq', hfill⟩
  · intro q hq
    rcases List.mem_append.1 hq with hq | hq
    · exact h.known q hq
    · exact h'.known q hq

/-- An instruction behind code that supplies all that it reads. -/
theorem Closed.concat (hsources : ∀ o ∈ q.sources, Supplies m code o)
    (htargets : ∀ o ∈ q.targets, o.kind = .pointer → Supplies m code o) :
    Closed m (code ++ [q]) := by
  constructor
  · intro k q' hq' a huse
    by_cases hk : k < code.length
    · rw [List.getElem?_append_left hk] at hq'
      rw [List.take_append_of_le_length (Nat.le_of_lt hk)]
      exact h.filled k q' hq' a huse
    · rw [List.getElem?_append_right (Nat.not_lt.1 hk)] at hq'
      obtain rfl := List.mem_singleton.1 (List.mem_of_getElem? hq')
      have hfilled : ∃ q'' ∈ code, q''.Fills a := by
        rcases huse with ⟨o, ho, hneeds⟩ | ⟨o, ho, hkind, hword⟩
        · exact (hsources o ho).filled a hneeds
        · exact (htargets o ho hkind).filled a ⟨hword, .inl hkind⟩
      obtain ⟨q'', hq'', hfill⟩ := hfilled
      refine ⟨q'', ?_, hfill⟩
      rw [List.take_append, List.take_of_length_le (Nat.not_lt.1 hk)]
      exact List.mem_append_left _ hq''
  · intro q' hq'
    rcases List.mem_append.1 hq' with hq' | hq'
    · exact h.known q' hq'
    · obtain rfl := List.mem_singleton.1 hq'
      exact fun o ho => (hsources o ho).known

theorem Closed.plain (hsources : q.sources = []) (htargets : q.targets = []) :
    Closed m (code ++ [q]) := h.concat (by simp [hsources]) (by simp [htargets])

theorem Closed.consumes (ho : Supplies m code o) (hsources : q.sources = [o])
    (htargets : q.targets = []) : Closed m (code ++ [q]) := by
  refine h.concat ?_ (by simp [htargets])
  intro o' ho'
  rw [hsources] at ho'
  obtain rfl := List.mem_singleton.1 ho'
  exact ho

theorem Closed.call (f : Callee) : Closed m (f.era :: code ++ [f.gosub]) := by
  have hera : Closed m [f.era] := (closed_nil m).plain rfl rfl
  exact (hera.append h).plain rfl rfl

end

theorem closed_return (m : Memory) (f : Callee) : Closed m
    [{ op := .ret, res := .cell f.address }] := by
  refine (closed_nil m).consumes ⟨?_, ?_⟩ rfl rfl
  · rintro a ⟨-, hkind | ⟨hkind, -⟩⟩ <;> cases hkind
  · intro hkind
    cases hkind

theorem BinaryOp.sources_opcode (op : BinaryOp) (x y r : Operand) :
    Quad.sources { op := op.opcode, arg1 := x, arg2 := y, res := r } = [x, y] := by cases op <;> rfl

theorem BinaryOp.targets_opcode (op : BinaryOp) (x y r : Operand) :
    Quad.targets { op := op.opcode, arg1 := x, arg2 := y, res := r } = [r] := by cases op <;> rfl

theorem UnaryOp.sources_opcode (op : UnaryOp) (x r : Operand) :
    Quad.sources { op := op.opcode, arg1 := x, res := r } = [x] := by cases op <;> rfl

theorem UnaryOp.targets_opcode (op : UnaryOp) (x r : Operand) :
    Quad.targets { op := op.opcode, arg1 := x, res := r } = [r] := by cases op <;> rfl

end

/-! ## Expressions -/

section

variable {names : Names} {outer inner : List Placement}
  {fs : List (Callee × List Param)}

/-- A cell of a temporary that was just taken is filled by the instruction that it was taken for. -/
theorem Names.Ready.fills (hready : names.Ready outer inner fs m) {ty : Ty} {a : Addr}
    (ha : m.alloc ty .temps 1 = .ok (a, m')) (hop : q.op.stores = true) (hres : q.res = .cell a) :
    q.Fills a :=
  ⟨hop, hres, ty, hready.temporary ha⟩

/-- Behind its code the value of an expression can be found. -/
theorem ExprCode.supplies {e : Expr} {x : TypedOperand} {m m' : Memory} {code : List Quad} :
    ExprCode names e m x code m' → names.Ready outer inner fs m → Supplies m' code x.operand
  | .constant (a := a) hi, hready => by
    obtain ⟨hvalid, hext, -, ⟨c, hc, rfl, rfl, -⟩, -⟩ := hready.valid.intern hi
    have hholds := (hready.mono hext hvalid).holds (hvalid.constants c hc)
    constructor
    · rintro b ⟨rfl, hkind | ⟨-, ty', hb⟩⟩
      · cases hkind
      · rw [Operand.word_cell] at hb
        exact absurd (Layout.standard_holds_inj hholds hb).1 (by simp)
    · intro _ _ _
      rw [Operand.word_cell]
      exact ⟨c, hc, rfl⟩
  | .group he, hready => he.supplies hready
  | @ExprCode.call _ _ _ f a _ _ _ _ _ hargs _ ha, hready => by
    have hfill : (copyQuad (.cell f.address) (.cell a)).Fills a :=
      (hargs.ready hready).fills ha rfl rfl
    exact supplies_filled (List.mem_append_right _ (by simp)) hfill
  | .variable hreach hkind _ _, hready => by
    obtain ⟨segment, hsegment, -, hin⟩ := hready.reach hreach hkind
    refine supplies_cell (hready.holds hin.first) ?_ ?_
    · rcases hsegment with rfl | ⟨rfl, -⟩ <;> simp
    · rcases hsegment with rfl | ⟨rfl, -⟩ <;> simp
  | .element _ _ _ _ his ha, hready => by
    exact supplies_pointer (List.mem_append_right _ (List.mem_singleton_self _))
      ((his.ready hready).fills ha rfl rfl)
  | .unary he _ ha, hready => by
    exact supplies_filled (List.mem_append_right _ (List.mem_singleton_self _))
      ((he.ready hready).fills ha (UnaryOp.opcode_stores _) rfl)
  | .binary hl hr _ ha, hready => by
    exact supplies_filled (List.mem_append_right _ (List.mem_singleton_self _))
      ((hr.ready (hl.ready hready)).fills ha (BinaryOp.opcode_stores _) rfl)

mutual

theorem ExprCode.closed {e : Expr} {x : TypedOperand} {m m' : Memory} {code : List Quad} :
    ExprCode names e m x code m' → names.Ready outer inner fs m → Closed m' code
  | .constant _, _ => closed_nil _
  | .group he, hready => he.closed hready
  | @ExprCode.call _ _ _ f a code m m₁ m' hname hargs _ ha, hready => by
    have hready₁ := hargs.ready hready
    have hext := (hready₁.valid.alloc ha).extends
    have hcall : Closed m₁ (f.era :: code ++ [f.gosub]) := (hargs.closed hready).call f
    have hslot := hready.holds (hready.functions _ (hready.sound.called hname)).slot
    rw [f.append_result]
    refine (hcall.mono hext).concat ?_ ?_
    · intro o ho
      obtain rfl := List.mem_singleton.1 ho
      exact supplies_cell hslot (by simp) (by simp)
    · intro o ho hkind
      obtain rfl := List.mem_singleton.1 ho
      cases hkind
  | .variable _ _ _ _, _ => closed_nil _
  | .element _ _ _ _ his ha, hready => by
    have hext := ((his.ready hready).valid.alloc ha).extends
    exact ((his.closed hready).mono hext).plain rfl rfl
  | .unary he _ ha, hready => by
    have hext := ((he.ready hready).valid.alloc ha).extends
    refine ((he.closed hready).mono hext).concat ?_ ?_
    · intro o ho
      rw [UnaryOp.sources_opcode] at ho
      obtain rfl := List.mem_singleton.1 ho
      exact (he.supplies hready).mono hext fun _ hq => hq
    · intro o ho hkind
      rw [UnaryOp.targets_opcode] at ho
      obtain rfl := List.mem_singleton.1 ho
      cases hkind
  | .binary hl hr _ ha, hready => by
    have hready₁ := hl.ready hready
    have hready₂ := hr.ready hready₁
    have hext := (hready₂.valid.alloc ha).extends
    have hext₁ := (hr.grows hready₁).memory
    refine ((((hl.closed hready).mono hext₁).append (hr.closed hready₁)).mono hext).concat ?_ ?_
    · intro o ho
      rw [BinaryOp.sources_opcode] at ho
      rcases List.mem_cons.1 ho with rfl | ho
      · exact (hl.supplies hready).mono (hext₁.trans hext) fun _ hq => List.mem_append_left _ hq
      · obtain rfl := List.mem_singleton.1 ho
        exact (hr.supplies hready₁).mono hext fun _ hq => List.mem_append_right _ hq
    · intro o ho hkind
      rw [BinaryOp.targets_opcode] at ho
      obtain rfl := List.mem_singleton.1 ho
      cases hkind

theorem ArgsCode.closed {ps : List Param} {es : List Expr} {m m' : Memory} {code : List Quad} :
    ArgsCode names ps es m code m' → names.Ready outer inner fs m → Closed m' code
  | .nil, _ => closed_nil _
  | .cons he _ hes, hready => by
    have hready₁ := he.ready hready
    have hext := (hes.grows hready₁).memory
    rw [List.append_cons]
    refine Closed.append (Closed.mono ?_ hext) (hes.closed hready₁)
    exact (he.closed hready).consumes (he.supplies hready) rfl rfl

theorem IndicesCode.closed {ds : List Dim} {es : List Expr} {m m' : Memory} {code : List Quad} :
    IndicesCode names ds es m code m' → names.Ready outer inner fs m → Closed m' code
  | .nil, _ => closed_nil _
  | .cons he _ hes, hready => by
    have hready₁ := he.ready hready
    have hext := (hes.grows hready₁).memory
    rw [List.append_cons]
    refine Closed.append (Closed.mono ?_ hext) (hes.closed hready₁)
    exact (he.closed hready).consumes (he.supplies hready) rfl rfl

end

end

/-! ## Statements -/

section

variable {names : Names} {outer inner : List Placement}
  {fs : List (Callee × List Param)} {function : Option Callee}

theorem UsesCode.closed {use : Operand → Quad} (h : UsesCode names use es m code m')
    (hready : names.Ready outer inner fs m)
    (hsources : ∀ x, ∀ o ∈ (use x).sources, o = x) (htargets : ∀ x, ∀ o ∈ (use x).targets, o = x) :
    Closed m' code ∧ m.Extends m' := by
  induction h with
  | nil => exact ⟨closed_nil _, .refl _⟩
  | @cons e es x code code' m m₁ m' he _ _ ih =>
    have hgrowth := he.grows hready
    have hsupplies := he.supplies hready
    obtain ⟨hrest, hext⟩ := ih (he.ready hready)
    rw [List.append_cons]
    refine ⟨Closed.append (Closed.mono ?_ hext) hrest, hgrowth.memory.trans hext⟩
    refine (he.closed hready).concat ?_ ?_
    · intro o ho
      rw [hsources _ o ho]
      exact hsupplies
    · intro o ho _
      rw [htargets _ o ho]
      exact hsupplies

/-- A condition, the instruction that skips what depends on it, and what depends on it. -/
theorem ExprCode.closed_guard {c : Expr} {x : TypedOperand} {m₁ : Memory} {code' : List Quad}
    (h : ExprCode names c m x code m₁) (hready : names.Ready outer inner fs m)
    (hm : m₁.Extends m') (hbody : Closed m' code')
    {target : Nat} : Closed m' (code ++ skipQuad x.operand target :: code') := by
  have hskip : Closed m₁ (code ++ [skipQuad x.operand target]) :=
    (h.closed hready).consumes (h.supplies hready) rfl rfl
  rw [List.append_cons]
  exact (hskip.mono hm).append hbody

mutual

theorem StmtCode.closed {base : Nat} {s : Stmt} {m m' : Memory} {code : List Quad} :
    StmtCode names function base s m code m' → names.Ready outer inner fs m → Closed m' code
  | .assign hx hy _, hready => by
    have hready₁ := hx.ready hready
    have hext := (hy.grows hready₁).memory
    refine (((hx.closed hready).mono hext).append (hy.closed hready₁)).concat ?_ ?_
    · intro o ho
      obtain rfl := List.mem_singleton.1 ho
      exact (hy.supplies hready₁).mono (.refl _) fun _ hq => List.mem_append_right _ hq
    · intro o ho _
      obtain rfl := List.mem_singleton.1 ho
      exact (hx.supplies hready).mono hext fun _ hq => List.mem_append_left _ hq
  | .call _ hargs, hready => (hargs.closed hready).call _
  | .read huses, hready =>
    (huses.closed hready (by simp [readQuad, Quad.sources]) (by simp [readQuad, Quad.targets])).1
  | .write huses, hready =>
    (huses.closed hready (by simp [writeQuad, Quad.sources]) (by simp [writeQuad, Quad.targets])).1
  | .retNone _ _, _ => closed_return _ _
  | .retSome _ hx _ _, hready => (hx.closed hready).consumes (hx.supplies hready) rfl rfl
  | .branch hc _ hbody, hready => by
    have hready₁ := hc.ready hready
    exact hc.closed_guard hready (hbody.grows hready₁).memory (hbody.closed hready₁)
  | .branchElse hc _ hbody hother, hready => by
    have hready₁ := hc.ready hready
    have hgrowth := hbody.grows hready₁
    have hready₂ := hgrowth.ready hready₁
    rw [List.append_cons]
    refine .append (.mono (.plain ?_ rfl rfl) (hother.grows hready₂).memory)
      (hother.closed hready₂)
    exact hc.closed_guard hready hgrowth.memory (hbody.closed hready₁)
  | .loop hc _ hbody, hready => by
    have hready₁ := hc.ready hready
    exact (hc.closed_guard hready (hbody.grows hready₁).memory
      (hbody.closed hready₁)).plain rfl rfl

theorem StmtsCode.closed {base : Nat} {ss : List Stmt} {m m' : Memory} {code : List Quad} :
    StmtsCode names function base ss m code m' →
    names.Ready outer inner fs m → Closed m' code
  | .nil, _ => closed_nil _
  | .cons hs hss, hready => by
    have hgrowth := hs.grows hready
    have hready₁ := hgrowth.ready hready
    exact ((hs.closed hready).mono (hss.grows hready₁).memory).append
      (hss.closed hready₁)

end

end

end Quadlang
