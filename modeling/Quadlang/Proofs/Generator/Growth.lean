-- What generating code does to memory: every intermediate value gets a temporary that no
-- other instruction fills, constants are put in, and nothing that was taken is given up.
import Quadlang.Proofs.Generator.Code
import Quadlang.Proofs.Generator.Reach
import Quadlang.Proofs.Source.Literals

namespace Quadlang

open Source

variable {m m' : Memory} {a : Addr} {ty : Ty} {segment : Segment} {code : List Quad}
  {x : TypedOperand} {p : Place} {e : Expr} {ps : List Param} {ds : List Dim} {s : Stmt}
  {ss : List Stmt}

/-! ## Temporaries -/

/-- Whether an instruction writes the cell of its result. -/
def Opcode.stores : Opcode → Bool
  | .arith _ | .compare _ | .logic _ | .not | .neg | .assign | .read | .addDim => true
  | _ => false

theorem BinaryOp.opcode_stores (op : BinaryOp) : op.opcode.stores = true := by cases op <;> rfl

theorem UnaryOp.opcode_stores (op : UnaryOp) : op.opcode.stores = true := by cases op <;> rfl

/-- The instruction writes a cell by its address. -/
def Quad.Stores (q : Quad) (a : Addr) : Prop := q.op.stores = true ∧ q.res = .cell a

/-- The instruction writes one of some cells by its address. -/
def Quad.FillsIn (T : Addr → Prop) (q : Quad) (a : Addr) : Prop :=
  q.op.stores = true ∧ q.res = .cell a ∧ T a

/-- The cell is that of a temporary. -/
abbrev IsTemporary (a : Addr) : Prop := ∃ ty, Layout.standard.Holds .temps ty a

/-- The instruction writes a temporary by its address. -/
abbrev Quad.Fills (q : Quad) (a : Addr) : Prop := q.FillsIn IsTemporary a

theorem Operand.cell_inj {b : Addr} (h : Operand.cell a = .cell b) : a = b := by
  have := congrArg Operand.word h
  simpa using this

/-- What code takes of a memory. Of some cells it fills only new temporaries, each of them once.
Constants keep any property that the literals have. -/
structure Growth (T : Addr → Prop) (P : Ty → Value → Prop) (m : Memory) (code : List Quad)
    (m' : Memory) : Prop where
  valid : m'.Valid
  memory : m.Extends m'
  constants : (∀ c ∈ m.constants, P c.ty c.value) → ∀ c ∈ m'.constants, P c.ty c.value
  once : code.Pairwise fun q q' => ∀ a, q.FillsIn T a → ¬ q'.FillsIn T a
  new : ∀ q ∈ code, ∀ a, q.FillsIn T a → ∀ ty, ¬ m.Taken .temps ty a
  taken : ∀ q ∈ code, ∀ a, q.FillsIn T a → ∃ ty, m'.Taken .temps ty a
  stays : ∀ q ∈ code, q.op ≠ .endFunction

namespace Growth

variable {T : Addr → Prop} {P : Ty → Value → Prop} {m m₁ m' : Memory} {code code' : List Quad}
  {q : Quad}

theorem nil (hv : m.Valid) : Growth T P m [] m :=
  ⟨hv, .refl m, id, .nil, by simp, by simp, by simp⟩

theorem append (h : Growth T P m code m₁) (h' : Growth T P m₁ code' m') :
    Growth T P m (code ++ code') m' where
  valid := h'.valid
  memory := h.memory.trans h'.memory
  constants := fun hP => h'.constants (h.constants hP)
  once := by
    refine List.pairwise_append.2 ⟨h.once, h'.once, ?_⟩
    intro q hq q' hq' a hfill hfill'
    obtain ⟨ty, htaken⟩ := h.taken q hq a hfill
    exact h'.new q' hq' a hfill' ty htaken
  new := by
    intro q hq a hfill ty htaken
    rcases List.mem_append.1 hq with hq | hq
    · exact h.new q hq a hfill ty htaken
    · exact h'.new q hq a hfill ty (h.memory.taken htaken)
  taken := by
    intro q hq a hfill
    rcases List.mem_append.1 hq with hq | hq
    · obtain ⟨ty, htaken⟩ := h.taken q hq a hfill
      exact ⟨ty, h'.memory.taken htaken⟩
    · exact h'.taken q hq a hfill
  stays := by
    intro q hq
    rcases List.mem_append.1 hq with hq | hq
    · exact h.stays q hq
    · exact h'.stays q hq

theorem plain (hv : m.Valid) (hfills : ∀ a, ¬ q.FillsIn T a) (hstays : q.op ≠ .endFunction) :
    Growth T P m [q] m where
  valid := hv
  memory := .refl m
  constants := id
  once := List.pairwise_singleton ..
  new := by
    intro q' hq' a hfill
    obtain rfl := List.mem_singleton.1 hq'
    exact absurd hfill (hfills a)
  taken := by
    intro q' hq' a hfill
    obtain rfl := List.mem_singleton.1 hq'
    exact absurd hfill (hfills a)
  stays := by
    intro q' hq'
    obtain rfl := List.mem_singleton.1 hq'
    exact hstays

/-- An instruction that writes no cell of its own call. -/
theorem passive (hv : m.Valid) (hstores : q.op.stores = false) (hstays : q.op ≠ .endFunction) :
    Growth T P m [q] m := by
  refine plain hv ?_ hstays
  intro a hfill
  rw [hfill.1] at hstores
  cases hstores

/-- An instruction with a temporary of its own. -/
theorem fill (hv : m.Valid) (ha : m.alloc ty .temps 1 = .ok (a, m')) (hres : q.res = .cell a)
    (hstays : q.op ≠ .endFunction) : Growth T P m [q] m' := by
  have halloc := hv.alloc ha
  refine ⟨halloc.valid, halloc.extends, ?_, List.pairwise_singleton .., ?_, ?_, ?_⟩
  · rw [halloc.constants]
    exact id
  · intro q' hq' b hfill ty' htaken
    obtain rfl := List.mem_singleton.1 hq'
    obtain rfl := Operand.cell_inj (hres.symm.trans hfill.2.1)
    have hholds := hv.holds_of_taken htaken
    obtain ⟨-, rfl⟩ := hv.disjoint.holds_inj hholds (halloc.holds halloc.first)
    exact halloc.fresh halloc.first htaken
  · intro q' hq' b hfill
    obtain rfl := List.mem_singleton.1 hq'
    obtain rfl := Operand.cell_inj (hres.symm.trans hfill.2.1)
    exact ⟨ty, halloc.taken.2 (.inr ⟨rfl, rfl, halloc.first⟩)⟩
  · intro q' hq'
    obtain rfl := List.mem_singleton.1 hq'
    exact hstays

theorem intern {v : Value} (hv : m.Valid) (h : m.intern ty v = .ok (a, m')) (hP : P ty v) :
    Growth T P m [] m' := by
  obtain ⟨hvalid, hext, -, -, hconstants⟩ := hv.intern h
  refine ⟨hvalid, hext, ?_, .nil, by simp, by simp, by simp⟩
  intro hall c hc
  rcases hconstants c hc with hc | rfl
  · exact hall c hc
  · exact hP

end Growth

/-! ## Expressions -/

section Expressions

variable {T : Addr → Prop} {P : Ty → Value → Prop} {names : Names}

theorem BinaryOp.opcode_ne_endFunction (op : BinaryOp) : op.opcode ≠ .endFunction := by
  cases op <;> simp [BinaryOp.opcode]

theorem UnaryOp.opcode_ne_endFunction (op : UnaryOp) : op.opcode ≠ .endFunction := by
  cases op <;> simp [UnaryOp.opcode]

mutual

theorem ExprCode.growth {e : Expr} {x : TypedOperand} {m m' : Memory} {code : List Quad} :
    ExprCode names e m x code m' → m.Valid → e.Literals (fun ty v => P ty (v.convert ty)) →
    Growth T P m code m'
  | .constant hi, hv, hlit => by
    exact .intern hv hi hlit
  | .group he, hv, hlit => by
    exact he.growth hv hlit
  | .call (f := f) (a := a) _ hargs _ ha, hv, hlit => by
    have hera : Growth T P m [f.era] m := .passive hv rfl (by simp [Callee.era])
    have h := hera.append (hargs.growth hv hlit)
    have hgosub : Growth T P _ [f.gosub] _ := .passive h.valid rfl (by simp [Callee.gosub])
    have hcopy : Growth T P _ [copyQuad (.cell f.address) (.cell a)] _ :=
      .fill h.valid ha rfl (by simp [copyQuad])
    simpa using (h.append hgosub).append hcopy
  | .variable _ _ _ _, hv, _ => .nil hv
  | .element _ _ _ _ his ha, hv, hlit => by
    have hindices := his.growth hv hlit
    exact hindices.append (.fill hindices.valid ha rfl (by simp [elementQuad]))
  | .unary he _ ha, hv, hlit => by
    have h := he.growth hv hlit
    exact h.append (.fill h.valid ha rfl (UnaryOp.opcode_ne_endFunction _))
  | .binary hl hr _ ha, hv, hlit => by
    have h := hl.growth hv hlit.1
    have h' := h.append (hr.growth h.valid hlit.2)
    exact h'.append (.fill h'.valid ha rfl (BinaryOp.opcode_ne_endFunction _))

theorem ArgsCode.growth {ps : List Param} {es : List Expr} {m m' : Memory} {code : List Quad} :
    ArgsCode names ps es m code m' → m.Valid →
    Expr.allLiterals (fun ty v => P ty (v.convert ty)) es → Growth T P m code m'
  | .nil, hv, _ => .nil hv
  | .cons he _ hes, hv, hlit => by
    have h := he.growth hv hlit.1
    exact h.append (Growth.append (.passive h.valid rfl (by simp [Param.bind]))
      (hes.growth h.valid hlit.2))

theorem IndicesCode.growth {ds : List Dim} {es : List Expr} {m m' : Memory} {code : List Quad} :
    IndicesCode names ds es m code m' → m.Valid →
    Expr.allLiterals (fun ty v => P ty (v.convert ty)) es → Growth T P m code m'
  | .nil, hv, _ => .nil hv
  | .cons he _ hes, hv, hlit => by
    have h := he.growth hv hlit.1
    exact h.append (Growth.append (.passive h.valid rfl (by simp [Dim.check]))
      (hes.growth h.valid hlit.2))

end

end Expressions

/-! ## Names in use -/

/-- The names of a body lead to variables and functions that have their place in memory. -/
structure Names.Ready (names : Names) (outer inner : List Placement)
    (fs : List (Callee × List Param)) (m : Memory) : Prop where
  sound : names.Sound outer inner fs
  outer : ∀ p ∈ outer, p.Shaped ∧ p.In .locals m
  inner : ∀ p ∈ inner, p.Shaped ∧ p.In .functions m
  functions : ∀ f ∈ fs, FunctionPlaced m f
  valid : m.Valid
  layout : m.layout = Layout.standard

section Ready

variable {names : Names} {outer inner : List Placement} {fs : List (Callee × List Param)}
  {m m' : Memory}

section

variable (h : names.Ready outer inner fs m)

include h

theorem Names.Ready.mono (hm : m.Extends m') (hv : m'.Valid) : names.Ready outer inner fs m' :=
  ⟨h.sound, fun p hp => ⟨(h.outer p hp).1, (h.outer p hp).2.mono hm⟩,
    fun p hp => ⟨(h.inner p hp).1, (h.inner p hp).2.mono hm⟩,
    fun f hf => (h.functions f hf).mono hm, hv, hm.layout.trans h.layout⟩

/-- What memory has taken stands in the ranges of the layout. -/
theorem Names.Ready.holds (ht : m.Taken segment ty a) : Layout.standard.Holds segment ty a := by
  rw [← h.layout]
  exact h.valid.holds_of_taken ht

theorem Names.Ready.temporary (ha : m.alloc ty .temps 1 = .ok (a, m')) :
    Layout.standard.Holds .temps ty a := by
  have halloc := h.valid.alloc ha
  rw [← h.layout]
  exact halloc.holds halloc.first

/-- A name reaches a variable of the program, or one of the function. -/
theorem Names.Ready.reach {name : Bytes} {members : List Bytes}
    {sym : Symbol} (hreach : names.reach? name members = some sym)
    (hkind : sym.kind = .variable (some a)) :
    ∃ segment, (segment = .locals ∨ segment = .functions ∧ inner ≠ []) ∧
      (⟨name :: members, sym.ty, sym.dims, a⟩ : Placement).Shaped ∧
      (⟨name :: members, sym.ty, sym.dims, a⟩ : Placement).In segment m := by
  rcases h.sound.stored hreach hkind with hp | hp
  · exact ⟨.locals, .inl rfl, h.outer _ hp⟩
  · exact ⟨.functions, .inr ⟨rfl, List.ne_nil_of_mem hp⟩, h.inner _ hp⟩

end

theorem Placement.In.first {p : Placement} (h : p.In segment m) :
    m.Taken segment p.ty p.address := by
  have := h.1
  exact h.2 p.address ⟨Int.le_refl _, by omega⟩

end Ready

/-! ## Statements -/

section Statements

variable {P : Ty → Value → Prop} {names : Names} {outer inner : List Placement}
  {fs : List (Callee × List Param)} {function : Option Callee}

theorem Layout.standard_holds_inj {segment' : Segment} {ty' : Ty}
    (h : Layout.standard.Holds segment ty a) (h' : Layout.standard.Holds segment' ty' a) :
    segment = segment' ∧ ty = ty' := Layout.standard_disjoint.holds_inj h h'

section

variable (hready : names.Ready outer inner fs m) (h : ExprCode names p.expr m x code m')
  (ha : x.operand = .cell a)

include hready h ha

/-- What a program names by a cell is a variable. -/
theorem ExprCode.place_holds :
    ∃ segment ty, (segment = .locals ∨ segment = .functions) ∧
      Layout.standard.Holds segment ty a := by
  obtain ⟨name, members, indices⟩ := p
  cases h with
  | «variable» hreach hkind _ _ =>
    obtain rfl := Operand.cell_inj ha
    obtain ⟨segment, hsegment, -, hin⟩ := hready.reach hreach hkind
    exact ⟨segment, _, hsegment.imp_right And.left, hready.holds hin.first⟩
  | element => simp [Operand.pointer, Operand.cell] at ha

/-- What a program names is no temporary. -/
theorem ExprCode.place_not_temp : ¬ Layout.standard.Holds .temps ty a := by
  intro hholds
  obtain ⟨segment, ty', hsegment, hplace⟩ := h.place_holds hready ha
  obtain ⟨rfl, -⟩ := Layout.standard_holds_inj hholds hplace
  simp at hsegment

end

theorem UsesCode.growth {use : Operand → Quad} {es : List Expr}
    (h : UsesCode names use es m code m') (hready : names.Ready outer inner fs m)
    (huse : ∀ {m x code m'}, names.Ready outer inner fs m → ∀ e ∈ es, ExprCode names e m x code m' →
      ∀ a, ¬ (use x.operand).Fills a)
    (hop : ∀ o, (use o).op ≠ .endFunction)
    (hlit : Expr.allLiterals (fun ty v => P ty (v.convert ty)) es) :
    Growth IsTemporary P m code m' := by
  induction h with
  | nil => exact .nil hready.valid
  | @cons e es x code code' m m₁ m' he hty _ ih =>
    have h := he.growth (T := IsTemporary) hready.valid hlit.1
    have hq : Growth IsTemporary P m₁ [use x.operand] m₁ :=
      .plain h.valid (huse hready e (List.mem_cons_self ..) he) (hop _)
    refine h.append (hq.append (ih (hready.mono h.memory h.valid) ?_ hlit.2))
    intro m x code m' hready e he
    exact huse hready e (List.mem_cons_of_mem _ he)

theorem readQuad_fills {x : Operand} (h : (readQuad x).Fills a) :
    x = .cell a ∧ ∃ ty, Layout.standard.Holds .temps ty a := h.2

mutual

/-- The code of a statement fills temporaries of its own only. -/
theorem StmtCode.growth {base : Nat} {s : Stmt} {m m' : Memory} {code : List Quad} :
    StmtCode names function base s m code m' → names.Ready outer inner fs m →
    s.Literals (fun ty v => P ty (v.convert ty)) → Growth IsTemporary P m code m'
  | .assign (x := x) (y := y) hx hy _, hready, hlit => by
    have h := hx.growth (T := IsTemporary) hready.valid hlit.1
    have h' := h.append (hy.growth h.valid hlit.2)
    have hcopy : Growth IsTemporary P m' [copyQuad y.operand x.operand] m' := by
      refine .plain h'.valid ?_ (by simp [copyQuad])
      rintro a ⟨-, hres, ty, hholds⟩
      exact hx.place_not_temp hready hres hholds
    exact h'.append hcopy
  | .call (f := f) _ hargs, hready, hlit => by
    have hera : Growth IsTemporary P m [f.era] m := .passive hready.valid rfl (by simp [Callee.era])
    have h := hera.append (hargs.growth hready.valid hlit)
    have hgosub : Growth IsTemporary P _ [f.gosub] _ :=
      .passive h.valid rfl (by simp [Callee.gosub])
    simpa using h.append hgosub
  | .read huses, hready, hlit => by
    refine huses.growth hready ?_ (by simp [readQuad]) hlit
    intro m x code m' hready e he hcode a hfill
    obtain ⟨p, -, rfl⟩ := List.mem_map.1 he
    obtain ⟨hres, ty, hholds⟩ := readQuad_fills hfill
    exact hcode.place_not_temp hready hres hholds
  | .write huses, hready, hlit => by
    refine huses.growth hready ?_ (by simp [writeQuad]) hlit
    intro m x code m' _ e _ _ a hfill
    cases hfill.1
  | .retNone _ _, hready, _ => .passive hready.valid rfl (by simp)
  | .retSome _ hx _ _, hready, hlit => by
    have h := hx.growth (T := IsTemporary) hready.valid hlit
    exact h.append (.passive h.valid rfl (by simp))
  | .branch (x := x) hc _ hbody, hready, hlit => by
    have h := hc.growth (T := IsTemporary) hready.valid hlit.1
    have hskip : ∀ target, Growth IsTemporary P _ [skipQuad x.operand target] _ := fun target =>
      .passive h.valid rfl (by simp [skipQuad])
    exact h.append ((hskip _).append (hbody.growth (hready.mono h.memory h.valid) hlit.2))
  | .branchElse (x := x) hc _ hbody hother, hready, hlit => by
    have h := hc.growth (T := IsTemporary) hready.valid hlit.1
    have hskip : ∀ target, Growth IsTemporary P _ [skipQuad x.operand target] _ := fun target =>
      .passive h.valid rfl (by simp [skipQuad])
    have hready₁ := hready.mono h.memory h.valid
    have h₁ := hbody.growth hready₁ hlit.2.1
    have hjump : ∀ target, Growth IsTemporary P _ [jumpQuad target] _ := fun target =>
      .passive h₁.valid rfl (by simp [jumpQuad])
    have h₂ := hother.growth (hready₁.mono h₁.memory h₁.valid) hlit.2.2
    simpa using h.append ((hskip _).append (h₁.append ((hjump _).append h₂)))
  | .loop (x := x) hc _ hbody, hready, hlit => by
    have h := hc.growth (T := IsTemporary) hready.valid hlit.1
    have hskip : ∀ target, Growth IsTemporary P _ [skipQuad x.operand target] _ := fun target =>
      .passive h.valid rfl (by simp [skipQuad])
    have h₁ := hbody.growth (hready.mono h.memory h.valid) hlit.2
    have hjump : ∀ target, Growth IsTemporary P _ [jumpQuad target] _ := fun target =>
      .passive h₁.valid rfl (by simp [jumpQuad])
    simpa using h.append ((hskip _).append (h₁.append (hjump _)))

theorem StmtsCode.growth {base : Nat} {ss : List Stmt} {m m' : Memory} {code : List Quad} :
    StmtsCode names function base ss m code m' →
    names.Ready outer inner fs m → Stmt.allLiterals (fun ty v => P ty (v.convert ty)) ss →
    Growth IsTemporary P m code m'
  | .nil, hready, _ => .nil hready.valid
  | .cons hs hss, hready, hlit => by
    have h := hs.growth hready hlit.1
    exact h.append (hss.growth (hready.mono h.memory h.valid) hlit.2)

end

end Statements

/-! ## Behind code -/

theorem Callee.append_result (f : Callee) (code : List Quad) (q : Quad) :
    f.era :: code ++ [f.gosub, q] = (f.era :: code ++ [f.gosub]) ++ [q] := by simp

section Behind

variable {names : Names} {outer inner : List Placement} {fs : List (Callee × List Param)}
  {function : Option Callee} {base : Nat} {es : List Expr}

theorem Growth.ready {P : Ty → Value → Prop} (h : Growth IsTemporary P m code m')
    (hready : names.Ready outer inner fs m) : names.Ready outer inner fs m' :=
  hready.mono h.memory h.valid

theorem ExprCode.grows (h : ExprCode names e m x code m') (hready : names.Ready outer inner fs m) :
    Growth IsTemporary (fun _ _ => True) m code m' :=
  h.growth hready.valid e.literals_true

theorem ExprCode.ready (h : ExprCode names e m x code m') (hready : names.Ready outer inner fs m) :
    names.Ready outer inner fs m' :=
  (h.grows hready).ready hready

theorem ArgsCode.grows (h : ArgsCode names ps es m code m')
    (hready : names.Ready outer inner fs m) :
    Growth IsTemporary (fun _ _ => True) m code m' :=
  h.growth hready.valid (Expr.allLiterals_true es)

theorem ArgsCode.ready (h : ArgsCode names ps es m code m')
    (hready : names.Ready outer inner fs m) :
    names.Ready outer inner fs m' :=
  (h.grows hready).ready hready

theorem IndicesCode.grows (h : IndicesCode names ds es m code m')
    (hready : names.Ready outer inner fs m) :
    Growth IsTemporary (fun _ _ => True) m code m' :=
  h.growth hready.valid (Expr.allLiterals_true es)

theorem IndicesCode.ready (h : IndicesCode names ds es m code m')
    (hready : names.Ready outer inner fs m) :
    names.Ready outer inner fs m' :=
  (h.grows hready).ready hready

section

variable (h : StmtCode names function base s m code m') (hready : names.Ready outer inner fs m)

include h hready

theorem StmtCode.grows : Growth IsTemporary (fun _ _ => True) m code m' :=
  h.growth hready s.literals_true

theorem StmtCode.ready : names.Ready outer inner fs m' :=
  (h.grows hready).ready hready

end

section

variable (h : StmtsCode names function base ss m code m') (hready : names.Ready outer inner fs m)

include h hready

theorem StmtsCode.grows : Growth IsTemporary (fun _ _ => True) m code m' :=
  h.growth hready (Stmt.allLiterals_true ss)

theorem StmtsCode.ready : names.Ready outer inner fs m' :=
  (h.grows hready).ready hready

end

end Behind

end Quadlang
