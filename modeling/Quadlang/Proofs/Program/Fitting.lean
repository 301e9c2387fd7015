-- The code of trees fits its place: expressions leave nothing under way behind them, jumps land
-- between statements, and every operand stands for a value of the type that is wanted.
import Quadlang.Proofs.Program.Chart

namespace Quadlang

open Source

variable {m m' : Memory} {base target : Nat} {x : TypedOperand} {code : List Quad}
  {use : Operand → Quad} {es : List Expr} {function : Option Callee} {c : Expr}

variable {names : Names} {outer inner : List Placement}
  {fs : List (Callee × List Param)} {quads : List Quad} {o : Option Addr}

/-! ## Operands -/

theorem ExprCode.denotes {e : Expr} {x : TypedOperand} {m m' : Memory} {code : List Quad} :
    ExprCode names e m x code m' → names.Ready outer inner fs m → (∀ q ∈ code, q ∈ quads) →
    (inner ≠ [] → o.isSome = true) → x.operand.Denotes quads o x.ty
  | .constant hi, hready, _, _ => by
    obtain ⟨hvalid, hext, -, ⟨c, hc, rfl, rfl, -⟩, -⟩ := hready.valid.intern hi
    have hholds := (hready.mono hext hvalid).holds (hvalid.constants c hc)
    exact .cell hholds (by simp) (by simp)
  | .group he, hready, hmem, hinner => he.denotes hready hmem hinner
  | .call _ hargs _ ha, hready, _, _ =>
    .cell ((hargs.ready hready).temporary ha) (by simp) (by simp)
  | .variable hreach hkind _ _, hready, _, hinner => by
    obtain ⟨segment, hsegment, -, hin⟩ := hready.reach hreach hkind
    refine .cell (hready.holds hin.first) ?_ ?_
    · rcases hsegment with rfl | ⟨rfl, -⟩ <;> simp
    · rcases hsegment with rfl | ⟨rfl, h⟩
      · simp
      · exact fun _ => hinner h
  | .element hreach hkind _ _ _ _, hready, hmem, hinner => by
    obtain ⟨segment, hsegment, -, hin⟩ := hready.reach hreach hkind
    have hquad := hmem _ (List.mem_append_right _ (List.mem_singleton_self _))
    exact .pointer hquad (hready.holds hin.first) (hsegment.imp_right fun h => ⟨h.1, hinner h.2⟩)
  | .unary he _ ha, hready, _, _ =>
    .cell ((he.ready hready).temporary ha) (by simp) (by simp)
  | .binary hl hr _ ha, hready, _, _ =>
    .cell ((hr.ready (hl.ready hready)).temporary ha) (by simp) (by simp)

/-- What stands for a value is no return slot. -/
theorem Operand.Denotes.not_slot {x : Operand} {ty : Ty} (h : x.Denotes quads o ty) {a : Addr}
    (ha : x = .cell a) {t : Ty} : ¬ Layout.standard.Holds .stack t a := by
  intro hholds
  cases h with
  | cell h hne _ =>
    obtain rfl := Operand.cell_inj ha
    exact hne (Layout.standard_holds_inj h hholds).1
  | pointer => simp [Operand.pointer, Operand.cell] at ha

/-- What a program names is no constant. -/
theorem ExprCode.place_not_constant {p : Place} (hready : names.Ready outer inner fs m)
    (h : ExprCode names p.expr m x code m') : x.operand.NotConstant := by
  intro a ty ha hholds
  obtain ⟨segment, ty', hsegment, hplace⟩ := h.place_holds hready ha
  obtain ⟨rfl, -⟩ := Layout.standard_holds_inj hholds hplace
  simp at hsegment

/-! ## What is under way -/

theorem Standing.after_binary (s : Standing) (op : BinaryOp) (x y r : Operand) :
    s.after { op := op.opcode, arg1 := x, arg2 := y, res := r } = s := by cases op <;> rfl

theorem Standing.after_unary (s : Standing) (op : UnaryOp) (x r : Operand) :
    s.after { op := op.opcode, arg1 := x, res := r } = s := by cases op <;> rfl

/-- What is under way with one standing is under way with another. -/
def Standing.Under (s s' : Standing) : Prop := s.calls <:+ s'.calls ∧ s.dims <:+ s'.dims

theorem Standing.under_refl (s : Standing) : s.Under s := ⟨List.suffix_refl _, List.suffix_refl _⟩

/-- Code leads from one standing to another, and what a third one has under way is so all the
time. -/
structure Standing.Leads (b s s' : Standing) (code : List Quad) : Prop where
  last : code.foldl Standing.after s = s'
  under : ∀ k, b.Under ((code.take k).foldl Standing.after s)

namespace Standing

variable {b b' s s' s'' : Standing} {code' : List Quad} {q : Quad}

theorem Leads.nil (h : b.Under s) : b.Leads s s [] :=
  ⟨rfl, fun k => by rw [List.take_nil]; exact h⟩

theorem Leads.cons (hs : b.Under s) (h : b.Leads (s.after q) s' code) :
    b.Leads s s' (q :: code) := by
  refine ⟨h.last, fun k => ?_⟩
  cases k with
  | zero => exact hs
  | succ k => exact h.under k

theorem Leads.append (h : b.Leads s s' code) (h' : b.Leads s' s'' code') :
    b.Leads s s'' (code ++ code') := by
  refine ⟨by rw [List.foldl_append, h.last, h'.last], fun k => ?_⟩
  rw [List.take_append, List.foldl_append]
  by_cases hk : k ≤ code.length
  · rw [Nat.sub_eq_zero_of_le hk]
    exact h.under k
  · rw [List.take_of_length_le (Nat.le_of_not_le hk), h.last]
    exact h'.under _

theorem Leads.concat (h : b.Leads s s' code) (hq : s'.after q = s'') (hs : b.Under s'') :
    b.Leads s s'' (code ++ [q]) := by
  subst hq
  have hlast := h.under code.length
  rw [List.take_length, h.last] at hlast
  exact h.append (.cons hlast (.nil hs))

theorem Leads.mono (h : b.Leads s s' code) (hb : b'.Under b) : b'.Leads s s' code :=
  ⟨h.last, fun k => ⟨hb.1.trans (h.under k).1, hb.2.trans (h.under k).2⟩⟩

end Standing

mutual

/-- An expression leaves under way what was under way before it, and so does each part of it. -/
theorem ExprCode.leads {e : Expr} {x : TypedOperand} {m m' : Memory} {code : List Quad} :
    ExprCode names e m x code m' → ∀ s : Standing, s.Leads s s code
  | .constant _, s => .nil s.under_refl
  | .group he, s => he.leads s
  | .call (f := f) _ hargs _ _, s => by
    have hera : s.Under (s.after f.era) := ⟨List.suffix_cons .., List.suffix_refl _⟩
    have hpassed := ((hargs.leads _).mono hera).cons s.under_refl
    have hcalled : s.Leads s s (f.era :: _ ++ [f.gosub]) := hpassed.concat rfl s.under_refl
    rw [f.append_result]
    exact hcalled.concat rfl s.under_refl
  | .variable _ _ _ _, s => .nil s.under_refl
  | .element _ _ _ _ his _, s =>
    (his.leads s).concat (by simp [Standing.after, elementQuad, Operand.count]) s.under_refl
  | .unary he _ _, s => (he.leads s).concat (s.after_unary ..) s.under_refl
  | .binary hl hr _ _, s => ((hl.leads s).append (hr.leads s)).concat (s.after_binary ..)
    s.under_refl

theorem ArgsCode.leads {ps : List Param} {es : List Expr} {m m' : Memory} {code : List Quad} :
    ArgsCode names ps es m code m' → ∀ s : Standing, s.Leads s s code
  | .nil, s => .nil s.under_refl
  | .cons he _ hes, s => (he.leads s).append ((hes.leads s).cons s.under_refl)

/-- Indices are under way until the element is found. -/
theorem IndicesCode.leads {ds : List Dim} {es : List Expr} {m m' : Memory} {code : List Quad} :
    IndicesCode names ds es m code m' →
    ∀ s : Standing, s.Leads s { s with dims := ds.reverse ++ s.dims } code
  | .nil, s => .nil s.under_refl
  | .cons (d := d) (x := x) he _ hes, s => by
    have hcheck : s.after (d.check x.operand) = { s with dims := d :: s.dims } := by
      simp [Standing.after, Dim.check]
    have hrest := (hes.leads { s with dims := d :: s.dims }).mono
      ⟨List.suffix_refl s.calls, List.suffix_cons d s.dims⟩
    rw [List.reverse_cons, List.append_assoc]
    exact (he.leads s).append (.cons s.under_refl (hcheck ▸ hrest))

end

/-- Where code stands that leads somewhere, the same is under way all the time. -/
theorem Standing.Leads.placed {b s : Standing} {k : Nat}
    (h : b.Leads (standing quads base) s code) (hplaced : Placed quads base code)
    (hk : k ≤ code.length) :
    b.Under (standing quads (base + k)) := by
  have hstanding := h.under k
  rw [← List.take_append_drop k code] at hplaced
  rwa [← hplaced.append.1.standing, List.length_take_of_le hk] at hstanding

theorem ExprCode.neutral {e : Expr} (h : ExprCode names e m x code m') (s : Standing) :
    code.foldl Standing.after s = s := (h.leads s).last

theorem ArgsCode.neutral {ps : List Param} (h : ArgsCode names ps es m code m') (s : Standing) :
    code.foldl Standing.after s = s := (h.leads s).last

theorem UsesCode.neutral (h : UsesCode names use es m code m')
    (huse : ∀ s x, Standing.after s (use x) = s) (s : Standing) :
    code.foldl Standing.after s = s := by
  induction h with
  | nil => rfl
  | cons he _ _ ih => simp only [List.foldl_append, he.neutral, List.foldl_cons, huse, ih]

mutual

/-- A statement leaves under way what was under way before it. -/
theorem StmtCode.neutral {function : Option Callee} {base : Nat} {s : Stmt} {m m' : Memory}
    {code : List Quad} : StmtCode names function base s m code m' →
    ∀ st, code.foldl Standing.after st = st
  | .assign hx hy _, st => by
    simp only [List.foldl_append, hx.neutral, hy.neutral]
    rfl
  | .call _ hargs, st => by
    simp only [List.cons_append, List.foldl_cons, List.foldl_append, hargs.neutral]
    rfl
  | .read huses, st => huses.neutral (fun _ _ => rfl) st
  | .write huses, st => huses.neutral (fun _ _ => rfl) st
  | .retNone _ _, st => rfl
  | .retSome _ hx _ _, st => by
    simp only [List.foldl_append, hx.neutral]
    rfl
  | .branch hc _ hbody, st => by
    simp only [List.foldl_append, List.foldl_cons, hc.neutral]
    exact hbody.neutral st
  | .branchElse hc _ hbody hother, st => by
    simp only [List.append_assoc, List.cons_append, List.foldl_append, List.foldl_cons, hc.neutral]
    rw [show Standing.after st (skipQuad _ _) = st from rfl, hbody.neutral]
    exact hother.neutral st
  | .loop hc _ hbody, st => by
    simp only [List.append_assoc, List.cons_append, List.foldl_append, List.foldl_cons, hc.neutral]
    rw [show Standing.after st (skipQuad _ _) = st from rfl, hbody.neutral]
    rfl

theorem StmtsCode.neutral {function : Option Callee} {base : Nat} {ss : List Stmt} {m m' : Memory}
    {code : List Quad} : StmtsCode names function base ss m code m' →
    ∀ st, code.foldl Standing.after st = st
  | .nil, st => rfl
  | .cons hs hss, st => by
    simp only [List.foldl_append, hs.neutral, hss.neutral]

end

/-! ## First instructions -/

/-- Code does not begin by taking a result. -/
def Fresh (code : List Quad) : Prop := ∀ q, code.head? = some q → ¬ q.TakesResult

theorem fresh_nil : Fresh [] := by simp [Fresh]

theorem Fresh.append {code code' : List Quad} (h : Fresh code) (h' : Fresh code') :
    Fresh (code ++ code') := by
  intro q hq
  cases code with
  | nil => exact h' q hq
  | cons q' code => exact h q hq

theorem fresh_cons {q : Quad} (h : q.op ≠ .assign) : Fresh (q :: code) := by
  intro q' hq'
  obtain rfl := Option.some.inj hq'
  rintro ⟨hop, -⟩
  exact h hop

theorem BinaryOp.opcode_ne_assign (op : BinaryOp) : op.opcode ≠ .assign := by
  cases op <;> simp [BinaryOp.opcode]

theorem UnaryOp.opcode_ne_assign (op : UnaryOp) : op.opcode ≠ .assign := by
  cases op <;> simp [UnaryOp.opcode]

mutual

theorem ExprCode.fresh {e : Expr} {x : TypedOperand} {m m' : Memory} {code : List Quad} :
    ExprCode names e m x code m' → Fresh code
  | .constant _ => fresh_nil
  | .group he => he.fresh
  | .call _ _ _ _ => fresh_cons (by simp [Callee.era])
  | .variable _ _ _ _ => fresh_nil
  | .element _ _ _ _ his _ => his.fresh.append (fresh_cons (by simp [elementQuad]))
  | .unary he _ _ => he.fresh.append (fresh_cons (UnaryOp.opcode_ne_assign _))
  | .binary hl hr _ _ =>
    (hl.fresh.append hr.fresh).append (fresh_cons (BinaryOp.opcode_ne_assign _))

theorem IndicesCode.fresh {ds : List Dim} {es : List Expr} {m m' : Memory} {code : List Quad} :
    IndicesCode names ds es m code m' → Fresh code
  | .nil => fresh_nil
  | .cons he _ _ => he.fresh.append (fresh_cons (by simp [Dim.check]))

end

theorem UsesCode.fresh (h : UsesCode names use es m code m') (huse : ∀ x, (use x).op ≠ .assign) :
    Fresh code := by
  cases h with
  | nil => exact fresh_nil
  | cons he _ _ => exact he.fresh.append (fresh_cons (huse _))

theorem StmtCode.fresh {s : Stmt} (h : StmtCode names function base s m code m')
    (hready : names.Ready outer inner fs m) : Fresh code := by
  cases h with
  | assign hx hy hassign =>
    refine (hx.fresh.append hy.fresh).append ?_
    intro q hq
    obtain rfl := Option.some.inj hq
    rintro ⟨-, a, ty, harg, hholds⟩
    have hdenotes := @ExprCode.denotes _ _ _ _ _ (some 0) _ _ _ _ _ hy (hx.ready hready)
      (fun _ h => h) (fun _ => rfl)
    exact hdenotes.not_slot harg hholds
  | call _ _ => exact fresh_cons (by simp [Callee.era])
  | read huses => exact huses.fresh (by simp [readQuad])
  | write huses => exact huses.fresh (by simp [writeQuad])
  | retNone _ _ => exact fresh_cons (by simp)
  | retSome _ hx _ _ => exact hx.fresh.append (fresh_cons (by simp))
  | branch hc _ _ => exact hc.fresh.append (fresh_cons (by simp [skipQuad]))
  | branchElse hc _ _ _ =>
    rw [List.append_assoc]
    exact hc.fresh.append (fresh_cons (by simp [skipQuad]))
  | loop hc _ _ =>
    rw [List.append_assoc]
    exact hc.fresh.append (fresh_cons (by simp [skipQuad]))

theorem StmtsCode.fresh {ss : List Stmt} (h : StmtsCode names function base ss m code m')
    (hready : names.Ready outer inner fs m) : Fresh code := by
  induction ss generalizing base m code with
  | nil =>
    cases h
    exact fresh_nil
  | cons s ss ih =>
    cases h with
    | cons hs hss =>
      exact (hs.fresh hready).append (ih hss (hs.ready hready))

/-- The position in front of code that leaves nothing under way is as clear as the one behind
it. -/
theorem Clear.back (hclear : Clear quads (base + code.length)) (hplaced : Placed quads base code)
    (hbase : 1 ≤ base) (hneutral : ∀ s, code.foldl Standing.after s = s) (hfresh : Fresh code)
    (hclosed : Closed m code) :
    Clear quads base where
  first := hbase
  last := by
    have := hclear.last
    omega
  standing := by
    rw [← hneutral (Quadlang.standing quads base), ← hplaced.standing]
    exact hclear.standing
  plain := by
    intro q hq
    cases code with
    | nil => exact hclear.plain q hq
    | cons q' code =>
      rw [hplaced.head] at hq
      obtain rfl := Option.some.inj hq
      exact hfresh q' rfl
  contained := hclear.contained.back hplaced hclosed

/-! ## Places of instructions -/

/-- Every instruction of a piece of a program fits its place. -/
def AllFit (quads : List Quad) (base : Nat) (code : List Quad) : Prop :=
  ∀ i q, code[i]? = some q → Fits quads (base + i) q

theorem allFit_nil : AllFit quads base [] := by simp [AllFit]

theorem AllFit.append {base : Nat} {code code' : List Quad} (h : AllFit quads base code)
    (h' : AllFit quads (base + code.length) code') : AllFit quads base (code ++ code') := by
  intro i q hq
  by_cases hi : i < code.length
  · rw [List.getElem?_append_left hi] at hq
    exact h i q hq
  · rw [List.getElem?_append_right (Nat.not_lt.1 hi)] at hq
    have := h' _ q hq
    rwa [Nat.add_assoc, Nat.add_sub_cancel' (Nat.not_lt.1 hi)] at this

theorem AllFit.cons {base : Nat} {q : Quad} {code : List Quad} (h : Fits quads base q)
    (h' : AllFit quads (base + 1) code) : AllFit quads base (q :: code) := by
  intro i q' hq'
  cases i with
  | zero =>
    obtain rfl := Option.some.inj hq'
    exact h
  | succ i =>
    have := h' i q' hq'
    rwa [Nat.add_assoc, Nat.add_comm 1] at this

/-- A piece of a program inside of one function. -/
structure Piece (quads : List Quad) (o : Option Addr) (base : Nat) (code : List Quad) : Prop where
  placed : Placed quads base code
  owner : ∀ k ≤ code.length, owner quads (base + k) = o

theorem Piece.append {base : Nat} {code code' : List Quad}
    (h : Piece quads o base (code ++ code')) :
    Piece quads o base code ∧ Piece quads o (base + code.length) code' := by
  obtain ⟨hleft, hright⟩ := h.placed.append
  refine ⟨⟨hleft, fun k hk => h.owner k ?_⟩, ⟨hright, fun k hk => ?_⟩⟩
  · rw [List.length_append]
    omega
  · rw [Nat.add_assoc]
    apply h.owner
    rw [List.length_append]
    omega

theorem Piece.cons {base : Nat} {q : Quad} {code : List Quad} (h : Piece quads o base (q :: code)) :
    quads[base]? = some q ∧ Quadlang.owner quads base = o ∧ Piece quads o (base + 1) code := by
  refine ⟨h.placed.head, h.owner 0 (Nat.zero_le _), h.placed.tail, ?_⟩
  intro k hk
  rw [Nat.add_assoc, Nat.add_comm 1]
  exact h.owner (k + 1) (Nat.succ_le_succ hk)

/-- A call fits its place if its arguments do. -/
theorem call_fits {f : Callee} {params : List Param} (hready : names.Ready outer inner fs m)
    (hf : (f, params) ∈ fs) (hentries : ∀ f ∈ fs, Entry quads f.1)
    (hneutral : ∀ s, code.foldl Standing.after s = s)
    (hpiece : Piece quads o base (f.era :: code ++ [f.gosub]))
    (hargs : (∀ p ∈ params, Typing.isPrimitive p.ty = true ∧
      Layout.standard.Holds .functions p.ty p.address) → (standing quads (base + 1)).calls ≠ [] →
      Piece quads o (base + 1) code → AllFit quads (base + 1) code) :
    AllFit quads base (f.era :: code ++ [f.gosub]) := by
  obtain ⟨hera, -, hpiece⟩ := hpiece.cons
  obtain ⟨hbody, hpiece⟩ := hpiece.append
  have hstanding : (standing quads (base + 1)).calls =
    f.address :: (standing quads base).calls := by
    rw [standing_succ hera]
    simp [Standing.after, Callee.era]
  have hcalls := hbody.placed.standing
  rw [hneutral] at hcalls
  have hplaced := hready.functions _ hf
  have hargsFit := hargs (fun p hp => ⟨(hplaced.params p hp).1,
    hready.holds (hplaced.params p hp).2⟩)
    (by simp [hstanding]) hbody
  have hgosub : Fits quads (base + 1 + code.length) f.gosub :=
    .gosub (by rw [hcalls, hstanding]) (hentries _ hf)
  exact .cons .era (hargsFit.append (.cons hgosub allFit_nil))

mutual

theorem ExprCode.fits {e : Expr} {x : TypedOperand} {m m' : Memory} {code : List Quad} {base : Nat}
    : ExprCode names e m x code m' → names.Ready outer inner fs m →
    (∀ f ∈ fs, Entry quads f.1) → (inner ≠ [] → o.isSome = true) → Piece quads o base code →
    AllFit quads base code
  | .constant _, _, _, _, _ => allFit_nil
  | .group he, hready, hentries, hinner, hpiece =>
    he.fits hready hentries hinner hpiece
  | @ExprCode.call _ _ _ f a code _ _ _ hname hargs _ ha, hready, hentries,
      hinner, hpiece => by
    rw [f.append_result] at hpiece ⊢
    obtain ⟨hcall, -⟩ := hpiece.append
    have hf := hready.sound.called hname
    have hfit := call_fits hready hf hentries hargs.neutral hcall fun hparams hcalls hbody =>
      hargs.fits hready hentries hinner hparams hcalls hbody
    have hgosub : quads[base + (f.era :: code).length]? = some f.gosub := hcall.append.2.cons.1
    have hholds := (hargs.ready hready).temporary ha
    have hresult : Fits quads (base + (f.era :: code ++ [f.gosub]).length)
        (copyQuad (.cell f.address) (.cell a)) := by
      refine .result ?_ ?_ (hready.holds (hready.functions _ hf).slot) hholds
      · simp only [List.length_append, List.length_singleton]
        omega
      · rw [List.length_append]
        exact hgosub
    exact hfit.append (.cons hresult allFit_nil)
  | .variable _ _ _ _, _, _, _, _ => allFit_nil
  | @ExprCode.element _ _ _ _ sym a p code _ _ _ hreach hkind _ hne his ha,
      hready, hentries, hinner, hpiece => by
    obtain ⟨hbody, -⟩ := hpiece.append
    obtain ⟨segment, hsegment, hshaped, hin⟩ := hready.reach hreach hkind
    have hholds := (his.ready hready).temporary ha
    have hdims : sym.dims ≠ [] := by
      intro hnil
      have hlength := his.length_eq
      rw [hnil] at hlength
      exact hne (List.length_eq_zero_iff.1 hlength.symm)
    have hunder : (standing quads (base + code.length)).dims = sym.dims.reverse ++
      (standing quads base).dims := by
      rw [hbody.placed.standing, (his.leads _).last]
    have hblock : ∀ b : Addr, a.toInt ≤ b.toInt → b.toInt < a.toInt + (Dim.total sym.dims).toInt →
        Layout.standard.Holds segment sym.ty b := fun b hb hb' => hready.holds (hin.2 b ⟨hb, hb'⟩)
    have hslot : segment ≠ .stack := by rcases hsegment with rfl | ⟨rfl, -⟩ <;> simp
    have helement : Fits quads (base + code.length) (elementQuad sym.dims.length a p) :=
      .element hdims hunder hshaped.2 hblock hslot hholds
    exact (his.fits hready hentries hinner hbody).append (.cons helement allFit_nil)
  | .unary he hty ha, hready, hentries, hinner, hpiece => by
    obtain ⟨hbody, hpiece⟩ := hpiece.append
    obtain ⟨-, howner, -⟩ := hpiece.cons
    have hholds := (he.ready hready).temporary ha
    refine .append (he.fits hready hentries hinner hbody) (.cons (.unary ?_ hty hholds) allFit_nil)
    rw [howner]
    exact he.denotes hready (fun q hq => hbody.placed.mem hq) hinner
  | .binary hl hr hty ha, hready, hentries, hinner, hpiece => by
    obtain ⟨hbody, hpiece⟩ := hpiece.append
    obtain ⟨-, howner, -⟩ := hpiece.cons
    obtain ⟨hleft, hright⟩ := hbody.append
    have hready₁ := hl.ready hready
    have hholds := (hr.ready hready₁).temporary ha
    refine .append (.append (hl.fits hready hentries hinner hleft)
      (hr.fits hready₁ hentries hinner hright)) (.cons (.binary ?_ ?_ hty hholds) allFit_nil)
    · rw [howner]
      exact hl.denotes hready (fun q hq => hleft.placed.mem hq) hinner
    · rw [howner]
      exact hr.denotes hready₁ (fun q hq => hright.placed.mem hq) hinner

theorem ArgsCode.fits {ps : List Param} {es : List Expr} {m m' : Memory} {code : List Quad}
    {base : Nat} : ArgsCode names ps es m code m' →
    names.Ready outer inner fs m → (∀ f ∈ fs, Entry quads f.1) → (inner ≠ [] → o.isSome = true) →
    (∀ p ∈ ps, Typing.isPrimitive p.ty = true ∧ Layout.standard.Holds .functions p.ty p.address) →
    (standing quads base).calls ≠ [] → Piece quads o base code → AllFit quads base code
  | .nil, _, _, _, _, _, _ => allFit_nil
  | @ArgsCode.cons _ p _ _ _ x code _ _ _ _ he hty hes, hready, hentries,
      hinner, hparams, hcalls, hpiece => by
    obtain ⟨hbody, hpiece⟩ := hpiece.append
    obtain ⟨hparam, howner, hpiece⟩ := hpiece.cons
    have hstanding := hbody.placed.standing
    rw [he.neutral] at hstanding
    have hp := hparams p (List.mem_cons_self ..)
    have hparamFit : Fits quads (base + code.length) (p.bind x.operand) := by
      refine .param ?_ hp.1 hp.2 (by rw [hstanding]; exact hcalls)
      rw [howner, ← hty]
      exact he.denotes hready (fun q hq => hbody.placed.mem hq) hinner
    have hcalls' : (standing quads (base + code.length + 1)).calls ≠ [] := by
      rw [standing_succ hparam, hstanding]
      exact hcalls
    exact (he.fits hready hentries hinner hbody).append (.cons hparamFit
      (hes.fits (he.ready hready) hentries hinner
        (fun p hp => hparams p (List.mem_cons_of_mem _ hp)) hcalls' hpiece))

theorem IndicesCode.fits {ds : List Dim} {es : List Expr} {m m' : Memory} {code : List Quad}
    {base : Nat} : IndicesCode names ds es m code m' →
    names.Ready outer inner fs m → (∀ f ∈ fs, Entry quads f.1) → (inner ≠ [] → o.isSome = true) →
    Piece quads o base code → AllFit quads base code
  | .nil, _, _, _, _ => allFit_nil
  | .cons he hty hes, hready, hentries, hinner, hpiece => by
    obtain ⟨hbody, hpiece⟩ := hpiece.append
    obtain ⟨-, howner, hpiece⟩ := hpiece.cons
    refine .append (he.fits hready hentries hinner hbody) (.cons (.check ?_)
      (hes.fits (he.ready hready) hentries hinner hpiece))
    rw [howner, ← hty]
    exact he.denotes hready (fun q hq => hbody.placed.mem hq) hinner

end

theorem UsesCode.fits (h : UsesCode names use es m code m') (hready : names.Ready outer inner fs m)
    (hentries : ∀ f ∈ fs, Entry quads f.1) (hinner : inner ≠ [] → o.isSome = true)
    (huse : ∀ {m x code m'}, names.Ready outer inner fs m → ∀ e ∈ es, ExprCode names e m x code m' →
      ∀ {i}, x.operand.Denotes quads (owner quads i) x.ty → Typing.isPrimitive x.ty = true →
      Fits quads i (use x.operand))
    (hpiece : Piece quads o base code) : AllFit quads base code := by
  induction h generalizing base with
  | nil => exact allFit_nil
  | @cons e es x code code' m m₁ m' he hty _ ih =>
    obtain ⟨hbody, hpiece⟩ := hpiece.append
    obtain ⟨-, howner, hpiece⟩ := hpiece.cons
    have hfit : Fits quads (base + code.length) (use x.operand) := by
      refine huse hready e (List.mem_cons_self ..) he ?_ hty
      rw [howner]
      exact he.denotes hready (fun q hq => hbody.placed.mem hq) hinner
    have hrest := ih (he.ready hready)
      (fun hready e he' => huse hready e (List.mem_cons_of_mem _ he')) hpiece
    exact (he.fits hready hentries hinner hbody).append (.cons hfit hrest)

/-- The position in front of a condition is clear if the one behind it is. -/
theorem ExprCode.clear_skip (h : ExprCode names c m x code m')
    (hready : names.Ready outer inner fs m)
    (hbase : 1 ≤ base) (hplaced : Placed quads base (code ++ [skipQuad x.operand target]))
    (hclear : Clear quads (base + (code ++ [skipQuad x.operand target]).length)) :
    Clear quads base := by
  refine hclear.back hplaced hbase ?_ (h.fresh.append (fresh_cons (by simp [skipQuad])))
    ((h.closed hready).consumes (h.supplies hready) rfl rfl)
  intro s
  rw [List.foldl_append, h.neutral]
  rfl

/-- A condition fits its place if it skips to a clear position. -/
theorem ExprCode.skip_fits (h : ExprCode names c m x code m')
    (hready : names.Ready outer inner fs m)
    (hentries : ∀ f ∈ fs, Entry quads f.1) (hinner : inner ≠ [] → o.isSome = true)
    (hty : x.ty = .bool) (hclear : Clear quads base)
    (hpiece : Piece quads o base (code ++ [skipQuad x.operand target]))
    (htarget : Clear quads target)
    (howner : owner quads target = o) :
    AllFit quads base (code ++ [skipQuad x.operand target]) := by
  obtain ⟨hbody, hpiece⟩ := hpiece.append
  obtain ⟨-, howner', -⟩ := hpiece.cons
  have hidle : standing quads (base + code.length) = {} := by
    rw [hbody.placed.standing, h.neutral]
    exact hclear.standing
  have hskip : Fits quads (base + code.length) (skipQuad x.operand target) := by
    refine .skip ?_ ⟨htarget, hidle, howner.trans howner'.symm⟩
    rw [howner', ← hty]
    exact h.denotes hready (fun q hq => hbody.placed.mem hq) hinner
  exact (h.fits hready hentries hinner hbody).append (.cons hskip allFit_nil)

theorem StmtsCode.clear {ss : List Stmt} (h : StmtsCode names function base ss m code m')
    (hready : names.Ready outer inner fs m) (hplaced : Placed quads base code)
    (hbase : 1 ≤ base) (hclear : Clear quads (base + code.length)) : Clear quads base :=
  hclear.back hplaced hbase h.neutral (h.fresh hready) (h.closed hready)

/-- A condition and the statements behind it fit their places if they do on their own. -/
theorem guarded_fits {m₁ : Memory} {code' : List Quad} {body : List Stmt}
    (hc : ExprCode names c m x code m₁)
    (hbody : StmtsCode names function (base + code.length + 1) body m₁ code' m')
    (hready : names.Ready outer inner fs m) (hentries : ∀ f ∈ fs, Entry quads f.1)
    (hinner : inner ≠ [] → o.isSome = true) (hty : x.ty = .bool)
    (hbase : 1 ≤ base) (hpiece : Piece quads o base (code ++ skipQuad x.operand target :: code'))
    (hclear : Clear quads (base + code.length + 1 + code'.length)) (htarget : Clear quads target)
    (howner : owner quads target = o)
    (hfits : Piece quads o (base + code.length + 1) code' →
      AllFit quads (base + code.length + 1) code') :
    Clear quads base ∧ AllFit quads base (code ++ skipQuad x.operand target :: code') := by
  rw [List.append_cons] at hpiece ⊢
  obtain ⟨hcond, hpiece⟩ := hpiece.append
  have hlen : base + (code ++ [skipQuad x.operand target]).length = base + code.length + 1 := by
    simp only [List.length_append, List.length_singleton]
    omega
  rw [hlen] at hpiece
  have hmiddle := hbody.clear (hc.ready hready) hpiece.placed (by omega) hclear
  have hfirst := hc.clear_skip hready hbase hcond.placed (by rw [hlen]; exact hmiddle)
  refine ⟨hfirst, (hc.skip_fits hready hentries hinner hty hfirst hcond htarget howner).append ?_⟩
  rw [hlen]
  exact hfits hpiece

mutual

/-- The code of a statement fits its place if nothing is under way behind it. -/
theorem StmtCode.fits {function : Option Callee} {s : Stmt} {m m' : Memory} {code : List Quad}
    {base : Nat} : StmtCode names function base s m code m' →
    names.Ready outer inner fs m → (∀ f ∈ fs, Entry quads f.1) →
    (∀ f, function = some f → o = some f.address ∧ Layout.standard.Holds .stack f.ty f.address) →
    (inner ≠ [] → o.isSome = true) → 1 ≤ base → Clear quads (base + code.length) →
    Piece quads o base code → AllFit quads base code
  | @StmtCode.assign _ _ _ _ _ x y code code' _ _ _ hx hy hassign, hready,
      hentries, _, hinner, _, _, hpiece => by
    obtain ⟨hbody, hpiece⟩ := hpiece.append
    obtain ⟨-, howner, -⟩ := hpiece.cons
    obtain ⟨hleft, hright⟩ := hbody.append
    have hready₁ := hx.ready hready
    have hcopy : Fits quads (base + (code ++ code').length) (copyQuad y.operand x.operand) := by
      refine .copy ?_ ?_ (hx.place_not_constant hready) hassign
      · rw [howner]
        exact hy.denotes hready₁ (fun q hq => hright.placed.mem hq) hinner
      · rw [howner]
        exact hx.denotes hready (fun q hq => hleft.placed.mem hq) hinner
    exact ((hx.fits hready hentries hinner hleft).append
      (hy.fits hready₁ hentries hinner hright)).append (.cons hcopy allFit_nil)
  | @StmtCode.call _ _ _ _ _ f code _ _ hname hargs, hready, hentries, _,
      hinner, _, _, hpiece => by
    have hf := hready.sound.called hname
    exact call_fits hready hf hentries hargs.neutral hpiece fun hparams hcalls hbody =>
      hargs.fits hready hentries hinner hparams hcalls hbody
  | .read huses, hready, hentries, _, hinner, _, _, hpiece => by
    refine huses.fits hready hentries hinner ?_ hpiece
    intro m x code m' hready e he hcode i hx hty
    obtain ⟨p, -, rfl⟩ := List.mem_map.1 he
    exact .read hx (hcode.place_not_constant hready) hty
  | .write huses, hready, hentries, _, hinner, _, _, hpiece =>
    huses.fits hready hentries hinner (fun _ _ _ _ _ hx _ => .write hx) hpiece
  | .retNone (f := f) hf _, _, _, hfunction, _, hbase, hclear, hpiece => by
    obtain ⟨-, howner, -⟩ := hpiece.cons
    have hidle := hclear.back hpiece.placed hbase (fun _ => rfl) (fresh_cons (by simp))
      (closed_return m f)
    have hret : Fits quads base { op := .ret, res := .cell f.address } :=
      .retNone (by rw [howner, (hfunction f hf).1]) hidle.standing
    exact .cons hret allFit_nil
  | @StmtCode.retSome _ _ _ f _ x code _ _ hf hx hty hprim, hready, hentries,
      hfunction, hinner, hbase, hclear, hpiece => by
    have hidle := hclear.back hpiece.placed hbase
      (fun s => by rw [List.foldl_append, hx.neutral]; rfl) (hx.fresh.append (fresh_cons (by simp)))
      ((hx.closed hready).consumes (hx.supplies hready) rfl rfl)
    obtain ⟨hbody, hpiece⟩ := hpiece.append
    obtain ⟨-, howner, -⟩ := hpiece.cons
    have hret : Fits quads (base + code.length)
      { op := .ret, arg1 := x.operand, res := .cell f.address } := by
      refine .retSome (by rw [howner, (hfunction f hf).1]) ?_ ?_ (hty ▸ hprim) (hfunction f hf).2
      · rw [hbody.placed.standing, hx.neutral]
        exact hidle.standing
      · rw [howner, ← hty]
        exact hx.denotes hready (fun q hq => hbody.placed.mem hq) hinner
    exact (hx.fits hready hentries hinner hbody).append (.cons hret allFit_nil)
  | @StmtCode.branch _ _ _ _ _ x code code' _ _ _ hc hty hbody, hready,
      hentries, hfunction, hinner, hbase, hclear, hpiece => by
    have hready₁ := hc.ready hready
    have howner := hpiece.owner _ (Nat.le_refl _)
    rw [end_append_cons] at hclear howner
    exact (guarded_fits hc hbody hready hentries hinner hty hbase hpiece hclear hclear
      howner fun hpiece' => hbody.fits hready₁ hentries hfunction hinner (by omega) hclear
        hpiece').2
  | @StmtCode.branchElse _ _ _ _ _ _ x code code' code'' _ _ _ _ hc hty hbody hother,
      hready, hentries, hfunction, hinner, hbase, hclear, hpiece => by
    have hready₁ := hc.ready hready
    have hready₂ := hbody.ready hready₁
    obtain ⟨hleft, hright⟩ := hpiece.append
    rw [end_append_cons] at hright
    obtain ⟨-, howner, hright'⟩ := hright.cons
    have hend := hright'.owner _ (Nat.le_refl _)
    have hclear' : Clear quads (base + code.length + 1 + code'.length + 1 + code''.length) := by
      rw [List.length_append, ← Nat.add_assoc, end_append_cons, List.length_cons,
        Nat.add_comm code''.length 1, ← Nat.add_assoc] at hclear
      exact hclear
    have hclear₂ := hother.clear hready₂ hright'.placed (by omega) hclear'
    have hclear₁ : Clear quads (base + code.length + 1 + code'.length) := by
      refine Clear.back ?_ hright.placed (by omega) ?_ (fresh_cons (by simp [jumpQuad]))
        (((closed_nil _).plain rfl rfl).append (hother.closed hready₂))
      · rw [List.length_cons, Nat.add_comm code''.length 1, ← Nat.add_assoc]
        exact hclear'
      · intro s
        exact hother.neutral s
    have hguarded := guarded_fits hc hbody hready hentries hinner hty hbase hleft hclear₁
      hclear₂ (hright'.owner 0 (Nat.zero_le _)) fun hpiece' => hbody.fits hready₁ hentries hfunction
        hinner (by omega) hclear₁ hpiece'
    refine hguarded.2.append ?_
    rw [end_append_cons]
    refine .cons (.jump ⟨hclear', hclear₁.standing, hend.trans howner.symm⟩) ?_
    exact hother.fits hready₂ hentries hfunction hinner (by omega) hclear' hright'
  | @StmtCode.loop _ _ _ _ _ x code code' _ _ _ hc hty hbody, hready,
      hentries, hfunction, hinner, hbase, hclear, hpiece => by
    have hready₁ := hc.ready hready
    obtain ⟨hleft, hright⟩ := hpiece.append
    rw [end_append_cons] at hright
    obtain ⟨-, howner, hright'⟩ := hright.cons
    have hfirst := hleft.owner 0 (Nat.zero_le _)
    have hend := hright'.owner 0 (Nat.zero_le _)
    have hclear' : Clear quads (base + code.length + 1 + code'.length + 1) := by
      rw [List.length_append, ← Nat.add_assoc, end_append_cons] at hclear
      exact hclear
    have hclear₁ : Clear quads (base + code.length + 1 + code'.length) :=
      hclear'.back hright.placed (by omega) (fun _ => rfl) (fresh_cons (by simp [jumpQuad]))
        ((closed_nil m).plain rfl rfl)
    have hguarded := guarded_fits hc hbody hready hentries hinner hty hbase hleft hclear₁
      hclear' hend fun hpiece' => hbody.fits hready₁ hentries hfunction hinner (by omega) hclear₁
        hpiece'
    refine hguarded.2.append ?_
    rw [end_append_cons]
    exact .cons (.jump ⟨hguarded.1, hclear₁.standing, hfirst.trans howner.symm⟩) allFit_nil

theorem StmtsCode.fits {function : Option Callee} {ss : List Stmt} {m m' : Memory}
    {code : List Quad} {base : Nat} : StmtsCode names function base ss m code m' →
    names.Ready outer inner fs m → (∀ f ∈ fs, Entry quads f.1) →
    (∀ f, function = some f → o = some f.address ∧ Layout.standard.Holds .stack f.ty f.address) →
    (inner ≠ [] → o.isSome = true) → 1 ≤ base → Clear quads (base + code.length) →
    Piece quads o base code → AllFit quads base code
  | .nil, _, _, _, _, _, _, _ => allFit_nil
  | .cons hs hss, hready, hentries, hfunction, hinner, hbase, hclear, hpiece => by
    obtain ⟨hleft, hright⟩ := hpiece.append
    have hready₁ := hs.ready hready
    rw [List.length_append, ← Nat.add_assoc] at hclear
    have hmiddle := hss.clear hready₁ hright.placed (Nat.le_add_right_of_le hbase) hclear
    exact (hs.fits hready hentries hfunction hinner hbase hmiddle hleft).append
      (hss.fits hready₁ hentries hfunction hinner (Nat.le_add_right_of_le hbase) hclear hright)

end

end Quadlang
