-- Performing trees. The actions of a tree come in an order in which every action finds what it
-- takes from the stacks. They succeed exactly if the tree has code: then they append the code and
-- leave every stack as it was, but for the value of an expression. They fail only for causes in the
-- meaning of the text.
import Quadlang.Proofs.Generator.Growth
import Quadlang.Proofs.Generator.Orderly
import Quadlang.Proofs.Source.Reading

namespace Quadlang

open Source Generate

variable {outer inner : List Placement} {fs : List (Callee × List Param)} {R : Prop}
  {g g' : Generator} {as bs : List Action} {r : Reference} {rest : List Reference} {m : Memory}
  {α : Type}

/-! ## Values and code -/

/-- A compilation on the same line with another memory, more instructions and other operands. -/
abbrev Generator.extended (g : Generator) (m : Memory) (code : List Quad)
    (operands : List TypedOperand) :
    Generator := g.grow g.line m code operands

/-- Some code is appended, and a value is pushed. -/
def Generator.Gives (g : Generator) (C : TypedOperand → List Quad → Memory → Prop)
    (g' : Generator) : Prop :=
  ∃ x code m, C x code m ∧ g' = g.extended m code (x :: g.operands)

/-- Some code is appended. -/
def Generator.Appends (g : Generator) (C : List Quad → Memory → Prop) (g' : Generator) : Prop :=
  ∃ code m, C code m ∧ g' = g.extended m code g.operands

theorem Does.after {C : α → List Quad → Memory → Prop} {F : α → List Quad → Memory → Generator}
    {Q : α → List Quad → Memory → Generator → Prop}
    (h : Does as g R fun g' => ∃ x code m, C x code m ∧ g' = F x code m)
    (h' : ∀ x code m, C x code m → Does bs (F x code m) R (Q x code m)) :
    Does (as ++ bs) g R fun g' => ∃ x code m, C x code m ∧ Q x code m g' := by
  refine (Does.append (C := fun i : α × List Quad × Memory => C i.1 i.2.1 i.2.2)
    (F := fun i => F i.1 i.2.1 i.2.2) (Q := fun i => Q i.1 i.2.1 i.2.2) (h.congr ?_)
    fun i => h' i.1 i.2.1 i.2.2).congr ?_
  · simp
  · simp

theorem Does.over {C : List Quad → Memory → Prop} {F : List Quad → Memory → Generator}
    {Q : List Quad → Memory → Generator → Prop} (h : Does as g R fun g' => ∃ code m, C code m ∧
      g' = F code m)
    (h' : ∀ code m, C code m → Does bs (F code m) R (Q code m)) :
    Does (as ++ bs) g R fun g' => ∃ code m, C code m ∧ Q code m g' := by
  refine (Does.after (C := fun _ : Unit => C) (F := fun _ => F) (Q := fun _ => Q) (h.congr ?_)
    fun _ => h').congr ?_
  · simp
  · simp

/-! ## Expressions -/

theorem Names.Ready.called {f : Callee} {names : Names} {name : Bytes}
    (hready : names.Ready outer inner fs m)
    (hf : names.callee? name = some f) : f.ty = .void ∨ Typing.isPrimitive f.ty = true :=
  (hready.functions _ (hready.sound.called hf)).type

theorem cons_prefix_drop {a : α} {as bs : List α} {n : Nat} :
    a :: as <+: bs.drop n ↔ bs[n]? = some a ∧ as <+: bs.drop (n + 1) := by
  rw [← List.head?_drop, ← List.tail_drop]
  cases bs.drop n <;> simp [List.cons_prefix_cons, eq_comm]

theorem does_members {ids : List Bytes} (hr : g.references = r :: rest) (hindices : r.indices = 0) :
    Does (ids.map .member) g R fun g' => ∃ sym, g.names.follow? r.symbol ids = some sym ∧
      g' = { g with references := { r with symbol := sym } :: rest } := by
  induction ids generalizing g r with
  | nil =>
    refine Does.nil.congr fun g' => ?_
    simp [Names.follow?, ← hr]
  | cons id ids ih =>
    refine (Does.act rfl (acts_member hr hindices) fun sym hsym => ih rfl hindices).congr fun g' =>
      ⟨?_, ?_⟩
    · rintro ⟨sym, hsym, rfl⟩
      obtain ⟨sym', hsym', hrest⟩ := Option.bind_eq_some_iff.1 hsym
      exact ⟨sym', hsym', sym, hrest, rfl⟩
    · rintro ⟨sym', hsym', sym, hrest, rfl⟩
      exact ⟨sym, Option.bind_eq_some_iff.2 ⟨sym', hsym', hrest⟩, rfl⟩

theorem prefix_whole {as bs : List α} {n : Nat} (h : as.length = n) :
    as <+: bs.drop 0 ∧ bs.length ≤ 0 + n ↔ as = bs := by
  rw [List.drop_zero, Nat.zero_add, ← h]
  constructor
  · rintro ⟨hfront, hlength⟩
    exact hfront.eq_of_length_le hlength
  · rintro rfl
    exact ⟨List.prefix_rfl, Nat.le_refl _⟩

mutual

/-- The actions of an expression append its code and push its operand. -/
theorem does_expr : (e : Expr) → {g : Generator} → (R → g.names.Ready outer inner fs g.memory) →
    (R → e.Literals Plain) → Does e.actions g R (g.Gives (ExprCode g.names e g.memory))
  | .constant ty v, g, hready, hlit => by
    refine (Does.last rfl (acts_pushConst (fun hR => (hready hR).layout) hlit)).congr fun g' =>
      ⟨?_, ?_⟩
    · rintro ⟨_, _, _, h, rfl⟩
      cases h with
      | constant ha => exact ⟨_, _, ha, by simp [Generator.grow]⟩
    · rintro ⟨a, m, ha, rfl⟩
      exact ⟨_, [], m, .constant ha, by simp [Generator.grow]⟩
  | .group e, g, hready, hlit => by
    refine (Does.step rfl openGroup_eq_ok (.after (does_expr e hready hlit) fun x code m h =>
      .last rfl (.ok (closeGroup_of_cons rfl)))).congr fun g' => ⟨?_, ?_⟩
    · rintro ⟨_, _, _, h, rfl⟩
      cases h with
      | group h => exact ⟨_, _, _, h, rfl⟩
    · rintro ⟨x, code, m, h, rfl⟩
      exact ⟨x, code, m, .group h, rfl⟩
  | .call function args, g, hready, hlit => by
    refine (Does.act rfl acts_callStart fun f hf => .after (does_args args rfl hready hlit)
      fun ps code m h => .last rfl (acts_callEnd rfl rfl (fun hR => ?_) fun hR => ?_)).congr
      fun g' => ⟨?_, ?_⟩
    · exact (h.1.ready (hready hR)).layout
    · exact (hready hR).called hf
    · rintro ⟨_, _, _, h, rfl⟩
      cases h with
      | call hf hargs hty ha =>
        have hps := (prefix_whole hargs.length_eq).2 rfl
        exact ⟨_, hf, _, _, _, ⟨hargs, hps.1⟩, hps.2, hty, _, _, ha, by simp [Generator.grow]⟩
    · rintro ⟨f, hf, ps, code, m₁, ⟨hargs, hfront⟩, hlength, hty, a, m, ha, rfl⟩
      obtain rfl := (prefix_whole hargs.length_eq).1 ⟨hfront, hlength⟩
      exact ⟨_, _, _, .call hf hargs hty ha, by simp [Generator.grow]⟩
  | .reference name members indices, g, hready, hlit => by
    simp only [Expr.actions, List.cons_append, List.append_assoc]
    refine (Does.act rfl acts_var fun sym₀ hsym₀ => .append (does_members rfl rfl) fun sym hsym =>
      .after (does_indices indices rfl hready hlit) fun ds code m h =>
        .last rfl (acts_varEnd rfl fun hR => (h.1.ready (hready hR)).layout)).congr fun g' =>
          ⟨?_, ?_⟩
    · rintro ⟨_, _, _, h, rfl⟩
      cases h with
      | «variable» hsym hkind hty hdims =>
        obtain ⟨sym₀, hsym₀, hsym⟩ := Option.bind_eq_some_iff.1 hsym
        exact ⟨sym₀, hsym₀, _, hsym, [], [], _, ⟨.nil, List.nil_prefix⟩, _, hkind, hty,
          by simp [hdims], by simp [Generator.grow]⟩
      | element hsym hkind hty hne hcode ha =>
        obtain ⟨sym₀, hsym₀, hsym⟩ := Option.bind_eq_some_iff.1 hsym
        refine ⟨sym₀, hsym₀, _, hsym, _, _, _, ⟨hcode, List.prefix_rfl⟩, _, hkind, hty,
          by simp [hcode.length_eq], ?_⟩
        rw [if_neg (by simpa using hne)]
        exact ⟨_, _, ha, by simp [Generator.grow, hcode.length_eq]⟩
    · rintro ⟨sym₀, hsym₀, sym, hsym, ds, code, m, ⟨hcode, hfront⟩, a, hkind, hty, hlength, hend⟩
      have hreach : g.names.reach? name members = some sym :=
        Option.bind_eq_some_iff.2 ⟨sym₀, hsym₀, hsym⟩
      obtain rfl := (prefix_whole hcode.length_eq).1 ⟨hfront, Nat.le_of_eq hlength.symm⟩
      split at hend
      · rename_i h0
        obtain rfl := List.eq_nil_of_length_eq_zero ((Nat.zero_add _).symm.trans h0)
        generalize hdims : sym.dims = ds at hcode
        cases hcode
        exact ⟨_, [], _, .variable hreach hkind hty hdims, by simpa [Generator.grow] using hend⟩
      · rename_i h0
        obtain ⟨p, m', ha, rfl⟩ := hend
        have hne : indices ≠ [] := fun hnil => h0 (by simp [hnil])
        exact ⟨_, _, m', .element hreach hkind hty hne hcode ha,
          by simp [Generator.grow, hcode.length_eq]⟩
  | .unary op e, g, hready, hlit => by
    refine (Does.step rfl (@pushOperator_of_ne _ (.unary op) (by simp))
      (.after (does_expr e hready hlit)
      fun x code m h => .last rfl (@acts_collapse _ _ (.unary op) _ _ rfl (acts_unary rfl fun hR =>
        (h.ready (hready hR)).layout)))).congr fun g' => ⟨?_, ?_⟩
    · rintro ⟨_, _, _, h, rfl⟩
      cases h with
      | unary h hty ha => exact ⟨_, _, _, h, _, hty, _, _, ha, by simp [Generator.grow]⟩
    · rintro ⟨x, code, m₁, h, ty, hty, a, m, ha, rfl⟩
      exact ⟨_, _, _, .unary h hty ha, by simp [Generator.grow]⟩
  | .binary op l r, g, hready, hlit => by
    simp only [Expr.actions, List.cons_append, List.append_assoc]
    refine (Does.after (does_expr l hready fun hR => (hlit hR).1) fun x code m hx =>
      .step rfl (@pushOperator_of_ne _ (.binary op) (by simp)) (.after
        (does_expr r (fun hR => hx.ready (hready hR)) fun hR => (hlit hR).2) fun y code' m' hy =>
        .last rfl (@acts_collapse _ _ (.binary op) _ _ rfl (acts_binary rfl fun hR =>
          (hy.ready (hx.ready (hready hR))).layout)))).congr fun g' => ⟨?_, ?_⟩
    · rintro ⟨_, _, _, h, rfl⟩
      cases h with
      | binary hx hy hty ha =>
        exact ⟨_, _, _, hx, _, _, _, hy, _, hty, _, _, ha, by simp [Generator.grow]⟩
    · rintro ⟨x, code, m₁, hx, y, code', m₂, hy, ty, hty, a, m, ha, rfl⟩
      exact ⟨_, _, _, .binary hx hy hty ha, by simp [Generator.grow]⟩

theorem does_args : (es : List Expr) → {g : Generator} → {call : Call} → {rest : List Call} →
    g.calls = call :: rest → (R → g.names.Ready outer inner fs g.memory) →
      (R → Expr.allLiterals Plain es) →
    Does (Expr.argumentActions es) g R fun g' => ∃ ps code m,
      (ArgsCode g.names ps es g.memory code m ∧
      ps <+: (g.names.params call.callee).drop call.passed) ∧
        g' = { g.extended m code g.operands with
          calls := { call with passed := call.passed + es.length } :: rest }
  | [], g, call, rest, hcall, _, _ => by
    refine Does.nil.congr fun g' => ⟨?_, ?_⟩
    · rintro ⟨_, _, _, ⟨h, -⟩, rfl⟩
      cases h
      simp [Generator.grow, ← hcall]
    · rintro rfl
      exact ⟨[], [], _, ⟨.nil, List.nil_prefix⟩, by simp [Generator.grow, ← hcall]⟩
  | e :: es, g, call, rest, hcall, hready, hlit => by
    refine (Does.after (does_expr e hready fun hR => (hlit hR).1) fun x code m hx =>
      .act rfl (acts_argument hcall rfl) fun p hp =>
        does_args es rfl (fun hR => hx.ready (hready hR)) fun hR => (hlit hR).2).congr fun g' =>
          ⟨?_, ?_⟩
    · rintro ⟨_, _, _, ⟨h, hfront⟩, rfl⟩
      cases h with
      | cons hx hty hes =>
        obtain ⟨hp, hfront⟩ := cons_prefix_drop.1 hfront
        refine ⟨_, _, _, hx, _, ⟨hp, hty⟩, _, _, _, ⟨hes, hfront⟩, ?_⟩
        simp [Generator.grow, Nat.add_assoc, Nat.add_comm 1]
    · rintro ⟨x, code, m, hx, p, ⟨hp, hty⟩, ps, code', m', ⟨hes, hfront⟩, rfl⟩
      refine ⟨p :: ps, _, m', ⟨.cons hx hty hes, cons_prefix_drop.2 ⟨hp, hfront⟩⟩, ?_⟩
      simp [Generator.grow, Nat.add_assoc, Nat.add_comm 1]

theorem does_indices : (es : List Expr) → {g : Generator} → {r : Reference} →
    {rest : List Reference} → g.references = r :: rest →
      (R → g.names.Ready outer inner fs g.memory) →
    (R → Expr.allLiterals Plain es) →
    Does (Expr.indexActions es) g R fun g' => ∃ ds code m,
      (IndicesCode g.names ds es g.memory code m ∧
      ds <+: r.symbol.dims.drop r.indices) ∧ g' = { g.extended m code g.operands with
        references := { r with indices := r.indices + es.length } :: rest }
  | [], g, r, rest, hr, _, _ => by
    refine Does.nil.congr fun g' => ⟨?_, ?_⟩
    · rintro ⟨_, _, _, ⟨h, -⟩, rfl⟩
      cases h
      simp [Generator.grow, ← hr]
    · rintro rfl
      exact ⟨[], [], _, ⟨.nil, List.nil_prefix⟩, by simp [Generator.grow, ← hr]⟩
  | e :: es, g, r, rest, hr, hready, hlit => by
    simp only [Expr.indexActions, List.cons_append]
    refine (Does.act rfl (acts_indexStart hr) fun d hd =>
      .after (does_expr e hready fun hR => (hlit hR).1) fun x code m hx =>
        .check rfl (acts_indexEnd hr rfl rfl hd) fun hty =>
          does_indices es rfl (fun hR => hx.ready (hready hR)) fun hR => (hlit hR).2).congr
      fun g' => ⟨?_, ?_⟩
    · rintro ⟨_, _, _, ⟨h, hfront⟩, rfl⟩
      cases h with
      | cons hx hty hes =>
        obtain ⟨hd, hfront⟩ := cons_prefix_drop.1 hfront
        refine ⟨_, hd, _, _, _, hx, hty, _, _, _, ⟨hes, hfront⟩, ?_⟩
        simp [Generator.grow, Nat.add_assoc, Nat.add_comm 1]
    · rintro ⟨d, hd, x, code, m, hx, hty, ds, code', m', ⟨hes, hfront⟩, rfl⟩
      refine ⟨d :: ds, _, m', ⟨.cons hx hty hes, cons_prefix_drop.2 ⟨hd, hfront⟩⟩, ?_⟩
      simp [Generator.grow, Nat.add_assoc, Nat.add_comm 1]

end

/-! ## Statements -/

/-- What a place is found at can be assigned to. -/
theorem ExprCode.addressable {names : Names} {p : Place} {x : TypedOperand} {code : List Quad}
    {m' : Memory} (h : ExprCode names p.expr m x code m') : x.addressable = true := by
  obtain ⟨name, members, indices⟩ := p
  cases h with
  | «variable» _ _ _ _ => rfl
  | element _ _ _ _ _ _ => rfl

/-- The actions of values append their code, if the action that uses a value takes all of them. -/
theorem does_uses {act : Action} {p : Generate Unit} {use : Operand → Quad}
    (hperform : perform act = do p; return Reply.done) : (es : List Expr) →
    (∀ e ∈ es, ∀ {g : Generator} {m x code m' xs}, ExprCode g.names e m x code m' →
      g.operands = x :: xs → Acts p g R fun g' => Typing.isPrimitive x.ty = true ∧
        g' = { g with quads := g.quads.push (use x.operand), operands := xs }) →
    {g : Generator} → (R → g.names.Ready outer inner fs g.memory) →
      (R → Expr.allLiterals Plain es) →
    Does (es.flatMap fun e => e.actions ++ [act]) g R (g.Appends (UsesCode g.names use es g.memory))
  | [], _, g, _, _ => by
    refine Does.nil.congr fun g' => ⟨?_, ?_⟩
    · rintro ⟨_, _, h, rfl⟩
      cases h
      simp [Generator.grow]
    · rintro rfl
      exact ⟨[], _, .nil, by simp [Generator.grow]⟩
  | e :: es, hact, g, hready, hlit => by
    simp only [List.flatMap_cons, List.append_assoc, List.singleton_append]
    refine (Does.after (does_expr e hready fun hR => (hlit hR).1) fun x code m hx =>
      .check hperform (hact e (List.mem_cons_self ..) hx rfl) fun hty => does_uses hperform es
        (fun e he => hact e (List.mem_cons_of_mem _ he)) (fun hR => hx.ready (hready hR)) fun hR =>
          (hlit hR).2).congr fun g' => ⟨?_, ?_⟩
    · rintro ⟨_, _, h, rfl⟩
      cases h with
      | cons hx hty hes => exact ⟨_, _, _, hx, hty, _, _, hes, by simp [Generator.grow]⟩
    · rintro ⟨x, code, m, hx, hty, code', m', hes, rfl⟩
      exact ⟨_, _, .cons hx hty hes, by simp [Generator.grow]⟩

/-- A condition with the statements under it leaves its jump open for what follows. -/
theorem does_guarded {act : Action} (hact : perform act = do jumpIfFalse; return Reply.done)
    {c : Expr}
    {body : List Stmt} {Q : TypedOperand → List Quad → List Quad → Memory → Generator → Prop}
    (hbody : ∀ {g : Generator}, (R → g.names.Ready outer inner fs g.memory) →
      Does (Stmt.allActions body) g R
      (g.Appends (StmtsCode g.names g.callee? g.quads.size body g.memory)))
    (hready : R → g.names.Ready outer inner fs g.memory) (hlit : R → c.Literals Plain)
    (has : ∀ x code code' m, (R → g.names.Ready outer inner fs m) →
      Does as { g.extended m (code ++ openSkip x.operand :: code') g.operands with
        jumps := (g.quads.size + code.length) :: g.jumps } R (Q x code code' m)) :
    Does (c.actions ++ act :: (Stmt.allActions body ++ as)) g R fun g' => ∃ x code m,
      ExprCode g.names c g.memory x code m ∧ x.ty = .bool ∧ ∃ code' m',
        StmtsCode g.names g.callee? (g.quads.size + code.length + 1) body m code' m' ∧
          Q x code code' m' g' := by
  refine .after (does_expr c hready hlit) fun x code m hx =>
    .check hact (acts_jumpIfFalse rfl) fun _ => ?_
  have hready' (hR : R) := hx.ready (hready hR)
  have hstate : { g.extended m code g.operands with
      quads := (g.quads ++ code.toArray).push (openSkip x.operand)
      jumps := (g.quads ++ code.toArray).size :: g.jumps } =
      { g.extended m (code ++ [openSkip x.operand]) g.operands with
        jumps := (g.quads.size + code.length) :: g.jumps } := by simp [Generator.grow]
  rw [← size_append_snoc g.quads code (openSkip x.operand)]
  refine hstate ▸ Does.over (hbody hready') fun code' m' h => ?_
  simpa [Generator.grow] using has x code code' m' fun hR => h.ready (hready' hR)

/-- The other branch: the first one jumps over it, and the condition jumps to it. -/
theorem does_other {other : List Stmt}
    (hother : ∀ {g : Generator}, (R → g.names.Ready outer inner fs g.memory) →
      Does (Stmt.allActions other) g R
        (g.Appends (StmtsCode g.names g.callee? g.quads.size other g.memory)))
    (x : Operand) (code code' : List Quad) (hready : R → g.names.Ready outer inner fs m) :
    Does (.orElse :: (Stmt.allActions other ++ [.endIf]))
      { g.extended m (code ++ openSkip x :: code') g.operands with
        jumps := (g.quads.size + code.length) :: g.jumps } R fun g' => ∃ code'' m',
        StmtsCode g.names g.callee? (g.quads.size + code.length + 1 + code'.length + 1) other m
          code'' m' ∧
        g' = g.extended m'
          (code ++ skipQuad x (g.quads.size + code.length + 1 + code'.length + 1) :: code' ++
            jumpQuad (g.quads.size + code.length + 1 + code'.length + 1 + code''.length) ::
              code'') g.operands := by
  -- The code in front of the jump is kept under a name: it is no position to rewrite below.
  obtain ⟨t, ht⟩ : ∃ t, t = g.quads.size + code.length + 1 + code'.length + 1 := ⟨_, rfl⟩
  obtain ⟨front, hfront⟩ : ∃ front, front = code ++ skipQuad x t :: code' := ⟨_, rfl⟩
  have hpos : g.quads.size + code.length + 1 + code'.length = g.quads.size + front.length := by
    simp [hfront]
    omega
  have hturn (n : Int) : orElse (Generator.onLine
    { g.extended m (code ++ openSkip x :: code') g.operands with
      jumps := (g.quads.size + code.length) :: g.jumps } n) = .ok () (Generator.onLine
      { g.extended m (front ++ [{ op := .goto }]) g.operands with
        jumps := (g.quads.size + front.length) :: g.jumps } n) := by
    rw [← hpos]
    refine (orElse_of_open rfl (getElem?_middle ..) rfl n).trans ?_
    simp only [Generator.grow, push_append, List.append_assoc, List.cons_append,
      setIfInBounds_middle, size_append_middle, hfront, ht, skipQuad, openSkip]
  rw [← ht, ← hfront, ht, hpos, ← size_append_snoc g.quads front { op := .goto }]
  refine .step rfl hturn (.over (hother hready) fun code'' m' _ => .last rfl (.ok fun n => ?_))
  refine (fillJump_of_open (q := { op := .goto }) rfl ?_ rfl n).trans ?_
  · simp only [Generator.grow, append_snoc, getElem?_middle]
  · simp only [Generator.grow, append_snoc, setIfInBounds_middle, size_append_middle,
      List.length_nil, Nat.add_zero, jumpQuad]

mutual

/-- The actions of a statement append its code. -/
theorem does_stmt : (s : Stmt) → {g : Generator} → (R → g.names.Ready outer inner fs g.memory) →
    (R → s.Literals Plain) →
    Does s.actions g R (g.Appends (StmtCode g.names g.callee? g.quads.size s g.memory))
  | .assign p e, g, hready, hlit => by
    simp only [Stmt.actions, List.cons_append, List.append_assoc]
    refine (Does.after (does_expr p.expr hready fun hR => (hlit hR).1) fun x code m hx =>
      .check rfl (acts_pushOperator_assign rfl) fun _ => .after
        (does_expr e (fun hR => hx.ready (hready hR)) fun hR => (hlit hR).2) fun y code' m' hy =>
        .last rfl (@acts_collapse _ _ .assign _ _ rfl (acts_assign rfl))).congr fun g' => ⟨?_, ?_⟩
    · rintro ⟨_, _, h, rfl⟩
      cases h with
      | assign hx hy hty =>
        exact ⟨_, _, _, hx, hx.addressable, _, _, _, hy, hty, by simp [Generator.grow]⟩
    · rintro ⟨x, code, m, hx, -, y, code', m', hy, hty, rfl⟩
      exact ⟨_, _, .assign hx hy hty, by simp [Generator.grow]⟩
  | .call function args, g, hready, hlit => by
    refine (Does.act rfl acts_callStart fun f hf => .after (does_args args rfl hready hlit)
      fun ps code m h => .last rfl (acts_callEnd rfl rfl (fun hR => ?_) fun hR => ?_)).congr
      fun g' => ⟨?_, ?_⟩
    · exact (h.1.ready (hready hR)).layout
    · exact (hready hR).called hf
    · rintro ⟨_, _, h, rfl⟩
      cases h with
      | call hf hargs =>
        have hps := (prefix_whole hargs.length_eq).2 rfl
        exact ⟨_, hf, _, _, _, ⟨hargs, hps.1⟩, hps.2, by simp [Generator.grow]⟩
    · rintro ⟨f, hf, ps, code, m, ⟨hargs, hfront⟩, hlength, rfl⟩
      obtain rfl := (prefix_whole hargs.length_eq).1 ⟨hfront, hlength⟩
      exact ⟨_, _, .call hf hargs, by simp [Generator.grow]⟩
  | .read places, g, hready, hlit => by
    have hall : Does ((places.map Place.expr).flatMap fun e => e.actions ++ [.read]) g R
        (g.Appends (UsesCode g.names readQuad (places.map Place.expr) g.memory)) := by
      refine does_uses rfl _ (fun e he _ _ _ _ _ _ hx hxs => ?_) hready hlit
      obtain ⟨p, -, rfl⟩ := List.mem_map.1 he
      exact (acts_read hxs).congr (by simp [hx.addressable])
    rw [List.flatMap_map] at hall
    refine hall.congr fun g' => ⟨?_, ?_⟩
    · rintro ⟨_, _, h, rfl⟩
      cases h with
      | read h => exact ⟨_, _, h, rfl⟩
    · rintro ⟨code, m, h, rfl⟩
      exact ⟨code, m, .read h, rfl⟩
  | .write values, g, hready, hlit => by
    refine (does_uses rfl values (fun e he _ _ _ _ _ _ _ hxs => acts_write hxs) hready hlit).congr
      fun g' => ⟨?_, ?_⟩
    · rintro ⟨_, _, h, rfl⟩
      cases h with
      | write h => exact ⟨_, _, h, rfl⟩
    · rintro ⟨code, m, h, rfl⟩
      exact ⟨code, m, .write h, rfl⟩
  | .ret none, g, hready, hlit => by
    refine (Does.last rfl acts_ret_void).congr fun g' => ⟨?_, ?_⟩
    · rintro ⟨_, _, h, rfl⟩
      cases h with
      | retNone hf hty => exact ⟨_, hf, hty, by simp [Generator.grow]⟩
    · rintro ⟨f, hf, hty, rfl⟩
      exact ⟨_, _, .retNone hf hty, by simp [Generator.grow]⟩
  | .ret (some e), g, hready, hlit => by
    refine (Does.after (does_expr e hready hlit) fun x code m hx =>
      .last rfl (acts_ret_value rfl)).congr fun g' => ⟨?_, ?_⟩
    · rintro ⟨_, _, h, rfl⟩
      cases h with
      | retSome hf hx hty hprimitive =>
        exact ⟨_, _, _, hx, _, hf, hty, hprimitive, by simp [Generator.grow]⟩
    · rintro ⟨x, code, m, hx, f, hf, hty, hprimitive, rfl⟩
      exact ⟨_, _, .retSome hf hx hty hprimitive, by simp [Generator.grow]⟩
  | .branch c body, g, hready, hlit => by
    simp only [Stmt.actions, List.cons_append, List.append_assoc]
    refine (does_guarded rfl (fun hready => does_stmts body hready fun hR => (hlit hR).2) hready
      (fun hR => (hlit hR).1) fun x code code' m _ =>
        .last rfl (.ok (fillJump_of_open rfl (getElem?_middle ..) rfl))).congr fun g' => ?_
    simp only [Generator.grow, setIfInBounds_middle, size_append_middle]
    constructor
    · rintro ⟨_, _, h, rfl⟩
      cases h with
      | branch hx hty hbody => exact ⟨_, _, _, hx, hty, _, _, hbody, rfl⟩
    · rintro ⟨x, code, m, hx, hty, code', m', hbody, rfl⟩
      exact ⟨_, _, .branch hx hty hbody, rfl⟩
  | .branchElse c body other, g, hready, hlit => by
    simp only [Stmt.actions, List.cons_append, List.append_assoc]
    refine (does_guarded rfl (fun hready => does_stmts body hready fun hR => (hlit hR).2.1) hready
      (fun hR => (hlit hR).1) fun x code code' m =>
        does_other (fun hready => does_stmts other hready
        fun hR => (hlit hR).2.2) x.operand code code').congr fun g' => ⟨?_, ?_⟩
    · rintro ⟨_, _, h, rfl⟩
      cases h with
      | branchElse hx hty hbody hother => exact ⟨_, _, _, hx, hty, _, _, hbody, _, _, hother, rfl⟩
    · rintro ⟨x, code, m, hx, hty, code', m', hbody, code'', m'', hother, rfl⟩
      exact ⟨_, _, .branchElse hx hty hbody hother, rfl⟩
  | .loop c body, g, hready, hlit => by
    simp only [Stmt.actions, List.cons_append, List.append_assoc]
    refine (Does.step rfl whileStart_eq_ok (does_guarded rfl
      (fun hready => does_stmts body hready fun hR => (hlit hR).2) hready (fun hR => (hlit hR).1)
      fun x code code' m _ =>
        .last rfl (.ok (whileEnd_of_open rfl (getElem?_middle ..) rfl)))).congr
      fun g' => ?_
    simp only [Generator.grow, push_append, List.append_assoc, List.cons_append,
      setIfInBounds_middle, size_append_middle]
    constructor
    · rintro ⟨_, _, h, rfl⟩
      cases h with
      | loop hx hty hbody =>
        exact ⟨_, _, _, hx, hty, _, _, hbody, by simp [Generator.grow, skipQuad, openSkip]⟩
    · rintro ⟨x, code, m, hx, hty, code', m', hbody, rfl⟩
      exact ⟨_, _, .loop hx hty hbody, by simp [Generator.grow, skipQuad, openSkip]⟩

theorem does_stmts : (ss : List Stmt) → {g : Generator} →
    (R → g.names.Ready outer inner fs g.memory) → (R → Stmt.allLiterals Plain ss) →
    Does (Stmt.allActions ss) g R (g.Appends (StmtsCode g.names g.callee? g.quads.size ss g.memory))
  | [], g, _, _ => by
    refine Does.nil.congr fun g' => ⟨?_, ?_⟩
    · rintro ⟨_, _, h, rfl⟩
      cases h
      simp [Generator.grow]
    · rintro rfl
      exact ⟨[], _, .nil, by simp [Generator.grow]⟩
  | s :: ss, g, hready, hlit => by
    refine (Does.over (does_stmt s hready fun hR => (hlit hR).1) fun code m h =>
      does_stmts ss (fun hR => h.ready (hready hR)) fun hR => (hlit hR).2).congr fun g' => ⟨?_, ?_⟩
    · rintro ⟨_, _, h, rfl⟩
      cases h with
      | cons hs hss =>
        rw [← size_append_toArray] at hss
        exact ⟨_, _, hs, _, _, hss, by simp [Generator.grow]⟩
    · rintro ⟨code, m, hs, code', m', hss, rfl⟩
      have hss' : StmtsCode g.names g.callee? (g.quads.size + code.length) ss m code' m' := by
        rw [← size_append_toArray]
        exact hss
      exact ⟨_, _, .cons hs hss', by simp [Generator.grow]⟩

end

/-! ## Trees -/

section Trees

variable {x : TypedOperand} {code : List Quad} {events : List Event}

theorem Does.performs {P : Generator → Prop} (h : Does as g R P) (hp : Performs as g g') :
    ∃ g₁ n, P g₁ ∧ g' = g₁.onLine n := by
  obtain ⟨events, he, hok⟩ := hp
  exact h.found (n := g.line) he hok

/-- What the actions of an expression did when they were performed. -/
theorem perform_expr (e : Expr) (h : Performs e.actions g g') :
    ∃ x code m n, ExprCode g.names e g.memory x code m ∧
      g' = g.grow n m code (x :: g.operands) := by
  obtain ⟨_, n, ⟨x, code, m, hcode, rfl⟩, rfl⟩ :=
    (@does_expr [] [] [] False e g False.elim False.elim).performs h
  exact ⟨x, code, m, n, hcode, rfl⟩

theorem perform_stmt (s : Stmt) (h : Performs s.actions g g') :
    ∃ code m n, StmtCode g.names g.callee? g.quads.size s g.memory code m ∧
      g' = g.grow n m code g.operands := by
  obtain ⟨_, n, ⟨code, m, hcode, rfl⟩, rfl⟩ :=
    (@does_stmt [] [] [] False s g False.elim False.elim).performs h
  exact ⟨code, m, n, hcode, rfl⟩

theorem perform_stmts (ss : List Stmt) (h : Performs (Stmt.allActions ss) g g') :
    ∃ code m n, StmtsCode g.names g.callee? g.quads.size ss g.memory code m ∧
      g' = g.grow n m code g.operands := by
  obtain ⟨_, n, ⟨code, m, hcode, rfl⟩, rfl⟩ :=
    (@does_stmts [] [] [] False ss g False.elim False.elim).performs h
  exact ⟨code, m, n, hcode, rfl⟩

theorem achieves_expr (e : Expr) (h : ExprCode g.names e g.memory x code m) (events : List Event)
    (n : Int) (he : events.map (·.action) = e.actions) :
    ∃ n', performAll events (g.onLine n) = .ok ()
      ((g.extended m code (x :: g.operands)).onLine n') :=
  (@does_expr [] [] [] False e g False.elim False.elim).reached he ⟨x, code, m, h, rfl⟩ n

theorem achieves_stmt (s : Stmt) (h : StmtCode g.names g.callee? g.quads.size s g.memory code m)
    (events : List Event) (n : Int) (he : events.map (·.action) = s.actions) :
    ∃ n', performAll events (g.onLine n) = .ok () ((g.extended m code g.operands).onLine n') :=
  (@does_stmt [] [] [] False s g False.elim False.elim).reached he ⟨code, m, h, rfl⟩ n

/-- Statements fail only for causes in their meaning. -/
theorem orderly_stmts (ss : List Stmt) (hready : g.names.Ready outer inner fs g.memory)
    (hlit : Stmt.allLiterals Plain ss) : OrderlyAll (Stmt.allActions ss) g :=
  (does_stmts ss (fun _ : True => hready) fun _ => hlit).meant trivial g.line

end Trees

end Quadlang
