-- Readings of statements, declarations and whole texts. A text that cannot be read to its end has
-- asked for the beginning of what some tree asks for, all of it is on the lines of the text, and it
-- is never the bound on nesting that stops the reading.
import Quadlang.Proofs.Source.Places
import Quadlang.Proofs.Source.Reading

namespace Quadlang.Source

open Grammar Success

variable {c c' c₁ : Cursor} {k bound level width : Nat} {α β : Type} {word : String}
  {ts : List Token} {cause : SyntaxCause}

/-! ## Statements -/

/-- The readers of statements read what spells them. -/
abbrev ReadsStmt (k : Nat) (p : Parser Unit) : Prop := Reads k p Stmt.Spelled Stmt.actions

theorem Stmt.Spelled.ne_nil {s : Stmt} (h : Stmt.Spelled s ts) : ts ≠ [] := by
  cases h with
  | read h | write h =>
    cases h
    simp
  | _ => simp

section Statements

variable {statement : Parser Unit}

theorem reads_statements (hstatement : ReadsStmt k statement) (hk : k ≤ 5 * bound) :
    Reads k (statements statement bound) (Closed "\x7d" (InRow Stmt.Spelled)) Stmt.allActions := by
  induction bound generalizing k with
  | zero => exact fun c => leads_tooDeep (.refl c) hk
  | succ bound ih =>
    intro c
    refine leads_skip (.refl c) (fun r c₁ hr h₁ => ?_) fun _ => leads_peek ?_
    · exact leads_pure h₁ ⟨[], ⟨[], r, .nil, hr, rfl⟩, rfl⟩
    split
    · rename_i heof
      exact leads_fail (.refl c) ⟨[], [], rfl, .nil⟩ heof rfl
    · refine hstatement.bind (.refl c) (by simp)
        (fun s => ⟨[s], [], by simp [Stmt.allActions], .nil⟩)
        fun s ts c₁ hs h₁ => ?_
      have hpositive := List.length_pos_iff.2 hs.ne_nil
      refine leads_last ((ih (hstatement.mono (Nat.sub_le k 5)) (by omega)).bind h₁ (by simp; omega)
        (fun ss => ⟨s :: ss, [], by simp [Stmt.allActions], .nil⟩) ?_)
      rintro ss _ c₂ ⟨us, r, hss, hr, rfl⟩ h₂
      exact leads_pure h₂ ⟨s :: ss, ⟨_, r, .cons hs hss, hr, by simp⟩, by simp [Stmt.allActions]⟩

theorem reads_block (hstatement : ReadsStmt k statement) (hk : k ≤ 5 * bound) :
    Reads k (block statement bound) (Between "\x7b" "\x7d" (InRow Stmt.Spelled))
      Stmt.allActions := by
  intro c
  refine leads_expect (.refl c) ⟨[], [], rfl, .nil⟩ fun l c₁ hl h₁ => ?_
  refine leads_last ((reads_statements hstatement hk).bind h₁ (by simp)
    (fun ss => ⟨ss, [], by simp, .nil⟩) ?_)
  rintro ss _ c₂ ⟨ts, r, hss, hr, rfl⟩ h₂
  exact leads_pure h₂ ⟨ss, ⟨l, ts, r, hl, hss, hr, by simp⟩, by simp⟩

theorem reads_condition (hk : k ≤ bound - 4) :
    Reads k (condition bound) (Between "(" ")" Expr.Spelled) Expr.actions := by
  intro c
  refine leads_expect (.refl c) begun_expr fun l c₁ hl h₁ => ?_
  have hbegun : ∀ e : Expr, Begun Expr.actions ([] ++ e.actions) := fun e => ⟨e, [], by simp, .nil⟩
  refine (reads_expression hk).bind h₁ (by simp) hbegun fun e ts c₂ he h₂ => ?_
  refine leads_last (leads_expect h₂ (hbegun e) fun r c₃ hr h₃ => leads_pure h₃ ⟨e, ?_, by simp⟩)
  exact ⟨l, ts, r, hl, he, hr, by simp⟩

/-- A statement that begins with `if`. -/
def Branching (s : Stmt) (ts : List Token) : Prop :=
  (∃ first rest, ts = first :: rest ∧ first.is (ascii "if")) ∧ Stmt.Spelled s ts

section

variable (hstatement : ReadsStmt (k - 5) statement) (hinner : k - 5 ≤ level - 4)
  (hwidth : k ≤ 5 * width + 5)

include hstatement hinner hwidth

theorem leads_conditional (hk : k ≤ 5 * bound) (hif : c.next.is (ascii "if")) :
    Leads k c (fun ts as _ => ∃ s, Branching s ts ∧ as = s.actions) Stmt.actions
      (conditional (condition level) (block statement width) bound c) := by
  induction bound generalizing k c with
  | zero => exact leads_tooDeep (.refl c) hk
  | succ bound ih =>
    have hbody : Reads _ (block statement width) _ _ := reads_block hstatement (by omega)
    refine leads_take_word (.refl c) hif fun t c₁ hif h₁ => ?_
    refine (reads_condition hinner).bind h₁ (by simp; omega) (fun e =>
      ⟨.branch e [], [.ifCond, .endIf], by simp [Stmt.actions, Stmt.allActions], by simp⟩) ?_
    rintro e _ c₂ ⟨l, ts, r, hl, he, hr, rfl⟩ h₂
    have hcond : Condition "if" e (t :: l :: ts ++ [r]) := .mk hif hl he hr
    refine leads_fire h₂ rfl fun c₃ h₃ => hbody.bind h₃ (by simp; omega) (fun ss =>
      ⟨.branch e ss, [.endIf], by simp [Stmt.actions], by simp⟩) ?_
    rintro ss _ c₄ ⟨l', us, r', hl', hss, hr', rfl⟩ h₄
    refine leads_skip h₄ (fun els c₅ hels h₅ => leads_fire h₅ rfl fun c₆ h₆ =>
      leads_peek ?_) fun _ => ?_
    · split
      · rename_i hif'
        refine (ih (hstatement.mono (Nat.sub_le (k - 5) 5)) (by omega) (by omega)
          (by omega) hif').bind h₆
          (by simp; omega) (fun other => ⟨.branchElse e ss [other], [.endIf], by
            simp [Stmt.actions, Stmt.allActions], by simp⟩) ?_
        rintro vs _ c₇ ⟨other, ⟨hfirst, hother⟩, rfl⟩ h₇
        refine leads_last (leads_fire h₇ rfl fun c₈ h₈ => leads_pure h₈ ⟨.branchElse e ss [other],
          ⟨⟨t, _, by simp; rfl, hif⟩, ?_⟩, by simp [Stmt.actions, Stmt.allActions]⟩)
        simpa using Stmt.Spelled.branchElseIf hcond hl' hss hr' hels hfirst hother
      · refine hbody.bind h₆ (by simp; omega) (fun ss' => ⟨.branchElse e ss ss', [.endIf], by
          simp [Stmt.actions], by simp⟩) ?_
        rintro ss' _ c₇ ⟨l'', vs, r'', hl'', hss', hr'', rfl⟩ h₇
        refine leads_last (leads_fire h₇ rfl fun c₈ h₈ => leads_pure h₈ ⟨.branchElse e ss ss',
          ⟨⟨t, _, by simp; rfl, hif⟩, ?_⟩, by simp [Stmt.actions]⟩)
        simpa using Stmt.Spelled.branchElse hcond hl' hss hr' hels hl'' hss' hr''
    · refine leads_last (leads_fire h₄ rfl fun c₅ h₅ => leads_pure h₅ ⟨.branch e ss,
        ⟨⟨t, _, by simp; rfl, hif⟩, ?_⟩, by simp [Stmt.actions]⟩)
      simpa using Stmt.Spelled.branch hcond hl' hss hr'

theorem leads_loop (hw : c.next.is (ascii "while")) :
    Leads k c (fun ts as _ => ∃ s, Stmt.Spelled s ts ∧ as = s.actions) Stmt.actions
      (loop (condition level) (block statement width) c) := by
  refine leads_take_word (.refl c) hw fun t c₁ hw h₁ => leads_fire h₁ rfl fun c₂ h₂ => ?_
  refine (reads_condition hinner).bind h₂ (by simp; omega) (fun e =>
    ⟨.loop e [], [.whileCond, .whileEnd], by simp [Stmt.actions, Stmt.allActions], by simp⟩) ?_
  rintro e _ c₃ ⟨l, ts, r, hl, he, hr, rfl⟩ h₃
  refine leads_fire h₃ rfl fun c₄ h₄ => ?_
  refine (reads_block hstatement (by omega)).bind h₄ (by simp; omega) (fun ss =>
    ⟨.loop e ss, [.whileEnd], by simp [Stmt.actions], by simp⟩) ?_
  rintro ss _ c₅ ⟨l', us, r', hl', hss, hr', rfl⟩ h₅
  refine leads_last (leads_fire h₅ rfl fun c₆ h₆ => leads_pure h₆ ⟨.loop e ss, ?_,
    by simp [Stmt.actions]⟩)
  simpa using Stmt.Spelled.loop (.mk hw hl he hr) hl' hss hr'

end

theorem leads_listed {item : Parser Unit} {Spelled : α → List Token → Prop}
    {actions : α → List Action}
    (hitem : Reads (k - 5) item Spelled actions) (hne : ∀ {a ts}, Spelled a ts → ts ≠ [])
    {action : Action} (hk : k ≤ 5 * bound + 5) (hw : c.next.is (ascii word))
    (haction : ∀ ty v, action ≠ .pushConst ty v) :
    Leads k c (fun ts as _ => ∃ items, Commanded word Spelled items ts ∧
        as = items.flatMap fun a => actions a ++ [action])
      (fun items : List α => items.flatMap fun a => actions a ++ [action])
      (listed item action bound c) := by
  refine leads_take_word (.refl c) hw fun t c₁ hw h₁ => ?_
  refine leads_expect h₁ ⟨[], [], rfl, .nil⟩ fun l c₂ hl h₂ => ?_
  have hbegun : ∀ items : List α, Begun (fun items : List α => items.flatMap fun a =>
    actions a ++ [action])
      ([] ++ items.flatMap fun a => actions a ++ [action]) := fun items =>
        ⟨items, [], by simp, .nil⟩
  refine (reads_items (hitem.fire action haction) hne (by omega)).bind h₂ (by simp; omega)
    hbegun ?_
  rintro items _ c₃ ⟨ts, r, hitems, hr, rfl⟩ h₃
  refine leads_last (leads_expect h₃ (hbegun items) fun close c₄ hclose h₄ => ?_)
  exact leads_pure h₄ ⟨items, by simpa using Commanded.mk hw hl hitems hr hclose, by simp⟩

theorem leads_returned (hk : k - 5 ≤ bound - 4) (hw : c.next.is (ascii "return")) :
    Leads k c (fun ts as _ => ∃ s, Stmt.Spelled s ts ∧ as = s.actions) Stmt.actions
      (returned bound c) := by
  refine leads_take_word (.refl c) hw fun t c₁ hw h₁ => leads_skip h₁ (fun close c₂ hclose h₂ =>
    ?_) fun _ => ?_
  · refine leads_last (leads_fire h₂ rfl fun c₃ h₃ =>
      leads_pure h₃ ⟨.ret none, ?_, by simp [Stmt.actions]⟩)
    simpa using Stmt.Spelled.retNone hw hclose
  · refine (reads_expression hk).bind h₁ (by simp; omega) (fun e => ⟨.ret (some e), [.ret true], by
      simp [Stmt.actions], by simp⟩) fun e ts c₂ he h₂ => leads_fire h₂ rfl fun c₃ h₃ => ?_
    refine leads_last (leads_expect h₃ ⟨.ret (some e), [], by simp [Stmt.actions], .nil⟩
      fun close c₄ hclose h₄ => leads_pure h₄ ⟨.ret (some e), ?_, by simp [Stmt.actions]⟩)
    simpa using Stmt.Spelled.retSome hw he hclose

theorem reads_assignment (hk : k - 5 ≤ bound - 4) : ReadsStmt k (assignment bound) := by
  intro c
  have hbegun : ∀ p : Place, Begun Stmt.actions ([] ++ p.expr.actions) := fun p =>
    ⟨.assign p (.reference [] [] []), _, by simp [Stmt.actions]; rfl, by simp [Expr.actions,
    Expr.indexActions]⟩
  refine (reads_reference (reads_expression hk) (by omega)).bind (.refl c) (by simp) hbegun
    fun p ts c₁ hp h₁ => ?_
  refine leads_expect h₁ (hbegun p) fun t c₂ ht h₂ => leads_fire h₂ rfl fun c₃ h₃ => ?_
  refine (reads_expression hk).bind h₃ (by simp; omega)
    (fun e => ⟨.assign p e, [.collapse Level.assign], by
    simp [Stmt.actions], by simp⟩) fun e us c₄ he h₄ => leads_fire h₄ rfl fun c₅ h₅ => ?_
  refine leads_last (leads_expect h₅ ⟨.assign p e, [], by simp [Stmt.actions], .nil⟩
    fun close c₆ hclose h₆ => leads_pure h₆ ⟨.assign p e, ?_, by simp [Stmt.actions]⟩)
  simpa using Stmt.Spelled.assign hp ht he hclose

end Statements

/-- The trees of a reading may be parts of others. -/
theorem Leads.wrap {Q Q' : List Token → List Action → Cursor → Prop} {actions : α → List Action}
    {actions' : β → List Action} {r : EStateM.Result SyntaxError Cursor Unit}
    (h : Leads k c Q actions r) (hq : ∀ {ts as c'}, Q ts as c' → Q' ts as c')
    (hbegun : ∀ a, Begun actions' (actions a)) : Leads k c Q' actions' r := by
  unfold Leads at h ⊢
  split at h
  · obtain ⟨ts, as, hts, htook⟩ := h
    exact ⟨ts, as, hq hts, htook⟩
  · intro hc
    obtain ⟨as, ⟨a, bs, ha, hbs⟩, hstopped⟩ := h hc
    obtain ⟨b, rest, hb, hrest⟩ := hbegun a
    exact ⟨as, ⟨b, bs ++ rest, by rw [hb, ha, List.append_assoc], by simp [hbs, hrest]⟩, hstopped⟩

theorem reads_statement (hk : k ≤ bound) : ReadsStmt k (statement bound) := by
  induction bound generalizing k with
  | zero => exact fun c => leads_tooDeep (.refl c) (by simp; omega)
  | succ bound ih =>
    intro c
    have hinner : k - 5 ≤ bound - 4 := by omega
    have hexpression := reads_expression hinner
    have hbody := @ih (k - 5) (by omega)
    refine leads_peek ?_
    split
    · rename_i hw
      refine (leads_conditional hbody hinner (by omega) (by omega) hw).wrap ?_ fun s =>
        ⟨s, [], by simp, .nil⟩
      rintro ts as - ⟨s, hs, has⟩
      exact ⟨s, hs.2, has⟩
    rename_i hif
    split
    · rename_i hw
      exact leads_loop hbody hinner (by omega) hw
    rename_i hwhile
    split
    · rename_i hw
      refine (leads_listed (reads_reference (hexpression.mono (Nat.sub_le (k - 5) 5)) (by omega))
        Expr.Spelled.ne_nil (by omega) hw (by simp)).wrap ?_
        fun ps => ⟨.read ps, [], by simp [Stmt.actions], .nil⟩
      rintro ts as - ⟨ps, hps, has⟩
      exact ⟨.read ps, .read hps, by simpa [Stmt.actions] using has⟩
    rename_i hread
    split
    · rename_i hw
      refine (leads_listed hexpression Expr.Spelled.ne_nil (by omega) hw (by simp)).wrap ?_
        fun es => ⟨.write es, [], by simp [Stmt.actions], .nil⟩
      rintro ts as - ⟨es, hes, has⟩
      exact ⟨.write es, .write hes, by simpa [Stmt.actions] using has⟩
    rename_i hwrite
    split
    · rename_i hw
      exact leads_returned hinner hw
    rename_i hret
    split
    · rename_i hkind
      refine leads_peekSecond ?_
      split
      · refine leads_take fun c₁ htake => ?_
        have h₁ := (Took.refl c).take htake (by simp [hkind])
        have hbegun : ∀ args, Begun Stmt.actions
            ([] ++ (.callStart c.next.text :: Expr.argumentActions args ++ [.callEnd true])) :=
          fun args => ⟨.call c.next.text args, [], by simp [Stmt.actions], .nil⟩
        refine (reads_call hexpression (by omega) _ _).bind h₁ (by simp; omega) hbegun ?_
        rintro args _ c₂ ⟨l, ts, r, hl, hargs, hr, rfl⟩ h₂
        refine leads_last (leads_expect h₂ (hbegun args) fun close c₃ hclose h₃ => leads_pure h₃
          ⟨.call c.next.text args, ?_, by simp [Stmt.actions]⟩)
        have hopens : opensStatement c.next = false := by
          simp [opensStatement, hif, hwhile, hread, hwrite, hret]
        simpa using Stmt.Spelled.call hkind hopens hl hargs hr hclose
      · exact reads_assignment hinner c
    · exact leads_fail (.refl c) ⟨.read [], [], by simp [Stmt.actions], .nil⟩ rfl rfl

/-! ## Declarations -/

theorem reads_dimensions (hk : k ≤ 5 * bound) :
    Reads k (dimensions bound) (Bracketed Sized) (·.map .addDim) := by
  induction bound generalizing k with
  | zero => exact fun c => leads_tooDeep (.refl c) hk
  | succ bound ih =>
    intro c
    refine leads_skip (.refl c) (fun l c₁ hl h₁ => ?_) fun _ => leads_pure (.refl c) ⟨[], .nil, rfl⟩
    refine leads_take fun c₂ htake => ?_
    have hbegun : Begun (fun sizes : List Int64 => sizes.map Action.addDim) [] :=
      ⟨[], [], rfl, .nil⟩
    split
    · exact leads_refuse h₁ htake hbegun rfl rfl
    · rename_i hkind
      have hkind : c₁.next.kind = .int := by simpa using hkind
      cases hr : Decimal.readInt c₁.next.text with
      | error _ => exact leads_refuse h₁ htake hbegun ⟨hkind, rfl⟩ rfl
      | ok n =>
        refine leads_fire (h₁.take htake (by simp [hkind])) rfl fun c₃ h₃ => ?_
        refine leads_expect h₃ ⟨[n], [], by simp, .nil⟩ fun r c₄ hr' h₄ => ?_
        refine leads_last ((@ih (k - 5) (by omega)).bind h₄ (by simp; omega)
          (fun sizes => ⟨n :: sizes, [], by simp, .nil⟩) fun sizes ts c₅ hsizes h₅ => ?_)
        exact leads_pure h₅ ⟨n :: sizes, by simpa using .cons hl (.mk hkind hr) hr' hsizes, by simp⟩

/-- Enumerated names with commas between them. -/
def Enumerated (ds : List Declarator) (ts : List Token) : Prop :=
  ∃ d ds' us vs, ds = d :: ds' ∧ Declarator.Spelled d us ∧ Following Declarator.Spelled ds' vs ∧
  ts = us ++ vs

theorem reads_names (hk : k ≤ 5 * bound) :
    Reads k (names bound) Enumerated (·.flatMap Declarator.actions) := by
  induction bound generalizing k with
  | zero => exact fun c => leads_tooDeep (.refl c) hk
  | succ bound ih =>
    intro c
    refine leads_ident (.refl c) ⟨[], [], rfl, .nil⟩ fun t c₁ ht h₁ =>
      leads_fire h₁ rfl fun c₂ h₂ => ?_
    refine (reads_dimensions hk).bind h₂ (by simp) (fun sizes => ⟨[⟨t.text, sizes⟩], [], by
      simp [Declarator.actions], .nil⟩) fun sizes ts c₃ hsizes h₃ => ?_
    have hname : Declarator.Spelled ⟨t.text, sizes⟩ ([t] ++ ts) := .mk (.mk ht) hsizes
    refine leads_skip h₃ (fun comma c₄ hcomma h₄ => ?_) fun _ => ?_
    · refine leads_last ((@ih (k - 5) (by omega)).bind h₄ (by simp; omega) (fun ds =>
        ⟨⟨t.text, sizes⟩ :: ds, [], by simp [Declarator.actions], .nil⟩) ?_)
      rintro _ _ c₅ ⟨d, ds, us, vs, rfl, hd, hds, rfl⟩ h₅
      refine leads_pure h₅ ⟨⟨t.text, sizes⟩ :: d :: ds, ?_, by simp [Declarator.actions]⟩
      exact ⟨_, _, _, _, rfl, hname, .cons hcomma hd hds, by simp⟩
    · exact leads_pure h₃ ⟨[⟨t.text, sizes⟩], ⟨_, _, _, _, rfl, hname, .nil, by simp⟩, by
        simp [Declarator.actions]⟩

theorem reads_variableList (hk : k ≤ 5 * bound) :
    Reads k (variableList bound) Variables.Spelled Variables.actions := by
  intro c
  refine leads_typeName (.refl c) ⟨⟨[], []⟩, _, rfl, by simp⟩ fun t c₁ ht h₁ => ?_
  have hbegun : ∀ ds : List Declarator, Begun Variables.actions ([] ++
    ds.flatMap Declarator.actions) := fun ds =>
    ⟨⟨t.text, ds⟩, [.declarePending t.text], by simp [Variables.actions], by simp⟩
  refine (reads_names hk).bind h₁ (by simp) hbegun ?_
  rintro _ _ c₂ ⟨d, ds, us, vs, rfl, hd, hds, rfl⟩ h₂
  refine leads_expect h₂ (hbegun _) fun close c₃ hclose h₃ =>
    leads_last (leads_fire h₃ rfl fun c₄ h₄ => ?_)
  exact leads_pure h₄ ⟨⟨t.text, d :: ds⟩,
    by simpa using Variables.Spelled.mk ht hd hds hclose, by simp [Variables.actions]⟩

theorem atDeclaration_eq (c : Cursor) : ∃ b, atDeclaration c = .ok b c := by
  show ∃ b, (if c.next.kind ≠ .identifier then pure false else _ : Parser Bool) c = .ok b c
  split
  · exact ⟨_, rfl⟩
  · cases Ty.ofWord? c.next.text with
    | some ty => exact ⟨_, rfl⟩
    | none =>
      split <;> exact ⟨_, rfl⟩

theorem Variables.Spelled.ne_nil {v : Variables} (h : v.Spelled ts) : ts ≠ [] := by
  cases h
  simp

theorem reads_declarations (hk : k ≤ 5 * bound) :
    Reads k (declarations bound) (InRow Variables.Spelled) (·.flatMap Variables.actions) := by
  induction bound generalizing k with
  | zero => exact fun c => leads_tooDeep (.refl c) hk
  | succ bound ih =>
    intro c
    unfold declarations
    obtain ⟨b, hb⟩ := atDeclaration_eq c
    rw [bind_of_ok hb]
    split
    · refine (reads_variableList hk).bind (.refl c) (by simp) (fun v => ⟨[v], [], by simp, .nil⟩)
        fun v ts c₁ hv h₁ => ?_
      have hpositive := List.length_pos_iff.2 hv.ne_nil
      refine leads_last ((@ih (k - 5) (by omega)).bind h₁ (by simp; omega)
        (fun vs => ⟨v :: vs, [], by simp, .nil⟩) fun vs us c₂ hvs h₂ => ?_)
      exact leads_pure h₂ ⟨v :: vs, by simpa using .cons hv hvs, by simp⟩
    · exact leads_pure (.refl c) ⟨[], .nil, rfl⟩

theorem reads_body (hk : k ≤ bound) : Reads k (body bound) Body.Spelled Body.actions := by
  intro c
  refine leads_expect (.refl c) ⟨⟨[], []⟩, [], rfl, .nil⟩ fun l c₁ hl h₁ => ?_
  refine (reads_declarations (k := k) (by omega)).bind h₁ (by simp) (fun vs => ⟨⟨vs, []⟩, [], by
    simp [Body.actions, Stmt.allActions], .nil⟩) fun vs ts c₂ hvs h₂ => ?_
  refine leads_last ((reads_statements (reads_statement hk) (by omega)).bind h₂ (by simp) (fun ss =>
    ⟨⟨vs, ss⟩, [], by simp [Body.actions], .nil⟩) ?_)
  rintro ss _ c₃ ⟨us, r, hss, hr, rfl⟩ h₃
  exact leads_pure h₃ ⟨⟨vs, ss⟩,
    by simpa using Body.Spelled.mk hl hvs hss hr, by simp [Body.actions]⟩

theorem leads_fields (hk : k ≤ 5 * bound) (c : Cursor) :
    Leads k c (fun ts as c' => ∃ vs, (InRow Variables.Spelled vs ts ∧ c'.next.is (ascii "\x7d")) ∧
      as = vs.flatMap Variables.actions) (fun vs : List Variables => vs.flatMap Variables.actions)
      (fields bound c) := by
  induction bound generalizing k c with
  | zero => exact leads_tooDeep (.refl c) hk
  | succ bound ih =>
    refine leads_peek ?_
    split
    · rename_i hr
      exact leads_pure (.refl c) ⟨[], ⟨.nil, hr⟩, rfl⟩
    · refine (reads_variableList hk).bind (.refl c) (by simp) (fun v => ⟨[v], [], by simp, .nil⟩)
        fun v ts c₁ hv h₁ => ?_
      have hpositive := List.length_pos_iff.2 hv.ne_nil
      refine leads_last ((@ih (k - 5) (by omega) c₁).bind h₁ (by simp; omega)
        (fun vs => ⟨v :: vs, [], by simp, .nil⟩) ?_)
      rintro us _ c₂ ⟨vs, ⟨hvs, hr⟩, rfl⟩ h₂
      exact leads_pure h₂ ⟨v :: vs, ⟨by simpa using .cons hv hvs, hr⟩, by simp⟩

/-! ## Programs -/

/-- How the reading of a part of some sort ends. -/
abbrev LeadsPart (k : Nat) (c : Cursor) (sort : α → Part)
    (r : EStateM.Result SyntaxError Cursor Unit) : Prop :=
  Leads k c (fun ts as _ => ∃ a, (sort a).Spelled ts ∧ as = (sort a).actions) Part.actions r

theorem begun_part : Begun Part.actions [] := ⟨.record [] [], _, rfl, by simp⟩

theorem leads_classDeclaration (hk : k ≤ 5 * bound) (hw : c.next.is (ascii "class")) :
    LeadsPart k c (Function.uncurry Part.record) (classDeclaration bound c) := by
  refine leads_take_word (.refl c) hw fun t c₁ hw h₁ => ?_
  refine leads_ident h₁ begun_part fun n c₂ hn h₂ => leads_fire h₂ rfl fun c₃ h₃ => ?_
  refine leads_expect h₃ ⟨.record n.text [], [.leaveScope], by simp [Part.actions], by simp⟩
    fun l c₄ hl h₄ => (leads_fields hk c₄).bind h₄ (by simp)
    (fun vs => ⟨.record n.text vs, [.leaveScope], by
      simp [Part.actions], by simp⟩) ?_
  rintro us _ c₅ ⟨vs, ⟨hvs, hr⟩, rfl⟩ h₅
  refine leads_take_word h₅ hr fun r c₆ hr h₆ => ?_
  have hclose : ∀ {ws c₇}, (ws = [] ∨ ∃ close, close.is (ascii ";") ∧ ws = [close]) →
      Took c ([] ++ [t] ++ [n] ++ [l] ++ us ++ [r] ++ ws)
        ([] ++ [.declareClass n.text] ++ vs.flatMap Variables.actions) c₇ →
      LeadsPart k c (Function.uncurry Part.record) (fire .leaveScope c₇) :=
    fun {ws c₇} hws h₇ =>
    leads_last (leads_fire h₇ rfl fun c₈ h₈ => leads_pure h₈ ⟨(n.text, vs), by
      simpa using Part.Spelled.record hw (.mk hn) hl hvs hr hws, by simp [Part.actions]⟩)
  have hskip : LeadsPart k c (Function.uncurry Part.record)
    ((do if ← skip ";" then fire .leaveScope else fire .leaveScope : Parser Unit) c₆) :=
    leads_skip h₆ (fun close c₇ hw h₇ => hclose (.inr ⟨close, hw, rfl⟩) h₇)
      fun _ => hclose (.inl rfl) (by simpa using h₆)
  simpa only [ite_self] using hskip

theorem reads_parameter : Reads k parameter Parameter.Spelled fun p => [p.action] := by
  intro c
  have hbegun : Begun (fun p : Parameter => [p.action]) [] :=
    ⟨⟨[], []⟩, _, rfl, by simp [Parameter.action, Action.declareParam]⟩
  refine leads_typeName (.refl c) hbegun fun t c₁ ht h₁ =>
    leads_ident h₁ hbegun fun n c₂ hn h₂ => ?_
  exact leads_last (leads_fire h₂ rfl fun c₃ h₃ => leads_pure h₃ ⟨⟨t.text, n.text⟩, .mk ht (.mk hn),
    rfl⟩)

theorem Parameter.Spelled.ne_nil {p : Parameter} (h : p.Spelled ts) : ts ≠ [] := by
  cases h
  simp

theorem leads_functionDeclaration (hk : k ≤ bound) (hw : c.next.is (ascii "func")) :
    LeadsPart k c Part.function (functionDeclaration bound c) := by
  refine leads_take_word (.refl c) hw fun t c₁ hw h₁ =>
    leads_typeName h₁ begun_part fun ty c₂ hty h₂ => ?_
  refine leads_ident h₂ begun_part fun n c₃ hn h₃ => leads_fire h₃ rfl fun c₄ h₄ => ?_
  refine leads_expect h₄ ⟨.function ⟨ty.text, n.text, [], ⟨[], []⟩⟩, [.endFunction], by
    simp [Part.actions, Function.actions, Body.actions, Stmt.allActions], by simp⟩
    fun l c₅ hl h₅ => ?_
  refine (reads_items (k := k) reads_parameter Parameter.Spelled.ne_nil (by omega)).bind h₅
    (by simp) (fun ps =>
    ⟨.function ⟨ty.text, n.text, ps, ⟨[], []⟩⟩, [.endFunction], by
      simp [Part.actions, Function.actions, Body.actions, Stmt.allActions, List.map_eq_flatMap],
        by simp⟩) ?_
  rintro ps _ c₆ ⟨us, r, hps, hr, rfl⟩ h₆
  refine (reads_body hk).bind h₆ (by simp) (fun b =>
    ⟨.function ⟨ty.text, n.text, ps, b⟩, [.endFunction], by
      simp [Part.actions, Function.actions, List.map_eq_flatMap], by simp⟩) fun b vs c₇ hb h₇ => ?_
  refine leads_last (leads_fire h₇ rfl fun c₈ h₈ =>
    leads_pure h₈ ⟨⟨ty.text, n.text, ps, b⟩, ?_, ?_⟩)
  · simpa using Part.Spelled.function (.mk hw hty (.mk hn) hl hps hr hb)
  · simp [Part.actions, Function.actions, List.map_eq_flatMap]

/-- The actions of the parts of a program and of its main body. -/
def partActions (parts : List Part × Body) : List Action :=
  parts.1.flatMap Part.actions ++ .main :: parts.2.actions

/-- The parts of a program and its main body, behind which the text ends. -/
def PartsEnd (ts : List Token) (as : List Action) (c : Cursor) : Prop :=
  ∃ ps us m b vs, InRow Part.Spelled ps us ∧ m.is (ascii "main") ∧ Body.Spelled b vs ∧
    c.next.kind = .endOfFile ∧ ts = us ++ m :: vs ∧ as = partActions (ps, b)

theorem leads_mainBody (hk : k ≤ bound) (hw : c.next.is (ascii "main")) :
    Leads k c PartsEnd partActions (mainBody bound c) := by
  have hbegun : ∀ b : Body, Begun partActions ([] ++ [.main] ++ b.actions) := fun b =>
    ⟨([], b), [], by simp [partActions], .nil⟩
  refine leads_take_word (.refl c) hw fun m c₁ hm h₁ => leads_fire h₁ rfl fun c₂ h₂ => ?_
  refine (reads_body hk).bind h₂ (by simp) hbegun fun b ts c₃ hb h₃ => leads_peek ?_
  split
  · exact leads_fail h₃ (hbegun b) rfl rfl
  · rename_i hend
    exact leads_pure h₃ ⟨[], [], m, b, ts, .nil, hm, hb,
      by simpa using hend, by simp, by simp [partActions]⟩

theorem Part.Spelled.ne_nil {p : Part} (h : p.Spelled ts) : ts ≠ [] := by
  cases h with
  | record => simp
  | function h =>
    cases h
    simp
  | declaration h => exact h.ne_nil

theorem leads_parts (hk : k ≤ bound) (c : Cursor) :
    Leads k c PartsEnd partActions (parts bound c) := by
  induction bound generalizing k c with
  | zero => exact leads_tooDeep (.refl c) (by simp; omega)
  | succ bound ih =>
    have hempty : ConstantActions Plain (.main :: (⟨[], []⟩ : Body).actions) := by
      simp [Body.actions, Stmt.allActions]
    -- A part and the parts behind it.
    have hpart : ∀ {α : Type} {sort : α → Part} {p : Parser Unit}, LeadsPart k c sort (p c) →
        Leads k c PartsEnd partActions ((do p; parts bound : Parser Unit) c) := by
      intro α sort p hp
      refine hp.bind (.refl c) (by simp) (fun a =>
        ⟨([a], ⟨[], []⟩), _, by simp [partActions], hempty⟩) ?_
      rintro ts _ c₁ ⟨a, ha, rfl⟩ h₁
      have hpositive := List.length_pos_iff.2 ha.ne_nil
      refine leads_last ((@ih (k - 5) (by omega) c₁).bind h₁ (by simp; omega)
        (fun ps => ⟨(sort a :: ps.1, ps.2), [], by simp [partActions], .nil⟩) ?_)
      rintro us _ c₂ ⟨ps, vs, m, b, ws, hps, hm, hb, hend, rfl, rfl⟩ h₂
      exact leads_pure h₂ ⟨sort a :: ps, ts ++ vs, m, b, ws, .cons ha hps, hm, hb, hend, by simp, by
        simp [partActions]⟩
    refine leads_peek ?_
    split
    · rename_i hw
      exact hpart (leads_classDeclaration (by omega) hw)
    split
    · rename_i hw
      exact hpart (leads_functionDeclaration hk hw)
    split
    · rename_i hw
      exact leads_mainBody hk hw
    split
    · refine @hpart _ Part.declaration _ ((reads_variableList (by omega : k ≤ 5 * (bound + 1))
        c).wrap ?_ fun v =>
        ⟨.declaration v, [], by simp [Part.actions], .nil⟩)
      rintro ts as - ⟨v, hv, has⟩
      exact ⟨v, .declaration hv, has⟩
    · exact leads_fail (.refl c) ⟨([], ⟨[], []⟩), _, rfl, hempty⟩ rfl rfl

theorem leads_program (hk : k ≤ bound) (c : Cursor) :
    Leads k c (fun ts as c' => ∃ tree : Tree, (Tree.Spelled tree ts ∧ c'.next.kind = .endOfFile) ∧
      as = tree.actions) Tree.actions (program bound c) := by
  have hbegun : Begun Tree.actions [] :=
    ⟨⟨[], [], ⟨[], []⟩⟩, _, rfl, by simp [Body.actions, Stmt.allActions]⟩
  refine leads_expect (.refl c) hbegun fun t c₁ hw h₁ => leads_ident h₁ hbegun fun n c₂ hn h₂ => ?_
  refine leads_expect h₂ hbegun fun close c₃ hclose h₃ => leads_fire h₃ rfl fun c₄ h₄ => ?_
  refine leads_last ((leads_parts hk c₄).bind h₄ (by simp) (fun ps =>
    ⟨⟨n.text, ps.1, ps.2⟩, [], by simp [Tree.actions, partActions], .nil⟩) ?_)
  rintro us _ c₅ ⟨ps, vs, m, b, ws, hps, hm, hb, hend, rfl, rfl⟩ h₅
  refine leads_pure h₅ ⟨⟨n.text, ps, b⟩, ⟨?_, hend⟩, by simp [Tree.actions, partActions]⟩
  simpa using Tree.Spelled.mk hw (.mk hn) hclose hps hm hb

/-- A bound of more than five levels for every token is not reached. -/
theorem program_stops {e : SyntaxError} (h : program bound c = .error e c')
    (hbound : 5 * c.rest.length < bound) : ∃ as, Begun Tree.actions as ∧ Stopped c as e c' := by
  have hleads := leads_program (Nat.le_refl bound) c
  rw [h] at hleads
  exact hleads (Nat.lt_of_lt_of_le hbound (Nat.le_add_right ..))

theorem lt_depth (n : Nat) : 5 * n < depth n := by
  unfold depth
  omega

/-! ## Texts -/

/-- What holds of each token as it is found holds of all tokens of a text. -/
theorem scanFrom_forall {Q : Token → Prop} {read : List Token} {line : Nat} {b : Bytes}
    {ts : Tokens} (h : Token.scanFrom read line b = .ok ts) (hr : ∀ t ∈ read, Q t)
    (hfirst : ∀ {c r kind text rest line}, Token.first c r = .ok (kind, text, rest) →
      Q ⟨kind, text, line⟩) : ∀ t ∈ ts.list, Q t := by
  fun_induction Token.scanFrom read line b with
  | case1 =>
    cases h
    simpa using hr
  | case2 _ _ _ ih => exact ih h hr
  | case3 _ _ _ _ _ _ ih => exact ih h hr
  | case4 _ _ _ _ _ _ _ ih => exact ih h hr
  | case5 => cases h
  | case6 read line c r _ _ _ kind text rest hfound ih =>
    refine ih h fun t ht => ?_
    rcases List.mem_cons.1 ht with rfl | ht
    · exact hfirst hfound
    · exact hr t ht

/-- A token is not the end of the file, and a floating-point number begins with a digit. -/
theorem first_kind {c : UInt8} {r text rest : Bytes} {kind : Token.Kind}
    (h : Token.first c r = .ok (kind, text, rest)) :
    kind ≠ .endOfFile ∧ (kind = .float → ∃ r', text = c :: r' ∧ Token.isDigit c = true) := by
  unfold Token.first at h
  split at h
  · cases h
    simp
  split at h
  · rename_i hdigit
    simp only [Token.number] at h
    grind
  split at h
  · unfold Token.literal at h
    grind
  · unfold Token.punctuation at h
    grind

/-- The tokens that a whole reading without an error took spell a tree, and its events are
the actions of the tree. -/
theorem read_spelled {ts : Tokens} {r : Reading} (hr : Grammar.read ts = r) (he : r.error = none)
    (hk : ∀ t ∈ ts.list, t.kind ≠ .endOfFile) :
    ∃ tree, Tree.Spelled tree ts.list ∧ r.events.map (·.action) = tree.actions := by
  unfold Grammar.read at hr
  split at hr
  · rename_i c hp
    have hleads := @leads_program 0 (depth ts.list.length) (Nat.zero_le _)
      ⟨ts.list, ts.lastLine, 0, []⟩
    rw [hp] at hleads
    obtain ⟨us, _, ⟨tree, ⟨htree, hend⟩, rfl⟩, ht⟩ := hleads
    have hrest : c.rest = [] := by
      rcases hc : c.rest with _ | ⟨t, rest⟩
      · rfl
      · have hmem : t ∈ ts.list := by
          have := ht.rest
          simp only [hc] at this
          simp [this]
        simp only [Cursor.next, hc] at hend
        exact absurd hend (hk t hmem)
    have hlist : ts.list = us := by simpa [hrest] using ht.rest
    refine ⟨tree, hlist ▸ htree, ?_⟩
    subst hr
    simp [List.map_reverse, ht.events]
  · subst hr
    simp at he

/-- The number of lines of a text. -/
def lines (text : Bytes) : Nat := 1 + text.count Token.newline

theorem first_cause {c : UInt8} {r : Bytes} (h : Token.first c r = .error cause) :
    cause ≠ .tooDeep := by
  unfold Token.first at h
  split at h
  · cases h
  split at h
  · cases h
  split at h
  · unfold Token.literal at h
    grind
  · unfold Token.punctuation at h
    grind

/-- Tokens and errors stand on lines of the text. -/
theorem scanFrom_lines {n : Nat} {read : List Token} {line : Nat} {b : Bytes}
    (hread : ∀ t ∈ read, OnLine n t.line) (hline : 1 ≤ line)
    (hn : line + b.count Token.newline ≤ n) :
    (∀ ts, Token.scanFrom read line b = .ok ts →
      (∀ t ∈ ts.list, OnLine n t.line) ∧ OnLine n ts.lastLine) ∧
    ∀ e, Token.scanFrom read line b = .error e → OnLine n e.line ∧ e.cause ≠ .tooDeep := by
  fun_induction Token.scanFrom read line b with
  | case1 =>
    refine ⟨?_, fun e h => by cases h⟩
    rintro ts ⟨⟩
    exact ⟨by simpa using hread, hline, by simpa using hn⟩
  | case2 read line r ih =>
    refine ih hread (by omega) ?_
    rw [List.count_cons_self] at hn
    omega
  | case3 read line c r hne _ ih =>
    refine ih hread hline ?_
    rw [List.count_cons_of_ne hne] at hn
    exact hn
  | case4 read line c r hne _ _ ih =>
    refine ih hread hline (Nat.le_trans ?_ hn)
    rw [List.count_cons_of_ne hne]
    have hdrop : (r.dropWhile (· ≠ Token.newline)).Sublist r := List.dropWhile_sublist _
    have := hdrop.count_le Token.newline
    omega
  | case5 read line c r hne _ _ cause hfirst =>
    refine ⟨fun ts h => (by cases h), ?_⟩
    rintro e ⟨⟩
    exact ⟨⟨hline, Nat.le_of_add_right_le hn⟩, first_cause hfirst⟩
  | case6 read line c r hne _ _ kind text rest hfirst ih =>
    have hhere : OnLine n line := ⟨hline, Nat.le_of_add_right_le hn⟩
    refine ih (List.forall_mem_cons.2 ⟨hhere, hread⟩) hline ?_
    rw [List.count_cons_of_ne hne, (Token.first_inline hfirst).count_eq] at hn
    exact hn

/-- How a text with `n` lines reads: the events are the beginning of what some tree asks for, and
all of it if there is no error, and events and errors stand on lines of the text. -/
theorem read_beginning {n : Nat} {ts : Tokens} (hlines : ∀ t ∈ ts.list, OnLine n t.line)
    (hlast : OnLine n ts.lastLine) :
    (∃ (t : Tree) (bs : List Action), t.Literals Plain ∧
      t.actions = (Grammar.read ts).events.map (·.action) ++ bs ∧
      ((Grammar.read ts).error = none → bs = [])) ∧
    (∀ e ∈ (Grammar.read ts).events, OnLine n e.line) ∧
    ∀ e, (Grammar.read ts).error = some e → OnLine n e.line ∧ e.cause ≠ .tooDeep := by
  -- The line in front of the first token is of no account.
  have hstart : program (depth ts.list.length) ⟨ts.list, ts.lastLine, 0, []⟩ =
      program (depth ts.list.length) ⟨ts.list, ts.lastLine, ts.lastLine, []⟩ := rfl
  have hsane : Sane n ⟨ts.list, ts.lastLine, ts.lastLine, []⟩ :=
    ⟨hlines, hlast, hlast, by simp, by simp⟩
  have hplain : ∀ {c : Cursor}, Sane n c →
      ConstantActions Plain (c.events.reverse.map (·.action)) := by
    intro c hc ty v hv
    obtain ⟨e, he, ha⟩ := List.mem_map.1 hv
    exact hc.constants e (List.mem_reverse.1 he) ty v ha
  unfold Grammar.read
  rw [hstart]
  cases h : program (depth ts.list.length) ⟨ts.list, ts.lastLine, ts.lastLine, []⟩ with
  | ok u c =>
    have hleads := @leads_program 0 (depth ts.list.length) (Nat.zero_le _) ⟨ts.list, ts.lastLine,
      ts.lastLine, []⟩
    rw [h] at hleads
    obtain ⟨us, _, ⟨t, -, rfl⟩, htook⟩ := hleads
    have hc := htook.sane hsane
    have hactions : t.actions = c.events.reverse.map (·.action) := by
      simp [List.map_reverse, htook.events]
    refine ⟨⟨t, [], ?_, by simp [hactions], fun _ => rfl⟩, ?_, by simp⟩
    · rw [Tree.literals_iff, hactions]
      exact hplain hc
    · exact fun e he => hc.events e (List.mem_reverse.1 he)
  | error e c =>
    obtain ⟨as, ⟨t, bs, hactions, hbs⟩, hstop⟩ := program_stops h (lt_depth _)
    obtain ⟨hline, hc⟩ := hstop.sane hsane
    have has : c.events.reverse.map (·.action) = as := by simp [List.map_reverse, hstop.events]
    refine ⟨⟨t, bs, ?_, by rw [hactions, has], by simp⟩, ?_, ?_⟩
    · rw [Tree.literals_iff, hactions, ConstantActions.append, ← has]
      exact ⟨hplain hc, hbs⟩
    · exact fun e he => hc.events e (List.mem_reverse.1 he)
    · rintro e' ⟨⟩
      exact ⟨hline, hstop.cause⟩

end Quadlang.Source
