-- The labels of annotated listings. Every compiled program has such a listing, and a label that it
-- prints as an operand stands once on a line of its own, right in front of its instruction. Only
-- the label of the position behind the last instruction is missing.
import Quadlang.Program.Annotated
import Quadlang.Proofs.Generator.Outcomes
import Quadlang.Proofs.Generator.Strokes
import Quadlang.Proofs.Program.CallSites
import Quadlang.Proofs.Program.Listing
import Quadlang.Proofs.Text.Characters

namespace Quadlang

open Source Success
open Token (newline)

/-! ## The name of a program -/

section

open Generate

variable {g g' : Generator} {as : List Action} {a : Action}

theorem Row.name_eq {takes : Bool} (h : Row takes g g') : g'.name = g.name := by
  obtain ⟨g₁, hname, rfl | ⟨-, htake⟩⟩ := h.last (P := fun g₁ => g₁.name = g.name) rfl
    fun hname hstroke => by cases hstroke <;> exact hname
  · exact hname
  · cases htake <;> exact hname

theorem declare_name {id typeName : Bytes} {o : DeclOptions} {sym : Symbol}
    (h : declare id typeName o g = .ok sym g') : g'.name = g.name := by
  cases (declare_succeeds h).2 with
  | object =>
    unfold Generator.entering
    split <;> rfl
  | _ => rfl

theorem declareAll_name {typeName : Bytes} {ws : List Waiting} {u : Unit}
    (h : declareAll typeName ws g = .ok u g') : g'.name = g.name := by
  induction ws generalizing g with
  | nil =>
    obtain ⟨-, rfl⟩ := pure_eq_ok.1 h
    rfl
  | cons w ws ih =>
    obtain ⟨sym, g₁, hdeclare, h⟩ := bind_eq_ok.1 h
    exact (ih h).trans (declare_name hdeclare)

/-- Only the first action of a program gives it a name. -/
theorem perform_name {r : Reply} (ha : ∀ name, a ≠ .start name) (h : perform a g = .ok r g') :
    g'.name = g.name := by
  have hanswer : ∀ {α : Type} {x : Generate α} {f : α → Reply},
      (x >>= fun a => pure (f a)) g = .ok r g' → ∃ a, x g = .ok a g' := by
    intro α x f h
    obtain ⟨a, _, hx, hf⟩ := bind_eq_ok.1 h
    obtain ⟨-, rfl⟩ := pure_eq_ok.1 hf
    exact ⟨a, hx⟩
  cases hdraws : a.draws with
  | true =>
    rw [← after_of_ok h]
    exact (row_perform hdraws g).name_eq
  | false =>
    cases a with
    | start name => exact absurd rfl (ha name)
    | leaveScope =>
      obtain ⟨u, hx⟩ := hanswer h
      obtain ⟨_, _, -, rfl⟩ := leaveScope_eq_ok hx
      rfl
    | declare id typeName options =>
      obtain ⟨sym, hx⟩ := hanswer h
      exact declare_name hx
    | endFunction =>
      obtain ⟨u, hx⟩ := hanswer h
      obtain ⟨_, _, _, -, -, rfl⟩ := endFunction_eq_ok hx
      rfl
    | declareClass id =>
      obtain ⟨sym, hx⟩ := hanswer h
      obtain ⟨-, -, rfl⟩ := declareClass_eq_ok hx
      rfl
    | declarePending typeName =>
      obtain ⟨u, hx⟩ := hanswer h
      simp only [declarePending, get_bind, modify_bind] at hx
      exact (declareAll_name hx).trans rfl
    | pushConst ty v =>
      obtain ⟨u, hx⟩ := hanswer h
      obtain ⟨_, ⟨_, _, -, rfl⟩, rfl⟩ :=
        (acts_pushConst (R := False) False.elim False.elim).found (g := g) (n := g.line) hx
      rfl
    | _ => cases hdraws

theorem Performs.name_eq (hp : Performs as g g') (has : ∀ name, .start name ∉ as) :
    g'.name = g.name := by
  induction as generalizing g with
  | nil =>
    obtain rfl := performs_nil.1 hp
    rfl
  | cons a as ih =>
    obtain ⟨n, r, g₁, ha, hp⟩ := performs_cons hp
    have hname : g₁.name = g.name := perform_name (g := g.onLine n) (fun name heq =>
      has name (by simp [heq])) ha
    exact (ih hp fun name hmem => has name (List.mem_cons_of_mem a hmem)).trans hname

theorem start_not_mem_variables (name : Bytes) (v : Variables) : .start name ∉ v.actions := by
  simp [Variables.actions, Declarator.actions]

theorem Performs.name_body {b : Body} (hp : Performs b.actions g g') : g'.name = g.name := by
  obtain ⟨g₁, hvars, hstmts⟩ := performs_append hp
  obtain ⟨code, m, n, -, rfl⟩ := perform_stmts _ hstmts
  exact hvars.name_eq (by simp [start_not_mem_variables])

theorem Performs.name_parts {parts : List Part} (hp : Performs (parts.flatMap Part.actions) g g') :
    g'.name = g.name := by
  induction parts generalizing g with
  | nil =>
    obtain rfl := performs_nil.1 hp
    rfl
  | cons part parts ih =>
    obtain ⟨g₁, hp, hrest⟩ := performs_append hp
    refine (ih hrest).trans ?_
    cases part with
    | record name fields => exact hp.name_eq (by simp [Part.actions, start_not_mem_variables])
    | declaration v => exact hp.name_eq fun name => start_not_mem_variables name v
    | function f =>
      obtain ⟨g₃, hp, hend⟩ := performs_append hp
      obtain ⟨g₂, hp, hbody⟩ := performs_append hp
      have hopen := hp.name_eq (by simp [Action.declareFunction, Parameter.action,
        Action.declareParam])
      exact (hend.name_eq (by simp)).trans (hbody.name_body.trans hopen)

/-- A compiled program has the name that its text gives it. -/
theorem compile_name {text : Bytes} {p : Program} {t : Tree} (hread : t.ReadFrom text)
    (h : compile text = .ok p) : p.name = t.name := by
  obtain ⟨ts, r, hscan, hr, -, g, hall, -, rfl⟩ := compile_eq_ok h
  obtain ⟨ts', hscan', hactions⟩ := hread
  rw [hscan] at hscan'
  obtain rfl := Except.ok.inj hscan'
  rw [hr] at hactions
  have hperforms : Performs t.actions Generator.initial g := ⟨r.events, hactions, hall⟩
  obtain ⟨g₂, hperforms, hmain⟩ := performs_append hperforms
  obtain ⟨n, reply, g₁, hstart, hparts⟩ := performs_cons hperforms
  obtain ⟨n', reply', g₃, hbegin, hbody⟩ := performs_cons hmain
  simp only [perform, start, bind_eq_ok, modify_eq_ok, pure_eq_ok] at hstart
  obtain ⟨_, _, ⟨_, _, rfl, hjump⟩, -, rfl⟩ := hstart
  obtain rfl := emitJump_eq_ok hjump
  have hname := perform_name (g := g₂.onLine n') (by simp) hbegin
  exact hbody.name_body.trans (hname.trans hparts.name_parts)

end

/-- The words of a text end no line. -/
theorem first_identifier {c : UInt8} {r text rest : Bytes} {kind : Token.Kind}
    (h : Token.first c r = .ok (kind, text, rest)) (hkind : kind = .identifier) :
    newline ∉ text := by
  subst hkind
  unfold Token.first at h
  split at h
  · rename_i hletter
    cases h
    have hnewline : Token.isWordByte newline = false := by decide
    refine List.not_mem_cons_of_ne_of_not_mem ?_ fun hmem => ?_
    · rintro rfl
      exact absurd hletter (by decide)
    · have htrue := List.all_eq_true.1 List.all_takeWhile newline hmem
      rw [hnewline] at htrue
      cases htrue
  split at h
  · simp only [Token.number] at h
    grind
  split at h
  · unfold Token.literal at h
    grind
  · unfold Token.punctuation at h
    grind

theorem newline_not_mem_name {text : Bytes} {p : Program} (h : compile text = .ok p) :
    newline ∉ p.name := by
  obtain ⟨ts, t, hscan, hspelled, hread⟩ := compile_spelled h
  rw [compile_name hread h]
  have hwords : ∀ tok ∈ ts.list, tok.kind = .identifier → newline ∉ tok.text :=
    scanFrom_forall hscan (by simp) first_identifier
  generalize ts.list = list at hwords hspelled
  cases hspelled with
  | mk _ hname =>
    cases hname with
    | mk hname =>
      simp only [Grammar.isName, Bool.and_eq_true, decide_eq_true_eq] at hname
      exact hwords _ (by simp) hname.1

/-! ## Rows -/

namespace Program

/-- The line of a label. -/
def labelRow (n : Nat) : Bytes := ascii "L" ++ Bytes.ofNat n ++ ascii ":"

/-- The lines of instructions from a position on, each under its label if it has one. -/
def rows (labels : List Int) : (i : Nat) → List Bytes → List Bytes
  | _, [] => []
  | i, line :: lines =>
    (if labels.contains (i : Int) then [labelRow i] else []) ++ line :: rows labels (i + 1) lines

variable {labels : List Int} {i n : Nat} {line : Bytes} {lines lines' : List Bytes}

theorem labelRow_inj {m : Nat} (h : labelRow m = labelRow n) : m = n :=
  Bytes.ofNat_inj (List.append_cancel_left (List.append_cancel_right h))

theorem newline_not_mem_labelRow (n : Nat) : newline ∉ labelRow n := by
  simp +decide [labelRow, Bytes.newline_not_mem_ofNat]

theorem rows_append : rows labels i (lines ++ lines') =
    rows labels i lines ++ rows labels (i + lines.length) lines' := by
  induction lines generalizing i with
  | nil => rfl
  | cons line lines ih =>
    rw [List.cons_append, rows, rows, ih, List.length_cons, Nat.add_assoc, Nat.add_comm 1]
    simp

/-- A label comes right before its line and after the lines in front of it. -/
theorem rows_at (hline : lines[n]? = some line) (hlabel : (n : Int) ∈ labels) :
    ∃ after, rows labels 0 lines = rows labels 0 (lines.take n) ++ labelRow n :: line :: after := by
  obtain ⟨hlt, rfl⟩ := List.getElem?_eq_some_iff.1 hline
  refine ⟨rows labels (n + 1) (lines.drop (n + 1)), ?_⟩
  conv => lhs; rw [← List.take_append_drop n lines]
  rw [rows_append, List.length_take_of_le (Nat.le_of_lt hlt), Nat.zero_add,
    List.drop_eq_getElem_cons hlt, rows]
  simp [hlabel]

theorem mem_rows (h : line ∈ rows labels i lines) :
    line ∈ lines ∨ ∃ n, line = labelRow n ∧ i ≤ n ∧ n < i + lines.length := by
  induction lines generalizing i with
  | nil => cases h
  | cons first lines ih =>
    rw [rows, List.mem_append, List.mem_cons] at h
    rcases h with h | rfl | h
    · split at h
      · obtain rfl := List.mem_singleton.1 h
        exact .inr ⟨i, rfl, Nat.le_refl i, by simp⟩
      · cases h
    · exact .inl List.mem_cons_self
    · rcases ih h with h | ⟨n, rfl, hle, hlt⟩
      · exact .inl (List.mem_cons_of_mem first h)
      · exact .inr ⟨n, rfl, by omega, by rw [List.length_cons]; omega⟩

/-- No line of an instruction looks like a label. -/
theorem count_rows (hlines : ∀ n, labelRow n ∉ lines) (hlabel : (n : Int) ∈ labels) (hlow : i ≤ n)
    (hhigh : n < i + lines.length) : (rows labels i lines).count (labelRow n) = 1 := by
  induction lines generalizing i with
  | nil => simp at hhigh; omega
  | cons line lines ih =>
    have hline : line ≠ labelRow n := fun heq => hlines n (heq ▸ List.mem_cons_self)
    have hrest : ∀ n, labelRow n ∉ lines := fun n hmem => hlines n (List.mem_cons_of_mem line hmem)
    rw [rows, List.count_append, List.count_cons_of_ne hline]
    by_cases hi : i = n
    · subst hi
      have hnone : labelRow i ∉ rows labels (i + 1) lines := by
        intro hmem
        rcases mem_rows hmem with hmem | ⟨m, heq, hle, -⟩
        · exact hrest i hmem
        · have := labelRow_inj heq
          omega
      rw [List.count_eq_zero_of_not_mem hnone]
      simp [hlabel]
    · have hother : labelRow n ∉ (if labels.contains (i : Int) then [labelRow i] else []) := by
        split
        · rw [List.mem_singleton]
          exact fun heq => hi (labelRow_inj heq).symm
        · exact List.not_mem_nil
      rw [List.count_eq_zero_of_not_mem hother, Nat.zero_add,
        ih hrest (by omega) (by rw [List.length_cons] at hhigh; omega)]

end Program

/-! ## Texts of operands -/

/-- The operands of an instruction. -/
def Quad.operands (q : Quad) : List Operand := [q.arg1, q.arg2, q.res]

/-- An operand that is neither a label nor of an unknown kind. -/
def Operand.Plain (o : Operand) : Prop :=
  o.kind = .empty ∨ o.kind = .literal ∨ o.kind = .address ∨ o.kind = .pointer

/-- What an operand of an instruction may be: an instruction of the program is named in the last
place, or where a call begins. -/
def Operand.Printed (quads : List Quad) (q : Quad) (o : Operand) : Prop :=
  o.Plain ∨ (∃ n ≤ quads.length, o = .label n ∧ q.res = o) ∨ ∃ f : Callee, q = f.era ∧
  o = .label f.target

section

variable {quads : List Quad} {i : Nat} {q : Quad} {o : Operand} {ty : Ty}

theorem Operand.Denotes.plain {function : Option Addr} (h : o.Denotes quads function ty) :
    o.Plain := by
  cases h with
  | cell => exact .inr (.inr (.inl rfl))
  | pointer => exact .inr (.inr (.inr rfl))

theorem Fits.printed (h : Fits quads i q) :
    q.arg1.Printed quads q ∧ q.arg2.Printed quads q ∧ q.res.Printed quads q := by
  have hcell : ∀ {q a}, (Operand.cell a).Printed quads q := .inl (.inr (.inr (.inl rfl)))
  have hnone : ∀ {q}, Operand.none.Printed quads q := .inl (.inl rfl)
  have hliteral : ∀ {q n}, (Operand.literal n).Printed quads q := .inl (.inr (.inl rfl))
  cases h with
  | binary hx hy => exact ⟨.inl hx.plain, .inl hy.plain, hcell⟩
  | unary hx => exact ⟨.inl hx.plain, hnone, hcell⟩
  | copy hy hx => exact ⟨.inl hy.plain, hnone, .inl hx.plain⟩
  | result => exact ⟨hcell, hnone, hcell⟩
  | read hx | write hx => exact ⟨hnone, hnone, .inl hx.plain⟩
  | jump hlanding => exact ⟨hnone, hnone, .inr (.inl ⟨_, hlanding.last, rfl, rfl⟩)⟩
  | skip hx hlanding => exact ⟨.inl hx.plain, hnone, .inr (.inl ⟨_, hlanding.last, rfl, rfl⟩)⟩
  | @era f => exact ⟨.inr (.inr ⟨f, rfl, rfl⟩), hnone, hcell⟩
  | param hx => exact ⟨.inl hx.plain, hnone, hcell⟩
  | gosub _ hentry => exact ⟨hcell, hnone, .inr (.inl ⟨_, hentry.last, rfl, rfl⟩)⟩
  | retNone => exact ⟨hnone, hnone, hcell⟩
  | retSome _ _ hx => exact ⟨.inl hx.plain, hnone, hcell⟩
  | leave => exact ⟨hnone, hnone, hcell⟩
  | check hx => exact ⟨.inl hx.plain, hliteral, hliteral⟩
  | element => exact ⟨.inl (.inr (.inl rfl)), hliteral, hcell⟩

end

namespace Program

variable {p : Program} {i : Nat} {q : Quad} {o : Operand} {a : Addr} {ty : Ty} {v : Value}

/-- A text that is there and ends no line. -/
def Inline (r : Except ListingError Bytes) : Prop := ∃ s, r = .ok s ∧ newline ∉ s

theorem constantText_inline (h : v.HasType ty) : Inline (constantText ty v) := by
  cases v with
  | int n =>
    cases h
    exact ⟨_, rfl, Bytes.newline_not_mem_ofInt _⟩
  | float x =>
    cases h
    exact ⟨_, rfl, Decimal.newline_not_mem_ofFloat x⟩
  | char c =>
    cases h
    exact ⟨_, rfl, Text.newline_not_mem_quoteChar _⟩
  | bool b =>
    cases h
    exact ⟨_, rfl, by cases b <;> decide⟩
  | string s =>
    cases h
    exact ⟨_, rfl, Text.newline_not_mem_quote s⟩
  | nothing | foreign => cases h

theorem newline_not_mem_segment (segment : Segment) : newline ∉ segment.name := by
  cases segment with
  | other code => simp +decide [Segment.name, Bytes.ofWord, Bytes.newline_not_mem_ofInt]
  | _ => decide

theorem newline_not_mem_ty (ty : Ty) : newline ∉ ty.name := by
  cases ty with
  | other code => simp +decide [Ty.name, Bytes.ofWord, Bytes.newline_not_mem_ofInt]
  | _ => decide

/-- The constants of a charted program are of the types that their addresses tell. -/
theorem addressText_inline (h : Charted p) (a : Addr) :
    Inline (p.addressText p.layout.table a) := by
  unfold addressText
  cases hlocate : p.layout.table.locate? a with
  | none => exact ⟨_, rfl, Bytes.newline_not_mem_ofInt _⟩
  | some s =>
    have hplace : newline ∉ s.segment.name ++ ascii "." ++ s.ty.name ++ ascii "+" ++
      Bytes.ofWord (a - s.low) := by
      simp +decide [newline_not_mem_segment, newline_not_mem_ty, Bytes.ofWord,
        Bytes.newline_not_mem_ofInt]
    cases hconst : p.consts[a]? with
    | none => exact ⟨_, rfl, hplace⟩
    | some v =>
      by_cases hglobals : s.segment = .globals
      · obtain ⟨ty, hholds, hty⟩ := h.consts a v hconst
        obtain ⟨s', hs', -, rfl⟩ := Layout.standard_disjoint.locate?_of_holds hholds
        rw [h.layout, hs'] at hlocate
        obtain rfl := Option.some.inj hlocate
        obtain ⟨text, htext, hfree⟩ := constantText_inline hty
        refine ⟨_, by simp only [hglobals, if_true, htext]; rfl, ?_⟩
        simp only [hglobals] at hplace
        simpa +decide [hfree] using hplace
      · exact ⟨_, by simp only [hglobals, if_false]; rfl, hplace⟩

theorem operandText_inline (h : Charted p) {quads : List Quad} (ho : o.Printed quads q) (i : Nat)
    (op : Opcode) :
    Inline (p.operandText p.layout.table i op o) := by
  have hlabel : ∀ n, Inline (p.operandText p.layout.table i op (.label n)) :=
    fun n => ⟨_, rfl, by simp +decide [Operand.label, Bytes.newline_not_mem_ofInt]⟩
  rcases ho with (hkind | hkind | hkind | hkind) | ⟨n, -, rfl, -⟩ | ⟨f, -, rfl⟩
  · simp only [operandText, hkind]
    exact ⟨_, rfl, by decide⟩
  · simp only [operandText, hkind]
    exact ⟨_, rfl, by simp +decide [Bytes.newline_not_mem_ofInt]⟩
  · simp only [operandText, hkind]
    exact addressText_inline h o.word
  · obtain ⟨s, hs, hfree⟩ := addressText_inline h o.word
    simp only [operandText, hkind, hs]
    exact ⟨_, rfl, by simp +decide [hfree]⟩
  · exact hlabel n
  · exact hlabel f.target

/-! ## Listings -/

/-- The lines of some instructions, without the labels above them. -/
inductive Lines (p : Program) : (i : Nat) → List Quad → List Bytes → Prop
  | nil {i : Nat} : Lines p i [] []
  | cons {i : Nat} {q : Quad} {qs : List Quad} {line : Bytes} {lines : List Bytes} :
      p.annotatedLine p.layout.table [] i q = .ok (line ++ [newline]) →
      line.head? = some '\t'.toUInt8 → newline ∉ line → Lines p (i + 1) qs lines →
      Lines p i (q :: qs) (line :: lines)

variable {labels : List Int} {qs : List Quad} {lines : List Bytes} {line : Bytes}

/-- A label above a line is all that labels change. -/
theorem annotatedLine_eq {t : Table} (labels : List Int) (h : p.annotatedLine t [] i q = .ok line) :
    p.annotatedLine t labels i q =
      .ok ((if labels.contains (i : Int) then labelRow i ++ [newline] else []) ++ line) := by
  have hmark : ascii ":\n" = ascii ":" ++ [newline] := by decide
  unfold annotatedLine at h ⊢
  cases harg1 : p.operandText t i q.op q.arg1 with
  | error e =>
    rw [harg1] at h
    cases h
  | ok arg1 =>
    cases harg2 : p.operandText t i q.op q.arg2 with
    | error e =>
      rw [harg1, harg2] at h
      cases h
    | ok arg2 =>
      cases hres : p.operandText t i q.op q.res with
      | error e =>
        rw [harg1, harg2, hres] at h
        cases h
      | ok res =>
        rw [harg1, harg2, hres] at h
        cases h
        refine congrArg Except.ok ?_
        split <;> simp [labelRow, hmark]

/-- An instruction whose operands can be printed has a line. -/
theorem annotatedLine_inline (h : Charted p) {quads : List Quad}
    (hq : ∀ o ∈ q.operands, o.Printed quads q)
    (i : Nat) : ∃ line, p.annotatedLine p.layout.table [] i q = .ok (line ++ [newline]) ∧
      line.head? = some '\t'.toUInt8 ∧ newline ∉ line := by
  obtain ⟨arg1, harg1, hfree1⟩ := operandText_inline h (hq q.arg1 (by simp [Quad.operands])) i q.op
  obtain ⟨arg2, harg2, hfree2⟩ := operandText_inline h (hq q.arg2 (by simp [Quad.operands])) i q.op
  obtain ⟨res, hres, hfree⟩ := operandText_inline h (hq q.res (by simp [Quad.operands])) i q.op
  have hname := (Opcode.name_solid q.op).not_mem (.inr rfl)
  refine ⟨'\t'.toUInt8 :: (Bytes.padRight 8 q.op.name ++ ' '.toUInt8 :: arg1 ++ ascii ", " ++
    arg2 ++ ascii ", " ++ res), ?_, rfl, ?_⟩
  · unfold annotatedLine
    rw [harg1, harg2, hres]
    refine congrArg Except.ok ?_
    simp [show ascii "\t" = ['\t'.toUInt8] from rfl, Bytes.ascii_blank, Bytes.ascii_newline,
      Bytes.blank]
  · simp +decide [hfree1, hfree2, hfree, Bytes.padRight, hname]

theorem Lines.length_eq (h : Lines p i qs lines) : lines.length = qs.length := by
  induction h with
  | nil => rfl
  | cons _ _ _ _ ih => rw [List.length_cons, List.length_cons, ih]

theorem Lines.mem (h : Lines p i qs lines) (hline : line ∈ lines) :
    line.head? = some '\t'.toUInt8 ∧ newline ∉ line := by
  induction h with
  | nil => cases hline
  | cons _ htab hfree _ ih =>
    rcases List.mem_cons.1 hline with rfl | hline
    · exact ⟨htab, hfree⟩
    · exact ih hline

theorem Lines.get (h : Lines p i qs lines) {k : Nat} (hq : qs[k]? = some q) :
    ∃ line, lines[k]? = some line ∧
    p.annotatedLine p.layout.table [] (i + k) q = .ok (line ++ [newline]) := by
  induction h generalizing k with
  | nil => cases hq
  | cons hline _ _ _ ih =>
    cases k with
    | zero =>
      cases hq
      exact ⟨_, rfl, hline⟩
    | succ k =>
      obtain ⟨line, hk, hline⟩ := ih hq
      rw [Nat.add_right_comm] at hline
      exact ⟨line, hk, hline⟩

/-- A listing is made of the rows of its instructions. -/
theorem Lines.listed (h : Lines p i qs lines) (labels : List Int) : ∃ texts,
    (qs.zipIdx i).mapM (fun (q, i) => p.annotatedLine p.layout.table labels i q) = .ok texts ∧
      texts.flatten = (rows labels i lines).flatMap (· ++ [newline]) := by
  induction h with
  | nil => exact ⟨[], rfl, rfl⟩
  | @cons i q qs line lines hline _ _ _ ih =>
    obtain ⟨texts, htexts, hflatten⟩ := ih
    refine ⟨((if labels.contains (i : Int) then labelRow i ++ [newline] else []) ++
      (line ++ [newline])) :: texts, ?_, ?_⟩
    · rw [List.zipIdx_cons, List.mapM_cons, htexts]
      simp only [annotatedLine_eq labels hline]
      rfl
    · rw [List.flatten_cons, hflatten, rows]
      split <;> simp

end Program

/-! ## Targets -/

section

variable {p : Program} {q : Quad} {o : Operand} {names : Names} {code : List Quad}

theorem Charted.printed (h : Charted p) (hq : q ∈ p.quads.toList) (ho : o ∈ q.operands) :
    o.Printed p.quads.toList q := by
  have hprinted : q.arg1.Printed p.quads.toList q ∧ q.arg2.Printed p.quads.toList q ∧
      q.res.Printed p.quads.toList q := by
    obtain ⟨i, hi⟩ := List.mem_iff_getElem?.1 hq
    cases i with
    | succ i => exact (h.chart.fits _ q (Nat.le_add_left ..) hi).printed
    | zero =>
      obtain ⟨target, hhead⟩ := h.chart.head
      rw [hhead] at hi
      obtain rfl := Option.some.inj hi
      obtain ⟨e, hentry, hclear, -⟩ := h.entry
      rw [Array.getElem?_toList] at hhead
      have htarget : target = e := by
        simp only [Program.entry, hhead, jumpQuad, Operand.label, and_self, if_true] at hentry
        exact Int.ofNat.inj hentry
      exact ⟨.inl (.inl rfl), .inl (.inl rfl),
        .inr (.inl ⟨target, htarget ▸ hclear.last, rfl, rfl⟩)⟩
  simp only [Quad.operands, List.mem_cons, List.not_mem_nil, or_false] at ho
  rcases ho with rfl | rfl | rfl
  · exact hprinted.1
  · exact hprinted.2.1
  · exact hprinted.2.2

/-- Where a call begins there is also the instruction that enters the function. -/
theorem Composed.gosub_of_era {P : Quad → Prop} {calls : List (Bytes × List Expr)}
    {os : List Operation} (h : Composed names P calls os code) (hq : q ∈ code) (hop : q.op = .era) :
    ∃ f : Callee, q = f.era ∧ f.gosub ∈ code := by
  induction h with
  | nil => cases hq
  | append _ _ ih ih' => grind
  | single hsimple =>
    obtain rfl := List.mem_singleton.1 hq
    exact absurd hop (Opcode.not_call_of_simple hsimple).1
  | @call _ _ f code _ _ _ ih =>
    have hgosub : f.gosub.op ≠ .era := by simp [Callee.gosub]
    grind
  | operation _ _ _ hfill _ _ ih ih' =>
    have hlast := hfill.not_call.1
    grind

theorem Assembly.Of.gosub_of_era {P : Ty → Value → Prop} {t : Tree} {b : Assembly} (h : b.Of P t p)
    (hq : q ∈ p.quads.toList) (hop : q.op = .era) :
    ∃ f : Callee, q = f.era ∧ f.gosub ∈ p.quads.toList := by
  obtain ⟨i, hi⟩ := List.mem_iff_getElem?.1 hq
  rcases h.body_cases (h.one_le hi (by simp [hop])) hi with ⟨r, hr, k, -, hk⟩ | ⟨k, -, hk⟩
  · obtain ⟨rs', -, hcompiled⟩ := h.outline.compiled hr
    obtain ⟨f, rfl, hgosub⟩ := hcompiled.composed.gosub_of_era (List.mem_of_getElem? hk) hop
    exact ⟨f, rfl, (h.outline.placed h.placed.1 hr).mem hgosub⟩
  · obtain ⟨f, rfl, hgosub⟩ := h.composed.gosub_of_era (List.mem_of_getElem? hk) hop
    exact ⟨f, rfl, h.placed.2.mem hgosub⟩

theorem compile_gosub_of_era {text : Bytes} (h : compile text = .ok p) (hq : q ∈ p.quads.toList)
    (hop : q.op = .era) : ∃ f : Callee, q = f.era ∧ f.gosub ∈ p.quads.toList := by
  obtain ⟨-, t, -, -, hread⟩ := compile_spelled h
  obtain ⟨b, -, hb⟩ := hread.assembled h (fun _ _ => True) (hread.literals h fun _ _ _ _ _ _ =>
    trivial)
  exact hb.gosub_of_era hq hop

theorem label_target {text : Bytes} (h : compile text = .ok p) (hq : q ∈ p.quads.toList)
    (ho : o ∈ q.operands) (hkind : o.kind = .label) :
    ∃ n ≤ p.quads.size, o = .label n ∧ (n : Int) ∈ p.targets := by
  have hcharted := compile_charted h
  have hinj : ∀ {m n : Nat}, Operand.label m = .label n → m = n :=
    fun heq => Int.ofNat.inj (congrArg Operand.value heq)
  have htargets : ∀ {q : Quad} {n : Nat}, q ∈ p.quads.toList → q.res = .label n →
    (n : Int) ∈ p.targets := by
    intro q n hq hlabel
    refine List.mem_cons_of_mem _ (List.mem_map.2 ⟨q, List.mem_filter.2 ⟨hq, ?_⟩, ?_⟩)
    · rw [hlabel]
      rfl
    · rw [hlabel]
      rfl
  rcases hcharted.printed hq ho with hplain | ⟨n, hle, rfl, hres⟩ | ⟨f, rfl, rfl⟩
  · rcases hplain with hplain | hplain | hplain | hplain <;> rw [hplain] at hkind <;> cases hkind
  · exact ⟨n, hle, rfl, htargets hq hres⟩
  · obtain ⟨f', hera, hgosub⟩ := compile_gosub_of_era h hq rfl
    rw [hinj (congrArg Quad.arg1 hera)]
    rcases hcharted.printed hgosub (o := .label f'.target)
      (by simp [Quad.operands, Callee.gosub]) with
      hplain | ⟨n, hle, hn, -⟩ | ⟨_, heq, -⟩
    · rcases hplain with hplain | hplain | hplain | hplain <;> cases hplain
    · exact ⟨f'.target, hinj hn ▸ hle, rfl, htargets hgosub rfl⟩
    · cases congrArg Quad.op heq

theorem Charted.lines (h : Charted p) {qs : List Quad} (hqs : ∀ q ∈ qs, q ∈ p.quads.toList)
    (i : Nat) :
    ∃ lines, p.Lines i qs lines := by
  induction qs generalizing i with
  | nil => exact ⟨[], .nil⟩
  | cons q qs ih =>
    obtain ⟨hq, hqs⟩ := List.forall_mem_cons.1 hqs
    obtain ⟨line, hline, htab, hfree⟩ := Program.annotatedLine_inline h (fun _ ho =>
      h.printed hq ho) i
    obtain ⟨lines, hlines⟩ := ih hqs (i + 1)
    exact ⟨line :: lines, .cons hline htab hfree hlines⟩

end

/-- Every compiled program has an annotated listing, of rows that end no line themselves: a heading,
and the lines of the instructions with the labels above them. A label that an instruction prints is
that of an instruction, or of the position behind the last one. The former is one row of the
listing, right above the line of the instruction that it names. The latter is no row. -/
theorem listing_labels {text : Bytes} {p : Program} (h : compile text = .ok p) :
    ∃ heading lines, p.annotated = .ok ((heading :: Program.rows p.targets 0 lines).flatMap
      (· ++ [newline])) ∧ (∀ row ∈ heading :: Program.rows p.targets 0 lines, newline ∉ row) ∧
      (∀ (i : Nat) (q : Quad), p.quads[i]? = some q → ∃ line, lines[i]? = some line ∧
        p.annotatedLine p.layout.table [] i q = .ok (line ++ [newline])) ∧
      ∀ q ∈ p.quads.toList, ∀ o ∈ q.operands, o.kind = .label → ∃ n : Nat, o.value = n ∧
        n ≤ p.quads.size ∧ (n < p.quads.size →
          (heading :: Program.rows p.targets 0 lines).count (Program.labelRow n) = 1 ∧
            ∃ line after, lines[n]? = some line ∧ heading :: Program.rows p.targets 0 lines =
              heading :: Program.rows p.targets 0 (lines.take n) ++
                Program.labelRow n :: line :: after) ∧
        (n = p.quads.size → Program.labelRow n ∉ heading :: Program.rows p.targets 0 lines) := by
  have hcharted := compile_charted h
  obtain ⟨lines, hlines⟩ := hcharted.lines (fun _ hq => hq) 0
  obtain ⟨texts, htexts, hflatten⟩ := hlines.listed p.targets
  have hlength : lines.length = p.quads.size := hlines.length_eq
  have hhead : ∀ n, ascii "program " ++ p.name ≠ Program.labelRow n :=
    fun n heq => absurd (List.cons.inj heq).1 (by decide)
  have hlabel : ∀ n, Program.labelRow n ∉ lines :=
    fun n hmem => absurd (hlines.mem hmem).1 (show some 'L'.toUInt8 ≠ some '\t'.toUInt8 by decide)
  refine ⟨ascii "program " ++ p.name, lines, ?_, ?_, ?_, ?_⟩
  · simp only [Program.annotated, htexts, List.flatMap_cons, ← hflatten]
    refine congrArg Except.ok ?_
    simp [Bytes.ascii_newline]
  · intro row hrow
    rcases List.mem_cons.1 hrow with rfl | hrow
    · simp +decide [newline_not_mem_name h]
    · rcases Program.mem_rows hrow with hrow | ⟨n, rfl, -⟩
      · exact (hlines.mem hrow).2
      · exact Program.newline_not_mem_labelRow n
  · intro i q hq
    rw [← Array.getElem?_toList] at hq
    obtain ⟨line, hline, htext⟩ := hlines.get hq
    rw [Nat.zero_add] at htext
    exact ⟨line, hline, htext⟩
  · intro q hq o ho hkind
    obtain ⟨n, hle, rfl, htarget⟩ := label_target h hq ho hkind
    refine ⟨n, rfl, hle, fun hlt => ⟨?_, ?_⟩, fun heq hmem => ?_⟩
    · rw [List.count_cons_of_ne (hhead n)]
      exact Program.count_rows hlabel htarget (Nat.zero_le n) (by omega)
    · have hline := List.getElem?_eq_getElem (l := lines) (i := n) (by omega)
      obtain ⟨after, hafter⟩ := Program.rows_at hline htarget
      exact ⟨_, after, hline, by rw [hafter]; rfl⟩
    · rcases List.mem_cons.1 hmem with hmem | hmem
      · exact hhead n hmem.symm
      · rcases Program.mem_rows hmem with hmem | ⟨m, heq', -, hlt⟩
        · exact hlabel n hmem
        · have := Program.labelRow_inj heq'
          omega

/-- A program that calls a function and ends with a loop. -/
def trailing : Bytes :=
  ascii "program trailing; int n; func void f() \x7b \x7d " ++
    ascii "main \x7b f(); n = 2; while (n > 0) \x7b n = n - 1; \x7d \x7d"

/-- Where the call begins, the label of the function is printed, and stands above its line. -/
theorem trailing_labels_function : ∃ (p : Program) (rows : List Bytes), compile trailing = .ok p ∧
    p.annotated = .ok (rows.flatMap (· ++ [newline])) ∧ (∀ row ∈ rows, newline ∉ row) ∧
    rows.count (Program.labelRow 1) = 1 := by
  obtain ⟨p, hcompile, hcheck⟩ := @exists_compiled trailing (fun p => decide
    (1 < p.quads.size ∧ ∃ q ∈ p.quads.toList, q.arg1 = .label 1)) (by decide +kernel)
  obtain ⟨hlt, q, hq, harg⟩ := of_decide_eq_true hcheck
  obtain ⟨heading, lines, hlisting, hfree, -, hlabels⟩ := listing_labels hcompile
  obtain ⟨n, hn, -, hinside, -⟩ := hlabels q hq (.label 1) (by simp [Quad.operands, harg]) rfl
  obtain rfl : 1 = n := Int.ofNat.inj hn
  exact ⟨p, _, hcompile, hlisting, hfree, (hinside hlt).1⟩

/-- The jump out of the loop goes behind the last instruction. Its label is printed and not on a
line. -/
theorem trailing_label_missing : ∃ (p : Program) (listing : Bytes), compile trailing = .ok p ∧
    p.annotated = .ok listing ∧
    (∃ q ∈ p.quads.toList, q.op = .gotoFalse ∧ q.res = .label p.quads.size) ∧
    Program.labelRow p.quads.size ∉ listing.splitOn newline := by
  -- The ranges of the standard layout are in order, so that its table need not be worked out.
  obtain ⟨p, hcompile, hcheck⟩ := @exists_compiled trailing (fun (p : Program) =>
    (p.quads.toList.zipIdx.mapM fun (q, i) =>
      p.annotatedLine ⟨Layout.standard.slots.toArray⟩ p.targets i q).toOption.any
      fun (lines : List Bytes) =>
    decide ((∃ q ∈ p.quads.toList, q.op = Opcode.gotoFalse ∧ q.res = Operand.label p.quads.size) ∧
      Program.labelRow p.quads.size ∉
        (ascii "program " ++ p.name ++ ascii "\n" ++ lines.flatten).splitOn newline))
        (by decide +kernel)
  have hlayout := (compile_charted hcompile).layout
  cases hlines : p.quads.toList.zipIdx.mapM fun (q, i) =>
      p.annotatedLine ⟨Layout.standard.slots.toArray⟩ p.targets i q with
  | error e =>
    rw [hlines] at hcheck
    cases hcheck
  | ok lines =>
    rw [hlines] at hcheck
    refine ⟨p, _, hcompile, ?_, of_decide_eq_true hcheck⟩
    simp only [Program.annotated, hlayout, Layout.standard_table, hlines]
    rfl

end Quadlang
