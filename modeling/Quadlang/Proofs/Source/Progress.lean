-- The reading of a text ends. Every round of the scanner leaves less of the text, and a production
-- comes back to itself only behind tokens that it has taken, so that the depth of nesting is a few
-- times the number of tokens at most.
import Quadlang.Proofs.Source.Blame

namespace Quadlang.Source

open Grammar

/-! ## Rounds of the scanner -/

/-- One round of the scanner: it fails, or goes on with less of the text. -/
theorem scanFrom_cons (line : Nat) (x : UInt8) (r : Bytes) :
    (∃ e, ∀ read, Token.scanFrom read line (x :: r) = .error e) ∨
      ∃ (token? : Option Token) (line' : Nat) (rest : Bytes), rest.length < (x :: r).length ∧
        ∀ read, Token.scanFrom read line (x :: r) = Token.scanFrom (token?.toList ++ read) line'
          rest := by
  by_cases hnewline : x = Token.newline
  · refine .inr ⟨none, line + 1, r, Nat.lt_succ_self _, fun read => ?_⟩
    rw [Token.scanFrom, if_pos hnewline]
    rfl
  by_cases hblank : Token.isBlank x = true
  · refine .inr ⟨none, line, r, Nat.lt_succ_self _, fun read => ?_⟩
    rw [Token.scanFrom, if_neg hnewline, if_pos hblank]
    rfl
  by_cases hcomment : (x = '/'.toUInt8 && r.head? = some '/'.toUInt8) = true
  · refine .inr ⟨none, line, r.dropWhile (· ≠ Token.newline), ?_, fun read => ?_⟩
    · exact Nat.lt_succ_of_le (Token.length_dropWhile_le _ r)
    · rw [Token.scanFrom, if_neg hnewline, if_neg hblank, if_pos hcomment]
      rfl
  cases hfirst : Token.first x r with
  | error cause =>
    refine .inl ⟨⟨line, cause⟩, fun read => ?_⟩
    rw [Token.scanFrom, if_neg hnewline, if_neg hblank, if_neg hcomment]
    split
    · next e he => rw [hfirst] at he; cases he; rfl
    · next he => rw [hfirst] at he; cases he
  | ok found =>
    obtain ⟨kind, text, rest⟩ := found
    refine .inr ⟨some ⟨kind, text, line⟩, line, rest, ?_, fun read => ?_⟩
    · exact Nat.lt_succ_of_le (Token.length_first_le hfirst)
    rw [Token.scanFrom, if_neg hnewline, if_neg hblank, if_neg hcomment]
    split
    · next he => rw [hfirst] at he; cases he
    · next he => rw [hfirst] at he; cases he; rfl

/-! ## Bounds -/

/-- A reading from a cursor on reaches the bound on its nesting only when it has taken a token for
every five of `w`. -/
def Spends (w : Nat) (p : Parser Unit) (c : Cursor) : Prop :=
  ∀ e c', p c = .error e c' → e.cause = .tooDeep → w + 5 * c'.rest.length ≤ 5 * c.rest.length

theorem Leads.spends {α : Type} {k : Nat} {c : Cursor}
    {Q : List Token → List Action → Cursor → Prop}
    {actions : α → List Action} {p : Parser Unit} (h : Leads k c Q actions (p c)) :
    Spends k p c := by
  intro e c' hp hdeep
  rw [hp] at h
  refine Nat.le_of_not_lt fun hlt => ?_
  obtain ⟨as, -, hstopped⟩ := h hlt
  exact hstopped.cause hdeep

/-- Every reading ends. Each round of the scanner leaves less of the text or fails. A production
whose bound is `b` comes back to itself, or goes once more round its loop, only for tokens taken: to
reach the bound it takes one for every five of `b`, the levels of an expression apart, and one at
least. So a program of `n` tokens does not nest deeper than `5 * n`: no greater bound is reached,
and no failure is one of depth. -/
theorem reading_ends :
    (∀ line x r, (∃ e, ∀ read, Token.scanFrom read line (x :: r) = .error e) ∨
      ∃ (token? : Option Token) (line' : Nat) (rest : Bytes), rest.length < (x :: r).length ∧
        ∀ read, Token.scanFrom read line (x :: r) = Token.scanFrom (token?.toList ++ read)
          line' rest) ∧
    (∀ b c, (∀ level, Spends (b - level) (expressionAt b level) c) ∧
      Spends b (primary (expression b) b) c ∧ Spends b (reference (expression b) b) c ∧
      (∀ name discard, Spends (b - loosest) (call (expression b) b name discard) c) ∧
      Spends (5 * b) (members b) c ∧ Spends (b - loosest) (indices (expression b) b) c ∧
      ∀ first, Spends (b - loosest) (items (do expression b; fire .argument) b first) c) ∧
    (∀ b c, Spends b (statement b) c ∧ Spends b (statements (statement b) b) c ∧
      Spends b (block (statement b) b) c ∧ Spends b (assignment b) c ∧
      (c.next.is (ascii "if") → Spends b (conditional (condition b) (block (statement b) b) b) c) ∧
      (c.next.is (ascii "while") → Spends b (loop (condition b) (block (statement b) b)) c) ∧
      (c.next.is (ascii "return") → Spends b (returned b) c) ∧
      (c.next.is (ascii "read") → Spends b (listed (reference (expression b) b) .read b) c) ∧
      (c.next.is (ascii "write") → Spends b (listed (expression b) .write b) c)) ∧
    (∀ b c, Spends (5 * b) (dimensions b) c ∧ Spends (5 * b) (names b) c ∧
      Spends (5 * b) (variableList b) c ∧
      Spends (5 * b) (declarations b) c ∧ Spends (5 * b) (fields b) c ∧
        Spends (5 * b) (items parameter b true) c ∧
      (c.next.is (ascii "class") → Spends (5 * b) (classDeclaration b) c) ∧
      (c.next.is (ascii "func") → Spends b (functionDeclaration b) c) ∧
      (c.next.is (ascii "main") → Spends b (mainBody b) c) ∧
      Spends b (body b) c ∧ Spends b (parts b) c ∧ Spends b (program b) c) ∧
    ∀ ts : Tokens, (∀ e, (Grammar.read ts).error = some e → e.cause ≠ .tooDeep) ∧
      ∀ bound, 5 * ts.list.length < bound → ∀ e c',
        program bound ⟨ts.list, ts.lastLine, 0, []⟩ = .error e c' → e.cause ≠ .tooDeep := by
  refine ⟨scanFrom_cons, fun b c => ?_, fun b c => ?_, fun b c => ?_, fun ts =>
    ⟨fun e he => ?_, ?_⟩⟩
  · have hexpression : ReadsExpr (b - loosest) (expression b) := reads_expression (Nat.le_refl _)
    have hinner : ReadsExpr (b - 5) (expression b) :=
      hexpression.mono (Nat.sub_le_sub_left (by decide) b)
    have hb : b - loosest ≤ 5 * b := by omega
    have hargument := hexpression.fire .argument (by simp)
    refine ⟨fun level => (reads_expressionAt (Nat.le_refl _) c).spends,
      (reads_primary hinner (by omega) c).spends, (reads_reference hinner (by omega) c).spends,
      fun name discard => (reads_call hexpression hb name discard c).spends,
      (reads_members (Nat.le_refl _) c).spends, (reads_indices hexpression hb c).spends,
      fun first => ?_⟩
    cases first with
    | true => exact (reads_items hargument Expr.Spelled.ne_nil hb c).spends
    | false => exact (reads_following hargument hb c).spends
  · have hstatement : ReadsStmt b (statement b) := reads_statement (Nat.le_refl b)
    have hinner : b - 5 ≤ b - 4 := by omega
    have hbody : ReadsStmt (b - 5) (statement b) := hstatement.mono (Nat.sub_le b 5)
    have hexpression : ReadsExpr (b - 5) (expression b) := reads_expression hinner
    exact ⟨(hstatement c).spends, (reads_statements hstatement (by omega) c).spends,
      (reads_block hstatement (by omega) c).spends, (reads_assignment hinner c).spends,
      fun hw => (leads_conditional hbody hinner (by omega) (by omega) hw).spends,
      fun hw => (leads_loop hbody hinner (by omega) hw).spends,
      fun hw => (leads_returned hinner hw).spends,
      fun hw => (leads_listed (reads_reference (hexpression.mono (Nat.sub_le _ 5)) (by omega))
        Expr.Spelled.ne_nil (by omega) hw (by simp)).spends,
      fun hw => (leads_listed hexpression Expr.Spelled.ne_nil (by omega) hw (by simp)).spends⟩
  · have hb : 5 * b ≤ 5 * b := Nat.le_refl _
    exact ⟨(reads_dimensions hb c).spends, (reads_names hb c).spends,
      (reads_variableList hb c).spends,
      (reads_declarations hb c).spends, (leads_fields hb c).spends,
      (reads_items reads_parameter Parameter.Spelled.ne_nil hb c).spends,
      fun hw => (leads_classDeclaration hb hw).spends,
      fun hw => (leads_functionDeclaration (Nat.le_refl b) hw).spends,
      fun hw => (leads_mainBody (Nat.le_refl b) hw).spends,
      (reads_body (Nat.le_refl b) c).spends, (leads_parts (Nat.le_refl b) c).spends,
      (leads_program (Nat.le_refl b) c).spends⟩
  · obtain ⟨c, hprogram⟩ := read_eq_error he
    obtain ⟨as, -, hstopped⟩ := program_stops hprogram (lt_depth _)
    exact hstopped.cause
  · intro bound hbound e c' hprogram
    obtain ⟨as, -, hstopped⟩ := program_stops hprogram hbound
    exact hstopped.cause

/-- The beginning of a program, without the end of its main body. -/
def truncated : Tokens := ⟨(["program", "p", ";", "main", "\x7b"].map ascii).map fun word =>
  ⟨if word.all Token.isLetter then .identifier else .punctuation, word, 1⟩, 1⟩

/-- What is missing is found with any bound of more than twenty-five. -/
theorem truncated_ends : (Grammar.read truncated).error = some ⟨1, .unexpectedEnd⟩ ∧
    ∀ bound, 25 < bound → ∀ e c', program bound ⟨truncated.list, 1, 0, []⟩ = .error e c' →
      e.cause ≠ .tooDeep :=
  ⟨by decide +kernel, (reading_ends.2.2.2.2 truncated).2⟩

end Quadlang.Source
