-- What the reader of statements accepts: every text that spells a statement, in front of anything
-- but an `else`, which would go on with an `if`. The reader takes the text and no more, and notes
-- the actions of the statement.
import Quadlang.Proofs.Source.Acceptance
import Quadlang.Proofs.Source.Beginnings

namespace Quadlang.Source

open Grammar Success

variable {close k l l' r r' t : Token} {ts us vs ws rest : List Token} {bound inner width : Nat}
  {s : Stmt} {p : Place} {e : Expr} {c c₁ : Cursor} {as cs : List Action} {statement : Parser Unit}

/-! ## What begins a statement -/

mutual

/-- Whether the functions that a statement calls for their effect have names. Otherwise what follows
an `if` could be a call of `else`. -/
def Stmt.callsNames : Stmt → Bool
  | .call function _ => !isKeyword function
  | .branch _ body => allCallNames body
  | .branchElse _ body other => allCallNames body && allCallNames other
  | .loop _ body => allCallNames body
  | _ => true

def Stmt.allCallNames : List Stmt → Bool
  | [] => true
  | s :: ss => s.callsNames && allCallNames ss

end

theorem isName_iff : isName t = true ↔ t.kind = .identifier ∧ isKeyword t.text = false := by
  simp [isName]

theorem not_is_of_is {word word' : Bytes} (h : t.is word) (hne : word ≠ word') : ¬ t.is word' :=
  fun hw => hne ((text_of_is h).symm.trans (text_of_is hw))

/-- A token that begins a statement ends no block and does not go on with an `if`. -/
def Starts (t : Token) : Prop :=
  t.kind ≠ .endOfFile ∧ ¬ t.is (ascii "\x7d") ∧ ¬ t.is (ascii "else")

theorem starts_of_name (hkind : t.kind = .identifier) (hkeyword : isKeyword t.text = false)
    (hword : Worded t) : Starts t := by
  refine ⟨by simp [hkind], hword.not_is hkind (by decide), ?_⟩
  intro hw
  rw [text_of_is hw] at hkeyword
  exact absurd hkeyword (by decide)

theorem starts_of_is {word : Bytes} (h : t.is word) (hbrace : word ≠ ascii "\x7d")
    (helse : word ≠ ascii "else") : Starts t :=
  ⟨kind_ne_of_is h, not_is_of_is h hbrace, not_is_of_is h helse⟩

/-- A name begins no statement of a keyword. -/
theorem opensStatement_of_name (h : isKeyword k.text = false) : opensStatement k = false := by
  have hkeywords : ∀ word ∈ ["if", "while", "read", "write", "return"], isKeyword (ascii word) =
    true := by
    decide
  simp only [opensStatement, List.any_eq_false]
  intro word hword hw
  have hkeyword := hkeywords word hword
  rw [← text_of_is hw, h] at hkeyword
  cases hkeyword

/-- The keyword that a statement begins with, unless it begins with a name. -/
def Stmt.keyword? : Stmt → Option String
  | .assign _ _ | .call _ _ => none
  | .read _ => some "read"
  | .write _ => some "write"
  | .ret _ => some "return"
  | .branch _ _ | .branchElse _ _ _ => some "if"
  | .loop _ _ => some "while"

theorem Stmt.mem_of_keyword? {word : String} (h : s.keyword? = some word) :
    word ∈ ["if", "while", "read", "write", "return"] := by
  cases s <;> cases h <;> decide

theorem stmt_head (h : s.Spelled ts) :
    ∃ t us, ts = t :: us ∧ ((∃ word, s.keyword? = some word ∧ t.is (ascii word)) ∨
      t.kind = .identifier ∧ opensStatement t = false ∧
        (s.callsNames = true → isKeyword t.text = false)) := by
  cases h with
  | @assign p e t close ts us hp _ _ _ =>
    obtain ⟨name, members, indices⟩ := p
    cases hp with
    | reference hname _ _ =>
      cases hname with
      | @mk t' ht =>
        obtain ⟨hkind, hkeyword⟩ := isName_iff.1 ht
        exact ⟨t', _, rfl, .inr ⟨hkind, opensStatement_of_name hkeyword, fun _ => hkeyword⟩⟩
  | call hkind hopens _ _ _ _ =>
    exact ⟨_, _, rfl, .inr ⟨hkind, hopens, fun hnames => by simpa [Stmt.callsNames] using hnames⟩⟩
  | read h | write h =>
    cases h with
    | mk ht _ _ _ _ => exact ⟨_, _, rfl, .inl ⟨_, rfl, ht⟩⟩
  | retNone ht _ | retSome ht _ _ => exact ⟨_, _, rfl, .inl ⟨_, rfl, ht⟩⟩
  | branch h _ _ _ | branchElse h _ _ _ _ _ _ _ | branchElseIf h _ _ _ _ _ _ | loop h _ _ _ =>
    cases h with
    | mk ht _ _ _ => exact ⟨_, _, rfl, .inl ⟨_, rfl, ht⟩⟩

/-- A statement has a first token, which begins it. -/
theorem stmt_starts (h : s.Spelled ts) (hwords : ∀ t ∈ ts, Worded t)
    (hnames : s.callsNames = true) :
    ∃ t us, ts = t :: us ∧ Starts t := by
  have hother : ∀ word ∈ ["if", "while", "read", "write", "return"],
      ascii word ≠ ascii "\x7d" ∧ ascii word ≠ ascii "else" := by decide
  obtain ⟨t, us, rfl, ⟨word, hword, ht⟩ | ⟨hkind, -, hkeyword⟩⟩ := stmt_head h
  · obtain ⟨hbrace, helse⟩ := hother word (Stmt.mem_of_keyword? hword)
    exact ⟨t, us, rfl, starts_of_is ht hbrace helse⟩
  · exact ⟨t, us, rfl, starts_of_name hkind (hkeyword hnames) (hwords t (List.mem_cons_self ..))⟩

/-! ## Statements without statements in them -/

/-- No `else` follows. -/
def Ends (us : List Token) : Prop := ∀ t ∈ us.head?, ¬ t.is (ascii "else")

theorem expressions_accept (es : List Expr) (bound : Nat) :
    AcceptsEach (expression bound) Expr.actions es :=
  all_accepted es bound

theorem place_accepts {level : Nat} (h : p.Spelled ts) (hwords : ∀ t ∈ ts, Worded t) :
    Accepts (reference (expression bound) bound) (Stops level) ts p.expr.actions := by
  cases h with
  | reference hname hmembers hindices =>
    exact reference_accepts hname hmembers hindices (expressions_accept _ bound) fun t ht =>
      hwords t (by simp [ht])

theorem accepts_expression (he : e.Spelled ts) (hwords : ∀ t ∈ ts, Worded t) :
    Accepts (expression bound) (Stops loosest) ts e.actions :=
  expressions_accept [e] bound e (List.mem_singleton_self e) ts he hwords

theorem listed_accepts {item : Parser Unit} {action : Action} {es : List Expr}
    (h : Listed Expr.Spelled es ts) (hitem : AcceptsEach item Expr.actions es)
    (hwords : ∀ t ∈ ts, Worded t) (hl : l.is (ascii "(")) (hr : r.is (ascii ")"))
    (hclose : close.is (ascii ";")) (ha : pushesPrimitive action = true) :
    Accepts (listed item action bound) Ends (t :: l :: ts ++ [r, close])
      (es.flatMap fun e => e.actions ++ [action]) := by
  intro c us hc _
  have h₀ : At c [] (t :: l :: (ts ++ [r] ++ [close])) us c := .start (by simpa using hc)
  refine comes_take h₀ fun c₁ h₁ => comes_expect h₁ hl fun c₂ h₂ => ?_
  exact (items_accepts h (hitem.fire ha) hwords hr).bind h₂ trivial fun c₃ h₃ =>
    comes_expect_last h₃ hclose (by simp)

theorem assignment_accepts (hp : p.Spelled ts) (ht : t.is (ascii "=")) (he : e.Spelled us)
    (hclose : close.is (ascii ";")) (hwords : ∀ t ∈ ts ++ us, Worded t) :
    Accepts (assignment bound) Ends (ts ++ t :: us ++ [close]) (Stmt.assign p e).actions := by
  intro c after hc _
  have h₀ : At c [] (ts ++ t :: (us ++ [close])) after c := .start (by simpa using hc)
  have hplace : Accepts (reference (expression bound) bound) (Stops loosest) ts _ :=
    place_accepts hp fun t ht => hwords t (by simp [ht])
  refine hplace.bind h₀ (stops_of_is ht (by decide)) fun c₁ h₁ => comes_expect h₁ ht fun c₂ h₂ => ?_
  refine comes_fire h₂ rfl fun c₃ h₃ => ?_
  refine (accepts_expression he fun t ht => hwords t (by simp [ht])).bind h₃
    (stops_of_is hclose (by decide))
    fun c₄ h₄ => comes_fire h₄ rfl fun c₅ h₅ => ?_
  exact comes_expect_last h₅ hclose (by simp [Stmt.actions])

theorem returned_none_accepts (hclose : close.is (ascii ";")) :
    Accepts (returned bound) Ends [t, close] (Stmt.ret none).actions := fun _ _ hc _ =>
  comes_take (.start hc) fun _ h₁ => comes_skip h₁ hclose fun _ h₂ => comes_fire_last h₂ rfl rfl

theorem returned_some_accepts (he : e.Spelled ts) (hclose : close.is (ascii ";"))
    (hwords : ∀ t ∈ ts, Worded t) :
    Accepts (returned bound) Ends (t :: ts ++ [close]) (Stmt.ret (some e)).actions := by
  intro c us hc _
  have hlacks : Lacks ";" (ts ++ [close] ++ us) := by
    obtain ⟨u, rest, rfl, hu⟩ := spelled_head e he hwords
    rintro t ⟨⟩
    exact hu _ (by decide)
  refine comes_take (.start hc) fun c₁ h₁ => comes_pass h₁ hlacks ?_
  refine (accepts_expression he hwords).bind h₁ (stops_of_is hclose (by decide)) fun c₂ h₂ => ?_
  exact comes_fire h₂ rfl fun c₃ h₃ => comes_expect_last h₃ hclose (by simp [Stmt.actions])

/-! ## Statements with statements in them -/

theorem condition_accepts (hl : l.is (ascii "(")) (he : e.Spelled ts) (hr : r.is (ascii ")"))
    (hwords : ∀ t ∈ ts, Worded t) :
    Accepts (condition bound) (fun _ => True) (l :: (ts ++ [r])) e.actions := by
  intro c us hc _
  refine comes_expect (.start hc) hl fun c₁ h₁ => ?_
  exact (accepts_expression he hwords).bind h₁ (stops_of_is hr (by decide)) fun c₂ h₂ =>
    comes_expect_last h₂ hr (by simp)

/-- A reader of statements takes each of some statements. -/
def AcceptsAll (statement : Parser Unit) (ss : List Stmt) : Prop :=
  ∀ s ∈ ss, ∀ ts, s.Spelled ts → (∀ t ∈ ts, Worded t) → Accepts statement Ends ts s.actions

section

variable {ss : List Stmt} (h : InRow Stmt.Spelled ss ts) (hall : AcceptsAll statement ss)
  (hwords : ∀ t ∈ ts, Worded t) (hnames : Stmt.allCallNames ss = true)

include h hall hwords hnames

theorem statements_accepts (hr : r.is (ascii "\x7d")) :
    Accepts (statements statement bound) (fun _ => True) (ts ++ [r]) (Stmt.allActions ss) := by
  induction h generalizing bound with
  | nil =>
    refine accepts_of_succ (p := statements statement) rfl (fun bound c us hc _ => ?_) bound
    exact comes_skip (.start hc) hr fun c₁ h₁ => h₁.done rfl
  | @cons s ss vs ts hs hrest ih =>
    refine accepts_of_succ (p := statements statement) rfl (fun bound c us hc _ => ?_) bound
    rw [Stmt.allCallNames, Bool.and_eq_true] at hnames
    have hvwords : ∀ t ∈ vs, Worded t := fun t ht => hwords t (by simp [ht])
    have htwords : ∀ t ∈ ts, Worded t := fun t ht => hwords t (by simp [ht])
    have h₀ : At c [] (vs ++ (ts ++ [r])) us c := .start (by simpa using hc)
    obtain ⟨t, rest, rfl, hkind, hbrace, -⟩ := stmt_starts hs hvwords hnames.1
    -- What follows is the next statement or the brace.
    have hends : Ends (ts ++ [r] ++ us) := by
      cases hrest with
      | nil =>
        rintro t ⟨⟩
        exact not_is_of_is hr (by decide)
      | cons hs' _ =>
        rw [Stmt.allCallNames, Bool.and_eq_true] at hnames
        obtain ⟨t', rest, rfl, ht'⟩ := stmt_starts hs' (fun t ht => htwords t (by simp [ht]))
          hnames.2.1
        rintro t ⟨⟩
        exact ht'.2.2
    refine comes_pass h₀ (by rintro t ⟨⟩; exact hbrace) (comes_peek h₀ ?_)
    rw [if_neg hkind]
    refine (hall s List.mem_cons_self _ hs hvwords).bind h₀ hends fun c₁ h₁ => ?_
    exact (ih (fun s' hs' => hall s' (List.mem_cons_of_mem _ hs')) htwords hnames.2).last h₁ trivial
      (by simp [Stmt.allActions])

theorem block_accepts (hl : l.is (ascii "\x7b")) (hr : r.is (ascii "\x7d")) :
    Accepts (block statement bound) (fun _ => True) (l :: (ts ++ [r])) (Stmt.allActions ss) :=
      fun _ _ hc _ =>
  comes_expect (.start hc) hl fun _ h₁ =>
    (statements_accepts h hall hwords hnames hr).last h₁ trivial (List.nil_append _)

end

/-- A condition and the statements under it, which a reader of statements takes. -/
structure Guarded (statement : Parser Unit) (e : Expr) (body : List Stmt) (l r l' r' : Token)
    (us vs : List Token) : Prop where
  left : l.is (ascii "(")
  condition : e.Spelled us
  right : r.is (ascii ")")
  opens : l'.is (ascii "\x7b")
  spelled : InRow Stmt.Spelled body vs
  closes : r'.is (ascii "\x7d")
  all : AcceptsAll statement body
  words : ∀ t ∈ us ++ vs, Worded t
  names : Stmt.allCallNames body = true

section

variable {body other : List Stmt}

section

variable (h : Guarded statement e body l r l' r' us vs)

include h

/-- What is read of it behind the keyword. -/
theorem Guarded.bind {a : Action} {f : Unit → Parser Unit} (ha : pushesPrimitive a = true)
    (h₀ : At c as (l :: (us ++ [r]) ++ (l' :: (vs ++ [r']) ++ rest)) ws c₁)
    (hf : ∀ c₂, At c (as ++ e.actions ++ [a] ++ Stmt.allActions body) rest ws c₂ →
      Comes c cs ws (f () c₂)) :
    Comes c cs ws ((Grammar.condition inner >>= fun _ => fire a >>= fun _ =>
      block statement width >>= f) c₁) := by
  refine (condition_accepts h.left h.condition h.right fun t ht => h.words t (by simp [ht])).bind
    h₀ trivial
    fun c₂ h₂ => comes_fire h₂ ha fun c₃ h₃ => ?_
  exact (block_accepts h.spelled h.all (fun t ht => h.words t (by simp [ht])) h.names h.opens
    h.closes).bind h₃
    trivial hf

theorem conditional_accepts :
    Accepts (conditional (condition inner) (block statement width) bound) Ends
      (k :: l :: us ++ r :: l' :: vs ++ [r']) (Stmt.branch e body).actions := by
  refine accepts_of_succ (p := conditional (condition inner) (block statement width)) rfl
    (fun bound c after hc hends => ?_) bound
  have h₀ : At c [] (k :: (l :: (us ++ [r]) ++ (l' :: (vs ++ [r']) ++ []))) after c :=
    .start (by simpa using hc)
  refine comes_take h₀ fun c₁ h₁ => h.bind rfl h₁ fun c₂ h₂ => comes_pass h₂ hends ?_
  exact comes_fire_last h₂ rfl (by simp [Stmt.actions])

/-- An `if` whose other branch is accepted, be it a block or an `if` in turn. -/
theorem conditional_else_accepts
    (ht : t.is (ascii "else")) (hother : ∀ bound, Accepts (do
      if (← peek).is (ascii "if") then conditional (condition inner) (block statement width) bound
      else block statement width) Ends ws (Stmt.allActions other)) :
    Accepts (conditional (condition inner) (block statement width) bound) Ends
      (k :: l :: us ++ r :: l' :: vs ++ r' :: t :: ws) (Stmt.branchElse e body other).actions := by
  refine accepts_of_succ (p := conditional (condition inner) (block statement width)) rfl
    (fun bound c after hc hends => ?_) bound
  have h₀ : At c [] (k :: (l :: (us ++ [r]) ++ (l' :: (vs ++ [r']) ++ t :: ws))) after c :=
    .start (by simpa using hc)
  refine comes_take h₀ fun c₁ h₁ => h.bind rfl h₁ fun c₂ h₂ => comes_skip h₂ ht fun c₃ h₃ => ?_
  refine comes_fire h₃ rfl fun c₄ h₄ => ?_
  have hread : Comes c (Stmt.branchElse e body other).actions after ((_ >>= fun _ =>
    fire .endIf) c₄) :=
    (hother bound).bind h₄.pad hends fun c₅ h₅ => comes_fire_last h₅ rfl (by simp [Stmt.actions])
  rw [bind_assoc] at hread
  change Comes c _ after ((if c₄.next.is (ascii "if") then _ else _ : Parser Unit) c₄)
  change Comes c _ after (((if c₄.next.is (ascii "if") then _ else _) >>= _ : Parser Unit)
    c₄) at hread
  by_cases hif : c₄.next.is (ascii "if") = true
  · rw [if_pos hif] at hread ⊢
    exact hread
  · rw [if_neg hif] at hread ⊢
    exact hread

theorem loop_accepts :
    Accepts (loop (condition inner) (block statement width)) Ends
      (k :: l :: us ++ r :: l' :: vs ++ [r']) (Stmt.loop e body).actions := by
  intro c after hc _
  have h₀ : At c [] (k :: (l :: (us ++ [r]) ++ (l' :: (vs ++ [r']) ++ []))) after c :=
    .start (by simpa using hc)
  refine comes_take h₀ fun c₁ h₁ => comes_fire h₁ rfl fun c₂ h₂ => h.bind rfl h₂ fun c₃ h₃ => ?_
  exact comes_fire_last h₃ rfl (by simp [Stmt.actions])

end

end

/-! ## Every statement -/

/-- A statement begins with the keyword of its kind, or with a name. -/
theorem statement_eq (bound : Nat) (c : Cursor) :
    Grammar.statement (bound + 1) c =
      (if c.next.is (ascii "if") then
        conditional (condition bound) (block (Grammar.statement bound) (bound + 1)) (bound + 1)
      else if c.next.is (ascii "while") then
        loop (condition bound) (block (Grammar.statement bound) (bound + 1))
      else if c.next.is (ascii "read") then listed (reference (expression bound) bound) .read bound
      else if c.next.is (ascii "write") then listed (expression bound) .write bound
      else if c.next.is (ascii "return") then returned bound
      else if c.next.kind = .identifier then do
        if (← peekSecond).is (ascii "(") then
          let _ ← take
          call (expression bound) bound c.next.text true
          expect ";"
        else assignment bound
      else fail (.statementExpected c.next)) c := by
  rw [statement]
  rfl

/-- The readers of the statements that begin with a keyword. -/
def keywordReaders (bound : Nat) : List (String × Parser Unit) :=
  [("if", conditional (condition bound) (block (Grammar.statement bound) (bound + 1)) (bound + 1)),
    ("while", loop (condition bound) (block (Grammar.statement bound) (bound + 1))),
    ("read", listed (reference (expression bound) bound) .read bound),
    ("write", listed (expression bound) .write bound), ("return", returned bound)]

/-- A statement that begins with a keyword is read by the reader of the keyword. -/
theorem statement_of_keyword {word : String} {p : Nat → Parser Unit}
    (hp : ∀ b, (word, p b) ∈ keywordReaders b) (hk : k.is (ascii word))
    (h : ∀ b, Accepts (p b) Ends (k :: ts) as) (bound : Nat) :
    Accepts (Grammar.statement bound) Ends (k :: ts) as := by
  refine accepts_of_succ (p := Grammar.statement) rfl (fun b c us hc hends => ?_) bound
  have heq : Grammar.statement (b + 1) c = p b c := by
    have hother : ∀ {word'}, ascii word ≠ ascii word' → ¬ k.is (ascii word') :=
      fun hne => not_is_of_is hk hne
    have hreader := hp b
    rw [statement_eq, next_cons hc]
    simp only [keywordReaders, List.mem_cons, Prod.mk.injEq, List.not_mem_nil, or_false] at hreader
    obtain ⟨rfl, heq⟩ | ⟨rfl, heq⟩ | ⟨rfl, heq⟩ | ⟨rfl, heq⟩ | ⟨rfl, heq⟩ := hreader <;> rw [heq]
    · rw [if_pos hk]
    · rw [if_neg (hother (by decide)), if_pos hk]
    · rw [if_neg (hother (by decide)), if_neg (hother (by decide)), if_pos hk]
    · rw [if_neg (hother (by decide)), if_neg (hother (by decide)), if_neg (hother (by decide)),
        if_pos hk]
    · rw [if_neg (hother (by decide)), if_neg (hother (by decide)), if_neg (hother (by decide)),
        if_neg (hother (by decide)), if_pos hk]
  rw [heq]
  exact h b c us hc hends

/-- A statement that begins with an identifier is a call if a parenthesis follows. -/
theorem statement_of_identifier (hc : c.rest = k :: ts) (hkind : k.kind = .identifier)
    (hopens : opensStatement k = false) :
    Grammar.statement (bound + 1) c = (if c.afterNext.is (ascii "(") then do
        let _ ← take
        call (expression bound) bound k.text true
        expect ";"
      else assignment bound) c := by
  have hwords : ∀ word ∈ ["if", "while", "read", "write", "return"], ¬ k.is (ascii word) := by
    simpa [opensStatement] using hopens
  rw [statement_eq, next_cons hc, if_neg (hwords _ (by simp)), if_neg (hwords _ (by simp)),
    if_neg (hwords _ (by simp)), if_neg (hwords _ (by simp)), if_neg (hwords _ (by simp)),
    if_pos hkind]
  rfl

theorem statement_assign (hp : p.Spelled ts) (ht : t.is (ascii "=")) (he : e.Spelled us)
    (hclose : close.is (ascii ";")) (hwords : ∀ t ∈ ts ++ us, Worded t) (bound : Nat) :
    Accepts (Grammar.statement bound) Ends (ts ++ t :: us ++ [close])
      (Stmt.assign p e).actions := by
  refine accepts_of_succ (p := Grammar.statement) rfl (fun bound c after hc hends => ?_) bound
  have hread : Comes c _ after (assignment bound c) :=
    assignment_accepts hp ht he hclose hwords c after hc hends
  obtain ⟨name, members, indices⟩ := p
  cases hp with
  | @reference _ _ _ _ vs ws hname hmembers hindices =>
    cases hname with
    | @mk k hk =>
      obtain ⟨hkind, hkeyword⟩ := isName_iff.1 hk
      have hc' : c.rest = k :: (vs ++ (ws ++ t :: (us ++ close :: after))) := by simpa using hc
      have hequal : Lacks "(" (t :: (us ++ close :: after)) := by
        rintro u ⟨⟩
        exact not_is_of_is ht (by decide)
      have hhead := members_head hmembers (by decide) (bracketed_head hindices (by decide) hequal)
      rw [statement_of_identifier hc' hkind (opensStatement_of_name hkeyword),
        if_neg (not_is_afterNext hc' hhead)]
      exact hread

theorem statement_call {args : List Expr} (hkind : t.kind = .identifier)
    (hopens : opensStatement t = false) (hl : l.is (ascii "(")) (h : Listed Expr.Spelled args ts)
    (hr : r.is (ascii ")")) (hclose : close.is (ascii ";")) (hwords : ∀ t ∈ ts, Worded t)
    (bound : Nat) :
    Accepts (Grammar.statement bound) Ends (t :: l :: ts ++ [r, close])
      (Stmt.call t.text args).actions := by
  refine accepts_of_succ (p := Grammar.statement) rfl (fun bound c after hc _ => ?_) bound
  have h₀ : At c [] (t :: (l :: (ts ++ [r]) ++ [close])) after c := .start (by simpa using hc)
  rw [statement_of_identifier hc hkind hopens, afterNext_cons hc, if_pos hl]
  refine comes_take h₀ fun c₁ h₁ => ?_
  exact (call_accepts h (expressions_accept args bound) hwords hl hr t.text true).bind h₁ trivial
    fun c₂ h₂ => comes_expect_last h₂ hclose (by simp [Stmt.actions])

theorem keyword?_of_if (h : s.Spelled (t :: us)) (ht : t.is (ascii "if")) :
    s.keyword? = some "if" := by
  have hinj : ∀ word ∈ ["if", "while", "read", "write", "return"], ascii word = ascii "if" →
    word = "if" := by
    decide
  obtain ⟨_, _, heq, ⟨word, hword, ht'⟩ | ⟨-, hopens, -⟩⟩ := stmt_head h
  · obtain ⟨rfl, rfl⟩ := List.cons.inj heq
    rw [hword, hinj word (Stmt.mem_of_keyword? hword) ((text_of_is ht').symm.trans (text_of_is ht))]
  · obtain ⟨rfl, rfl⟩ := List.cons.inj heq
    simp [opensStatement, ht] at hopens

/-- What the readers of statements do with a text of a statement. The second one reads an `if`
behind an `else`. -/
structure Stmt.Accepted (s : Stmt) (ts : List Token) : Prop where
  statement : ∀ bound, Accepts (Grammar.statement bound) Ends ts s.actions
  conditional : ∀ t us, ts = t :: us → t.is (ascii "if") → ∀ inner width bound,
    Accepts (Grammar.conditional (condition inner) (block (Grammar.statement inner) width) bound)
    Ends ts s.actions

/-- A statement that is no branch is never read behind an `else`. -/
theorem Stmt.Accepted.of_statement (h : s.Spelled ts) (hbranch : s.keyword? ≠ some "if")
    (hread : ∀ bound, Accepts (Grammar.statement bound) Ends ts s.actions) : s.Accepted ts := by
  refine ⟨hread, fun t us hts ht => ?_⟩
  rw [hts] at h
  exact absurd (keyword?_of_if h ht) hbranch

/-- An `if` is read alike in both places. -/
theorem Stmt.Accepted.of_conditional (hk : k.is (ascii "if"))
    (hread : ∀ inner width bound,
      Accepts (Grammar.conditional (condition inner) (block (Grammar.statement inner) width) bound)
        Ends (k :: ts) s.actions) : s.Accepted (k :: ts) :=
  ⟨statement_of_keyword (fun _ => List.mem_cons_self) hk fun b => hread b (b + 1) (b + 1),
  fun _ _ _ _ => hread⟩

theorem acceptsAll_of_accepted {ss : List Stmt}
    (h : ∀ s ∈ ss, ∀ ts, s.Spelled ts → (∀ t ∈ ts, Worded t) → s.Accepted ts) (bound : Nat) :
    AcceptsAll (Grammar.statement bound) ss :=
  fun s hs ts hts hwords => (h s hs ts hts hwords).statement bound

/-- A condition with its keyword, and the block behind it, in one row. -/
theorem append_block (k l r l' r' : Token) (us vs : List Token) :
    (k :: l :: us ++ [r]) ++ l' :: vs ++ [r'] = k :: (l :: us ++ r :: l' :: vs ++ [r']) := by simp

theorem worded_parts {ws : List Token} (h : ∀ t ∈ k :: (l :: us ++ r :: l' :: vs ++ ws), Worded t) :
    ∀ t ∈ us ++ vs, Worded t := by
  intro t ht
  refine h t ?_
  rcases List.mem_append.1 ht with ht | ht <;> simp [ht]

-- The recursion is on the tree: the statements in a statement are read by the same reader with a
-- smaller bound.
mutual

theorem stmt_accepted : (s : Stmt) → {ts : List Token} → s.Spelled ts → (∀ t ∈ ts, Worded t) →
    s.callsNames = true → s.Accepted ts
  | .assign p e, _, h, hwords, _ => by
    refine .of_statement h (by simp [Stmt.keyword?]) ?_
    cases h with
    | assign hp ht he hclose =>
      refine statement_assign hp ht he hclose fun t ht => hwords t ?_
      rcases List.mem_append.1 ht with ht | ht <;> simp [ht]
  | .call function args, _, h, hwords, _ => by
    refine .of_statement h (by simp [Stmt.keyword?]) ?_
    cases h with
    | call hkind hopens hl hargs hr hclose =>
      exact statement_call hkind hopens hl hargs hr hclose fun t ht => hwords t (by simp [ht])
  | .read places, _, h, hwords, _ => by
    refine .of_statement h (by simp [Stmt.keyword?]) ?_
    cases h with
    | read h =>
      cases h with
      | @mk t l r close _ ts ht hl hplaces hr hclose =>
        have hlisted : Listed Expr.Spelled (places.map Place.expr) ts :=
          hplaces.map fun _ _ _ hp => hp
        refine statement_of_keyword (p := fun b => listed (reference (expression b) b) .read b)
          (by simp [keywordReaders]) ht fun b => ?_
        have hitem : AcceptsEach (reference (expression b) b) Expr.actions
          (places.map Place.expr) := by
          intro e he vs hvs hvwords
          obtain ⟨p, -, rfl⟩ := List.mem_map.1 he
          exact place_accepts hvs hvwords
        have hread : Accepts (listed (reference (expression b) b) .read b) Ends (t :: l :: ts ++
          [r, close]) _ :=
          listed_accepts hlisted hitem (fun t ht => hwords t (by simp [ht])) hl hr hclose rfl
        rwa [List.flatMap_map] at hread
  | .write values, _, h, hwords, _ => by
    refine .of_statement h (by simp [Stmt.keyword?]) ?_
    cases h with
    | write h =>
      cases h with
      | mk ht hl hvalues hr hclose =>
        exact statement_of_keyword (p := fun b => listed (expression b) .write b)
          (by simp [keywordReaders]) ht
          fun b => listed_accepts hvalues (expressions_accept values b) (fun t ht =>
            hwords t (by simp [ht])) hl hr
            hclose rfl
  | .ret none, _, h, _, _ => by
    refine .of_statement h (by simp [Stmt.keyword?]) ?_
    cases h with
    | retNone ht hclose =>
      exact statement_of_keyword (p := returned) (by simp [keywordReaders]) ht fun _ =>
        returned_none_accepts hclose
  | .ret (some e), _, h, hwords, _ => by
    refine .of_statement h (by simp [Stmt.keyword?]) ?_
    cases h with
    | retSome ht he hclose =>
      exact statement_of_keyword (p := returned) (by simp [keywordReaders]) ht fun _ =>
        returned_some_accepts he hclose fun t ht => hwords t (by simp [ht])
  | .branch e body, _, h, hwords, hnames => by
    have hall := all_stmts_accepted body hnames
    cases h with
    | branch h hl' hbody hr' =>
      cases h with
      | mk hk hl he hr =>
        rw [append_block] at hwords ⊢
        exact .of_conditional hk fun inner width bound => conditional_accepts ⟨hl, he, hr, hl',
          hbody, hr', acceptsAll_of_accepted hall inner, worded_parts hwords, hnames⟩
  | .branchElse e body other, _, h, hwords, hnames => by
    rw [Stmt.callsNames, Bool.and_eq_true] at hnames
    have hall := all_stmts_accepted body hnames.1
    have hallOther := all_stmts_accepted other hnames.2
    cases h with
    | @branchElse _ l' r' t m n _ _ _ vs ws h hl' hbody hr' ht hm hother hn =>
      cases h with
      | @mk k l r _ us hk hl he hr =>
        have hshape : (k :: l :: us ++ [r]) ++ l' :: vs ++ r' :: t :: m :: ws ++ [n] =
            k :: (l :: us ++ r :: l' :: vs ++ r' :: t :: (m :: ws ++ [n])) := by simp
        rw [hshape] at hwords ⊢
        refine .of_conditional hk fun inner width bound => conditional_else_accepts ⟨hl, he, hr,
          hl', hbody, hr', acceptsAll_of_accepted hall inner, worded_parts hwords, hnames.1⟩ ht
          fun b c after hc _ => ?_
        refine comes_peek (.start hc) ?_
        rw [if_neg (not_is_of_is hm (by decide))]
        exact block_accepts hother (acceptsAll_of_accepted hallOther inner) (fun t ht =>
          hwords t (by simp [ht]))
          hnames.2 hm hn c after hc trivial
    | @branchElseIf _ l' r' t _ s _ vs ws h hl' hbody hr' ht hif hs =>
      cases h with
      | @mk k l r _ us hk hl he hr =>
        have hshape : (k :: l :: us ++ [r]) ++ l' :: vs ++ r' :: t :: ws =
            k :: (l :: us ++ r :: l' :: vs ++ r' :: t :: ws) := by simp
        rw [hshape] at hwords ⊢
        refine .of_conditional hk fun inner width bound => conditional_else_accepts ⟨hl, he, hr,
          hl', hbody, hr', acceptsAll_of_accepted hall inner, worded_parts hwords, hnames.1⟩ ht
          fun b c after hc hends => ?_
        obtain ⟨first, rest, rfl, hfirst⟩ := hif
        have hother := hallOther s (List.mem_singleton_self s) _ hs fun t ht =>
          hwords t (by simp [ht])
        refine comes_peek (.start hc) ?_
        rw [if_pos hfirst]
        simpa [Stmt.allActions] using hother.conditional first rest rfl hfirst inner width b c
          after hc hends
  | .loop e body, _, h, hwords, hnames => by
    have hall := all_stmts_accepted body hnames
    refine .of_statement h (by simp [Stmt.keyword?]) ?_
    cases h with
    | loop h hl' hbody hr' =>
      cases h with
      | mk hk hl he hr =>
        rw [append_block] at hwords ⊢
        exact statement_of_keyword (p := fun b => loop (condition b)
          (block (Grammar.statement b) (b + 1)))
          (by simp [keywordReaders]) hk fun b => loop_accepts ⟨hl, he, hr, hl', hbody, hr',
            acceptsAll_of_accepted hall b, worded_parts hwords, hnames⟩

theorem all_stmts_accepted : (ss : List Stmt) → Stmt.allCallNames ss = true → ∀ s ∈ ss, ∀ ts,
    s.Spelled ts → (∀ t ∈ ts, Worded t) → s.Accepted ts
  | [], _, _, hs, _, _, _ => by cases hs
  | s :: ss, hnames, s', hs', ts, hts, hwords => by
    rw [Stmt.allCallNames, Bool.and_eq_true] at hnames
    rcases List.mem_cons.1 hs' with heq | hs'
    · rw [heq] at hts ⊢
      exact stmt_accepted s hts hwords hnames.1
    · exact all_stmts_accepted ss hnames.2 s' hs' ts hts hwords

end

/-- A text of a statement, followed by no `else`, is read as the statement. -/
theorem statement_accepts (h : s.Spelled ts) (hwords : ∀ t ∈ ts, Worded t)
    (hnames : s.callsNames = true) (hbound : 6 * ts.length + loosest ≤ bound) (c : Cursor)
    (us : List Token) (hc : c.rest = ts ++ us) (hends : Ends us) :
    ∃ c', Grammar.statement bound c = .ok () c' ∧ Took c ts s.actions c' := by
  have hpositive := List.length_pos_iff.2 h.ne_nil
  have hcomes := (stmt_accepted s h hwords hnames).statement bound c us hc hends
  exact hcomes.took (reads_statement (Nat.le_refl _) c) hc (by omega)

end Quadlang.Source
