-- What the reader of expressions accepts: every text that spells an expression, in front of a token
-- that cannot continue it. The reader takes the text and no more, and notes the actions of the
-- expression. Readers are followed step by step, as far as the bound on nesting goes; that it goes
-- far enough is known of every reading.
import Quadlang.Proofs.Source.Reading

namespace Quadlang.Source

open Grammar Success

variable {bound level level' : Nat} {ts us vs rest : List Token} {l r t : Token} {name word : Bytes}
  {args es : List Expr} {c c₁ : Cursor} {α : Type} {op : BinaryOp} {names : List Bytes}
  {p : Parser Unit} {as bs cs : List Action} {v : Value} {ops : List (String × α)} {ty : Ty}
  {a : Action} {e : Expr} {Spelled : α → List Token → Prop} {f : Unit → Parser Unit} {mark : String}

/-! ## Tokens behind an expression -/

/-- A token that continues an expression of a level: an operator of the level or a tighter one, or
what goes on with a name. -/
def Continues (level : Nat) (t : Token) : Prop :=
  (∃ l op, l ≤ level ∧ operator? (binaryOps l) t = some op) ∨ t.is (ascii ".") ∨ t.is (ascii "[") ∨
    t.is (ascii "(")

/-- No token continues an expression of a level. -/
def Stops (level : Nat) (us : List Token) : Prop := ∀ t ∈ us.head?, ¬ Continues level t

theorem Stops.mono (h : Stops level us) (hle : level' ≤ level) : Stops level' us := by
  intro t ht hcontinues
  apply h t ht
  rcases hcontinues with ⟨l, op, hl, hop⟩ | hword
  · exact .inl ⟨l, op, Nat.le_trans hl hle, hop⟩
  · exact .inr hword

theorem next_eq (h : c.rest = us) : c.next = us.head?.getD (Token.endOfFile c.lastLine) := by
  unfold Cursor.next
  rw [h]
  cases us <;> rfl

theorem next_cons (h : c.rest = t :: us) : c.next = t :=
  next_eq h

theorem afterNext_cons (h : c.rest = t :: l :: us) : c.afterNext = l := by
  unfold Cursor.afterNext
  rw [h]

theorem not_is_afterNext (h : c.rest = t :: us) (hus : ∀ u ∈ us.head?, ¬ u.is word) :
    ¬ c.afterNext.is word := by
  unfold Cursor.afterNext
  rw [h]
  cases us with
  | nil => simp [Token.is, Token.endOfFile]
  | cons u us => exact hus u rfl

/-- What stops an expression is no operator of its level, nor of a tighter one. -/
theorem Stops.operator?_next {l : Nat} (h : Stops level us) (hc : c.rest = us) (hl : l ≤ level) :
    operator? (binaryOps l) c.next = none := by
  cases us with
  | nil =>
    rw [next_eq hc]
    rfl
  | cons t us =>
    rw [next_cons hc]
    cases hop : operator? (binaryOps l) t with
    | none => rfl
    | some op => exact absurd (.inl ⟨l, op, hl, hop⟩) (h t rfl)

theorem not_is_next (h : ∀ t ∈ us.head?, ¬ t.is word) (hc : c.rest = us) : ¬ c.next.is word := by
  cases us with
  | nil =>
    rw [next_eq hc]
    simp [Token.is, Token.endOfFile]
  | cons t us =>
    rw [next_cons hc]
    exact h t rfl

theorem Stops.not_is (h : Stops level us) {word : String}
    (hword : word = "." ∨ word = "[" ∨ word = "(") :
    ∀ t ∈ us.head?, ¬ t.is (ascii word) := by
  intro t ht hw
  apply h t ht
  rcases hword with rfl | rfl | rfl
  · exact .inr (.inl hw)
  · exact .inr (.inr (.inl hw))
  · exact .inr (.inr (.inr hw))

theorem text_of_is (h : t.is word) : t.text = word := by
  simp only [Token.is, Bool.and_eq_true, decide_eq_true_eq] at h
  exact h.2

theorem mark_of_operator? {op : α} (h : operator? ops t = some op) :
    ∃ o ∈ ops, ascii o.1 = t.text := by
  unfold operator? at h
  split at h
  · obtain ⟨o, ho, -⟩ := Option.map_eq_some_iff.1 h
    exact ⟨o, List.mem_of_find?_eq_some ho, by simpa using List.find?_some ho⟩
  · cases h

theorem binaryOps_le {o : String × BinaryOp} (h : o ∈ binaryOps level) : level ≤ 4 := by
  unfold binaryOps at h
  split at h
  · decide
  · decide
  · decide
  · decide
  · cases h

/-- The words that continue expressions. -/
def continuations : List Bytes :=
  [".", "[", "("].map ascii ++ (List.range 5).flatMap fun level => (binaryOps level).map fun o =>
    ascii o.1

theorem Continues.mem_continuations (h : Continues level t) : t.text ∈ continuations := by
  unfold continuations
  rw [List.mem_append]
  rcases h with ⟨l, op, -, hop⟩ | hpoint | hbracket | hparen
  · obtain ⟨o, ho, htext⟩ := mark_of_operator? hop
    refine .inr (List.mem_flatMap.2 ⟨l, ?_, List.mem_map.2 ⟨o, ho, htext⟩⟩)
    exact List.mem_range.2 (Nat.lt_succ_of_le (binaryOps_le ho))
  · exact .inl (by rw [text_of_is hpoint]; decide)
  · exact .inl (by rw [text_of_is hbracket]; decide)
  · exact .inl (by rw [text_of_is hparen]; decide)

/-- A word that continues nothing stops expressions of every level. -/
theorem stops_of_is (h : t.is word) (hword : word ∉ continuations) : Stops level (t :: us) := by
  intro u hu hcontinues
  obtain rfl := Option.some.inj hu
  apply hword
  rw [← text_of_is h]
  exact hcontinues.mem_continuations

/-- An operator stops expressions of tighter levels. -/
theorem stops_of_operator? (h : operator? (binaryOps (level + 1)) t = some op) :
    Stops level (t :: us) := by
  have hmarks : ∀ l < 5, ∀ l' < 5, ∀ o ∈ binaryOps l, ∀ o' ∈ binaryOps l',
      ascii o.1 = ascii o'.1 → l = l' := by decide
  have hwords : ∀ l < 5, ∀ o ∈ binaryOps l, ascii o.1 ∉ [".", "[", "("].map ascii := by decide
  intro u hu hcontinues
  obtain rfl := Option.some.inj hu
  obtain ⟨o, ho, htext⟩ := mark_of_operator? h
  have hlevel := Nat.lt_succ_of_le (binaryOps_le ho)
  rcases hcontinues with ⟨l, op', hl, hop⟩ | hword
  · obtain ⟨o', ho', htext'⟩ := mark_of_operator? hop
    have := hmarks _ hlevel _ (Nat.lt_succ_of_le (binaryOps_le ho')) o ho o' ho'
      (htext.trans htext'.symm)
    omega
  · apply hwords _ hlevel o ho
    rw [htext]
    rcases hword with hpoint | hbracket | hparen
    · rw [text_of_is hpoint]; decide
    · rw [text_of_is hbracket]; decide
    · rw [text_of_is hparen]; decide

/-! ## Readings of a given text -/

/-- A reading that began at a cursor has noted some actions, and has some tokens ahead of it, with
others behind them. -/
def At (c : Cursor) (as : List Action) (rest us : List Token) (c₁ : Cursor) : Prop :=
  (∃ ts, Took c ts as c₁) ∧ c₁.rest = rest ++ us

/-- How the reading of a given text ends: with the text taken and some actions noted, or within the
text at the bound on nesting. -/
def Comes (c : Cursor) (as : List Action) (us : List Token) :
    EStateM.Result SyntaxError Cursor Unit → Prop
  | .ok _ c' => At c as [] us c'
  | .error e c' => e.cause = .tooDeep ∧ us.length ≤ c'.rest.length

/-- A reader takes a text in front of what may stand behind it, and notes some actions. -/
def Accepts (p : Parser Unit) (Behind : List Token → Prop) (ts : List Token) (as : List Action) :
    Prop :=
  ∀ c us, c.rest = ts ++ us → Behind us → Comes c as us (p c)

/-- A mark is not the next token. -/
abbrev Lacks (mark : String) (us : List Token) : Prop := ∀ t ∈ us.head?, ¬ t.is (ascii mark)

section Steps

variable {Behind : List Token → Prop}

theorem At.start (h : c.rest = ts ++ us) : At c [] ts us c := ⟨⟨[], .refl c⟩, h⟩

theorem At.pad (h : At c as ts us c₁) : At c as (ts ++ []) us c₁ := by rwa [List.append_nil]

theorem At.take (h : At c as (t :: rest) us c₁) :
    ∃ c₂, take c₁ = .ok t c₂ ∧ At c as rest us c₂ := by
  obtain ⟨⟨ts, htook⟩, hrest⟩ := h
  have hnext : c₁.next = t := next_cons hrest
  have htail : c₁.rest.tail = rest ++ us := by rw [hrest]; rfl
  have htake : Took c₁ [t] [] { c₁ with rest := c₁.rest.tail, line := c₁.next.line } :=
    ⟨by simp [hrest], rfl, (take_eq_ok rfl).2.2.2.2, List.suffix_refl _, rfl⟩
  exact ⟨_, by rw [← hnext]; rfl, ⟨_, by simpa using htook.trans htake⟩, htail⟩

theorem At.done (h : At c as [] us c₁) (has : as = bs) :
    Comes c bs us ((pure () : Parser Unit) c₁) := has ▸ h

theorem comes_tooDeep (h : At c as rest us c₁) : Comes c bs us (fail .tooDeep c₁) :=
  ⟨rfl, by rw [h.2, List.length_append]; exact Nat.le_add_left ..⟩

theorem comes_last (h : Comes c bs us ((p >>= pure) c₁)) : Comes c bs us (p c₁) := by
  rwa [bind_pure] at h

theorem comes_take {f : Token → Parser Unit} (h : At c as (t :: rest) us c₁)
    (hf : ∀ c₂, At c as rest us c₂ → Comes c bs us (f t c₂)) : Comes c bs us ((take >>= f) c₁) := by
  obtain ⟨c₂, htake, h₂⟩ := h.take
  rw [bind_of_ok htake]
  exact hf c₂ h₂

theorem comes_peek {f : Token → Parser Unit} (h : At c as (t :: rest) us c₁)
    (hf : Comes c bs us (f t c₁)) : Comes c bs us ((peek >>= f) c₁) := by
  rw [← next_cons h.2] at hf
  exact hf

theorem comes_fire (h : At c as rest us c₁) (ha : pushesPrimitive a = true)
    (hf : ∀ c₂, At c (as ++ [a]) rest us c₂ → Comes c bs us (f () c₂)) :
    Comes c bs us ((fire a >>= f) c₁) := by
  obtain ⟨⟨ts, htook⟩, hrest⟩ := h
  exact hf _ ⟨⟨_, htook.trans (fire_eq_ok (u := ()) rfl ha)⟩, hrest⟩

theorem comes_fire_last (h : At c as [] us c₁) (ha : pushesPrimitive a = true)
    (has : as ++ [a] = bs) :
    Comes c bs us (fire a c₁) :=
  comes_last (comes_fire h ha fun _ h₂ => h₂.done has)

theorem comes_expect (h : At c as (t :: rest) us c₁) (ht : t.is (ascii mark))
    (hf : ∀ c₂, At c as rest us c₂ → Comes c bs us (f () c₂)) :
    Comes c bs us ((expect mark >>= f) c₁) := by
  unfold expect
  rw [bind_assoc]
  refine comes_take h fun c₂ h₂ => ?_
  rw [if_pos ht]
  exact hf c₂ h₂

theorem comes_expect_last (h : At c as [t] us c₁) (ht : t.is (ascii mark)) (has : as = bs) :
    Comes c bs us (expect mark c₁) :=
  comes_last (comes_expect h ht fun _ h₂ => h₂.done has)

theorem comes_ident {f : Bytes → Parser Unit} (h : At c as (t :: rest) us c₁) (ht : isName t = true)
    (hf : ∀ c₂, At c as rest us c₂ → Comes c bs us (f t.text c₂)) :
    Comes c bs us ((ident >>= f) c₁) := by
  unfold ident
  rw [bind_assoc]
  refine comes_take h fun c₂ h₂ => ?_
  rw [if_pos ht]
  exact hf c₂ h₂

theorem comes_skip {f : Bool → Parser Unit} (h : At c as (t :: rest) us c₁) (ht : t.is (ascii mark))
    (hf : ∀ c₂, At c as rest us c₂ → Comes c bs us (f true c₂)) :
    Comes c bs us ((skip mark >>= f) c₁) := by
  unfold skip
  rw [bind_assoc]
  refine comes_peek h ?_
  rw [if_pos ht, bind_assoc]
  exact comes_take h hf

theorem comes_pass {f : Bool → Parser Unit} (h : At c as rest us c₁)
    (hlacks : Lacks mark (rest ++ us))
    (hf : Comes c bs us (f false c₁)) : Comes c bs us ((skip mark >>= f) c₁) := by
  have hpass : skip mark c₁ = .ok false c₁ := by
    show (if c₁.next.is (ascii mark) then _ else _ : Parser Bool) c₁ = _
    rw [if_neg (not_is_next hlacks h.2)]
    rfl
  rw [bind_of_ok hpass]
  exact hf

theorem comes_operator {op : α} {f : Option α → Parser Unit} (h : At c as (t :: rest) us c₁)
    (ht : operator? ops t = some op) (hf : ∀ c₂, At c as rest us c₂ →
      Comes c bs us (f (some op) c₂)) :
    Comes c bs us ((operator ops >>= f) c₁) := by
  unfold operator
  rw [bind_assoc]
  refine comes_peek h ?_
  simp only [ht, bind_assoc]
  exact comes_take h hf

theorem comes_no_operator {f : Option α → Parser Unit} (hnone : operator? ops c₁.next = none)
    (hf : Comes c bs us (f none c₁)) : Comes c bs us ((operator ops >>= f) c₁) := by
  have hpass : operator ops c₁ = .ok none c₁ := by
    unfold operator
    rw [bind_of_ok (show peek c₁ = .ok c₁.next c₁ from rfl), hnone]
    rfl
  rw [bind_of_ok hpass]
  exact hf

/-- What follows a part that is accepted. -/
theorem Accepts.bind (hp : Accepts p Behind ts bs) (h : At c as (ts ++ rest) us c₁)
    (hbehind : Behind (rest ++ us)) (hf : ∀ c₂, At c (as ++ bs) rest us c₂ →
      Comes c cs us (f () c₂)) :
    Comes c cs us ((p >>= f) c₁) := by
  obtain ⟨⟨_, htook⟩, hrest⟩ := h
  have hcomes := hp c₁ (rest ++ us) (by rw [hrest, List.append_assoc]) hbehind
  cases hresult : p c₁ with
  | ok u c₂ =>
    rw [hresult] at hcomes
    obtain ⟨⟨_, h₂⟩, hrest₂⟩ := hcomes
    rw [bind_of_ok hresult]
    exact hf c₂ ⟨⟨_, htook.trans h₂⟩, hrest₂⟩
  | error e c₂ =>
    rw [hresult] at hcomes
    rw [bind_of_error hresult]
    exact ⟨hcomes.1, Nat.le_trans (by simp) hcomes.2⟩

theorem Accepts.last (hp : Accepts p Behind ts bs) (h : At c as ts us c₁) (hbehind : Behind us)
    (has : as ++ bs = cs) : Comes c cs us (p c₁) :=
  comes_last (hp.bind h.pad hbehind fun _ h₂ => h₂.done has)

/-- Where there is no bound left, it is reached. -/
theorem accepts_of_succ {p : Nat → Parser Unit} (hzero : p 0 = fail .tooDeep)
    (hsucc : ∀ b, Accepts (p (b + 1)) Behind ts as) (b : Nat) : Accepts (p b) Behind ts as := by
  cases b with
  | zero =>
    intro c us hc _
    rw [hzero]
    exact comes_tooDeep (.start hc)
  | succ b => exact hsucc b

/-- A bound that is more than five times the length of the text is not reached within it. -/
theorem Comes.took {k : Nat} {Q : List Token → List Action → Cursor → Prop}
    {actions : α → List Action}
    (h : Comes c as us (p c)) (hleads : Leads k c Q actions (p c)) (hc : c.rest = ts ++ us)
    (hk : 5 * ts.length < k) : ∃ c', p c = .ok () c' ∧ Took c ts as c' := by
  cases hresult : p c with
  | ok u c' =>
    rw [hresult] at h
    obtain ⟨⟨ts', htook⟩, hrest⟩ := h
    have hts : ts' ++ us = ts ++ us := by rw [← hc, htook.rest, hrest]; rfl
    exact ⟨c', rfl, List.append_cancel_right hts ▸ htook⟩
  | error e c' =>
    rw [hresult] at h hleads
    have hlength : c.rest.length = ts.length + us.length := by rw [hc, List.length_append]
    obtain ⟨_, -, hstopped⟩ := hleads (by have := h.2; omega)
    exact absurd h.1 hstopped.cause

end Steps

/-! ## Operands -/

/-- An identifier begins with a letter. -/
def Worded (t : Token) : Prop := t.kind = .identifier → t.text.head?.any Token.isLetter = true

/-- A reader takes each of some expressions, and notes some actions. -/
def AcceptsEach (p : Parser Unit) (actions : Expr → List Action) (es : List Expr) : Prop :=
  ∀ e ∈ es, ∀ ts, e.Spelled ts → (∀ t ∈ ts, Worded t) → Accepts p (Stops loosest) ts (actions e)

section

variable {actions : Expr → List Action} {item : Parser Unit}

theorem AcceptsEach.fire (h : AcceptsEach item actions es) (ha : pushesPrimitive a = true) :
    AcceptsEach (do item; Grammar.fire a) (fun e => actions e ++ [a]) es :=
  fun e he ts hts hwords _ _ hc hstop =>
    (h e he ts hts hwords).bind (At.start hc).pad hstop fun _ h₁ => comes_fire_last h₁ ha (by simp)

theorem AcceptsEach.tail (h : AcceptsEach item actions (e :: es)) : AcceptsEach item actions es :=
  fun e' he' => h e' (List.mem_cons_of_mem _ he')

end

theorem Worded.not_is (h : Worded t) (hkind : t.kind = .identifier)
    (hword : word.head?.any Token.isLetter = false) : ¬ t.is word := by
  intro hw
  have hletter := h hkind
  rw [text_of_is hw, hword] at hletter
  cases hletter

theorem Worded.kind_of_is (h : Worded t) (hw : t.is word)
    (hword : word.head?.any Token.isLetter = false) : t.kind = .punctuation := by
  have hkind : t.kind = .punctuation ∨ t.kind = .identifier := by
    simp only [Token.is, Bool.and_eq_true, Bool.or_eq_true, decide_eq_true_eq] at hw
    exact hw.1
  exact hkind.resolve_right fun hkind => h.not_is hkind hword hw

theorem members_accepts (h : InRow Pointed names ts) :
    Accepts (members bound) (Lacks ".") ts (names.map .member) := by
  induction h generalizing bound with
  | nil =>
    refine accepts_of_succ (p := members) rfl (fun bound c us hc hlacks => ?_) bound
    exact comes_pass (.start hc) hlacks ((At.start hc).done rfl)
  | cons hname _ ih =>
    cases hname with
    | mk hpoint ht =>
      refine accepts_of_succ (p := members) rfl (fun bound c us hc hlacks => ?_) bound
      refine comes_skip (.start hc) hpoint fun c₁ h₁ => comes_ident h₁ ht fun c₂ h₂ => ?_
      exact comes_fire h₂ rfl fun c₃ h₃ => ih.last h₃ hlacks (by simp)

/-- A reader of indices accepts the indices that its reader of expressions accepts. -/
theorem indices_accepts {index : Parser Unit} (h : Bracketed Expr.Spelled es ts)
    (hindex : AcceptsEach index Expr.actions es) (hwords : ∀ t ∈ ts, Worded t) :
    Accepts (indices index bound) (Lacks "[") ts (Expr.indexActions es) := by
  induction h generalizing bound with
  | nil =>
    refine accepts_of_succ (p := indices index) rfl (fun bound c us hc hlacks => ?_) bound
    exact comes_pass (.start hc) hlacks ((At.start hc).done rfl)
  | cons hl he hr _ ih =>
    refine accepts_of_succ (p := indices index) rfl (fun bound c us hc hlacks => ?_) bound
    refine comes_skip (.start hc) hl fun c₁ h₁ => comes_fire h₁ rfl fun c₂ h₂ => ?_
    refine (hindex _ List.mem_cons_self _ he fun t ht => hwords t (by simp [ht])).bind h₂
      (stops_of_is hr (by decide)) fun c₃ h₃ => comes_expect h₃ hr fun c₄ h₄ => ?_
    exact comes_fire h₄ rfl fun c₅ h₅ => (ih hindex.tail fun t ht =>
      hwords t (by simp [ht])).last h₅ hlacks
      (by simp [Expr.indexActions])

theorem bracketed_head {as : List α} (h : Bracketed Spelled as ts) (hword : ascii mark ≠ ascii "[")
    (hus : Lacks mark us) : Lacks mark (ts ++ us) := by
  cases h with
  | nil => exact hus
  | @cons l r _ _ _ _ hl _ _ _ =>
    intro t ht hw
    obtain rfl : l = t := Option.some.inj ht
    exact hword ((text_of_is hw).symm.trans (text_of_is hl))

theorem members_head (h : InRow Pointed names ts) (hword : ascii mark ≠ ascii ".")
    (hus : Lacks mark us) : Lacks mark (ts ++ us) := by
  cases h with
  | nil => exact hus
  | cons hname _ =>
    cases hname with
    | @mk point _ hpoint _ =>
      intro t ht hw
      obtain rfl : point = t := Option.some.inj ht
      exact hword ((text_of_is hw).symm.trans (text_of_is hpoint))

/-- A reader of references accepts those whose indices its reader of expressions accepts. -/
theorem reference_accepts {index : Parser Unit} (hname : Named name ts)
    (hmembers : InRow Pointed names us)
    (hindices : Bracketed Expr.Spelled es vs) (hindex : AcceptsEach index Expr.actions es)
    (hwords : ∀ t ∈ vs, Worded t) :
    Accepts (reference index bound) (Stops level) (ts ++ us ++ vs)
      (Expr.reference name names es).actions := by
  cases hname with
  | @mk t ht =>
    intro c after hc hstop
    have h₀ : At c [] (t :: (us ++ vs)) after c := .start (by simpa using hc)
    refine comes_ident h₀ ht fun c₁ h₁ => comes_fire h₁ rfl fun c₂ h₂ => ?_
    refine (members_accepts hmembers).bind h₂ (bracketed_head hindices (by decide)
      (hstop.not_is (.inl rfl)))
      fun c₃ h₃ => (indices_accepts hindices hindex hwords).bind h₃.pad
      (hstop.not_is (.inr (.inl rfl))) ?_
    exact fun c₄ h₄ => comes_fire_last h₄ rfl (by simp [Expr.actions])

/-- The words that end a list of expressions, or a statement. -/
def closings : List Bytes := [")", ";"].map ascii

theorem not_letter_of_closing : ∀ word ∈ closings, word.head?.any Token.isLetter = false := by
    decide

/-- An expression begins with none of these words. -/
theorem spelled_head : (e : Expr) → {ts : List Token} → e.Spelled ts → (∀ t ∈ ts, Worded t) →
    ∃ t us, ts = t :: us ∧ ∀ word ∈ closings, ¬ t.is word
  | .constant ty v, _, h, _ => by
    cases h with
    | @constant t _ _ hconst =>
      refine ⟨t, [], rfl, fun word hword hw => ?_⟩
      have htext := text_of_is hw
      simp only [Token.is, Bool.and_eq_true, Bool.or_eq_true, decide_eq_true_eq] at hw
      obtain rfl | rfl : word = ascii ")" ∨ word = ascii ";" := by simpa [closings] using hword
      all_goals obtain ⟨hkind | hkind, -⟩ := hw <;> simp [constant?, hkind, htext, ascii] at hconst
  | .group e, _, h, _ => by
    cases h with
    | @group l r _ ts hl _ _ =>
      refine ⟨l, ts ++ [r], rfl, fun word hword hw => ?_⟩
      rw [← text_of_is hw, text_of_is hl] at hword
      exact absurd hword (by decide)
  | .call function args, _, h, hwords => by
    cases h with
    | @call t l r _ ts hkind _ _ _ _ =>
      refine ⟨t, _, rfl, fun word hword => ?_⟩
      exact (hwords t (by simp)).not_is hkind (not_letter_of_closing word hword)
  | .reference name names es, _, h, hwords => by
    cases h with
    | @reference _ _ _ ts us vs hname _ _ =>
      cases hname with
      | @mk t ht =>
        have hkind : t.kind = .identifier := by
          simp only [isName, Bool.and_eq_true, decide_eq_true_eq] at ht
          exact ht.1
        refine ⟨t, us ++ vs, by simp, fun word hword => ?_⟩
        exact (hwords t (by simp)).not_is hkind (not_letter_of_closing word hword)
  | .unary op e, _, h, _ => by
    cases h with
    | @unary t _ _ ts hop _ _ =>
      refine ⟨t, ts, rfl, fun word hword hw => ?_⟩
      obtain ⟨o, ho, htext⟩ := mark_of_operator? hop
      rw [← text_of_is hw, ← htext] at hword
      have hmarks : ∀ o ∈ unaryOps, ascii o.1 ∉ closings := by decide
      exact hmarks o ho hword
  | .binary op l r, _, h, hwords => by
    cases h with
    | @binary level t _ _ _ ts us _ hl _ _ _ _ =>
      obtain ⟨u, rest, rfl, hu⟩ := spelled_head l hl fun t ht =>
        hwords t (List.mem_append_left _ ht)
      exact ⟨u, rest ++ t :: us, rfl, hu⟩

/-! ## Calls -/

section

variable {actions : Expr → List Action} {item : Parser Unit}

theorem stops_following (h : Following Expr.Spelled es ts) (hr : r.is (ascii ")")) :
    Stops loosest (ts ++ [r] ++ us) := by
  cases h with
  | nil => exact stops_of_is hr (by decide)
  | cons hcomma _ _ => exact stops_of_is hcomma (by decide)

/-- Items behind the first one. -/
theorem items_following (h : Following Expr.Spelled es ts) (hitem : AcceptsEach item actions es)
    (hwords : ∀ t ∈ ts, Worded t) (hr : r.is (ascii ")")) :
    Accepts (items item bound false) (fun _ => True) (ts ++ [r]) (es.flatMap actions) := by
  induction h generalizing bound with
  | nil =>
    refine accepts_of_succ (p := (items item · false)) rfl (fun bound c us hc _ => ?_) bound
    exact comes_skip (.start hc) hr fun c₁ h₁ => h₁.done rfl
  | @cons comma _ _ vs ts hcomma he hrest ih =>
    refine accepts_of_succ (p := (items item · false)) rfl (fun bound c us hc _ => ?_) bound
    have h₀ : At c [] (comma :: (vs ++ (ts ++ [r]))) us c := .start (by simpa using hc)
    have hlacks : Lacks ")" (comma :: (vs ++ (ts ++ [r])) ++ us) := by
      intro t ht hw
      obtain rfl : comma = t := Option.some.inj ht
      exact absurd ((text_of_is hw).symm.trans (text_of_is hcomma)) (by decide)
    refine comes_pass h₀ hlacks (comes_expect h₀ hcomma fun c₁ h₁ => ?_)
    refine (hitem _ List.mem_cons_self _ he fun t ht => hwords t (by simp [ht])).bind h₁
      (stops_following hrest hr) fun c₂ h₂ => ?_
    exact (ih hitem.tail fun t ht => hwords t (by simp [ht])).last h₂ trivial (by simp)

/-- Items in parentheses, from the first one on. -/
theorem items_accepts (h : Listed Expr.Spelled es ts) (hitem : AcceptsEach item actions es)
    (hwords : ∀ t ∈ ts, Worded t) (hr : r.is (ascii ")")) :
    Accepts (items item bound true) (fun _ => True) (ts ++ [r]) (es.flatMap actions) := by
  refine accepts_of_succ (p := (items item · true)) rfl (fun bound c us hc _ => ?_) bound
  cases h with
  | nil => exact comes_skip (.start hc) hr fun c₁ h₁ => h₁.done rfl
  | @cons e _ vs ts he hrest =>
    have hvwords : ∀ t ∈ vs, Worded t := fun t ht => hwords t (List.mem_append_left _ ht)
    have h₀ : At c [] (vs ++ (ts ++ [r])) us c := .start (by simpa using hc)
    have hlacks : Lacks ")" (vs ++ (ts ++ [r]) ++ us) := by
      obtain ⟨u, rest, rfl, hu⟩ := spelled_head e he hvwords
      rintro t ⟨⟩
      exact hu _ (by decide)
    refine comes_pass h₀ hlacks ((hitem _ List.mem_cons_self _ he hvwords).bind h₀
      (stops_following hrest hr) fun c₁ h₁ => ?_)
    exact (items_following hrest hitem.tail (fun t ht => hwords t (List.mem_append_right _ ht))
      hr).last h₁
      trivial (by simp)

end

/-- A reader of calls accepts those whose arguments its reader of expressions accepts, from the
parenthesis on. -/
theorem call_accepts {argument : Parser Unit} (h : Listed Expr.Spelled args ts)
    (hargument : AcceptsEach argument Expr.actions args) (hwords : ∀ t ∈ ts, Worded t)
    (hl : l.is (ascii "(")) (hr : r.is (ascii ")")) (name : Bytes) (discard : Bool) :
    Accepts (call argument bound name discard) (fun _ => True) (l :: (ts ++ [r]))
      (.callStart name :: Expr.argumentActions args ++ [.callEnd discard]) := by
  intro c us hc _
  refine comes_fire (.start hc) rfl fun c₁ h₁ => comes_expect h₁ hl fun c₂ h₂ => ?_
  refine (items_accepts h (hargument.fire rfl) hwords hr).bind h₂.pad trivial fun c₃ h₃ => ?_
  exact comes_fire_last h₃ rfl (by simp [argumentActions_eq])

/-! ## Operands of operators -/

/-- A constant is noted, which is of a type of values. -/
theorem constant_eq (h : constant? t = some (ty, v)) :
    Typing.isPrimitive ty = true ∧ constant t = take >>= fun _ => fire (.pushConst ty v) := by
  unfold constant? at h
  unfold constant
  cases hkind : t.kind with
  | int =>
    simp only [hkind] at h
    cases hread : Decimal.readInt t.text with
    | error e => simp [hread, Except.toOption] at h
    | ok n =>
      rw [hread] at h
      cases h
      exact ⟨rfl, rfl⟩
  | float =>
    simp only [hkind] at h
    cases hread : Decimal.readFloat t.text with
    | error e => simp [hread, Except.toOption] at h
    | ok x =>
      rw [hread] at h
      cases h
      exact ⟨rfl, rfl⟩
  | char =>
    simp only [hkind] at h
    rcases hscalars : Text.scalars t.text with _ | ⟨n, _ | ⟨n', ns⟩⟩
    · rw [hscalars] at h
      cases h
    · rw [hscalars] at h
      cases h
      exact ⟨rfl, rfl⟩
    · rw [hscalars] at h
      cases h
  | string =>
    simp only [hkind] at h
    cases h
    exact ⟨rfl, rfl⟩
  | identifier =>
    simp only [hkind] at h
    split at h
    · next htrue =>
      cases h
      exact ⟨rfl, by simp [htrue]⟩
    · split at h
      · next hnot _ =>
        cases h
        exact ⟨rfl, by simp [hnot]⟩
      · cases h
  | _ =>
    simp only [hkind] at h
    cases h

section

variable {inner : Parser Unit} {Behind : List Token → Prop}

theorem primary_constant (h : constant? t = some (ty, v)) :
    Accepts (primary inner bound) Behind [t] [.pushConst ty v] := by
  intro c us hc _
  obtain ⟨hprimitive, heq⟩ := constant_eq h
  have hconst : Comes c [.pushConst ty v] us (constant t c) := by
    rw [heq]
    exact comes_take (.start hc) fun c₁ h₁ => comes_fire_last h₁ hprimitive rfl
  refine comes_peek (.start hc) ?_
  unfold constant? at h
  cases hkind : t.kind with
  | identifier =>
    simp only [hkind] at h ⊢
    have hword : (t.is (ascii "true") || t.is (ascii "false")) = true := by
      simp only [Bool.or_eq_true, name_of_identifier hkind]
      grind
    rw [if_pos hword]
    exact hconst
  | punctuation | endOfFile =>
    simp only [hkind] at h
    cases h
  | _ => exact hconst

theorem primary_group (hl : l.is (ascii "(")) (hr : r.is (ascii ")"))
    (hkind : l.kind = .punctuation) (h : Accepts inner (Stops loosest) ts as) :
    Accepts (primary inner bound) Behind (l :: ts ++ [r]) (.openGroup :: as ++ [.closeGroup]) := by
  intro c us hc _
  refine comes_peek (.start hc) ?_
  simp only [hkind]
  rw [if_pos hl]
  refine comes_take (.start hc) fun c₁ h₁ => comes_fire h₁ rfl fun c₂ h₂ => ?_
  refine h.bind h₂ (stops_of_is hr (by decide)) fun c₃ h₃ => comes_expect h₃ hr fun c₄ h₄ => ?_
  exact comes_fire_last h₄ rfl (by simp)

theorem not_true_false (hkind : t.kind = .identifier) (hconst : constant? t = none) :
    ¬ (t.is (ascii "true") || t.is (ascii "false")) = true := by
  simp only [Bool.or_eq_true, name_of_identifier hkind]
  unfold constant? at hconst
  simp only [hkind] at hconst
  split at hconst
  · cases hconst
  · split at hconst
    · cases hconst
    · rintro (htrue | hfalse)
      · exact absurd htrue ‹_›
      · exact absurd hfalse ‹_›

theorem primary_call (hkind : t.kind = .identifier) (hconst : constant? t = none)
    (hl : l.is (ascii "(")) (h : Listed Expr.Spelled args ts) (hr : r.is (ascii ")"))
    (hargument : AcceptsEach inner Expr.actions args) (hwords : ∀ t ∈ ts, Worded t) :
    Accepts (primary inner bound) Behind (t :: l :: ts ++ [r]) (Expr.call t.text args).actions := by
  intro c us hc _
  refine comes_peek (.start hc) ?_
  simp only [hkind]
  rw [if_neg (not_true_false hkind hconst)]
  show Comes c _ us ((if c.afterNext.is (ascii "(") then _ else _ : Parser Unit) c)
  rw [afterNext_cons hc, if_pos hl]
  refine comes_take (.start hc) fun c₁ h₁ => ?_
  exact (call_accepts h hargument hwords hl hr t.text false).last h₁ trivial
    (by simp [Expr.actions])

theorem primary_reference (hname : Named name ts) (hmembers : InRow Pointed names us)
    (hindices : Bracketed Expr.Spelled es vs) (hindex : AcceptsEach inner Expr.actions es)
    (hwords : ∀ t ∈ vs, Worded t) :
    Accepts (primary inner bound) (Stops level) (ts ++ us ++ vs)
      (Expr.reference name names es).actions := by
  intro c rest hc hstop
  have href : Comes c _ rest (reference inner bound c) :=
    reference_accepts hname hmembers hindices hindex hwords c rest hc hstop
  cases hname with
  | @mk t ht =>
    have hc' : c.rest = t :: (us ++ (vs ++ rest)) := by simpa using hc
    simp only [isName, Bool.and_eq_true, decide_eq_true_eq, Bool.not_eq_true'] at ht
    obtain ⟨hkind, hkeyword⟩ := ht
    have hplain : ¬ (t.is (ascii "true") || t.is (ascii "false")) = true := by
      simp only [Bool.or_eq_true, name_of_identifier hkind]
      rintro (htext | htext) <;> rw [htext] at hkeyword <;> exact absurd hkeyword (by decide)
    have hhead : Lacks "(" (us ++ (vs ++ rest)) := members_head hmembers (by decide)
      (bracketed_head hindices (by decide) (hstop.not_is (.inr (.inr rfl))))
    have h₀ : At c [] (t :: (us ++ vs)) rest c := .start (by simpa using hc)
    refine comes_peek h₀ ?_
    simp only [hkind]
    rw [if_neg hplain]
    show Comes c _ rest ((if c.afterNext.is (ascii "(") then _ else _ : Parser Unit) c)
    rw [if_neg (not_is_afterNext hc' hhead)]
    exact href

end

/-! ## Levels -/

/-- What no operator of one operand begins is read as an operand. -/
theorem accepts_primary (hnone : operator? unaryOps t = none)
    (h : ∀ b, Accepts (primary (expressionAt b loosest) b) (Stops 0) (t :: ts) as) (b : Nat) :
    Accepts (expressionAt b 0) (Stops 0) (t :: ts) as := by
  refine accepts_of_succ (p := (expressionAt · 0)) rfl (fun b c us hc hstop => ?_) b
  exact comes_no_operator (by rw [next_cons hc]; exact hnone) (h b c us hc hstop)

theorem accepts_unary {op : UnaryOp} (hop : operator? unaryOps t = some op)
    (h : ∀ b, Accepts (expressionAt b 0) (Stops 0) ts as) (b : Nat) :
    Accepts (expressionAt b 0) (Stops 0) (t :: ts)
      (.pushOperator op.opcode :: as ++ [.collapse Level.unary]) := by
  refine accepts_of_succ (p := (expressionAt · 0)) rfl (fun b c us hc hstop => ?_) b
  refine comes_operator (.start hc) hop fun c₁ h₁ => comes_fire h₁ rfl fun c₂ h₂ => ?_
  exact (h b).bind h₂.pad hstop fun c₃ h₃ => comes_fire_last h₃ rfl (by simp)

/-- No operator continues a chain. -/
theorem comes_chain_end {operand : Parser Unit} (k : Nat) (h : At c as [] us c₁)
    (hstop : Stops level us) :
    Comes c as us (chain operand level k c₁) := by
  cases k with
  | zero => exact comes_tooDeep h
  | succ k => exact comes_no_operator (hstop.operator?_next h.2 (Nat.le_refl _)) (h.done rfl)

/-- An expression of a level is one of every looser level. -/
theorem accepts_looser (hle : level ≤ level')
    (h : ∀ b, Accepts (expressionAt b level) (Stops level) ts as) (b : Nat) :
    Accepts (expressionAt b level') (Stops level') ts as := by
  induction hle generalizing b with
  | refl => exact h b
  | @step m _ ih =>
    refine accepts_of_succ (p := (expressionAt · (m + 1))) rfl (fun b c us hc hstop => ?_) b
    exact (ih b).bind (At.start hc).pad (hstop.mono (Nat.le_succ m)) fun c₁ h₁ =>
      comes_chain_end _ h₁ hstop

/-- An expression is read as the first operand of a chain, or as the first links of it. -/
def Begins (level : Nat) (e : Expr) (ts : List Token) : Prop :=
  ∀ (b k : Nat) {c c₁ : Cursor} {as cs : List Action} {rest us : List Token},
    At c as (ts ++ rest) us c₁ → Stops level (rest ++ us) →
    (∀ k' c₂, At c (as ++ e.actions) rest us c₂ →
      Comes c cs us (chain (expressionAt b level) (level + 1) k' c₂)) →
    Comes c cs us
      ((expressionAt b level >>= fun _ => chain (expressionAt b level) (level + 1) k) c₁)

/-- An operator and its right operand behind what a chain has read. -/
theorem comes_link {operand : Parser Unit} (k : Nat)
    (hop : operator? (binaryOps (level + 1)) t = some op)
    (hr : Accepts operand (Stops level) ts bs) (h : At c as (t :: (ts ++ rest)) us c₁)
    (hstop : Stops level (rest ++ us))
    (hf : ∀ k' c₂, At c (as ++ [.pushOperator op.opcode] ++ bs ++
      [.collapse (Operator.binary op).level]) rest us c₂ →
      Comes c cs us ((if associates (level + 1) then chain operand (level + 1) k' else pure ())
        c₂)) :
    Comes c cs us (chain operand (level + 1) k c₁) := by
  rw [level_of_binaryOps hop] at hf
  cases k with
  | zero => exact comes_tooDeep h
  | succ k =>
    refine comes_operator h hop fun c₂ h₂ => comes_fire h₂ rfl fun c₃ h₃ => ?_
    exact hr.bind h₃ hstop fun c₄ h₄ => comes_fire h₄ rfl fun c₅ h₅ => hf k c₅ h₅

/-- The readers accept an expression on its own level and the looser ones, and within a chain. -/
structure Accepted (e : Expr) (ts : List Token) : Prop where
  within : ∀ {level : Nat}, e.level ≤ level → ∀ b, Accepts (expressionAt b level)
    (Stops level) ts e.actions
  begins : ∀ {level : Nat}, e.level ≤ (level + 1 : Nat) →
    (e.level = (level + 1 : Nat) → associates (level + 1) = true) → Begins level e ts

theorem Expr.level_eq (e : Expr) : ∃ n ≤ loosest, e.level = (n : Nat) := by
  cases e with
  | binary op l r =>
    rcases op with (_ | _ | _ | _) | _ | _
    · exact ⟨2, by decide, rfl⟩
    · exact ⟨2, by decide, rfl⟩
    · exact ⟨1, by decide, rfl⟩
    · exact ⟨1, by decide, rfl⟩
    · exact ⟨3, by decide, rfl⟩
    · exact ⟨4, by decide, rfl⟩
  | _ => exact ⟨0, by decide, rfl⟩

theorem Expr.level_le_loosest (e : Expr) : e.level ≤ loosest := by
  obtain ⟨n, hn, hlevel⟩ := e.level_eq
  rw [hlevel]
  exact Int.ofNat_le.2 hn

section

variable {e l r : Expr}

theorem level_le_of_lt (h : e.level < (level + 1 : Nat)) : e.level ≤ level := Int.le_of_lt_add_one h

theorem begins_of_accepts (h : ∀ b, Accepts (expressionAt b level) (Stops level) ts e.actions) :
    Begins level e ts :=
  fun b k _ _ _ _ _ _ h₁ hstop hf => (h b).bind h₁ hstop fun c₂ h₂ => hf k c₂ h₂

/-- What is no operation is no link of a chain. -/
theorem accepted_of_tight (h : ∀ b, Accepts (expressionAt b 0) (Stops 0) ts e.actions) :
    Accepted e ts where
  within _ := accepts_looser (Nat.zero_le _) h
  begins _ _ := begins_of_accepts (accepts_looser (Nat.zero_le _) h)

theorem accepted_binary (hop : operator? (binaryOps level) t = some op) (hl : Accepted l ts)
    (hr : Accepted r us) (hrlevel : r.level < level) (hllevel : l.level ≤ level)
    (hassoc : l.level = level → associates level = true) :
    Accepted (.binary op l r) (ts ++ t :: us) := by
  have hlevel : (Expr.binary op l r).level = level := level_of_binaryOps hop
  obtain ⟨level, rfl⟩ : ∃ n, level = n + 1 := by
    cases level with
    | zero => exact absurd hop (by simp [operator?, binaryOps])
    | succ n => exact ⟨n, rfl⟩
  -- The left operand begins a chain, and the operator with its right operand is its next link.
  have hlink : ∀ b k {c c₁ as cs rest vs}, At c as (ts ++ t :: us ++ rest) vs c₁ →
    Stops level (rest ++ vs) →
      (∀ k' c₂, At c (as ++ (Expr.binary op l r).actions) rest vs c₂ → Comes c cs vs
        ((if associates (level + 1) then chain (expressionAt b level) (level + 1) k'
          else pure ()) c₂)) →
      Comes c cs vs
        ((expressionAt b level >>= fun _ => chain (expressionAt b level) (level + 1) k) c₁) := by
    intro b k c c₁ as cs rest vs h₁ hstop hf
    rw [List.append_assoc] at h₁
    refine hl.begins hllevel hassoc b k h₁ (stops_of_operator? hop) fun k₁ c₂ h₂ => ?_
    refine comes_link k₁ hop (hr.within (level_le_of_lt hrlevel) b) h₂ hstop fun k₂ c₃ h₃ =>
      hf k₂ c₃ ?_
    simpa [Expr.actions] using h₃
  have hown : ∀ b, Accepts (expressionAt b (level + 1)) (Stops (level + 1)) (ts ++ t :: us)
      (Expr.binary op l r).actions := by
    refine accepts_of_succ (p := (expressionAt · (level + 1))) rfl fun b c vs hc hstop => ?_
    refine hlink b _ (At.start hc).pad (hstop.mono (Nat.le_succ level)) fun k₁ c₂ h₂ => ?_
    split
    · exact comes_chain_end k₁ h₂ hstop
    · exact h₂.done rfl
  refine ⟨fun hle => accepts_looser (Int.ofNat_le.1 (hlevel ▸ hle)) hown,
    fun {level'} hle hassoc' => ?_⟩
  rw [hlevel] at hle hassoc'
  rcases Nat.lt_or_eq_of_le (Nat.le_of_succ_le_succ (Int.ofNat_le.1 hle)) with hlt | rfl
  · exact begins_of_accepts (accepts_looser hlt hown)
  · intro b k c c₁ as cs rest vs h₁ hstop hf
    refine hlink b k h₁ hstop fun k' c₂ h₂ => ?_
    rw [if_pos (hassoc' rfl)]
    exact hf k' c₂ h₂

end

theorem operator?_of_kind (h : t.kind ≠ .punctuation) : operator? unaryOps t = none := by
  unfold operator?
  rw [if_neg h]

theorem operator?_of_is (h : t.is word) (hword : ∀ o ∈ unaryOps, ascii o.1 ≠ word) :
    operator? unaryOps t = none := by
  cases hop : operator? unaryOps t with
  | none => rfl
  | some op =>
    obtain ⟨o, ho, htext⟩ := mark_of_operator? hop
    exact absurd (htext.trans (text_of_is h)) (hword o ho)

theorem operator?_of_constant? (h : constant? t = some (ty, v)) : operator? unaryOps t = none := by
  refine operator?_of_kind fun hkind => ?_
  unfold constant? at h
  simp only [hkind] at h
  cases h

mutual

/-- Every text of an expression is accepted. -/
theorem accepted_of_spelled : (e : Expr) → {ts : List Token} → e.Spelled ts → (∀ t ∈ ts, Worded t) →
    Accepted e ts
  | .constant ty v, _, h, hwords => by
    cases h with
    | constant hconst =>
      exact accepted_of_tight (accepts_primary (operator?_of_constant? hconst) fun _ =>
        primary_constant hconst)
  | .group e, _, h, hwords => by
    cases h with
    | @group l r _ ts hl he hr =>
      have hkind : l.kind = .punctuation := (hwords l (by simp)).kind_of_is hl (by decide)
      have hinner := accepted_of_spelled e he fun t ht => hwords t (by simp [ht])
      refine accepted_of_tight (accepts_primary (operator?_of_is hl (by decide)) fun b => ?_)
      exact primary_group hl hr hkind (hinner.within e.level_le_loosest b)
  | .call function args, _, h, hwords => by
    cases h with
    | call hkind hconst hl hargs hr =>
      refine accepted_of_tight (accepts_primary (operator?_of_kind (by simp [hkind])) fun b => ?_)
      exact primary_call hkind hconst hl hargs hr (all_accepted args b) fun t ht =>
        hwords t (by simp [ht])
  | .reference name names es, _, h, hwords => by
    cases h with
    | reference hname hmembers hindices =>
      cases hname with
      | @mk t ht =>
        have hkind : t.kind ≠ .punctuation := by
          simp only [isName, Bool.and_eq_true, decide_eq_true_eq] at ht
          simp [ht.1]
        refine accepted_of_tight (accepts_primary (operator?_of_kind hkind) fun b => ?_)
        exact primary_reference (.mk ht) hmembers hindices (all_accepted es b) fun t ht =>
          hwords t (by simp [ht])
  | .unary op e, _, h, hwords => by
    cases h with
    | unary hop he hlevel =>
      have hinner := accepted_of_spelled e he fun t ht => hwords t (by simp [ht])
      have htight : e.level ≤ (0 : Nat) := hlevel
      exact accepted_of_tight (accepts_unary hop (hinner.within htight))
  | .binary op l r, _, h, hwords => by
    cases h with
    | binary hop hl hr hrlevel hllevel hassoc =>
      exact accepted_binary hop (accepted_of_spelled l hl fun t ht => hwords t (by simp [ht]))
        (accepted_of_spelled r hr fun t ht => hwords t (by simp [ht])) hrlevel hllevel hassoc

theorem all_accepted : (es : List Expr) → (b : Nat) →
    AcceptsEach (expressionAt b loosest) Expr.actions es
  | [], _, _, he, _, _, _ => by cases he
  | e :: es, b, e', he, ts, h, hwords => by
    rcases List.mem_cons.1 he with heq | he
    · rw [heq] at h ⊢
      exact (accepted_of_spelled e h hwords).within e.level_le_loosest b
    · exact all_accepted es b e' he ts h hwords

end

/-- A text of an expression, followed by a token that continues no expression, is read as the
expression. -/
theorem expression_accepts (h : e.Spelled ts) (hwords : ∀ t ∈ ts, Worded t)
    (hbound : 6 * ts.length + loosest ≤ bound) (c : Cursor) (us : List Token)
    (hc : c.rest = ts ++ us) (hstop : Stops loosest us) :
    ∃ c', expression bound c = .ok () c' ∧ Took c ts e.actions c' := by
  have hpositive := List.length_pos_iff.2 h.ne_nil
  have hcomes := (accepted_of_spelled e h hwords).within e.level_le_loosest bound c us hc hstop
  exact hcomes.took (reads_expression (Nat.le_refl _) c) hc (by unfold loosest at hbound; omega)

end Quadlang.Source
