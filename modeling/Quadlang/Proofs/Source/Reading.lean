-- What a reading does. The tokens that it takes spell a tree, and the actions that it notes are
-- those of the tree. If it stops at an error, it has noted the beginning of what some tree asks
-- for, and the error is about a token that it came to. Readers are followed step by step: from a
-- cursor on, each step takes tokens and notes actions, or it is the last one.
import Quadlang.Proofs.Source.Literals
import Quadlang.Proofs.Success
import Quadlang.Typing

namespace Quadlang

/-- Whether the token of a cause was taken before the error was reported. -/
def SyntaxCause.taken : SyntaxCause → Bool
  | .expected _ _ | .identifierExpected _ | .typeExpected _ | .arraySizeExpected _ => true
  | .badArraySize _ | .badInt _ | .badFloat _ | .badChar _ => true
  | _ => false

/-- The token that a cause is about. A bad literal is known by its kind and its text. -/
def SyntaxCause.Blames : SyntaxCause → Token → Prop
  | .expected _ got, t | .identifierExpected got, t | .typeExpected got, t
  | .statementExpected got, t | .expressionExpected got, t | .arraySizeExpected got, t
  | .unexpected got, t | .unexpectedAfterMain got, t => got = t
  | .badArraySize text, t | .badInt text, t => t.kind = .int ∧ t.text = text
  | .badFloat text, t => t.kind = .float ∧ t.text = text
  | .badChar text, t => t.kind = .char ∧ t.text = text
  | .unexpectedEnd, t => t.kind = .endOfFile
  | _, _ => False

namespace Source

open Grammar Success

variable {c c' c₁ c₂ : Cursor} {k k' bound level width : Nat} {index inner p : Parser Unit}
  {t : Token} {α β : Type} {word : String} {name : Bytes} {ts us : List Token} {as bs : List Action}

/-! ## Cursors -/

/-- A line of a text with `n` lines. -/
def OnLine (n line : Nat) : Prop := 1 ≤ line ∧ line ≤ n

/-- What a cursor has ahead and behind it stands on the lines of a text with `n` lines, and the
constants that it has noted are of types of values. -/
structure Sane (n : Nat) (c : Cursor) : Prop where
  rest : ∀ t ∈ c.rest, OnLine n t.line
  last : OnLine n c.lastLine
  line : OnLine n c.line
  events : ∀ e ∈ c.events, OnLine n e.line
  constants : ∀ e ∈ c.events, ∀ ty v, e.action = .pushConst ty v → Typing.isPrimitive ty = true

/-- From one cursor to another some tokens were taken and some actions noted. -/
structure Took (c : Cursor) (ts : List Token) (as : List Action) (c' : Cursor) : Prop where
  rest : c.rest = ts ++ c'.rest
  events : c'.events.map (·.action) = as.reverse ++ c.events.map (·.action)
  sane : ∀ {n}, Sane n c → Sane n c'
  kept : c.events <:+ c'.events
  lastLine : c'.lastLine = c.lastLine

/-- One cursor stands at or behind another in the same tokens. -/
def Ahead (c c' : Cursor) : Prop := c'.rest <:+ c.rest ∧ c'.lastLine = c.lastLine

/-- The cause of an error is about the next token of a cursor, and the reading has stopped in front
of it, or behind it if it was taken. The line of the error is that of the token it stopped at. -/
structure Accuses (c : Cursor) (e : SyntaxError) (c' : Cursor) : Prop where
  blames : e.cause.Blames c.next
  rest : c'.rest = if e.cause.taken then c.rest.tail else c.rest
  lastLine : c'.lastLine = c.lastLine
  line : e.line = c'.next.line

/-- A reading that began at one cursor has stopped at another, with some actions noted between. -/
structure Stopped (c : Cursor) (as : List Action) (e : SyntaxError) (c' : Cursor) : Prop where
  events : c'.events.map (·.action) = as.reverse ++ c.events.map (·.action)
  accuses : ∃ c₁, Ahead c c₁ ∧ Accuses c₁ e c'
  sane : ∀ {n}, Sane n c → OnLine n e.line ∧ Sane n c'

theorem Took.refl (c : Cursor) : Took c [] [] c := ⟨rfl, rfl, id, List.suffix_refl _, rfl⟩

theorem Took.trans (h : Took c ts as c₁) (h' : Took c₁ us bs c₂) :
    Took c (ts ++ us) (as ++ bs) c₂ := by
  refine ⟨?_, ?_, fun hc => h'.sane (h.sane hc), h.kept.trans h'.kept, h'.lastLine.trans h.lastLine⟩
  · rw [h.rest, h'.rest, List.append_assoc]
  · rw [h'.events, h.events, List.reverse_append, List.append_assoc]

theorem Took.length_eq (h : Took c ts as c') : c.rest.length = ts.length + c'.rest.length := by
  rw [h.rest, List.length_append]

theorem Took.ahead (h : Took c ts as c') : Ahead c c' := ⟨⟨ts, h.rest.symm⟩, h.lastLine⟩

theorem Took.stopped {e : SyntaxError} (h : Took c ts as c₁) (h' : Stopped c₁ bs e c') :
    Stopped c (as ++ bs) e c' := by
  obtain ⟨c₂, hahead, haccuses⟩ := h'.accuses
  refine ⟨?_, ⟨c₂, ⟨hahead.1.trans h.ahead.1, hahead.2.trans h.lastLine⟩, haccuses⟩,
    fun hc => h'.sane (h.sane hc)⟩
  rw [h'.events, h.events, List.reverse_append, List.append_assoc]

theorem Stopped.cause {e : SyntaxError} (h : Stopped c as e c') : e.cause ≠ .tooDeep := by
  obtain ⟨c₁, -, haccuses⟩ := h.accuses
  intro hdeep
  have hblames := haccuses.blames
  rw [hdeep] at hblames
  exact hblames

theorem Sane.next {n : Nat} (h : Sane n c) : OnLine n c.next.line := by
  unfold Cursor.next
  split
  · exact h.last
  · rename_i hrest
    exact h.rest _ (by rw [hrest]; exact List.mem_cons_self ..)

theorem kind_ne_of_is {word : Bytes} (h : t.is word) : t.kind ≠ .endOfFile := by
  intro hk
  simp [Token.is, hk] at h

/-! ## Readings -/

/-- The constant is of a type of values. -/
def Plain (ty : Ty) (_ : Value) : Prop := Typing.isPrimitive ty = true

/-- Some actions are the beginning of what some tree asks for, and no other constants follow them
than those of types of values. -/
def Begun (actions : α → List Action) (as : List Action) : Prop :=
  ∃ a bs, actions a = as ++ bs ∧ ConstantActions Plain bs

/-- How a reading from a cursor on ends. Either it has taken tokens and noted actions as it should,
or it has stopped with the beginning of some actions. Once it has taken a token for every five of
`k`, it may also have reached the bound on nesting. -/
def Leads (k : Nat) (c : Cursor) (Q : List Token → List Action → Cursor → Prop)
    (actions : α → List Action) : EStateM.Result SyntaxError Cursor Unit → Prop
  | .ok _ c' => ∃ ts as, Q ts as c' ∧ Took c ts as c'
  | .error e c' => 5 * c.rest.length < k + 5 * c'.rest.length →
    ∃ as, Begun actions as ∧ Stopped c as e c'

/-- A reader takes what spells a tree, and notes the actions of the tree. -/
def Reads (k : Nat) (p : Parser Unit) (Spelled : α → List Token → Prop)
    (actions : α → List Action) : Prop :=
  ∀ c, Leads k c (fun ts as _ => ∃ a, Spelled a ts ∧ as = actions a) actions (p c)

section Steps

variable {Q Q' : List Token → List Action → Cursor → Prop} {actions : α → List Action}
  {actions' : β → List Action} {Spelled : β → List Token → Prop} {f : Unit → Parser Unit}
  {cause : SyntaxCause}

theorem Reads.mono (h : Reads k p Spelled actions') (hk : k' ≤ k) :
    Reads k' p Spelled actions' := by
  intro c
  have hc := h c
  unfold Leads at hc ⊢
  split at hc
  · exact hc
  · exact fun hlength => hc (by omega)

theorem Reads.imp {Spelled' : β → List Token → Prop} (h : Reads k p Spelled actions')
    (hs : ∀ {b ts}, Spelled b ts → Spelled' b ts) : Reads k p Spelled' actions' := by
  intro c
  have hc := h c
  unfold Leads at hc ⊢
  split at hc
  · obtain ⟨ts, as, ⟨b, hb, has⟩, h₁⟩ := hc
    exact ⟨ts, as, ⟨b, hs hb, has⟩, h₁⟩
  · exact hc

theorem leads_pure (h : Took c ts as c₁) (hq : Q ts as c₁) :
    Leads k c Q actions ((pure () : Parser Unit) c₁) :=
  ⟨ts, as, hq, h⟩

theorem leads_last (h : Leads k c Q actions ((p >>= pure) c₁)) : Leads k c Q actions (p c₁) := by
  rwa [bind_pure] at h

/-- What follows a part that reads. -/
theorem Leads.bind (hp : Leads k' c₁ Q' actions' (p c₁)) (h : Took c ts as c₁)
    (hk : k ≤ k' + 5 * ts.length) (hbegun : ∀ b, Begun actions (as ++ actions' b))
    (hf : ∀ us bs c₂, Q' us bs c₂ → Took c (ts ++ us) (as ++ bs) c₂ →
      Leads k c Q actions (f () c₂)) :
    Leads k c Q actions ((p >>= f) c₁) := by
  cases hresult : p c₁ with
  | ok u c₂ =>
    rw [hresult] at hp
    obtain ⟨us, bs, hq, htook⟩ := hp
    rw [bind_of_ok hresult]
    exact hf us bs c₂ hq (h.trans htook)
  | error e c₂ =>
    rw [hresult] at hp
    rw [bind_of_error hresult]
    intro hc
    have hlength := h.length_eq
    obtain ⟨bs, ⟨b, rest, hb, hrest⟩, hstopped⟩ := hp (by omega)
    obtain ⟨a, rest', ha, hrest'⟩ := hbegun b
    refine ⟨as ++ bs, ⟨a, rest ++ rest', ?_, by simp [hrest, hrest']⟩, h.stopped hstopped⟩
    rw [ha, hb]
    simp

/-- What follows a tree that is read. -/
theorem Reads.bind (hp : Reads k' p Spelled actions') (h : Took c ts as c₁)
    (hk : k ≤ k' + 5 * ts.length) (hbegun : ∀ b, Begun actions (as ++ actions' b))
    (hf : ∀ b us c₂, Spelled b us → Took c (ts ++ us) (as ++ actions' b) c₂ →
      Leads k c Q actions (f () c₂)) : Leads k c Q actions ((p >>= f) c₁) := by
  refine (hp c₁).bind h hk hbegun ?_
  rintro us _ c₂ ⟨b, hb, rfl⟩ h₂
  exact hf b us c₂ hb h₂

/-- Where the bound on nesting is reached. -/
theorem leads_tooDeep (h : Took c ts as c₁) (hk : k ≤ 5 * ts.length) :
    Leads k c Q actions (fail .tooDeep c₁) := by
  have hlength := h.length_eq
  exact fun hc => absurd hc (by omega)

/-- A token that is refused before it is taken. -/
theorem leads_fail (h : Took c ts as c₁) (hbegun : Begun actions as)
    (hblames : cause.Blames c₁.next)
    (htaken : cause.taken = false) : Leads k c Q actions (fail cause c₁) := by
  refine fun _ => ⟨as, hbegun, ?_⟩
  have hstopped : Stopped c₁ [] ⟨c₁.next.line, cause⟩ c₁ :=
    ⟨rfl, ⟨c₁, ⟨List.suffix_refl _, rfl⟩, hblames, by simp [htaken], rfl, rfl⟩, fun hc =>
      ⟨hc.next, hc⟩⟩
  simpa using h.stopped hstopped

theorem leads_peek {f : Token → Parser Unit} (h : Leads k c Q actions (f c₁.next c₁)) :
    Leads k c Q actions ((peek >>= f) c₁) := h

theorem leads_peekSecond {f : Token → Parser Unit} (h : Leads k c Q actions (f c₁.afterNext c₁)) :
    Leads k c Q actions ((peekSecond >>= f) c₁) := h

theorem leads_take {f : Token → Parser Unit}
    (h : ∀ c₂, take c₁ = .ok c₁.next c₂ → Leads k c Q actions (f c₁.next c₂)) :
    Leads k c Q actions ((take >>= f) c₁) := h _ rfl

theorem take_eq_ok (h : take c = .ok t c') : c.next = t ∧ c'.rest = c.rest.tail ∧
    c'.events = c.events ∧ c'.lastLine = c.lastLine ∧ ∀ {n}, Sane n c → Sane n c' := by
  cases h
  refine ⟨rfl, rfl, rfl, rfl, fun hc => ⟨fun t ht => ?_, hc.last, hc.next, hc.events, hc.constants⟩⟩
  exact hc.rest t (List.mem_of_mem_tail ht)

theorem Took.take (h : Took c ts as c₁) (htake : take c₁ = .ok t c₂) (hkind : t.kind ≠ .endOfFile) :
    Took c (ts ++ [t]) as c₂ := by
  obtain ⟨rfl, hrest, hevents, hlast, hsane⟩ := take_eq_ok htake
  have htook : Took c₁ [c₁.next] [] c₂ := by
    refine ⟨?_, by simp [hevents], hsane, hevents ▸ List.suffix_refl _, hlast⟩
    rw [hrest]
    unfold Cursor.next at hkind ⊢
    split at hkind
    · exact absurd rfl hkind
    · rename_i hrest
      simp [hrest]
  simpa using h.trans htook

/-- A token that is refused after it was taken. -/
theorem leads_refuse (h : Took c ts as c₁) (htake : take c₁ = .ok t c₂) (hbegun : Begun actions as)
    (hblames : cause.Blames t) (htaken : cause.taken = true) :
    Leads k c Q actions (fail cause c₂) := by
  obtain ⟨rfl, hrest, hevents, hlast, hsane⟩ := take_eq_ok htake
  refine fun _ => ⟨as, hbegun, ?_⟩
  have hstopped : Stopped c₁ [] ⟨c₂.next.line, cause⟩ c₂ :=
    ⟨by simp [hevents], ⟨c₁, ⟨List.suffix_refl _, rfl⟩, hblames,
    by simp [htaken, hrest], hlast, rfl⟩,
      fun hc => ⟨(hsane hc).next, hsane hc⟩⟩
  simpa using h.stopped hstopped

theorem leads_take_word {f : Token → Parser Unit} {word : Bytes} (h : Took c ts as c₁)
    (hw : c₁.next.is word)
    (hf : ∀ t c₂, t.is word → Took c (ts ++ [t]) as c₂ → Leads k c Q actions (f t c₂)) :
    Leads k c Q actions ((take >>= f) c₁) :=
  leads_take fun c₂ htake => hf _ c₂ hw (h.take htake (kind_ne_of_is hw))

/-- Whether an action pushes a constant of a primitive type or none at all. -/
def pushesPrimitive : Action → Bool
  | .pushConst ty _ => Typing.isPrimitive ty
  | _ => true

theorem pushesPrimitive_of_ne {a : Action} (h : ∀ ty v, a ≠ .pushConst ty v) :
    pushesPrimitive a = true := by
  cases a with
  | pushConst ty v => exact absurd rfl (h ty v)
  | _ => rfl

theorem fire_eq_ok {a : Action} {u : Unit} (h : fire a c = .ok u c')
    (ha : pushesPrimitive a = true) : Took c [] [a] c' := by
  simp only [fire, modify_eq_ok] at h
  subst h
  refine ⟨rfl, rfl, fun hc => ⟨hc.rest, hc.last, hc.line, ?_, ?_⟩, List.suffix_cons .., rfl⟩
  · exact List.forall_mem_cons.2 ⟨hc.line, hc.events⟩
  · refine List.forall_mem_cons.2 ⟨fun ty v hv => ?_, hc.constants⟩
    subst hv
    exact ha

section

variable (h : Took c ts as c₁)

include h

theorem leads_fire {a : Action} (ha : pushesPrimitive a = true)
    (hf : ∀ c₂, Took c ts (as ++ [a]) c₂ → Leads k c Q actions (f () c₂)) :
    Leads k c Q actions ((fire a >>= f) c₁) := by
  have htook := h.trans (fire_eq_ok (u := ()) rfl ha)
  rw [List.append_nil] at htook
  exact hf _ htook

theorem leads_skip {q : Parser Unit}
    (hp : ∀ t c₂, t.is (ascii word) → Took c (ts ++ [t]) as c₂ → Leads k c Q actions (p c₂))
    (hq : ¬ c₁.next.is (ascii word) → Leads k c Q actions (q c₁)) :
    Leads k c Q actions ((do if ← skip word then p else q : Parser Unit) c₁) := by
  show Leads k c Q actions (((if c₁.next.is (ascii word) then (do let _ ← take; pure true)
    else pure false) >>= fun b => if b then p else q) c₁)
  split
  · rename_i hw
    exact hp _ _ hw (h.take rfl (kind_ne_of_is hw))
  · rename_i hw
    exact hq hw

theorem leads_expect (hbegun : Begun actions as)
    (hf : ∀ t c₂, t.is (ascii word) → Took c (ts ++ [t]) as c₂ → Leads k c Q actions (f () c₂)) :
    Leads k c Q actions ((expect word >>= f) c₁) := by
  unfold expect
  rw [bind_assoc]
  refine leads_take fun c₂ htake => ?_
  split
  · rename_i hw
    exact hf _ c₂ hw (h.take htake (kind_ne_of_is hw))
  · exact leads_refuse h htake hbegun rfl rfl

theorem leads_ident {f : Bytes → Parser Unit} (hbegun : Begun actions as)
    (hf : ∀ t c₂, isName t → Took c (ts ++ [t]) as c₂ → Leads k c Q actions (f t.text c₂)) :
    Leads k c Q actions ((ident >>= f) c₁) := by
  unfold ident
  rw [bind_assoc]
  refine leads_take fun c₂ htake => ?_
  split
  · rename_i hname
    exact hf _ c₂ hname (h.take htake fun hk => by simp [isName, hk] at hname)
  · exact leads_refuse h htake hbegun rfl rfl

theorem leads_typeName {f : Bytes → Parser Unit} (hbegun : Begun actions as)
    (hf : ∀ t c₂, isTypeName t → Took c (ts ++ [t]) as c₂ → Leads k c Q actions (f t.text c₂)) :
    Leads k c Q actions ((typeName >>= f) c₁) := by
  unfold typeName
  rw [bind_assoc]
  refine leads_take fun c₂ htake => ?_
  split
  · rename_i hname
    exact hf _ c₂ hname (h.take htake fun hk => by simp [hk] at hname)
  · exact leads_refuse h htake hbegun rfl rfl

theorem leads_operator {γ : Type} {ops : List (String × γ)} {f : Option γ → Parser Unit}
    (hsome : ∀ op t c₂, operator? ops t = some op → Took c (ts ++ [t]) as c₂ →
      Leads k c Q actions (f (some op) c₂))
    (hnone : Leads k c Q actions (f none c₁)) : Leads k c Q actions ((operator ops >>= f) c₁) := by
  unfold operator
  rw [bind_assoc]
  refine leads_peek ?_
  cases hop : operator? ops c₁.next with
  | none => exact hnone
  | some op =>
    refine hsome op c₁.next _ hop (h.take rfl fun hk => ?_)
    simp [operator?, hk] at hop

end

end Steps

/-! ## Sequences -/

/-- Something with a closing mark behind it. -/
def Closed (mark : String) (Spelled : α → List Token → Prop) (a : α) (ts : List Token) : Prop :=
  ∃ us r, Spelled a us ∧ r.is (ascii mark) ∧ ts = us ++ [r]

/-- Something between two marks. -/
def Between (left right : String) (Spelled : α → List Token → Prop) (a : α) (ts : List Token) :
    Prop :=
  ∃ l us r, l.is (ascii left) ∧ Spelled a us ∧ r.is (ascii right) ∧ ts = l :: us ++ [r]

section Sequences

variable {item : Parser Unit} {Spelled : α → List Token → Prop} {actions : α → List Action}

/-- An item with an action behind it. -/
theorem Reads.fire (hp : Reads k p Spelled actions) (action : Action)
    (haction : ∀ ty v, action ≠ .pushConst ty v) :
    Reads k (do p; fire action) Spelled fun a => actions a ++ [action] := by
  intro c
  refine hp.bind (.refl c) (by simp) (fun a => ⟨a, [action], by simp, by simp [haction]⟩) ?_
  intro a ts c₁ ha h₁
  refine leads_last (leads_fire h₁ (pushesPrimitive_of_ne haction) fun c₂ h₂ => ?_)
  exact leads_pure h₂ ⟨a, by simpa using ha, by simp⟩

theorem reads_following (hitem : Reads k item Spelled actions) (hk : k ≤ 5 * bound) :
    Reads k (items item bound false) (Closed ")" (Following Spelled)) (·.flatMap actions) := by
  induction bound generalizing k with
  | zero => exact fun c => leads_tooDeep (.refl c) hk
  | succ bound ih =>
    intro c
    refine leads_skip (.refl c) (fun r c₁ hr h₁ => ?_) fun _ => ?_
    · exact leads_pure h₁ ⟨[], ⟨[], r, .nil, hr, rfl⟩, rfl⟩
    refine leads_expect (.refl c) ⟨[], [], rfl, .nil⟩ fun comma c₁ hcomma h₁ => ?_
    refine hitem.bind h₁ (by simp) (fun a => ⟨[a], [], by simp, .nil⟩) fun a us c₂ ha h₂ => ?_
    refine leads_last ((ih (hitem.mono (Nat.sub_le k 5)) (by omega)).bind h₂ (by simp; omega)
      (fun as => ⟨a :: as, [], by simp, .nil⟩) ?_)
    rintro as _ c₃ ⟨vs, r, has, hr, rfl⟩ h₃
    exact leads_pure h₃ ⟨a :: as, ⟨_, r, .cons hcomma ha has, hr, by simp⟩, by simp⟩

theorem reads_items (hitem : Reads k item Spelled actions) (hne : ∀ {a ts}, Spelled a ts → ts ≠ [])
    (hk : k ≤ 5 * bound) :
    Reads k (items item bound true) (Closed ")" (Listed Spelled)) (·.flatMap actions) := by
  intro c
  cases bound with
  | zero => exact leads_tooDeep (.refl c) hk
  | succ bound =>
    refine leads_skip (.refl c) (fun r c₁ hr h₁ => ?_) fun _ => ?_
    · exact leads_pure h₁ ⟨[], ⟨[], r, .nil, hr, rfl⟩, rfl⟩
    refine hitem.bind (.refl c) (by simp) (fun a => ⟨[a], [], by simp, .nil⟩)
      fun a us c₁ ha h₁ => ?_
    have hpositive := List.length_pos_iff.2 (hne ha)
    refine leads_last ((reads_following (hitem.mono (Nat.sub_le k 5)) (by omega)).bind h₁
      (by simp; omega) (fun as => ⟨a :: as, [], by simp, .nil⟩) ?_)
    rintro as _ c₂ ⟨vs, r, has, hr, rfl⟩ h₂
    exact leads_pure h₂ ⟨a :: as, ⟨_, r, .cons ha has, hr, by simp⟩, by simp⟩

end Sequences

/-! ## Operands -/

/-- The readers of expressions read what spells them. -/
abbrev ReadsExpr (k : Nat) (p : Parser Unit) : Prop := Reads k p Expr.Spelled Expr.actions

/-- Where nothing is noted any expression without constants will do. -/
theorem begun_expr : Begun Expr.actions [] :=
  ⟨.reference [] [] [], _, rfl, by simp [Expr.indexActions]⟩

theorem Expr.Spelled.ne_nil {e : Expr} (h : Expr.Spelled e ts) : ts ≠ [] := by
  cases h with
  | reference hname _ _ =>
    cases hname
    simp
  | _ => simp

theorem reads_members (hk : k ≤ 5 * bound) :
    Reads k (members bound) (InRow Pointed) (·.map .member) := by
  induction bound generalizing k with
  | zero => exact fun c => leads_tooDeep (.refl c) hk
  | succ bound ih =>
    intro c
    refine leads_skip (.refl c) (fun point c₁ hpoint h₁ => ?_) fun _ => leads_pure (.refl c)
      ⟨[], .nil, rfl⟩
    refine leads_ident h₁ ⟨[], [], rfl, .nil⟩ fun t c₂ ht h₂ => leads_fire h₂ rfl fun c₃ h₃ => ?_
    refine leads_last ((@ih (k - 5) (by omega)).bind h₃ (by simp; omega)
      (fun names => ⟨t.text :: names, [], by simp, .nil⟩) fun names ts c₄ hnames h₄ => ?_)
    exact leads_pure h₄ ⟨t.text :: names, by simpa using .cons (.mk hpoint ht) hnames, by simp⟩

theorem reads_indices (hindex : ReadsExpr k index) (hk : k ≤ 5 * bound) :
    Reads k (indices index bound) (Bracketed Expr.Spelled) Expr.indexActions := by
  induction bound generalizing k with
  | zero => exact fun c => leads_tooDeep (.refl c) hk
  | succ bound ih =>
    intro c
    refine leads_skip (.refl c) (fun l c₁ hl h₁ => ?_) fun _ => leads_pure (.refl c) ⟨[], .nil, rfl⟩
    refine leads_fire h₁ rfl fun c₂ h₂ => ?_
    have hbegun : ∀ e : Expr, Begun Expr.indexActions ([.indexStart] ++ e.actions) := fun e =>
      ⟨[e], [.indexEnd], by simp [Expr.indexActions], by simp⟩
    refine hindex.bind h₂ (by simp) hbegun fun e ts c₃ he h₃ => ?_
    refine leads_expect h₃ (hbegun e) fun r c₄ hr h₄ => leads_fire h₄ rfl fun c₅ h₅ => ?_
    refine leads_last ((ih (hindex.mono (Nat.sub_le k 5)) (by omega)).bind h₅
      (by simp; omega) (fun es => ⟨e :: es, [], by simp [Expr.indexActions], .nil⟩)
      fun es us c₆ hes h₆ => ?_)
    exact leads_pure h₆ ⟨e :: es, by simpa using .cons hl he hr hes, by simp [Expr.indexActions]⟩

theorem reads_reference (hindex : ReadsExpr (k - 5) index) (hk : k ≤ 5 * bound + 5) :
    Reads k (reference index bound) Place.Spelled fun p => p.expr.actions := by
  intro c
  refine leads_ident (.refl c) ⟨⟨[], [], []⟩, _, rfl, ?_⟩ fun t c₁ ht h₁ =>
    leads_fire h₁ rfl fun c₂ h₂ => ?_
  · simp [Expr.indexActions]
  refine (reads_members (k := k - 5) (by omega)).bind h₂ (by simp; omega) (fun names =>
    ⟨⟨t.text, names, []⟩, [.varEnd], by simp [Place.expr, Expr.actions,
    Expr.indexActions], by simp⟩)
    fun names us c₃ hnames h₃ => ?_
  refine (reads_indices hindex (by omega)).bind h₃ (by simp; omega) (fun es =>
    ⟨⟨t.text, names, es⟩, [.varEnd], by simp [Place.expr, Expr.actions], by simp⟩)
    fun es vs c₄ hes h₄ => ?_
  refine leads_last (leads_fire h₄ rfl fun c₅ h₅ => leads_pure h₅ ⟨⟨t.text, names, es⟩, ?_, ?_⟩)
  · simpa [Place.Spelled] using .reference (.mk ht) hnames hes
  · simp [Place.expr, Expr.actions]

theorem argumentActions_eq (es : List Expr) :
    Expr.argumentActions es = es.flatMap fun e => e.actions ++ [.argument] := by
  induction es with
  | nil => rfl
  | cons e es ih => simp [Expr.argumentActions, ih]

theorem reads_call {argument : Parser Unit} (hargument : ReadsExpr k argument) (hk : k ≤ 5 * bound)
    (name : Bytes) (discard : Bool) :
    Reads k (call argument bound name discard) (Between "(" ")" (Listed Expr.Spelled)) fun args =>
      .callStart name :: Expr.argumentActions args ++ [.callEnd discard] := by
  intro c
  refine leads_fire (.refl c) rfl fun c₁ h₁ => ?_
  refine leads_expect h₁ ⟨[], [.callEnd discard], rfl, by simp⟩ fun l c₂ hl h₂ => ?_
  refine (reads_items (hargument.fire .argument (by simp)) Expr.Spelled.ne_nil hk).bind h₂ (by simp)
    (fun args => ⟨args, [.callEnd discard], by simp [argumentActions_eq], by simp⟩) ?_
  rintro args _ c₃ ⟨ts, r, hargs, hr, rfl⟩ h₃
  refine leads_last (leads_fire h₃ rfl fun c₄ h₄ =>
    leads_pure h₄ ⟨args, ?_, by simp [argumentActions_eq]⟩)
  exact ⟨l, ts, r, hl, hargs, hr, by simp⟩

/-! ## Expressions -/

/-- What an operator of the tightest level can be applied to. -/
abbrev Tight (e : Expr) (ts : List Token) : Prop := e.Spelled ts ∧ e.level ≤ Level.unary

theorem name_of_identifier (hk : t.kind = .identifier) {word : Bytes} :
    t.is word = true ↔ t.text = word := by
  simp [Token.is, hk]

theorem leads_constant (heof : c.next.kind ≠ .endOfFile) (hmark : c.next.kind ≠ .punctuation)
    (hword : c.next.kind = .identifier → c.next.text = ascii "true" ∨ c.next.text = ascii "false") :
    Leads k c (fun ts as _ => ∃ e, Tight e ts ∧ as = e.actions) Expr.actions
      (constant c.next c) := by
  refine leads_take fun c₁ htake => ?_
  have hdone : ∀ {ty v}, constant? c.next = some (ty, v) → Typing.isPrimitive ty = true →
      Leads k c (fun ts as _ => ∃ e, Tight e ts ∧ as = e.actions) Expr.actions
        (fire (.pushConst ty v) c₁) := fun {ty v} hv hty =>
    leads_last (leads_fire ((Took.refl c).take htake heof) hty fun c₂ h₂ =>
      leads_pure h₂ ⟨.constant ty v, ⟨.constant hv, Int.le_refl _⟩, by simp [Expr.actions]⟩)
  have hbad : ∀ {cause : SyntaxCause}, cause.Blames c.next → cause.taken = true →
      Leads k c (fun ts as _ => ∃ e, Tight e ts ∧ as = e.actions) Expr.actions (fail cause c₁) :=
    leads_refuse (.refl c) htake begun_expr
  cases hkind : c.next.kind with
  | endOfFile => exact absurd hkind heof
  | punctuation => exact absurd hkind hmark
  | int =>
    cases hr : Decimal.readInt c.next.text with
    | ok n => exact hdone (by simp [constant?, hkind, hr, Except.toOption]) rfl
    | error e => exact hbad ⟨hkind, rfl⟩ rfl
  | float =>
    cases hr : Decimal.readFloat c.next.text with
    | ok x => exact hdone (by simp [constant?, hkind, hr, Except.toOption]) rfl
    | error e => exact hbad ⟨hkind, rfl⟩ rfl
  | char =>
    rcases hr : Text.scalars c.next.text with _ | ⟨n, _ | ⟨m, ns⟩⟩
    · exact hbad ⟨hkind, rfl⟩ rfl
    · exact hdone (by simp [constant?, hkind, hr]) rfl
    · exact hbad ⟨hkind, rfl⟩ rfl
  | string => exact hdone (by simp [constant?, hkind]) rfl
  | identifier =>
    refine hdone ?_ rfl
    rcases hword hkind with hw | hw
    · simp [constant?, hkind, hw]
    · have hne : ascii "false" ≠ ascii "true" := by decide
      simp [constant?, hkind, hw, hne]

theorem reads_primary (hinner : ReadsExpr (k - 5) inner) (hk : k ≤ 5 * bound + 5) :
    Reads k (primary inner bound) Tight Expr.actions := by
  intro c
  refine leads_peek ?_
  cases hkind : c.next.kind with
  | int | float | char | string =>
    exact leads_constant (by simp [hkind]) (by simp [hkind]) (by simp [hkind])
  | endOfFile => exact leads_fail (.refl c) begun_expr rfl rfl
  | punctuation =>
    split
    · rename_i hl
      refine leads_take_word (.refl c) hl fun l c₁ hl h₁ => leads_fire h₁ rfl fun c₂ h₂ => ?_
      have hbegun : ∀ e : Expr, Begun Expr.actions ([.openGroup] ++ e.actions) := fun e =>
        ⟨.group e, [.closeGroup], by simp [Expr.actions], by simp⟩
      refine hinner.bind h₂ (by simp; omega) hbegun fun e ts c₃ he h₃ => ?_
      refine leads_expect h₃ (hbegun e) fun r c₄ hr h₄ =>
        leads_last (leads_fire h₄ rfl fun c₅ h₅ => ?_)
      exact leads_pure h₅ ⟨.group e, ⟨by simpa using .group hl he hr, Int.le_refl _⟩,
        by simp [Expr.actions]⟩
    · exact leads_fail (.refl c) begun_expr rfl rfl
  | identifier =>
    simp only
    split
    · rename_i hw
      simp only [Bool.or_eq_true, name_of_identifier hkind] at hw
      exact leads_constant (by simp [hkind]) (by simp [hkind]) fun _ => hw
    · rename_i hw
      have hconst : constant? c.next = none := by
        simp only [Bool.or_eq_true, name_of_identifier hkind, not_or] at hw
        simp [constant?, hkind, hw]
      refine leads_peekSecond ?_
      split
      · refine leads_take fun c₁ htake => ?_
        have h₁ := (Took.refl c).take htake (by simp [hkind])
        refine leads_last ((reads_call hinner (by omega) _ _).bind h₁ (by simp; omega)
          (fun args => ⟨.call c.next.text args, [], by simp [Expr.actions], .nil⟩) ?_)
        rintro args _ c₂ ⟨l, ts, r, hl, hargs, hr, rfl⟩ h₂
        refine leads_pure h₂ ⟨.call c.next.text args, ⟨?_, Int.le_refl _⟩, by simp [Expr.actions]⟩
        simpa using .call hkind hconst hl hargs hr
      · refine leads_last ((reads_reference hinner hk).bind (.refl c) (by simp)
          (fun p => ⟨p.expr, [], by simp, .nil⟩) fun p ts c₁ hp h₁ => ?_)
        exact leads_pure h₁ ⟨p.expr, ⟨hp, Int.le_refl _⟩, by simp⟩

theorem level_of_binaryOps {op : BinaryOp} (h : operator? (binaryOps level) t = some op) :
    (Operator.binary op).level = level := by
  unfold operator? at h
  split at h
  · simp only [Option.map_eq_some_iff] at h
    obtain ⟨⟨mark, op'⟩, hf, rfl⟩ := h
    have hm := List.mem_of_find?_eq_some hf
    match level with
    | 0 => simp [binaryOps] at hm
    | 1 => simp [binaryOps] at hm; rcases hm with ⟨-, rfl⟩ | ⟨-, rfl⟩ <;> rfl
    | 2 => simp [binaryOps] at hm; rcases hm with ⟨-, rfl⟩ | ⟨-, rfl⟩ <;> rfl
    | 3 =>
      simp [binaryOps] at hm
      rcases hm with ⟨-, rfl⟩ | ⟨-, rfl⟩ | ⟨-, rfl⟩ | ⟨-, rfl⟩ | ⟨-, rfl⟩ | ⟨-, rfl⟩ <;> rfl
    | 4 => simp [binaryOps] at hm; rcases hm with ⟨-, rfl⟩ | ⟨-, rfl⟩ <;> rfl
    | n + 5 => simp [binaryOps] at hm
  · cases h

theorem lt_next {x : Level} (h : x ≤ level) : x < (level + 1 : Nat) :=
  Int.lt_of_le_of_lt h (Int.ofNat_lt.2 (Nat.lt_succ_self level))

/-- What an expression of a level is. -/
abbrev Within (level : Nat) (e : Expr) (ts : List Token) : Prop := e.Spelled ts ∧ e.level ≤ level

/-- A chain goes on from the expression `l` that was read in front of it. -/
theorem leads_chain {operand : Parser Unit} (hoperand : Reads k operand (Within level) Expr.actions)
    {l : Expr} (hk : k ≤ 5 * bound + 5 * us.length) (hl : Within (level + 1) l us)
    (hassoc : l.level = (level + 1 : Nat) → associates (level + 1)) (h : Took c us l.actions c₁) :
    Leads k c (fun ts as _ => ∃ e, Within (level + 1) e ts ∧ as = e.actions) Expr.actions
      (chain operand (level + 1) bound c₁) := by
  induction bound generalizing c₁ l us with
  | zero => exact leads_tooDeep h (by omega)
  | succ bound ih =>
    refine leads_operator h (fun op t c₂ ht h₂ => ?_) (leads_pure h ⟨l, hl, rfl⟩)
    have hlevel := level_of_binaryOps ht
    refine leads_fire h₂ rfl fun c₃ h₃ => hoperand.bind h₃ (by simp) (fun r =>
      ⟨.binary op l r, [.collapse (level + 1 : Nat)], by simp [Expr.actions, hlevel], by simp⟩)
      fun r ts c₄ hr h₄ => leads_fire h₄ rfl fun c₅ h₅ => ?_
    have hbinary : Within (level + 1) (.binary op l r) (us ++ [t] ++ ts) := by
      refine ⟨by simpa using .binary ht hl.1 hr.1 (lt_next hr.2) hl.2 hassoc, ?_⟩
      simp [Expr.level, hlevel]
    have hactions : l.actions ++ [Action.pushOperator op.opcode] ++ r.actions ++
      [.collapse (level + 1 : Nat)] =
        (Expr.binary op l r).actions := by
      simp [Expr.actions, hlevel]
    rw [hactions] at h₅
    split
    · rename_i hassoc
      exact ih (by simp; omega) hbinary (fun _ => hassoc) h₅
    · exact leads_pure h₅ ⟨_, hbinary, rfl⟩

/-- The bound of an expression is more than enough for the tokens ahead: a level takes one, and
no more than all levels come between two tokens. -/
theorem reads_expressionAt (hk : k ≤ bound - level) :
    Reads k (expressionAt bound level) (Within level) Expr.actions := by
  induction bound generalizing level k with
  | zero =>
    intro c
    exact leads_tooDeep (.refl c) (by simp; omega)
  | succ bound ih =>
    intro c
    cases level with
    | zero =>
      refine leads_operator (.refl c) (fun op t c₁ ht h₁ => ?_) ?_
      · refine leads_fire h₁ rfl fun c₂ h₂ => (@ih (k - 5) 0 (by omega)).bind h₂ (by simp; omega)
          (fun e =>
          ⟨.unary op e, [.collapse Level.unary], by simp [Expr.actions], by simp⟩)
          fun e ts c₃ he h₃ => ?_
        refine leads_last (leads_fire h₃ rfl fun c₄ h₄ =>
          leads_pure h₄ ⟨.unary op e, ⟨?_, Int.le_refl _⟩, ?_⟩)
        · simpa using .unary ht he.1 he.2
        · simp [Expr.actions]
      · exact reads_primary ((@ih (k - 5) loosest (by simp only [loosest]; omega)).imp And.left)
          (by omega) c
    | succ level =>
      refine (@ih k level (by omega)).bind (.refl c) (by simp) (fun l => ⟨l, [], by simp, .nil⟩)
        fun l us c₁ hl h₁ => ?_
      have hlt := lt_next hl.2
      exact leads_chain (@ih k level (by omega)) (by omega) ⟨hl.1, Int.le_of_lt hlt⟩
        (fun h => absurd h (Int.ne_of_lt hlt)) h₁

theorem reads_expression (hk : k ≤ bound - 4) : ReadsExpr k (expression bound) :=
  (reads_expressionAt hk).imp And.left

end Source

end Quadlang
