-- What actions do to the directories and to memory, whether they succeed or fail: every action that
-- yields no value is a row of a few kinds of changes.
import Quadlang.Proofs.Generator.Strokes

namespace Quadlang

open Success

variable {free : Marked → Prop} {mark mark₁ : ScopeId → Segment} {o : DeclOptions} {α β : Type}
  {x : Generate α} {f : α → Generate β} {id typeName : Bytes} {ty : Ty} {sym : Symbol}
  {g g₁ : Generator} {segment : Segment}

/-! ## Changes -/

/-- A compilation whose directories are marked with the segment of their variables. -/
abbrev Marked := (ScopeId → Segment) × Generator

/-- Variables of a directory go to its segment, and those of the innermost directory to the
segment of the compilation. -/
def Marked.Stores (s : Marked) (id : ScopeId) (segment : Segment) : Prop :=
  segment = s.1 id ∨ id = s.2.current ∧ segment = s.2.segment

/-- The innermost directory exists and is marked with the segment of the compilation. -/
structure Settled (s : Marked) : Prop where
  current : s.2.current < s.2.scopes.size
  segment : s.1 s.2.current = s.2.segment

/-- One change of a compilation. The innermost directory moves only to where it is `free` to. -/
inductive Change (free : Marked → Prop) : Marked → Marked → Prop
  /-- Directories and memory stay. -/
  | quiet {mark : ScopeId → Segment} {g g' : Generator} : Stroke g g' →
      Change free (mark, g) (mark, g')
  /-- The innermost directory becomes another one, in the same function or in none. -/
  | move {mark : ScopeId → Segment} {g : Generator} (current : ScopeId) (enclosing : List ScopeId)
      (function : Option (Callee × ScopeId)) : function = g.function ∨ function = none →
      free (mark, { g with current, enclosing, function }) →
      Change free (mark, g) (mark, { g with current, enclosing, function })
  /-- The program gets its name. -/
  | rename {mark : ScopeId → Segment} {g : Generator} (name : Bytes) :
      Change free (mark, g) (mark, { g with
        name, scopes := g.scopes.modify g.current fun scope => { scope with name } })
  /-- There is a new directory, for variables of some segment. -/
  | scope {mark : ScopeId → Segment} {g : Generator} (segment : Segment) (name : Bytes)
      (kind : Scope.Kind) (owner : Option Bytes) :
      Change free (mark, g) (fun id => if id = g.scopes.size then segment else mark id,
        { g with scopes := g.scopes.push (Scope.empty name kind owner) })
  /-- A class or a variable without storage of its own is declared. The directory of an
  instance is for the variables of the same segment. -/
  | symbol {mark : ScopeId → Segment} {g : Generator} (id : ScopeId) (sym : Symbol) :
      sym.address? = none →
      (∀ inner, sym.kind = .variable none → sym.scope = some inner →
        inner < g.scopes.size ∧ Marked.Stores (mark, g) id (mark inner)) →
      Change free (mark, g) (mark, { g with scopes := g.scopes.modify id (·.add sym) })
  /-- A variable is stored. -/
  | stored {mark : ScopeId → Segment} {g : Generator} (id : ScopeId) (sym : Symbol) (ty : Ty)
      (segment : Segment) (a : Addr) (m : Memory) : sym.type = .value ty →
      sym.kind = .variable (some a) → g.memory.alloc ty segment sym.size = .ok (a, m) →
      Marked.Stores (mark, g) id segment →
      Change free (mark, g) (mark, { g with memory := m, scopes := g.scopes.modify id (·.add sym) })
  /-- A function is declared and gets its return slot. The directory of its body is for the
  variables of functions. The body may be entered at once. -/
  | function {mark : ScopeId → Segment} {g : Generator} (sym : Symbol) (ty : Ty) (a : Addr)
      (target : Nat) (m : Memory) (current : ScopeId) (enclosing : List ScopeId)
      (function : Option (Callee × ScopeId)) : sym.type = .value ty →
      ty = .void ∨ Typing.isPrimitive ty = true → sym.dims = [] →
      sym.kind = .function a target [] → g.memory.alloc ty .stack 1 = .ok (a, m) →
      (∀ inner, sym.scope = some inner → inner < g.scopes.size ∧ mark inner = .functions) →
      (current = g.current ∧ enclosing = g.enclosing ∧ function = g.function ∨
        (∃ scope, function = some (⟨sym.name, ty, a, target⟩, scope)) ∧ free (mark, { g with
          memory := m, scopes := g.scopes.modify g.current (·.add sym), current, enclosing,
          function })) →
      Change free (mark, g) (mark, { g with
        memory := m, scopes := g.scopes.modify g.current (·.add sym), current, enclosing,
        function })
  /-- A parameter is stored, and its function gets to know it. -/
  | param {mark : ScopeId → Segment} {g : Generator} (name : Bytes) (sym : Symbol) (ty : Ty)
      (segment : Segment) (a : Addr) (m : Memory) : sym.type = .value ty →
      sym.kind = .variable (some a) → g.memory.alloc ty segment sym.size = .ok (a, m) →
      Marked.Stores (mark, g) g.current segment →
      Change free (mark, g) (mark, { g with
        memory := m
        scopes := (g.scopes.modify g.current (·.add sym)).modify 0
          (·.addParam name ⟨sym.name, ty, a⟩) })
  /-- There is a constant, as an operand. -/
  | constant {mark : ScopeId → Segment} {g : Generator} (ty : Ty) (v : Value) (a : Addr)
      (m : Memory) : g.memory.intern ty v = .ok (a, m) →
      Change free (mark, g) (mark, { g with
        memory := m, operands := { ty, operand := .cell a } :: g.operands })

abbrev Changes (free : Marked → Prop) : Marked → Marked → Prop :=
  Relation.ReflTransGen (Change free)

/-- A step does nothing but change a compilation in these ways. -/
def Moves (free : Marked → Prop) {α : Type} (x : Generate α) (s : Marked) : Prop :=
  ∃ mark, Changes free s (mark, x.after s.2)

theorem Moves.bind (hx : Moves free x (mark, g))
    (hf : ∀ a g₁ mark₁, x g = .ok a g₁ → Changes free (mark, g) (mark₁, g₁) →
      Moves free (f a) (mark₁, g₁)) : Moves free (x >>= f) (mark, g) := by
  obtain ⟨mark₁, hchanges⟩ := hx
  cases h : x g with
  | ok a g₁ =>
    rw [show x.after g = g₁ from after_of_ok h] at hchanges
    obtain ⟨mark₂, hrest⟩ := hf a g₁ mark₁ h hchanges
    exact ⟨mark₂, by rw [after_bind_of_ok h]; exact hchanges.trans hrest⟩
  | error stop g₁ => exact ⟨mark₁, by rw [after_bind_of_error h]; exact hchanges⟩

theorem Moves.bind_ok {a : α} (h : x g = .ok a g₁) (hchange : Change free (mark, g) (mark₁, g₁))
    (hf : Moves free (f a) (mark₁, g₁)) : Moves free (x >>= f) (mark, g) := by
  obtain ⟨mark₂, hrest⟩ := hf
  exact ⟨mark₂, by rw [after_bind_of_ok h]; exact hrest.head hchange⟩

theorem Moves.of_ok {a : α} (h : x g = .ok a g₁) (hchange : Change free (mark, g) (mark₁, g₁)) :
    Moves free x (mark, g) :=
  ⟨mark₁, by rw [after_of_ok h]; exact .single hchange⟩

theorem Moves.get_bind {f : Generator → Generate β} (h : Moves free (f g) (mark, g)) :
    Moves free (get >>= f) (mark, g) := h

theorem Moves.stay (h : x.after g = g) : Moves free x (mark, g) := ⟨mark, by rw [h]⟩

theorem Moves.of_row (h : Row false g (x.after g)) : Moves free x (mark, g) := by
  obtain ⟨_, hstrokes, heq | ⟨hfalse, -⟩⟩ := h
  · refine ⟨mark, heq ▸ ?_⟩
    clear heq
    induction hstrokes with
    | refl => exact .refl
    | tail _ hstroke ih => exact ih.tail (.quiet hstroke)
  · cases hfalse

/-! ## Rows of changes -/

section Changes

variable {free' : Marked → Prop} {s s' : Marked}

theorem Change.mono (hfree : ∀ s, free s → free' s) (h : Change free s s') : Change free' s s' := by
  cases h with
  | quiet h => exact .quiet h
  | move current enclosing function h h₁ => exact .move current enclosing function h (hfree _ h₁)
  | rename name => exact .rename name
  | scope segment name kind owner => exact .scope segment name kind owner
  | symbol id sym h h' => exact .symbol id sym h h'
  | stored id sym ty segment a m h h₁ h₂ h₃ => exact .stored id sym ty segment a m h h₁ h₂ h₃
  | function sym ty a target m current enclosing function h h₁ h₂ h₃ h₄ h₅ h₆ =>
    exact .function sym ty a target m current enclosing function h h₁ h₂ h₃ h₄ h₅
      (h₆.imp_right fun h => ⟨h.1, hfree _ h.2⟩)
  | param name sym ty segment a m h h₁ h₂ h₃ => exact .param name sym ty segment a m h h₁ h₂ h₃
  | constant ty v a m h => exact .constant ty v a m h

theorem Moves.mono (hfree : ∀ s, free s → free' s) (h : Moves free x s) : Moves free' x s := by
  obtain ⟨mark, h⟩ := h
  exact ⟨mark, Relation.ReflTransGen.mono (fun _ _ => Change.mono hfree) _ _ h⟩

theorem Changes.line (h : Changes free s s') : s'.2.line = s.2.line := by
  induction h with
  | refl => rfl
  | tail _ hchange ih =>
    cases hchange with
    | quiet hstroke => exact hstroke.alike.line.trans ih
    | _ => exact ih

/-- Directories stay, with their marks. -/
theorem Changes.marks (h : Changes free s s') :
    s.2.scopes.size ≤ s'.2.scopes.size ∧ ∀ id < s.2.scopes.size, s'.1 id = s.1 id := by
  induction h with
  | refl => exact ⟨Nat.le_refl _, fun _ _ => rfl⟩
  | tail _ hchange ih =>
    obtain ⟨hsize, hmark⟩ := ih
    cases hchange with
    | quiet hstroke => exact ⟨by rw [hstroke.alike.scopes]; exact hsize, hmark⟩
    | scope segment name kind owner =>
      simp only [Array.size_push] at hsize hmark ⊢
      refine ⟨Nat.le_succ_of_le hsize, fun id hid => ?_⟩
      rw [if_neg (Nat.ne_of_lt (Nat.lt_of_lt_of_le hid hsize)), hmark id hid]
    | move | constant => exact ⟨hsize, hmark⟩
    | rename | symbol | stored | function | param =>
      exact ⟨by simpa using hsize, hmark⟩

/-- The innermost directory stays unless it is free to move. -/
theorem Changes.still (h : Changes (fun _ => False) s s') :
    s'.2.current = s.2.current ∧ s'.2.enclosing = s.2.enclosing ∧ s'.2.function = s.2.function := by
  induction h with
  | refl => exact ⟨rfl, rfl, rfl⟩
  | tail _ hchange ih =>
    cases hchange with
    | quiet hstroke =>
      obtain ⟨-, -, -, hcurrent, henclosing, hfunction⟩ := hstroke.alike
      exact ⟨hcurrent.trans ih.1, henclosing.trans ih.2.1, hfunction.trans ih.2.2⟩
    | move _ _ _ _ hfalse => exact hfalse.elim
    | function _ _ _ _ _ _ _ _ _ _ _ _ _ _ hstays =>
      rcases hstays with ⟨rfl, rfl, rfl⟩ | ⟨-, hfalse⟩
      · exact ih
      · exact hfalse.elim
    | _ => exact ih

/-- A step that leaves the innermost directory where it is, then more steps. -/
theorem Moves.bind_still (hx : Moves (fun _ => False) x (mark, g))
    (hf : ∀ a g₁ mark₁, x g = .ok a g₁ → Changes (fun _ => False) (mark, g) (mark₁, g₁) →
      Moves free (f a) (mark₁, g₁)) : Moves free (x >>= f) (mark, g) := by
  cases h : x g with
  | ok a g₁ =>
    obtain ⟨mark₁, hchanges⟩ := hx
    rw [show x.after g = g₁ from after_of_ok h] at hchanges
    obtain ⟨mark₂, hrest⟩ := hf a g₁ mark₁ h hchanges
    refine ⟨mark₂, ?_⟩
    rw [after_bind_of_ok h]
    exact (Relation.ReflTransGen.mono (fun _ _ => Change.mono fun _ => False.elim) _ _
      hchanges).trans hrest
  | error stop g₁ =>
    refine Moves.bind (hx.mono fun _ => False.elim) fun a g₂ _ hok => ?_
    rw [h] at hok
    cases hok

end Changes

/-! ## Declarations -/

namespace Generate

theorem Moves.guard {c : Prop} [Decidable c] {cause : Fault} {y : Generate β}
    (hy : ¬ c → Moves free y (mark, g)) :
    Moves free (if c then Generate.fault cause >>= f else y) (mark, g) := by
  split
  · exact .stay rfl
  · rename_i hc
    exact hy hc

theorem Moves.alloc_bind {purpose : Purpose} {n : Int64} {f : Addr → Generate β}
    (hf : ∀ a m, g.memory.alloc ty segment n = .ok (a, m) →
      ∃ mark', Changes free (mark, g) (mark', (f a).after { g with memory := m })) :
    Moves free (alloc purpose ty segment n >>= f) (mark, g) := by
  cases h : g.memory.alloc ty segment n with
  | ok r =>
    obtain ⟨mark', h'⟩ := hf r.1 r.2 h
    refine ⟨mark', ?_⟩
    rw [after_bind_of_ok (alloc_of_ok h)]
    exact h'
  | error e =>
    refine ⟨mark, ?_⟩
    rw [after_bind_of_error (alloc_of_error h), after_of_error (alloc_of_error h)]

theorem moves_fillFields {object : Bytes} {t : Template} {scope : ScopeId} {path : List Bytes}
    (hlt : scope < g.scopes.size) (hmark : mark scope = segment) :
    Moves free (fillFields object segment scope path t) (mark, g) := by
  induction t generalizing scope path mark g with
  | nil => exact .stay rfl
  | «variable» name ty dims rest ih =>
    refine Moves.alloc_bind fun a m ha => ?_
    obtain ⟨mark', hrest⟩ := @ih mark { g with
      memory := m
      scopes := g.scopes.modify scope
        (·.add { name, kind := .variable (some a), type := .value ty, dims }) }
      scope path (by simpa using hlt) hmark
    refine ⟨mark', hrest.head (.stored scope
      { name, kind := .variable (some a), type := .value ty, dims }
      ty segment a m rfl rfl ha (.inl hmark.symm))⟩
  | nested name className fields rest ihfields ihrest =>
    refine Moves.bind_ok rfl (.scope segment name .object (some name)) ?_
    refine Moves.bind (ihfields (by simp) (by simp)) ?_
    intro _ g₁ mark₁ _ hchanges
    obtain ⟨hsize, hmarks⟩ := hchanges.marks
    simp only [Array.size_push] at hsize hmarks
    have hinner : mark₁ g.scopes.size = segment := by rw [hmarks _ (Nat.lt_succ_self _), if_pos rfl]
    have hscope : mark₁ scope = segment := by
      rw [hmarks _ (Nat.lt_succ_of_lt hlt), if_neg (Nat.ne_of_lt hlt), hmark]
    refine Moves.bind_ok (modifyScope_ok _ _ _) (.symbol scope _ rfl ?_) (ihrest ?_ hscope)
    · rintro inner - hlink
      cases hlink
      exact ⟨hsize, .inl (hinner.trans hscope.symm)⟩
    · rw [Array.size_modify]
      exact Nat.lt_of_lt_of_le hlt (Nat.le_of_succ_le hsize)

theorem moves_enterInstance (hfree : o.enter = true → ∀ s, Settled s → free s)
    (hscope : ∀ inner, sym.scope = some inner → inner < g.scopes.size ∧ mark inner = g.segment) :
    Moves free (enterInstance sym o) (mark, g) := by
  unfold enterInstance
  split
  · rename_i henter
    cases hs : sym.scope with
    | none => exact .stay rfl
    | some scope =>
      obtain ⟨hlt, hmark⟩ := hscope scope hs
      exact Moves.bind_ok rfl (.move scope (g.current :: g.enclosing) g.function (.inl rfl)
        (hfree henter _ ⟨hlt, hmark⟩)) (.stay rfl)
  · exact .stay rfl

/-- What has no address is no parameter. -/
theorem moves_conclude (hkind : sym.kind = .variable none)
    (hfree : o.enter = true → ∀ s, Settled s → free s)
    (hscope : ∀ inner, sym.scope = some inner → inner < g.scopes.size ∧ mark inner = g.segment) :
    Moves free (conclude sym o) (mark, g) := by
  rw [conclude_eq]
  split
  · cases h : addParam sym g with
    | ok u g₁ =>
      obtain ⟨_, a, -, hsome, -⟩ := addParam_some h
      rw [hkind] at hsome
      cases hsome
    | error stop g₁ =>
      obtain ⟨-, rfl⟩ := addParam_eq_error h
      exact .stay (by rw [after_bind_of_error h, after_of_error h])
  · exact moves_enterInstance hfree hscope

/-- A variable that has its place is a parameter of the function whose header is open, or of
none. -/
theorem conclude_cases {P : Generator → Prop} {a : Addr} (hkind : sym.kind = .variable (some a))
    (hscope : sym.scope = none) (hnone : P g)
    (hparam : ∀ name,
      P { g with scopes := g.scopes.modify 0 (·.addParam name ⟨sym.name, sym.ty, a⟩) }) :
    P ((conclude sym o).after g) := by
  have henter : ∀ g, (enterInstance sym o).after g = g := by
    intro g
    unfold enterInstance
    rw [hscope]
    split <;> rfl
  rw [conclude_eq]
  split
  · cases h : addParam sym g with
    | ok u g₁ =>
      obtain ⟨callee, a', -, hsome, rfl⟩ := addParam_some h
      rw [hkind] at hsome
      cases hsome
      rw [after_bind_of_ok h, henter]
      exact hparam callee.name
    | error stop g₁ =>
      obtain ⟨-, rfl⟩ := addParam_eq_error h
      rw [after_bind_of_error h, after_of_error h]
      exact hnone
  · rw [henter]
    exact hnone

theorem moves_declareVariable {type : SymbolType} {dims : List Dim}
    (hfree : o.enter = true → ∀ s, Settled s → free s) :
    Moves free (declareVariable id type dims o) (mark, g) := by
  rw [declareVariable_eq]
  refine Moves.get_bind ?_
  split
  · refine Moves.bind_ok rfl (.symbol g.current _ rfl ?_) (moves_conclude rfl hfree (by simp))
    rintro inner - hlink
    cases hlink
  · cases type with
    | object className fields =>
      simp only [instantiate, bind_assoc, pure_bind]
      refine Moves.get_bind ?_
      refine Moves.bind_ok rfl (.scope g.segment id .object (some id)) ?_
      refine Moves.bind_still (moves_fillFields (by simp) (by simp)) ?_
      intro _ g₁ mark₁ _ hchanges
      have hfunction : g₁.function = g.function := hchanges.still.2.2
      obtain ⟨hsize, hmarks⟩ := hchanges.marks
      have hlt : g.scopes.size < g₁.scopes.size := Nat.lt_of_succ_le (by simpa using hsize)
      have hinner : mark₁ g.scopes.size = g₁.segment := by
        simp only [Generator.segment, hfunction]
        exact (hmarks g.scopes.size (by simp)).trans (if_pos rfl)
      refine Moves.bind_ok (addHere_ok _ _) (.symbol g₁.current _ rfl ?_)
        (moves_conclude rfl hfree ?_)
      · rintro inner - hlink
        cases hlink
        exact ⟨hlt, .inr ⟨rfl, hinner⟩⟩
      · rintro inner hlink
        cases hlink
        exact ⟨by simpa using hlt, hinner⟩
    | value ty =>
      refine Moves.alloc_bind fun a m ha => ?_
      exact ⟨mark, conclude_cases (P := fun g' => Changes free (mark, g) (mark, g')) rfl rfl
        (.single (.stored g.current _ ty g.segment a m rfl rfl ha (.inr ⟨rfl, rfl⟩)))
        fun name => .single (.param name _ ty g.segment a m rfl rfl ha (.inr ⟨rfl, rfl⟩))⟩

theorem moves_declareFunction (hty : ty = .void ∨ Typing.isPrimitive ty = true)
    (hfree : ∀ s, Settled s → free s) : Moves free (declareFunction id ty o) (mark, g) := by
  refine Moves.get_bind (Moves.guard fun _ => ?_)
  refine Moves.alloc_bind fun a m ha => ?_
  split
  · rw [after_bind_of_ok (addHere_ok _ _)]
    exact ⟨mark, .single (.function _ ty a g.quads.size m g.current g.enclosing g.function rfl hty
      rfl rfl ha
      (by rintro _ ⟨⟩) (.inl ⟨rfl, rfl, rfl⟩))⟩
  · -- The directory comes after the slot, but it does not matter which of the two is first.
    refine ⟨_, .head (.scope .functions id .function (some id)) (.single (.function
      { name := id, kind := .function a g.quads.size [], type := .value ty, isParam := o.isParam,
        scope := some g.scopes.size } ty a g.quads.size m g.scopes.size (g.current :: g.enclosing)
      (some (⟨id, ty, a, g.quads.size⟩, g.scopes.size)) rfl hty rfl rfl ha ?_
      (.inr ⟨⟨_, rfl⟩, hfree _ ⟨by simp, ?_⟩⟩)))⟩
    · rintro inner ⟨⟩
      exact ⟨by simp, if_pos rfl⟩
    · exact if_pos rfl

theorem moves_lift (x : Except Fault α) : Moves free (lift x) (mark, g) := by
  cases x with
  | ok a => exact .stay rfl
  | error cause => exact .stay rfl

theorem moves_declare (hfree : (o.isFunction || o.enter) = true → ∀ s, Settled s → free s) :
    Moves free (declare id typeName o) (mark, g) := by
  refine Moves.get_bind (Moves.guard fun _ => ?_)
  refine Moves.bind_still (moves_lift _) fun type g₁ mark₁ htype _ => ?_
  refine Moves.bind_still (moves_lift _) fun dims g₂ mark₂ _ _ => ?_
  have hvariable : Moves free (declareVariable id type dims o) (mark₂, g₂) :=
    moves_declareVariable fun henter => hfree (by simp [henter])
  cases type with
  | object className fields => exact Moves.guard fun _ => hvariable
  | value ty =>
    refine Moves.guard fun _ => ?_
    split
    · rename_i hfunction
      refine moves_declareFunction ?_ (hfree (by simp [hfunction]))
      rcases declaredType_eq_ok (lift_eq_ok htype).1 with ⟨_, hword, -, ⟨⟩⟩ | ⟨-, -, -, _,
        -, -, -, ⟨⟩⟩
      exact or_iff_not_imp_left.2 (isPrimitive_of_ofWord? hword)
    · exact hvariable

theorem moves_declareAll {ws : List Waiting} : Moves free (declareAll typeName ws) (mark, g) := by
  induction ws generalizing mark g with
  | nil => exact .stay rfl
  | cons w ws ih => exact Moves.bind (moves_declare nofun) fun _ _ _ _ _ => ih

theorem after_leaveScope_of_nil (h : g.enclosing = []) : leaveScope.after g = g := by
  unfold after leaveScope
  rw [get_bind, h]
  rfl

theorem after_leaveScope_of_cons {id : ScopeId} {rest : List ScopeId}
    (h : g.enclosing = id :: rest) :
    leaveScope.after g = { g with current := id, enclosing := rest } := by
  unfold after leaveScope
  rw [get_bind, h]
  rfl

theorem moves_leaveScope (hfree : ∀ id rest, g.enclosing = id :: rest →
    free (mark, { g with current := id, enclosing := rest })) :
    Moves free leaveScope (mark, g) := by
  refine ⟨mark, .single ?_⟩
  cases h : g.enclosing with
  | nil =>
    rw [after_leaveScope_of_nil h]
    exact .quiet (.asides g.operators g.waiting)
  | cons id rest =>
    rw [after_leaveScope_of_cons h]
    exact .move id rest g.function (.inl rfl) (hfree id rest h)

theorem moves_endFunction (hfree : ∀ quads current enclosing,
    g.enclosing = current :: enclosing ∨ g.enclosing = [] →
    free (mark, { g with quads, current, enclosing, function := none })) :
    Moves free endFunction (mark, g) := by
  refine Moves.get_bind ?_
  rcases hf : g.function with _ | ⟨callee, scope⟩
  · exact .stay rfl
  · refine Moves.guard fun _ => ?_
    refine Moves.bind_ok rfl (.quiet (.emit (.close hf) rfl)) ⟨mark, .single ?_⟩
    -- The function ends and its directory is left in one move.
    show Change free _ (mark, leaveScope.after { g with
      quads := g.quads.push { op := .endFunction, res := .cell callee.address }, function := none })
    by_cases h : g.enclosing = []
    · rw [after_leaveScope_of_nil (by exact h)]
      exact .move g.current g.enclosing none (.inr rfl) (hfree _ _ _ (.inr h))
    · obtain ⟨id, rest, h⟩ := List.exists_cons_of_ne_nil h
      rw [after_leaveScope_of_cons (by exact h)]
      exact .move id rest none (.inr rfl) (hfree _ _ _ (.inl h))

theorem moves_declareClass (hfree : ∀ s, Settled s → free s) :
    Moves free (declareClass id) (mark, g) := by
  refine Moves.get_bind (Moves.guard fun _ => Moves.guard fun _ => ?_)
  refine Moves.bind_ok rfl (.scope g.segment id .record (some id)) ?_
  refine Moves.bind_ok (addHere_ok _ _) (.symbol g.current _ rfl nofun) ?_
  refine Moves.bind_ok rfl (.move g.scopes.size (g.current :: g.enclosing) g.function (.inl rfl)
    (hfree _ ⟨by simp, ?_⟩)) (.stay rfl)
  exact if_pos rfl

end Generate

/-! ## Actions -/

/-- Whether an action may enter a directory. -/
def Action.enters : Action → Bool
  | .declareClass _ => true
  | .declare _ _ options => options.isFunction || options.enter
  | _ => false

/-- Whether an action may leave a directory. -/
def Action.leaves : Action → Bool
  | .leaveScope | .endFunction => true
  | _ => false

namespace Generate

theorem takes_perform {a : Action} (h : a.yields = true) (g : Generator) :
    Alike g ((perform a).after g) ∨ ∃ ty b m, g.memory.alloc ty .temps 1 = .ok (b, m) ∧
      Alike { g with memory := m } ((perform a).after g) := by
  exact (row_perform (Action.draws_of_yields h) g).alike.imp_right (·.2)

theorem moves_answer {x : Generate α} {r : α → β} {s : Marked} (h : Moves free x s) :
    Moves free (x >>= fun a => pure (r a)) s := by
  unfold Moves
  rw [after_answer]
  exact h

theorem moves_pushConst {v : Value} : Moves free (pushConst ty v) (mark, g) := by
  unfold pushConst intern
  rw [bind_assoc]
  refine Moves.get_bind ?_
  cases h : g.memory.intern ty (v.convert ty) with
  | ok r => exact ⟨mark, .single (.constant ty _ r.1 r.2 h)⟩
  | error e => exact .stay rfl

/-- An action that takes no temporary is a row of changes. -/
theorem moves_perform {a : Action} {free : Marked → Prop} {mark : ScopeId → Segment} {g : Generator}
    (hyields : a.yields = false) (henters : a.enters = true → ∀ s, Settled s → free s)
    (hleaves : a.leaves = true → ∀ s, free s) :
    Moves free (perform a) (mark, g) := by
  cases hdraws : a.draws with
  | true => exact .of_row (hyields ▸ row_perform hdraws g)
  | false =>
    cases a with
    | start name =>
      exact moves_answer (Moves.bind_ok rfl (.rename name) (Moves.of_ok rfl (.quiet .goto)))
    | leaveScope => exact moves_answer (moves_leaveScope fun _ _ _ => hleaves rfl _)
    | declare id typeName options => exact moves_answer (moves_declare henters)
    | endFunction => exact moves_answer (moves_endFunction fun _ _ _ _ => hleaves rfl _)
    | declareClass id => exact moves_answer (moves_declareClass (henters rfl))
    | declarePending typeName =>
      refine moves_answer (Moves.get_bind ?_)
      exact Moves.bind_ok rfl (.quiet (.asides g.operators [])) moves_declareAll
    | pushConst ty v => exact moves_answer moves_pushConst
    | _ => cases hdraws

/-- What an action does, whatever it is. -/
theorem perform_cases (a : Action) (g : Generator) : Row true g ((perform a).after g) ∨
    ∃ mark, Changes (fun _ => True) (fun _ => .locals, g) (mark, (perform a).after g) := by
  cases hyields : a.yields with
  | true => exact .inl (hyields ▸ row_perform (Action.draws_of_yields hyields) g)
  | false => exact .inr (moves_perform hyields (fun _ _ _ => trivial) fun _ _ => trivial)

/-- Actions stay on their line. -/
theorem line_perform (a : Action) (g : Generator) : ((perform a).after g).line = g.line := by
  rcases perform_cases a g with hrow | ⟨mark, hchanges⟩
  · rcases hrow.alike with h | ⟨-, ty, b, m, -, h⟩
    · exact h.line
    · exact h.line
  · exact hchanges.line

end Generate

end Quadlang
