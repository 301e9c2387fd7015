-- The directories of a compilation after any actions, whichever of them failed: what kinds of
-- symbols a directory can hold, which of them have storage, and where symbols lead. No directory
-- holds two symbols of one name, and the directories that are open lie around each other in one of
-- few ways.
import Quadlang.Proofs.Generator.Aliasing

namespace Quadlang

open Generate Success

variable {scopes scopes' : Array Scope} {id : ScopeId} {kind : Scope.Kind} {sym : Symbol}
  {o : DeclOptions} {ids : List ScopeId} {a : Action} {ty : Ty} {segment : Segment}
  {type : SymbolType} {typeName : Bytes}

/-! ## Symbols in directories -/

/-- All fields of a template are of types of values, and instances among them have each name
once. -/
def Template.Valued : Template → Prop
  | .nil => True
  | .variable _ ty _ rest => Typing.isPrimitive ty = true ∧ rest.Valued
  | .nested _ _ fields rest => (fields.names.Nodup ∧ fields.Valued) ∧ rest.Valued

/-- What is stored under a type is of types of values, and has each name once. -/
def SymbolType.Valued : SymbolType → Prop
  | .value ty => Typing.isPrimitive ty = true
  | .object _ fields => fields.names.Nodup ∧ fields.Valued

/-- What a symbol of a directory can be. -/
inductive Symbol.Filed (scopes : Array Scope) (id : ScopeId) (sym : Symbol) : Prop
  /-- Functions are declared in the outermost directory. -/
  | function (address : Addr) (target : Nat) (params : List Param) :
      sym.kind = .function address target params → id = 0 →
      sym.ty = .void ∨ Typing.isPrimitive sym.ty = true → Filed scopes id sym
  /-- So are classes. A class leads to its fields. -/
  | record : sym.kind = .record → id = 0 →
      (∀ inner, sym.scope = some inner → (scopeAt scopes inner).kind = .record) →
      Filed scopes id sym
  /-- The variables of a class have no storage and lead nowhere. -/
  | field : sym.kind = .variable none → sym.scope = none → sym.type.Valued →
      (scopeAt scopes id).kind = .record → Filed scopes id sym
  /-- Every other variable of a type of values is stored. -/
  | stored (address : Addr) (ty : Ty) : sym.kind = .variable (some address) → sym.scope = none →
      sym.type = .value ty → Typing.isPrimitive ty = true → (scopeAt scopes id).kind ≠ .record →
      Filed scopes id sym
  /-- An instance leads to a directory of its own. -/
  | object (className : Bytes) (fields : Template) (inner : ScopeId) : sym.kind = .variable none →
      sym.scope = some inner → sym.type = .object className fields → fields.Valued →
      (scopeAt scopes inner).kind = .object → (scopeAt scopes id).kind ≠ .record →
      Filed scopes id sym

/-- Directories that are open around each other, where none is a class: instances, in the body of a
function or not, and the program around all. -/
inductive Path (scopes : Array Scope) : ScopeId → List ScopeId → Prop
  | outermost : Path scopes 0 []
  | body {id : ScopeId} : (scopeAt scopes id).kind = .function → Path scopes id [0]
  | object {id id' : ScopeId} {ids : List ScopeId} : (scopeAt scopes id).kind = .object →
      Path scopes id' ids → Path scopes id (id' :: ids)

/-- The directories of a compilation are in order. -/
structure Generator.Filed (g : Generator) : Prop where
  nonempty : 0 < g.scopes.size
  outermost : ∀ id < g.scopes.size, (scopeAt g.scopes id).kind = .program ↔ id = 0
  path : Path g.scopes g.current g.enclosing ∨
    (scopeAt g.scopes g.current).kind = .record ∧ g.enclosing = [0]
  function : ∀ f scope, g.function = some (f, scope) → (scopeAt g.scopes scope).kind = .function
  symbols : ∀ id, ∀ sym ∈ (scopeAt g.scopes id).symbols, sym.Filed g.scopes id
  names : ∀ id, ((scopeAt g.scopes id).symbols.map (·.name)).Nodup

/-- Directories stay and keep their kind. -/
structure SameKinds (scopes scopes' : Array Scope) : Prop where
  size : scopes.size ≤ scopes'.size
  kind : ∀ id < scopes.size, (scopeAt scopes' id).kind = (scopeAt scopes id).kind

theorem SameKinds.trans {scopes₁ scopes₂ : Array Scope} (h : SameKinds scopes scopes₁)
    (h' : SameKinds scopes₁ scopes₂) : SameKinds scopes scopes₂ := by
  refine ⟨Nat.le_trans h.size h'.size, fun id hid => ?_⟩
  rw [h'.kind id (Nat.lt_of_lt_of_le hid h.size), h.kind id hid]

theorem SameKinds.push (scopes : Array Scope) (s : Scope) : SameKinds scopes (scopes.push s) := by
  refine ⟨by simp, fun id hid => ?_⟩
  rw [scopeAt_push, if_neg (Nat.ne_of_lt hid)]

theorem SameKinds.modify (scopes : Array Scope) (id : ScopeId) {f : Scope → Scope}
    (hf : ∀ s, (f s).kind = s.kind) : SameKinds scopes (scopes.modify id f) := by
  refine ⟨by simp, fun id' _ => ?_⟩
  rw [scopeAt_modify]
  split
  · exact hf _
  · rfl

theorem SameKinds.add (scopes : Array Scope) (id : ScopeId) (sym : Symbol) :
    SameKinds scopes (scopes.modify id (·.add sym)) :=
  .modify _ _ fun _ => rfl

/-- A directory of another kind than that of the program is there. -/
theorem SameKinds.kind_of_ne (h : SameKinds scopes scopes')
    (hkind : (scopeAt scopes id).kind = kind)
    (hne : kind ≠ .program) : (scopeAt scopes' id).kind = kind := by
  rw [h.kind id (lt_of_kind (by rw [hkind]; exact hne)), hkind]

theorem Grows.sameKinds {syms : List Symbol} (h : Grows scopes id syms scopes') :
    SameKinds scopes scopes' := ⟨h.size, fun _ hid => h.kind_eq hid⟩

theorem Path.mono (h : Path scopes id ids) (hsame : SameKinds scopes scopes') :
    Path scopes' id ids := by
  induction h with
  | outermost => exact .outermost
  | body hkind => exact .body (hsame.kind_of_ne hkind (by simp))
  | object hkind _ ih => exact .object (hsame.kind_of_ne hkind (by simp)) ih

theorem Path.rest {id' : ScopeId} (h : Path scopes id (id' :: ids)) : Path scopes id' ids := by
  cases h with
  | body => exact .outermost
  | object _ hrest => exact hrest

/-- Nothing is around the program. -/
theorem Path.eq_nil (h : Path scopes id ids) (hkind : (scopeAt scopes id).kind = .program) :
    ids = [] := by
  cases h with
  | outermost => rfl
  | body hother | object hother =>
    rw [hkind] at hother
    cases hother

theorem Symbol.Filed.mono (h : sym.Filed scopes id) (hid : id < scopes.size)
    (hsame : SameKinds scopes scopes') : sym.Filed scopes' id := by
  have hkind := hsame.kind id hid
  cases h with
  | function address target params hfunction hzero hty => exact .function _ _ _ hfunction hzero hty
  | record hrecord hzero hfields =>
    exact .record hrecord hzero fun inner hinner => hsame.kind_of_ne (hfields inner hinner)
      (by simp)
  | field hnone hscope hvalued hhere => exact .field hnone hscope hvalued (by rw [hkind, hhere])
  | stored address ty hsome hscope htype hvalued hhere =>
    exact .stored _ _ hsome hscope htype hvalued (by rw [hkind]; exact hhere)
  | object className fields inner hnone hscope htype hvalued hobject hhere =>
    exact .object _ _ _ hnone hscope htype hvalued (hsame.kind_of_ne hobject (by simp))
      (by rw [hkind]; exact hhere)

section Kinds

variable {scopes : Array Scope} {id : ScopeId} {sym : Symbol}

theorem Symbol.Filed.of_function (h : sym.Filed scopes id) {address : Addr} {target : Nat}
    {params : List Param} (hkind : sym.kind = .function address target params) :
    id = 0 ∧ (sym.ty = .void ∨ Typing.isPrimitive sym.ty = true) := by
  cases h with
  | function _ _ _ _ hzero hty => exact ⟨hzero, hty⟩
  | record hother | field hother | stored _ _ hother | object _ _ _ hother =>
    rw [hkind] at hother
    cases hother

theorem Symbol.Filed.of_record (h : sym.Filed scopes id) (hkind : sym.kind = .record)
    {inner : ScopeId} (hscope : sym.scope = some inner) :
    (scopeAt scopes inner).kind = .record := by
  cases h with
  | record _ _ hfields => exact hfields inner hscope
  | function _ _ _ hother | field hother | stored _ _ hother | object _ _ _ hother =>
    rw [hkind] at hother
    cases hother

end Kinds

theorem lt_of_symbol (h : sym ∈ (scopeAt scopes id).symbols) : id < scopes.size := by
  apply Nat.lt_of_not_le
  intro hle
  rw [scopeAt_of_le hle] at h
  cases h

namespace Generator.Filed

variable {g g' : Generator}

section

variable (h : g.Filed)

include h

theorem zero_kind : (scopeAt g.scopes 0).kind = .program :=
  (h.outermost 0 h.nonempty).2 rfl

/-- The directories of a path are there, and none is a class. -/
theorem mem_path (hpath : Path g.scopes id ids) :
    ∀ id' ∈ id :: ids, id' < g.scopes.size ∧ (scopeAt g.scopes id').kind ≠ .record := by
  have hzero : 0 < g.scopes.size ∧ (scopeAt g.scopes 0).kind ≠ .record :=
    ⟨h.nonempty, by simp [h.zero_kind]⟩
  induction hpath with
  | outermost => simpa using hzero
  | body hkind =>
    exact List.forall_mem_cons.2 ⟨⟨lt_of_kind (by simp [hkind]), by simp [hkind]⟩,
      by simpa using hzero⟩
  | object hkind _ ih =>
    exact List.forall_mem_cons.2 ⟨⟨lt_of_kind (by simp [hkind]), by simp [hkind]⟩, ih⟩

theorem current : g.current < g.scopes.size := by
  rcases h.path with hpath | ⟨hkind, -⟩
  · exact (h.mem_path hpath _ List.mem_cons_self).1
  · exact lt_of_kind (by simp [hkind])

theorem enclosing :
    ∀ id ∈ g.enclosing, id < g.scopes.size ∧ (scopeAt g.scopes id).kind ≠ .record := by
  intro id hid
  rcases h.path with hpath | ⟨-, henclosing⟩
  · exact h.mem_path hpath id (List.mem_cons_of_mem _ hid)
  · rw [henclosing, List.mem_singleton] at hid
    subst hid
    exact ⟨h.nonempty, by simp [h.zero_kind]⟩

theorem enclosing_of_zero (hcurrent : g.current = 0) : g.enclosing = [] := by
  have hzero : (scopeAt g.scopes g.current).kind = .program := hcurrent ▸ h.zero_kind
  rcases h.path with hpath | ⟨hkind, -⟩
  · exact hpath.eq_nil hzero
  · rw [hkind] at hzero
    cases hzero

/-- Only the directories matter. -/
theorem of_same (hscopes : g'.scopes = g.scopes) (hcurrent : g'.current = g.current)
    (henclosing : g'.enclosing = g.enclosing) (hfunction : g'.function = g.function) :
    g'.Filed := by
  refine ⟨?_, ?_, ?_, ?_, ?_, ?_⟩
  · rw [hscopes]; exact h.nonempty
  · rw [hscopes]; exact h.outermost
  · rw [hscopes, hcurrent, henclosing]; exact h.path
  · rw [hscopes, hfunction]; exact h.function
  · rw [hscopes]; exact h.symbols
  · rw [hscopes]; exact h.names

theorem of_alike (halike : Alike g g') : g'.Filed :=
  h.of_same halike.scopes halike.current halike.enclosing halike.function

/-- The directories keep their kinds, and every symbol is a new one that fits or was there. -/
theorem of_sameKinds (hsame : SameKinds g.scopes scopes)
    (hnew : ∀ id, g.scopes.size ≤ id → id < scopes.size → (scopeAt scopes id).kind ≠ .program)
    (hsymbols : ∀ id, ∀ sym ∈ (scopeAt scopes id).symbols,
      sym ∈ (scopeAt g.scopes id).symbols ∨ sym.Filed scopes id)
    (hnames : ∀ id, ((scopeAt scopes id).symbols.map (·.name)).Nodup) :
    Generator.Filed { g with scopes } where
  nonempty := Nat.lt_of_lt_of_le h.nonempty hsame.size
  outermost id hid := by
    by_cases hold : id < g.scopes.size
    · simp only [hsame.kind id hold]
      exact h.outermost id hold
    · have hne := hnew id (Nat.le_of_not_lt hold) hid
      have hpos := h.nonempty
      constructor
      · intro hkind
        exact absurd hkind hne
      · intro hzero
        omega
  path := h.path.imp (·.mono hsame) fun ⟨hkind, henclosing⟩ =>
    ⟨hsame.kind_of_ne hkind (by simp), henclosing⟩
  function f scope hf := hsame.kind_of_ne (h.function f scope hf) (by simp)
  symbols id sym hsym := by
    rcases hsymbols id sym hsym with hold | hfiled
    · exact (h.symbols id sym hold).mono (lt_of_symbol hold) hsame
    · exact hfiled
  names := hnames

theorem push (name : Bytes) (owner : Option Bytes) (hkind : kind ≠ .program) :
    Generator.Filed { g with scopes := g.scopes.push (Scope.empty name kind owner) } := by
  refine h.of_sameKinds (.push _ _) ?_ ?_ fun id => ?_
  · intro id hle hlt
    obtain rfl : id = g.scopes.size := by simp only [Array.size_push] at hlt; omega
    rw [scopeAt_push, if_pos rfl]
    exact hkind
  · intro id sym hsym
    rw [scopeAt_push] at hsym
    split at hsym
    · cases hsym
    · exact .inl hsym
  · rw [scopeAt_push]
    split
    · exact .nil
    · exact h.names id

theorem add (hsym : sym.Filed g.scopes id)
    (hname : sym.name ∉ (scopeAt g.scopes id).symbols.map (·.name)) :
    Generator.Filed { g with scopes := g.scopes.modify id (·.add sym) } := by
  refine h.of_sameKinds (.add _ id sym) (fun id' hle hlt => ?_) ?_ fun id' => ?_
  · simp only [Array.size_modify] at hlt
    omega
  · intro id' sym' hsym'
    rw [scopeAt_modify] at hsym'
    split at hsym'
    · rename_i hid
      obtain ⟨rfl, hlt⟩ := hid
      rcases List.mem_append.1 hsym' with hold | hnew
      · exact .inl hold
      · rw [List.mem_singleton.1 hnew]
        exact .inr (hsym.mono hlt (.add _ _ _))
    · exact .inl hsym'
  · rw [scopeAt_modify]
    split
    · rename_i hid
      obtain ⟨rfl, -⟩ := hid
      exact nodup_add (h.names _) hname
    · exact h.names id'

theorem addParam (name : Bytes) (p : Param) :
    Generator.Filed { g with scopes := g.scopes.modify 0 (·.addParam name p) } := by
  refine h.of_sameKinds (.modify _ _ fun _ => rfl) (fun id hle hlt => ?_) ?_ fun id => ?_
  · simp only [Array.size_modify] at hlt
    omega
  · intro id sym hsym
    rw [scopeAt_modify] at hsym
    split at hsym
    · rename_i hid
      obtain ⟨rfl, -⟩ := hid
      obtain ⟨sym₀, hsym₀, rfl⟩ := List.mem_map.1 hsym
      split
      · rename_i hkind
        split
        · exact .inr (.function _ _ _ rfl rfl ((h.symbols 0 sym₀ hsym₀).of_function hkind).2)
        · exact .inl hsym₀
      · exact .inl hsym₀
    · exact .inl hsym
  · rw [scopeAt_modify]
    split
    · rw [symbols_addParam, List.map_map]
      simpa [Function.comp_def, name_withParam] using h.names id
    · exact h.names id

theorem rename (id : ScopeId) (name : Bytes) :
    Generator.Filed { g with scopes := g.scopes.modify id fun scope => { scope with name } } := by
  have hsymbols : ∀ id', (scopeAt (g.scopes.modify id fun scope => { scope with name })
    id').symbols =
      (scopeAt g.scopes id').symbols := by
    intro id'
    rw [scopeAt_modify]
    split
    · rfl
    · rfl
  refine h.of_sameKinds (.modify _ _ fun _ => rfl) (fun id' hle hlt => ?_) ?_ fun id' => ?_
  · simp only [Array.size_modify] at hlt
    omega
  · intro id' sym hsym
    exact .inl (hsymbols id' ▸ hsym)
  · rw [hsymbols]
    exact h.names id'

theorem enter (hid : (scopeAt g.scopes id).kind = .object) (hkind : g.here.kind ≠ .record) :
    Generator.Filed { g with current := id, enclosing := g.current :: g.enclosing } :=
  { h with path := .inl (.object hid (h.path.resolve_right fun hrecord => hkind hrecord.1)) }

theorem leave {id : ScopeId} {rest : List ScopeId} (henclosing : g.enclosing = id :: rest) :
    Generator.Filed { g with current := id, enclosing := rest } := by
  refine { h with path := .inl ?_ }
  have hpath := h.path
  rw [henclosing] at hpath
  rcases hpath with hpath | ⟨-, hzero⟩
  · exact hpath.rest
  · cases hzero
    exact .outermost

theorem inside {function : Option (Callee × ScopeId)}
    (hf : ∀ f scope, function = some (f, scope) → (scopeAt g.scopes scope).kind = .function) :
    Generator.Filed { g with function } := { h with function := hf }

/-- The outermost directory gets a symbol that leads to a new directory, and that one is entered. -/
theorem opened (hcurrent : g.current = 0) {name : Bytes} {owner : Option Bytes}
    {function : Option (Callee × ScopeId)} (hkind : kind = .function ∨ kind = .record)
    (hsym : sym.Filed (g.scopes.push (Scope.empty name kind owner)) g.current)
    (hname : sym.name ∉ g.here.symbols.map (·.name))
    (hfunction : ∀ f scope, function = some (f, scope) →
      g.function = some (f, scope) ∨ kind = .function ∧ scope = g.scopes.size) :
    Generator.Filed { g with
      scopes := (g.scopes.push (Scope.empty name kind owner)).modify g.current (·.add sym)
      current := g.scopes.size, enclosing := g.current :: g.enclosing, function } := by
  have hne : kind ≠ .program := by rcases hkind with rfl | rfl <;> simp
  have hhere : scopeAt (g.scopes.push (Scope.empty name kind owner)) g.current = g.here := by
    rw [scopeAt_push, if_neg (Nat.ne_of_lt h.current)]
    rfl
  have hadd := (h.push name owner hne).add hsym (hhere ▸ hname)
  have hsame := (SameKinds.push g.scopes (Scope.empty name kind owner)).trans (.add _ g.current sym)
  have hnew : (scopeAt ((g.scopes.push (Scope.empty name kind owner)).modify g.current (·.add sym))
      g.scopes.size).kind = kind := by
    refine (SameKinds.add _ _ _).kind_of_ne ?_ hne
    rw [scopeAt_push, if_pos rfl]
    rfl
  refine { hadd with path := ?_, function := ?_ }
  · simp only [h.enclosing_of_zero hcurrent, hcurrent] at hnew ⊢
    rcases hkind with rfl | rfl
    · exact .inl (.body hnew)
    · exact .inr ⟨hnew, trivial⟩
  · intro f scope hf
    rcases hfunction f scope hf with hold | ⟨rfl, rfl⟩
    · exact hsame.kind_of_ne (h.function f scope hold) (by simp)
    · exact hnew

end

end Generator.Filed

/-! ## Steps that declare nothing -/

/-- Whether an action may change the directories or where they are open. -/
def Action.declares : Action → Bool
  | .start _ | .leaveScope | .declare .. | .endFunction | .declareClass _
    | .declarePending _ => true
  | _ => false

namespace Generate

variable {α β : Type} {x : Generate α} {g g₁ : Generator}

/-- An action that declares nothing leaves the directories alone. -/
theorem alike_perform (h : a.declares = false) (g : Generator) :
    ∃ m, Alike { g with memory := m } ((perform a).after g) := by
  cases hdraws : a.draws with
  | true =>
    rcases (row_perform hdraws g).alike with halike | ⟨-, ty, b, m, -, halike⟩
    · exact ⟨g.memory, halike⟩
    · exact ⟨m, halike⟩
  | false =>
    cases a with
    | pushConst ty v =>
      rw [perform, after_answer, pushConst, intern, bind_assoc, after_get_bind]
      cases g.memory.intern ty (v.convert ty) with
      | ok r => exact ⟨r.2, rfl, rfl, rfl, rfl, rfl, rfl⟩
      | error e => exact ⟨g.memory, .refl g⟩
    | start | leaveScope | declare | endFunction | declareClass | declarePending => cases h
    | _ => cases hdraws

/-! ## Declarations -/

theorem filed_bind {f : α → Generate β} (hx : (x.after g).Filed)
    (hf : ∀ a g₁, x g = .ok a g₁ → g₁.Filed → ((f a).after g₁).Filed) :
    ((x >>= f).after g).Filed := by
  cases h : x g with
  | ok a g₁ =>
    rw [after_of_ok h] at hx
    rw [after_bind_of_ok h]
    exact hf a g₁ h hx
  | error stop g₁ =>
    rw [after_bind_of_error h]
    exact hx

theorem filed_get_bind {f : Generator → Generate β} (h : ((f g).after g).Filed) :
    ((get >>= f).after g).Filed := h

theorem filed_guard {c : Prop} [Decidable c] {cause : Fault} {f : α → Generate β} {y : Generate β}
    (h : g.Filed) (hy : ¬ c → (y.after g).Filed) :
    ((if c then Generate.fault cause >>= f else y).after g).Filed := by
  split
  · exact h
  · rename_i hc
    exact hy hc

section

variable (h : g.Filed)

include h

theorem filed_alloc_bind {purpose : Purpose} {n : Int64} {f : Addr → Generate β}
    (hf : ∀ a m, ((f a).after { g with memory := m }).Filed) :
    ((alloc purpose ty segment n >>= f).after g).Filed := by
  cases ha : g.memory.alloc ty segment n with
  | ok r =>
    rw [after_bind_of_ok (alloc_of_ok ha)]
    exact hf r.1 r.2
  | error e =>
    rw [after_bind_of_error (alloc_of_error ha), after_of_error (alloc_of_error ha)]
    exact h

/-- Filling a directory with fields of names that it does not have. -/
theorem filed_fillFields {object : Bytes} {t : Template} {scope : ScopeId} {path : List Bytes}
    (ht : t.Valued) (hkind : (scopeAt g.scopes scope).kind = .object)
    (hnames : ((scopeAt g.scopes scope).symbols.map (·.name) ++ t.names).Nodup) :
    ((fillFields object segment scope path t).after g).Filed := by
  have hscope : scope < g.scopes.size := lt_of_kind (by simp [hkind])
  induction t generalizing scope path g with
  | nil => exact h
  | «variable» name ty dims rest ih =>
    refine filed_alloc_bind h fun a m => ?_
    have hm : Generator.Filed { g with memory := m } := h.of_same rfl rfl rfl rfl
    refine ih (hm.add (.stored a ty rfl rfl rfl ht.1 ?_) ?_) ht.2 ?_ ?_ (by simpa using hscope)
    · exact hkind ▸ (by simp)
    · exact fun hmem => (List.nodup_append.1 hnames).2.2 _ hmem name (by simp [Template.names]) rfl
    · exact (SameKinds.add _ _ _).kind_of_ne hkind (by simp)
    · simpa [scopeAt_modify, hscope, Scope.add, Template.names] using hnames
  | nested name className fields rest ihfields ihrest =>
    rw [fillFields, after_bind_of_ok (newScope_ok _ _ _ _)]
    have hnew : scopeAt (g.scopes.push (Scope.empty name .object (some name))) g.scopes.size =
        Scope.empty name .object (some name) := by rw [scopeAt_push, if_pos rfl]
    refine filed_bind (ihfields (h.push name (some name) (by simp)) ht.1.2 (by rw [hnew]; rfl)
      (by rw [hnew]; exact ht.1.1) (by simp)) fun _ g₁ hok h₁ => ?_
    obtain ⟨m, scopes, syms, ps, rfl, hgrows, -, -⟩ := fillFields_copied fields (by simp) hok
    have hkept := hgrows.instance rfl hscope
    have hhere : scopeAt scopes scope = scopeAt g.scopes scope := by simpa using hkept.here
    have hscope₁ : scope < scopes.size := Nat.lt_of_lt_of_le hscope hkept.size
    refine ihrest (h₁.add (.object className fields g.scopes.size rfl rfl rfl ht.1.2 ?_ ?_) ?_)
      ht.2 ?_ ?_
      (by simpa using hscope₁)
    · exact hgrows.sameKinds.kind_of_ne (by rw [hnew]; rfl) (by simp)
    · simp [hhere, hkind]
    · simp only [hhere]
      exact fun hmem => (List.nodup_append.1 hnames).2.2 _ hmem name (by simp [Template.names]) rfl
    · exact (SameKinds.add _ _ _).kind_of_ne (hhere ▸ hkind) (by simp)
    · simpa [scopeAt_modify, hscope₁, hhere, Scope.add, Template.names] using hnames

theorem filed_enterInstance (hscope : ∀ inner, sym.scope = some inner →
      (scopeAt g.scopes inner).kind = .object ∧ g.here.kind ≠ .record) :
    ((enterInstance sym o).after g).Filed := by
  unfold enterInstance
  split
  · cases hs : sym.scope with
    | none => exact h
    | some scope =>
      obtain ⟨hkind, hhere⟩ := hscope scope hs
      exact h.enter hkind hhere
  · exact h

theorem filed_conclude (hkind : sym.kind = .variable none)
    (hscope : ∀ inner, sym.scope = some inner →
      (scopeAt g.scopes inner).kind = .object ∧ g.here.kind ≠ .record) :
    ((conclude sym o).after g).Filed := by
  rw [conclude_eq]
  split
  · cases hparam : addParam sym g with
    | ok u g₁ =>
      obtain ⟨_, a, -, hsome, -⟩ := addParam_some hparam
      rw [hkind] at hsome
      cases hsome
    | error stop g₁ =>
      obtain ⟨-, rfl⟩ := addParam_eq_error hparam
      rw [after_bind_of_error hparam, after_of_error hparam]
      exact h
  · exact filed_enterInstance h hscope

theorem filed_declareVariable {id : Bytes} {dims : List Dim} (htype : type.Valued)
    (hname : id ∉ g.here.symbols.map (·.name)) :
    ((declareVariable id type dims o).after g).Filed := by
  rw [declareVariable_eq]
  refine filed_get_bind ?_
  split
  · rename_i hhere
    exact filed_conclude (h.add (.field rfl rfl htype hhere) hname) rfl (by simp)
  · rename_i hhere
    cases type with
    | object className fields =>
      simp only [instantiate, bind_assoc, pure_bind]
      refine filed_get_bind ?_
      rw [after_bind_of_ok (newScope_ok _ _ _ _)]
      have hnew : scopeAt (g.scopes.push (Scope.empty id .object (some id))) g.scopes.size =
          Scope.empty id .object (some id) := by rw [scopeAt_push, if_pos rfl]
      refine filed_bind (filed_fillFields (h.push id (some id) (by simp)) htype.2
        (by rw [hnew]; rfl)
        (by rw [hnew]; exact htype.1)) ?_
      intro _ g₁ hok h₁
      obtain ⟨m, scopes, syms, ps, rfl, hgrows, -, -⟩ := fillFields_copied fields (by simp) hok
      have hinner : (scopeAt scopes g.scopes.size).kind = .object :=
        hgrows.sameKinds.kind_of_ne (by rw [hnew]; rfl) (by simp)
      have hsame : scopeAt scopes g.current = scopeAt g.scopes g.current := by
        simpa using (hgrows.instance rfl h.current).here
      refine filed_conclude (h₁.add (.object className fields g.scopes.size rfl rfl rfl
        htype.2 hinner
        (by rw [hsame]; exact hhere)) (by rw [hsame]; exact hname)) rfl ?_
      rintro inner hlink
      cases hlink
      refine ⟨(SameKinds.add _ _ _).kind_of_ne hinner (by simp), ?_⟩
      exact (SameKinds.add _ _ _).kind _ h₁.current ▸ (by rw [hsame]; exact hhere)
    | value ty =>
      refine filed_alloc_bind h fun a m => ?_
      have hm : Generator.Filed { g with memory := m } := h.of_same rfl rfl rfl rfl
      refine conclude_cases (P := Generator.Filed) rfl rfl ?_ fun name => .addParam ?_ name _
      all_goals exact hm.add (.stored a ty rfl rfl rfl htype hhere) hname

theorem filed_declareFunction {id : Bytes} (hty : ty = .void ∨ Typing.isPrimitive ty = true)
    (hname : id ∉ g.here.symbols.map (·.name)) : ((declareFunction id ty o).after g).Filed := by
  refine filed_get_bind (filed_guard h fun hkind => ?_)
  have hcurrent : g.current = 0 := (h.outermost _ h.current).1 (not_not.1 hkind)
  refine filed_alloc_bind h fun a m => ?_
  have hm : Generator.Filed { g with memory := m } := h.of_same rfl rfl rfl rfl
  split
  · rw [after_bind_of_ok (addHere_ok _ _)]
    exact hm.add (.function a g.quads.size [] rfl hcurrent hty) hname
  · refine hm.opened hcurrent (.inl rfl) (.function a g.quads.size [] rfl hcurrent hty) hname ?_
    rintro f scope hf
    cases hf
    exact .inr ⟨rfl, rfl⟩

/-- What a class declares are variables of types of values and instances. -/
theorem valued_fields (hkind : (scopeAt g.scopes id).kind = .record) :
    (Scope.fields (scopeAt g.scopes id).symbols).Valued := by
  have htypes : ∀ sym ∈ (scopeAt g.scopes id).symbols, sym.type.Valued := by
    intro sym hsym
    have hne : id ≠ 0 := by
      rintro rfl
      rw [h.zero_kind] at hkind
      cases hkind
    cases h.symbols id sym hsym with
    | function _ _ _ _ hzero => exact absurd hzero hne
    | record _ hzero => exact absurd hzero hne
    | field _ _ hvalued => exact hvalued
    | stored _ _ _ _ _ _ hhere => exact absurd hkind hhere
    | object _ _ _ _ _ _ _ _ hhere => exact absurd hkind hhere
  generalize (scopeAt g.scopes id).symbols = symbols at htypes
  induction symbols with
  | nil => trivial
  | cons sym rest ih =>
    obtain ⟨hsym, hrest⟩ := List.forall_mem_cons.1 htypes
    simp only [Scope.fields, List.foldr_cons]
    cases htype : sym.type with
    | value ty =>
      rw [htype] at hsym
      exact ⟨hsym, ih hrest⟩
    | object className fields =>
      rw [htype] at hsym
      exact ⟨hsym, ih hrest⟩

end

theorem mem_of_lookup {id : Bytes} (h : g.lookup id = some sym) :
    ∃ scope ∈ g.current :: g.enclosing, sym ∈ (g.scope scope).symbols := by
  obtain ⟨scope, hscope, hfind⟩ := List.exists_of_findSome?_eq_some h
  exact ⟨scope, hscope, List.mem_of_find?_eq_some hfind⟩

theorem valued_declaredType (h : g.Filed) {id : Bytes}
    (htype : g.declaredType id typeName o = .ok type) :
    type.Valued ∨ o.isFunction = true ∧ type = .value .void := by
  unfold Generator.declaredType at htype
  cases hword : Ty.ofWord? typeName with
  | some ty =>
    have hcases : Typing.isPrimitive ty = true ∨ ty = .void := by
      unfold Ty.ofWord? at hword
      split_ifs at hword <;> cases hword <;> decide
    simp only [hword] at htype
    split at htype
    · cases htype
    · rename_i hvoid
      cases htype
      rcases hcases with hprimitive | rfl
      · exact .inl hprimitive
      · exact .inr ⟨by simpa using hvoid, rfl⟩
  | none =>
    simp only [hword] at htype
    cases hlookup : g.lookup typeName with
    | none =>
      rw [hlookup] at htype
      cases htype
    | some sym =>
      simp only [hlookup] at htype
      split_ifs at htype with hrecord
      cases htype
      left
      obtain ⟨scope, -, hsym⟩ := mem_of_lookup hlookup
      have hkind : sym.kind = .record := by simpa [Symbol.isRecord] using hrecord
      cases hscope : sym.scope with
      | none => exact ⟨.nil, trivial⟩
      | some inner =>
        refine ⟨?_, valued_fields h ((h.symbols scope sym hsym).of_record hkind hscope)⟩
        exact names_fields _ ▸ h.names inner

theorem filed_declare {id typeName : Bytes} {o : DeclOptions} (h : g.Filed) :
    ((declare id typeName o).after g).Filed := by
  refine filed_get_bind (filed_guard h fun hfind => ?_)
  have hname := name_not_mem_of_find? (by simpa using hfind)
  cases htype : g.declaredType id typeName o with
  | error cause => exact h
  | ok type =>
    cases g.declaredDims id o with
    | error cause => exact h
    | ok dims =>
      have hvalued := valued_declaredType h htype
      cases type with
      | object className fields =>
        refine filed_guard h fun _ => filed_declareVariable h ?_ hname
        simpa using hvalued
      | value ty =>
        refine filed_guard h fun _ => ?_
        split
        · refine filed_declareFunction h ?_ hname
          rcases hvalued with hprimitive | ⟨-, hvoid⟩
          · exact .inr hprimitive
          · exact .inl (SymbolType.value.inj hvoid)
        · rename_i hfunction
          refine filed_declareVariable h ?_ hname
          simpa [hfunction] using hvalued

theorem filed_declareAll {ws : List Waiting} (h : g.Filed) :
    ((declareAll typeName ws).after g).Filed := by
  induction ws generalizing g with
  | nil => exact h
  | cons w ws ih => exact filed_bind (filed_declare h) fun _ _ _ h₁ => ih h₁

theorem filed_leaveScope (h : g.Filed) : (leaveScope.after g).Filed := by
  cases henclosing : g.enclosing with
  | nil => rw [after_leaveScope_of_nil henclosing]; exact h
  | cons id rest => rw [after_leaveScope_of_cons henclosing]; exact h.leave henclosing

theorem filed_endFunction (h : g.Filed) : (endFunction.after g).Filed := by
  refine filed_get_bind ?_
  rcases g.function with _ | ⟨callee, scope⟩
  · exact h
  · refine filed_guard h fun _ => filed_leaveScope ?_
    exact { h with function := by rintro _ _ ⟨⟩ }

theorem filed_declareClass {id : Bytes} (h : g.Filed) : ((declareClass id).after g).Filed := by
  refine filed_get_bind (filed_guard h fun hkind => filed_guard h fun hfind => ?_)
  have hcurrent : g.current = 0 := (h.outermost _ h.current).1 (not_not.1 hkind)
  have hname := name_not_mem_of_find? (by simpa using hfind)
  refine h.opened hcurrent (.inr rfl) (.record rfl hcurrent ?_) hname fun f scope hf => .inl hf
  rintro inner hlink
  cases hlink
  rw [scopeAt_push, if_pos rfl]
  rfl

theorem filed_perform (a : Action) (h : g.Filed) : ((perform a).after g).Filed := by
  cases hdeclares : a.declares with
  | false =>
    obtain ⟨m, halike⟩ := alike_perform hdeclares g
    have hm : Generator.Filed { g with memory := m } := h.of_same rfl rfl rfl rfl
    exact hm.of_alike halike
  | true =>
    cases a with
    | start name =>
      have hrename := h.rename g.current name
      exact hrename.of_same rfl rfl rfl rfl
    | leaveScope => rw [perform, after_answer]; exact filed_leaveScope h
    | declare id typeName options => rw [perform, after_answer]; exact filed_declare h
    | endFunction => rw [perform, after_answer]; exact filed_endFunction h
    | declareClass id => rw [perform, after_answer]; exact filed_declareClass h
    | declarePending typeName =>
      rw [perform, after_answer]
      exact filed_declareAll (h.of_same rfl rfl rfl rfl)
    | _ => cases hdeclares

end Generate

theorem Action.declares_of_computes (h : a.computes = true) : a.declares = false := by
  cases a <;> first | rfl | cases h

/-! ## Every sequence of actions -/

theorem Generator.Filed.run {t : Trace} (h : t.generator.Filed) (events : List Event) :
    (t.run events).generator.Filed := by
  induction events generalizing t with
  | nil => exact h
  | cons e events ih =>
    exact ih (Generate.filed_perform e.action (h.of_same rfl rfl rfl rfl))

theorem Generator.Filed.start (l : Layout) : (Trace.start l).generator.Filed := by
  refine ⟨Nat.zero_lt_one, ?_, .inl .outermost, ?_, ?_, fun id => ?_⟩
  · intro id hid
    have hzero : id = 0 := Nat.lt_one_iff.1 hid
    exact ⟨fun _ => hzero, fun _ => (Trace.scopeAt_start l id).2⟩
  · rintro f scope hf
    cases hf
  · intro id sym hsym
    rw [(Trace.scopeAt_start l id).1] at hsym
    cases hsym
  · rw [(Trace.scopeAt_start l id).1]
    exact .nil

end Quadlang
