-- What a declaration does, whether it succeeds or fails. Most declarations that fail are refused
-- before they have changed anything. A parameter outside of a header stays declared, and an
-- instance that finds no room for one of its fields keeps the addresses of the fields in front of
-- it.
import Quadlang.Proofs.Generator.Instances

namespace Quadlang

open Source Generate Success

variable {g g' : Generator} {id typeName : Bytes} {s sym : Symbol} {α : Type} {o : DeclOptions}
  {dims : List Dim} {type : SymbolType} {cause : Fault}

/-! ## Types and dimensions -/

theorem isPrimitive_of_ofWord? {word : Bytes} {ty : Ty} (h : Ty.ofWord? word = some ty)
    (hty : ty ≠ .void) : Typing.isPrimitive ty = true := by
  unfold Ty.ofWord? at h
  repeat' split at h
  all_goals first | (cases h; rfl) | (cases h; exact absurd rfl hty) | cases h

theorem lift_eq_ok {x : Except Fault α} {a : α} (h : lift x g = .ok a g') : x = .ok a ∧ g = g' := by
  cases x with
  | error e => exact (fault_eq_ok.1 h).elim
  | ok b =>
    simp only [lift, pure_eq_ok] at h
    exact ⟨by rw [h.1], h.2⟩

theorem declaredDims_eq_ok (h : g.declaredDims id o = .ok dims) :
    ∃ n, Dim.layOut g.memory.layout.widest o.dims = .ok (n, dims) := by
  unfold Generator.declaredDims at h
  split at h
  · rename_i n dims' hd
    cases h
    exact ⟨n, hd⟩
  · cases h
  · cases h

/-- The fields that instances of a class have. -/
def Generator.template (g : Generator) (c : Symbol) : Template :=
  Scope.fields (c.scope.elim [] fun scope => (g.scope scope).symbols)

/-- A declared type is the type of values that its name spells, or the class of this name. -/
theorem declaredType_eq_ok (h : g.declaredType id typeName o = .ok type) :
    (∃ ty, Ty.ofWord? typeName = some ty ∧ (o.isFunction = false → ty ≠ .void) ∧
      type = .value ty) ∨
    (Ty.ofWord? typeName = none ∧ o.isFunction = false ∧ o.isParam = false ∧
      ∃ c, g.lookup typeName = some c ∧ c.isRecord = true ∧ c.scope ≠ some g.current ∧
        type = .object c.name (g.template c)) := by
  unfold Generator.declaredType at h
  split at h
  · rename_i ty hty
    split at h
    · cases h
    · rename_i hvoid
      cases h
      refine .inl ⟨ty, hty, ?_, rfl⟩
      rintro hf rfl
      simp [hf] at hvoid
  · rename_i hty
    cases hc : g.lookup typeName with
    | none => simp [hc] at h
    | some c =>
      simp only [hc] at h
      split at h
      · cases h
      · rename_i hrec
        split at h
        · cases h
        · rename_i hself
          split at h
          · cases h
          · rename_i hpassed
            cases h
            simp only [not_or, Bool.not_eq_true] at hpassed
            exact .inr ⟨hty, hpassed.1, hpassed.2, c, rfl, by simpa using hrec, hself, rfl⟩

/-! ## Steps of a declaration -/

theorem declare_eq_ok (h : declare id typeName o g = .ok sym g') :
    g.here.find? id = none ∧ ∃ type dims, g.declaredType id typeName o = .ok type ∧
      (∃ n, Dim.layOut g.memory.layout.widest o.dims = .ok (n, dims)) ∧
      ((∃ c t, type = .object c t ∧ dims = [] ∧ declareVariable id type dims o g = .ok sym g') ∨
        (∃ ty, type = .value ty ∧ ¬ (dims ≠ [] ∧ (o.isFunction = true ∨ o.isParam = true)) ∧
          (if o.isFunction then declareFunction id ty o g else declareVariable id type dims o g) =
            .ok sym g')) := by
  obtain ⟨hfind, h⟩ := guard_eq_ok.1 h
  simp only [bind_eq_ok] at h
  obtain ⟨type, _, htype, dims, _, hdims, h⟩ := h
  obtain ⟨htype', rfl⟩ := lift_eq_ok htype
  obtain ⟨hdims', rfl⟩ := lift_eq_ok hdims
  refine ⟨by simpa using hfind, type, dims, htype', declaredDims_eq_ok hdims', ?_⟩
  cases type with
  | object c t =>
    obtain ⟨hd, h⟩ := guard_eq_ok.1 h
    exact .inl ⟨c, t, rfl, by simpa using hd, h⟩
  | value ty =>
    obtain ⟨hd, h⟩ := guard_eq_ok.1 h
    refine .inr ⟨ty, rfl, by simpa using hd, ?_⟩
    split at h
    · rename_i hf
      simpa [hf] using h
    · rename_i hf
      simpa [hf] using h

theorem addHere_eq_ok {u : Unit} (h : addHere sym g = .ok u g') :
    g' = { g with scopes := g.scopes.modify g.current (·.add sym) } := by
  obtain ⟨_, _, ⟨rfl, rfl⟩, rfl⟩ := h
  rfl

namespace Generate

/-- The last steps of the declaration of a variable that has its place. -/
def conclude (sym : Symbol) (o : DeclOptions) : Generate Symbol := do
  if o.isParam then addParam sym
  if o.enter then
    if let some scope := sym.scope then enterScope scope
  return sym

/-- Enters the directory of an instance if the declaration asks for it. -/
def enterInstance (sym : Symbol) (o : DeclOptions) : Generate Symbol :=
  if o.enter then sym.scope.elim (pure sym) fun scope => enterScope scope >>= fun _ => pure sym
  else pure sym

theorem conclude_eq (sym : Symbol) (o : DeclOptions) :
    conclude sym o =
      if o.isParam then addParam sym >>= fun _ => enterInstance sym o else enterInstance sym o := by
  unfold conclude enterInstance
  cases sym.scope with
  | none => rfl
  | some scope => rfl

/-- A variable is added once it has its place. -/
theorem declareVariable_eq (id : Bytes) (type : SymbolType) (dims : List Dim) (o : DeclOptions) :
    declareVariable id type dims o = (do
      let g ← get
      let sym : Symbol := { name := id, kind := .variable none, type, dims, isParam := o.isParam }
      if g.here.kind = .record then do
        addHere sym
        conclude sym o
      else
        match type with
        | .object _ fields => do
          let scope ← instantiate id fields
          addHere { sym with scope := some scope }
          conclude { sym with scope := some scope } o
        | .value ty => do
          let address ← alloc (.variable id) ty g.segment sym.size
          addHere { sym with kind := .variable (some address) }
          conclude { sym with kind := .variable (some address) } o) := by
  funext g
  cases type with
  | object className fields => rfl
  | value ty => rfl

end Generate

/-! ## Declarations that succeed -/

/-- The symbol of a variable that is no parameter. -/
def variableSymbol (id : Bytes) (type : SymbolType) (dims : List Dim) : Symbol :=
  { name := id, kind := .variable none, type, dims }

def paramSymbol (id : Bytes) (ty : Ty) (a : Addr) : Symbol :=
  { name := id, kind := .variable (some a), type := .value ty, isParam := true }

/-- The symbol of a function without parameters yet. -/
def functionSymbol (id : Bytes) (ty : Ty) (a : Addr) (target : Nat) (scope : ScopeId) : Symbol :=
  { name := id, kind := .function a target [], type := .value ty, scope := some scope }

/-- A compilation that goes into the directory of an instance if the declaration asks for it. -/
def Generator.entering (g : Generator) (o : DeclOptions) (scope : ScopeId) : Generator :=
  if o.enter then { g with current := scope, enclosing := g.current :: g.enclosing } else g

/-- What a declaration that succeeds adds: the symbol, and the state with it. -/
inductive Addition (g : Generator) (id typeName : Bytes) (o : DeclOptions) :
    Symbol → Generator → Prop
  /-- A field of a class is a symbol only. -/
  | field {type : SymbolType} {dims : List Dim} : g.here.kind = .record →
      o.isFunction = false → o.isParam = false →
      g.declaredType id typeName o = .ok type →
      (∃ n, Dim.layOut g.memory.layout.widest o.dims = .ok (n, dims)) →
      Addition g id typeName o (variableSymbol id type dims)
        { g with scopes := g.scopes.modify g.current (·.add (variableSymbol id type dims)) }
  /-- A variable of a type of values has its addresses. -/
  | stored {ty : Ty} {dims : List Dim} {a : Addr} {m : Memory} : g.here.kind ≠ .record →
      o.isFunction = false → o.isParam = false → Ty.ofWord? typeName = some ty →
      Typing.isPrimitive ty = true → (∃ n, Dim.layOut g.memory.layout.widest o.dims =
      .ok (n, dims)) → g.memory.alloc ty g.segment (Dim.total dims) = .ok (a, m) →
      Addition g id typeName o (fieldSymbol id ty dims a)
        { g with
          memory := m
          scopes := g.scopes.modify g.current (·.add (fieldSymbol id ty dims a)) }
  /-- A parameter is also known to the function whose header is open. -/
  | param {ty : Ty} {a : Addr} {m : Memory} {callee : Callee} : g.here.kind ≠ .record →
      o.isFunction = false → o.isParam = true → Ty.ofWord? typeName = some ty →
      Typing.isPrimitive ty = true → g.function = some (callee, g.current) →
      g.memory.alloc ty g.segment 1 = .ok (a, m) →
      Addition g id typeName o (paramSymbol id ty a)
        { g with
          memory := m
          scopes := (g.scopes.modify g.current (·.add (paramSymbol id ty a))).modify 0
            (·.addParam callee.name ⟨id, ty, a⟩) }
  /-- An instance has a directory of its own, which copies the class. -/
  | object {c : Symbol} {m : Memory} {scopes : Array Scope} {syms : List Symbol}
    {ps : List Placement} :
      g.here.kind ≠ .record → o.isFunction = false → o.isParam = false →
      Ty.ofWord? typeName = none → g.lookup typeName = some c → c.isRecord = true →
      c.scope ≠ some g.current →
      Grows (g.scopes.push (Scope.empty id .object (some id))) g.scopes.size syms scopes →
      Stores g.segment g.memory ps m →
      (g.template c).Copied (scopeAt scopes) syms
        (newIds (g.scopes.push (Scope.empty id .object (some id))) scopes) ps →
      Addition g id typeName o (innerSymbol id c.name (g.template c) g.scopes.size)
        ({ g with
          memory := m
          scopes := scopes.modify g.current
            (·.add (innerSymbol id c.name (g.template c) g.scopes.size)) }.entering o g.scopes.size)
  /-- A function has a return slot, and a directory for its body, which is entered. -/
  | function {ty : Ty} {a : Addr} {m : Memory} : g.here.kind = .program → o.isFunction = true →
      Ty.ofWord? typeName = some ty → g.memory.alloc ty .stack 1 = .ok (a, m) →
      Addition g id typeName o (functionSymbol id ty a g.quads.size g.scopes.size)
        { g with
          memory := m
          scopes := (g.scopes.push (Scope.empty id .function (some id))).modify g.current
            (·.add (functionSymbol id ty a g.quads.size g.scopes.size))
          function := some (⟨id, ty, a, g.quads.size⟩, g.scopes.size)
          current := g.scopes.size
          enclosing := g.current :: g.enclosing }

section

variable {g g' : Generator} {id typeName : Bytes} {o : DeclOptions} {sym : Symbol}

theorem enterInstance_eq_ok (h : enterInstance s o g = .ok sym g') :
    sym = s ∧ g' = s.scope.elim g (g.entering o) := by
  unfold enterInstance at h
  unfold Generator.entering
  cases hs : s.scope with
  | none =>
    rw [hs] at h
    split at h
    all_goals
      cases h
      exact ⟨rfl, rfl⟩
  | some scope =>
    rw [hs] at h
    split at h
    · rename_i henter
      cases h
      exact ⟨rfl, by simp [henter]⟩
    · rename_i henter
      cases h
      exact ⟨rfl, by simp [henter]⟩

/-- A parameter is declared in the innermost directory of the function whose header is open. -/
theorem addParam_some {u : Unit} (h : addParam s g = .ok u g') :
    ∃ callee a, g.function = some (callee, g.current) ∧ s.kind = .variable (some a) ∧
      g' = { g with scopes := g.scopes.modify 0 (·.addParam callee.name ⟨s.name, s.ty, a⟩) } := by
  unfold addParam at h
  rw [get_bind] at h
  rcases hf : g.function with _ | ⟨callee, scope⟩
  · simp [hf, fault_eq_ok] at h
  · rcases hk : s.kind with (_ | a) | _ | _
    · simp only [hf, hk] at h
      exact (fault_eq_ok.1 h).elim
    · simp only [hf, hk] at h
      split at h
      · rename_i hscope
        subst hscope
        cases h
        exact ⟨callee, a, rfl, rfl, by simp [hf]⟩
      · exact (fault_eq_ok.1 h).elim
    · simp only [hf, hk] at h
      exact (fault_eq_ok.1 h).elim
    · simp only [hf, hk] at h
      exact (fault_eq_ok.1 h).elim

theorem conclude_eq_ok (h : conclude s o g = .ok sym g') :
    ∃ g₁, sym = s ∧ g' = s.scope.elim g₁ (g₁.entering o) ∧
      (o.isParam = false ∧ g₁ = g ∨ o.isParam = true ∧
        ∃ callee a, g.function = some (callee, g.current) ∧ s.kind = .variable (some a) ∧
          g₁ =
            { g with scopes := g.scopes.modify 0 (·.addParam callee.name ⟨s.name, s.ty, a⟩) }) := by
  rw [conclude_eq] at h
  split at h
  · rename_i hparam
    obtain ⟨u, g₁, hadd, h⟩ := bind_eq_ok.1 h
    obtain ⟨hsym, hg'⟩ := enterInstance_eq_ok h
    exact ⟨g₁, hsym, hg', .inr ⟨hparam, addParam_some hadd⟩⟩
  · rename_i hparam
    obtain ⟨hsym, hg'⟩ := enterInstance_eq_ok h
    exact ⟨g, hsym, hg', .inl ⟨by simpa using hparam, rfl⟩⟩

theorem declareVariable_succeeds (hfunction : o.isFunction = false)
    (htype : g.declaredType id typeName o = .ok type)
    (hdims : ∃ n, Dim.layOut g.memory.layout.widest o.dims = .ok (n, dims))
    (hparam : o.isParam = true → dims = []) (hobject : (∃ c t, type = .object c t) → dims = [])
    (h : declareVariable id type dims o g = .ok sym g') : Addition g id typeName o sym g' := by
  rw [declareVariable_eq, get_bind] at h
  split at h
  · rename_i hkind
    obtain ⟨g₁, rfl, rfl, ⟨hp, rfl⟩ | ⟨-, callee, a, -, hvariable, -⟩⟩ := conclude_eq_ok h
    · rw [hp]
      exact .field hkind hfunction hp htype hdims
    · cases hvariable
  rename_i hkind
  rcases declaredType_eq_ok htype with ⟨ty, hword, hvoid, rfl⟩ |
    ⟨hword, -, hp, c, hlookup, hrecord, hself, rfl⟩
  · have hprimitive := isPrimitive_of_ofWord? hword (hvoid hfunction)
    obtain ⟨a, g₁, halloc, h⟩ := bind_eq_ok.1 h
    obtain ⟨m, hm, rfl⟩ := alloc_eq_ok halloc
    obtain ⟨g₂, rfl, rfl, ⟨hp, rfl⟩ | ⟨hp, callee, a', hf, hvariable, rfl⟩⟩ := conclude_eq_ok h
    · rw [hp]
      exact .stored hkind hfunction hp hword hprimitive hdims hm
    · cases hvariable
      rw [hparam hp] at hm
      rw [hp, hparam hp]
      exact .param hkind hfunction hp hword hprimitive hf hm
  · rw [hobject ⟨_, _, rfl⟩] at h
    simp only [instantiate, bind_assoc] at h
    rw [get_bind, bind_of_ok (newScope_ok _ _ _ _)] at h
    obtain ⟨u, g₁, hfill, h⟩ := bind_eq_ok.1 h
    obtain ⟨m, scopes, syms, ps, rfl, hgrows, hstores, hcopied⟩ :=
      fillFields_copied _ (by simp) hfill
    obtain ⟨g₂, rfl, rfl, ⟨-, rfl⟩ | ⟨hp', -⟩⟩ := conclude_eq_ok h
    · rw [hp]
      exact .object hkind hfunction hp hword hlookup hrecord hself hgrows hstores hcopied
    · rw [hp] at hp'
      cases hp'

theorem declareFunction_succeeds {ty : Ty} (hfunction : o.isFunction = true)
    (hword : Ty.ofWord? typeName = some ty)
    (h : declareFunction id ty o g = .ok sym g') : Addition g id typeName o sym g' := by
  unfold declareFunction at h
  rw [get_bind] at h
  split at h
  · obtain ⟨_, _, hfault, -⟩ := bind_eq_ok.1 h
    exact (fault_eq_ok.1 hfault).elim
  rename_i hkind
  obtain ⟨a, g₁, halloc, h⟩ := bind_eq_ok.1 h
  obtain ⟨m, hm, rfl⟩ := alloc_eq_ok halloc
  split at h
  · rw [bind_of_ok (addHere_ok _ _)] at h
    cases h
  · rename_i hparam
    cases h
    simp only [Bool.not_eq_true] at hparam
    rw [hparam]
    exact .function (not_not.1 hkind) hfunction hword hm

/-- A declaration that succeeds has a new name, and adds what is listed. -/
theorem declare_succeeds (h : declare id typeName o g = .ok sym g') :
    g.here.find? id = none ∧ Addition g id typeName o sym g' := by
  obtain ⟨hfind, type, dims, htype, hdims, ⟨c, t, rfl, rfl, h⟩ | ⟨ty, rfl, hsimple, h⟩⟩ :=
    declare_eq_ok h
  · have hfunction : o.isFunction = false := by
      rcases declaredType_eq_ok htype with ⟨_, _, _, hty⟩ | ⟨_, hfunction, _⟩
      · cases hty
      · exact hfunction
    exact ⟨hfind, declareVariable_succeeds hfunction htype hdims (fun _ => rfl) (fun _ => rfl) h⟩
  refine ⟨hfind, ?_⟩
  split at h
  · rename_i hfunction
    rcases declaredType_eq_ok htype with ⟨ty', hword, -, hty⟩ | ⟨_, hother, _⟩
    · cases hty
      exact declareFunction_succeeds hfunction hword h
    · rw [hfunction] at hother
      cases hother
  · rename_i hfunction
    refine declareVariable_succeeds (by simpa using hfunction) htype hdims (fun hparam => ?_) ?_ h
    · by_contra hd
      exact hsimple ⟨hd, .inr hparam⟩
    · rintro ⟨c, t, ht⟩
      cases ht

/-- A directory that has been filled, once the variable that leads to it is added to the innermost
directory. -/
theorem Grows.object {scopes : Array Scope} {t : Template} {syms : List Symbol}
    {ps : List Placement} (sym : Symbol) (hcurrent : g.current < g.scopes.size)
    (h : Grows (g.scopes.push (Scope.empty id .object (some id))) g.scopes.size syms scopes)
    (hcopied : t.Copied (scopeAt scopes) syms
      (newIds (g.scopes.push (Scope.empty id .object (some id))) scopes) ps) :
    ∃ scopes' ids, scopes' = scopes.modify g.current (·.add sym) ∧
      Grows g.scopes g.current [sym] scopes' ∧
      scopeAt scopes' g.scopes.size = ⟨id, .object, some id, syms⟩ ∧
      newIds g.scopes scopes' = g.scopes.size :: ids ∧ t.Copied (scopeAt scopes') syms ids ps := by
  have hsize := h.size
  simp only [Array.size_push] at hsize
  have hcurrent' : g.current < scopes.size := Nat.lt_of_lt_of_le hcurrent (Nat.le_of_succ_le hsize)
  have hne : ∀ id', g.scopes.size ≤ id' → id' ≠ g.current :=
    fun id' hle => Nat.ne_of_gt (Nat.lt_of_lt_of_le hcurrent hle)
  refine ⟨_, _, rfl, (h.instance rfl hcurrent).trans hcurrent (Grows.add hcurrent' _), ?_, ?_,
    hcopied.congr fun id' hmem => ?_⟩
  · rw [scopeAt_modify, if_neg (fun h => hne _ (Nat.le_refl _) h.1), h.here]
    simp [scopeAt_push, Scope.empty]
  · rw [← newIds_push hsize]
    simp [newIds]
  · rw [mem_newIds, Array.size_push] at hmem
    rw [scopeAt_modify, if_neg (fun h => hne _ (Nat.le_of_succ_le hmem.1) h.1)]

end

/-! ## Declarations that fail -/

/-- Whether a declaration that fails for a cause has done a part of its work. -/
def Fault.halfway : Fault → Bool
  | .paramOutsideHeader _ | .noRoom (.field ..) _ => true
  | _ => false

/-- What a declaration that fails for a cause leaves behind. -/
inductive Remnant (g : Generator) (id typeName : Bytes) : Fault → Generator → Prop
  /-- Everything is as before. -/
  | nothing {cause : Fault} : cause.halfway = false → Remnant g id typeName cause g
  /-- The symbol stays in the innermost directory, with its addresses if it is stored. -/
  | parameter {sym : Symbol} {m : Memory} : sym.name = id → sym.isParam = true →
      sym.isRecord = false → (∃ ty, sym.type = .value ty) →
      (sym.address? = none ∧ m = g.memory ∨ ∃ segment a, sym.address? = some a ∧
        g.memory.alloc sym.ty segment sym.size = .ok (a, m)) →
      Remnant g id typeName (.paramOutsideHeader id)
        { g with memory := m, scopes := g.scopes.modify g.current (·.add sym) }
  /-- There are new directories that nothing leads to, and the fields in front of the one that found
  no room keep their addresses. -/
  | object {c : Symbol} {ps : List Placement} {path : List Bytes} {ty : Ty} {dims : List Dim}
      {rest : List Leaf} {m : Memory} {e : AllocError} {scopes : Array Scope} :
      g.lookup typeName = some c → c.isRecord = true →
      (g.template c).leaves = ps.map Placement.leaf ++ ⟨path, ty, dims.map Dim.size⟩ :: rest →
      Stores g.segment g.memory ps m → m.alloc ty g.segment (Dim.total dims) = .error e →
      g.scopes.size < scopes.size → (∀ i < g.scopes.size, scopeAt scopes i = scopeAt g.scopes i) →
      Remnant g id typeName (.noRoom (.field id path) e) { g with memory := m, scopes }

/-! ## Refusals -/

/-- A step fails for a cause, and its state fits the cause. -/
def Fails (g : Generator) (id typeName : Bytes) (stop : Stop) (g' : Generator) : Prop :=
  ∃ cause, stop = .fault cause ∧ Remnant g id typeName cause g'

section

variable {g g' : Generator} {id typeName : Bytes} {stop : Stop}

theorem Fails.refused (h : cause.halfway = false) :
    Fails g id typeName (.fault cause) g := ⟨cause, rfl, .nothing h⟩

theorem fault_eq_error :
    (fault cause : Generate α) g = .error stop g' ↔ .fault cause = stop ∧ g = g' := throw_eq_error

theorem Fails.guard {β : Type} {c : Prop} [Decidable c] {f : α → Generate β} {x : Generate β}
    (hcause : cause.halfway = false) (h : (if c then fault cause >>= f else x) g = .error stop g') :
    Fails g id typeName stop g' ∨ ¬ c ∧ x g = .error stop g' := by
  split at h
  · rw [bind_of_error (show fault cause g = .error (.fault cause) g from rfl)] at h
    cases h
    exact .inl (.refused hcause)
  · rename_i hc
    exact .inr ⟨hc, h⟩

theorem lift_eq_error {x : Except Fault α} (h : lift x g = .error stop g') :
    ∃ cause, x = .error cause ∧ stop = .fault cause ∧ g' = g := by
  cases x with
  | ok a => exact (pure_eq_error.1 h).elim
  | error cause =>
    obtain ⟨rfl, rfl⟩ := fault_eq_error.1 h
    exact ⟨cause, rfl, rfl, rfl⟩

theorem declaredType_refuses (h : g.declaredType id typeName o = .error cause) :
    cause.halfway = false := by
  unfold Generator.declaredType at h
  repeat' split at h
  all_goals cases h
  all_goals rfl

theorem declaredDims_refuses (h : g.declaredDims id o = .error cause) : cause.halfway = false := by
  unfold Generator.declaredDims at h
  split at h
  all_goals cases h
  all_goals rfl

/-! ## Parameters -/

theorem addParam_eq_error (h : addParam sym g = .error stop g') :
    stop = .fault (.paramOutsideHeader sym.name) ∧ g' = g := by
  have hfault : ∀ {g₁ : Generator}, (fault (.paramOutsideHeader sym.name) : Generate Unit) g₁ =
      .error stop g' → stop = .fault (.paramOutsideHeader sym.name) ∧ g' = g₁ := by
    intro g₁ h
    obtain ⟨rfl, rfl⟩ := fault_eq_error.1 h
    exact ⟨rfl, rfl⟩
  unfold addParam at h
  rw [get_bind] at h
  rcases hf : g.function with _ | ⟨callee, scope⟩
  · simp only [hf] at h
    exact hfault h
  · rcases hk : sym.kind with (_ | address) | _ | _
    · simp only [hf, hk] at h
      exact hfault h
    · simp only [hf, hk] at h
      split at h
      · cases h
      · exact hfault h
    · simp only [hf, hk] at h
      exact hfault h
    · simp only [hf, hk] at h
      exact hfault h

theorem enterInstance_ne_error : enterInstance sym o g ≠ .error stop g' := by
  intro h
  unfold enterInstance at h
  split at h
  · cases hs : sym.scope with
    | none =>
      rw [hs] at h
      cases h
    | some scope =>
      rw [hs] at h
      cases h
  · cases h

theorem conclude_eq_error (h : conclude sym o g = .error stop g') :
    o.isParam = true ∧ stop = .fault (.paramOutsideHeader sym.name) ∧ g' = g := by
  rw [conclude_eq] at h
  split at h
  · rename_i hparam
    rcases bind_eq_error.1 h with h | ⟨u, g₁, -, h⟩
    · exact ⟨hparam, addParam_eq_error h⟩
    · exact (enterInstance_ne_error h).elim
  · exact (enterInstance_ne_error h).elim

/-! ## Variables and functions -/

theorem declareVariable_eq_error (htype : g.declaredType id typeName o = .ok type)
    (h : declareVariable id type dims o g = .error stop g') : Fails g id typeName stop g' := by
  rw [declareVariable_eq, get_bind] at h
  split at h
  · rw [bind_of_ok (addHere_ok _ _)] at h
    obtain ⟨hparam, rfl, rfl⟩ := conclude_eq_error h
    refine ⟨_, rfl, .parameter rfl hparam rfl ?_ (.inl ⟨rfl, rfl⟩)⟩
    rcases declaredType_eq_ok htype with ⟨ty, -, -, rfl⟩ | ⟨-, -, hparam', -⟩
    · exact ⟨ty, rfl⟩
    · rw [hparam] at hparam'
      cases hparam'
  rcases declaredType_eq_ok htype with ⟨ty, -, -, rfl⟩ | ⟨-, -, hparam, c, hlookup, hrecord, -, rfl⟩
  · simp only [Symbol.size] at h
    cases ha : g.memory.alloc ty g.segment (Dim.total dims) with
    | error e =>
      rw [bind_of_error (alloc_of_error ha)] at h
      cases h
      exact .refused rfl
    | ok r =>
      rw [bind_of_ok (alloc_of_ok ha), bind_of_ok (addHere_ok _ _)] at h
      obtain ⟨hparam, rfl, rfl⟩ := conclude_eq_error h
      exact ⟨_, rfl, .parameter rfl hparam rfl ⟨ty, rfl⟩ (.inr ⟨g.segment, r.1, rfl, ha⟩)⟩
  · simp only [instantiate, bind_assoc] at h
    rw [get_bind, bind_of_ok (newScope_ok _ _ _ _)] at h
    rcases bind_eq_error.1 h with h | ⟨u, g₁, -, h⟩
    · obtain ⟨m, scopes, syms, ps, path, ty, dims, rest, e, hleaves, hstores, herror, rfl, rfl,
        hgrows⟩ :=
        fillFields_eq_error _ (by simp) h
      have hsize := hgrows.size
      simp only [Array.size_push] at hsize
      refine ⟨_, rfl, .object hlookup hrecord hleaves hstores herror hsize fun i hi => ?_⟩
      rw [hgrows.others (by rw [Array.size_push]; exact Nat.lt_succ_of_lt hi) (Nat.ne_of_lt hi),
        scopeAt_push, if_neg (Nat.ne_of_lt hi)]
    · rw [pure_bind, bind_of_ok (addHere_ok _ _)] at h
      obtain ⟨hparam', -, -⟩ := conclude_eq_error h
      rw [hparam] at hparam'
      cases hparam'

theorem declareFunction_eq_error {ty : Ty} (h : declareFunction id ty o g = .error stop g') :
    Fails g id typeName stop g' := by
  rcases Fails.guard rfl h with hfails | ⟨-, h⟩
  · exact hfails
  cases ha : g.memory.alloc ty .stack 1 with
  | error e =>
    rw [bind_of_error (alloc_of_error ha)] at h
    cases h
    exact .refused rfl
  | ok r =>
    rw [bind_of_ok (alloc_of_ok ha)] at h
    split at h
    · rename_i hparam
      cases h
      exact ⟨_, rfl, .parameter rfl hparam rfl ⟨ty, rfl⟩ (.inr ⟨.stack, r.1, rfl, ha⟩)⟩
    · cases h

/-- A declaration that fails has a cause, and leaves behind what goes with the cause. -/
theorem declare_fails (h : declare id typeName o g = .error stop g') :
    Fails g id typeName stop g' := by
  rcases Fails.guard rfl h with hfails | ⟨-, h⟩
  · exact hfails
  rcases bind_eq_error.1 h with h | ⟨type, g₁, htype, h⟩
  · obtain ⟨cause, hcause, rfl, rfl⟩ := lift_eq_error h
    exact .refused (declaredType_refuses hcause)
  obtain ⟨hdeclared, rfl⟩ := lift_eq_ok htype
  rcases bind_eq_error.1 h with h | ⟨dims, g₁, hdims, h⟩
  · obtain ⟨cause, hcause, rfl, rfl⟩ := lift_eq_error h
    exact .refused (declaredDims_refuses hcause)
  obtain ⟨-, rfl⟩ := lift_eq_ok hdims
  cases type with
  | object className fields =>
    rcases Fails.guard rfl h with hfails | ⟨-, h⟩
    · exact hfails
    · exact declareVariable_eq_error hdeclared h
  | value ty =>
    rcases Fails.guard rfl h with hfails | ⟨-, h⟩
    · exact hfails
    · split at h
      · exact declareFunction_eq_error h
      · exact declareVariable_eq_error hdeclared h

/-- Only a declaration that was refused at once leaves everything as it was. -/
theorem Remnant.eq_iff (hcurrent : g.current < g.scopes.size) (h : Remnant g id typeName cause g') :
    g' = g ↔ cause.halfway = false := by
  cases h with
  | nothing hcause => simp [hcause]
  | @parameter sym m =>
    refine iff_of_false (fun heq => ?_) (by simp [Fault.halfway])
    have hscopes := congrArg (fun g : Generator => (scopeAt g.scopes g.current).symbols.length) heq
    simp [scopeAt_modify, hcurrent, Scope.add] at hscopes
  | object _ _ _ _ _ hsize _ =>
    refine iff_of_false (fun heq => ?_) (by simp [Fault.halfway])
    have hscopes := congrArg (fun g : Generator => g.scopes.size) heq
    exact Nat.ne_of_gt hsize hscopes

end

end Quadlang
