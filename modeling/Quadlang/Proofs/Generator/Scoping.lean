-- Names and scopes. A class or a function is one new symbol of the program: while it is open only
-- its own directory and new ones change, and once it is closed every other name means what it meant
-- before. In a body names are those of the body and then those of the program. No name is declared
-- twice.
import Quadlang.Proofs.Generator.Checking
import Quadlang.Proofs.Generator.Neutrality

namespace Quadlang

open Source Grammar Generate Success

variable {g g₁ g₂ g' : Generator} {sym : Symbol} {name typeName : Bytes} {o : DeclOptions}
  {as : List Action}

/-! ## Finding names -/

theorem Path.eq_zero {scopes : Array Scope} {id : ScopeId} {ids : List ScopeId}
    (h : Path scopes id ids) (hzero : (scopeAt scopes 0).kind = .program)
    (hkind : (scopeAt scopes id).kind = .function) : ids = [0] := by
  cases h with
  | outermost =>
    rw [hkind] at hzero
    cases hzero
  | body => rfl
  | object hother =>
    rw [hkind] at hother
    cases hother

/-- Around the body of a function is the program. -/
theorem Generator.Filed.enclosing_of_function (h : g.Filed) (hkind : g.here.kind = .function) :
    g.enclosing = [0] := by
  rcases h.path with hpath | ⟨-, henclosing⟩
  · exact hpath.eq_zero h.zero_kind hkind
  · exact henclosing

theorem lookup_of_enclosing (h : g.enclosing = [0]) (name : Bytes) :
    g.lookup name = (g.here.find? name).or (g.outermost.find? name) := by
  unfold Generator.lookup
  rw [h, List.findSome?_cons, List.findSome?_cons, List.findSome?_nil]
  unfold Generator.here Generator.outermost
  cases (g.scope g.current).find? name with
  | some sym => rfl
  | none => cases (g.scope 0).find? name <;> rfl

theorem lookup_of_zero (h : g.current = 0) (henclosing : g.enclosing = []) (name : Bytes) :
    g.lookup name = g.outermost.find? name := by
  unfold Generator.lookup
  rw [h, henclosing, List.findSome?_singleton]
  rfl

/-! ## Names declared before -/

/-- A name of the innermost scope is not declared again, of whatever type and however. -/
theorem declare_duplicate (h : (g.here.find? name).isSome = true) :
    declare name typeName o g = .error (.fault (.duplicate name g.here.name)) g := by
  unfold declare
  rw [get_bind, if_pos h]
  rfl

theorem declareClass_duplicate (h : (g.here.find? name).isSome = true)
    (hkind : g.here.kind = .program) :
    declareClass name g = .error (.fault (.duplicate name g.here.name)) g := by
  unfold declareClass
  rw [get_bind, if_neg (not_not.2 hkind), if_pos h]
  rfl

/-- Nor are the names put aside, as soon as one of them is there. -/
theorem declareAll_duplicate {ws rest : List Waiting} {w : Waiting} {u : Unit}
    (hfirst : declareAll typeName ws g = .ok u g₁) (h : (g₁.here.find? w.name).isSome = true) :
    declareAll typeName (ws ++ w :: rest) g =
      .error (.fault (.duplicate w.name g₁.here.name)) g₁ := by
  induction ws generalizing g with
  | nil =>
    obtain ⟨-, rfl⟩ := pure_eq_ok.1 hfirst
    exact bind_of_error (declare_duplicate h)
  | cons w' ws ih =>
    obtain ⟨sym, g₂, hdeclare, hrest⟩ := bind_eq_ok.1 hfirst
    exact (bind_of_ok hdeclare).trans (ih hrest)

/-! ## Inside of a class or a function -/

theorem withParam_of_ne {p : Param} (h : sym.name ≠ name) : sym.withParam name p = sym := by
  unfold Symbol.withParam
  split
  · rw [if_neg h]
  · rfl

/-- Only the last symbol of a directory gets a parameter if no other has its name. -/
theorem addParam_add {s : Scope} {p : Param} (h : name ∉ s.symbols.map (·.name)) :
    (s.add sym).addParam name p = s.add (sym.withParam name p) := by
  have hold : s.symbols.map (Symbol.withParam name p) = s.symbols := by
    refine (List.map_congr_left fun t ht => withParam_of_ne ?_).trans (List.map_id _)
    rintro rfl
    exact h (List.mem_map_of_mem ht)
  show { s with symbols := (s.symbols ++ [sym]).map (Symbol.withParam name p) } = _
  rw [List.map_append, hold]
  rfl

/-- The symbol of a class or a function, with its directory. -/
structure Symbol.Opens (sym : Symbol) (name : Bytes) (record : Bool) (inner : ScopeId) : Prop where
  name : sym.name = name
  isRecord : sym.isRecord = record
  isFunction : sym.isFunction = !record
  scope : sym.scope = some inner

theorem scope_withParam (function : Bytes) (p : Param) (sym : Symbol) :
    (sym.withParam function p).scope = sym.scope := by
  unfold Symbol.withParam
  split
  · split <;> rfl
  · rfl

theorem Symbol.Opens.withParam {record : Bool} {inner : ScopeId} (h : sym.Opens name record inner)
    (function : Bytes) (p : Param) : (sym.withParam function p).Opens name record inner where
  name := by rw [name_withParam, h.name]
  isRecord := by rw [isRecord_withParam, h.isRecord]
  isFunction := by rw [isFunction_withParam, h.isFunction]
  scope := by rw [scope_withParam, h.scope]

/-- From one state to another a class or a function of a new name was opened, and the directory of
what is open is the first new one. -/
structure Amid (g : Generator) (inner : Option (Callee × ScopeId)) (name : Bytes) (record : Bool)
    (g' : Generator) : Prop where
  current : g'.current = g.scopes.size
  enclosing : g'.enclosing = [0]
  function : g'.function = inner
  callee : ∀ f, inner = some (f, g.scopes.size) → f.name = name
  fresh : name ∉ g.outermost.symbols.map (·.name)
  nonempty : 0 < g.scopes.size
  size : g.scopes.size < g'.scopes.size
  outermost : ∃ sym : Symbol, sym.Opens name record g.scopes.size ∧
    scopeAt g'.scopes 0 = (scopeAt g.scopes 0).add sym
  others : ∀ id < g.scopes.size, id ≠ 0 → scopeAt g'.scopes id = scopeAt g.scopes id

section Amid

variable {inner : Option (Callee × ScopeId)} {record : Bool}

section

variable (h : Amid g inner name record g₁)

include h

theorem Amid.here (hcurrent : g₂.current = g₁.current)
    (henclosing : g₂.enclosing = g₁.enclosing) (hfunction : g₂.function = g₁.function)
    (hsize : g₁.scopes.size ≤ g₂.scopes.size)
    (hothers : ∀ id < g₁.scopes.size, id ≠ g₁.current →
      scopeAt g₂.scopes id = scopeAt g₁.scopes id) :
    Amid g inner name record g₂ := by
  have hold : ∀ id < g.scopes.size, scopeAt g₂.scopes id = scopeAt g₁.scopes id := fun id hid =>
    hothers id (Nat.lt_trans hid h.size) (h.current ▸ Nat.ne_of_lt hid)
  refine { h with
    current := hcurrent.trans h.current
    enclosing := henclosing.trans h.enclosing
    function := hfunction.trans h.function
    size := Nat.lt_of_lt_of_le h.size hsize
    outermost := ?_
    others := fun id hid hne => (hold id hid).trans (h.others id hid hne) }
  rw [hold 0 h.nonempty]
  exact h.outermost

/-- A parameter gets known to the function that is open, and to no other. -/
theorem Amid.param {callee : Callee} {p : Param} (hf : g₁.function = some (callee, g₁.current)) :
    Amid g inner name record { g₁ with
      scopes := g₁.scopes.modify 0 (·.addParam callee.name p) } := by
  obtain ⟨sym, hopens, houter⟩ := h.outermost
  have hcallee : callee.name = name := h.callee callee (by rw [← h.function, hf, h.current])
  refine { h with
    size := by simpa using h.size
    outermost := ⟨sym.withParam callee.name p, hopens.withParam .., ?_⟩
    others := fun id hid hne => ?_ }
  · rw [scopeAt_modify, if_pos ⟨rfl, Nat.lt_trans h.nonempty h.size⟩, houter, addParam_add]
    exact hcallee ▸ h.fresh
  · rw [scopeAt_modify, if_neg fun heq => hne heq.1]
    exact h.others id hid hne

theorem Amid.modify {m : Memory} {f : Scope → Scope} :
    Amid g inner name record { g₁ with memory := m, scopes := g₁.scopes.modify g₁.current f } :=
  h.here rfl rfl rfl (by simp) fun id _ hne => by rw [scopeAt_modify, if_neg fun heq => hne heq.1]

theorem Amid.declare {id : Bytes} (ho : o.isFunction = false)
    (henter : o.enter = false) (hok : declare id typeName o g₁ = .ok sym g₂) :
    Amid g inner name record g₂ := by
  have hcurrent : g₁.current < g₁.scopes.size := h.current ▸ h.size
  cases (declare_succeeds hok).2 with
  | field => exact h.modify
  | stored => exact h.modify
  | param _ _ _ _ _ hf => exact h.modify.param hf
  | function _ hfunction =>
    rw [ho] at hfunction
    cases hfunction
  | @object c m scopes syms ps _ _ _ _ _ _ _ hgrows =>
    rw [Generator.entering, if_neg (by simp [henter])]
    have hkept := hgrows.instance rfl hcurrent
    refine h.here rfl rfl rfl (by simpa using hkept.size) fun id hid hne => ?_
    rw [scopeAt_modify, if_neg fun heq => hne heq.1, hkept.others hid hne]

theorem Amid.declareAll {ws : List Waiting} {u : Unit}
    (hok : declareAll typeName ws g₁ = .ok u g₂) : Amid g inner name record g₂ := by
  induction ws generalizing g₁ with
  | nil =>
    obtain ⟨-, rfl⟩ := pure_eq_ok.1 hok
    exact h
  | cons w ws ih =>
    obtain ⟨sym, g₃, hdeclare, hrest⟩ := bind_eq_ok.1 hok
    exact ih (h.declare rfl rfl hdeclare) hrest

theorem Amid.perform {a : Action} {r : Reply}
    (ha : a.turns = false) (hok : perform a g₁ = .ok r g₂) : Amid g inner name record g₂ := by
  cases hdeclares : a.declares with
  | false =>
    obtain ⟨m, halike⟩ := alike_perform hdeclares g₁
    rw [after_of_ok hok] at halike
    exact h.here halike.current halike.enclosing halike.function (by simp [halike.scopes])
      fun id _ _ => by rw [halike.scopes]
  | true =>
    cases a with
    | leaveScope | endFunction | declareClass => cases ha
    | start n =>
      cases hok
      have hnamed := @Amid.modify g g₁ name inner record h g₁.memory fun scope =>
        { scope with name := n }
      exact hnamed.here rfl rfl rfl (Nat.le_refl _) fun _ _ _ => rfl
    | declare id typeName o =>
      obtain ⟨sym, _, hdeclare, hpure⟩ := bind_eq_ok.1 hok
      obtain ⟨-, rfl⟩ := pure_eq_ok.1 hpure
      obtain ⟨hfunction, henter⟩ : o.isFunction = false ∧ o.enter = false := by
        simpa [Action.turns, Action.enters, Action.leaves] using ha
      exact h.declare hfunction henter hdeclare
    | declarePending typeName =>
      obtain ⟨u, _, hdeclare, hpure⟩ := bind_eq_ok.1 hok
      obtain ⟨-, rfl⟩ := pure_eq_ok.1 hpure
      have hcleared : Amid g inner name record { g₁ with waiting := [] } :=
        h.here rfl rfl rfl (Nat.le_refl _) fun _ _ _ => rfl
      exact hcleared.declareAll hdeclare
    | _ => cases hdeclares

theorem Amid.performs (hsteady : Steady as) (hp : Performs as g₁ g₂) :
    Amid g inner name record g₂ := by
  induction as generalizing g₁ with
  | nil =>
    obtain rfl := performs_nil.1 hp
    exact h
  | cons a as ih =>
    obtain ⟨n, r, g₃, hok, hrest⟩ := performs_cons hp
    obtain ⟨ha, has⟩ := Steady.cons.1 hsteady
    have hline : Amid g inner name record (g₁.onLine n) :=
      h.here rfl rfl rfl (Nat.le_refl _) fun _ _ _ => rfl
    exact ih (hline.perform ha hok) has hrest

end

/-- A class or a function is opened in the program. -/
theorem Amid.opened {s : Scope} (new : Symbol) (hfiled : g.Filed) (hkind : g.here.kind = .program)
    (hfind : g.here.find? name = none)
    (hnew : new.Opens name record g.scopes.size)
    (hscopes : g₁.scopes = (g.scopes.push s).modify g.current (·.add new))
    (hcurrent : g₁.current = g.scopes.size) (henclosing : g₁.enclosing = g.current :: g.enclosing)
    (hcallee : ∀ f, g₁.function = some (f, g.scopes.size) → f.name = name) :
    Amid g g₁.function name record g₁ := by
  have hzero : g.current = 0 := (hfiled.outermost _ hfiled.current).1 hkind
  have hopen : g₁.scopes = openScope g.scopes s new := by rw [hscopes, hzero]; rfl
  have hhere : g.outermost = g.here := by rw [Generator.here, hzero]; rfl
  refine ⟨hcurrent, ?_, rfl, hcallee, ?_, hfiled.nonempty, ?_, ⟨new, hnew, ?_⟩,
    fun id hid hne => ?_⟩
  · rw [henclosing, hzero, hfiled.enclosing_of_zero hzero]
  · exact hhere ▸ name_not_mem_of_find? hfind
  · simp [hscopes]
  · rw [hopen, openScope_outermost hfiled.nonempty]
  · rw [hopen, openScope_kept hfiled.nonempty hne hid]

end Amid

/-! ## Classes and functions -/

/-- The program has one symbol more, and all else that was declared is as it was. -/
structure Adds (g : Generator) (sym : Symbol) (g' : Generator) : Prop where
  current : g'.current = g.current
  enclosing : g'.enclosing = g.enclosing
  symbols : g'.outermost.symbols = g.outermost.symbols ++ [sym]
  others : ∀ id < g.scopes.size, id ≠ 0 → g'.scope id = g.scope id
  lookup : ∀ name, g'.lookup name = if name = sym.name then some sym else g.lookup name

theorem find?_add {s : Scope} (h : sym.name ∉ s.symbols.map (·.name)) :
    (s.add sym).find? name = if name = sym.name then some sym else s.find? name := by
  unfold Scope.find? Scope.add
  rw [List.find?_append]
  split
  · rename_i heq
    subst heq
    rw [List.find?_eq_none.2 fun t ht heq => h (List.mem_map.2 ⟨t, ht, by simpa using heq⟩)]
    simp
  · rename_i hne
    simp [Ne.symm hne]

theorem Amid.closed {inner : Option (Callee × ScopeId)} {record : Bool}
    (h : Amid g inner name record g₁)
    (hfiled : g.Filed) (hkind : g.here.kind = .program) (hscopes : g'.scopes = g₁.scopes)
    (hplace : g₁.enclosing = g'.current :: g'.enclosing) :
    ∃ sym : Symbol, sym.Opens name record g.scopes.size ∧ Adds g sym g' := by
  obtain ⟨sym, hsym, houter⟩ := h.outermost
  have hzero : g.current = 0 := (hfiled.outermost _ hfiled.current).1 hkind
  have hnil := hfiled.enclosing_of_zero hzero
  obtain ⟨hcurrent, henclosing⟩ : g'.current = 0 ∧ g'.enclosing = [] := by
    simpa [h.enclosing, eq_comm] using hplace
  have hadd : g'.outermost = g.outermost.add sym := (congrArg (scopeAt · 0) hscopes).trans houter
  refine ⟨sym, hsym, by rw [hcurrent, hzero], by rw [henclosing,
    hnil], by rw [hadd]; rfl, ?_, fun n => ?_⟩
  · exact fun id hid hne => (congrArg (scopeAt · id) hscopes).trans (h.others id hid hne)
  · rw [lookup_of_zero hcurrent henclosing, lookup_of_zero hzero hnil, hadd]
    exact find?_add (hsym.name ▸ h.fresh)

theorem filed_performs (h : g.Filed) (hp : Performs as g g') : g'.Filed := by
  induction as generalizing g with
  | nil => exact performs_nil.1 hp ▸ h
  | cons a as ih =>
    obtain ⟨n, r, g₁, hok, hrest⟩ := performs_cons hp
    have hline : (g.onLine n).Filed := h.of_same rfl rfl rfl rfl
    exact ih (after_of_ok hok ▸ filed_perform a hline) hrest

theorem class_adds {fields : List Variables} (hfiled : g.Filed)
    (hp : Performs (Part.actions (.record name fields)) g g') :
    ∃ sym : Symbol, sym.Opens name true g.scopes.size ∧ Adds g sym g' := by
  obtain ⟨g₂, hp, hclose⟩ := performs_append hp
  obtain ⟨n, r, _, hopen, hfields⟩ := performs_cons hp
  obtain ⟨n', r', hclose⟩ := performs_singleton hclose
  obtain ⟨sym, g₁, hdeclare, hpure⟩ := bind_eq_ok.1 hopen
  obtain ⟨-, rfl⟩ := pure_eq_ok.1 hpure
  obtain ⟨hkind, hfind, hg₁⟩ := declareClass_eq_ok hdeclare
  obtain ⟨u, _, hleave, hpure⟩ := bind_eq_ok.1 hclose
  obtain ⟨-, rfl⟩ := pure_eq_ok.1 hpure
  obtain ⟨id, rest, henclosing, rfl⟩ := leaveScope_eq_ok hleave
  -- the body of a function that is open somewhere is an older directory
  have hcallee : ∀ f, g.function = some (f, g.scopes.size) → f.name = name := fun f hf =>
    absurd (lt_of_kind (by rw [hfiled.function f _ hf]; simp)) (Nat.lt_irrefl _)
  have hamid : Amid g _ name true g₁ := .opened (classSymbol name g.scopes.size) hfiled hkind hfind
    ⟨rfl, rfl, rfl, rfl⟩ (congrArg (·.scopes) hg₁) (congrArg (·.current) hg₁)
    (congrArg (·.enclosing) hg₁)
    fun f hf => hcallee f ((congrArg (·.function) hg₁).symm.trans hf)
  exact (hamid.performs (.flatMap Variables.steady) hfields).closed hfiled hkind rfl henclosing

/-- The header of a function is open, and some of its parameters and of its body may be behind
it. -/
theorem function_opens {f : Function} (hfiled : g.Filed)
    (hp : Performs (Action.declareFunction f.name f.typeName :: as) g g') (hsteady : Steady as) :
    g.here.kind = .program ∧ ∃ callee, Amid g (some (callee, g.scopes.size)) f.name false g' := by
  obtain ⟨n, r, _, hopen, hrest⟩ := performs_cons hp
  obtain ⟨sym, g₁, hdeclare, hpure⟩ := bind_eq_ok.1 hopen
  obtain ⟨-, rfl⟩ := pure_eq_ok.1 hpure
  obtain ⟨ty, a, m, -, hkind, hfind, -, hg₁⟩ := declare_function hdeclare
  have hfunction : g₁.function = some (⟨f.name, ty, a, g.quads.size⟩, g.scopes.size) :=
    congrArg (·.function) hg₁
  have hamid : Amid g _ f.name false g₁ :=
    .opened (functionSymbol f.name ty a g.quads.size g.scopes.size)
    hfiled hkind hfind ⟨rfl, rfl, rfl, rfl⟩ (congrArg (·.scopes) hg₁) (congrArg (·.current) hg₁)
    (congrArg (·.enclosing) hg₁) fun callee hf => by
      cases hfunction.symm.trans hf
      rfl
  rw [hfunction] at hamid
  exact ⟨hkind, _, hamid.performs hsteady hrest⟩

theorem Source.Function.steady (f : Function) :
    Steady (f.params.map Parameter.action ++ f.body.actions) :=
  Steady.append.2 ⟨.map fun _ => rfl, f.body.steady⟩

theorem function_adds {f : Function} (hfiled : g.Filed) (hp : Performs f.actions g g') :
    ∃ sym : Symbol, sym.Opens f.name false g.scopes.size ∧ Adds g sym g' := by
  obtain ⟨g₂, hbody, hclose⟩ := performs_append hp
  obtain ⟨n', r', hclose⟩ := performs_singleton hclose
  obtain ⟨u, _, hend, hpure⟩ := bind_eq_ok.1 hclose
  obtain ⟨-, rfl⟩ := pure_eq_ok.1 hpure
  obtain ⟨callee, id, rest, -, henclosing, rfl⟩ := endFunction_eq_ok hend
  obtain ⟨hkind, callee, hamid⟩ := function_opens hfiled hbody f.steady
  exact hamid.closed hfiled hkind rfl henclosing

/-- In the body of a function, from its header on, a name is one of the body or else of the
program. -/
theorem lookup_of_body {f : Function} {bs : List Action} (hfiled : g.Filed)
    (hactions : f.params.map Parameter.action ++ f.body.actions = as ++ bs)
    (hp : Performs (Action.declareFunction f.name f.typeName :: as) g g₁) :
    g₁.here.kind = .function ∧
      ∀ name, g₁.lookup name = (g₁.here.find? name).or (g₁.outermost.find? name) := by
  have hsteady : Steady as := (Steady.append.1 (hactions ▸ f.steady)).1
  obtain ⟨-, callee, hamid⟩ := function_opens hfiled hp hsteady
  refine ⟨?_, lookup_of_enclosing hamid.enclosing⟩
  show (scopeAt g₁.scopes g₁.current).kind = .function
  rw [hamid.current]
  exact (filed_performs hfiled hp).function callee _ hamid.function

/-- Scopes after any actions, whichever of them failed. No scope holds two symbols of one name, and
a name of the innermost scope is not declared there again. In the body of a function a name stands
for the body's own symbol, or else for that of the program. Reading a class or a function and
performing its actions adds its symbol to the program, and nothing else that was declared changes or
is hidden. -/
theorem scopes_disciplined {g : Generator} (hreached : g.Reached) :
    (∀ id, ((g.scope id).symbols.map (·.name)).Nodup) ∧
    (∀ name, (g.here.find? name).isSome = true →
      (Fault.duplicate name g.here.name).category = some .duplicateDeclaration ∧
      (∀ typeName o, perform (.declare name typeName o) g =
        .error (.fault (.duplicate name g.here.name)) g) ∧
      (g.here.kind = .program →
        perform (.declareClass name) g = .error (.fault (.duplicate name g.here.name)) g)) ∧
    (∀ typeName ws w rest g₁, g.waiting.reverse = ws ++ w :: rest →
      declareAll typeName ws { g with waiting := [] } = .ok () g₁ →
      (g₁.here.find? w.name).isSome = true →
      perform (.declarePending typeName) g = .error (.fault (.duplicate w.name g₁.here.name)) g₁) ∧
    (g.here.kind = .function →
      ∀ name, g.lookup name = (g.here.find? name).or (g.outermost.find? name)) ∧
    (∀ bound c c' g', c.next.is (ascii "class") → Generates (classDeclaration bound) c g c' g' →
      ∃ name fields ts sym, Part.Spelled (.record name fields) ts ∧ c.rest = ts ++ c'.rest ∧
        sym.name = name ∧ sym.isRecord = true ∧ Adds g sym g') ∧
    ∀ bound c c' g', c.next.is (ascii "func") → Generates (functionDeclaration bound) c g c' g' →
      ∃ f ts sym, Function.Spelled f ts ∧ c.rest = ts ++ c'.rest ∧
        sym.name = f.name ∧ sym.isFunction = true ∧ Adds g sym g' ∧
        ∀ as bs g₁, f.params.map Parameter.action ++ f.body.actions = as ++ bs →
          Performs (Action.declareFunction f.name f.typeName :: as) g g₁ →
          g₁.here.kind = .function ∧
            ∀ name, g₁.lookup name = (g₁.here.find? name).or (g₁.outermost.find? name) := by
  have hfiled := hreached.filed
  refine ⟨hfiled.names, fun name hname => ⟨rfl, fun typeName o => ?_, fun hkind => ?_⟩, ?_,
    ?_, ?_, ?_⟩
  · exact bind_of_error (declare_duplicate hname)
  · exact bind_of_error (declareClass_duplicate hname hkind)
  · intro typeName ws w rest g₁ hwaiting hfirst hname
    refine bind_of_error ?_
    show declareAll typeName g.waiting.reverse { g with waiting := [] } = _
    rw [hwaiting]
    exact declareAll_duplicate hfirst hname
  · exact fun hkind => lookup_of_enclosing (hfiled.enclosing_of_function hkind)
  · intro bound c c' g' hword h
    obtain ⟨ts, _, ⟨⟨name, fields⟩, hspelled, rfl⟩, hrest, hp⟩ :=
      h.leads (leads_classDeclaration (Nat.zero_le _) hword)
    obtain ⟨sym, hopens, hadds⟩ := class_adds hfiled hp
    exact ⟨name, fields, ts, sym, hspelled, hrest, hopens.name, hopens.isRecord, hadds⟩
  · intro bound c c' g' hword h
    obtain ⟨ts, _, ⟨f, hspelled, rfl⟩, hrest, hp⟩ :=
      h.leads (leads_functionDeclaration (k := 0) (Nat.zero_le _) hword)
    obtain ⟨sym, hopens, hadds⟩ := function_adds hfiled hp
    cases hspelled with
    | function hspelled =>
      exact ⟨f, ts, sym, hspelled, hrest, hopens.name, hopens.isFunction, hadds,
        fun as bs g₁ hactions =>
        lookup_of_body hfiled hactions⟩

namespace Shadowing

open Nested

/-- A class whose fields have names of the program. -/
def record : Cursor := before "class c \x7b int v, f; \x7d;"

/-- A function whose parameter and variable have names of the program. -/
def function : Cursor := before "func int h(int v) \x7b int f; f = v; return f; \x7d"

/-- An array of the program has its name for itself, and a class and a function that use names of
the program for their own add nothing but themselves, in the middle of a statement too. -/
theorem shadowing_disciplined : state.Reached ∧ (state.here.find? (ascii "v")).isSome = true ∧
    (∀ typeName o, perform (.declare (ascii "v") typeName o) state =
      .error (.fault (.duplicate (ascii "v") state.here.name)) state) ∧
    (∃ c' g' sym, Generates (classDeclaration 60) record state c' g' ∧ sym.isRecord = true ∧
      Adds state sym g') ∧
    ∃ c' g' sym, Generates (functionDeclaration 60) function state c' g' ∧ sym.isFunction = true ∧
      Adds state sym g' := by
  have hruns : (state.here.find? (ascii "v")).isSome = true ∧ record.next.is (ascii "class") ∧
      record.events = [] ∧ (outcome? (classDeclaration 60) record).isSome ∧
      function.next.is (ascii "func") ∧ function.events = [] ∧
      (outcome? (functionDeclaration 60) function).isSome := by
    decide +kernel
  obtain ⟨hname, hclass, hrecord, hrecord', hfunc, hfunction, hfunction'⟩ := hruns
  have hreached : state.Reached := by
    obtain ⟨line, h⟩ := generator_ofText Layout.standard _
    exact ⟨Layout.standard, fired _ _, line, h⟩
  obtain ⟨⟨c₁, g₁⟩, h₁⟩ := Option.isSome_iff_exists.1 hrecord'
  obtain ⟨⟨c₂, g₂⟩, h₂⟩ := Option.isSome_iff_exists.1 hfunction'
  have hgenerates := generates_of_outcome hrecord h₁
  have hgenerates' := generates_of_outcome hfunction h₂
  obtain ⟨-, hduplicate, -, -, hclasses, hfunctions⟩ := scopes_disciplined hreached
  obtain ⟨-, -, -, sym, -, -, -, hsym, hadds⟩ := hclasses 60 record c₁ g₁ hclass hgenerates
  obtain ⟨-, -, sym', -, -, -, hsym', hadds', -⟩ := hfunctions 60 function c₂ g₂ hfunc hgenerates'
  exact ⟨hreached, hname, (hduplicate _ hname).2.1, ⟨c₁, g₁, sym, hgenerates, hsym, hadds⟩,
    c₂, g₂, sym', hgenerates', hsym', hadds'⟩

end Shadowing

end Quadlang
