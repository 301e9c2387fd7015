-- What names stand for in the end. Outside of functions and classes the program only gets more
-- symbols, and every other directory stays as it is. So what a name led to in a body, and the
-- function that it called with its parameters, is what it leads to when all is declared.
import Quadlang.Proofs.Generator.Reach
import Quadlang.Proofs.Generator.Scoping

namespace Quadlang

open Source Generate Success

variable {g g₁ g₂ g' : Generator} {sym s : Symbol} {name typeName : Bytes} {members : List Bytes}
  {o : DeclOptions} {as : List Action} {names names' : Names} {function : Option Bytes} {f : Callee}

/-! ## Names of a body -/

def Generator.directory? (g : Generator) (function : Bytes) : Option ScopeId :=
  (g.outermost.find? function).bind (·.scope)

/-- The symbol that a body has for itself under a name. The main body has none. -/
def Generator.own? (g : Generator) (function : Option Bytes) (name : Bytes) : Option Symbol :=
  (function.bind g.directory?).bind fun id => (g.scope id).find? name

/-- What names stand for in the body of a function, or in the main body: first the symbols of the
function, then those of the program. -/
def Generator.namesIn (g : Generator) (function : Option Bytes) : Names where
  lookup name := (g.own? function name).or (g.outermost.find? name)
  scope := g.scope
  params := g.paramsOf

theorem namesIn_none (hcurrent : g.current = 0) (henclosing : g.enclosing = []) :
    g.namesIn none = g.names := by
  unfold Generator.namesIn Generator.names
  congr 1
  funext name
  rw [lookup_of_zero hcurrent henclosing]
  rfl

/-- The names of a body are those that it was generated under. -/
theorem namesIn_some {function : Bytes} (hscopes : g'.scopes = g.scopes)
    (henclosing : g.enclosing = [0])
    (hdirectory : g.directory? function = some g.current) :
    g'.namesIn (some function) = g.names := by
  have hscope : g'.scope = g.scope := by
    unfold Generator.scope
    rw [hscopes]
  have houter : g'.outermost = g.outermost := congrFun hscope 0
  unfold Generator.namesIn Generator.names Generator.paramsOf Generator.own? Generator.directory?
  rw [hscope, houter]
  congr 1
  funext name
  rw [lookup_of_enclosing henclosing]
  unfold Generator.directory? at hdirectory
  simp only [Option.bind_some, hdirectory]
  rfl

/-- What some names lead to, others lead to as well. -/
structure Names.Within (names names' : Names) : Prop where
  reach : ∀ {name members sym}, names.reach? name members = some sym →
    names'.reach? name members = some sym
  callee : ∀ {name f}, names.callee? name = some f → names'.callee? name = some f
  params : ∀ {name f}, names.callee? name = some f → names'.params f = names.params f

theorem Names.Within.refl (names : Names) : names.Within names := ⟨id, id, fun _ => rfl⟩

theorem Names.Within.trans {names'' : Names} (h : names.Within names')
    (h' : names'.Within names'') : names.Within names'' :=
  ⟨fun hreach => h'.reach (h.reach hreach), fun hcallee => h'.callee (h.callee hcallee),
    fun hcallee => (h'.params (h.callee hcallee)).trans (h.params hcallee)⟩

theorem Names.Within.finds {p : Placement} (h : names.Within names') (hp : names.Finds p) :
    names'.Finds p := by
  obtain ⟨name, members, sym, hpath, hreach, hrest⟩ := hp
  exact ⟨name, members, sym, hpath, h.reach hreach, hrest⟩

/-! ## What lasts -/

/-- The program gets more symbols, and every other directory is as it was. -/
structure Lasting (scopes scopes' : Array Scope) : Prop where
  symbols : (scopeAt scopes 0).symbols <+: (scopeAt scopes' 0).symbols
  others : ∀ id, (scopeAt scopes id).kind ≠ .program → scopeAt scopes' id = scopeAt scopes id

section

variable {scopes scopes₁ scopes' : Array Scope} {id inner : ScopeId}

theorem Lasting.refl (scopes : Array Scope) : Lasting scopes scopes :=
  ⟨List.prefix_refl _, fun _ _ => rfl⟩

theorem Lasting.trans (h : Lasting scopes scopes₁) (h' : Lasting scopes₁ scopes') :
    Lasting scopes scopes' := by
  refine ⟨h.symbols.trans h'.symbols, fun id hid => ?_⟩
  have hfirst := h.others id hid
  rw [h'.others id (by rwa [hfirst]), hfirst]

theorem Grows.lasting {syms : List Symbol} (h : Grows scopes 0 syms scopes')
    (hzero : (scopeAt scopes 0).kind = .program) : Lasting scopes scopes' := by
  refine ⟨⟨syms, by rw [h.here]⟩, fun id hid => h.others (lt_of_kind hid) ?_⟩
  rintro rfl
  exact hid hzero

theorem Adds.lasting (h : Adds g sym g') (hfiled : g.Filed) : Lasting g.scopes g'.scopes := by
  refine ⟨⟨[sym], h.symbols.symm⟩, fun id hid => h.others id (lt_of_kind hid) ?_⟩
  rintro rfl
  exact hid hfiled.zero_kind

/-- What is not a function leads to a class or to an instance. -/
theorem Symbol.Filed.inner_kind (h : sym.Filed scopes id) (hfunction : sym.isFunction = false)
    (hscope : sym.scope = some inner) : (scopeAt scopes inner).kind ≠ .program := by
  cases h with
  | function _ _ _ hkind => simp [Symbol.isFunction, hkind] at hfunction
  | record _ _ hfields => simp [hfields inner hscope]
  | field _ hnone => simp [hnone] at hscope
  | stored _ _ _ hnone => simp [hnone] at hscope
  | object _ _ inner' _ hinner _ _ hkind =>
    obtain rfl : inner' = inner := Option.some.inj (hinner.symm.trans hscope)
    simp [hkind]

end

/-- A way through instances lasts. -/
theorem Lasting.follow? (h : Lasting g.scopes g'.scopes) (hfiled : g.Filed) {id : ScopeId}
    (hsym : sym.Filed g.scopes id) (hfollow : (g.namesIn function).follow? sym members = some s) :
    (g'.namesIn function).follow? sym members = some s := by
  induction members generalizing sym id with
  | nil => exact hfollow
  | cons m ms ih =>
    obtain ⟨sym', hmember, hrest⟩ := Option.bind_eq_some_iff.1 hfollow
    obtain ⟨hfunction, inner, hscope, hmem, -⟩ := Names.member?_eq_some hmember
    have hsame : g'.scope inner = g.scope inner := h.others inner (hsym.inner_kind hfunction hscope)
    have hmember' : (g'.namesIn function).member? sym m = some sym' := by
      rw [← hmember]
      unfold Names.member?
      rw [hscope, Option.bind_some, Option.bind_some]
      show (if _ then _ else (g'.scope inner).find? m) = _
      rw [hsame]
      rfl
    exact Option.bind_eq_some_iff.2 ⟨sym', hmember', ih (hfiled.symbols inner sym' hmem) hrest⟩

theorem Lasting.outermost (h : Lasting g.scopes g'.scopes)
    (hfind : g.outermost.find? name = some sym) :
    g'.outermost.find? name = some sym := h.symbols.find?_eq_some hfind

/-- The function has a directory. -/
def Generator.HasBody (g : Generator) (function : Bytes) : Prop :=
  ∃ id, g.directory? function = some id ∧ (g.scope id).kind = .function

section

variable (h : Lasting g.scopes g'.scopes)

include h

theorem Lasting.directory {function : Bytes} {id : ScopeId}
    (hdirectory : g.directory? function = some id) (hkind : (g.scope id).kind = .function) :
    g'.directory? function = some id ∧ g'.scope id = g.scope id := by
  obtain ⟨sym, hfind, hscope⟩ := Option.bind_eq_some_iff.1 hdirectory
  have hother : (scopeAt g.scopes id).kind ≠ .program := by
    show (g.scope id).kind ≠ .program
    simp [hkind]
  exact ⟨Option.bind_eq_some_iff.2 ⟨sym, h.outermost hfind, hscope⟩, h.others id hother⟩

theorem Lasting.hasBody {function : Bytes} (hbody : g.HasBody function) : g'.HasBody function := by
  obtain ⟨id, hdirectory, hkind⟩ := hbody
  obtain ⟨hdirectory', hsame⟩ := h.directory hdirectory hkind
  exact ⟨id, hdirectory', by rw [hsame, hkind]⟩

theorem Lasting.own? (hbody : ∀ f ∈ function, g.HasBody f) (name : Bytes) :
    g'.own? function name = g.own? function name := by
  cases function with
  | none => rfl
  | some f =>
    obtain ⟨id, hdirectory, hkind⟩ := hbody f rfl
    obtain ⟨hdirectory', hsame⟩ := h.directory hdirectory hkind
    unfold Generator.own?
    rw [Option.bind_some, Option.bind_some, hdirectory, hdirectory', Option.bind_some,
      Option.bind_some, hsame]

theorem Lasting.lookup (hbody : ∀ f ∈ function, g.HasBody f)
    (hlookup : (g.namesIn function).lookup name = some sym) :
    (g'.namesIn function).lookup name = some sym := by
  have hown := h.own? hbody name
  rcases Option.or_eq_some_iff.1 hlookup with hfind | ⟨hnone, hfind⟩
  · exact Option.or_eq_some_iff.2 (.inl (hown.trans hfind))
  · exact Option.or_eq_some_iff.2 (.inr ⟨hown.trans hnone, h.outermost hfind⟩)

end

/-- A name of a body stands for a symbol of the function's directory or of the program. -/
theorem Generator.Filed.lookup_cases (hfiled : g.Filed) (hbody : ∀ f ∈ function, g.HasBody f)
    (hlookup : (g.namesIn function).lookup name = some sym) :
    sym.name = name ∧ ((∃ id, id ≠ 0 ∧ sym.Filed g.scopes id) ∨
      g.outermost.find? name = some sym) := by
  rcases Option.or_eq_some_iff.1 hlookup with hown | ⟨-, hfind⟩
  · obtain ⟨id, hid, hfind⟩ := Option.bind_eq_some_iff.1 hown
    obtain ⟨hmem, hname⟩ := Scope.mem_of_find? hfind
    refine ⟨hname, .inl ⟨id, ?_, hfiled.symbols id sym hmem⟩⟩
    rintro rfl
    obtain ⟨f, hf, hdirectory⟩ := Option.bind_eq_some_iff.1 hid
    obtain ⟨id', hdirectory', hkind⟩ := hbody f hf
    obtain rfl := Option.some.inj (hdirectory.symm.trans hdirectory')
    have hzero : (g.scope 0).kind = .program := hfiled.zero_kind
    rw [hzero] at hkind
    cases hkind
  · exact ⟨(Scope.mem_of_find? hfind).2, .inr hfind⟩

/-- What the names of a body lead to lasts. -/
theorem Lasting.within (h : Lasting g.scopes g'.scopes) (hfiled : g.Filed)
    (hbody : ∀ f ∈ function, g.HasBody f) : (g.namesIn function).Within (g'.namesIn function) := by
  refine ⟨?_, ?_, ?_⟩
  · intro name members sym hreach
    obtain ⟨sym₀, hlookup, hfollow⟩ := Option.bind_eq_some_iff.1 hreach
    refine Option.bind_eq_some_iff.2 ⟨sym₀, h.lookup hbody hlookup, ?_⟩
    obtain ⟨-, ⟨id, -, hsym⟩ | hfind⟩ := hfiled.lookup_cases hbody hlookup
    · exact h.follow? hfiled hsym hfollow
    · exact h.follow? hfiled (hfiled.symbols 0 sym₀ (Scope.mem_of_find? hfind).1) hfollow
  · intro name f hcallee
    obtain ⟨sym, hlookup, hsym⟩ := Option.bind_eq_some_iff.1 hcallee
    exact Option.bind_eq_some_iff.2 ⟨sym, h.lookup hbody hlookup, hsym⟩
  · intro name f hcallee
    obtain ⟨sym, hlookup, hsym⟩ := Option.bind_eq_some_iff.1 hcallee
    obtain ⟨hname, ⟨id, hne, hfiled'⟩ | hfind⟩ := hfiled.lookup_cases hbody hlookup
    · -- no directory but that of the program has functions
      unfold Symbol.callee? at hsym
      split at hsym
      · rename_i hkind
        exact absurd (hfiled'.of_function hkind).1 hne
      · cases hsym
    · show (g'.outermost.find? f.name).elim [] _ = (g.outermost.find? f.name).elim [] _
      rw [name_of_callee? hsym, hname, hfind, h.outermost hfind]

/-! ## Functions -/

/-- A function that is behind its declarations has a body, and its names are those of the body. -/
theorem function_names {f : Function} (g' : Generator) (hfiled : g.Filed)
    (hp : Performs (Action.declareFunction f.name f.typeName :: as) g g₁) (hsteady : Steady as)
    (hscopes : g'.scopes = g₁.scopes) :
    g'.HasBody f.name ∧ g'.namesIn (some f.name) = g₁.names := by
  obtain ⟨-, callee, hamid⟩ := function_opens hfiled hp hsteady
  obtain ⟨sym, hopens, houter⟩ := hamid.outermost
  have hfind : g₁.outermost.find? f.name = some sym := by
    show (scopeAt g₁.scopes 0).find? f.name = some sym
    rw [houter, find?_add (hopens.name ▸ hamid.fresh), if_pos hopens.name.symm]
  have hdirectory : g₁.directory? f.name = some g₁.current := by
    unfold Generator.directory?
    rw [hfind, Option.bind_some, hopens.scope, hamid.current]
  have hkind : (scopeAt g₁.scopes g.scopes.size).kind = .function :=
    (filed_performs hfiled hp).function callee _ hamid.function
  refine ⟨?_, namesIn_some hscopes hamid.enclosing hdirectory⟩
  have hlasts : Lasting g₁.scopes g'.scopes := hscopes ▸ .refl _
  exact hlasts.hasBody ⟨g₁.current, hdirectory, by rw [hamid.current]; exact hkind⟩

end Quadlang
