-- What names reach in a world: a reference ends at a placement of the program or of the open
-- function, a call at a declared function, and a type at a complete class.
import Quadlang.Proofs.Generator.World

namespace Quadlang

open Source Generate Success

variable {s sym : Symbol} {id name : Bytes} {U : ScopeId → Prop} {syms : List Symbol}
  {ps : List Placement} {names : Names} {members : List Bytes} {a : Addr} {g : Generator}
  {d : Declared} {m : Memory} {current : ScopeId}

/-! ## References -/

theorem Leads.of_mem {scope : ScopeId → Scope} (h : Leads scope U syms ps) (hmem : sym ∈ syms) :
    (∃ a, sym.kind = .variable (some a) ∧ sym.scope = none ∧
        (⟨[sym.name], sym.ty, sym.dims, a⟩ : Placement) ∈ ps) ∨
      (∃ inner qs, sym.kind = .variable none ∧ sym.scope = some inner ∧
        (∀ s ∈ (scope inner).symbols, s.isRecord = false) ∧
        Leads scope U (scope inner).symbols qs ∧ ∀ q ∈ qs, q.under sym.name ∈ ps) ∨
      (sym.isFunction = true ∨ sym.isRecord = true) := by
  induction h with
  | nil => cases hmem
  | @stored s syms ps ty a hk ht hs _ ih =>
    rcases List.mem_cons.1 hmem with rfl | hmem
    · refine .inl ⟨a, hk, hs, ?_⟩
      rw [show sym.ty = ty by simp [Symbol.ty, ht]]
      exact List.mem_cons_self ..
    · rcases ih hmem with ⟨a', h₁, h₂, h₃⟩ | ⟨inner, qs, h₁, h₂, hr, h₃, h₄⟩ | h₁
      · exact .inl ⟨a', h₁, h₂, List.mem_cons_of_mem _ h₃⟩
      · exact .inr (.inl ⟨inner, qs, h₁, h₂, hr, h₃, fun q hq => List.mem_cons_of_mem _ (h₄ q hq)⟩)
      · exact .inr (.inr h₁)
  | @object s syms ps qs c t inner hk ht hs hu hr hq _ _ ih =>
    rcases List.mem_cons.1 hmem with rfl | hmem
    · refine .inr (.inl ⟨inner, qs, hk, hs, hr.records, hq, ?_⟩)
      intro q hq'
      exact List.mem_append_left _ (List.mem_map_of_mem hq')
    · rcases ih hmem with ⟨a', h₁, h₂, h₃⟩ | ⟨inner', qs', h₁, h₂, hr', h₃, h₄⟩ | h₁
      · exact .inl ⟨a', h₁, h₂, List.mem_append_right _ h₃⟩
      · exact .inr (.inl
          ⟨inner', qs', h₁, h₂, hr', h₃, fun q hq => List.mem_append_right _ (h₄ q hq)⟩)
      · exact .inr (.inr h₁)
  | other hk _ ih =>
    rcases List.mem_cons.1 hmem with rfl | hmem
    · exact .inr (.inr hk)
    · exact ih hmem

theorem Scope.mem_of_find? {s : Scope} (h : s.find? id = some sym) :
    sym ∈ s.symbols ∧ sym.name = id := by
  have hname := List.find?_some h
  simp only [decide_eq_true_eq] at hname
  exact ⟨List.mem_of_find?_eq_some h, hname⟩

theorem Names.member?_eq_some {base : Symbol} (h : names.member? base id = some sym) :
    base.isFunction = false ∧ ∃ scope, base.scope = some scope ∧ sym ∈ (names.scope scope).symbols ∧
      sym.name = id := by
  unfold Names.member? at h
  split at h
  · cases h
  · rename_i hf
    obtain ⟨scope, hscope, hfind⟩ := Option.bind_eq_some_iff.1 h
    exact ⟨by simpa using hf, scope, hscope, Scope.mem_of_find? hfind⟩

/-- A way through a class ends at no stored variable. -/
theorem Names.follow?_record {id : ScopeId}
    (hfields : ∀ s ∈ (names.scope id).symbols, s.kind = .variable none ∧ s.scope = none)
    (hrec : sym.isRecord = true) (hscope : sym.scope = some id)
    (hfollow : names.follow? sym members = some s) : s.kind ≠ .variable (some a) := by
  intro hs
  cases members with
  | nil =>
    obtain rfl := Option.some.inj hfollow
    simp [Symbol.isRecord, hs] at hrec
  | cons m ms =>
    obtain ⟨sym', hmember, hrest⟩ := Option.bind_eq_some_iff.1 hfollow
    obtain ⟨-, scope, hscope', hmem, -⟩ := Names.member?_eq_some hmember
    obtain rfl : scope = id := Option.some.inj (hscope'.symm.trans hscope)
    obtain ⟨hkind, hnone⟩ := hfields sym' hmem
    cases ms with
    | nil =>
      obtain rfl := Option.some.inj hrest
      rw [hkind] at hs
      cases hs
    | cons m' ms' =>
      obtain ⟨sym'', hmember', -⟩ := Option.bind_eq_some_iff.1 hrest
      obtain ⟨-, scope', hscope'', -, -⟩ := Names.member?_eq_some hmember'
      rw [hnone] at hscope''
      cases hscope''

/-- A way from a variable through instances ends at a placement. -/
theorem Leads.follow (h : Leads names.scope U syms ps) (hmem : sym ∈ syms)
    (hrec : sym.isRecord = false)
    (hfollow : names.follow? sym members = some s) (hs : s.kind = .variable (some a)) :
    (⟨sym.name :: members, s.ty, s.dims, a⟩ : Placement) ∈ ps := by
  induction members generalizing syms ps sym with
  | nil =>
    obtain rfl := Option.some.inj hfollow
    rcases h.of_mem hmem with ⟨a', hk, -, hp⟩ | ⟨_, _, hk, _⟩ | hk | hk
    · rw [hs] at hk
      cases hk
      exact hp
    · rw [hs] at hk
      cases hk
    · simp [Symbol.isFunction, hs] at hk
    · rw [hrec] at hk
      cases hk
  | cons m ms ih =>
    obtain ⟨sym', hmember, hrest⟩ := Option.bind_eq_some_iff.1 hfollow
    obtain ⟨hfun, scope, hscope, hmem', hname⟩ := Names.member?_eq_some hmember
    rcases h.of_mem hmem with ⟨a', -, hk, -⟩ | ⟨inner, qs, -, hinner, hr, hleads, hps⟩ | hk | hk
    · rw [hscope] at hk
      cases hk
    · obtain rfl : scope = inner := Option.some.inj (hscope.symm.trans hinner)
      have hp := ih hleads hmem' (hr sym' hmem') hrest
      rw [hname] at hp
      exact hps _ hp
    · rw [hfun] at hk
      cases hk
    · rw [hrec] at hk
      cases hk

/-! ## Names -/

/-- A name stands for a symbol of the open directory, or for one of the program. -/
theorem Generator.lookup_cases (h : g.current = 0 ∧ g.enclosing = [] ∨ g.enclosing = [0])
    (hlookup : g.lookup name = some sym) :
    sym.name = name ∧ (g.enclosing = [0] ∧ sym ∈ (scopeAt g.scopes g.current).symbols ∨
      sym ∈ (scopeAt g.scopes 0).symbols) := by
  unfold Generator.lookup at hlookup
  rcases h with ⟨hcur, henc⟩ | henc
  · simp only [hcur, henc, List.findSome?_cons, List.findSome?_nil] at hlookup
    cases hfind : (g.scope 0).find? name with
    | none => simp [hfind] at hlookup
    | some s =>
      simp only [hfind, Option.some.injEq] at hlookup
      obtain rfl := hlookup
      obtain ⟨hmem, hname⟩ := Scope.mem_of_find? hfind
      exact ⟨hname, .inr hmem⟩
  · simp only [henc, List.findSome?_cons, List.findSome?_nil] at hlookup
    cases hfind : (g.scope g.current).find? name with
    | some s =>
      simp only [hfind, Option.some.injEq] at hlookup
      obtain rfl := hlookup
      obtain ⟨hmem, hname⟩ := Scope.mem_of_find? hfind
      exact ⟨hname, .inl ⟨henc, hmem⟩⟩
    | none =>
      simp only [hfind] at hlookup
      cases hfind' : (g.scope 0).find? name with
      | none => simp [hfind'] at hlookup
      | some s =>
        simp only [hfind', Option.some.injEq] at hlookup
        obtain rfl := hlookup
        obtain ⟨hmem, hname⟩ := Scope.mem_of_find? hfind'
        exact ⟨hname, .inr hmem⟩

/-- References reach placements, of the program or of the open function, and calls reach
declared functions with the parameters they were declared with. -/
structure Names.Sound (names : Names) (outer inner : List Placement)
    (fs : List (Callee × List Param)) : Prop where
  stored : ∀ {name members sym a}, names.reach? name members = some sym →
    sym.kind = .variable (some a) →
    (⟨name :: members, sym.ty, sym.dims, a⟩ : Placement) ∈ outer ∨
      (⟨name :: members, sym.ty, sym.dims, a⟩ : Placement) ∈ inner
  called : ∀ {name f}, names.callee? name = some f → (f, names.params f) ∈ fs
  named : ∀ {name f}, names.callee? name = some f → f.name = name

theorem World.stored_of_mem (h : World current d ps g.scopes m) {sym₀ : Symbol}
    (hmem : sym₀ ∈ (scopeAt g.scopes 0).symbols) (hfollow : g.names.follow? sym₀ members = some sym)
    (hs : sym.kind = .variable (some a)) :
    (⟨sym₀.name :: members, sym.ty, sym.dims, a⟩ : Placement) ∈ ps := by
  by_cases hrec : sym₀.isRecord = true
  · obtain ⟨id, hid, hkind⟩ := h.classes.records hmem hrec
    exact absurd hs (Names.follow?_record (h.classes.fields hkind) hrec hid hfollow)
  · have hleads : Leads g.names.scope (IsObject g.scopes) (scopeAt g.scopes 0).symbols ps :=
      h.stored.leads
    exact hleads.follow hmem (by simpa using hrec) hfollow hs

/-- A variable is found under its path. -/
def Names.Finds (names : Names) (p : Placement) : Prop :=
  ∃ name members sym, p.path = name :: members ∧ names.reach? name members = some sym ∧
    sym.kind = .variable (some p.address) ∧ sym.dims = p.dims

/-- Every placement is where a way through instances ends. -/
theorem Leads.followed (h : Leads names.scope U syms ps) {p : Placement} (hp : p ∈ ps) :
    ∃ sym ∈ syms, ∃ members s, p.path = sym.name :: members ∧ names.follow? sym members = some s ∧
      s.kind = .variable (some p.address) ∧ s.dims = p.dims := by
  induction h generalizing p with
  | nil => cases hp
  | @stored sym syms ps ty a hk ht hs _ ih =>
    rcases List.mem_cons.1 hp with rfl | hp
    · exact ⟨sym, List.mem_cons_self .., [], sym, rfl, rfl, hk, rfl⟩
    · obtain ⟨sym', hsym, hrest⟩ := ih hp
      exact ⟨sym', List.mem_cons_of_mem _ hsym, hrest⟩
  | @object sym syms ps qs c t inner hk ht hs hu hr hq _ ihq ih =>
    rcases List.mem_append.1 hp with hp | hp
    · obtain ⟨q, hq', rfl⟩ := List.mem_map.1 hp
      obtain ⟨sym', hsym, members, s, hpath, hfollow, hrest⟩ := ihq hq'
      have hmember : names.member? sym sym'.name = some sym' := by
        unfold Names.member?
        rw [if_neg (by simp [Symbol.isFunction, hk]), hs]
        exact find?_of_mem hr.distinct hsym
      refine ⟨sym, List.mem_cons_self .., sym'.name :: members, s, ?_, ?_, hrest⟩
      · exact congrArg (sym.name :: ·) hpath
      · simp only [Names.follow?, hmember]
        exact hfollow
    · obtain ⟨sym', hsym, hrest⟩ := ih hp
      exact ⟨sym', List.mem_cons_of_mem _ hsym, hrest⟩
  | other _ _ ih =>
    obtain ⟨sym', hsym, hrest⟩ := ih hp
    exact ⟨sym', List.mem_cons_of_mem _ hsym, hrest⟩

/-- Outside of functions the name of a symbol of the program stands for it. -/
theorem World.lookup_of_mem (h : World 0 d ps g.scopes m) (hcur : g.current = 0)
    (henc : g.enclosing = []) (hsym : sym ∈ (scopeAt g.scopes 0).symbols) :
    g.names.lookup sym.name = some sym := by
  show g.lookup sym.name = some sym
  unfold Generator.lookup
  rw [hcur, henc, List.findSome?_singleton]
  exact find?_of_mem h.distinct hsym

/-- Outside of functions every variable of the program is found under its path. -/
theorem World.finds (h : World 0 d ps g.scopes m) (hcur : g.current = 0) (henc : g.enclosing = [])
    {p : Placement} (hp : p ∈ ps) : g.names.Finds p := by
  have hleads : Leads g.names.scope (IsObject g.scopes) (scopeAt g.scopes 0).symbols ps :=
    h.stored.leads
  obtain ⟨sym, hsym, members, s, hpath, hfollow, hrest⟩ := hleads.followed hp
  refine ⟨sym.name, members, s, hpath, ?_, hrest⟩
  unfold Names.reach?
  rw [h.lookup_of_mem hcur henc hsym]
  exact hfollow

/-- Inside a function every variable of its own is found under its path. -/
theorem Inside.finds {qs : List Placement} (h : Inside g.current g.scopes m qs)
    (hdistinct : ((scopeAt g.scopes g.current).symbols.map (·.name)).Nodup) {p : Placement}
    (hp : p ∈ qs) : g.names.Finds p := by
  have hleads : Leads g.names.scope (IsObject g.scopes) (scopeAt g.scopes g.current).symbols qs :=
    h.stored.leads
  obtain ⟨sym, hsym, members, s, hpath, hfollow, hrest⟩ := hleads.followed hp
  have hfind : (g.scope g.current).find? sym.name = some sym := find?_of_mem hdistinct hsym
  refine ⟨sym.name, members, s, hpath, Option.bind_eq_some_iff.2 ⟨sym, ?_, hfollow⟩, hrest⟩
  show g.lookup sym.name = some sym
  unfold Generator.lookup
  rw [List.findSome?_cons, hfind]

/-- Outside of functions every function of the program is found under its name. -/
theorem World.callee_of_mem (h : World 0 d ps g.scopes m) (hcur : g.current = 0)
    (henc : g.enclosing = []) {f : Callee × List Param}
    (hf : f ∈ functionsOf (scopeAt g.scopes 0).symbols) : g.names.callee? f.1.name = some f.1 := by
  obtain ⟨sym, hsym, hcallee, -, hname, -⟩ := name_of_mem_functionsOf hf
  unfold Names.callee?
  rw [← hname, h.lookup_of_mem hcur henc hsym]
  exact hcallee

theorem name_of_callee? {f : Callee} (h : sym.callee? = some f) : f.name = sym.name := by
  unfold Symbol.callee? at h
  split at h
  · cases h
    rfl
  · cases h

theorem World.params_of_callee? (h : World current d ps g.scopes m) {f : Callee}
    (hmem : sym ∈ (scopeAt g.scopes 0).symbols) (hcallee : sym.callee? = some f) :
    g.names.params f = sym.params := by
  show ((scopeAt g.scopes 0).find? f.name).elim [] (·.params) = sym.params
  rw [name_of_callee? hcallee, find?_of_mem h.distinct hmem]
  rfl

/-- The parameters of a function of the program are those it was declared with. -/
theorem World.params_of_mem (h : World current d ps g.scopes m)
    {f : Callee × List Param} (hf : f ∈ functionsOf (scopeAt g.scopes 0).symbols) :
    g.names.params f.1 = f.2 := by
  obtain ⟨sym, hsym, hcallee, hparams, -⟩ := name_of_mem_functionsOf hf
  rw [h.params_of_callee? hsym hcallee, hparams]

/-- A function of the program is called with the parameters it was declared with. -/
theorem World.called_of_mem (h : World current d ps g.scopes m) {f : Callee}
    (hmem : sym ∈ (scopeAt g.scopes 0).symbols) (hcallee : sym.callee? = some f) :
    (f, g.names.params f) ∈ functionsOf (scopeAt g.scopes 0).symbols := by
  rw [h.params_of_callee? hmem hcallee]
  apply List.mem_filterMap.2
  exact ⟨sym, hmem, by simp [Symbol.function?, hcallee]⟩

/-- Outside of functions all names are those of the program. -/
theorem World.names_sound (h : World 0 d ps g.scopes g.memory) (hcur : g.current = 0)
    (henc : g.enclosing = []) : g.names.Sound ps [] (functionsOf (scopeAt g.scopes 0).symbols) := by
  have hmem : ∀ {name sym}, g.lookup name = some sym →
      sym.name = name ∧ sym ∈ (scopeAt g.scopes 0).symbols := by
    intro name sym hlookup
    obtain ⟨hname, hcase⟩ := Generator.lookup_cases (.inl ⟨hcur, henc⟩) hlookup
    refine ⟨hname, ?_⟩
    rcases hcase with ⟨henc', -⟩ | hmem
    · rw [henc] at henc'
      cases henc'
    · exact hmem
  constructor
  · intro name members sym a hreach hs
    obtain ⟨sym₀, hlookup, hfollow⟩ := Option.bind_eq_some_iff.1 hreach
    obtain ⟨hname, hsym⟩ := hmem hlookup
    rw [← hname]
    exact .inl (h.stored_of_mem hsym hfollow hs)
  · intro name f hcallee
    obtain ⟨sym, hlookup, hsym⟩ := Option.bind_eq_some_iff.1 hcallee
    exact h.called_of_mem (hmem hlookup).2 hsym
  · intro name f hcallee
    obtain ⟨sym, hlookup, hsym⟩ := Option.bind_eq_some_iff.1 hcallee
    exact (name_of_callee? hsym).trans (hmem hlookup).1

/-- Inside a function its own variables come first. -/
theorem World.names_sound_inside {qs : List Placement} (h : World g.current d ps g.scopes g.memory)
    (hin : Inside g.current g.scopes g.memory qs) (henc : g.enclosing = [0]) :
    g.names.Sound ps qs (functionsOf (scopeAt g.scopes 0).symbols) := by
  constructor
  · intro name members sym a hreach hs
    obtain ⟨sym₀, hlookup, hfollow⟩ := Option.bind_eq_some_iff.1 hreach
    obtain ⟨hname, hcase⟩ := Generator.lookup_cases (.inr henc) hlookup
    rw [← hname]
    rcases hcase with ⟨-, hmem⟩ | hmem
    · have hleads : Leads g.names.scope (IsObject g.scopes)
        (scopeAt g.scopes g.current).symbols qs :=
        hin.stored.leads
      exact .inr (hleads.follow hmem (hin.plain sym₀ hmem).2 hfollow hs)
    · exact .inl (h.stored_of_mem hmem hfollow hs)
  · intro name f hcallee
    obtain ⟨sym, hlookup, hsym⟩ := Option.bind_eq_some_iff.1 hcallee
    obtain ⟨-, hcase⟩ := Generator.lookup_cases (.inr henc) hlookup
    rcases hcase with ⟨-, hmem⟩ | hmem
    · have hfun := (hin.plain sym hmem).1
      unfold Symbol.callee? at hsym
      split at hsym
      · rename_i hk
        simp [Symbol.isFunction, hk] at hfun
      · cases hsym
    · exact h.called_of_mem hmem hsym
  · intro name f hcallee
    obtain ⟨sym, hlookup, hsym⟩ := Option.bind_eq_some_iff.1 hcallee
    obtain ⟨hname, -⟩ := Generator.lookup_cases (.inr henc) hlookup
    exact (name_of_callee? hsym).trans hname

/-! ## Types -/

/-- The open scope is that of the program, or one in it without classes of its own. -/
def Generator.Shallow (g : Generator) : Prop :=
  g.current = 0 ∧ g.enclosing = [] ∨
    g.enclosing = [0] ∧ ∀ s ∈ (scopeAt g.scopes g.current).symbols, s.isRecord = false

section

variable (h : World g.current d ps g.scopes m) (hplace : g.Shallow)

include h hplace

theorem World.class_of_lookup {c : Symbol} (hlookup : g.lookup name = some c)
    (hrec : c.isRecord = true) :
    c.name = name ∧ c ∈ (scopeAt g.scopes 0).symbols ∧
      ∃ id, c.scope = some id ∧ (scopeAt g.scopes id).kind = .record := by
  obtain ⟨hname, hcase⟩ := Generator.lookup_cases (hplace.imp_right (·.1)) hlookup
  have hmem : c ∈ (scopeAt g.scopes 0).symbols := by
    rcases hcase with ⟨henc, hmem⟩ | hmem
    · rcases hplace with ⟨-, henc'⟩ | ⟨-, hnone⟩
      · rw [henc'] at henc
        cases henc
      · rw [hnone c hmem] at hrec
        cases hrec
    · exact hmem
  exact ⟨hname, hmem, h.classes.records hmem hrec⟩

/-- The classes that can be named have fields of types of values. -/
theorem World.classesShaped : g.ClassesShaped := by
  intro name c hlookup hrec _
  obtain ⟨-, -, id, hid, hkind⟩ := h.class_of_lookup hplace hlookup hrec
  unfold Generator.template
  rw [hid]
  exact h.classes.shapes hkind

/-- A declaration gives a name what the source says it stores. -/
theorem World.declares {typeName : Bytes} {sizes : List Int64} {leaves : List Leaf}
    (hd : g.Declares typeName id sizes leaves) :
    leaves = Declarator.leaves d.classes typeName ⟨id, sizes⟩ := by
  unfold Declarator.leaves
  rcases hd with ⟨ty, hword, rfl⟩ | ⟨hword, c, hlookup, hrec, hself, rfl⟩
  · simp only [hword]
  · obtain ⟨hname, hmem, id', hid', hkind⟩ := h.class_of_lookup hplace hlookup hrec
    have hcomplete := h.classes.complete hmem hrec id' hid' (by
      rintro rfl
      exact hself hid')
    rw [hname] at hcomplete
    simp only [hword, hcomplete, Option.getD_some]
    unfold Generator.template
    rw [hid']
    rfl

end

end Quadlang
