-- What each declaration does when it succeeds.
import Quadlang.Proofs.Generator.Outcomes

namespace Quadlang

open Source Generate Success

variable {id typeName : Bytes} {g g' : Generator} {sym : Symbol} {u : Unit} {sizes : List Int64}

/-- What a declaration of variables gives to a name, by the type that is named. -/
def Generator.Declares (g : Generator) (typeName id : Bytes) (sizes : List Int64)
    (leaves : List Leaf) : Prop :=
  (∃ ty, Ty.ofWord? typeName = some ty ∧ leaves = [⟨[id], ty, sizes⟩]) ∨
    (Ty.ofWord? typeName = none ∧ ∃ c, g.lookup typeName = some c ∧ c.isRecord = true ∧
      c.scope ≠ some g.current ∧ leaves = (g.template c).leaves.map (Leaf.under id))

/-- Every class that can be named here has fields of types of values. -/
def Generator.ClassesShaped (g : Generator) : Prop :=
  ∀ {name c}, g.lookup name = some c → c.isRecord = true → c.scope ≠ some g.current →
    (g.template c).Shaped

/-! ## Variables -/

/-- Declaring a variable outside of a class stores it and adds it to the innermost
directory. -/
theorem declare_stored (hk : g.here.kind ≠ .record)
    (hcur : g.current < g.scopes.size) (hshape : g.ClassesShaped)
    (hwidest : 1 ≤ g.memory.layout.widest.toInt)
    (h : declare id typeName { dims := sizes } g = .ok sym g') :
    ∃ m scopes s ps, g' = { g with memory := m, scopes } ∧ g.here.find? id = none ∧ s.name = id ∧
      s.isFunction = false ∧ s.isRecord = false ∧ Grows g.scopes g.current [s] scopes ∧
      Stores g.segment g.memory ps m ∧ g.Declares typeName id sizes (ps.map Placement.leaf) ∧
      (∀ p ∈ ps, p.Shaped) ∧
      Leads (scopeAt scopes) (fun id => g.scopes.size ≤ id ∧ id < scopes.size) [s] ps := by
  obtain ⟨hfind, hadd⟩ := declare_succeeds h
  cases hadd with
  | field hrecord => exact absurd hrecord hk
  | param _ _ hparam => cases hparam
  | function _ hfunction => cases hfunction
  | @object c m scopes syms ps _ _ _ hword hlookup hrec hself hgrows hstores hcopied =>
    obtain ⟨scopes', ids, hscopes, hgrows', hnew, hids, hcopied'⟩ :=
      hgrows.object (innerSymbol id c.name (g.template c) g.scopes.size) hcur hcopied
    obtain ⟨hshaped, hplain, hleads⟩ := hcopied'.leads (hshape hlookup hrec hself)
    have hall : ∀ id', id' ∈ g.scopes.size :: ids → g.scopes.size ≤ id' ∧ id' < scopes'.size := by
      intro id' hid'
      rw [← hids] at hid'
      exact mem_newIds.1 hid'
    refine ⟨m, scopes', _, ps.map (·.under id), by rw [hscopes]; rfl, hfind, rfl, rfl, rfl, hgrows',
      hstores.under id, .inr ⟨hword, c, hlookup, hrec, hself, ?_⟩, ?_, ?_⟩
    · simp [← hcopied.leaves_eq, Function.comp_def]
    · intro p hp
      obtain ⟨q, hq, rfl⟩ := List.mem_map.1 hp
      exact hshaped q hq
    · rw [← List.append_nil (ps.map _)]
      refine .object rfl rfl rfl (hall _ List.mem_cons_self) ?_ ?_ .nil
      · rw [hnew]
        exact hplain
      · rw [hnew]
        exact hleads.congr (fun _ _ => rfl) fun id' hid' => hall id' (List.mem_cons_of_mem _ hid')
  | @stored ty dims a m _ _ _ hword hprimitive hdims ha =>
    obtain ⟨n, hdims⟩ := hdims
    obtain ⟨hstrided, -, hmap, htotal⟩ := Dim.layOut_strided (by omega) hdims
    refine ⟨m, _, _, [⟨[id], ty, dims, a⟩], rfl, hfind, rfl, rfl, rfl, Grows.add hcur _,
      .cons ha .nil, .inl ⟨ty, hword, ?_⟩, ?_, .stored rfl rfl rfl .nil⟩
    · simpa [Placement.leaf] using hmap
    · intro p hp
      obtain rfl := List.mem_singleton.1 hp
      refine ⟨hprimitive, ?_⟩
      show Strided dims (Dim.total dims).toInt
      rw [htotal]
      exact hstrided

/-! ## Fields of classes -/

theorem fields_cons (s : Symbol) (syms : List Symbol) :
    Scope.fields (s :: syms) =
      match s.type with
      | .value ty => .variable s.name ty s.dims (Scope.fields syms)
      | .object className inner => .nested s.name className inner (Scope.fields syms) := rfl

theorem fields_append (syms syms' : List Symbol) :
    (Scope.fields (syms ++ syms')).leaves =
      (Scope.fields syms).leaves ++ (Scope.fields syms').leaves := by
  induction syms with
  | nil => rfl
  | cons s syms ih =>
    simp only [List.cons_append, fields_cons]
    cases s.type with
    | value ty => simp [Template.leaves, ih]
    | object c t => simp [Template.leaves, ih]

theorem names_fields (syms : List Symbol) : (Scope.fields syms).names = syms.map (·.name) := by
  induction syms with
  | nil => rfl
  | cons s syms ih =>
    rw [fields_cons]
    cases s.type with
    | value ty => simp [Template.names, ih]
    | object c t => simp [Template.names, ih]

/-- A field of another name may follow. -/
theorem shaped_fields_concat {syms : List Symbol} {s : Symbol} (h : (Scope.fields syms).Shaped)
    (hs : (Scope.fields [s]).Shaped) (hname : s.name ∉ syms.map (·.name)) :
    (Scope.fields (syms ++ [s])).Shaped := by
  induction syms with
  | nil => exact hs
  | cons t syms ih =>
    rw [List.map_cons, List.mem_cons, not_or] at hname
    have hnames : ∀ {name}, name = t.name → name ∉ (Scope.fields syms).names →
        name ∉ (Scope.fields (syms ++ [s])).names := by
      rintro name rfl hfresh
      rw [names_fields] at hfresh
      rw [names_fields, List.map_append, List.mem_append, not_or]
      exact ⟨hfresh, by simpa using Ne.symm hname.1⟩
    simp only [List.cons_append, fields_cons] at h ⊢
    cases ht : t.type with
    | value ty =>
      simp only [ht, Template.Shaped] at h ⊢
      exact ⟨h.1, h.2.1, hnames rfl h.2.2.1, ih h.2.2.2 hname.2⟩
    | object c inner =>
      simp only [ht, Template.Shaped] at h ⊢
      exact ⟨h.1, hnames rfl h.2.1, ih h.2.2 hname.2⟩

/-- Declaring a field of a class adds a symbol that stands for what instances will store. -/
theorem declare_field (hk : g.here.kind = .record) (hshape : g.ClassesShaped)
    (hwidest : 1 ≤ g.memory.layout.widest.toInt)
    (h : declare id typeName { dims := sizes } g = .ok sym g') :
    ∃ s : Symbol, g' = { g with scopes := g.scopes.modify g.current (·.add s) } ∧
      g.here.find? id = none ∧ s.name = id ∧ s.kind = .variable none ∧ s.scope = none ∧
      g.Declares typeName id sizes (Scope.fields [s]).leaves ∧ (Scope.fields [s]).Shaped := by
  obtain ⟨hfind, hadd⟩ := declare_succeeds h
  cases hadd with
  | stored hkind | object hkind => exact absurd hk hkind
  | param hkind => exact absurd hk hkind
  | function _ hfunction => cases hfunction
  | @field type dims _ _ _ htype hdims =>
    obtain ⟨n, hdims⟩ := hdims
    obtain ⟨hstrided, -, hmap, htotal⟩ := Dim.layOut_strided (by omega) hdims
    refine ⟨_, rfl, hfind, rfl, rfl, rfl, ?_⟩
    rcases declaredType_eq_ok htype with ⟨ty, hword, hvoid, rfl⟩ |
      ⟨hword, -, -, c, hlookup, hrec, hself, rfl⟩
    · refine ⟨.inl ⟨ty, hword, ?_⟩, isPrimitive_of_ofWord? hword (hvoid rfl), ?_,
        by simp [Template.names], trivial⟩
      · simpa [Scope.fields, variableSymbol, Template.leaves] using hmap
      · show Strided dims (Dim.total dims).toInt
        rw [htotal]
        exact hstrided
    · refine ⟨.inr ⟨hword, c, hlookup, hrec, hself, ?_⟩, hshape hlookup hrec hself,
        by simp [Template.names], trivial⟩
      simp [Scope.fields, variableSymbol, Template.leaves]

/-! ## Functions -/

/-- A parameter takes one address, and the function knows it by name, type and address. -/
theorem declare_param (hk : g.here.kind ≠ .record)
    (h : declare id typeName { isParam := true } g = .ok sym g') :
    ∃ ty a m callee, Ty.ofWord? typeName = some ty ∧ Typing.isPrimitive ty = true ∧
      g.here.find? id = none ∧ g.function = some (callee, g.current) ∧
      g.memory.alloc ty g.segment 1 = .ok (a, m) ∧
      g' = { g with
        memory := m
        scopes := (g.scopes.modify g.current (·.add (paramSymbol id ty a))).modify 0
          (·.addParam callee.name ⟨id, ty, a⟩) } := by
  obtain ⟨hfind, hadd⟩ := declare_succeeds h
  cases hadd with
  | field hrecord => exact absurd hrecord hk
  | stored _ _ hparam | object _ _ hparam => cases hparam
  | function _ hfunction => cases hfunction
  | @param ty a m callee _ _ _ hword hprimitive hf hm =>
    exact ⟨ty, a, m, callee, hword, hprimitive, hfind, hf, hm, rfl⟩

/-- A function takes a return slot, and its body a directory of its own. -/
theorem declare_function (h : declare id typeName { isFunction := true, enter := true } g =
    .ok sym g') :
    ∃ ty a m, (ty = .void ∨ Typing.isPrimitive ty = true) ∧ g.here.kind = .program ∧
      g.here.find? id = none ∧ g.memory.alloc ty .stack 1 = .ok (a, m) ∧
      g' = { g with
        memory := m
        scopes := (g.scopes.push (Scope.empty id .function (some id))).modify g.current
          (·.add (functionSymbol id ty a g.quads.size g.scopes.size))
        function := some (⟨id, ty, a, g.quads.size⟩, g.scopes.size)
        current := g.scopes.size
        enclosing := g.current :: g.enclosing } := by
  obtain ⟨hfind, hadd⟩ := declare_succeeds h
  cases hadd with
  | field _ hother | stored _ hother | param _ hother | object _ hother => cases hother
  | @function ty a m hk _ hword hm =>
    refine ⟨ty, a, m, ?_, hk, hfind, hm, rfl⟩
    by_cases hvoid : ty = .void
    · exact .inl hvoid
    · exact .inr (isPrimitive_of_ofWord? hword hvoid)

theorem leaveScope_eq_ok (h : leaveScope g = .ok u g') :
    ∃ id rest, g.enclosing = id :: rest ∧ g' = { g with current := id, enclosing := rest } := by
  simp only [leaveScope, get_bind] at h
  rcases he : g.enclosing with _ | ⟨id, rest⟩
  · simp [he, fault_eq_ok] at h
  · simp only [he, modify_eq_ok] at h
    exact ⟨id, rest, rfl, h.symm⟩

theorem endFunction_eq_ok (h : endFunction g = .ok u g') :
    ∃ callee id rest, g.function = some (callee, g.current) ∧ g.enclosing = id :: rest ∧
      g' = { g with
        quads := g.quads.push { op := .endFunction, res := .cell callee.address }
        function := none
        current := id
        enclosing := rest } := by
  simp only [endFunction, get_bind] at h
  rcases hf : g.function with _ | ⟨callee, scope⟩
  · simp [hf, fault_eq_ok] at h
  · simp only [hf] at h
    obtain ⟨hscope, hleave⟩ := guard_eq_ok.1 h
    obtain rfl : scope = g.current := Decidable.not_not.1 hscope
    simp only [bind_eq_ok, emit_eq_ok, modify_eq_ok] at hleave
    obtain ⟨_, _, rfl, _, _, rfl, hleave⟩ := hleave
    obtain ⟨id, rest, he, rfl⟩ := leaveScope_eq_ok hleave
    exact ⟨callee, id, rest, rfl, he, by simp⟩

/-! ## Classes -/

def classSymbol (id : Bytes) (scope : ScopeId) : Symbol :=
  { name := id, kind := .record, type := .object id .nil, scope := some scope }

/-- A class gets a directory for its fields. -/
theorem declareClass_eq_ok (h : declareClass id g = .ok sym g') :
    g.here.kind = .program ∧ g.here.find? id = none ∧
      g' = { g with
        scopes := (g.scopes.push (Scope.empty id .record (some id))).modify g.current
          (·.add (classSymbol id g.scopes.size))
        current := g.scopes.size
        enclosing := g.current :: g.enclosing } := by
  obtain ⟨hk, h⟩ := guard_eq_ok.1 h
  obtain ⟨hfind, h⟩ := guard_eq_ok.1 h
  simp only [enterScope, bind_eq_ok, modify_eq_ok, pure_eq_ok] at h
  obtain ⟨scope, _, hnew, _, _, hadd, _, _, rfl, rfl, rfl⟩ := h
  obtain ⟨rfl, rfl⟩ := newScope_eq_ok hnew
  obtain rfl := addHere_eq_ok hadd
  exact ⟨by simpa using hk, by simpa using hfind, rfl⟩

/-! ## Names put aside -/

theorem addPendingDim_eq_ok {size : Int64} (h : addPendingDim size g = .ok u g') :
    ∃ w rest, g.waiting = w :: rest ∧
      g' = { g with waiting := { w with dims := w.dims ++ [size] } :: rest } := by
  simp only [addPendingDim, get_bind] at h
  rcases hw : g.waiting with _ | ⟨w, rest⟩
  · simp [hw, fault_eq_ok] at h
  · simp only [hw, modify_eq_ok] at h
    exact ⟨w, rest, rfl, h.symm⟩

theorem perform_sizes {w : Waiting} {rest : List Waiting}
    (hw : g.waiting = w :: rest) (h : Performs (sizes.map .addDim) g g') :
    ∃ n, g' = { g with line := n, waiting := { w with dims := w.dims ++ sizes } :: rest } := by
  induction sizes generalizing g w with
  | nil =>
    obtain rfl := performs_nil.1 h
    exact ⟨g.line, by simp [← hw]⟩
  | cons size sizes ih =>
    obtain ⟨n, _, hd, h⟩ := performs_done rfl h
    obtain ⟨w', rest', hw', rfl⟩ := addPendingDim_eq_ok hd
    obtain ⟨rfl, rfl⟩ := List.cons.inj (hw.symm.trans hw')
    obtain ⟨n', rfl⟩ := ih rfl h
    exact ⟨n', by simp [Generator.onLine]⟩

/-- A declared name as it waits for its type. -/
def Source.Declarator.waiting (d : Declarator) : Waiting := { name := d.name, dims := d.sizes }

theorem perform_declarators {ds : List Declarator}
    (h : Performs (ds.flatMap Declarator.actions) g g') :
    ∃ n,
      g' = { g with line := n, waiting := (ds.map Declarator.waiting).reverse ++ g.waiting } := by
  induction ds generalizing g with
  | nil =>
    obtain rfl := performs_nil.1 h
    exact ⟨g.line, rfl⟩
  | cons d ds ih =>
    obtain ⟨g₂, h, h'⟩ := performs_append h
    obtain ⟨n, _, g₁, h₁, h⟩ := performs_cons h
    obtain ⟨_, _, rfl, -, rfl⟩ := h₁
    obtain ⟨n', rfl⟩ := perform_sizes rfl h
    obtain ⟨n'', rfl⟩ := ih h'
    exact ⟨n'', by simp [Generator.onLine, Declarator.waiting]⟩

/-- A declaration of variables declares its names in the order of the text. -/
theorem perform_variables {v : Variables} (hw : g.waiting = []) (h : Performs v.actions g g') :
    ∃ n u, declareAll v.typeName (v.names.map Declarator.waiting) (g.onLine n) = .ok u g' := by
  obtain ⟨g₁, hd, h⟩ := performs_append h
  obtain ⟨n, rfl⟩ := perform_declarators hd
  obtain ⟨n', _, h⟩ := performs_singleton h
  simp only [perform, declarePending, bind_eq_ok, get_eq_ok, modify_eq_ok, pure_eq_ok] at h
  obtain ⟨u, _, ⟨_, _, ⟨rfl, rfl⟩, _, _, rfl, hall⟩, -, rfl⟩ := h
  refine ⟨n', u, ?_⟩
  simpa [Generator.onLine, hw] using hall

end Quadlang
