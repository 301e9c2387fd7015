-- Classes and their instances. A class has fields of classes declared before it only, so following
-- the classes from one to the next comes to an end. An instance copies all that is met on the way,
-- into directories and addresses of its own, and no other directory changes.
import Quadlang.Proofs.Generator.Directories

namespace Quadlang

open Source Generate Success

/-! ## Classes in order -/

/-- The classes of a compilation, the latest first. -/
def Generator.classes (g : Generator) : List Symbol :=
  (g.outermost.symbols.filter (·.isRecord)).reverse

/-- If a field is an instance, then its class is in a list, and has the fields that the field
has. -/
def Symbol.Known (g : Generator) (cs : List Symbol) (f : Symbol) : Prop :=
  ∀ className t, f.type = .object className t → ∃ c ∈ cs, c.name = className ∧ t = g.template c

/-- Each class has a name and a directory of its own, and its fields are known from the classes
behind it. -/
inductive Ranked (g : Generator) : List Symbol → Prop
  | nil : Ranked g []
  | cons {c : Symbol} {cs : List Symbol} {d : ScopeId} : c.scope = some d →
      (g.scope d).kind = .record → (∀ f ∈ (g.scope d).symbols, f.Known g cs) →
      (∀ c' ∈ cs, c'.name ≠ c.name ∧ c'.scope ≠ some d) → Ranked g cs → Ranked g (c :: cs)

/-- The classes of a compilation are in order, and only the latest can be open. -/
structure Generator.Classified (g : Generator) : Prop where
  ranked : Ranked g g.classes
  opened : g.here.kind = .record → ∃ c cs, g.classes = c :: cs ∧ c.scope = some g.current

section

variable {g g' : Generator} {cs : List Symbol}

theorem template_of_scope {c : Symbol} {d : ScopeId} (h : c.scope = some d) :
    g.template c = Scope.fields (g.scope d).symbols := by
  unfold Generator.template
  rw [h]
  rfl

theorem Ranked.directory (h : Ranked g cs) {c : Symbol} (hc : c ∈ cs) :
    ∃ d, c.scope = some d ∧ (g.scope d).kind = .record := by
  induction h with
  | nil => cases hc
  | cons hscope hkind _ _ _ ih =>
    rcases List.mem_cons.1 hc with rfl | hc
    · exact ⟨_, hscope, hkind⟩
    · exact ih hc

theorem Symbol.Known.congr {f : Symbol} (h : f.Known g cs)
    (htemplate : ∀ c ∈ cs, g'.template c = g.template c) : f.Known g' cs := by
  intro className t htype
  obtain ⟨c, hc, hname, rfl⟩ := h className t htype
  exact ⟨c, hc, hname, (htemplate c hc).symm⟩

/-- Only the directories of the classes matter. -/
theorem Ranked.congr (h : Ranked g cs) (hd : ∀ c ∈ cs, ∀ d, c.scope = some d →
      (g.scope d).kind = .record →
      (g'.scope d).kind = .record ∧ (g'.scope d).symbols = (g.scope d).symbols) : Ranked g' cs := by
  induction h with
  | nil => exact .nil
  | @cons c cs d hscope hkind hknown hnew hcs ih =>
    have hrest : ∀ c' ∈ cs, ∀ d', c'.scope = some d' → (g.scope d').kind = .record →
        (g'.scope d').kind = .record ∧ (g'.scope d').symbols = (g.scope d').symbols :=
      fun c' hc' => hd c' (List.mem_cons_of_mem c hc')
    obtain ⟨hkind', hsymbols⟩ := hd c List.mem_cons_self d hscope hkind
    refine .cons hscope hkind' ?_ hnew (ih hrest)
    rw [hsymbols]
    refine fun f hf => (hknown f hf).congr fun c' hc' => ?_
    obtain ⟨d', hscope', hrecord⟩ := hcs.directory hc'
    rw [template_of_scope hscope', template_of_scope hscope', (hrest c' hc' d' hscope' hrecord).2]

theorem mem_classes_of_lookup (hfiled : g.Filed) {typeName : Bytes} {c : Symbol}
    (hlookup : g.lookup typeName = some c) (hrecord : c.isRecord = true) :
    c ∈ g.classes ∧ c.name = typeName := by
  obtain ⟨scope, -, hfind⟩ := List.exists_of_findSome?_eq_some hlookup
  have hname : c.name = typeName := by simpa using List.find?_some hfind
  have hkind : c.kind = .record := by simpa [Symbol.isRecord] using hrecord
  have hsym := List.mem_of_find?_eq_some hfind
  refine ⟨?_, hname⟩
  cases hfiled.symbols scope c hsym with
  | record _ hzero =>
    subst hzero
    exact List.mem_reverse.2 (List.mem_filter.2 ⟨hsym, hrecord⟩)
  | function _ _ _ hother | field hother | stored _ _ hother | object _ _ _ hother =>
    rw [hkind] at hother
    cases hother

end

/-! ## Steps that leave the classes alone -/

/-- The classes stay as they are, and none of them is entered. -/
structure Undisturbed (g g' : Generator) : Prop where
  classes : g'.classes = g.classes
  records : ∀ d, (g.scope d).kind = .record →
    (g'.scope d).kind = .record ∧ (g'.scope d).symbols = (g.scope d).symbols
  opened : g'.here.kind = .record → g.here.kind = .record ∧ g'.current = g.current

section

variable {g g₁ g' : Generator}

theorem Generator.Classified.of_undisturbed (h : g.Classified) (hsame : Undisturbed g g') :
    g'.Classified := by
  refine ⟨?_, fun hhere => ?_⟩
  · rw [hsame.classes]
    exact h.ranked.congr fun c _ d _ hkind => hsame.records d hkind
  · obtain ⟨hhere, hcurrent⟩ := hsame.opened hhere
    rw [hsame.classes, hcurrent]
    exact h.opened hhere

theorem Undisturbed.trans (h : Undisturbed g g₁) (h' : Undisturbed g₁ g') : Undisturbed g g' := by
  refine ⟨h'.classes.trans h.classes, fun d hd => ?_, fun hhere => ?_⟩
  · obtain ⟨hkind₁, hsymbols₁⟩ := h.records d hd
    obtain ⟨hkind', hsymbols'⟩ := h'.records d hkind₁
    exact ⟨hkind', hsymbols'.trans hsymbols₁⟩
  · obtain ⟨hhere₁, hcurrent₁⟩ := h'.opened hhere
    obtain ⟨hhere, hcurrent⟩ := h.opened hhere₁
    exact ⟨hhere, hcurrent₁.trans hcurrent⟩

/-- The directories change, and the place does not. -/
theorem Undisturbed.of_scopes (hcurrent : g'.current = g.current)
    (hclasses : (scopeAt g'.scopes 0).symbols.filter (·.isRecord) =
      (scopeAt g.scopes 0).symbols.filter (·.isRecord))
    (hkind : (scopeAt g'.scopes g.current).kind = (scopeAt g.scopes g.current).kind)
    (hrecords : ∀ d, (scopeAt g.scopes d).kind = .record → (scopeAt g'.scopes d).kind = .record ∧
      (scopeAt g'.scopes d).symbols = (scopeAt g.scopes d).symbols) : Undisturbed g g' := by
  refine ⟨congrArg List.reverse hclasses, hrecords, fun hhere => ⟨?_, hcurrent⟩⟩
  have hhere' : (scopeAt g'.scopes g'.current).kind = .record := hhere
  rw [hcurrent, hkind] at hhere'
  exact hhere'

theorem Undisturbed.of_same (hcurrent : g'.current = g.current) (hscopes : g'.scopes = g.scopes) :
    Undisturbed g g' :=
  .of_scopes hcurrent (by rw [hscopes]) (by rw [hscopes]) fun d hd =>
    ⟨by rw [hscopes, hd], by rw [hscopes]⟩

/-- The place changes, and what is entered is no class. -/
theorem Undisturbed.move (hscopes : g'.scopes = g.scopes)
    (hkind : (scopeAt g.scopes g'.current).kind ≠ .record) : Undisturbed g g' := by
  refine ⟨?_, fun d hd => ?_, fun hhere => ?_⟩
  · unfold Generator.classes Generator.outermost Generator.scope
    rw [hscopes]
  · unfold Generator.scope at hd ⊢
    rw [hscopes]
    exact ⟨hd, rfl⟩
  · unfold Generator.here Generator.scope at hhere
    rw [hscopes] at hhere
    exact absurd hhere hkind

theorem Undisturbed.extend {m : Memory} {scopes : Array Scope} (hpos : 0 < g.scopes.size)
    (hcurrent : g.current < g.scopes.size)
    (hold : ∀ i < g.scopes.size, scopeAt scopes i = scopeAt g.scopes i) :
    Undisturbed g { g with memory := m, scopes } := by
  refine .of_scopes rfl (by rw [hold 0 hpos]) (by rw [hold _ hcurrent]) fun d hd => ?_
  rw [hold d (lt_of_record hd)]
  exact ⟨hd, rfl⟩

/-- Symbols that are no classes, in a directory that is no class. -/
theorem Undisturbed.of_grows {m : Memory} {scopes : Array Scope} {syms : List Symbol}
    (hpos : 0 < g.scopes.size) (hhere : g.here.kind ≠ .record)
    (h : Grows g.scopes g.current syms scopes) (hsyms : ∀ sym ∈ syms, sym.isRecord = false) :
    Undisturbed g { g with memory := m, scopes } := by
  refine .of_scopes rfl ?_ (by rw [h.here]) fun d hd => ?_
  · by_cases hzero : 0 = g.current
    · have hnone : syms.filter (·.isRecord) = [] := by simpa using hsyms
      rw [hzero, h.here, List.filter_append, hnone, List.append_nil]
    · rw [h.others hpos hzero]
  · rw [h.keeps_records hhere hd]
    exact ⟨hd, rfl⟩

/-- A new directory is entered, which is that of no class. -/
theorem Undisturbed.enter {s : Scope} {sym : Symbol} (hpos : 0 < g.scopes.size)
    (hzero : (scopeAt g.scopes 0).kind ≠ .record) (hscopes : g'.scopes = openScope g.scopes s sym)
    (hcurrent : g'.current = g.scopes.size) (hs : s.kind ≠ .record) (hsym : sym.isRecord = false) :
    Undisturbed g g' := by
  have hscope : ∀ d, g'.scope d = scopeAt (openScope g.scopes s sym) d := by
    intro d
    rw [← hscopes]
    rfl
  refine ⟨?_, fun d hd => ?_, fun hhere => ?_⟩
  · unfold Generator.classes Generator.outermost
    rw [hscope, openScope_outermost hpos]
    simp only [Scope.add, List.filter_append, List.filter_singleton, hsym]
    simp [scopeAt, Generator.scope]
  · rw [hscope, openScope_record hpos hzero hd]
    exact ⟨hd, rfl⟩
  · unfold Generator.here at hhere
    rw [hscope, hcurrent, openScope_new hpos] at hhere
    exact absurd hhere hs

theorem filter_addParam (s : Scope) (name : Bytes) (p : Param) :
    (s.addParam name p).symbols.filter (·.isRecord) = s.symbols.filter (·.isRecord) := by
  unfold Scope.addParam
  induction s.symbols with
  | nil => rfl
  | cons sym symbols ih =>
    rw [List.map_cons]
    cases hkind : sym.kind with
    | function address target params =>
      simp only
      split
      · rw [List.filter_cons_of_neg (by simp [Symbol.isRecord]),
          List.filter_cons_of_neg (by simp [Symbol.isRecord, hkind]), ih]
      · rw [List.filter_cons_of_neg (by simp [Symbol.isRecord, hkind]),
          List.filter_cons_of_neg (by simp [Symbol.isRecord, hkind]), ih]
    | «variable» address | record =>
      simp only [List.filter_cons, ih]

theorem Undisturbed.addParam (hpos : 0 < g.scopes.size)
    (hzero : (scopeAt g.scopes 0).kind ≠ .record) (name : Bytes) (p : Param) :
    Undisturbed g { g with scopes := g.scopes.modify 0 (·.addParam name p) } := by
  refine .of_scopes rfl ?_ ?_ fun d hd => ?_
  · rw [scopeAt_addParam hpos]
    exact filter_addParam _ _ _
  · rw [scopeAt_modify]
    split
    · rfl
    · rfl
  · rw [scopeAt_addParam_of_ne (ne_of_record hzero hd)]
    exact ⟨hd, rfl⟩

theorem Undisturbed.rename (name : Bytes) : Undisturbed g
    { g with scopes := g.scopes.modify g.current fun scope => { scope with name } } := by
  have hscope : ∀ d, (scopeAt (g.scopes.modify g.current fun scope => { scope with name }) d).kind =
        (scopeAt g.scopes d).kind ∧
      (scopeAt (g.scopes.modify g.current fun scope => { scope with name }) d).symbols =
        (scopeAt g.scopes d).symbols := by
    intro d
    rw [scopeAt_modify]
    split
    · exact ⟨rfl, rfl⟩
    · exact ⟨rfl, rfl⟩
  refine .of_scopes rfl ?_ (hscope _).1 fun d hd => ⟨(hscope d).1.trans hd, (hscope d).2⟩
  rw [(hscope 0).2]

end

/-! ## Declarations -/

section

variable {g g' : Generator} {id typeName : Bytes} {o : DeclOptions} {ws : List Waiting}

theorem Generator.Filed.zero_ne_record (h : g.Filed) : (scopeAt g.scopes 0).kind ≠ .record := by
  simp [h.zero_kind]

section

variable (h : g.Classified) (hfiled : g.Filed)

include h hfiled

/-- A field of the open class. Its class is another one, so it was declared before. -/
theorem Generator.Classified.field (hhere : g.here.kind = .record)
    {m : Memory} {sym : Symbol} (hsym : ∀ className t, sym.type = .object className t →
      ∃ c ∈ g.classes, c.scope ≠ some g.current ∧ c.name = className ∧ t = g.template c) :
    Generator.Classified
      { g with memory := m, scopes := g.scopes.modify g.current (·.add sym) } := by
  have hadd := Grows.add hfiled.current sym
  have hzero : 0 ≠ g.current := by
    intro hzero
    exact hfiled.zero_ne_record (hzero ▸ hhere)
  have hclasses : Generator.classes
      { g with memory := m, scopes := g.scopes.modify g.current (·.add sym) } = g.classes := by
    unfold Generator.classes Generator.outermost
    rw [show Generator.scope _ 0 = scopeAt _ 0 from rfl, hadd.others hfiled.nonempty hzero]
    rfl
  obtain ⟨c, cs, heq, hscope⟩ := h.opened hhere
  refine ⟨?_, fun _ => ?_⟩
  · have hranked := h.ranked
    rw [hclasses, heq]
    rw [heq] at hranked
    cases hranked with
    | @cons _ _ d hscope' hkind hknown hnew hcs =>
      obtain rfl : d = g.current := Option.some.inj (hscope'.symm.trans hscope)
      -- the classes behind have other directories
      have hother : ∀ c' ∈ cs, ∀ d, c'.scope = some d →
          scopeAt (g.scopes.modify g.current (·.add sym)) d = scopeAt g.scopes d := by
        intro c' hc' d hd
        rw [scopeAt_modify, if_neg]
        rintro ⟨rfl, -⟩
        exact (hnew c' hc').2 hd
      have htemplate : ∀ c' ∈ cs, Generator.template
          { g with memory := m, scopes := g.scopes.modify g.current (·.add sym) } c' =
            g.template c' := by
        intro c' hc'
        obtain ⟨d, hd, -⟩ := hcs.directory hc'
        rw [template_of_scope hd, template_of_scope hd]
        exact congrArg (fun s => Scope.fields s.symbols) (hother c' hc' d hd)
      refine .cons hscope ?_ (fun f hf => ?_) hnew (hcs.congr fun c' hc' d hd hkind => ?_)
      · exact (congrArg Scope.kind hadd.here).trans hkind
      · have hf' : f ∈ (scopeAt (g.scopes.modify g.current (·.add sym)) g.current).symbols := hf
        rw [hadd.here] at hf'
        refine Symbol.Known.congr ?_ htemplate
        rcases List.mem_append.1 hf' with hold | hnew
        · exact hknown f hold
        · obtain rfl := List.mem_singleton.1 hnew
          intro className t htype
          obtain ⟨c', hc', hne, hname, ht⟩ := hsym className t htype
          rw [heq] at hc'
          rcases List.mem_cons.1 hc' with rfl | hc'
          · exact absurd hscope hne
          · exact ⟨c', hc', hname, ht⟩
      · exact ⟨(congrArg Scope.kind (hother c' hc' d hd)).trans hkind,
          congrArg Scope.symbols (hother c' hc' d hd)⟩
  · rw [hclasses]
    exact ⟨c, cs, heq, hscope⟩

theorem Generator.Classified.add {m : Memory} {sym : Symbol}
    {ty : Ty} (hrecord : sym.isRecord = false) (htype : sym.type = .value ty) :
    Generator.Classified
      { g with memory := m, scopes := g.scopes.modify g.current (·.add sym) } := by
  by_cases hhere : g.here.kind = .record
  · refine h.field hfiled hhere fun className t hobject => ?_
    rw [htype] at hobject
    cases hobject
  · refine h.of_undisturbed (.of_grows hfiled.nonempty hhere (Grows.add hfiled.current sym) ?_)
    simpa using hrecord

theorem Addition.classified {sym : Symbol}
    (hadd : Addition g id typeName o sym g') : g'.Classified := by
  cases hadd with
  | field hhere _ _ htype _ =>
    refine h.field hfiled hhere fun className t hobject => ?_
    rcases declaredType_eq_ok htype with ⟨ty, -, -, rfl⟩ | ⟨-, -, -, c, hlookup, hrecord, hne, rfl⟩
    · cases hobject
    · cases hobject
      exact ⟨c, (mem_classes_of_lookup hfiled hlookup hrecord).1, hne, rfl, rfl⟩
  | stored => exact h.add hfiled rfl rfl
  | @param ty a m callee hhere =>
    have hadded : Undisturbed g
        { g with memory := m, scopes := g.scopes.modify g.current (·.add (paramSymbol id ty a)) } :=
      .of_grows hfiled.nonempty hhere (Grows.add hfiled.current _)
      (by simp [paramSymbol, Symbol.isRecord])
    refine h.of_undisturbed (hadded.trans (.addParam ?_ ?_ callee.name ⟨id, ty, a⟩))
    · simpa using hfiled.nonempty
    · exact (SameKinds.add _ _ _).kind 0 hfiled.nonempty ▸ hfiled.zero_ne_record
  | @object c m scopes syms ps hhere _ _ _ _ _ _ hgrows _ hcopied =>
    obtain ⟨scopes', ids, rfl, hgrows', hnew, -⟩ :=
      hgrows.object (innerSymbol id c.name (g.template c) g.scopes.size) hfiled.current hcopied
    have hadded := @Undisturbed.of_grows g m _ _ hfiled.nonempty hhere hgrows'
      (by simp [innerSymbol, Symbol.isRecord])
    unfold Generator.entering
    split
    · refine h.of_undisturbed (hadded.trans (.move rfl ?_))
      rw [hnew]
      simp
    · exact h.of_undisturbed hadded
  | @function ty a m hhere =>
    have hzero : g.current = 0 := (hfiled.outermost _ hfiled.current).1 hhere
    rw [hzero]
    exact h.of_undisturbed (.enter hfiled.nonempty hfiled.zero_ne_record rfl rfl
      (by simp [Scope.empty]) rfl)

theorem Remnant.classified {cause : Fault}
    (hremnant : Remnant g id typeName cause g') : g'.Classified := by
  cases hremnant with
  | nothing => exact h
  | parameter _ _ hrecord htype _ =>
    obtain ⟨ty, htype⟩ := htype
    exact h.add hfiled hrecord htype
  | object _ _ _ _ _ _ hold =>
    exact h.of_undisturbed (.extend hfiled.nonempty hfiled.current hold)

theorem classified_declare : ((declare id typeName o).after g).Classified := by
  cases hdeclare : declare id typeName o g with
  | ok sym g' =>
    rw [after_of_ok hdeclare]
    exact (declare_succeeds hdeclare).2.classified h hfiled
  | error stop g' =>
    obtain ⟨cause, -, hremnant⟩ := declare_fails hdeclare
    rw [after_of_error hdeclare]
    exact hremnant.classified h hfiled

theorem classified_declareAll : ((declareAll typeName ws).after g).Classified := by
  induction ws generalizing g with
  | nil => exact h
  | cons w ws ih =>
    have hclassified := @classified_declare g w.name typeName { dims := w.dims } h hfiled
    have hfiled' := @filed_declare g w.name typeName { dims := w.dims } hfiled
    unfold declareAll
    cases hdeclare : declare w.name typeName { dims := w.dims } g with
    | ok sym g₁ =>
      rw [after_of_ok hdeclare] at hclassified hfiled'
      rw [after_bind_of_ok hdeclare]
      exact ih hclassified hfiled'
    | error stop g₁ =>
      rw [after_bind_of_error hdeclare]
      exact hclassified

end

/-! ## Opening and closing -/

theorem undisturbed_leaveScope (hfiled : g.Filed) : Undisturbed g (leaveScope.after g) := by
  cases henclosing : g.enclosing with
  | nil =>
    rw [after_leaveScope_of_nil henclosing]
    exact .of_same rfl rfl
  | cons scope rest =>
    rw [after_leaveScope_of_cons henclosing]
    exact .move rfl (hfiled.enclosing scope (henclosing ▸ List.mem_cons_self)).2

theorem undisturbed_endFunction (hfiled : g.Filed) : Undisturbed g (endFunction.after g) := by
  rw [endFunction, after_bind_of_ok (show (get : Generate Generator) g = .ok g g from rfl)]
  rcases g.function with _ | ⟨callee, scope⟩
  · exact .of_same rfl rfl
  simp only
  split
  · exact .of_same rfl rfl
  · have hemitted : Generator.Filed
        { g with quads := g.quads.push { op := .endFunction, res := .cell callee.address } } :=
      hfiled.of_same rfl rfl rfl rfl
    have hended := @Generator.Filed.inside _ hemitted none (by simp)
    have hquiet : Undisturbed g { g with
        quads := g.quads.push { op := .endFunction, res := .cell callee.address }
        function := none } := .of_same rfl rfl
    exact hquiet.trans (undisturbed_leaveScope hended)

theorem declareClass_eq_error {stop : Stop} (h : declareClass id g = .error stop g') : g' = g := by
  unfold declareClass at h
  rw [get_bind] at h
  split at h
  · cases h
    rfl
  split at h
  · cases h
    rfl
  · cases h

/-- A new class has a new name and a new directory, and no fields yet. -/
theorem Generator.Classified.class (h : g.Classified) (hpos : 0 < g.scopes.size)
    (hzero : (scopeAt g.scopes 0).kind ≠ .record) (hfind : (g.scope 0).find? id = none)
    (hscopes : g'.scopes = openScope g.scopes (Scope.empty id .record (some id))
      (classSymbol id g.scopes.size)) (hcurrent : g'.current = g.scopes.size) : g'.Classified := by
  have hscope : ∀ d, g'.scope d = scopeAt (openScope g.scopes (Scope.empty id .record (some id))
      (classSymbol id g.scopes.size)) d := by
    intro d
    rw [← hscopes]
    rfl
  have hclasses : g'.classes = classSymbol id g.scopes.size :: g.classes := by
    unfold Generator.classes Generator.outermost
    rw [hscope, openScope_outermost hpos, Scope.add, List.filter_append, List.reverse_append]
    rfl
  have hnew : g'.scope g.scopes.size = Scope.empty id .record (some id) := by
    rw [hscope, openScope_new hpos]
  refine ⟨?_, fun _ => ⟨_, _, hclasses, by rw [hcurrent]; rfl⟩⟩
  rw [hclasses]
  refine .cons rfl (by rw [hnew]; rfl) (by simp [hnew, Scope.empty]) (fun c hc =>
    ⟨?_, fun hd => ?_⟩)
    (h.ranked.congr fun c _ d _ hkind => ?_)
  · have hmem : c ∈ (g.scope 0).symbols := (List.mem_filter.1 (List.mem_reverse.1 hc)).1
    simpa [classSymbol] using List.find?_eq_none.1 hfind c hmem
  · obtain ⟨d, hscope', hkind⟩ := h.ranked.directory hc
    obtain rfl : d = g.scopes.size := Option.some.inj (hscope'.symm.trans hd)
    exact Nat.lt_irrefl _ (lt_of_record hkind)
  · rw [hscope, openScope_record hpos hzero hkind]
    exact ⟨hkind, rfl⟩

theorem classified_declareClass (h : g.Classified) (hfiled : g.Filed) :
    ((declareClass id).after g).Classified := by
  cases hdeclare : declareClass id g with
  | error stop g' =>
    rw [after_of_error hdeclare, declareClass_eq_error hdeclare]
    exact h
  | ok sym g' =>
    rw [after_of_ok hdeclare]
    obtain ⟨hkind, hfind, rfl⟩ := declareClass_eq_ok hdeclare
    have hzero : g.current = 0 := (hfiled.outermost _ hfiled.current).1 hkind
    rw [hzero]
    exact h.class hfiled.nonempty hfiled.zero_ne_record (hzero ▸ hfind) rfl rfl

/-! ## Every sequence of actions -/

theorem classified_perform (a : Action) (h : g.Classified) (hfiled : g.Filed) :
    ((perform a).after g).Classified := by
  cases hdeclares : a.declares with
  | false =>
    obtain ⟨m, halike⟩ := alike_perform hdeclares g
    exact h.of_undisturbed (.of_same halike.current halike.scopes)
  | true =>
    cases a with
    | start name =>
      have hrenamed := @Undisturbed.rename g name
      exact h.of_undisturbed (hrenamed.trans (.of_same rfl rfl))
    | leaveScope =>
      rw [perform, after_answer]
      exact h.of_undisturbed (undisturbed_leaveScope hfiled)
    | declare id typeName options =>
      rw [perform, after_answer]
      exact classified_declare h hfiled
    | endFunction =>
      rw [perform, after_answer]
      exact h.of_undisturbed (undisturbed_endFunction hfiled)
    | declareClass id =>
      rw [perform, after_answer]
      exact classified_declareClass h hfiled
    | declarePending typeName =>
      rw [perform, after_answer]
      exact classified_declareAll (h.of_undisturbed (.of_same rfl rfl))
        (hfiled.of_same rfl rfl rfl rfl)
    | _ => cases hdeclares

theorem Generator.Classified.run {t : Trace} (h : t.generator.Classified)
    (hfiled : t.generator.Filed) (events : List Event) : (t.run events).generator.Classified := by
  induction events generalizing t with
  | nil => exact h
  | cons e events ih =>
    have hline : (t.generator.onLine e.line).Filed := hfiled.of_same rfl rfl rfl rfl
    exact ih (classified_perform e.action (h.of_undisturbed (.of_same rfl rfl)) hline)
      (filed_perform e.action hline)

theorem Generator.Classified.start (l : Layout) : (Trace.start l).generator.Classified :=
  ⟨.nil, fun hhere => by cases hhere⟩

end

/-! ## Following the classes -/

/-- What the symbols of a class unfold to when every field that is an instance is followed to its
class and on from there. -/
inductive Generator.Unfolds (g : Generator) : List Symbol → Template → Prop
  | nil : Unfolds g [] .nil
  | value {f : Symbol} {fs : List Symbol} {ty : Ty} {t : Template} : f.type = .value ty →
      Unfolds g fs t → Unfolds g (f :: fs) (.variable f.name ty f.dims t)
  | object {f c : Symbol} {fs : List Symbol} {d : ScopeId} {inner t : Template} :
      f.typeName = c.name → f.ty = .record → c ∈ g.classes → c.scope = some d →
      Unfolds g (g.scope d).symbols inner → Unfolds g fs t →
      Unfolds g (f :: fs) (.nested f.name c.name inner t)

section

variable {g : Generator}

theorem unfolds_fields {cs fs : List Symbol} (hcs : cs ⊆ g.classes)
    (hunfolds : ∀ c ∈ cs, ∃ d, c.scope = some d ∧ g.Unfolds (g.scope d).symbols (g.template c))
    (hknown : ∀ f ∈ fs, f.Known g cs) : g.Unfolds fs (Scope.fields fs) := by
  induction fs with
  | nil => exact .nil
  | cons f fs ih =>
    obtain ⟨hf, hfs⟩ := List.forall_mem_cons.1 hknown
    rw [fields_cons]
    cases htype : f.type with
    | value ty => exact .value htype (ih hfs)
    | object className t =>
      obtain ⟨c, hc, rfl, rfl⟩ := hf className t htype
      obtain ⟨d, hscope, hinner⟩ := hunfolds c hc
      refine .object ?_ ?_ (hcs hc) hscope hinner (ih hfs)
      · simp [Symbol.typeName, htype]
      · simp [Symbol.ty, htype]

/-- Every class unfolds to its template. -/
theorem Ranked.unfolds {cs : List Symbol} (h : Ranked g cs) (hcs : cs ⊆ g.classes) :
    ∀ c ∈ cs, ∃ d, c.scope = some d ∧ g.Unfolds (g.scope d).symbols (g.template c) := by
  induction h with
  | nil => simp
  | @cons c cs d hscope _ hknown _ _ ih =>
    have hbehind := (List.cons_subset.1 hcs).2
    intro c' hc'
    rcases List.mem_cons.1 hc' with rfl | hc'
    · refine ⟨d, hscope, ?_⟩
      rw [template_of_scope hscope]
      exact unfolds_fields hbehind (ih hbehind) hknown
    · exact ih hbehind c' hc'

end

/-! ## Addresses of an instance -/

/-- The addresses of a stored field. -/
def Placement.block (p : Placement) : Block := ⟨p.ty, p.address, p.size⟩

/-- What is stored one after another lies apart from itself and from all that was stored before. -/
theorem Stores.keeps {segment : Segment} {ps : List Placement} {m m' : Memory} {bs : List Block}
    (h : Stores segment m ps m') (hkeeps : m.Keeps bs) :
    m'.Keeps (ps.map Placement.block ++ bs) ∧ ∀ p ∈ ps, m.layout.Keeps segment p.block := by
  induction h generalizing bs with
  | nil => exact ⟨hkeeps, by simp⟩
  | @cons p ps m m₁ m' halloc _ ih =>
    obtain ⟨hkeeps₁, hp⟩ := hkeeps.alloc halloc
    obtain ⟨hkeeps', hps⟩ := ih hkeeps₁
    refine ⟨hkeeps'.subperm (List.perm_middle.symm.subperm), List.forall_mem_cons.2 ⟨hp, ?_⟩⟩
    rw [← Memory.layout_alloc halloc]
    exact hps

/-! ## Instances -/

/-- A declaration has made an instance of a class. The new variable leads to the first of the new
directories, which copies the class. All directories that the copy leads to are new, each of them is
there for one field, and of the old ones only the innermost changes, which gets the variable. -/
structure Instance (g : Generator) (c sym : Symbol) (ps : List Placement) (g' : Generator) :
    Prop where
  symbol : sym = innerSymbol sym.name c.name (g.template c) g.scopes.size
  copied : ∃ syms ids, g'.scope g.scopes.size = ⟨sym.name, .object, some sym.name, syms⟩ ∧
    (g.template c).Copied g'.scope syms ids ps ∧ newIds g.scopes g'.scopes = g.scopes.size :: ids
  others : ∀ i < g.scopes.size,
    g'.scope i = if i = g.current then (g.scope i).add sym else g.scope i

section

variable {g g' : Generator} {id typeName : Bytes} {o : DeclOptions} {sym : Symbol}

theorem scopes_entering (g : Generator) (o : DeclOptions) (scope : ScopeId) :
    (g.entering o scope).scopes = g.scopes := by
  unfold Generator.entering
  split
  · rfl
  · rfl

theorem scope_entering (g : Generator) (o : DeclOptions) (scope : ScopeId) :
    (g.entering o scope).scope = g.scope := by
  unfold Generator.scope
  rw [scopes_entering]

/-- Outside of a class, what is declared under no type of values is an instance. -/
theorem Addition.instance (hfiled : g.Filed) (hhere : g.here.kind ≠ .record)
    (hword : Ty.ofWord? typeName = none) (h : Addition g id typeName o sym g') :
    sym.name = id ∧ ∃ c ∈ g.classes, c.name = typeName ∧ ∃ ps m, Instance g c sym ps g' ∧
      Stores g.segment g.memory ps m := by
  cases h with
  | field hrecord => exact absurd hrecord hhere
  | stored _ _ _ hother | param _ _ _ hother | function _ _ hother =>
    rw [hword] at hother
    cases hother
  | @object c m scopes syms ps _ _ _ _ hlookup hrecord _ hgrows hstores hcopied =>
    obtain ⟨hclass, hname⟩ := mem_classes_of_lookup hfiled hlookup hrecord
    obtain ⟨scopes', ids, rfl, hgrows', hnew, hids, hcopied'⟩ :=
      hgrows.object (innerSymbol id c.name (g.template c) g.scopes.size) hfiled.current hcopied
    refine ⟨rfl, c, hclass, hname, ps, m, ⟨rfl, ⟨syms, ids, ?_, ?_, ?_⟩, fun i hi => ?_⟩, hstores⟩
    · rw [scope_entering]
      exact hnew
    · rw [scope_entering]
      exact hcopied'
    · rw [scopes_entering]
      exact hids
    · rw [scope_entering]
      split
      · rename_i heq
        subst heq
        exact hgrows'.here
      · rename_i hne
        exact hgrows'.others hi hne

end

/-- Classes and instances after any actions. Every class has fields of classes declared before it
only, so that following the classes comes to an end with the template of the class, and making an
instance comes to an end as well. Outside of classes, a variable whose type is none of the types of
values is an instance of the class of this name, and its fields lie in the segment of the place,
apart from each other and from all that is stored. -/
theorem class_instances {l : Layout} {events : List Event} {t : Trace} {g : Generator} {n : Int}
    (ht : t = (Trace.start l).run events) (hg : g = t.generator.onLine n) :
    Ranked g g.classes ∧
      (∀ c ∈ g.classes, (∃ d, c.scope = some d ∧ g.Unfolds (g.scope d).symbols (g.template c)) ∧
        ∀ object, (∃ g', instantiate object (g.template c) g = .ok g.scopes.size g') ∨
          ∃ path e g', instantiate object (g.template c) g =
            .error (.fault (.noRoom (.field object path) e)) g') ∧
      ∀ id typeName o sym g', g.here.kind ≠ .record → Ty.ofWord? typeName = none →
        declare id typeName o g = .ok sym g' →
        sym.name = id ∧ ∃ c ∈ g.classes, c.name = typeName ∧ ∃ ps, Instance g c sym ps g' ∧
          (l.Disjoint → (∀ p ∈ ps, l.Keeps g.segment p.block) ∧
            (ps.map Placement.block ++ t.blocks).Pairwise Block.Apart) := by
  subst ht hg
  have hfiled : (((Trace.start l).run events).generator.onLine n).Filed :=
    ((Generator.Filed.start l).run events).of_same rfl rfl rfl rfl
  have hclassified : (((Trace.start l).run events).generator.onLine n).Classified :=
    ((Generator.Classified.start l).run (.start l) events).of_undisturbed (.of_same rfl rfl)
  refine ⟨hclassified.ranked, fun c hc => ⟨?_, fun object => instantiate_cases object _ _⟩, ?_⟩
  · exact hclassified.ranked.unfolds (List.Subset.refl _) c hc
  intro id typeName o sym g' hhere hword hdeclare
  obtain ⟨-, hadd⟩ := declare_succeeds hdeclare
  obtain ⟨hname, c, hc, hclass, ps, m, hinstance, hstores⟩ := hadd.instance hfiled hhere hword
  refine ⟨hname, c, hc, hclass, ps, hinstance, fun hl => ?_⟩
  have hkept := (Kept.start hl).run events
  obtain ⟨hkeeps, hsegment⟩ := hstores.keeps hkept.keeps
  have hlayout : (((Trace.start l).run events).generator.onLine n).memory.layout = l := hkept.layout
  rw [hlayout] at hsegment
  exact ⟨hsegment, hkeeps.apart⟩

namespace Lines

/-- A class of points, and one of lines between two of them. -/
def events : List Event :=
  [⟨1, .declareClass (ascii "Point")⟩, ⟨2, .declare (ascii "x") (ascii "int") {}⟩,
    ⟨3, .declare (ascii "y") (ascii "float") { dims := [2] }⟩, ⟨4, .leaveScope⟩,
    ⟨5, .declareClass (ascii "Line")⟩, ⟨6, .declare (ascii "a") (ascii "Point") {}⟩,
    ⟨7, .declare (ascii "b") (ascii "Point") {}⟩, ⟨8, .leaveScope⟩]

def trace : Trace := (Trace.start Layout.standard).run events

def state : Generator := trace.generator.onLine 9

/-- A line, if there is room for it. -/
def line? : Option Symbol :=
  match declare (ascii "l") (ascii "Line") {} state with
  | .ok sym _ => some sym
  | .error _ _ => none

theorem line_evaluated : state.here.kind = .program ∧ line?.isSome = true := by decide +kernel

/-- A line is a copy, with two points of its own. -/
theorem line_copied : Ty.ofWord? (ascii "Line") = none ∧ state.here.kind ≠ .record ∧
    ∃ c ∈ state.classes, c.name = ascii "Line" ∧ ∃ sym ps g',
      declare (ascii "l") (ascii "Line") {} state = .ok sym g' ∧ Instance state c sym ps g' ∧
      (ps.map Placement.block ++ trace.blocks).Pairwise Block.Apart := by
  obtain ⟨hkind, hsome⟩ := line_evaluated
  have hword : Ty.ofWord? (ascii "Line") = none := by decide
  have hhere : state.here.kind ≠ .record := by
    rw [hkind]
    simp
  refine ⟨hword, hhere, ?_⟩
  cases hdeclare : declare (ascii "l") (ascii "Line") {} state with
  | error stop g' =>
    unfold line? at hsome
    rw [hdeclare] at hsome
    cases hsome
  | ok sym g' =>
    obtain ⟨-, -, hinstances⟩ :=
      class_instances (show trace = (Trace.start Layout.standard).run events from rfl)
      (show state = _ from rfl)
    obtain ⟨-, c, hc, hname, ps, hinstance, hblocks⟩ :=
      hinstances (ascii "l") (ascii "Line") {} sym g' hhere hword hdeclare
    exact ⟨c, hc, hname, sym, ps, g', rfl, hinstance, (hblocks Layout.standard_disjoint).2⟩

end Lines

end Quadlang
