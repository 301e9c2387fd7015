-- Declarations in the places where a text has them: in front of the main body and at its
-- beginning, in functions, and in classes. Each place keeps the world of the compilation in
-- order and adds no instructions.
import Mathlib.Data.List.Forall2
import Quadlang.Proofs.Generator.Lasting

namespace Quadlang

open Source Generate Success

variable {g g' : Generator} {ps : List Placement} {fs : List (Callee × List Param)}
  {typeName : Bytes} {ws : List Waiting} {u : Unit} {vs : List Variables} {d : Declared}

/-! ## Declarations of variables -/

theorem widest_standard : Layout.standard.widest.toInt = 5000 := by decide +kernel

/-- What expressions have begun and not yet ended. -/
def Generator.unfinished (g : Generator) :
    List Pending × List TypedOperand × List Reference × List Call :=
  (g.operators, g.operands, g.references, g.calls)

/-- Declarations leave the instructions and what is unfinished alone and only take memory. -/
structure Still (g g' : Generator) : Prop where
  quads : g'.quads = g.quads
  jumps : g'.jumps = g.jumps
  unfinished : g'.unfinished = g.unfinished
  memory : g.memory.Extends g'.memory
  constants : g'.memory.constants = g.memory.constants

theorem Still.refl (g : Generator) : Still g g := ⟨rfl, rfl, rfl, .refl _, rfl⟩

theorem Still.trans {g'' : Generator} (h : Still g g') (h' : Still g' g'') : Still g g'' :=
  ⟨h'.quads.trans h.quads, h'.jumps.trans h.jumps, h'.unfinished.trans h.unfinished,
    h.memory.trans h'.memory, h'.constants.trans h.constants⟩

/-- A compilation outside of functions and classes. -/
structure Top (d : Declared) (ps : List Placement) (fs : List (Callee × List Param))
    (g : Generator) : Prop where
  current : g.current = 0
  enclosing : g.enclosing = []
  function : g.function = none
  waiting : g.waiting = []
  world : World 0 d ps g.scopes g.memory
  functions : functionsOf (scopeAt g.scopes 0).symbols = fs

theorem Top.onLine (h : Top d ps fs g) (n : Int) : Top d ps fs (g.onLine n) :=
  ⟨h.current, h.enclosing, h.function, h.waiting, h.world, h.functions⟩

/-- What a declaration stores, name by name. -/
def waitingLeaves (classes : Classes) (typeName : Bytes) (ws : List Waiting) : List Leaf :=
  ws.flatMap fun w => Declarator.leaves classes typeName ⟨w.name, w.dims⟩

theorem Top.declareAll (h : Top d ps fs g) (hall : declareAll typeName ws g = .ok u g') :
    ∃ new, Top { d with leaves := d.leaves ++ waitingLeaves d.classes typeName ws }
      (ps ++ new) fs g' ∧ Still g g' ∧ Lasting g.scopes g'.scopes := by
  induction ws generalizing d ps g with
  | nil =>
    simp only [Generate.declareAll, pure_eq_ok] at hall
    obtain ⟨-, rfl⟩ := hall
    exact ⟨[], by simpa [waitingLeaves] using h, .refl g, .refl _⟩
  | cons w ws ih =>
    simp only [Generate.declareAll, bind_eq_ok] at hall
    obtain ⟨sym, g₁, hdeclare, hall⟩ := hall
    have hworld : World g.current d ps g.scopes g.memory := by
      rw [h.current]
      exact h.world
    have hplace : g.Shallow := .inl ⟨h.current, h.enclosing⟩
    have hkind : g.here.kind ≠ .record := by
      show (scopeAt g.scopes g.current).kind ≠ .record
      rw [h.current, h.world.program]
      simp
    have hcur : g.current < g.scopes.size := by
      rw [h.current]
      exact h.world.nonempty
    obtain ⟨m, scopes, s, new, rfl, hfind, hname, hfun, hrec, hgrows, hstores, hdeclares, hshaped,
      hleads⟩ := declare_stored hkind hcur (hworld.classesShaped hplace)
        (by rw [h.world.layout, widest_standard]; omega) hdeclare
    have hleaves := hworld.declares hplace hdeclares
    have hsegment : g.segment = .locals := by simp [Generator.segment, h.function]
    rw [hsegment] at hstores
    obtain ⟨-, hext, -, -, -, -, hconsts⟩ := hstores.spec h.world.valid
    rw [h.current] at hgrows
    have hfresh : s.name ∉ (scopeAt g.scopes 0).symbols.map (·.name) := by
      rw [hname]
      apply name_not_mem_of_find?
      rw [← h.current]
      exact hfind
    have hworld' := h.world.variable hgrows hfresh hfun hrec hstores hshaped hleads
    rw [hleaves] at hworld'
    have hfuns : functionsOf (scopeAt scopes 0).symbols = fs := by
      rw [hgrows.here]
      show functionsOf (_ ++ [s]) = fs
      rw [functionsOf_append, h.functions]
      simp [functionsOf, function?_eq_none hfun]
    have htop : Top { d with
      leaves := d.leaves ++ Declarator.leaves d.classes typeName ⟨w.name, w.dims⟩ }
        (ps ++ new) fs { g with memory := m, scopes } :=
      ⟨h.current, h.enclosing, h.function, h.waiting, hworld', hfuns⟩
    have hstill : Still g { g with memory := m, scopes } :=
      ⟨rfl, rfl, rfl, hext, hconsts⟩
    obtain ⟨new', htop', hstill', hlasting'⟩ := ih htop hall
    refine ⟨new ++ new', ?_, hstill.trans hstill', (hgrows.lasting h.world.program).trans hlasting'⟩
    simpa [waitingLeaves] using htop'

/-- The variables of a program, declaration by declaration. -/
theorem Top.declaration {v : Variables} (h : Top d ps fs g) (hv : Performs v.actions g g') :
    ∃ new, Top { d with leaves := d.leaves ++ v.leaves d.classes } (ps ++ new) fs g' ∧ Still g g' ∧
      Lasting g.scopes g'.scopes := by
  obtain ⟨n, u, hall⟩ := perform_variables h.waiting hv
  obtain ⟨new, htop, hstill, hlasting⟩ := (h.onLine n).declareAll hall
  refine ⟨new, ?_, ⟨hstill.quads, hstill.jumps, hstill.unfinished, hstill.memory, hstill.constants⟩,
    hlasting⟩
  simpa [waitingLeaves, Variables.leaves, List.flatMap_map, Declarator.waiting] using htop

theorem Top.allVariables (h : Top d ps fs g) (hv : Performs (vs.flatMap Variables.actions) g g') :
    ∃ new, Top { d with leaves := d.leaves ++ vs.flatMap (Variables.leaves d.classes) }
      (ps ++ new) fs g' ∧ Still g g' ∧ Lasting g.scopes g'.scopes := by
  induction vs generalizing d ps g with
  | nil =>
    obtain rfl := performs_nil.1 hv
    exact ⟨[], by simpa using h, .refl g, .refl _⟩
  | cons v vs ih =>
    obtain ⟨g₁, hv, hvs⟩ := performs_append hv
    obtain ⟨new, htop, hstill, hlasting⟩ := h.declaration hv
    obtain ⟨new', htop', hstill', hlasting'⟩ := ih htop hvs
    exact ⟨new ++ new', by simpa using htop', hstill.trans hstill', hlasting.trans hlasting'⟩

/-! ## Bodies of functions -/

/-- A compilation inside a function. -/
structure InFunction (d : Declared) (ps : List Placement) (fs : List (Callee × List Param))
    (f : Callee) (params : List Param) (qs : List Placement) (g : Generator) : Prop where
  enclosing : g.enclosing = [0]
  function : g.function = some (f, g.current)
  waiting : g.waiting = []
  world : World g.current d ps g.scopes g.memory
  inside : Inside g.current g.scopes g.memory qs
  functions : functionsOf (scopeAt g.scopes 0).symbols = fs ++ [(f, params)]

section Functions

variable {d : Declared} {ps qs : List Placement} {fs : List (Callee × List Param)} {f : Callee}
  {params : List Param} {g g' : Generator}

section

variable (h : InFunction d ps fs f params qs g)

include h

theorem InFunction.onLine (n : Int) : InFunction d ps fs f params qs (g.onLine n) :=
  ⟨h.enclosing, h.function, h.waiting, h.world, h.inside, h.functions⟩

theorem InFunction.segment : g.segment = .functions := by
  simp [Generator.segment, h.function]

theorem InFunction.kind : g.here.kind ≠ .record := by
  show (scopeAt g.scopes g.current).kind ≠ .record
  rw [h.inside.kind]
  simp

theorem InFunction.declareAll (hall : declareAll typeName ws g = .ok u g') :
    ∃ new, InFunction d ps fs f params (qs ++ new) g' ∧ Still g g' ∧
      new.map Placement.leaf = waitingLeaves d.classes typeName ws := by
  induction ws generalizing qs g with
  | nil =>
    simp only [Generate.declareAll, pure_eq_ok] at hall
    obtain ⟨-, rfl⟩ := hall
    exact ⟨[], by simpa using h, .refl g, rfl⟩
  | cons w ws ih =>
    simp only [Generate.declareAll, bind_eq_ok] at hall
    obtain ⟨sym, g₁, hdeclare, hall⟩ := hall
    have hplace : g.Shallow := .inr ⟨h.enclosing, fun s hs => (h.inside.plain s hs).2⟩
    have hcur : g.current < g.scopes.size := lt_of_kind (by rw [h.inside.kind]; simp)
    obtain ⟨m, scopes, s, new, rfl, hfind, hname, hfun, hrec, hgrows, hstores, hdeclares, hshaped,
      hleads⟩ := declare_stored h.kind hcur (h.world.classesShaped hplace)
        (by rw [h.world.layout, widest_standard]; omega) hdeclare
    rw [h.segment] at hstores
    obtain ⟨hv, hext, -, -, -, -, hconsts⟩ := hstores.spec h.world.valid
    have hleaves := h.world.declares hplace hdeclares
    have hworld := h.world.local h.inside hgrows hext hv
    have hinside := h.inside.variable h.world.valid hgrows hfun hrec hstores hshaped hleads
    have hne := Inside.ne_zero h.world h.inside
    have hfuns : functionsOf (scopeAt scopes 0).symbols = fs ++ [(f, params)] := by
      rw [hgrows.others h.world.nonempty (Ne.symm hne)]
      exact h.functions
    have hin : InFunction d ps fs f params (qs ++ new) { g with memory := m, scopes } :=
      ⟨h.enclosing, h.function, h.waiting, hworld, hinside, hfuns⟩
    have hstill : Still g { g with memory := m, scopes } := ⟨rfl, rfl, rfl, hext, hconsts⟩
    obtain ⟨new', hin', hstill', hleaves'⟩ := ih hin hall
    refine ⟨new ++ new', by simpa using hin', hstill.trans hstill', ?_⟩
    simp [waitingLeaves, hleaves, hleaves']

theorem InFunction.allVariables (hv : Performs (vs.flatMap Variables.actions) g g') :
    ∃ new, InFunction d ps fs f params (qs ++ new) g' ∧ Still g g' ∧
      new.map Placement.leaf = vs.flatMap (Variables.leaves d.classes) := by
  induction vs generalizing qs g with
  | nil =>
    obtain rfl := performs_nil.1 hv
    exact ⟨[], by simpa using h, .refl g, rfl⟩
  | cons v vs ih =>
    obtain ⟨g₁, hv, hvs⟩ := performs_append hv
    obtain ⟨n, u, hall⟩ := perform_variables h.waiting hv
    obtain ⟨new, hin, hstill, hleaves⟩ := (h.onLine n).declareAll hall
    have hstill' : Still g g₁ := ⟨hstill.quads, hstill.jumps, hstill.unfinished, hstill.memory,
      hstill.constants⟩
    obtain ⟨new', hin', hstill'', hleaves'⟩ := ih hin hvs
    refine ⟨new ++ new', by simpa using hin', hstill'.trans hstill'', ?_⟩
    rw [List.map_append, List.flatMap_cons, hleaves, hleaves']
    simp [waitingLeaves, Variables.leaves, List.flatMap_map, Declarator.waiting]

end

/-- A parameter as a variable of its function. -/
def Param.placement (p : Param) : Placement := ⟨[p.name], p.ty, [], p.address⟩

/-- The parameter that a source declares, but for its address. -/
def Param.Declared (q : Param) (p : Parameter) : Prop :=
  q.name = p.name ∧ Ty.ofWord? p.typeName = some q.ty

theorem InFunction.param {p : Parameter} (h : InFunction d ps fs f params qs g)
    (hp : Performs [p.action] g g') :
    ∃ q : Param, q.Declared p ∧ InFunction d ps fs f (params ++ [q]) (qs ++ [q.placement]) g' ∧
      Still g g' := by
  obtain ⟨n, r, hperform⟩ := performs_singleton hp
  simp only [Parameter.action, Action.declareParam, perform, bind_eq_ok, pure_eq_ok] at hperform
  obtain ⟨sym, _, hdeclare, -, rfl⟩ := hperform
  have h' := h.onLine n
  obtain ⟨ty, a, m, callee, hword, hty, -, hfun, ha, rfl⟩ := declare_param h'.kind hdeclare
  rw [h'.function] at hfun
  obtain ⟨rfl, -⟩ := Prod.mk.inj (Option.some.inj hfun)
  rw [h'.segment] at ha
  obtain ⟨scopes', hscopes, hworld, hinside, hfuns⟩ :=
    h'.world.param p.name h'.inside hty ha h'.functions
  rw [← hscopes]
  have halloc := h.world.valid.alloc ha
  exact ⟨⟨p.name, ty, a⟩, ⟨rfl, hword⟩, ⟨h.enclosing, h.function, h.waiting, hworld,
    hinside, hfuns⟩, ⟨rfl, rfl, rfl, halloc.extends, halloc.constants⟩⟩

theorem InFunction.allParams {parameters : List Parameter} (h : InFunction d ps fs f params qs g)
    (hp : Performs (parameters.map Parameter.action) g g') :
    ∃ more, List.Forall₂ Param.Declared more parameters ∧
      InFunction d ps fs f (params ++ more) (qs ++ more.map Param.placement) g' ∧ Still g g' := by
  induction parameters generalizing params qs g with
  | nil =>
    obtain rfl := performs_nil.1 hp
    exact ⟨[], .nil, by simpa using h, .refl g⟩
  | cons p parameters ih =>
    rw [List.map_cons, ← List.singleton_append] at hp
    obtain ⟨g₁, hp, hrest⟩ := performs_append hp
    obtain ⟨q, hq, hin, hstill⟩ := h.param hp
    obtain ⟨more, hmore, hin', hstill'⟩ := ih hin hrest
    exact ⟨q :: more, .cons hq hmore, by simpa using hin', hstill.trans hstill'⟩

end Functions

/-! ## Bodies of classes -/

/-- A compilation inside a class with some fields. -/
structure InRecord (id : Bytes) (d : Declared) (ps : List Placement)
    (fs : List (Callee × List Param)) (fields : List Leaf) (g : Generator) : Prop where
  enclosing : g.enclosing = [0]
  function : g.function = none
  waiting : g.waiting = []
  world : World g.current d ps g.scopes g.memory
  inside : InClass id g.current g.scopes
  fields : (Scope.fields (scopeAt g.scopes g.current).symbols).leaves = fields
  functions : functionsOf (scopeAt g.scopes 0).symbols = fs

section Records

variable {id : Bytes} {d : Declared} {ps : List Placement} {fs : List (Callee × List Param)}
  {fields : List Leaf} {g g' : Generator}

theorem InRecord.onLine (h : InRecord id d ps fs fields g) (n : Int) :
    InRecord id d ps fs fields (g.onLine n) :=
  ⟨h.enclosing, h.function, h.waiting, h.world, h.inside, h.fields, h.functions⟩

theorem InRecord.declareAll (h : InRecord id d ps fs fields g)
    (hall : declareAll typeName ws g = .ok u g') :
    InRecord id d ps fs (fields ++ waitingLeaves d.classes typeName ws) g' ∧ Still g g' := by
  induction ws generalizing fields g with
  | nil =>
    simp only [Generate.declareAll, pure_eq_ok] at hall
    obtain ⟨-, rfl⟩ := hall
    exact ⟨by simpa [waitingLeaves] using h, .refl g⟩
  | cons w ws ih =>
    simp only [Generate.declareAll, bind_eq_ok] at hall
    obtain ⟨sym, g₁, hdeclare, hall⟩ := hall
    have hplain : ∀ s ∈ (scopeAt g.scopes g.current).symbols, s.isRecord = false := by
      intro s hs
      simp [Symbol.isRecord, (h.world.classes.fields h.inside.kind s hs).1]
    have hplace : g.Shallow := .inr ⟨h.enclosing, hplain⟩
    obtain ⟨s, rfl, hfind, hname, hkind, hscope, hdeclares, hshaped⟩ := declare_field h.inside.kind
      (h.world.classesShaped hplace) (by rw [h.world.layout, widest_standard]; omega) hdeclare
    have hfresh : s.name ∉ (scopeAt g.scopes g.current).symbols.map (·.name) := by
      rw [hname]
      exact name_not_mem_of_find? hfind
    obtain ⟨hworld, hinside, hzero⟩ := h.world.field h.inside hkind hscope hshaped hfresh
    have hleaves := h.world.declares hplace hdeclares
    have hcur : g.current < g.scopes.size := lt_of_record h.inside.kind
    have hfields : (Scope.fields (scopeAt (g.scopes.modify g.current (·.add s))
      g.current).symbols).leaves =
        fields ++ Declarator.leaves d.classes typeName ⟨w.name, w.dims⟩ := by
      rw [scopeAt_modify, if_pos ⟨rfl, hcur⟩]
      show (Scope.fields (_ ++ [s])).leaves = _
      rw [fields_append, h.fields, hleaves]
    have hfuns : functionsOf (scopeAt (g.scopes.modify g.current (·.add s)) 0).symbols = fs := by
      rw [hzero]
      exact h.functions
    have hin : InRecord id d ps fs (fields ++ Declarator.leaves d.classes typeName ⟨w.name, w.dims⟩)
        { g with scopes := g.scopes.modify g.current (·.add s) } :=
      ⟨h.enclosing, h.function, h.waiting, hworld, hinside, hfields, hfuns⟩
    have hstill : Still g { g with scopes := g.scopes.modify g.current (·.add s) } :=
      ⟨rfl, rfl, rfl, .refl _, rfl⟩
    obtain ⟨hin', hstill'⟩ := ih hin hall
    exact ⟨by simpa [waitingLeaves] using hin', hstill.trans hstill'⟩

theorem InRecord.allVariables (h : InRecord id d ps fs fields g)
    (hv : Performs (vs.flatMap Variables.actions) g g') :
    InRecord id d ps fs (fields ++ vs.flatMap (Variables.leaves d.classes)) g' ∧ Still g g' := by
  induction vs generalizing fields g with
  | nil =>
    obtain rfl := performs_nil.1 hv
    exact ⟨by simpa using h, .refl g⟩
  | cons v vs ih =>
    obtain ⟨g₁, hv, hvs⟩ := performs_append hv
    obtain ⟨n, u, hall⟩ := perform_variables h.waiting hv
    obtain ⟨hin, hstill⟩ := (h.onLine n).declareAll hall
    have hin₁ : InRecord id d ps fs (fields ++ v.leaves d.classes) g₁ := by
      simpa [waitingLeaves, Variables.leaves, List.flatMap_map, Declarator.waiting] using hin
    have hstill' : Still g g₁ := ⟨hstill.quads, hstill.jumps, hstill.unfinished, hstill.memory,
      hstill.constants⟩
    obtain ⟨hin', hstill''⟩ := ih hin₁ hvs
    exact ⟨by simpa using hin', hstill'.trans hstill''⟩

theorem Top.openRecord {r : Reply} (h : Top d ps fs g)
    (hopen : perform (.declareClass id) g = .ok r g') : InRecord id d ps fs [] g' ∧ Still g g' := by
  simp only [perform, bind_eq_ok, pure_eq_ok] at hopen
  obtain ⟨sym, _, hopen, -, rfl⟩ := hopen
  obtain ⟨-, hfind, rfl⟩ := declareClass_eq_ok hopen
  have hname : id ∉ (scopeAt g.scopes 0).symbols.map (·.name) := by
    apply name_not_mem_of_find?
    rw [← h.current]
    exact hfind
  obtain ⟨hworld, hinside, hfuns⟩ := h.world.openClass hname
  rw [h.current, h.enclosing]
  refine ⟨⟨rfl, h.function, h.waiting, hworld, hinside, ?_, hfuns.trans h.functions⟩,
    ⟨rfl, rfl, rfl, .refl _, rfl⟩⟩
  show (Scope.fields (scopeAt (openScope _ _ _) _).symbols).leaves = []
  rw [openScope_new h.world.nonempty]
  rfl

/-- A class leaves its fields to its instances. -/
theorem Top.record {fieldVars : List Variables} (h : Top d ps fs g)
    (hp : Performs (Part.actions (.record id fieldVars)) g g') :
    Top (d.part (.record id fieldVars)) ps fs g' ∧ Still g g' := by
  obtain ⟨g₂, hp, hleave⟩ := performs_append hp
  obtain ⟨n, r, g₁, hopen, hfields⟩ := performs_cons hp
  obtain ⟨hin, hstill₁⟩ := (h.onLine n).openRecord hopen
  obtain ⟨hin', hstill₂⟩ := hin.allVariables hfields
  have hstill := hstill₁.trans hstill₂
  obtain ⟨n', r', hleft⟩ := performs_singleton hleave
  simp only [perform, bind_eq_ok, pure_eq_ok] at hleft
  obtain ⟨u, g₃, hleft, -, rfl⟩ := hleft
  obtain ⟨id', rest, henc, rfl⟩ := leaveScope_eq_ok hleft
  rw [show (g₂.onLine n').enclosing = [0] from hin'.enclosing] at henc
  obtain ⟨rfl, rfl⟩ := List.cons.inj henc
  have hclosed := hin'.world.closeClass hin'.inside
  rw [hin'.fields] at hclosed
  refine ⟨⟨rfl, rfl, hin'.function, hin'.waiting, ?_, hin'.functions⟩,
    ⟨hstill.quads, hstill.jumps, hstill.unfinished, hstill.memory, hstill.constants⟩⟩
  simpa [Declared.part, Generator.onLine] using hclosed

end Records

end Quadlang
