-- How the text of a program fails to compile: in the reading, or in an action whose meaning is
-- wrong or that finds no memory left, on a line of the text in either case.
import Quadlang.Proofs.Generator.Changes
import Quadlang.Proofs.Generator.Outline

namespace Quadlang

open Source Generate Success

variable {id typeName : Bytes} {o : DeclOptions} {events : List Event}

/-! ## Declarations of variables -/

section Declarations

variable {g g' : Generator}

theorem orderly_lift {α : Type} {x : Except Fault α} (h : ∀ cause, x = .error cause → cause.Meant) :
    Orderly (lift x) g := by
  cases x with
  | ok a => exact .of_ok rfl
  | error cause => exact .fault (h cause rfl)

theorem declaredType_meant (cause : Fault) (h : g.declaredType id typeName o = .error cause) :
    cause.Meant := by
  unfold Generator.declaredType at h
  repeat' split at h
  all_goals cases h
  all_goals exact .of_plain rfl

theorem declaredDims_meant (cause : Fault) (h : g.declaredDims id o = .error cause) :
    cause.Meant := by
  unfold Generator.declaredDims at h
  split at h
  all_goals cases h
  all_goals exact .of_plain rfl

theorem one_le_of_toInt {n : Int64} (h : 1 ≤ n.toInt) : 1 ≤ n := by
  rw [Int64.le_iff_toInt_le]
  exact h

theorem segment_named (g : Generator) : g.segment ∈ Segment.named := by
  unfold Generator.segment
  split <;> decide

theorem orderly_fillFields {object : Bytes} {segment : Segment} {t : Template} {scope : ScopeId}
    {path : List Bytes} (ht : t.Shaped) (hsegment : segment ∈ Segment.named)
    (hm : g.memory.layout = Layout.standard) :
    Orderly (fillFields object segment scope path t) g ∧
      ∀ u g', fillFields object segment scope path t g = .ok u g' →
        g'.memory.layout = Layout.standard := by
  induction t generalizing scope path g with
  | nil =>
    refine ⟨.of_ok rfl, ?_⟩
    rintro u g' ⟨⟩
    exact hm
  | «variable» name ty dims rest ih =>
    obtain ⟨hty, hdims, -, hrest⟩ := ht
    rw [fillFields]
    have hoffers := Memory.offers hm hsegment hty
    constructor
    · refine .bind (orderly_alloc hoffers (one_le_of_toInt hdims.positive)) fun a g₁ ha => ?_
      obtain ⟨m, hm₁, rfl⟩ := alloc_eq_ok ha
      refine .bind_ok rfl (ih hrest ?_).1
      exact (Memory.layout_alloc hm₁).trans hm
    · intro u g' h
      simp only [bind_eq_ok, modifyScope_ok] at h
      obtain ⟨a, g₁, ha, _, _, ⟨⟩, h⟩ := h
      obtain ⟨m, hm₁, rfl⟩ := alloc_eq_ok ha
      refine (ih hrest ?_).2 u g' h
      exact (Memory.layout_alloc hm₁).trans hm
  | nested name className fields rest ihfields ihrest =>
    obtain ⟨hfields, -, hrest⟩ := ht
    rw [fillFields]
    constructor
    · refine .bind_ok rfl (.bind (ihfields hfields (by exact hm)).1 fun u g₁ h => .bind_ok rfl ?_)
      exact (ihrest hrest (by exact (ihfields hfields (by exact hm)).2 u g₁ h)).1
    · intro u g' h
      simp only [bind_eq_ok] at h
      obtain ⟨_, _, hnew, u₁, g₁, h₁, _, _, hmod, h⟩ := h
      obtain ⟨rfl, rfl⟩ := newScope_eq_ok hnew
      cases hmod
      exact (ihrest hrest (by exact (ihfields hfields (by exact hm)).2 u₁ g₁ h₁)).2 u g' h

theorem orderly_conclude {sym : Symbol} (henter : o.enter = false)
    (hparam : o.isParam = true → ∃ a callee, sym.kind = .variable (some a) ∧
      g.function = some (callee, g.current)) : Orderly (conclude sym o) g := by
  have hadd : o.isParam = true → Orderly (addParam sym) g := by
    intro hp
    obtain ⟨a, callee, hkind, hfunction⟩ := hparam hp
    refine .bind_ok rfl ?_
    simp only [hfunction, hkind, if_true]
    exact .of_ok rfl
  unfold conclude
  simp only [henter, Bool.false_eq_true, if_false]
  split
  · rename_i hp
    exact .bind (hadd hp) fun _ _ _ => .of_ok rfl
  · exact .of_ok rfl

/-- A declaration of a variable or of a parameter fails for its meaning or for want of memory. -/
theorem orderly_declare_variable (hfun : o.isFunction = false) (henter : o.enter = false)
    (hparam : o.isParam = true →
      g.here.kind ≠ .record ∧ ∃ callee, g.function = some (callee, g.current))
    (hshape : g.ClassesShaped) (hm : g.memory.layout = Layout.standard) :
    Orderly (declare id typeName o) g := by
  refine .bind_ok rfl (.guard (by exact .of_plain rfl) fun _ => ?_)
  refine .bind (orderly_lift declaredType_meant) fun type g₁ h => ?_
  obtain ⟨htype, rfl⟩ := lift_eq_ok h
  refine .bind (orderly_lift declaredDims_meant) fun dims g₁ h => ?_
  obtain ⟨hdims, rfl⟩ := lift_eq_ok h
  obtain ⟨n, hlayOut⟩ := declaredDims_eq_ok hdims
  have hvariable : Orderly (declareVariable id type dims o) g := by
    rw [declareVariable_eq]
    refine .bind_ok rfl ?_
    split
    · rename_i hrecord
      exact .bind_ok rfl (orderly_conclude henter fun hp => absurd hrecord (hparam hp).1)
    · rcases declaredType_eq_ok htype with ⟨ty, hword, hvoid, rfl⟩ |
        ⟨-, -, hparam, c, hc, hrec, hself, rfl⟩
      · have hwidest : 1 ≤ g.memory.layout.widest.toInt := by
          rw [hm, widest_standard]
          omega
        obtain ⟨hstrided, -, -, htotal⟩ := Dim.layOut_strided (by omega) hlayOut
        have hsize : 1 ≤ Dim.total dims := one_le_of_toInt (htotal ▸ hstrided.positive)
        have hoffers : g.memory.Offers g.segment ty :=
          Memory.offers hm (segment_named g) (isPrimitive_of_ofWord? hword (hvoid hfun))
        refine .bind (orderly_alloc hoffers hsize) fun a g₁ ha => .bind_ok rfl ?_
        obtain ⟨m, -, rfl⟩ := alloc_eq_ok ha
        refine orderly_conclude henter fun hp => ?_
        obtain ⟨callee, hfunction⟩ := (hparam hp).2
        exact ⟨a, callee, rfl, hfunction⟩
      · simp only [instantiate, bind_assoc, pure_bind]
        refine .bind_ok rfl (.bind_ok rfl (.bind ?_ fun _ _ _ => .bind_ok (addHere_ok _ _) ?_))
        · exact (orderly_fillFields (hshape hc hrec hself) (segment_named g) (by exact hm)).1
        · exact orderly_conclude henter fun hp => by simp [hparam] at hp
  cases type with
  | object className fields =>
    exact .guard (by exact .of_plain rfl) fun _ => hvariable
  | value ty =>
    refine .guard (by exact .of_plain rfl) fun _ => ?_
    rw [if_neg (by simp [hfun])]
    exact hvariable

/-! ## Places of declarations -/

/-- The states of a place where a text declares variables. -/
structure Site (I : Generator → Prop) : Prop where
  onLine : ∀ {g} (n : Int), I g → I (g.onLine n)
  waiting : ∀ {g}, I g → g.waiting = []
  shaped : ∀ {g}, I g → g.ClassesShaped
  layout : ∀ {g}, I g → g.memory.layout = Layout.standard
  declared : ∀ {g g' typeName ws u}, I g → declareAll typeName ws g = .ok u g' → I g'

theorem Site.top : Site fun g => ∃ d ps fs, Top d ps fs g where
  onLine n := fun ⟨d, ps, fs, h⟩ => ⟨d, ps, fs, h.onLine n⟩
  waiting := fun ⟨_, _, _, h⟩ => h.waiting
  shaped := fun {g} ⟨d, ps, _, h⟩ =>
    have hworld : World g.current d ps g.scopes g.memory := h.current.symm ▸ h.world
    hworld.classesShaped (.inl ⟨h.current, h.enclosing⟩)
  layout := fun ⟨_, _, _, h⟩ => h.world.layout
  declared := by
    rintro g g' typeName ws u ⟨d, ps, fs, h⟩ hall
    obtain ⟨new, htop, -⟩ := h.declareAll hall
    exact ⟨_, _, _, htop⟩

theorem Site.inFunction : Site fun g => ∃ d ps fs f params qs,
    InFunction d ps fs f params qs g where
  onLine n := fun ⟨d, ps, fs, f, params, qs, h⟩ => ⟨d, ps, fs, f, params, qs, h.onLine n⟩
  waiting := fun ⟨_, _, _, _, _, _, h⟩ => h.waiting
  shaped := fun ⟨_, _, _, _, _, _, h⟩ =>
    h.world.classesShaped (.inr ⟨h.enclosing, fun s hs => (h.inside.plain s hs).2⟩)
  layout := fun ⟨_, _, _, _, _, _, h⟩ => h.world.layout
  declared := by
    rintro g g' typeName ws u ⟨d, ps, fs, f, params, qs, h⟩ hall
    obtain ⟨new, hin, -⟩ := h.declareAll hall
    exact ⟨_, _, _, _, _, _, hin⟩

theorem Site.inRecord : Site fun g => ∃ id d ps fs fields, InRecord id d ps fs fields g where
  onLine n := fun ⟨id, d, ps, fs, fields, h⟩ => ⟨id, d, ps, fs, fields, h.onLine n⟩
  waiting := fun ⟨_, _, _, _, _, h⟩ => h.waiting
  shaped := by
    rintro g ⟨id, d, ps, fs, fields, h⟩
    refine h.world.classesShaped (.inr ⟨h.enclosing, fun s hs => ?_⟩)
    simp [Symbol.isRecord, (h.world.classes.fields h.inside.kind s hs).1]
  layout := fun ⟨_, _, _, _, _, h⟩ => h.world.layout
  declared := by
    rintro g g' typeName ws u ⟨id, d, ps, fs, fields, h⟩ hall
    exact ⟨_, _, _, _, _, (h.declareAll hall).1⟩

variable {I : Generator → Prop}

theorem Site.orderly_declareAll (hI : Site I) {ws : List Waiting} (hg : I g) :
    Orderly (declareAll typeName ws) g := by
  induction ws generalizing g with
  | nil => exact .of_ok rfl
  | cons w ws ih =>
    refine .bind (orderly_declare_variable rfl rfl nofun (hI.shaped hg) (hI.layout hg)) ?_
    intro sym g₁ h
    have hone : declareAll typeName [w] g = .ok () g₁ := by
      simp only [declareAll]
      rw [bind_of_ok h]
      rfl
    exact ih (hI.declared hg hone)

theorem orderly_sizes {sizes : List Int64} (h : g.waiting ≠ []) :
    OrderlyAll (sizes.map .addDim) g := by
  induction sizes generalizing g with
  | nil => exact orderlyAll_nil
  | cons size sizes ih =>
    obtain ⟨w, rest, hw⟩ := List.exists_cons_of_ne_nil h
    have hadd : ∀ n, addPendingDim size (g.onLine n) =
        .ok () { g.onLine n with waiting := { w with dims := w.dims ++ [size] } :: rest } := by
      intro n
      unfold addPendingDim
      rw [get_bind]
      simp only [show (g.onLine n).waiting = w :: rest from hw]
      rfl
    refine orderlyAll_cons (fun n => .bind_ok (hadd n) (.of_ok rfl)) ?_
    intro n r g₁ h
    simp only [perform, bind_eq_ok, pure_eq_ok] at h
    obtain ⟨_, _, hdim, -, rfl⟩ := h
    rw [hadd n] at hdim
    cases hdim
    exact ih (by simp)

theorem orderly_declarators {ds : List Declarator} :
    OrderlyAll (ds.flatMap Declarator.actions) g := by
  induction ds generalizing g with
  | nil => exact orderlyAll_nil
  | cons d ds ih =>
    refine orderlyAll_append (orderlyAll_cons (fun _ => .of_ok rfl) ?_) fun _ _ => ih
    rintro n r g₁ ⟨⟩
    exact orderly_sizes (by simp)

theorem Site.orderly_variables (hI : Site I) {v : Variables} (hg : I g) :
    OrderlyAll v.actions g := by
  refine orderlyAll_append orderly_declarators ?_
  intro g₁ h
  obtain ⟨n, rfl⟩ := perform_declarators h
  refine orderlyAll_singleton fun n' => .answer (.bind_ok rfl (.bind_ok rfl ?_))
  refine hI.orderly_declareAll ?_
  have hempty : g.onLine n' = { g.onLine n' with waiting := [] } := by
    rw [← hI.waiting hg]
    rfl
  exact (congrArg I hempty).mp (hI.onLine n' hg)

theorem Site.orderly_allVariables (hI : Site I) {vs : List Variables} (hg : I g) :
    OrderlyAll (vs.flatMap Variables.actions) g := by
  induction vs generalizing g with
  | nil => exact orderlyAll_nil
  | cons v vs ih =>
    refine orderlyAll_append (hI.orderly_variables hg) ?_
    intro g₁ h
    obtain ⟨n, u, hall⟩ := perform_variables (hI.waiting hg) h
    exact ih (hI.declared (hI.onLine n hg) hall)

end Declarations

/-! ## Functions and classes -/

section Parts

variable {d : Declared} {ps qs : List Placement} {fs : List (Callee × List Param)} {f : Callee}
  {params : List Param} {g : Generator}

theorem Top.orderly_declareFunction (h : Top d ps fs g) :
    Orderly (declare id typeName { isFunction := true, enter := true }) g := by
  refine .bind_ok rfl (.guard (by exact .of_plain rfl) fun _ => ?_)
  refine .bind (orderly_lift declaredType_meant) fun type g₁ htype => ?_
  obtain ⟨htype', rfl⟩ := lift_eq_ok htype
  refine .bind (orderly_lift declaredDims_meant) fun dims g₁ hdims => ?_
  obtain ⟨-, rfl⟩ := lift_eq_ok hdims
  rcases declaredType_eq_ok htype' with ⟨ty, hword, -, rfl⟩ | ⟨-, hfun, -⟩
  · refine .guard (by exact .of_plain rfl) fun _ => ?_
    refine .bind_ok rfl (.guard (by exact .of_plain rfl) fun _ => ?_)
    have hty : ty = .void ∨ Typing.isPrimitive ty = true := by
      by_cases hvoid : ty = .void
      · exact .inl hvoid
      · exact .inr (isPrimitive_of_ofWord? hword hvoid)
    refine .bind (orderly_alloc (Memory.offers_stack h.world.layout hty) (by decide))
      fun _ _ _ => ?_
    exact .of_ok rfl
  · cases hfun

theorem InFunction.orderly_param {p : Parameter} (h : InFunction d ps fs f params qs g) :
    OrderlyAll [p.action] g := by
  refine orderlyAll_singleton fun n =>
    .answer (orderly_declare_variable rfl rfl ?_ ?_ h.world.layout)
  · exact fun _ => ⟨h.kind, f, h.function⟩
  · exact Site.inFunction.shaped ⟨d, ps, fs, f, params, qs, h.onLine n⟩

theorem InFunction.orderly_params {parameters : List Parameter}
    (h : InFunction d ps fs f params qs g) :
    OrderlyAll (parameters.map Parameter.action) g := by
  induction parameters generalizing params qs g with
  | nil => exact orderlyAll_nil
  | cons p parameters ih =>
    refine orderlyAll_append h.orderly_param fun g₁ hp => ?_
    obtain ⟨q, -, hin, -⟩ := h.param hp
    exact ih hin

theorem InFunction.orderly_body {b : Body} (h : InFunction d ps fs f params qs g)
    (hlit : Stmt.allLiterals Plain b.statements) : OrderlyAll b.actions g := by
  refine orderlyAll_append (Site.inFunction.orderly_allVariables ⟨_, _, _, _, _, _, h⟩) ?_
  intro g₁ hvars
  obtain ⟨new, hin, -⟩ := h.allVariables hvars
  exact orderly_stmts _ hin.ready hlit

theorem Top.orderly_body {b : Body} (h : Top d ps fs g)
    (hlit : Stmt.allLiterals Plain b.statements) : OrderlyAll b.actions g := by
  refine orderlyAll_append (Site.top.orderly_allVariables ⟨_, _, _, h⟩) ?_
  intro g₁ hvars
  obtain ⟨new, htop, -⟩ := h.allVariables hvars
  exact orderly_stmts _ htop.ready hlit

theorem Top.orderly_function {fn : Function} (h : Top d ps fs g)
    (hlit : Stmt.allLiterals Plain fn.body.statements) : OrderlyAll fn.actions g := by
  refine orderlyAll_append (orderlyAll_append (orderlyAll_cons ?_ ?_) ?_) ?_
  · exact fun n => .answer (h.onLine n).orderly_declareFunction
  · intro n r g₁ hopen
    obtain ⟨callee, -, -, hin, -⟩ := (h.onLine n).openFunction hopen
    exact hin.orderly_params
  · intro g₁ hp
    obtain ⟨n, r, g₂, hopen, hparams⟩ := performs_cons hp
    obtain ⟨callee, -, -, hin, -⟩ := (h.onLine n).openFunction hopen
    obtain ⟨more, -, hin', -⟩ := hin.allParams hparams
    exact hin'.orderly_body hlit
  · intro g₁ hp
    obtain ⟨g₂, hp, hbody⟩ := performs_append hp
    obtain ⟨n, r, g₃, hopen, hparams⟩ := performs_cons hp
    obtain ⟨callee, -, -, hin, -⟩ := (h.onLine n).openFunction hopen
    obtain ⟨more, -, hin', -⟩ := hin.allParams hparams
    obtain ⟨g₄, hvars, hstmts⟩ := performs_append hbody
    obtain ⟨new, hin'', -⟩ := hin'.allVariables hvars
    obtain ⟨code, m, n', -, rfl⟩ := perform_stmts _ hstmts
    refine orderlyAll_singleton fun n'' => .answer (.bind_ok rfl ?_)
    simp only [Generator.onLine, Generator.grow, hin''.function, ne_eq, not_true_eq_false, if_false]
    refine .bind_ok rfl (.bind_ok rfl (.bind_ok rfl ?_))
    simp only [hin''.enclosing]
    exact .of_ok rfl

theorem Top.orderly_record {fieldVars : List Variables} (h : Top d ps fs g) :
    OrderlyAll (Part.actions (.record id fieldVars)) g := by
  refine orderlyAll_append (orderlyAll_cons (fun n => .answer ?_) ?_) ?_
  · refine .bind_ok rfl (.guard (by exact .of_plain rfl) fun _ => ?_)
    exact .guard (by exact .of_plain rfl) fun _ => .of_ok rfl
  · intro n r g₁ hopen
    obtain ⟨hin, -⟩ := (h.onLine n).openRecord hopen
    exact Site.inRecord.orderly_allVariables ⟨_, _, _, _, _, hin⟩
  · intro g₁ hp
    obtain ⟨n, r, g₂, hopen, hfields⟩ := performs_cons hp
    obtain ⟨hin, -⟩ := (h.onLine n).openRecord hopen
    have hin' := (hin.allVariables hfields).1
    refine orderlyAll_singleton fun n => .answer (.bind_ok rfl ?_)
    simp only [Generator.onLine, hin'.enclosing]
    exact .of_ok rfl

end Parts

/-! ## Programs -/

section Programs

variable {d : Declared} {ps : List Placement} {rs : List Routine} {code : List Quad} {g : Generator}

theorem Underway.orderly_part {part : Part} (h : Underway Plain d ps rs code g)
    (hlit : ∀ f, part = .function f → Stmt.allLiterals Plain f.body.statements) :
    OrderlyAll part.actions g := by
  cases part with
  | record name fields => exact h.top.orderly_record
  | function f => exact h.top.orderly_function (hlit f rfl)
  | declaration v => exact Site.top.orderly_variables ⟨_, _, _, h.top⟩

theorem Underway.orderly_parts {parts : List Part} (h : Underway Plain d ps rs code g)
    (hlit : ∀ f, .function f ∈ parts → Stmt.allLiterals Plain f.body.statements) :
    OrderlyAll (parts.flatMap Part.actions) g := by
  induction parts generalizing d ps rs code g with
  | nil => exact orderlyAll_nil
  | cons part parts ih =>
    have hpart : ∀ f, part = .function f → Stmt.allLiterals Plain f.body.statements :=
      fun f hf => hlit f (by simp [hf])
    refine orderlyAll_append (h.orderly_part hpart) fun g₁ hp => ?_
    obtain ⟨new, rs', code', hunder, -⟩ := h.part hp hpart
    exact ih hunder fun f hf => hlit f (List.mem_cons_of_mem _ hf)

theorem Underway.orderly_main {main : Body} (h : Underway Plain d ps rs code g)
    (hlit : Stmt.allLiterals Plain main.statements) :
    OrderlyAll (.main :: main.actions) g := by
  refine orderlyAll_step rfl (fun n => .of_ok (h.begins n)) ?_
  intro n _ _ hmain
  rw [h.begins n] at hmain
  cases hmain
  exact (h.top.jumped n).orderly_body hlit

/-- The actions of a program fail only for its meaning. -/
theorem orderly_tree {t : Tree} (hlit : t.Literals Plain) :
    OrderlyAll t.actions Generator.initial := by
  obtain ⟨hfunctions, hmain⟩ := hlit
  have hstart : OrderlyAll [.start t.name] Generator.initial :=
    orderlyAll_singleton fun n => .of_ok rfl
  rw [Tree.actions, ← List.singleton_append]
  refine orderlyAll_append (orderlyAll_append hstart ?_) ?_
  · intro g₁ hp
    exact (underway_start hp).orderly_parts hfunctions
  · intro g₁ hp
    obtain ⟨g₂, hp, hparts⟩ := performs_append hp
    obtain ⟨new, rs, code, hunder, -⟩ := (@underway_start Plain _ _ hp).parts hparts hfunctions
    exact hunder.orderly_main hmain

/-- When all actions of a program are performed, nothing is left open. -/
theorem leftover_tree {t : Tree} (hlit : t.Literals Plain)
    (hp : Performs t.actions Generator.initial g) : leftover g = none := by
  obtain ⟨hfunctions, hmain⟩ := hlit
  obtain ⟨g₂, hp, hbody⟩ := performs_append hp
  rw [← List.singleton_append] at hp
  obtain ⟨g₁, hstart, hparts⟩ := performs_append hp
  obtain ⟨new, rs, code, hunder, -⟩ := (@underway_start Plain _ _ hstart).parts hparts hfunctions
  obtain ⟨-, -, -, -, -, -, -, -, -, -, -, -, -, hleft, -⟩ := hunder.main hbody hmain
  exact hleft

end Programs

/-! ## Texts -/

/-- Events that are only the beginning of a row fail as the whole row does. -/
theorem OrderlyAll.beginning {as bs : List Action} {g : Generator} (h : OrderlyAll (as ++ bs) g)
    (he : events.map (·.action) = as) : Orderly (performAll events) g := by
  intro stop g' hstop
  refine h (events ++ bs.map (Event.mk 0)) (by simp [he, Function.comp_def]) stop g' ?_
  rw [performAll_append]
  exact bind_eq_error.2 (.inl hstop)

/-- What fails stands on the line of its event. -/
theorem performAll_line {stop : Stop} {g g' : Generator}
    (h : performAll events g = .error stop g') :
    ∃ e ∈ events, g'.line = e.line := by
  induction events generalizing g with
  | nil => cases h
  | cons e events ih =>
    simp only [performAll, setLine, modify_bind, bind_eq_error] at h
    rcases h with h | ⟨r, g₁, -, h⟩
    · refine ⟨e, List.mem_cons_self, ?_⟩
      have hline := line_perform e.action (g.onLine e.line)
      rw [Generate.after, show perform e.action (g.onLine e.line) = _ from h] at hline
      exact hline
    · obtain ⟨e', he', hline⟩ := ih h
      exact ⟨e', List.mem_cons_of_mem _ he', hline⟩

/-- The reading of a text keeps the stacks of the generator in order. A text either compiles,
and then nothing is left open behind it, or it is refused while it is read: for what is written
there, or for a meaning that is no matter of the order of the actions, where memory is refused
only when it is used up. The refusal stands on a line of the text. -/
theorem compile_disciplined (text : Bytes) :
    (∃ p g, Generator.initial.parse text = (.ok (), g) ∧ finish g = .ok p g ∧
      compile text = .ok p) ∨
    (∃ s : SyntaxError, compile text = .error (.parse (.text s)) ∧ s.cause ≠ .tooDeep ∧
      1 ≤ s.line ∧ s.line ≤ lines text) ∨
    ∃ line cause, compile text = .error (.parse (.meaning line cause)) ∧
      1 ≤ line ∧ line ≤ lines text ∧ cause.category ≠ some .unbalanced ∧
      ∀ e ∈ cause.refusal?, e.category = some .addressSpaceExhausted := by
  obtain ⟨hok, herror⟩ := @scanFrom_lines (lines text) [] 1 text (by simp)
    (Nat.le_refl 1) (Nat.le_refl _)
  cases hscan : Token.scan text with
  | error e =>
    obtain ⟨⟨hone, hlast⟩, hcause⟩ := herror e hscan
    refine .inr (.inl ⟨e, ?_, hcause, hone, hlast⟩)
    simp [compile, Generator.parse, hscan]
  | ok ts =>
    obtain ⟨hlines, hlast⟩ := hok ts hscan
    obtain ⟨⟨t, bs, hlit, hactions, hbs⟩, hevents, hfails⟩ := read_beginning hlines hlast
    have horderly := orderly_tree hlit
    rw [hactions] at horderly
    cases hall : performAll (Grammar.read ts).events Generator.initial with
    | error stop g =>
      have hmeant := horderly.beginning rfl stop g hall
      obtain ⟨e, he, hline⟩ := performAll_line hall
      obtain ⟨hone, hn⟩ := hevents e he
      cases stop with
      | crash => exact hmeant.elim
      | fault cause =>
        refine .inr (.inr ⟨g.line, cause, ?_, ?_, ?_, hmeant.category, hmeant.refusal⟩)
        · simp [compile, Generator.parse, hscan, hall, TextError.ofStop]
        · rw [hline]
          exact_mod_cast hone
        · rw [hline]
          exact_mod_cast hn
    | ok u g =>
      cases herr : (Grammar.read ts).error with
      | some e =>
        obtain ⟨⟨hone, hn⟩, hcause⟩ := hfails e herr
        refine .inr (.inl ⟨e, ?_, hcause, hone, hn⟩)
        simp [compile, Generator.parse, hscan, hall, herr]
      | none =>
        have hperforms : Performs t.actions Generator.initial g :=
          ⟨_, by rw [hactions, hbs herr, List.append_nil], hall⟩
        have hleft : leftover (g.onLine (Grammar.read ts).line) = none :=
          (leftover_tree hlit hperforms :)
        have hparse : Generator.initial.parse text = (.ok (), g.onLine (Grammar.read ts).line) := by
          simp [Generator.parse, hscan, hall, herr, Generator.onLine]
        have hfinish : finish (g.onLine (Grammar.read ts).line) =
            .ok (g.onLine (Grammar.read ts).line).program (g.onLine (Grammar.read ts).line) := by
          unfold finish
          rw [get_bind, hleft]
          rfl
        refine .inl ⟨_, _, hparse, hfinish, ?_⟩
        simp [compile, hparse, hfinish]

end Quadlang
