-- The outline of a compiled program: a jump to the main body, then the routines of the
-- functions one behind the other, then the main body, each with the code of its statements
-- under names that lead to what was declared before.
import Quadlang.Compile
import Quadlang.Proofs.Generator.Bodies
import Quadlang.Proofs.Generator.Performing
import Quadlang.Proofs.Source.Beginnings

namespace Quadlang

open Source Generate Success

variable {g g' : Generator} {P : Ty → Value → Prop} {code : List Quad} {t : Tree} {p : Program}
  {text : Bytes} {ps : List Placement}

/-! ## Routines -/

/-- The instruction that leaves a function. -/
def Callee.leave (f : Callee) : Quad := { op := .endFunction, res := .cell f.address }

/-- The code of a function, with the names that it was generated under and the memory before
and after. -/
structure Routine where
  callee : Callee
  params : List Param
  names : Names
  outer : List Placement
  inner : List Placement
  body : List Stmt
  code : List Quad
  before : Memory
  after : Memory

/-- The function of a routine as others call it. -/
def Routine.known (r : Routine) : Callee × List Param := (r.callee, r.params)

def Routine.quads (r : Routine) : List Quad := r.code ++ [r.callee.leave]

/-- All constants of some statements have a property once they are converted. -/
abbrev ConstantsOf (P : Ty → Value → Prop) (ss : List Stmt) : Prop :=
  Stmt.allLiterals (fun ty v => P ty (v.convert ty)) ss

/-- A routine is the code of its body, at the position where its calls enter it. -/
structure Routine.Compiled (P : Ty → Value → Prop) (r : Routine) (fs : List (Callee × List Param))
    (start : Nat) : Prop where
  target : r.callee.target = start
  slot : ∀ f ∈ fs, f.1.address ≠ r.callee.address
  code : StmtsCode r.names (some r.callee) start r.body r.before r.code r.after
  ready : r.names.Ready r.outer r.inner (fs ++ [r.known]) r.before
  literals : ConstantsOf P r.body

theorem Routine.Compiled.growth {r : Routine} {fs : List (Callee × List Param)} {start : Nat}
    (h : r.Compiled P fs start) : Growth IsTemporary P r.before r.code r.after :=
      h.code.growth h.ready h.literals

/-- Routines one behind the other, from position one on. -/
inductive Outline (P : Ty → Value → Prop) : List Routine → List Quad → Memory → Prop
  | start {m : Memory} : m.constants = [] → Outline P [] [] m
  | gap {rs : List Routine} {code : List Quad} {m m' : Memory} :
      Outline P rs code m → m.Extends m' → m'.constants = m.constants → Outline P rs code m'
  | routine {rs : List Routine} {code : List Quad} {r : Routine} :
      Outline P rs code r.before → r.Compiled P (rs.map Routine.known) (1 + code.length) →
      Outline P (rs ++ [r]) (code ++ r.quads) r.after

/-! ## Functions -/

section

variable {P : Ty → Value → Prop} {d : Declared} {ps qs : List Placement}
  {fs : List (Callee × List Param)} {g g' : Generator} {rs : List Routine}

theorem Top.ready (h : Top d ps fs g) : g.names.Ready ps [] fs g.memory where
  sound := by
    rw [← h.functions]
    exact h.world.names_sound h.current h.enclosing
  outer := fun p hp => ⟨h.world.stored.shaped p hp, h.world.stored.placed p hp⟩
  inner := by simp
  functions := by
    rw [← h.functions]
    exact h.world.functions
  valid := h.world.valid
  layout := h.world.layout

theorem InFunction.ready {f : Callee} {params : List Param} (h : InFunction d ps fs f params qs g) :
    g.names.Ready ps qs (fs ++ [(f, params)]) g.memory where
  sound := by
    rw [← h.functions]
    exact h.world.names_sound_inside h.inside h.enclosing
  outer := fun p hp => ⟨h.world.stored.shaped p hp, h.world.stored.placed p hp⟩
  inner := fun p hp => ⟨h.inside.stored.shaped p hp, h.inside.stored.placed p hp⟩
  functions := by
    rw [← h.functions]
    exact h.world.functions
  valid := h.world.valid
  layout := h.world.layout

theorem Top.openFunction {f : Function} {r : Reply} (h : Top d ps fs g)
    (hopen : perform (Action.declareFunction f.name f.typeName) g = .ok r g') :
    ∃ callee, callee.name = f.name ∧ callee.target = g.quads.size ∧
      InFunction d ps fs callee [] [] g' ∧ Still g g' ∧ ∀ f ∈ fs, f.1.address ≠ callee.address := by
  simp only [Action.declareFunction, perform, bind_eq_ok, pure_eq_ok] at hopen
  obtain ⟨sym, _, hdeclare, -, rfl⟩ := hopen
  obtain ⟨ty, a, m, hty, -, hfind, ha, rfl⟩ := declare_function hdeclare
  have hname : f.name ∉ (scopeAt g.scopes 0).symbols.map (·.name) := by
    apply name_not_mem_of_find?
    rw [← h.current]
    exact hfind
  obtain ⟨hworld, hinside, hfuns⟩ :=
    @World.openFunction _ _ _ _ _ _ _ _ g.quads.size h.world hname hty ha
  rw [h.functions] at hfuns
  have halloc := h.world.valid.alloc ha
  rw [h.current, h.enclosing]
  refine ⟨⟨f.name, ty, a, g.quads.size⟩, rfl, rfl, ⟨rfl, rfl, h.waiting, hworld, hinside, hfuns⟩,
    ⟨rfl, rfl, rfl, halloc.extends, halloc.constants⟩, ?_⟩
  rintro f hf rfl
  have hslot := (h.ready.functions f hf).slot
  have hholds := h.world.valid.holds_of_taken hslot
  obtain ⟨-, hsame⟩ := h.world.valid.disjoint.holds_inj hholds (halloc.holds halloc.first)
  rw [hsame] at hslot
  exact halloc.fresh halloc.first hslot

/-- A routine is that of a function of the source. -/
structure Routine.Of (r : Routine) (f : Function) : Prop where
  name : r.callee.name = f.name
  params : List.Forall₂ Param.Declared r.params f.params
  body : r.body = f.body.statements

/-- A routine is that of a body: the arrays that its names lead to are those that the body sees. -/
structure Routine.From (r : Routine) (body : Scene) : Prop where
  function : body.function = some r.callee.name
  statements : r.body = body.statements
  arrays : ∀ p ∈ r.outer ++ r.inner, p.dims ≠ [] → p.leaf ∈ body.leaves

/-- What the names of a routine led to, its body's names lead to in a later state. There the
parameters are found under their names. -/
structure Routine.Lasts (r : Routine) (g : Generator) : Prop where
  body : g.HasBody r.callee.name
  names : r.names.Within (g.namesIn (some r.callee.name))
  params : ∀ p ∈ r.params, (g.namesIn (some r.callee.name)).Finds p.placement

theorem Routine.Lasts.mono {r : Routine} (h : r.Lasts g) (hfiled : g.Filed)
    (hlasting : Lasting g.scopes g'.scopes) : r.Lasts g' := by
  have hwithin : (g.namesIn (some r.callee.name)).Within (g'.namesIn (some r.callee.name)) := by
    refine hlasting.within hfiled fun f hf => ?_
    rw [← Option.some.inj hf]
    exact h.body
  exact ⟨hlasting.hasBody h.body, h.names.trans hwithin, fun p hp => hwithin.finds (h.params p hp)⟩

/-- A function becomes a routine behind all instructions there are. -/
theorem Top.routine {f : Function} (h : Top d ps fs g) (hfiled : g.Filed)
    (hp : Performs f.actions g g') (hlit : ConstantsOf P f.body.statements) :
    ∃ r : Routine, Top d ps (fs ++ [r.known]) g' ∧ r.Compiled P fs g.quads.size ∧
      r.Of f ∧ g'.quads = g.quads ++ r.quads.toArray ∧ g'.jumps = g.jumps ∧
      g'.unfinished = g.unfinished ∧ g.memory.Extends r.before ∧
      r.before.constants = g.memory.constants ∧ g'.memory = r.after ∧ r.Lasts g' ∧
      ∀ body, d.body? (.function f) = some body → r.From body := by
  obtain ⟨g₅, hp, hend⟩ := performs_append hp
  unfold Body.actions at hp
  rw [List.cons_append, ← List.append_assoc, ← List.cons_append] at hp
  obtain ⟨g₃, hp, hstmts⟩ := performs_append hp
  have hnames := function_names g' hfiled hp
    (Steady.append.2 ⟨.map fun _ => rfl, .flatMap Variables.steady⟩)
  have hfiled₃ := filed_performs hfiled hp
  obtain ⟨n, reply, g₁, hopen, hp⟩ := performs_cons hp
  obtain ⟨g₂, hparams, hvars⟩ := performs_append hp
  obtain ⟨callee, hname, htarget, hin, hstill, hslot⟩ := (h.onLine n).openFunction hopen
  obtain ⟨params, hdeclared, hin₁, hstill₁⟩ := hin.allParams hparams
  obtain ⟨new, hin₂, hstill₂, hleaves⟩ := hin₁.allVariables hvars
  obtain ⟨code, m, n', hcode, rfl⟩ := perform_stmts _ hstmts
  have hstill' := (hstill.trans hstill₁).trans hstill₂
  have hcallee : g₃.callee? = some callee := by simp [Generator.callee?, hin₂.function]
  have hsize : g₃.quads.size = g.quads.size := congrArg Array.size hstill'.quads
  rw [hcallee, hsize] at hcode
  have hready := hin₂.ready
  have hgrowth := hcode.growth hready hlit
  obtain ⟨n'', reply', hleave⟩ := performs_singleton hend
  simp only [perform, bind_eq_ok, pure_eq_ok] at hleave
  obtain ⟨u, g₆, hleave, -, rfl⟩ := hleave
  obtain ⟨callee', id, rest, hfun, henc, rfl⟩ := endFunction_eq_ok hleave
  rw [show ((g₃.grow n' m code g₃.operands).onLine n'').function = some (callee, g₃.current) from
    hin₂.function] at hfun
  obtain ⟨rfl, -⟩ := Prod.mk.inj (Option.some.inj hfun)
  rw [show ((g₃.grow n' m code g₃.operands).onLine n'').enclosing = [0] from hin₂.enclosing] at henc
  obtain ⟨rfl, rfl⟩ := List.cons.inj henc
  obtain ⟨hbody, hnames⟩ := hnames rfl
  rw [← hname] at hbody hnames
  refine ⟨⟨callee, params, g₃.names, ps, params.map Param.placement ++ new, f.body.statements, code,
      g₃.memory, m⟩, ?_, ⟨htarget, hslot, hcode, hready, hlit⟩, ⟨hname, hdeclared, rfl⟩, ?_,
      hstill'.jumps,
    hstill'.unfinished, hstill'.memory, hstill'.constants, rfl, ⟨hbody, hnames ▸ .refl _, ?_⟩, ?_⟩
  · have hworld := hin₂.world.extend hgrowth.memory hgrowth.valid
    exact ⟨rfl, rfl, rfl, hin₂.waiting, hworld.leaveFunction (hin₂.inside.extend hgrowth.memory),
      hin₂.functions⟩
  · have hquads : g₃.quads = g.quads := hstill'.quads
    simp [Generator.grow, Generator.onLine, hquads, Routine.quads, Callee.leave]
  · intro p hp
    rw [hnames]
    exact hin₂.inside.finds (hfiled₃.names _) (List.mem_append_left _ (List.mem_map_of_mem hp))
  · rintro body hbody
    obtain rfl := Option.some.inj hbody
    refine ⟨congrArg some hname.symm, rfl, ?_⟩
    intro p hp hdims
    rcases List.mem_append.1 hp with hp | hp
    · exact List.mem_append_left _ (h.world.leaves ▸ List.mem_map_of_mem hp)
    · rcases List.mem_append.1 hp with hp | hp
      · obtain ⟨q, -, rfl⟩ := List.mem_map.1 hp
        exact absurd rfl hdims
      · exact List.mem_append_right _ (hleaves ▸ List.mem_map_of_mem hp)

/-! ## Parts -/

/-- A compilation between two parts of a program. The jump to the main body is open, and
nothing else is. -/
structure Underway (P : Ty → Value → Prop) (d : Declared) (ps : List Placement) (rs : List Routine)
    (code : List Quad) (g : Generator) : Prop where
  top : Top d ps (rs.map Routine.known) g
  quads : g.quads.toList = { op := .goto } :: code
  jumps : g.jumps = [0]
  unfinished : g.unfinished = ([], [], [], [])
  outline : Outline P rs code g.memory
  filed : g.Filed
  lasts : ∀ r ∈ rs, r.Lasts g

theorem Underway.lasting (h : Underway P d ps rs code g)
    (hlasting : Lasting g.scopes g'.scopes) : ∀ r ∈ rs, r.Lasts g' :=
  fun r hr => (h.lasts r hr).mono h.filed hlasting

/-- Declarations of variables and classes leave the routines alone. -/
theorem Underway.still {d' : Declared} {ps' : List Placement} {part : Part}
    (h : Underway P d ps rs code g) (hp : Performs part.actions g g')
    (htop : Top d' ps' (rs.map Routine.known) g') (hstill : Still g g')
    (hlasting : Lasting g.scopes g'.scopes) : Underway P d' ps' rs code g' :=
  ⟨htop, by rw [hstill.quads, h.quads], by rw [hstill.jumps, h.jumps],
    by rw [hstill.unfinished, h.unfinished], .gap h.outline hstill.memory hstill.constants,
    filed_performs h.filed hp, h.lasting hlasting⟩

def Source.Part.function? : Part → Option Function
  | .function f => some f
  | _ => none

def Source.Tree.functions (t : Tree) : List Function := t.parts.filterMap Part.function?

theorem Underway.part {part : Part} (h : Underway P d ps rs code g)
    (hp : Performs part.actions g g') (hlit : ∀ f, part = .function f →
      ConstantsOf P f.body.statements) :
    ∃ new rs' code', Underway P (d.part part) (ps ++ new) (rs ++ rs') (code ++ code') g' ∧
      List.Forall₂ Routine.Of rs' part.function?.toList ∧
      List.Forall₂ Routine.From rs' (d.body? part).toList := by
  cases part with
  | record name fields =>
    obtain ⟨htop, hstill⟩ := h.top.record hp
    obtain ⟨sym, -, hadds⟩ := class_adds h.filed hp
    exact ⟨[], [], [], by simpa using h.still hp htop hstill (hadds.lasting h.filed), .nil, .nil⟩
  | function f =>
    obtain ⟨r, htop, hcompiled, hof, hquads, hjumps, hstacks, hext, hconsts, hmem, hlasts, hbody⟩ :=
      h.top.routine h.filed hp (hlit f rfl)
    obtain ⟨sym, -, hadds⟩ := function_adds h.filed hp
    have hold := h.lasting (hadds.lasting h.filed)
    have hsize : g.quads.size = 1 + code.length := by
      rw [← Array.length_toList, h.quads, List.length_cons, Nat.add_comm]
    rw [hsize] at hcompiled
    refine ⟨[], [r], r.quads, ⟨?_, ?_, hjumps.trans h.jumps, hstacks.trans h.unfinished, ?_,
      filed_performs h.filed hp, List.forall_mem_append.2 ⟨hold,
      List.forall_mem_singleton.2 hlasts⟩⟩, .cons hof .nil, .cons (hbody _ rfl) .nil⟩
    · simpa [Declared.part] using htop
    · simp [hquads, h.quads]
    · rw [hmem]
      exact .routine (.gap h.outline hext hconsts) hcompiled
  | declaration v =>
    obtain ⟨new, htop, hstill, hlasting⟩ := h.top.declaration hp
    exact ⟨new, [], [], by simpa [Declared.part] using h.still hp htop hstill hlasting, .nil, .nil⟩

theorem Underway.parts {parts : List Part} (h : Underway P d ps rs code g)
    (hp : Performs (parts.flatMap Part.actions) g g')
    (hlit : ∀ f, .function f ∈ parts → ConstantsOf P f.body.statements) :
    ∃ new rs' code', Underway P (parts.foldl Declared.part d) (ps ++ new) (rs ++ rs')
      (code ++ code') g' ∧ List.Forall₂ Routine.Of rs' (parts.filterMap Part.function?) ∧
      List.Forall₂ Routine.From rs' (d.bodies parts) := by
  induction parts generalizing d ps rs code g with
  | nil =>
    obtain rfl := performs_nil.1 hp
    exact ⟨[], [], [], by simpa using h, .nil, .nil⟩
  | cons part parts ih =>
    obtain ⟨g₁, hp, hrest⟩ := performs_append hp
    obtain ⟨new, rs', code', hunder, hof, hfrom⟩ := h.part hp fun f hf => hlit f (by simp [hf])
    obtain ⟨new', rs'', code'', hunder', hof', hfrom'⟩ :=
      ih hunder hrest fun f hf => hlit f (List.mem_cons_of_mem _ hf)
    refine ⟨new ++ new', rs' ++ rs'', code' ++ code'', by simpa using hunder', ?_,
      List.rel_append hfrom hfrom'⟩
    have hsplit : (part :: parts).filterMap Part.function? =
        part.function?.toList ++ parts.filterMap Part.function? := by
      rw [List.filterMap_cons]
      cases part.function? <;> rfl
    rw [hsplit]
    exact List.rel_append hof hof'

end

/-! ## Programs -/

theorem World.initial {s : Scope} (hkind : s.kind = .program) (hsyms : s.symbols = []) :
    World 0 {} [] #[s] (Memory.ofLayout Layout.standard) := by
  have hzero : scopeAt #[s] 0 = s := rfl
  have hnone : ∀ id, (scopeAt #[s] id).kind ≠ .record := by
    intro id hid
    cases id with
    | zero =>
      rw [hzero, hkind] at hid
      cases hid
    | succ id =>
      cases hid
  refine ⟨by simp, by rw [hzero, hkind], by rw [hzero, hsyms]; exact .nil, ⟨?_, by simp, by simp⟩,
    .nil, rfl, ⟨fun hid => absurd hid (hnone _), fun hid => absurd hid (hnone _), ?_, ?_, by simp⟩,
    ?_, Memory.ofLayout_standard_valid, Memory.layout_ofLayout _⟩
  · rw [hzero, hsyms]
    exact .nil
  · rw [hzero, hsyms]
    simp
  · rw [hzero, hsyms]
    simp
  · rw [hzero, hsyms]
    simp [functionsOf]

theorem underway_start {P : Ty → Value → Prop} {name : Bytes} {g : Generator}
    (hp : Performs [.start name] Generator.initial g) : Underway P {} [] [] [] g := by
  have hfiled : g.Filed := filed_performs (Generator.Filed.start Layout.standard) hp
  obtain ⟨n, r, hstart⟩ := performs_singleton hp
  simp only [perform, start, bind_eq_ok, modify_eq_ok, pure_eq_ok] at hstart
  obtain ⟨_, _, ⟨_, _, rfl, hjump⟩, -, rfl⟩ := hstart
  obtain rfl := emitJump_eq_ok hjump
  have hworld : World 0 {} [] #[{ Scope.empty (ascii "global") .program none with name }]
      (Memory.ofLayout Layout.standard) := .initial rfl rfl
  exact ⟨⟨rfl, rfl, rfl, rfl, hworld, rfl⟩, rfl, rfl, rfl, .start rfl, hfiled, by simp⟩

/-- A program in its parts: the routines and their code, where its variables are, the names that its
main body sees, the code of the main body, and the memory before and after. -/
structure Assembly where
  routines : List Routine
  code : List Quad
  placements : List Placement
  names : Names
  main : List Quad
  before : Memory
  after : Memory

/-- A program is put together from the code of a tree. -/
structure Assembly.Of (P : Ty → Value → Prop) (t : Tree) (p : Program) (b : Assembly) : Prop where
  functions : List.Forall₂ Routine.Of b.routines t.functions
  outline : Outline P b.routines b.code b.before
  quads : p.quads.toList = jumpQuad (1 + b.code.length) :: b.code ++ b.main
  layout : p.layout = Layout.standard
  consts : p.consts = b.after.values
  ready : b.names.Ready b.placements [] (b.routines.map Routine.known) b.before
  body : StmtsCode b.names none (1 + b.code.length) t.main.statements b.before b.main b.after
  leaves : b.placements.map Placement.leaf = t.leaves
  apart : b.placements.Pairwise Placement.Apart
  paths : (b.placements.map (·.path)).Nodup
  finds : ∀ p ∈ b.placements, b.names.Finds p
  callees : ∀ r ∈ b.routines, b.names.callee? r.callee.name = some r.callee
  params : ∀ r ∈ b.routines, b.names.params r.callee = r.params
  literals : ConstantsOf P t.main.statements
  bodies : List.Forall₂ Routine.From b.routines (Declared.bodies {} t.parts)

/-- The names of a program are those of the state that its compilation ends in: those of the main
body are the program's, and those of a routine lead to what they led to in the function's
directory. -/
structure Assembly.Lasts (b : Assembly) (g : Generator) : Prop where
  names : b.names = g.names
  main : g.namesIn none = g.names
  routines : ∀ r ∈ b.routines, r.Lasts g

theorem Assembly.Lasts.within_main {b : Assembly} (h : b.Lasts g) :
    b.names.Within (g.namesIn none) := by
  rw [h.main, h.names]
  exact .refl _

theorem Assembly.Of.growth {b : Assembly} (h : b.Of P t p) :
    Growth IsTemporary P b.before b.main b.after := h.body.growth h.ready h.literals

theorem leftover_eq_none (henclosing : g.enclosing = []) (hjumps : g.jumps = [])
    (hwaiting : g.waiting = []) (hstacks : g.unfinished = ([], [], [], [])) :
    leftover g = none := by
  simp only [Generator.unfinished, Prod.mk.injEq] at hstacks
  obtain ⟨hoperators, hoperands, hreferences, hcalls⟩ := hstacks
  simp [leftover, henclosing, hjumps, hwaiting, hoperators, hoperands, hreferences, hcalls]

theorem Top.jumped {d : Declared} {fs : List (Callee × List Param)}
    (h : Top d ps fs g) (n : Int) {quads : Array Quad} {jumps : List Nat} :
    Top d ps fs (Generator.onLine { g with jumps, quads } n) :=
  ⟨h.current, h.enclosing, h.function, h.waiting, h.world, h.functions⟩

/-- The first instruction jumps to the main body once it begins. -/
theorem Underway.begins {d : Declared} {rs : List Routine}
    (h : Underway P d ps rs code g) (n : Int) :
    beginMain (g.onLine n) = .ok () (Generator.onLine { g with
      jumps := []
      quads := (jumpQuad (1 + code.length) :: code).toArray } n) := by
  have hquads : g.quads = ({ op := .goto } :: code).toArray :=
    Array.toList_inj.1 (by simp [h.quads])
  have henclosing : (g.onLine n).enclosing.isEmpty = true := by
    simp [Generator.onLine, h.top.enclosing]
  have hfill := fillJump_of_open (q := { op := .goto }) h.jumps (by rw [hquads]; rfl) rfl n
  unfold beginMain
  rw [get_bind]
  simp only [henclosing, if_true]
  refine hfill.trans ?_
  simp [hquads, jumpQuad, Nat.add_comm]

/-- The main body follows the routines, and the first instruction jumps to it. Then nothing
is open. -/
theorem Underway.main {d : Declared} {rs : List Routine} {main : Body}
    (h : Underway P d ps rs code g) (hp : Performs (.main :: main.actions) g g')
    (hlit : ConstantsOf P main.statements) :
    ∃ new before mainCode, Outline P rs code before ∧
      g'.quads.toList = jumpQuad (1 + code.length) :: code ++ mainCode ∧
      g'.names.Ready (ps ++ new) [] (rs.map Routine.known) before ∧
      StmtsCode g'.names none (1 + code.length) main.statements before mainCode g'.memory ∧
      (ps ++ new).map Placement.leaf =
        d.leaves ++ main.declarations.flatMap (Variables.leaves d.classes) ∧
      (ps ++ new).Pairwise Placement.Apart ∧ ((ps ++ new).map (·.path)).Nodup ∧
      (∀ p ∈ ps ++ new, g'.names.Finds p) ∧
      (∀ r ∈ rs, g'.names.callee? r.callee.name = some r.callee ∧
        g'.names.params r.callee = r.params) ∧
      g'.memory.layout = Layout.standard ∧ leftover g' = none ∧
      g'.namesIn none = g'.names ∧ ∀ r ∈ rs, r.Lasts g' := by
  obtain ⟨n, g₁, hmain, hbody⟩ := performs_done rfl hp
  rw [h.begins n] at hmain
  cases hmain
  obtain ⟨g₂, hvars, hstmts⟩ := performs_append hbody
  obtain ⟨new, htop', hstill, hlasting⟩ := (h.top.jumped n).allVariables hvars
  obtain ⟨mainCode, m, n', hcode, rfl⟩ := perform_stmts _ hstmts
  have hready := htop'.ready
  have hcallee : g₂.callee? = none := by simp [Generator.callee?, htop'.function]
  have hquads : g₂.quads = (jumpQuad (1 + code.length) :: code).toArray := hstill.quads
  rw [hcallee, hquads, List.size_toArray, List.length_cons, Nat.add_comm] at hcode
  have hgrowth := hcode.growth hready hlit
  refine ⟨new, g₂.memory, mainCode, .gap h.outline hstill.memory hstill.constants, ?_,
    hready, hcode, htop'.world.leaves, htop'.world.apart,
    htop'.world.stored.leads.paths_nodup htop'.world.distinct,
    fun p hp => htop'.world.finds htop'.current htop'.enclosing hp, fun r hr => ?_,
    hgrowth.memory.layout.trans htop'.world.layout,
    leftover_eq_none htop'.enclosing hstill.jumps htop'.waiting (hstill.unfinished.trans
    h.unfinished), namesIn_none htop'.current htop'.enclosing, h.lasting hlasting⟩
  · simp [Generator.grow, hquads]
  · have hknown : r.known ∈ functionsOf (scopeAt g₂.scopes 0).symbols := by
      rw [htop'.functions]
      exact List.mem_map_of_mem hr
    exact ⟨htop'.world.callee_of_mem htop'.current htop'.enclosing hknown,
      htop'.world.params_of_mem hknown⟩

theorem finish_eq_ok (h : finish g = .ok p g') : p = g.program := by
  simp only [finish, get_bind] at h
  cases hleft : leftover g with
  | some what => simp only [hleft, fault_eq_ok] at h
  | none =>
    simp only [hleft, pure_eq_ok] at h
    exact h.1.symm

/-- The state of a compilation after a text, if the text compiles. -/
theorem compile_eq_ok (h : compile text = .ok p) :
    ∃ ts r, Token.scan text = .ok ts ∧ Grammar.read ts = r ∧ r.error = none ∧
      ∃ g, performAll r.events Generator.initial = .ok () g ∧
        (Generator.initial.parse text).2 = g.onLine r.line ∧ p = g.program := by
  unfold compile Generator.parse at h
  unfold Generator.parse
  cases hscan : Token.scan text with
  | error e => simp [hscan] at h
  | ok ts =>
    simp only [hscan] at h ⊢
    cases hall : performAll (Grammar.read ts).events Generator.initial with
    | error stop g => simp [hall] at h
    | ok u g =>
      simp only [hall] at h ⊢
      cases herr : (Grammar.read ts).error with
      | some e => simp [herr] at h
      | none =>
        simp only [herr] at h ⊢
        refine ⟨ts, _, rfl, rfl, herr, g, hall, rfl, ?_⟩
        cases hfinish : finish (g.onLine (Grammar.read ts).line) with
        | error stop g' =>
          rw [Generator.onLine] at hfinish
          simp [hfinish] at h
        | ok p' g' =>
          rw [Generator.onLine] at hfinish
          simp only [hfinish, Except.ok.injEq] at h
          subst h
          have hprogram := finish_eq_ok hfinish
          exact hprogram

/-- A text is read as a tree: the actions that its tokens ask for are those of the tree. -/
def Source.Tree.ReadFrom (t : Tree) (text : Bytes) : Prop :=
  ∃ ts, Token.scan text = .ok ts ∧ (Grammar.read ts).events.map (·.action) = t.actions

/-- Reading a text decides whether it is read as a tree. -/
theorem Source.Tree.readFrom_of_scan (h : ((Token.scan text).toOption.any fun ts =>
      decide ((Grammar.read ts).events.map (·.action) = t.actions)) = true) : t.ReadFrom text := by
  cases hscan : Token.scan text with
  | error e =>
    rw [hscan] at h
    cases h
  | ok ts =>
    rw [hscan] at h
    exact ⟨ts, hscan, of_decide_eq_true h⟩

/-- A text that compiles spells a tree that it is read as. -/
theorem compile_spelled (h : compile text = .ok p) :
    ∃ (ts : Tokens) (t : Tree), Token.scan text = .ok ts ∧ t.Spelled ts.list ∧ t.ReadFrom text := by
  obtain ⟨ts, r, hscan, hread, herr, -⟩ := compile_eq_ok h
  obtain ⟨t, hspelled, hactions⟩ :=
    read_spelled hread herr (scanFrom_forall hscan (by simp) fun h => (first_kind h).1)
  subst hread
  exact ⟨ts, t, hscan, hspelled, ts, hscan, hactions⟩

/-- The constants of a tree are those that the tokens of its text spell. -/
theorem Source.Tree.ReadFrom.literals (hread : t.ReadFrom text)
    (h : compile text = .ok p) (hP : ∀ {ts}, Token.scan text = .ok ts →
      ∀ tok ∈ ts.list, ∀ ty v, constant? tok = some (ty, v) → P ty v) : t.Literals P := by
  obtain ⟨ts, t', hscan, hspelled, ts₁, hscan₁, hactions'⟩ := compile_spelled h
  obtain ⟨ts₂, hscan₂, hactions⟩ := hread
  rw [hscan₁] at hscan₂
  obtain rfl := Except.ok.inj hscan₂
  rw [Tree.literals_iff, ← hactions, hactions', ← Tree.literals_iff]
  exact hspelled.literals (hP hscan)

/-- Every program that a text compiles to is put together from the code of any tree that the
text is read as. -/
theorem Source.Tree.ReadFrom.assembled (hread : t.ReadFrom text)
    (h : compile text = .ok p) (P : Ty → Value → Prop)
    (hlit : t.Literals fun ty v => P ty (v.convert ty)) :
    ∃ b : Assembly, b.Lasts (Generator.initial.parse text).2 ∧ b.Of P t p := by
  obtain ⟨ts, r, hscan, hr, herr, g, hall, hparse, rfl⟩ := compile_eq_ok h
  obtain ⟨ts', hscan', hactions⟩ := hread
  rw [hscan] at hscan'
  obtain rfl := Except.ok.inj hscan'
  rw [hr] at hactions
  obtain ⟨hlit, hlit'⟩ := hlit
  have hperforms : Performs t.actions Generator.initial g := ⟨r.events, hactions, hall⟩
  obtain ⟨g₂, hperforms, hmain⟩ := performs_append hperforms
  rw [← List.singleton_append] at hperforms
  obtain ⟨g₁, hstart, hparts⟩ := performs_append hperforms
  have hunder : Underway P {} [] [] [] g₁ := underway_start hstart
  obtain ⟨new, rs, code, hunder', hfunctions, hbodies⟩ := hunder.parts hparts hlit
  obtain ⟨new', before, mainCode, houtline, hquads, hready, hcode, hleaves, hapart, hpaths,
    hfinds, hcallees, hlayout, -, hnone, hlasts⟩ := hunder'.main hmain hlit'
  refine ⟨⟨rs, code, new ++ new', g.names, mainCode, before, g.memory⟩, ?_, ?_⟩
  · rw [hparse]
    exact ⟨rfl, hnone, fun r hr => ⟨(hlasts r hr).body, (hlasts r hr).names, (hlasts r hr).params⟩⟩
  · exact ⟨hfunctions, houtline, hquads, hlayout, rfl, hready, hcode, hleaves, hapart,
      hpaths, hfinds, fun r hr => (hcallees r hr).1, fun r hr => (hcallees r hr).2, hlit', hbodies⟩

end Quadlang
