-- The typing rules of expressions and statements, said without the compilation: what the names of a
-- program resolve to, what types expressions have, and which statements are well typed. In the body
-- of a function or of the program, exactly what is well typed and finds room has code.
import Quadlang.Proofs.Generator.Directories
import Quadlang.Proofs.Generator.Generation
import Quadlang.Proofs.Source.Literals

namespace Quadlang

open Source

variable {base sym : Symbol} {name : Bytes} {members : List Bytes}

/-! ## Rules -/

/-- What is declared at a place of a program: the directories that are open, the innermost first,
and the directories behind instances. -/
structure Declarations where
  live : List Scope
  inside : ScopeId → Scope

/-- A name stands for its innermost declaration. -/
inductive Resolves (name : Bytes) : List Scope → Symbol → Prop
  | here {scope : Scope} {outer : List Scope} {sym : Symbol} : scope.find? name = some sym →
      Resolves name (scope :: outer) sym
  | around {scope : Scope} {outer : List Scope} {sym : Symbol} : scope.find? name = none →
      Resolves name outer sym → Resolves name (scope :: outer) sym

/-- Members lead from an instance to its fields. -/
inductive Follows (ds : Declarations) : Symbol → List Bytes → Symbol → Prop
  | nil {sym : Symbol} : Follows ds sym [] sym
  | cons {object field sym : Symbol} {className member : Bytes} {fields : Template}
    {inner : ScopeId}
      {members : List Bytes} : object.kind = .variable none →
      object.type = .object className fields →
      object.scope = some inner → (ds.inside inner).find? member = some field →
      Follows ds field members sym → Follows ds object (member :: members) sym

mutual

inductive HasType (ds : Declarations) : Expr → Ty → Prop
  | constant {ty : Ty} {v : Value} : HasType ds (.constant ty v) ty
  | group {e : Expr} {ty : Ty} : HasType ds e ty → HasType ds (.group e) ty
  | call {function : Bytes} {args : List Expr} {f : Symbol} {address : Addr} {target : Nat}
      {params : List Param} : Resolves function ds.live f →
      f.kind = .function address target params →
      HasTypes ds args (params.map (·.ty)) → f.ty ≠ .void → HasType ds (.call function args) f.ty
  | reference {name : Bytes} {members : List Bytes} {indices : List Expr} {base sym : Symbol}
      {address : Option Addr} : Resolves name ds.live base → Follows ds base members sym →
      sym.kind = .variable address → Typing.isPrimitive sym.ty = true →
      HasTypes ds indices (sym.dims.map fun _ => .int) →
      HasType ds (.reference name members indices) sym.ty
  | unary {op : UnaryOp} {e : Expr} {ty result : Ty} : HasType ds e ty →
      Typing.unary op ty = some result → HasType ds (.unary op e) result
  | binary {op : BinaryOp} {l r : Expr} {left right result : Ty} : HasType ds l left →
      HasType ds r right → Typing.binary op left right = some result →
      HasType ds (.binary op l r) result

inductive HasTypes (ds : Declarations) : List Expr → List Ty → Prop
  | nil : HasTypes ds [] []
  | cons {e : Expr} {es : List Expr} {ty : Ty} {tys : List Ty} : HasType ds e ty →
      HasTypes ds es tys → HasTypes ds (e :: es) (ty :: tys)

end

/-- A statement is well typed in the body of a function of some type, or outside of any. -/
inductive WellTyped (ds : Declarations) (function : Option Ty) : Stmt → Prop
  | assign {p : Place} {e : Expr} {target source : Ty} : HasType ds p.expr target →
      HasType ds e source → Typing.assignable target source = true →
      WellTyped ds function (.assign p e)
  | call {name : Bytes} {args : List Expr} {f : Symbol} {address : Addr} {target : Nat}
      {params : List Param} : Resolves name ds.live f → f.kind = .function address target params →
      HasTypes ds args (params.map (·.ty)) → WellTyped ds function (.call name args)
  | read {places : List Place} : (∀ p ∈ places, ∃ ty, HasType ds p.expr ty) →
      WellTyped ds function (.read places)
  | write {values : List Expr} : (∀ e ∈ values, ∃ ty, HasType ds e ty) →
      WellTyped ds function (.write values)
  | retNone : function = some .void → WellTyped ds function (.ret none)
  | retSome {e : Expr} {ty : Ty} : function = some ty → HasType ds e ty →
      WellTyped ds function (.ret (some e))
  | branch {c : Expr} {body : List Stmt} : HasType ds c .bool →
      (∀ s ∈ body, WellTyped ds function s) → WellTyped ds function (.branch c body)
  | branchElse {c : Expr} {body other : List Stmt} : HasType ds c .bool →
      (∀ s ∈ body, WellTyped ds function s) → (∀ s ∈ other, WellTyped ds function s) →
      WellTyped ds function (.branchElse c body other)
  | loop {c : Expr} {body : List Stmt} : HasType ds c .bool →
      (∀ s ∈ body, WellTyped ds function s) → WellTyped ds function (.loop c body)

/-- What is declared at this point of a compilation. -/
def Generator.declarations (g : Generator) : Declarations :=
  ⟨(g.current :: g.enclosing).map g.scope, g.scope⟩

/-- A compilation is in the main body of the program, or in the body of a function of some type. -/
inductive Generator.InBody (g : Generator) : Option Ty → Prop
  | main : g.here.kind = .program → g.function = none → InBody g none
  | function {f : Callee} : g.function = some (f, g.current) → InBody g (some f.ty)

/-! ## Names -/

theorem resolves_iff {scope : ScopeId → Scope} {ids : List ScopeId} :
    Resolves name (ids.map scope) sym ↔ ids.findSome? (fun id => (scope id).find? name) =
      some sym := by
  induction ids with
  | nil =>
    constructor
    · rintro ⟨⟩
    · intro h
      cases h
  | cons id ids ih =>
    rw [List.map_cons, List.findSome?_cons]
    cases hfind : (scope id).find? name with
    | some other =>
      constructor
      · rintro (⟨h⟩ | ⟨h, -⟩)
        · rw [← hfind, h]
        · rw [hfind] at h
          cases h
      · rintro ⟨⟩
        exact .here hfind
    | none =>
      rw [← ih]
      constructor
      · rintro (⟨h⟩ | ⟨-, h⟩)
        · rw [hfind] at h
          cases h
        · exact h
      · exact .around hfind

section States

variable {g : Generator}

theorem resolves_lookup :
    Resolves name g.declarations.live sym ↔ g.names.lookup name = some sym := resolves_iff

/-- A symbol is declared in a directory that is no class. -/
def Generator.Holds (g : Generator) (sym : Symbol) : Prop :=
  ∃ id, sym ∈ (g.scope id).symbols ∧ (g.scope id).kind ≠ .record

theorem Generator.InBody.here_ne {function : Option Ty} (h : g.InBody function) (hfiled : g.Filed) :
    g.here.kind ≠ .record := by
  cases h with
  | main hkind _ => simp [hkind]
  | function hf =>
    have hkind : g.here.kind = .function := hfiled.function _ _ hf
    simp [hkind]

theorem holds_of_lookup (h : g.Filed) (hhere : g.here.kind ≠ .record)
    (hlookup : g.names.lookup name = some sym) : g.Holds sym := by
  obtain ⟨id, hid, hsym⟩ := Generate.mem_of_lookup hlookup
  refine ⟨id, hsym, ?_⟩
  rcases List.mem_cons.1 hid with rfl | hid
  · exact hhere
  · exact (h.enclosing id hid).2

theorem callee_of_lookup (h : g.Filed) {f : Symbol} {address : Addr} {target : Nat}
    {params : List Param} (hlookup : g.names.lookup name = some f)
    (hkind : f.kind = .function address target params) :
    g.names.callee? name = some ⟨f.name, f.ty, address, target⟩ ∧
      g.names.params ⟨f.name, f.ty, address, target⟩ = params := by
  have hcallee : f.callee? = some ⟨f.name, f.ty, address, target⟩ := by simp [Symbol.callee?, hkind]
  refine ⟨Option.bind_eq_some_iff.2 ⟨f, hlookup, hcallee⟩, ?_⟩
  obtain ⟨id, -, hfind⟩ := List.exists_of_findSome?_eq_some hlookup
  obtain ⟨rfl, -⟩ := (h.symbols id f (List.mem_of_find?_eq_some hfind)).of_function hkind
  have hname : f.name = name := by simpa using List.find?_some hfind
  show (g.outermost.find? f.name).elim [] (·.params) = params
  rw [hname, show g.outermost.find? name = some f from hfind]
  simp [Symbol.params, hkind]

theorem lookup_of_callee (h : g.Filed) {f : Callee} (hf : g.names.callee? name = some f) :
    ∃ sym address target, g.names.lookup name = some sym ∧ sym.ty = f.ty ∧
      sym.kind = .function address target (g.names.params f) := by
  obtain ⟨sym, hlookup, hcallee⟩ := Option.bind_eq_some_iff.1 hf
  unfold Symbol.callee? at hcallee
  split at hcallee
  · rename_i address target params hkind
    obtain ⟨-, hparams⟩ := callee_of_lookup h hlookup hkind
    obtain rfl := Option.some.inj hcallee
    exact ⟨sym, address, target, hlookup, rfl, by rw [hparams, hkind]⟩
  · cases hcallee

/-! ## References -/

theorem follow?_of_follows (h : Follows g.declarations base members sym) :
    g.names.follow? base members = some sym := by
  induction h with
  | nil => rfl
  | @cons object field sym className member fields inner members hkind htype hscope hfind _ ih =>
    have hmember : g.names.member? object member = some field := by
      unfold Names.member?
      rw [if_neg (by simp [Symbol.isFunction, hkind]), hscope]
      exact hfind
    unfold Names.follow?
    rw [hmember]
    exact ih

/-- What an instance leads to belongs to no class. -/
theorem holds_of_field (h : g.Filed) {object field : Symbol} {member : Bytes} {inner : ScopeId}
    (hobject : g.Holds object) (hkind : object.kind = .variable none)
    (hscope : object.scope = some inner) (hfind : (g.scope inner).find? member = some field) :
    g.Holds field := by
  obtain ⟨id, hsym, hid⟩ := hobject
  refine ⟨inner, List.mem_of_find?_eq_some hfind, ?_⟩
  cases h.symbols id object hsym with
  | function _ _ _ hother | record hother | stored _ _ hother =>
    rw [hkind] at hother
    cases hother
  | field _ _ _ hrecord => exact absurd hrecord hid
  | object _ _ inner' _ hscope' _ _ hinner _ =>
    obtain rfl : inner' = inner := Option.some.inj (hscope'.symm.trans hscope)
    exact hinner ▸ (by simp)

theorem holds_of_follows (h : g.Filed) (hfollows : Follows g.declarations base members sym)
    (hbase : g.Holds base) : g.Holds sym := by
  induction hfollows with
  | nil => exact hbase
  | cons hkind _ hscope hfind _ ih => exact ih (holds_of_field h hbase hkind hscope hfind)

/-- A way through classes never ends at a variable that is stored. -/
theorem follows_of_follow? (h : g.Filed) {address : Addr} (hbase : g.Holds base)
    (hfollow : g.names.follow? base members = some sym)
    (hkind : sym.kind = .variable (some address)) :
    Follows g.declarations base members sym := by
  induction members generalizing base with
  | nil =>
    obtain rfl : base = sym := Option.some.inj hfollow
    exact .nil
  | cons member members ih =>
    obtain ⟨field, hmember, hfollow⟩ := Option.bind_eq_some_iff.1 hfollow
    unfold Names.member? at hmember
    split at hmember
    · cases hmember
    · rename_i hfunction
      obtain ⟨inner, hscope, hfind⟩ := Option.bind_eq_some_iff.1 hmember
      obtain ⟨id, hsym, hid⟩ := hbase
      cases h.symbols id base hsym with
      | function _ _ _ hbase => simp [Symbol.isFunction, hbase] at hfunction
      | field _ hnone => simp [hnone] at hscope
      | stored _ _ _ hnone => simp [hnone] at hscope
      | object className fields inner' hnone hscope' htype hvalued hinner hhere =>
        refine .cons hnone htype hscope hfind (ih ?_ hfollow)
        exact holds_of_field h ⟨id, hsym, hid⟩ hnone hscope hfind
      | record _ _ hfields =>
        have hrecord : (g.scope inner).kind = .record := hfields inner hscope
        have hzero : inner ≠ 0 := by
          rintro rfl
          rw [show (g.scope 0).kind = .program from (h.outermost 0 h.nonempty).2 rfl] at hrecord
          cases hrecord
        -- The field has no storage and leads nowhere.
        cases h.symbols inner field (List.mem_of_find?_eq_some hfind) with
        | function _ _ _ _ hother => exact absurd hother hzero
        | record _ hother => exact absurd hother hzero
        | stored _ _ _ _ _ _ hother => exact absurd hrecord hother
        | object _ _ _ _ _ _ _ _ hother => exact absurd hrecord hother
        | field hnone hleads =>
          cases members with
          | nil =>
            obtain rfl : field = sym := Option.some.inj hfollow
            rw [hnone] at hkind
            cases hkind
          | cons member members => simp [Names.follow?, Names.member?, hleads] at hfollow

theorem reach?_eq_some :
    g.names.reach? name members = some sym ↔
      ∃ base, g.names.lookup name = some base ∧ g.names.follow? base members = some sym :=
  Option.bind_eq_some_iff

/-- A variable outside of classes whose type is a type of values is stored. -/
theorem Generator.Holds.stored (h : g.Filed) {sym : Symbol} (hsym : g.Holds sym)
    {address : Option Addr} (hkind : sym.kind = .variable address)
    (hty : Typing.isPrimitive sym.ty = true) : ∃ a, sym.kind = .variable (some a) := by
  obtain ⟨id, hmem, hid⟩ := hsym
  cases h.symbols id sym hmem with
  | function _ _ _ hother | record hother =>
    rw [hkind] at hother
    cases hother
  | field _ _ _ hother => exact absurd hother hid
  | stored a _ hstored => exact ⟨a, hstored⟩
  | object _ _ _ _ _ htype =>
    simp only [Symbol.ty, htype] at hty
    cases hty

theorem Generator.Holds.isPrimitive (h : g.Filed) (hsym : g.Holds sym) {a : Addr}
    (hkind : sym.kind = .variable (some a)) : Typing.isPrimitive sym.ty = true := by
  obtain ⟨id, hmem, -⟩ := hsym
  cases h.symbols id sym hmem with
  | function _ _ _ hother | record hother | field hother | object _ _ _ hother =>
    rw [hkind] at hother
    cases hother
  | stored _ ty _ _ htype hty =>
    simp only [Symbol.ty, htype]
    exact hty

/-! ## Expressions -/

mutual

/-- An expression has a type by the rules exactly if it type checks. -/
theorem hasType_iff (h : g.Filed) (hhere : g.here.kind ≠ .record) : (e : Expr) → {ty : Ty} →
    (HasType g.declarations e ty ↔ g.names.typeOf? e = some ty)
  | .constant ty v, ty' => by
    constructor
    · rintro ⟨⟩
      rfl
    · intro hty
      cases Option.some.inj hty
      exact .constant
  | .group e, ty => by
    constructor
    · rintro (_ | hty)
      exact (hasType_iff h hhere e).1 hty
    · exact fun hty => .group ((hasType_iff h hhere e).2 hty)
  | .call function args, ty => by
    have hargs : ∀ {tys}, HasTypes g.declarations args tys ↔ _ := hasTypes_iff h hhere args
    constructor
    · intro htype
      cases htype with
      | call hf hkind hall hvoid =>
        obtain ⟨hcallee, hparams⟩ := callee_of_lookup h (resolves_lookup.1 hf) hkind
        simp [Names.typeOf?, hcallee, hargs.1 hall, hparams, hvoid]
    · intro htype
      obtain ⟨f, hf, htype⟩ := Option.bind_eq_some_iff.1 htype
      obtain ⟨tys, htys, htype⟩ := Option.bind_eq_some_iff.1 htype
      split at htype
      · rename_i hcond
        obtain ⟨hvoid, rfl⟩ := hcond
        obtain ⟨sym, address, target, hlookup, hsym, hkind⟩ := lookup_of_callee h hf
        obtain rfl := Option.some.inj htype
        rw [← hsym] at hvoid ⊢
        exact .call (resolves_lookup.2 hlookup) hkind (hargs.2 htys) hvoid
      · cases htype
  | .reference name members indices, ty => by
    have hindices : ∀ {tys}, HasTypes g.declarations indices tys ↔ _ := hasTypes_iff h hhere indices
    constructor
    · intro htype
      cases htype with
      | reference hbase hfollows hkind hprimitive hall =>
        have hlookup := resolves_lookup.1 hbase
        have hholds := holds_of_follows h hfollows (holds_of_lookup h hhere hlookup)
        obtain ⟨a, hstored⟩ := hholds.stored h hkind hprimitive
        have hreach := reach?_eq_some.2 ⟨_, hlookup, follow?_of_follows hfollows⟩
        have hrecord : ∀ {t : Ty}, Typing.isPrimitive t = true → t ≠ .record := by
          rintro _ ht rfl
          cases ht
        simp [Names.typeOf?, hreach, hindices.1 hall, hstored, hrecord hprimitive]
    · intro htype
      obtain ⟨sym, hreach, htype⟩ := Option.bind_eq_some_iff.1 htype
      obtain ⟨tys, htys, htype⟩ := Option.bind_eq_some_iff.1 htype
      obtain ⟨base, hlookup, hfollow⟩ := reach?_eq_some.1 hreach
      split at htype
      · rename_i a hstored
        split at htype
        · rename_i hcond
          obtain ⟨-, rfl⟩ := hcond
          obtain rfl := Option.some.inj htype
          have hbase := holds_of_lookup h hhere hlookup
          have hfollows := follows_of_follow? h hbase hfollow hstored
          exact .reference (resolves_lookup.2 hlookup) hfollows hstored
            ((holds_of_follows h hfollows hbase).isPrimitive h hstored) (hindices.2 htys)
        · cases htype
      · cases htype
  | .unary op e, ty => by
    constructor
    · rintro (_ | _ | _ | _ | ⟨he, hop⟩)
      exact Option.bind_eq_some_iff.2 ⟨_, (hasType_iff h hhere e).1 he, hop⟩
    · intro htype
      obtain ⟨ty', he, hop⟩ := Option.bind_eq_some_iff.1 htype
      exact .unary ((hasType_iff h hhere e).2 he) hop
  | .binary op l r, ty => by
    constructor
    · rintro (_ | _ | _ | _ | _ | ⟨hl, hr, hop⟩)
      exact Option.bind_eq_some_iff.2 ⟨_, (hasType_iff h hhere l).1 hl,
        Option.bind_eq_some_iff.2 ⟨_, (hasType_iff h hhere r).1 hr, hop⟩⟩
    · intro htype
      obtain ⟨left, hl, htype⟩ := Option.bind_eq_some_iff.1 htype
      obtain ⟨right, hr, hop⟩ := Option.bind_eq_some_iff.1 htype
      exact .binary ((hasType_iff h hhere l).2 hl) ((hasType_iff h hhere r).2 hr) hop

theorem hasTypes_iff (h : g.Filed) (hhere : g.here.kind ≠ .record) :
    (es : List Expr) → {tys : List Ty} →
    (HasTypes g.declarations es tys ↔ g.names.typesOf? es = some tys)
  | [], tys => by
    constructor
    · rintro ⟨⟩
      rfl
    · intro htys
      cases Option.some.inj htys
      exact .nil
  | e :: es, tys => by
    constructor
    · rintro (_ | ⟨he, hes⟩)
      exact Option.bind_eq_some_iff.2 ⟨_, (hasType_iff h hhere e).1 he,
        Option.bind_eq_some_iff.2 ⟨_, (hasTypes_iff h hhere es).1 hes, rfl⟩⟩
    · intro htys
      obtain ⟨ty, he, htys⟩ := Option.bind_eq_some_iff.1 htys
      obtain ⟨tys', hes, heq⟩ := Option.bind_eq_some_iff.1 htys
      cases Option.some.inj heq
      exact .cons ((hasType_iff h hhere e).2 he) ((hasTypes_iff h hhere es).2 hes)

end

/-- Every expression with a type is of a type of values, if its constants are. -/
theorem HasType.isPrimitive (h : g.Filed) : (e : Expr) → {ty : Ty} →
    e.Literals Plain → HasType g.declarations e ty →
    Typing.isPrimitive ty = true
  | .constant _ _, _, hliteral, htype => by
    cases htype with
    | constant => exact hliteral
  | .group e, _, hliterals, htype => by
    cases htype with
    | group htype => exact HasType.isPrimitive h e hliterals htype
  | .call _ _, _, _, htype => by
    cases htype with
    | call hf hkind _ hvoid =>
      obtain ⟨id, -, hsym⟩ := Generate.mem_of_lookup (resolves_lookup.1 hf)
      exact ((h.symbols id _ hsym).of_function hkind).2.resolve_left hvoid
  | .reference _ _ _, _, _, htype => by
    cases htype with
    | reference _ _ _ hprimitive _ => exact hprimitive
  | .unary _ _, _, _, htype => by
    cases htype with
    | unary _ hop => exact Generate.isPrimitive_of_unary hop
  | .binary _ _ _, _, _, htype => by
    cases htype with
    | binary _ _ hop => exact Generate.isPrimitive_of_binary hop

/-- The rules give an expression one type at most. -/
theorem HasType.unique (h : g.Filed) (hhere : g.here.kind ≠ .record) {e : Expr} {ty ty' : Ty}
    (htype : HasType g.declarations e ty) (htype' : HasType g.declarations e ty') : ty = ty' :=
  Option.some.inj (((hasType_iff h hhere e).1 htype).symm.trans ((hasType_iff h hhere e).1 htype'))

end States

/-! ## Statements -/

mutual

/-- What a statement needs addresses for. -/
def Names.stmtDemands (names : Names) : Stmt → List Demand
  | .assign p e => names.demands p.expr ++ names.demands e
  | .call _ args => names.allDemands args
  | .read places => names.allDemands (places.map Place.expr)
  | .write values => names.allDemands values
  | .ret none => []
  | .ret (some e) => names.demands e
  | .branch c body => names.demands c ++ names.bodyDemands body
  | .branchElse c body other => names.demands c ++
    (names.bodyDemands body ++ names.bodyDemands other)
  | .loop c body => names.demands c ++ names.bodyDemands body

def Names.bodyDemands (names : Names) : List Stmt → List Demand
  | [] => []
  | s :: ss => names.stmtDemands s ++ names.bodyDemands ss

end

section Statements

variable {g : Generator}

/-- Expressions with types that find room have code with instructions that use them. -/
theorem usesCode_iff (h : g.Filed) (hhere : g.here.kind ≠ .record) {use : Operand → Quad} :
    (es : List Expr) → Expr.allLiterals Plain es → {m m' : Memory} →
    ((∃ code, UsesCode g.names use es m code m') ↔
      (∀ e ∈ es, ∃ ty, HasType g.declarations e ty) ∧ m.meetAll? (g.names.allDemands es) = some m')
  | [], _, m, m' => by
    constructor
    · rintro ⟨code, ⟨⟩⟩
      exact ⟨by simp, rfl⟩
    · rintro ⟨-, hm⟩
      cases Option.some.inj hm
      exact ⟨[], .nil⟩
  | e :: es, hliterals, m, m' => by
    constructor
    · rintro ⟨code, hcode⟩
      cases hcode with
      | cons he _ hes =>
        obtain ⟨htype, hmet⟩ := he.checked
        obtain ⟨htypes, hmets⟩ := (usesCode_iff h hhere es hliterals.2).1 ⟨_, hes⟩
        refine ⟨List.forall_mem_cons.2 ⟨⟨_, (hasType_iff h hhere e).2 htype⟩, htypes⟩, ?_⟩
        exact Memory.meetAll?_trans hmet hmets
    · rintro ⟨htypes, hm⟩
      obtain ⟨⟨ty, htype⟩, htypes⟩ := List.forall_mem_cons.1 htypes
      obtain ⟨m₁, hm₁, hm⟩ := Memory.meetAll?_append hm
      obtain ⟨x, code, hx, rfl⟩ := exprCode_of_typeOf? e ((hasType_iff h hhere e).1 htype) hm₁
      obtain ⟨code', hes⟩ := (usesCode_iff h hhere es hliterals.2).2 ⟨htypes, hm⟩
      exact ⟨_, .cons hx (htype.isPrimitive h e hliterals.1) hes⟩

/-- An expression has code and is of a type exactly if it has the type and finds room. -/
theorem exprCode_iff (h : g.Filed) (hhere : g.here.kind ≠ .record) {c : Expr} {ty : Ty}
    {m m' : Memory} :
    (∃ x code, ExprCode g.names c m x code m' ∧ x.ty = ty) ↔
      HasType g.declarations c ty ∧ m.meetAll? (g.names.demands c) = some m' := by
  constructor
  · rintro ⟨x, code, hcode, rfl⟩
    obtain ⟨htype, hmet⟩ := hcode.checked
    exact ⟨(hasType_iff h hhere c).2 htype, hmet⟩
  · rintro ⟨htype, hmet⟩
    exact exprCode_of_typeOf? c ((hasType_iff h hhere c).1 htype) hmet

mutual

/-- A statement has code exactly if it is well typed and finds room. -/
theorem stmtCode_iff (h : g.Filed) (hhere : g.here.kind ≠ .record) {function : Option Callee} :
    (s : Stmt) → s.Literals Plain → {base : Nat} → {m m' : Memory} →
    ((∃ code, StmtCode g.names function base s m code m') ↔
      WellTyped g.declarations (function.map (·.ty)) s ∧
        m.meetAll? (g.names.stmtDemands s) = some m')
  | .assign p e, _, base, m, m' => by
    constructor
    · rintro ⟨_, hcode⟩
      cases hcode with
      | assign hp he hassign =>
        obtain ⟨hptype, hpmet⟩ := (exprCode_iff h hhere).1 ⟨_, _, hp, rfl⟩
        obtain ⟨hetype, hemet⟩ := (exprCode_iff h hhere).1 ⟨_, _, he, rfl⟩
        exact ⟨.assign hptype hetype hassign, Memory.meetAll?_trans hpmet hemet⟩
    · rintro ⟨htyped, hm⟩
      cases htyped with
      | assign hptype hetype hassign =>
        obtain ⟨m₁, hpmet, hemet⟩ := Memory.meetAll?_append hm
        obtain ⟨x, code, hp, rfl⟩ := (exprCode_iff h hhere).2 ⟨hptype, hpmet⟩
        obtain ⟨y, code', he, rfl⟩ := (exprCode_iff h hhere).2 ⟨hetype, hemet⟩
        exact ⟨_, .assign hp he hassign⟩
  | .call name args, _, base, m, m' => by
    constructor
    · rintro ⟨_, hcode⟩
      cases hcode with
      | call hf hargs =>
        obtain ⟨htypes, hmet⟩ := ArgsCode.checked args hargs
        obtain ⟨sym, address, target, hlookup, -, hkind⟩ := lookup_of_callee h hf
        exact ⟨.call (resolves_lookup.2 hlookup) hkind ((hasTypes_iff h hhere args).2 htypes), hmet⟩
    · rintro ⟨htyped, hm⟩
      cases htyped with
      | call hf hkind htypes =>
        obtain ⟨hcallee, hparams⟩ := callee_of_lookup h (resolves_lookup.1 hf) hkind
        rw [← hparams] at htypes
        obtain ⟨code, hargs⟩ := argsCode_of_typesOf? args ((hasTypes_iff h hhere args).1 htypes) hm
        exact ⟨_, .call hcallee hargs⟩
  | .read places, hliterals, base, m, m' => by
    have huses : (∃ code, UsesCode g.names readQuad (places.map Place.expr) m code m') ↔ _ :=
      usesCode_iff h hhere (places.map Place.expr) hliterals
    rw [List.forall_mem_map] at huses
    constructor
    · rintro ⟨code, hcode⟩
      cases hcode with
      | read hcode =>
        obtain ⟨htypes, hmet⟩ := huses.1 ⟨code, hcode⟩
        exact ⟨.read htypes, hmet⟩
    · rintro ⟨htyped, hm⟩
      cases htyped with
      | read htypes =>
        obtain ⟨code, hcode⟩ := huses.2 ⟨htypes, hm⟩
        exact ⟨code, .read hcode⟩
  | .write values, hliterals, base, m, m' => by
    have huses : (∃ code, UsesCode g.names writeQuad values m code m') ↔ _ :=
      usesCode_iff h hhere values hliterals
    constructor
    · rintro ⟨code, hcode⟩
      cases hcode with
      | write hcode =>
        obtain ⟨htypes, hmet⟩ := huses.1 ⟨code, hcode⟩
        exact ⟨.write htypes, hmet⟩
    · rintro ⟨htyped, hm⟩
      cases htyped with
      | write htypes =>
        obtain ⟨code, hcode⟩ := huses.2 ⟨htypes, hm⟩
        exact ⟨code, .write hcode⟩
  | .ret none, _, base, m, m' => by
    constructor
    · rintro ⟨code, hcode⟩
      cases hcode with
      | retNone hf hty => exact ⟨.retNone (by rw [hf, Option.map_some, hty]), rfl⟩
    · rintro ⟨htyped, hm⟩
      cases Option.some.inj hm
      cases htyped with
      | retNone hf =>
        obtain ⟨f, hf, hty⟩ := Option.map_eq_some_iff.1 hf
        exact ⟨_, .retNone hf hty⟩
  | .ret (some e), hliterals, base, m, m' => by
    constructor
    · rintro ⟨code, hcode⟩
      cases hcode with
      | retSome hf he hty =>
        obtain ⟨htype, hmet⟩ := (exprCode_iff h hhere).1 ⟨_, _, he, hty⟩
        exact ⟨.retSome (by rw [hf, Option.map_some]) htype, hmet⟩
    · rintro ⟨htyped, hm⟩
      cases htyped with
      | retSome hf htype =>
        obtain ⟨f, hfunction, rfl⟩ := Option.map_eq_some_iff.1 hf
        obtain ⟨x, code, he, hty⟩ := (exprCode_iff h hhere).2 ⟨htype, hm⟩
        exact ⟨_, .retSome hfunction he hty (hty ▸ htype.isPrimitive h e hliterals)⟩
  | .branch c body, hliterals, base, m, m' => by
    constructor
    · rintro ⟨code, hcode⟩
      cases hcode with
      | branch hc hty hbody =>
        obtain ⟨htype, hmet⟩ := (exprCode_iff h hhere).1 ⟨_, _, hc, hty⟩
        obtain ⟨htyped, hmets⟩ := (stmtsCode_iff h hhere body hliterals.2).1 ⟨_, hbody⟩
        exact ⟨.branch htype htyped, Memory.meetAll?_trans hmet hmets⟩
    · rintro ⟨htyped, hm⟩
      cases htyped with
      | branch htype hbody =>
        obtain ⟨m₁, hmet, hmets⟩ := Memory.meetAll?_append hm
        obtain ⟨x, code, hc, hty⟩ := (exprCode_iff h hhere).2 ⟨htype, hmet⟩
        obtain ⟨code', hbody⟩ := (stmtsCode_iff h hhere body hliterals.2).2 ⟨hbody, hmets⟩
        exact ⟨_, .branch hc hty hbody⟩
  | .branchElse c body other, hliterals, base, m, m' => by
    constructor
    · rintro ⟨code, hcode⟩
      cases hcode with
      | branchElse hc hty hbody hother =>
        obtain ⟨htype, hmet⟩ := (exprCode_iff h hhere).1 ⟨_, _, hc, hty⟩
        obtain ⟨hbtyped, hbmet⟩ := (stmtsCode_iff h hhere body hliterals.2.1).1 ⟨_, hbody⟩
        obtain ⟨hotyped, homet⟩ := (stmtsCode_iff h hhere other hliterals.2.2).1 ⟨_, hother⟩
        exact ⟨.branchElse htype hbtyped hotyped,
          Memory.meetAll?_trans hmet (Memory.meetAll?_trans hbmet homet)⟩
    · rintro ⟨htyped, hm⟩
      cases htyped with
      | branchElse htype hbody hother =>
        obtain ⟨m₁, hmet, hmets⟩ := Memory.meetAll?_append hm
        obtain ⟨m₂, hbmet, homet⟩ := Memory.meetAll?_append hmets
        obtain ⟨x, code, hc, hty⟩ := (exprCode_iff h hhere).2 ⟨htype, hmet⟩
        obtain ⟨code', hbody⟩ := (stmtsCode_iff h hhere body hliterals.2.1).2 ⟨hbody, hbmet⟩
        obtain ⟨code'', hother⟩ := (stmtsCode_iff h hhere other hliterals.2.2).2 ⟨hother, homet⟩
        exact ⟨_, .branchElse hc hty hbody hother⟩
  | .loop c body, hliterals, base, m, m' => by
    constructor
    · rintro ⟨code, hcode⟩
      cases hcode with
      | loop hc hty hbody =>
        obtain ⟨htype, hmet⟩ := (exprCode_iff h hhere).1 ⟨_, _, hc, hty⟩
        obtain ⟨htyped, hmets⟩ := (stmtsCode_iff h hhere body hliterals.2).1 ⟨_, hbody⟩
        exact ⟨.loop htype htyped, Memory.meetAll?_trans hmet hmets⟩
    · rintro ⟨htyped, hm⟩
      cases htyped with
      | loop htype hbody =>
        obtain ⟨m₁, hmet, hmets⟩ := Memory.meetAll?_append hm
        obtain ⟨x, code, hc, hty⟩ := (exprCode_iff h hhere).2 ⟨htype, hmet⟩
        obtain ⟨code', hbody⟩ := (stmtsCode_iff h hhere body hliterals.2).2 ⟨hbody, hmets⟩
        exact ⟨_, .loop hc hty hbody⟩

theorem stmtsCode_iff (h : g.Filed) (hhere : g.here.kind ≠ .record) {function : Option Callee} :
    (ss : List Stmt) → Stmt.allLiterals Plain ss → {base : Nat} →
    {m m' : Memory} → ((∃ code, StmtsCode g.names function base ss m code m') ↔
      (∀ s ∈ ss, WellTyped g.declarations (function.map (·.ty)) s) ∧
        m.meetAll? (g.names.bodyDemands ss) = some m')
  | [], _, base, m, m' => by
    constructor
    · rintro ⟨code, ⟨⟩⟩
      exact ⟨by simp, rfl⟩
    · rintro ⟨-, hm⟩
      cases Option.some.inj hm
      exact ⟨[], .nil⟩
  | s :: ss, hliterals, base, m, m' => by
    constructor
    · rintro ⟨code, hcode⟩
      cases hcode with
      | cons hs hss =>
        obtain ⟨htyped, hmet⟩ := (stmtCode_iff h hhere s hliterals.1).1 ⟨_, hs⟩
        obtain ⟨htypeds, hmets⟩ := (stmtsCode_iff h hhere ss hliterals.2).1 ⟨_, hss⟩
        exact ⟨List.forall_mem_cons.2 ⟨htyped, htypeds⟩, Memory.meetAll?_trans hmet hmets⟩
    · rintro ⟨htyped, hm⟩
      obtain ⟨htyped, htypeds⟩ := List.forall_mem_cons.1 htyped
      obtain ⟨m₁, hmet, hmets⟩ := Memory.meetAll?_append hm
      obtain ⟨code, hs⟩ := (stmtCode_iff h hhere s hliterals.1).2 ⟨htyped, hmet⟩
      obtain ⟨code', hss⟩ := (stmtsCode_iff h hhere ss hliterals.2).2 ⟨htypeds, hmets⟩
      exact ⟨_, .cons hs hss⟩

end

end Statements

end Quadlang
