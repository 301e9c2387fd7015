-- Which expressions have code: those that type check, as long as there are addresses for their
-- constants and for the values in between.
import Quadlang.Proofs.Generator.Changes
import Quadlang.Proofs.Generator.Performing

namespace Quadlang

open Source

variable {m m' : Memory} {a : Addr} {ty : Ty} {v : Value} {names : Names}

/-! ## Type checking and room -/

mutual

/-- The type of an expression, if it type checks. -/
def Names.typeOf? (names : Names) : Expr → Option Ty
  | .constant ty _ => some ty
  | .group e => names.typeOf? e
  | .call function args => do
    let f ← names.callee? function
    let tys ← names.typesOf? args
    if f.ty ≠ .void ∧ tys = (names.params f).map (·.ty) then some f.ty else none
  | .reference name members indices => do
    let sym ← names.reach? name members
    let tys ← names.typesOf? indices
    match sym.kind with
    | .variable (some _) =>
      if sym.ty ≠ .record ∧ tys = sym.dims.map fun _ => .int then some sym.ty else none
    | _ => none
  | .unary op e => do Typing.unary op (← names.typeOf? e)
  | .binary op l r => do Typing.binary op (← names.typeOf? l) (← names.typeOf? r)

def Names.typesOf? (names : Names) : List Expr → Option (List Ty)
  | [] => some []
  | e :: es => do return (← names.typeOf? e) :: (← names.typesOf? es)

end

/-- What an expression needs an address for. -/
inductive Demand
  | constant (ty : Ty) (v : Value)
  | temporary (ty : Ty)
  deriving DecidableEq

mutual

/-- What an expression needs addresses for, operands before operators and from left to right. -/
def Names.demands (names : Names) : Expr → List Demand
  | .constant ty v => [.constant ty (v.convert ty)]
  | .group e => names.demands e
  | .call function args =>
    names.allDemands args ++ (names.typeOf? (.call function args)).toList.map .temporary
  | .reference _ _ indices =>
    names.allDemands indices ++ if indices = [] then [] else [.temporary .int]
  | .unary op e => names.demands e ++ (names.typeOf? (.unary op e)).toList.map .temporary
  | .binary op l r =>
    names.demands l ++ names.demands r ++ (names.typeOf? (.binary op l r)).toList.map .temporary

def Names.allDemands (names : Names) : List Expr → List Demand
  | [] => []
  | e :: es => names.demands e ++ names.allDemands es

end

/-- The memory after a demand is met, if there is room. -/
def Memory.meet? (m : Memory) : Demand → Option Memory
  | .constant ty v => (m.intern ty v).toOption.map (·.2)
  | .temporary ty => (m.alloc ty .temps 1).toOption.map (·.2)

/-- The memory after demands are met, if there is room for all of them. -/
def Memory.meetAll? (m : Memory) (ds : List Demand) : Option Memory := ds.foldlM meet? m

theorem Memory.meetAll?_append {ds es : List Demand} (h : m.meetAll? (ds ++ es) = some m') :
    ∃ m₁, m.meetAll? ds = some m₁ ∧ m₁.meetAll? es = some m' := by
  unfold meetAll? at h
  rw [List.foldlM_append] at h
  exact Option.bind_eq_some_iff.1 h

theorem Memory.meetAll?_constant {v : Value} (h : m.meetAll? [.constant ty v] = some m') :
    ∃ a, m.intern ty v = .ok (a, m') := by
  simp only [meetAll?, List.foldlM_cons, List.foldlM_nil, meet?] at h
  cases hm : m.intern ty v with
  | error e => simp [hm, Except.toOption] at h
  | ok r =>
    obtain ⟨a, m₁⟩ := r
    obtain rfl : m₁ = m' := by simpa [hm, Except.toOption] using h
    exact ⟨a, rfl⟩

theorem Memory.meetAll?_temporary (h : m.meetAll? [.temporary ty] = some m') :
    ∃ a, m.alloc ty .temps 1 = .ok (a, m') := by
  simp only [meetAll?, List.foldlM_cons, List.foldlM_nil, meet?] at h
  cases hm : m.alloc ty .temps 1 with
  | error e => simp [hm, Except.toOption] at h
  | ok r =>
    obtain ⟨a, m₁⟩ := r
    obtain rfl : m₁ = m' := by simpa [hm, Except.toOption] using h
    exact ⟨a, rfl⟩

mutual

/-- An expression that type checks and finds room has code. -/
theorem exprCode_of_typeOf? : (e : Expr) → {ty : Ty} → {m m' : Memory} →
    names.typeOf? e = some ty → m.meetAll? (names.demands e) = some m' →
    ∃ x code, ExprCode names e m x code m' ∧ x.ty = ty
  | .constant ty v, _, m, m', hty, hm => by
    obtain rfl := Option.some.inj hty
    obtain ⟨a, ha⟩ := Memory.meetAll?_constant hm
    exact ⟨_, [], .constant ha, rfl⟩
  | .group e, ty, m, m', hty, hm => by
    obtain ⟨x, code, h, hx⟩ := exprCode_of_typeOf? e hty hm
    exact ⟨x, code, .group h, hx⟩
  | .call function args, ty, m, m', hty, hm => by
    unfold Names.demands at hm
    rw [hty] at hm
    obtain ⟨m₁, hm₁, hlast⟩ := Memory.meetAll?_append hm
    obtain ⟨a, ha⟩ := Memory.meetAll?_temporary hlast
    obtain ⟨f, hf, hty⟩ := Option.bind_eq_some_iff.1 hty
    obtain ⟨tys, htys, hty⟩ := Option.bind_eq_some_iff.1 hty
    split at hty
    · rename_i hok
      obtain rfl := Option.some.inj hty
      obtain ⟨hvoid, rfl⟩ := hok
      obtain ⟨code, hcode⟩ := argsCode_of_typesOf? args htys hm₁
      exact ⟨_, _, .call hf hcode hvoid ha, rfl⟩
    · cases hty
  | .reference name members indices, ty, m, m', hty, hm => by
    obtain ⟨m₁, hm₁, hlast⟩ := Memory.meetAll?_append hm
    obtain ⟨sym, hsym, hty⟩ := Option.bind_eq_some_iff.1 hty
    obtain ⟨tys, htys, hty⟩ := Option.bind_eq_some_iff.1 hty
    split at hty
    · rename_i a hkind
      split at hty
      · rename_i hok
        obtain rfl := Option.some.inj hty
        obtain ⟨hrecord, rfl⟩ := hok
        obtain ⟨code, hcode⟩ := indicesCode_of_typesOf? indices htys hm₁
        by_cases hnil : indices = []
        · subst hnil
          obtain rfl : m₁ = m' := by simpa [Memory.meetAll?] using hlast
          generalize hdims : sym.dims = ds at hcode
          cases hcode
          exact ⟨_, [], .variable hsym hkind hrecord hdims, rfl⟩
        · rw [if_neg hnil] at hlast
          obtain ⟨p, hp⟩ := Memory.meetAll?_temporary hlast
          exact ⟨_, _, .element hsym hkind hrecord hnil hcode hp, rfl⟩
      · cases hty
    · cases hty
  | .unary op e, ty, m, m', hty, hm => by
    unfold Names.demands at hm
    rw [hty] at hm
    obtain ⟨m₁, hm₁, hlast⟩ := Memory.meetAll?_append hm
    obtain ⟨a, ha⟩ := Memory.meetAll?_temporary hlast
    obtain ⟨ty₁, hty₁, hty⟩ := Option.bind_eq_some_iff.1 hty
    obtain ⟨x, code, hx, rfl⟩ := exprCode_of_typeOf? e hty₁ hm₁
    exact ⟨_, _, .unary hx hty ha, rfl⟩
  | .binary op l r, ty, m, m', hty, hm => by
    unfold Names.demands at hm
    rw [hty] at hm
    obtain ⟨m₂, hm₂, hlast⟩ := Memory.meetAll?_append hm
    obtain ⟨m₁, hm₁, hm₂⟩ := Memory.meetAll?_append hm₂
    obtain ⟨a, ha⟩ := Memory.meetAll?_temporary hlast
    obtain ⟨ty₁, hty₁, hty⟩ := Option.bind_eq_some_iff.1 hty
    obtain ⟨ty₂, hty₂, hty⟩ := Option.bind_eq_some_iff.1 hty
    obtain ⟨x, code, hx, rfl⟩ := exprCode_of_typeOf? l hty₁ hm₁
    obtain ⟨y, code', hy, rfl⟩ := exprCode_of_typeOf? r hty₂ hm₂
    exact ⟨_, _, .binary hx hy hty ha, rfl⟩

theorem argsCode_of_typesOf? :
    (es : List Expr) → {ps : List Param} → {m m' : Memory} →
    names.typesOf? es = some (ps.map (·.ty)) → m.meetAll? (names.allDemands es) = some m' →
    ∃ code, ArgsCode names ps es m code m'
  | [], ps, m, m', htys, hm => by
    obtain rfl : m = m' := Option.some.inj hm
    obtain rfl := List.map_eq_nil_iff.1 (Option.some.inj htys).symm
    exact ⟨[], .nil⟩
  | e :: es, ps, m, m', htys, hm => by
    obtain ⟨m₁, hm₁, hm⟩ := Memory.meetAll?_append hm
    obtain ⟨ty, hty, htys⟩ := Option.bind_eq_some_iff.1 htys
    obtain ⟨tys, htys, heq⟩ := Option.bind_eq_some_iff.1 htys
    obtain ⟨p, ps, rfl, rfl, rfl⟩ := List.map_eq_cons_iff.1 (Option.some.inj heq).symm
    obtain ⟨x, code, hx, hxty⟩ := exprCode_of_typeOf? e hty hm₁
    obtain ⟨code', hcode'⟩ := argsCode_of_typesOf? es htys hm
    exact ⟨_, .cons hx hxty hcode'⟩

theorem indicesCode_of_typesOf? :
    (es : List Expr) → {ds : List Dim} → {m m' : Memory} →
    names.typesOf? es = some (ds.map fun _ => .int) → m.meetAll? (names.allDemands es) = some m' →
    ∃ code, IndicesCode names ds es m code m'
  | [], ds, m, m', htys, hm => by
    obtain rfl : m = m' := Option.some.inj hm
    obtain rfl := List.map_eq_nil_iff.1 (Option.some.inj htys).symm
    exact ⟨[], .nil⟩
  | e :: es, ds, m, m', htys, hm => by
    obtain ⟨m₁, hm₁, hm⟩ := Memory.meetAll?_append hm
    obtain ⟨ty, hty, htys⟩ := Option.bind_eq_some_iff.1 htys
    obtain ⟨tys, htys, heq⟩ := Option.bind_eq_some_iff.1 htys
    obtain ⟨d, ds, rfl, rfl, rfl⟩ := List.map_eq_cons_iff.1 (Option.some.inj heq).symm
    obtain ⟨x, code, hx, hxty⟩ := exprCode_of_typeOf? e hty hm₁
    obtain ⟨code', hcode'⟩ := indicesCode_of_typesOf? es htys hm
    exact ⟨_, .cons hx hxty hcode'⟩

end

/-! ## What has code -/

theorem Memory.meetAll?_trans {m₁ : Memory} {ds es : List Demand} (h : m.meetAll? ds = some m₁)
    (h' : m₁.meetAll? es = some m') : m.meetAll? (ds ++ es) = some m' := by
  unfold meetAll? at h h' ⊢
  rw [List.foldlM_append]
  exact Option.bind_eq_some_iff.2 ⟨m₁, h, h'⟩

theorem Memory.meetAll?_of_intern {ty : Ty} {v : Value} {a : Addr}
    (h : m.intern ty v = .ok (a, m')) :
    m.meetAll? [.constant ty v] = some m' := by
  simp [meetAll?, meet?, h, Except.toOption]

theorem Memory.meetAll?_of_alloc {ty : Ty} {a : Addr} (h : m.alloc ty .temps 1 = .ok (a, m')) :
    m.meetAll? [.temporary ty] = some m' := by
  simp [meetAll?, meet?, h, Except.toOption]

mutual

/-- An expression that has code type checks, and its demands are met. -/
theorem ExprCode.checked : (e : Expr) → {m m' : Memory} → {x : TypedOperand} →
    {code : List Quad} → ExprCode names e m x code m' →
    names.typeOf? e = some x.ty ∧ m.meetAll? (names.demands e) = some m'
  | .constant ty v, _, _, _, _, h => by
    cases h with
    | constant hintern => exact ⟨rfl, Memory.meetAll?_of_intern hintern⟩
  | .group e, _, _, _, _, h => by
    cases h with
    | group h => exact ExprCode.checked e h
  | .call function args, _, _, _, _, h => by
    cases h with
    | @call _ _ f a code _ m₁ _ hf hargs hty ha =>
      obtain ⟨htys, hmet⟩ := ArgsCode.checked args hargs
      have htype : names.typeOf? (.call function args) = some f.ty := by
        simp [Names.typeOf?, hf, htys, hty]
      refine ⟨htype, ?_⟩
      unfold Names.demands
      rw [htype]
      exact Memory.meetAll?_trans hmet (Memory.meetAll?_of_alloc ha)
  | .reference name members indices, _, _, _, _, h => by
    cases h with
    | «variable» hsym hkind hty hdims =>
      exact ⟨by simp [Names.typeOf?, Names.typesOf?, hsym, hkind, hty, hdims], rfl⟩
    | @element _ _ _ sym a p code _ m₁ _ hsym hkind hty hne hcode ha =>
      obtain ⟨htys, hmet⟩ := IndicesCode.checked indices hcode
      refine ⟨by simp [Names.typeOf?, hsym, htys, hkind, hty], ?_⟩
      unfold Names.demands
      rw [if_neg hne]
      exact Memory.meetAll?_trans hmet (Memory.meetAll?_of_alloc ha)
  | .unary op e, _, _, _, _, h => by
    cases h with
    | @unary _ _ x ty a code _ m₁ _ he hty ha =>
      obtain ⟨htype, hmet⟩ := ExprCode.checked e he
      have htype' : names.typeOf? (.unary op e) = some ty := by simp [Names.typeOf?, htype, hty]
      refine ⟨htype', ?_⟩
      unfold Names.demands
      rw [htype']
      exact Memory.meetAll?_trans hmet (Memory.meetAll?_of_alloc ha)
  | .binary op l r, _, _, _, _, h => by
    cases h with
    | @binary _ _ _ x y ty a code code' _ m₁ m₂ _ hl hr hty ha =>
      obtain ⟨hltype, hlmet⟩ := ExprCode.checked l hl
      obtain ⟨hrtype, hrmet⟩ := ExprCode.checked r hr
      have htype : names.typeOf? (.binary op l r) = some ty := by
        simp [Names.typeOf?, hltype, hrtype, hty]
      refine ⟨htype, ?_⟩
      unfold Names.demands
      rw [htype]
      exact Memory.meetAll?_trans (Memory.meetAll?_trans hlmet hrmet) (Memory.meetAll?_of_alloc ha)

theorem ArgsCode.checked : (es : List Expr) → {ps : List Param} → {m m' : Memory} →
    {code : List Quad} → ArgsCode names ps es m code m' →
    names.typesOf? es = some (ps.map (·.ty)) ∧ m.meetAll? (names.allDemands es) = some m'
  | [], _, _, _, _, h => by
    cases h with
    | nil => exact ⟨rfl, rfl⟩
  | e :: es, _, _, _, _, h => by
    cases h with
    | cons he hty hes =>
      obtain ⟨htype, hmet⟩ := ExprCode.checked e he
      obtain ⟨htypes, hmets⟩ := ArgsCode.checked es hes
      exact ⟨by simp [Names.typesOf?, htype, htypes, hty], Memory.meetAll?_trans hmet hmets⟩

theorem IndicesCode.checked : (es : List Expr) → {ds : List Dim} → {m m' : Memory} →
    {code : List Quad} → IndicesCode names ds es m code m' →
    names.typesOf? es = some (ds.map fun _ => .int) ∧ m.meetAll? (names.allDemands es) = some m'
  | [], _, _, _, _, h => by
    cases h with
    | nil => exact ⟨rfl, rfl⟩
  | e :: es, _, _, _, _, h => by
    cases h with
    | cons he hty hes =>
      obtain ⟨htype, hmet⟩ := ExprCode.checked e he
      obtain ⟨htypes, hmets⟩ := IndicesCode.checked es hes
      exact ⟨by simp [Names.typesOf?, htype, htypes, hty], Memory.meetAll?_trans hmet hmets⟩

end

end Quadlang
