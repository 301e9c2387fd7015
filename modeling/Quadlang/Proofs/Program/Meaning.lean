-- What compiles has a meaning: outside of calls its expressions have values of their types, its
-- indices stay within the arrays, and the only mishaps are those of a run.
import Quadlang.Proofs.Program.CallSites
import Quadlang.Proofs.Program.Constants
import Quadlang.Proofs.Source.Interpreter

namespace Quadlang

open Source

variable {ps : List Placement}

/-! ## Mishaps -/

/-- A mishap that may happen to a program that compiles. -/
def Source.Mishap.Foreseen (e : Mishap) : Prop := e ≠ .meaningless ∧ e ≠ .unfinished

/-- A result with a property, or a mishap that may happen. -/
def Sensible {α : Type} (P : α → Prop) : Except Mishap α → Prop
  | .ok a => P a
  | .error e => e.Foreseen

theorem Sensible.bind {α β : Type} {P : α → Prop} {Q : β → Prop} {x : Except Mishap α}
    {f : α → Except Mishap β} (h : Sensible P x) (hf : ∀ a, P a → Sensible Q (f a)) :
    Sensible Q (x >>= f) := by
  cases x with
  | error e => exact h
  | ok a => exact hf a h

/-- Operators on values of their types yield values of their types, or divide by zero. -/
theorem Value.Yields.sensible {ty : Ty} {x : Except RunFault Value} (h : Value.Yields ty x) :
    Sensible (·.HasType ty) (x.mapError Mishap.ofFault) := by
  cases h with
  | value hv => exact hv
  | divisionByZero => exact ⟨Mishap.noConfusion, Mishap.noConfusion⟩

/-! ## Variables -/

/-- Every element holds a value of its type, or nothing. -/
def StoreTyped (ps : List Placement) (store : Store) : Prop :=
  ∀ p ∈ ps, ∀ is v, store ⟨p.path, is⟩ = some v → v.HasType p.ty

theorem StoreTyped.fetch {store : Store} (h : StoreTyped ps store) {p : Placement} (hp : p ∈ ps)
    (is : List Int64) : Sensible (·.HasType p.ty) (store.fetch ⟨p.path, is⟩) := by
  unfold Store.fetch
  cases hv : store ⟨p.path, is⟩ with
  | some v => exact h p hp is v hv
  | none => exact ⟨Mishap.noConfusion, Mishap.noConfusion⟩

/-- An integer is checked against the size of its dimension. -/
theorem checkIndex_sensible {v : Value} (hv : v.HasType .int) (size : Int64) :
    Sensible (fun i => 0 ≤ i.toInt ∧ i.toInt < size.toInt) (checkIndex size v) := by
  cases v with
  | int i =>
    simp only [checkIndex]
    by_cases hout : i < 0 ∨ size ≤ i
    · rw [if_pos hout]
      exact ⟨Mishap.noConfusion, Mishap.noConfusion⟩
    · rw [if_neg hout]
      obtain ⟨hlow, hhigh⟩ := not_or.1 hout
      rw [Int64.not_lt, Int64.le_iff_toInt_le] at hlow
      rw [Int64.not_le, Int64.lt_iff_toInt_lt] at hhigh
      exact ⟨hlow, hhigh⟩
  | _ => cases hv

theorem leaf?_of_mem (hpaths : (ps.map (·.path)).Nodup) {p : Placement} (hp : p ∈ ps) :
    leaf? (ps.map Placement.leaf) p.path = some p.leaf := by
  unfold leaf?
  rw [List.find?_map]
  induction ps with
  | nil => cases hp
  | cons q ps ih =>
    obtain ⟨hq, hpaths⟩ := List.nodup_cons.1 hpaths
    rcases List.mem_cons.1 hp with rfl | hp
    · rw [List.find?_cons_of_pos (by simp [Placement.leaf])]
      rfl
    · rw [List.find?_cons_of_neg, ih hpaths hp]
      intro heq
      have hsame : q.path = p.path := of_decide_eq_true heq
      apply hq
      show q.path ∈ ps.map (·.path)
      rw [hsame]
      exact List.mem_map_of_mem hp

section

variable {names : Names} {ps : List Placement} {fs : List (Callee × List Param)}

/-- What a name reaches in the main body is a variable that the source declares under this name. -/
theorem Names.Sound.leaf? (h : names.Sound ps [] fs) (hpaths : (ps.map (·.path)).Nodup)
    {name : Bytes} {members : List Bytes} {sym : Symbol} {a : Addr}
    (hreach : names.reach? name members = some sym) (hkind : sym.kind = .variable (some a)) :
    (⟨name :: members, sym.ty, sym.dims, a⟩ : Placement) ∈ ps ∧
      Source.leaf? (ps.map Placement.leaf) (name :: members) =
        some ⟨name :: members, sym.ty, sym.dims.map (·.size)⟩ := by
  have hmem : (⟨name :: members, sym.ty, sym.dims, a⟩ : Placement) ∈ ps := by
    rcases h.stored hreach hkind with hp | hp
    · exact hp
    · cases hp
  exact ⟨hmem, leaf?_of_mem hpaths hmem⟩

/-! ## Expressions -/

variable {store : Store}

mutual

/-- An expression without calls has a value of its type, or comes to a mishap of a run. -/
theorem ExprCode.sensible (hsound : names.Sound ps [] fs) (hpaths : (ps.map (·.path)).Nodup)
    (hstore : StoreTyped ps store) {e : Expr} {x : TypedOperand} {m m' : Memory}
    {code : List Quad} :
    ExprCode names e m x code m' → e.calls = [] →
      e.Literals (fun ty v => Literal ty (v.convert ty)) →
    Sensible (·.HasType x.ty) (e.eval (ps.map Placement.leaf) store)
  | .constant _, _, hlit => hlit.hasType
  | .group he, hcalls, hlit => he.sensible hsound hpaths hstore hcalls hlit
  | .call _ _ _ _, hcalls, _ => by cases hcalls
  | .variable hreach hkind _ hdims, _, _ => by
    obtain ⟨hmem, hleaf⟩ := hsound.leaf? hpaths hreach hkind
    unfold Expr.eval
    rw [hleaf, hdims]
    exact hstore.fetch hmem []
  | .element hreach hkind _ _ his _, hcalls, hlit => by
    obtain ⟨hmem, hleaf⟩ := hsound.leaf? hpaths hreach hkind
    unfold Expr.eval
    rw [hleaf]
    exact (his.sensible hsound hpaths hstore hcalls hlit).bind fun is _ => hstore.fetch hmem is
  | .unary he hty _, hcalls, hlit => by
    refine (he.sensible hsound hpaths hstore hcalls hlit).bind fun v hv => ?_
    obtain ⟨w, hw, hwty⟩ := Value.unary_hasType hty hv
    rw [hw]
    exact hwty
  | .binary hl hr hty _, hcalls, hlit => by
    obtain ⟨hlcalls, hrcalls⟩ := List.append_eq_nil_iff.1 hcalls
    refine (hl.sensible hsound hpaths hstore hlcalls hlit.1).bind fun v hv => ?_
    refine (hr.sensible hsound hpaths hstore hrcalls hlit.2).bind fun w hw => ?_
    exact (Value.binary_yields hty hv hw).sensible

/-- Indices without calls lie within their dimensions, or come to a mishap of a run. -/
theorem IndicesCode.sensible (hsound : names.Sound ps [] fs) (hpaths : (ps.map (·.path)).Nodup)
    (hstore : StoreTyped ps store) {ds : List Dim} {es : List Expr} {m m' : Memory}
    {code : List Quad} : IndicesCode names ds es m code m' → Expr.allCalls es = [] →
    Expr.allLiterals (fun ty v => Literal ty (v.convert ty)) es →
    Sensible (Within ds) (Expr.evalIndices (ps.map Placement.leaf) store (ds.map (·.size)) es)
  | .nil, _, _ => .nil
  | .cons he hty hes, hcalls, hlit => by
    obtain ⟨hecalls, hescalls⟩ := List.append_eq_nil_iff.1 hcalls
    refine (he.sensible hsound hpaths hstore hecalls hlit.1).bind fun v hv => ?_
    rw [hty] at hv
    refine (checkIndex_sensible hv _).bind fun i hi => ?_
    exact (hes.sensible hsound hpaths hstore hescalls hlit.2).bind fun is his => .cons hi.1 hi.2 his

end

end

end Quadlang
