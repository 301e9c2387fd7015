-- The types of values: operators yield values of the types that the typing rules promise, and
-- a value of a type is in the representation of this type already.
import Quadlang.Machine.Operate
import Quadlang.Typing

namespace Quadlang.Value

variable {source t target tl tr ty : Ty} {l r v : Value}

/-- The type of a value, if it has one. -/
def ty? : Value → Option Ty
  | .int _ => some .int
  | .float _ => some .float
  | .char _ => some .char
  | .bool _ => some .bool
  | .string _ => some .string
  | .nothing | .foreign _ => none

abbrev HasType (v : Value) (ty : Ty) : Prop := v.ty? = some ty

/-! ## Representation -/

theorem convert_eq_self (h : v.HasType ty) : v.convert ty = v := by
  cases v <;> cases h <;> rfl

theorem assignable_cases (h : Typing.assignable target source = true) :
    target = source ∨ target = .int ∧ source = .char ∨
      target = .float ∧ (source = .int ∨ source = .char) := by
  unfold Typing.assignable at h
  split at h
  · exact .inr (.inl ⟨rfl, rfl⟩)
  · exact .inr (.inr ⟨rfl, .inl rfl⟩)
  · exact .inr (.inr ⟨rfl, .inr rfl⟩)
  · simp only [Bool.and_eq_true, decide_eq_true_eq] at h
    exact .inl h.1

/-- What may be assigned to a variable is, converted, of the type of the variable. -/
theorem convert_hasType (h : v.HasType source) (hassign : Typing.assignable target source = true) :
    (v.convert target).HasType target := by
  rcases assignable_cases hassign with rfl | ⟨rfl, rfl⟩ | ⟨rfl, rfl | rfl⟩
  · rw [convert_eq_self h]
    exact h
  · cases v <;> cases h
    rfl
  · cases v <;> cases h
    rfl
  · cases v <;> cases h
    rfl

theorem read_hasType {line : Bytes} (h : read ty line = .ok v) : v.HasType ty := by
  unfold read at h
  split at h
  · split at h
    · cases h; rfl
    · cases h
  · split at h
    · cases h; rfl
    · cases h
  · split at h
    · split at h
      · cases h
      · cases h; rfl
    · cases h
  · cases h; rfl
  · cases h; rfl
  · cases h

/-! ## Operators -/

/-- What an operator does to values that it takes: it yields a value of a type, or divides
by zero. -/
inductive Yields (ty : Ty) : Except RunFault Value → Prop
  | value {v : Value} : v.HasType ty → Yields ty (.ok v)
  | divisionByZero : Yields ty (.error .divisionByZero)

theorem arithInt_yields (op : Arith) (m n : Int64) : Yields .int ((arithInt op m n).map .int) := by
  unfold arithInt
  split
  · exact .value rfl
  · exact .value rfl
  · exact .value rfl
  · split
    · exact .divisionByZero
    · exact .value rfl

theorem arithFloat_yields (op : Arith) (x y : Float) :
    Yields .float ((arithFloat op x y).map .float) := by
  unfold arithFloat
  split
  · exact .value rfl
  · exact .value rfl
  · exact .value rfl
  · split
    · exact .divisionByZero
    · exact .value rfl

theorem arith_yields {op : Arith} (h : Typing.binary (.arith op) tl tr = some t) (hl : l.HasType tl)
    (hr : r.HasType tr) : Yields t (arith op l r) := by
  cases l <;> cases hl <;> cases r <;> cases hr <;> cases op <;> cases h <;>
    first
    | exact .value rfl
    | exact arithInt_yields ..
    | exact arithFloat_yields ..

theorem compare_yields {op : Comparison} (h : Typing.binary (.compare op) tl tr = some t)
    (hl : l.HasType tl) (hr : r.HasType tr) : Yields t ((compare op l r).map .bool) := by
  cases l <;> cases hl <;> cases r <;> cases hr <;> cases op <;> cases h <;> exact .value rfl

theorem logic_yields {op : Logic} (h : Typing.binary (.logic op) tl tr = some t) (hl : l.HasType tl)
    (hr : r.HasType tr) : Yields t ((logic op l r).map .bool) := by
  cases l <;> cases hl <;> cases r <;> cases hr <;> cases op <;> cases h <;> exact .value rfl

/-- An operator of two operands yields what the typing rules promise. -/
theorem binary_yields {op : BinaryOp} (h : Typing.binary op tl tr = some t) (hl : l.HasType tl)
    (hr : r.HasType tr) : Yields t (binary op l r) := by
  cases op with
  | arith op => exact arith_yields h hl hr
  | compare op => exact compare_yields h hl hr
  | logic op => exact logic_yields h hl hr

/-- An operator of one operand yields what the typing rules promise. -/
theorem unary_hasType {op : UnaryOp} {tv : Ty} (h : Typing.unary op tv = some t)
    (hv : v.HasType tv) :
    ∃ w, unary op v = .ok w ∧ w.HasType t := by
  cases op <;> cases v <;> cases hv <;> cases h <;> exact ⟨_, rfl, rfl⟩

end Quadlang.Value
