-- The operators agree with the typing rules: on operands that a rule takes they yield exactly
-- what they should, of the type that the rule promises, and only a division by zero fails.
import Quadlang.Proofs.Value.Floats
import Quadlang.Proofs.Value.Types

namespace Quadlang

/-- An operation on integers. A quotient is cut off towards zero. -/
def Arith.exact : Arith → Int → Int → Int
  | .sum, m, n => m + n
  | .sub, m, n => m - n
  | .mult, m, n => m * n
  | .div, m, n => m.tdiv n

def Arith.float : Arith → Float → Float → Float
  | .sum, x, y => x + y
  | .sub, x, y => x - y
  | .mult, x, y => x * y
  | .div, x, y => x / y

def Comparison.exact : Comparison → Int → Int → Bool
  | .eq, m, n => m = n
  | .neq, m, n => m ≠ n
  | .gte, m, n => m ≥ n
  | .lte, m, n => m ≤ n
  | .gt, m, n => m > n
  | .lt, m, n => m < n

/-- A comparison of floating-point numbers by which of them is less. What is no number is neither
less nor greater than anything, and counts as equal to it. -/
def Comparison.float : Comparison → Float → Float → Bool
  | .eq, x, y => ¬ x < y ∧ ¬ y < x
  | .neq, x, y => x < y ∨ y < x
  | .gte, x, y => ¬ x < y
  | .lte, x, y => ¬ y < x
  | .gt, x, y => y < x
  | .lt, x, y => x < y

def Logic.exact : Logic → Bool → Bool → Bool
  | .and => (· && ·)
  | .or => (· || ·)

namespace Value

variable {op : BinaryOp} {l r v : Value} {m n : Int} {t tl tr : Ty} {x y : Float}

/-- The integer that is meant by an integer or a character. -/
def integer? : Value → Option Int
  | .int n => some n.toInt
  | .char c => some c.toInt
  | _ => none

/-- A number is zero. -/
def isZero : Value → Bool
  | .int n => n = 0
  | .char c => c = 0
  | .float x => x == 0
  | _ => false

/-- What an operator should yield. An integer is the exact one in a machine word, and with a
floating-point number on one side both sides are taken as such. -/
inductive Computes : BinaryOp → Value → Value → Value → Prop
  | integers {op : Arith} {l r : Value} {m n : Int} : l.integer? = some m → r.integer? = some n →
      Computes (.arith op) l r (.int (.ofInt (op.exact m n)))
  | compareIntegers {op : Comparison} {l r : Value} {m n : Int} : l.integer? = some m →
      r.integer? = some n → Computes (.compare op) l r (.bool (op.exact m n))
  | floats {op : Arith} {l r : Value} {x y : Float} : l = .float x ∨ r = .float y →
      l.toFloat? = some x → r.toFloat? = some y → Computes (.arith op) l r (.float (op.float x y))
  | compareFloats {op : Comparison} {l r : Value} {x y : Float} : l = .float x ∨ r = .float y →
      l.toFloat? = some x → r.toFloat? = some y →
      Computes (.compare op) l r (.bool (op.float x y))
  | join (s t : Bytes) : Computes (.arith .sum) (.string s) (.string t) (.string (s ++ t))
  | eqStrings (s t : Bytes) : Computes (.compare .eq) (.string s) (.string t) (.bool (s = t))
  | neqStrings (s t : Bytes) : Computes (.compare .neq) (.string s) (.string t) (.bool (s ≠ t))
  | eqBools (a b : Bool) : Computes (.compare .eq) (.bool a) (.bool b) (.bool (a = b))
  | neqBools (a b : Bool) : Computes (.compare .neq) (.bool a) (.bool b) (.bool (a ≠ b))
  | logic (op : Logic) (a b : Bool) : Computes (.logic op) (.bool a) (.bool b)
    (.bool (op.exact a b))

/-- What an operator of one operand should yield. -/
inductive Inverts : UnaryOp → Value → Value → Prop
  | not (b : Bool) : Inverts .not (.bool b) (.bool !b)
  | neg (n : Int64) : Inverts .neg (.int n) (.int (.ofInt (-n.toInt)))
  | negFloat (x : Float) : Inverts .neg (.float x) (.float (-x))

/-- What comes of an operator on two values: what it should yield, or a division by zero. -/
inductive Outcome (op : BinaryOp) (l r : Value) : Except RunFault Value → Prop
  | value {v : Value} : ¬(op = .arith .div ∧ r.isZero) → Computes op l r v → Outcome op l r (.ok v)
  | divisionByZero : op = .arith .div → r.isZero → Outcome op l r (.error .divisionByZero)

/-! ## Numbers -/

theorem toInt?_eq_some (h : v.integer? = some n) :
    ∃ w : Int64, v.toInt? = some w ∧ w.toInt = n := by
  cases v <;> cases h
  · exact ⟨_, rfl, rfl⟩
  · exact ⟨_, rfl, Int32.toInt_toInt64 _⟩

theorem isZero_of_toInt? {w : Int64} (h : v.toInt? = some w) : v.isZero ↔ w = 0 := by
  cases v <;> cases h
  · exact decide_eq_true_iff
  · rw [isZero, decide_eq_true_iff, ← Int32.toInt_inj, ← Int64.toInt_inj, Int32.toInt_toInt64]
    rfl

theorem isZero_of_toFloat? (h : v.toFloat? = some x) : v.isZero ↔ (x == 0) = true := by
  cases v <;> cases h
  · rw [nearest_beq_zero]
    exact isZero_of_toInt? rfl
  · exact Iff.rfl
  · rw [nearest_beq_zero]
    exact isZero_of_toInt? rfl

theorem arithInt_exact {op : Arith} {a b : Int64} (h : ¬(op = .div ∧ b = 0)) :
    arithInt op a b = .ok (.ofInt (op.exact a.toInt b.toInt)) := by
  cases op with
  | sum => rw [arithInt, Arith.exact, Int64.ofInt_add, Int64.ofInt_toInt, Int64.ofInt_toInt]
  | sub => rw [arithInt, Arith.exact, Int64.ofInt_sub, Int64.ofInt_toInt, Int64.ofInt_toInt]
  | mult => rw [arithInt, Arith.exact, Int64.ofInt_mul, Int64.ofInt_toInt, Int64.ofInt_toInt]
  | div =>
    rw [arithInt, if_neg fun hb => h ⟨rfl, hb⟩]
    -- The least integer divided by -1 is the one quotient that a word has no room for.
    have hword : a / b = .ofInt (a.toInt.tdiv b.toInt) := by
      rw [← Int64.toInt_inj, Int64.toInt_div, Int64.toInt_ofInt]
    rw [hword]
    rfl

theorem arithFloat_exact {op : Arith} (h : ¬(op = .div ∧ (y == 0) = true)) :
    arithFloat op x y = .ok (op.float x y) := by
  cases op with
  | sum => rfl
  | sub => rfl
  | mult => rfl
  | div => rw [arithFloat, if_neg fun hy => h ⟨rfl, hy⟩]; rfl

theorem holds_integers (op : Comparison) (a b : Int64) :
    holds op (compareOfLessAndEq a b) = op.exact a.toInt b.toInt := by
  have hlt : a < b ↔ a.toInt < b.toInt := Int64.lt_iff_toInt_lt
  have heq : a = b ↔ a.toInt = b.toInt := Int64.toInt_inj.symm
  unfold compareOfLessAndEq
  split
  · cases op <;> grind [holds, Comparison.exact]
  · split <;> cases op <;> grind [holds, Comparison.exact]

theorem holds_floats (op : Comparison) (x y : Float) :
    holds op (floatOrder x y) = op.float x y := by
  unfold floatOrder
  split
  · rename_i hlt
    have hge := float_lt_asymm hlt
    cases op <;> simp [holds, Comparison.float, hlt, hge]
  · rename_i hge
    split
    · rename_i hgt
      cases op <;> simp [holds, Comparison.float, hge, hgt]
    · rename_i hle
      cases op <;> simp [holds, Comparison.float, hge, hle]

/-- Equality and inequality ask of an order only whether it is equality. -/
theorem holds_equality {o : Ordering} {p : Prop} [Decidable p] (h : o = .eq ↔ p) :
    holds .eq o = decide p ∧ holds .neq o = decide ¬p := by
  simp [holds, h]

theorem compareOfLessAndEq_strings (s t : Bytes) : compareOfLessAndEq s t = .eq ↔ s = t := by
  have hirrefl : ¬s < s := List.lt_irrefl s
  unfold compareOfLessAndEq
  grind

/-! ## Operands -/

theorem arith_integers {op : Arith} (hl : l.integer? = some m) (hr : r.integer? = some n) :
    Outcome (.arith op) l r (arith op l r) := by
  obtain ⟨a, ha, rfl⟩ := toInt?_eq_some hl
  obtain ⟨b, hb, rfl⟩ := toInt?_eq_some hr
  have harith : arith op l r = (arithInt op a b).map .int := by
    cases l <;> cases ha <;> cases r <;> cases hb <;> cases op <;> rfl
  rw [harith]
  by_cases hzero : op = .div ∧ b = 0
  · obtain ⟨rfl, rfl⟩ := hzero
    exact .divisionByZero rfl ((isZero_of_toInt? hb).2 rfl)
  · rw [arithInt_exact hzero]
    apply Outcome.value _ (.integers hl hr)
    rintro ⟨⟨⟩, hr⟩
    exact hzero ⟨rfl, (isZero_of_toInt? hb).1 hr⟩

/-- An arithmetic operator on two numbers, one of them a floating-point number. -/
theorem arith_floats {op : Arith} (h : l = .float x ∨ r = .float y) (hl : l.toFloat? = some x)
    (hr : r.toFloat? = some y) : Outcome (.arith op) l r (arith op l r) := by
  have harith : arith op l r = (arithFloat op x y).map .float := by
    rcases h with rfl | rfl
    · cases r <;> cases hr <;> cases op <;> rfl
    · cases l <;> cases hl <;> cases op <;> rfl
  rw [harith]
  by_cases hzero : op = .div ∧ (y == 0) = true
  · obtain ⟨rfl, hy⟩ := hzero
    rw [arithFloat, if_pos hy]
    exact .divisionByZero rfl ((isZero_of_toFloat? hr).2 hy)
  · rw [arithFloat_exact hzero]
    apply Outcome.value _ (.floats h hl hr)
    rintro ⟨⟨⟩, hy⟩
    exact hzero ⟨rfl, (isZero_of_toFloat? hr).1 hy⟩

theorem compare_integers {op : Comparison} (hl : l.integer? = some m) (hr : r.integer? = some n) :
    Outcome (.compare op) l r ((compare op l r).map .bool) := by
  obtain ⟨a, ha, rfl⟩ := toInt?_eq_some hl
  obtain ⟨b, hb, rfl⟩ := toInt?_eq_some hr
  have hcompare : compare op l r = .ok (holds op (compareOfLessAndEq a b)) := by
    cases l <;> cases ha <;> cases r <;> cases hb <;> rfl
  rw [hcompare, holds_integers]
  exact .value nofun (.compareIntegers hl hr)

theorem compare_floats {op : Comparison} (h : l = .float x ∨ r = .float y)
    (hl : l.toFloat? = some x)
    (hr : r.toFloat? = some y) : Outcome (.compare op) l r ((compare op l r).map .bool) := by
  have hcompare : compare op l r = .ok (holds op (floatOrder x y)) := by
    rcases h with rfl | rfl
    · cases r <;> cases hr <;> rfl
    · cases l <;> cases hl <;> rfl
  rw [hcompare, holds_floats]
  exact .value nofun (.compareFloats h hl hr)

/-- Two numbers meet in an integer if both are integers, else one is a floating-point number. -/
theorem meet_cases (h : Typing.meet tl tr = some t) (hl : l.HasType tl) (hr : r.HasType tr) :
    (∃ m n, l.integer? = some m ∧ r.integer? = some n) ∨
      ∃ x y, (l = .float x ∨ r = .float y) ∧ l.toFloat? = some x ∧ r.toFloat? = some y := by
  cases l <;> cases hl <;> cases r <;> cases hr <;> cases h
  · exact .inl ⟨_, _, rfl, rfl⟩
  · exact .inr ⟨_, _, .inr rfl, rfl, rfl⟩
  · exact .inl ⟨_, _, rfl, rfl⟩
  · exact .inr ⟨_, _, .inl rfl, rfl, rfl⟩
  · exact .inr ⟨_, _, .inl rfl, rfl, rfl⟩
  · exact .inr ⟨_, _, .inl rfl, rfl, rfl⟩
  · exact .inl ⟨_, _, rfl, rfl⟩
  · exact .inr ⟨_, _, .inr rfl, rfl, rfl⟩
  · exact .inl ⟨_, _, rfl, rfl⟩

theorem compare_equality {op : Comparison} {o : Ordering} (horder : order? op l r = some o)
    (hcomputes : Computes (.compare op) l r (.bool (holds op o))) :
    Outcome (.compare op) l r ((compare op l r).map .bool) := by
  rw [compare, horder]
  exact .value (by simp) hcomputes

/-- An operator does what it should to all operands that the typing rules let it have. -/
theorem binary_outcome (h : Typing.binary op tl tr = some t) (hl : l.HasType tl)
    (hr : r.HasType tr) :
    Outcome op l r (binary op l r) := by
  revert h
  fun_cases Typing.binary op tl tr <;> intro h
  case case1 =>
    cases l <;> cases hl
    cases r <;> cases hr
    exact .value (by simp) (.join _ _)
  case case2 =>
    rcases meet_cases h hl hr with ⟨m, n, hm, hn⟩ | ⟨x, y, hfloat, hx, hy⟩
    · exact arith_integers hm hn
    · exact arith_floats hfloat hx hy
  case case7 =>
    obtain ⟨_, hmeet, -⟩ := Option.map_eq_some_iff.1 h
    rcases meet_cases hmeet hl hr with ⟨m, n, hm, hn⟩ | ⟨x, y, hfloat, hx, hy⟩
    · exact compare_integers hm hn
    · exact compare_floats hfloat hx hy
  case case8 op =>
    cases l <;> cases hl
    cases r <;> cases hr
    cases op <;> exact .value (by simp) (.logic _ _ _)
  case case9 => cases h
  -- What is left are the equalities of truth values and of strings.
  all_goals
    cases l <;> cases hl
    cases r <;> cases hr
    rename_i a b
  · have hholds := holds_equality (o := if a = b then .eq else .gt) (p := a = b) (by grind)
    exact compare_equality rfl (hholds.1 ▸ .eqBools a b)
  · have hholds := holds_equality (o := if a = b then .eq else .gt) (p := a = b) (by grind)
    exact compare_equality rfl (hholds.2 ▸ .neqBools a b)
  · have hholds := holds_equality (compareOfLessAndEq_strings a b)
    exact compare_equality rfl (hholds.1 ▸ .eqStrings a b)
  · have hholds := holds_equality (compareOfLessAndEq_strings a b)
    exact compare_equality rfl (hholds.2 ▸ .neqStrings a b)

theorem unary_inverts {op : UnaryOp} {w : Value} (h : unary op v = .ok w) : Inverts op v w := by
  cases op <;> cases v <;> cases h
  · exact .not _
  · rename_i n
    have hneg : -n = .ofInt (-n.toInt) := by rw [Int64.ofInt_neg, Int64.ofInt_toInt]
    exact hneg ▸ .neg n
  · exact .negFloat _

/-- The operators and the typing rules agree. Whatever operands the rules let an operator have, it
yields what it should, in the representation of the promised type; only a division fails, and only
by zero. -/
theorem operators_agree_with_typing :
    (∀ (op : BinaryOp) (l r : Value) (tl tr t : Ty), Typing.binary op tl tr = some t →
      l.HasType tl → r.HasType tr →
        ((binary op l r).map (convert t) = .error .divisionByZero ↔ op = .arith .div ∧ r.isZero) ∧
        (¬(op = .arith .div ∧ r.isZero) →
          ∃ v, (binary op l r).map (convert t) = .ok v ∧ v.HasType t ∧ Computes op l r v)) ∧
      ∀ (op : UnaryOp) (v : Value) (tv t : Ty), Typing.unary op tv = some t → v.HasType tv →
        ∃ w, (unary op v).map (convert t) = .ok w ∧ w.HasType t ∧ Inverts op v w := by
  constructor
  · intro op l r tl tr t h hl hr
    have houtcome := binary_outcome h hl hr
    have hyields := binary_yields h hl hr
    generalize binary op l r = result at houtcome hyields
    cases houtcome with
    | value hzero hcomputes =>
      obtain ⟨htype⟩ := hyields
      rw [Except.map, convert_eq_self htype]
      exact ⟨⟨fun h => (by cases h), fun h => absurd h hzero⟩, fun _ => ⟨_, rfl, htype, hcomputes⟩⟩
    | divisionByZero hop hzero =>
      exact ⟨⟨fun _ => ⟨hop, hzero⟩, fun _ => rfl⟩, fun h => absurd ⟨hop, hzero⟩ h⟩
  · intro op v tv t h hv
    obtain ⟨w, hw, htype⟩ := unary_hasType h hv
    rw [hw, Except.map, convert_eq_self htype]
    exact ⟨w, rfl, htype, unary_inverts hw⟩

/-- The least integer divided by -1 comes out again, a number divided by the character zero is a
failure, and the least integer is its own negative. -/
theorem least_integer_operators :
    (∃ v, (binary (.arith .div) (.int .minValue) (.int (-1))).map (convert .int) = .ok v ∧
        v.HasType .int ∧ Computes (.arith .div) (.int .minValue) (.int (-1)) v) ∧
      (binary (.arith .div) (.float 1) (.char 0)).map (convert .float) = .error .divisionByZero ∧
      ∃ w, (unary .neg (.int .minValue)).map (convert .int) = .ok w ∧ w.HasType .int ∧
        Inverts .neg (.int .minValue) w := by
  have hbinary := operators_agree_with_typing.1
  refine ⟨(hbinary (.arith .div) _ _ .int .int .int rfl rfl rfl).2 ?_,
    (hbinary (.arith .div) _ _ .float .char .float rfl rfl rfl).1.2 ⟨rfl, rfl⟩,
    operators_agree_with_typing.2 .neg _ .int .int rfl rfl⟩
  decide

end Value

end Quadlang
