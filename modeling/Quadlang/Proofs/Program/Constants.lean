-- The constants of a program: a literal is of its type and has no sign, so literals that count as
-- one constant are the same, and the cell of a constant holds what the literal says.
import Quadlang.Proofs.Program.Charted
import Quadlang.Proofs.Text.Numbers
import Quadlang.Proofs.Value.Floats

namespace Quadlang

open Source

variable {ty : Ty}

/-! ## Numbers in a text -/

/-- The bits of infinity are not those of a negative number. -/
theorem lt_of_lt_infinity {bits : Nat} (h : bits < 0x7FF <<< 52) : bits < 0x8000000000000000 := by
  omega

theorem nearestBits?_lt {num den bits : Nat} (h : Decimal.nearestBits? num den = some bits) :
    bits < 0x8000000000000000 := by
  unfold Decimal.nearestBits? at h
  by_cases hzero : num = 0
  · rw [if_pos hzero] at h
    obtain rfl := Option.some.inj h
    decide
  · rw [if_neg hzero] at h
    simp only [Option.ite_none_right_eq_some, Option.some.injEq] at h
    obtain ⟨hlt, rfl⟩ := h
    exact lt_of_lt_infinity hlt

theorem readMagnitude_lt {hex : Bool} {b : Bytes} {bits : Nat}
    (h : Decimal.readMagnitude hex b = .ok bits) : bits < 0x8000000000000000 := by
  unfold Decimal.readMagnitude at h
  extract_lets base at h
  -- The digits and what follows them are taken apart first, so that only the last choice is left.
  split at h
  split at h
  extract_lets places exponent at h
  cases hexponent : exponent with
  | none =>
    rw [hexponent] at h
    cases h
  | some e =>
    rw [hexponent] at h
    dsimp only at h
    split at h
    · cases h
    · split at h
      · rename_i hbits
        obtain rfl := Except.ok.inj h
        split at hbits
        · obtain rfl := Option.some.inj hbits
          decide
        · exact nearestBits?_lt hbits
      · cases h

section

variable {c : UInt8} (hc : Token.isDigit c = true)

include hc

theorem lower_digit : Decimal.lower c = c := by
  unfold Token.isDigit at hc
  unfold Decimal.lower
  simp only [Bool.and_eq_true, decide_eq_true_eq] at hc
  rw [if_neg (by omega)]

theorem named?_digit (r : Bytes) : Decimal.named? (c :: r) = none := by
  unfold Decimal.named?
  rw [List.map_cons, lower_digit hc]
  dsimp only
  rw [Decimal.takeSign_digit hc]
  have hother : ∀ {d : UInt8} {w : Bytes}, Token.isDigit d = false →
    c :: r.map Decimal.lower ≠ d :: w := by
    intro d w hd heq
    obtain ⟨rfl, -⟩ := List.cons.inj heq
    rw [hc] at hd
    cases hd
  rw [if_neg, if_neg]
  · rintro (heq | heq)
    · exact hother (by decide) heq
    · exact hother (by decide) heq
  · exact fun heq => hother (by decide) heq

/-- A number that begins with a digit has no sign. -/
theorem readFloat_unsigned {r : Bytes} {x : Float}
    (h : Decimal.readFloat (c :: r) = .ok x) : Unsigned x := by
  unfold Decimal.readFloat at h
  rw [named?_digit hc, Decimal.takeSign_digit hc] at h
  have hmagnitude : ∀ {hex : Bool} {body : Bytes},
      (if Decimal.separated hex hex body then
        (Decimal.readMagnitude hex (body.filter (· ≠ '_'.toUInt8))).map (Decimal.signed false)
      else .error .malformed) = .ok x → Unsigned x := by
    intro hex body h
    split at h
    · cases hbits : Decimal.readMagnitude hex (body.filter (· ≠ '_'.toUInt8)) with
      | error e =>
        rw [hbits] at h
        cases h
      | ok bits =>
        rw [hbits] at h
        obtain rfl := Except.ok.inj h
        have hlt := readMagnitude_lt hbits
        apply unsigned_ofBits
        rw [if_neg (by simp), UInt64.toNat_ofNat', Nat.mod_eq_of_lt (by omega)]
        exact hlt
    · cases h
  exact hmagnitude h

end

/-! ## Literals -/

/-- What a literal of a type can be: a value of the type, without a sign if it has a fraction. -/
structure Literal (ty : Ty) (v : Value) : Prop where
  hasType : v.HasType ty
  unsigned : ∀ x, v = .float x → Unsigned x

/-- Literals that count as one constant are the same. -/
theorem Literal.eq_of_same {ty' : Ty} {v w : Value} (hv : Literal ty v) (hw : Literal ty' w)
    (h : v.same w = true) : v = w := by
  unfold Value.same at h
  split at h
  · rename_i x y
    rw [(hv.unsigned x rfl).eq_of_beq (hw.unsigned y rfl) h]
  · exact of_decide_eq_true h

/-- A constant with a fraction is read from a token with one. -/
theorem readFloat_of_constant? {t : Token} {x : Float} (h : constant? t = some (ty, .float x)) :
    t.kind = .float ∧ Decimal.readFloat t.text = .ok x := by
  unfold constant? at h
  split at h
  · obtain ⟨n, -, hn⟩ := Option.map_eq_some_iff.1 h
    cases hn
  · rename_i hkind
    refine ⟨hkind, ?_⟩
    cases hread : Decimal.readFloat t.text with
    | error e =>
      rw [hread] at h
      cases h
    | ok y =>
      rw [hread] at h
      cases h
      rfl
  · split at h
    · cases h
    · cases h
  · cases h
  · split at h
    · cases h
    · split at h
      · cases h
      · cases h
  · cases h

theorem literal_of_scan {text : Bytes} {ts : Tokens} (h : Token.scan text = .ok ts) {t : Token}
    (ht : t ∈ ts.list) {v : Value} (hconst : constant? t = some (ty, v)) : Literal ty v := by
  have hdigit : ∀ t ∈ ts.list, t.kind = .float → ∃ c r, t.text = c :: r ∧
    Token.isDigit c = true := by
    refine scanFrom_forall h (by simp) ?_
    intro c r kind text rest line hfirst hkind
    obtain ⟨r', htext, hc⟩ := (first_kind hfirst).2 hkind
    exact ⟨c, r', htext, hc⟩
  refine ⟨constant?_hasType hconst, ?_⟩
  rintro x rfl
  obtain ⟨hkind, hread⟩ := readFloat_of_constant? hconst
  obtain ⟨c, r, htext, hc⟩ := hdigit t ht hkind
  rw [htext] at hread
  exact readFloat_unsigned hc hread

/-- The cell of a literal is that of a constant with its value. -/
theorem Memory.Valid.intern_literal {m m' : Memory} (hm : m.Valid) {v : Value} {a : Addr}
    (h : m.intern ty v = .ok (a, m')) (hv : Literal ty v)
    (hconstants : ∀ c ∈ m'.constants, Literal c.ty c.value) :
    ∃ c ∈ m'.constants, c.address = a ∧ c.value = v := by
  obtain ⟨-, -, -, ⟨c, hc, -, ha, hsame⟩, -⟩ := hm.intern h
  rcases hsame with hsame | hsame
  · exact ⟨c, hc, ha, (hconstants c hc).eq_of_same hv hsame⟩
  · exact ⟨c, hc, ha, hsame⟩

end Quadlang
