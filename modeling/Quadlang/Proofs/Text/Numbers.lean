-- Numbers as text: the digits of a number say which it is, a machine integer reads back from them,
-- and no number ends a line.
import Mathlib.Data.List.Basic
import Quadlang.Decimal.Reading
import Quadlang.Decimal.Shortest
import Quadlang.Token.Lexer

namespace Quadlang

open Token (isDigit newline)

namespace Bytes

variable {d : UInt8} {b : Bytes} {m n : Nat} {i j : Int}

/-! ## Digits -/

/-- The number that decimal digits stand for behind the digits of `n`. -/
def number (n : Nat) (b : Bytes) : Nat := b.foldl (fun n d => 10 * n + (d.toNat - 48)) n

theorem le_number (n : Nat) (b : Bytes) : n ≤ number n b := by
  induction b generalizing n with
  | nil => exact Nat.le_refl n
  | cons d b ih => exact Nat.le_trans (by omega) (ih (10 * n + (d.toNat - 48)))

theorem toNat_of_isDigit {c : Char} (h : c.isDigit = true) :
    c.toUInt8.toNat = c.toNat ∧ isDigit c.toUInt8 = true := by
  simp only [Char.isDigit, Bool.and_eq_true, decide_eq_true_eq, ge_iff_le,
    UInt32.le_iff_toNat_le] at h
  have hlow : 48 ≤ c.toNat := h.1
  have hhigh : c.toNat ≤ 57 := h.2
  have hbyte : c.toUInt8.toNat = c.toNat := by
    show c.toNat % 256 = c.toNat
    omega
  simp [isDigit, hbyte, hlow, hhigh]

theorem isDigit_of_mem_ofNat (h : d ∈ ofNat n) : isDigit d = true := by
  obtain ⟨c, hc, rfl⟩ := List.mem_map.1 h
  exact (toNat_of_isDigit (Nat.isDigit_of_mem_toDigits (by decide) (by decide) hc)).2

theorem ofNat_ne_nil : ofNat n ≠ [] := by
  simp [ofNat, Nat.toDigits_ne_nil]

theorem number_ofNat (n : Nat) : number 0 (ofNat n) = n := by
  have hdigits : ∀ (k : Nat), ∀ c ∈ Nat.toDigits 10 n,
      10 * k + (c.toUInt8.toNat - 48) = 10 * k + (c.toNat - '0'.toNat) := by
    intro k c hc
    rw [(toNat_of_isDigit (Nat.isDigit_of_mem_toDigits (by decide) (by decide) hc)).1]
    rfl
  unfold number ofNat
  rw [List.foldl_map, List.foldl_ext _ _ 0 hdigits, ← Nat.ofDigitChars_eq_foldl]
  exact Nat.ofDigitChars_ten_toDigits

theorem ofNat_inj (h : ofNat m = ofNat n) : m = n := by
  rw [← number_ofNat m, h, number_ofNat]

theorem newline_not_mem_ofNat (n : Nat) : newline ∉ ofNat n :=
  fun h => absurd (isDigit_of_mem_ofNat h) (by decide)

/-! ## Integers -/

/-- The digits of a number have no minus sign among them. -/
theorem minus_not_mem_ofNat : '-'.toUInt8 ∉ ofNat n := by
  intro h
  exact absurd (isDigit_of_mem_ofNat h) (by decide)

theorem mem_ofInt (h : d ∈ ofInt i) : d = '-'.toUInt8 ∨ isDigit d = true := by
  cases i with
  | ofNat n => exact .inr (isDigit_of_mem_ofNat h)
  | negSucc n =>
    rcases List.mem_cons.1 h with rfl | h
    · exact .inl rfl
    · exact .inr (isDigit_of_mem_ofNat h)

theorem ofInt_inj (h : ofInt i = ofInt j) : i = j := by
  have hsign : ∀ {m n : Nat}, ofNat m ≠ ascii "-" ++ ofNat n := by
    intro m n heq
    exact minus_not_mem_ofNat (n := m) (heq ▸ List.mem_cons_self)
  cases i with
  | ofNat m =>
    cases j with
    | ofNat n => rw [ofNat_inj h]
    | negSucc n => exact absurd h hsign
  | negSucc m =>
    cases j with
    | ofNat n => exact absurd h.symm hsign
    | negSucc n => rw [Nat.succ.inj (ofNat_inj (List.append_cancel_left h))]

theorem newline_not_mem_ofInt (i : Int) : newline ∉ ofInt i := by
  intro h
  rcases mem_ofInt h with heq | hdigit
  · exact absurd heq (by decide)
  · exact absurd hdigit (by decide)

end Bytes

namespace Decimal

open Bytes

variable {c : UInt8} {b : Bytes} {n : Nat}

theorem readDigits_eq (hb : ∀ d ∈ b, isDigit d = true) (h : number n b < 1 <<< 64) :
    readDigits n b = .ok (number n b) := by
  induction b generalizing n with
  | nil => rfl
  | cons d b ih =>
    obtain ⟨hd, hb⟩ := List.forall_mem_cons.1 hb
    simp only [isDigit, Bool.and_eq_true, decide_eq_true_eq] at hd
    have hdigit : Text.digit? 10 d = some (d.toNat - 48) := by
      simp [Text.digit?, hd, show d.toNat - 48 < 10 by omega]
    have hnext : n * 10 + (d.toNat - 48) = 10 * n + (d.toNat - 48) := by omega
    have hle := le_number (10 * n + (d.toNat - 48)) b
    rw [readDigits, hdigit]
    simp only [hnext]
    rw [if_pos (Nat.lt_of_le_of_lt hle h)]
    exact ih hb h

theorem takeSign_digit (hc : isDigit c = true) (r : Bytes) :
    takeSign (c :: r) = (false, c :: r) := by
  simp only [takeSign]
  rw [if_neg, if_neg]
  · rintro rfl
    revert hc
    decide
  · rintro rfl
    revert hc
    decide

theorem takeSign_ofNat (n : Nat) : takeSign (ofNat n) = (false, ofNat n) := by
  cases h : ofNat n with
  | nil => exact absurd h ofNat_ne_nil
  | cons c r => exact takeSign_digit (isDigit_of_mem_ofNat (n := n) (h ▸ List.mem_cons_self)) r

/-- A machine integer reads back from its text. -/
theorem readInt_ofWord (n : Int64) : readInt (ofWord n) = .ok n := by
  have hlow : -2 ^ 63 ≤ n.toInt := Int64.le_toInt n
  have hhigh : n.toInt < 2 ^ 63 := Int64.toInt_lt n
  have hread : ∀ k, k ≤ 0x8000000000000000 → readDigits 0 (ofNat k) = .ok k := by
    intro k hk
    rw [readDigits_eq (fun _ => isDigit_of_mem_ofNat) (by rw [number_ofNat]; omega), number_ofNat]
  have hword := Int64.ofInt_toInt n
  unfold ofWord readInt
  cases hn : n.toInt with
  | ofNat k =>
    have hk : k < 0x8000000000000000 := by rw [hn, Int.ofNat_eq_natCast] at hhigh; omega
    rw [hn] at hword
    rw [ofInt, takeSign_ofNat]
    simp only [List.isEmpty_iff, ofNat_ne_nil, if_false, hread k (by omega)]
    exact (if_pos hk).trans (congrArg Except.ok hword)
  | negSucc k =>
    have hk : k + 1 ≤ 0x8000000000000000 := by rw [hn, Int.negSucc_eq] at hlow; omega
    have hsign : takeSign (ascii "-" ++ ofNat (k + 1)) = (true, ofNat (k + 1)) := rfl
    rw [hn] at hword
    rw [ofInt, hsign]
    simp only [List.isEmpty_iff, ofNat_ne_nil, if_false, hread _ hk]
    exact (if_pos hk).trans (congrArg Except.ok hword)

/-! ## Floating-point numbers -/

theorem newline_not_mem_exponentText (x : Int) : newline ∉ exponentText x := by
  have hzero : newline ≠ '0'.toUInt8 := by decide
  have hsign : newline ∉ ascii (if x < 0 then "e-" else "e+") := by split <;> decide
  simp [exponentText, hsign, hzero, newline_not_mem_ofNat]

theorem newline_not_mem_text (d : Digits) : newline ∉ d.text := by
  have hzero : newline ≠ '0'.toUInt8 := by decide
  have hpoint : newline ∉ ascii "." := by decide
  have hfront : newline ∉ ascii "0." := by decide
  have hdigits := newline_not_mem_ofNat (d.trim 17).digits
  simp only [Digits.text]
  split
  · split
    · exact List.not_mem_nil
    · rename_i first heq
      rw [heq] at hdigits
      simp_all [newline_not_mem_exponentText]
    · rename_i first rest _ heq
      rw [heq] at hdigits
      simp_all [newline_not_mem_exponentText]
  split
  · simp [hfront, hzero, hdigits]
  split
  · simp [hzero, hdigits]
  · simp only [List.mem_append, not_or]
    exact ⟨⟨fun h => hdigits (List.mem_of_mem_take h), hpoint⟩, fun h =>
      hdigits (List.mem_of_mem_drop h)⟩

theorem newline_not_mem_ofFloat (x : Float) : newline ∉ ofFloat x := by
  have htext : ∀ b : Binary, newline ∉ (if b.mantissa = 0 then ascii "0" else b.shortest.text) := by
    intro b
    split
    · decide
    · exact newline_not_mem_text _
  simp only [ofFloat]
  split
  · split
    · decide
    · split <;> decide
  · rename_i b _
    split
    · simp only [List.mem_append, not_or]
      exact ⟨by decide, htext b⟩
    · exact htext b

end Decimal

end Quadlang
