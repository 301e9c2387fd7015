-- Characters as bytes: each reads back from its bytes, and none ends a line inside of quotes.
import Quadlang.Text.Quoted
import Quadlang.Token.Lexer

namespace Quadlang

namespace Text

open Token (newline)

variable {n : Nat} {b mark : UInt8}

/-! ## Bytes -/

theorem toNat_toUInt8 (h : n < 256) : n.toUInt8.toNat = n := UInt8.toNat_ofNat_of_lt' h

/-- A continuation byte is read as the six bits that it was made of. -/
theorem tails?_cons {k m x : Nat} (r : Bytes) (hx : x < 64) :
    tails? (k + 1) m ((0x80 + x).toUInt8 :: r) = tails? k (m * 64 + x) r := by
  rw [tails?, toNat_toUInt8 (by omega), if_pos (by omega), Nat.add_sub_cancel_left]

/-- A character reads back from its bytes, whatever follows. -/
theorem decode?_encode (h : isScalar n = true) (r : Bytes) :
    decode? (encode n ++ r) = some (n, r) := by
  have hbound : n < 0x110000 := by
    simp only [isScalar, Bool.or_eq_true, Bool.and_eq_true, decide_eq_true_eq] at h
    omega
  have hscalar : ∀ {m low : Nat}, m = n → low ≤ n →
      (some (m, r)).filter (fun p => low ≤ p.1 && isScalar p.1) = some (n, r) := by
    rintro m low rfl hlow
    simp [Option.filter, hlow, h]
  unfold encode
  split
  · rw [List.singleton_append, decode?, toNat_toUInt8 (by omega), if_pos ‹_›]
  split
  · rw [List.cons_append, decode?, toNat_toUInt8 (by omega), if_neg (by omega), if_neg (by omega),
      if_pos (by omega), List.singleton_append, tails?_cons _ (by omega), tails?]
    congr 2
    omega
  split
  · simp only [List.cons_append, List.nil_append]
    rw [decode?, toNat_toUInt8 (by omega), if_neg (by omega), if_neg (by omega), if_neg (by omega),
      if_pos (by omega), tails?_cons _ (by omega), tails?_cons _ (by omega), tails?]
    exact hscalar (by omega) (by omega)
  · simp only [List.cons_append, List.nil_append]
    rw [decode?, toNat_toUInt8 (by omega), if_neg (by omega), if_neg (by omega), if_neg (by omega),
      if_neg (by omega), if_pos (by omega), tails?_cons _ (by omega), tails?_cons _ (by omega),
      tails?_cons _ (by omega), tails?]
    exact hscalar (by omega) (by omega)

/-- The bytes of a character are its number, or none of them stands for a character alone. -/
theorem mem_encode (hn : n < 0x110000) (h : b ∈ encode n) : b.toNat = n ∨ 0x80 ≤ b.toNat := by
  unfold encode at h
  split at h
  · obtain rfl := List.mem_singleton.1 h
    exact .inl (toNat_toUInt8 (by omega))
  · right
    split at h
    · simp only [List.mem_cons, List.not_mem_nil, or_false] at h
      rcases h with rfl | rfl <;> rw [toNat_toUInt8 (by omega)] <;> omega
    split at h
    · simp only [List.mem_cons, List.not_mem_nil, or_false] at h
      rcases h with rfl | rfl | rfl <;> rw [toNat_toUInt8 (by omega)] <;> omega
    · simp only [List.mem_cons, List.not_mem_nil, or_false] at h
      rcases h with rfl | rfl | rfl | rfl <;> rw [toNat_toUInt8 (by omega)] <;> omega

/-! ## Quotes -/

/-- A character that is written as it is neither ends a line nor lies beyond all characters. -/
theorem bounds_of_isPrintable (h : isPrintable n = true) : n ≠ 10 ∧ n < 0x110000 := by
  have hranges : ∀ r ∈ printableRanges, 10 < r.1 ∧ r.1 + r.2 < 0x110000 := by
    decide +kernel
  unfold isPrintable at h
  split at h
  · simp only [decide_eq_true_eq] at h
    omega
  · obtain ⟨r, hr, hin⟩ := List.any_eq_true.1 (Bool.and_eq_true_iff.1 h).1
    simp only [Bool.and_eq_true, decide_eq_true_eq] at hin
    have := hranges r hr
    omega

theorem newline_not_mem_ofHex (width n : Nat) : newline ∉ Bytes.ofHex width n := by
  have hdigit : ∀ k < 16, (Nat.digitChar k).toUInt8 ≠ newline := by decide
  induction width generalizing n with
  | zero => exact List.not_mem_nil
  | succ width ih => simp [Bytes.ofHex, ih, (hdigit (n % 16) (by omega)).symm]

theorem newline_not_mem_escape (hmark : mark ≠ newline) (n : Nat) : newline ∉ escape mark n := by
  have hback : newline ≠ backslash := by decide
  unfold escape
  split
  · rename_i hn
    have hbyte : n.toUInt8 = mark ∨ n.toUInt8 = backslash := by
      rcases hn with rfl | rfl <;> simp [Nat.toUInt8]
    rcases hbyte with hbyte | hbyte <;> simp [hbyte, hmark.symm, hback]
  split
  · rename_i hprintable
    obtain ⟨hne, hlt⟩ := bounds_of_isPrintable hprintable
    intro hmem
    rcases mem_encode hlt hmem with heq | hhigh
    · exact hne heq.symm
    · exact absurd hhigh (by decide)
  split
  · rename_i letter m hfind
    have hletters : ∀ x ∈ letterEscapes, newline ≠ x.1 := by decide
    simp [hback, hletters _ (List.mem_of_find?_eq_some hfind)]
  · have hx : newline ∉ ascii "\\x" := by decide
    have hu : newline ∉ ascii "\\u" := by decide
    have hU : newline ∉ ascii "\\U" := by decide
    split
    · simp [hx, newline_not_mem_ofHex]
    split
    · simp [hu, newline_not_mem_ofHex]
    · simp [hU, newline_not_mem_ofHex]

/-- Whatever a text holds, it ends no line inside of quotes. -/
theorem newline_not_mem_quote (s : Bytes) : newline ∉ quote s := by
  have hmark : newline ≠ doubleQuote := by decide
  have hx : newline ∉ ascii "\\x" := by decide
  simp only [quote, List.mem_append, List.mem_singleton, List.mem_flatten, List.mem_map,
    hmark, not_or, not_false_eq_true, true_and, and_true]
  rintro ⟨_, ⟨piece, -, rfl⟩, hmem⟩
  cases piece with
  | inl n => exact newline_not_mem_escape hmark.symm n hmem
  | inr a =>
    rcases List.mem_append.1 hmem with hmem | hmem
    · exact hx hmem
    · exact newline_not_mem_ofHex 2 _ hmem

theorem newline_not_mem_quoteChar (n : Int) : newline ∉ quoteChar n := by
  have hmark : newline ≠ singleQuote := by decide
  simp [quoteChar, hmark, newline_not_mem_escape hmark.symm]

end Text

end Quadlang
