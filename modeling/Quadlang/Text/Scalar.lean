-- Characters in byte texts: a scalar value is written as one to four bytes, and the
-- bytes in front of a text read back as a scalar value only in its one right form.
import Quadlang.Bytes

namespace Quadlang.Text

/-- The numbers of characters: below 0x110000, the surrogate halves left out. -/
def isScalar (n : Nat) : Bool := n < 0xD800 || (0xDFFF < n && n < 0x110000)

/-- The character written in place of what is no character. -/
def replacement : Nat := 0xFFFD

/-- The bytes of a character, by its number. -/
def encode (n : Nat) : Bytes :=
  if n < 0x80 then [n.toUInt8]
  else if n < 0x800 then [(0xC0 + n / 64).toUInt8, (0x80 + n % 64).toUInt8]
  else if n < 0x10000 then
    [(0xE0 + n / 4096).toUInt8, (0x80 + n / 64 % 64).toUInt8, (0x80 + n % 64).toUInt8]
  else
    [(0xF0 + n / 262144).toUInt8, (0x80 + n / 4096 % 64).toUInt8, (0x80 + n / 64 % 64).toUInt8,
      (0x80 + n % 64).toUInt8]

/-- Takes `k` continuation bytes, six bits each, behind the bits of `n`. -/
def tails? : (k : Nat) → (n : Nat) → Bytes → Option (Nat × Bytes)
  | 0, n, r => some (n, r)
  | _ + 1, _, [] => none
  | k + 1, n, b :: r =>
    if 0x80 ≤ b.toNat ∧ b.toNat < 0xC0 then tails? k (n * 64 + (b.toNat - 0x80)) r else none

/-- The character in front of a text and the text after it. There is none if the text
is empty or its first bytes are no character in its shortest form. -/
def decode? : Bytes → Option (Nat × Bytes)
  | [] => none
  | a :: r =>
    if a.toNat < 0x80 then some (a.toNat, r)
    else if a.toNat < 0xC2 then none
    else if a.toNat < 0xE0 then tails? 1 (a.toNat - 0xC0) r
    else if a.toNat < 0xF0 then
      (tails? 2 (a.toNat - 0xE0) r).filter fun (n, _) => 0x800 ≤ n && isScalar n
    else if a.toNat < 0xF5 then
      (tails? 3 (a.toNat - 0xF0) r).filter fun (n, _) => 0x10000 ≤ n && isScalar n
    else none

theorem tails?_length {k n m : Nat} {b rest : Bytes} (h : tails? k n b = some (m, rest)) :
    rest.length + k = b.length := by
  induction k generalizing n b with
  | zero => simp_all [tails?]
  | succ k ih =>
    cases b with
    | nil => simp [tails?] at h
    | cons a r =>
      simp only [tails?] at h
      split at h
      · have := ih h
        simp; omega
      · cases h

/-- A character read off a text leaves less of it. -/
theorem decode?_length {b rest : Bytes} {n : Nat} (h : decode? b = some (n, rest)) :
    rest.length < b.length := by
  cases b with
  | nil => simp [decode?] at h
  | cons a r =>
    simp only [decode?] at h
    have short {k m : Nat} (e : tails? k m r = some (n, rest)) : rest.length < (a :: r).length := by
      have := tails?_length e
      simp; omega
    split at h
    · simp_all
    split at h
    · cases h
    split at h
    · exact short h
    split at h
    · exact short (Option.filter_eq_some_iff.mp h).1
    split at h
    · exact short (Option.filter_eq_some_iff.mp h).1
    · cases h

/-- One step of reading a text character by character: a character, or a byte that
begins none, and the text after it. -/
def split : Bytes → Option ((Nat ⊕ UInt8) × Bytes)
  | [] => none
  | a :: r =>
    match decode? (a :: r) with
    | some (n, rest) => some (.inl n, rest)
    | none => some (.inr a, r)

theorem split_length {b rest : Bytes} {x : Nat ⊕ UInt8} (h : split b = some (x, rest)) :
    rest.length < b.length := by
  unfold split at h
  split at h
  · cases h
  · split at h
    · next e => cases h; exact decode?_length e
    · cases h; simp

/-- The pieces of a text, in order: characters, and bytes that begin none. -/
def pieces (b : Bytes) : List (Nat ⊕ UInt8) :=
  match _h : split b with
  | none => []
  | some (x, rest) => x :: pieces rest
termination_by b.length
decreasing_by exact split_length _h

/-- The characters of a text, a stray byte counted as one replacement character. -/
def scalars (b : Bytes) : List Nat :=
  (pieces b).map fun
    | .inl n => n
    | .inr _ => replacement

end Quadlang.Text
