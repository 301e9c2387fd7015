-- Reading program text as tokens: blanks and comments are skipped, every token is as
-- long as it can be, and the first thing that is no token ends the reading.
import Quadlang.Token

namespace Quadlang.Token

/-! ## Classes of bytes -/

/-- A letter or an underscore. -/
def isLetter (b : UInt8) : Bool :=
  (97 ≤ b.toNat && b.toNat ≤ 122) || (65 ≤ b.toNat && b.toNat ≤ 90) || b.toNat = 95

def isDigit (b : UInt8) : Bool := 48 ≤ b.toNat && b.toNat ≤ 57

/-- A byte that continues an identifier. -/
def isWordByte (b : UInt8) : Bool := isLetter b || isDigit b

/-- A blank within a line. -/
def isBlank (b : UInt8) : Bool := b = ' '.toUInt8 || b = '\t'.toUInt8 || b = '\r'.toUInt8

def newline : UInt8 := '\n'.toUInt8

/-- The marks of two bytes. -/
def longMarks : List Bytes :=
  [ascii "==", ascii "!=", ascii "<=", ascii ">=", ascii "&&", ascii "||"]

/-- The marks of one byte. -/
def shortMarks : Bytes := ascii "()\x7b\x7d[];,.=<>+-*/!"

/-! ## Single tokens -/

/-- The rest of a quoted literal up to its closing mark, and the text after it. A backslash takes
the next byte along, whatever it is; the line may not end. `read` holds the bytes so far, newest
first. -/
def closing? (mark : UInt8) (read : Bytes) : Bytes → Option (Bytes × Bytes)
  | [] => none
  | c :: r =>
    if c = Text.backslash then
      match r with
      | [] => none
      | d :: r => closing? mark (d :: c :: read) r
    else if c = newline then none
    else if c = mark then some ((c :: read).reverse, r)
    else closing? mark (c :: read) r

/-- What the reading of one token finds: its kind and text, and the text after it. -/
abbrev Found := Except SyntaxCause (Kind × Bytes × Bytes)

/-- A number: digits, and a fraction if a digit follows the point. -/
def number (c : UInt8) (r : Bytes) : Kind × Bytes × Bytes :=
  let whole := c :: r.takeWhile isDigit
  match r.dropWhile isDigit with
  | point :: d :: rest =>
    if point = '.'.toUInt8 && isDigit d then
      (.float, whole ++ point :: d :: rest.takeWhile isDigit, rest.dropWhile isDigit)
    else (.int, whole, point :: d :: rest)
  | rest => (.int, whole, rest)

/-- A quoted literal, read as what it stands for. -/
def literal (mark : UInt8) (r : Bytes) : Found :=
  match closing? mark [mark] r with
  | none => .error .unterminatedLiteral
  | some (text, rest) =>
    match Text.unquote? text with
    | none => .error (.badLiteral text)
    | some s => .ok (if mark = Text.singleQuote then .char else .string, s, rest)

/-- A mark, of two bytes if possible. -/
def punctuation (c : UInt8) (r : Bytes) : Found :=
  match r with
  | d :: rest =>
    if longMarks.contains [c, d] then .ok (.punctuation, [c, d], rest)
    else if shortMarks.contains c then .ok (.punctuation, [c], r)
    else .error (.unsupportedCharacter c)
  | [] =>
    if shortMarks.contains c then .ok (.punctuation, [c], []) else .error (.unsupportedCharacter c)

/-- The token that begins with byte `c`, which is no blank and begins no comment. -/
def first (c : UInt8) (r : Bytes) : Found :=
  if isLetter c then
    .ok (.identifier, c :: r.takeWhile isWordByte, r.dropWhile isWordByte)
  else if isDigit c then .ok (number c r)
  else if c = Text.singleQuote || c = Text.doubleQuote then literal c r
  else punctuation c r

/-! ## The rest is shorter -/

theorem length_dropWhile_le (p : UInt8 → Bool) (r : Bytes) : (r.dropWhile p).length ≤ r.length :=
  (List.dropWhile_sublist p).length_le

theorem length_closing?_le {mark : UInt8} {read r text rest : Bytes}
    (h : closing? mark read r = some (text, rest)) : rest.length ≤ r.length := by
  fun_induction closing? mark read r with
  | case1 => cases h
  | case2 => cases h
  | case3 _ _ _ ih => have := ih h; simp; omega
  | case4 => cases h
  | case5 => cases h; simp
  | case6 _ _ _ _ _ _ ih => have := ih h; simp; omega

theorem length_number_le (c : UInt8) (r : Bytes) : (number c r).2.2.length ≤ r.length := by
  have h := length_dropWhile_le isDigit r
  simp only [number]
  split
  · next rest e =>
    rw [e] at h
    split
    · have := length_dropWhile_le isDigit rest
      simp at h ⊢; omega
    · exact h
  · exact h

theorem length_first_le {c : UInt8} {r text rest : Bytes} {kind : Kind}
    (h : first c r = .ok (kind, text, rest)) : rest.length ≤ r.length := by
  unfold first at h
  split at h
  · cases h; exact length_dropWhile_le isWordByte r
  split at h
  · injection h with h
    have := length_number_le c r
    simp_all
  split at h
  · unfold literal at h
    split at h
    · cases h
    · next e =>
      split at h
      · cases h
      · cases h; exact length_closing?_le e
  · unfold punctuation at h
    grind

/-! ## Texts -/

/-- Reads the tokens of a text from a line on. `read` holds those so far, newest first. -/
def scanFrom (read : List Token) (line : Nat) (b : Bytes) : Except SyntaxError Tokens :=
  match b with
  | [] => .ok ⟨read.reverse, line⟩
  | c :: r =>
    if c = newline then scanFrom read (line + 1) r
    else if isBlank c then scanFrom read line r
    else if c = '/'.toUInt8 && r.head? = some '/'.toUInt8 then
      scanFrom read line (r.dropWhile (· ≠ newline))
    else match _h : first c r with
      | .error cause => .error ⟨line, cause⟩
      | .ok (kind, text, rest) => scanFrom (⟨kind, text, line⟩ :: read) line rest
termination_by b.length
decreasing_by
  · simp
  · simp
  · have := length_dropWhile_le (· ≠ newline) r
    simp at this ⊢
    omega
  · have := length_first_le _h
    simp; omega

/-- Reads the tokens of a text. Lines are counted from one. -/
def scan (b : Bytes) : Except SyntaxError Tokens := scanFrom [] 1 b

end Quadlang.Token
