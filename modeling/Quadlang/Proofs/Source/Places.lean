-- Where the tokens of a text stand. No token and no comment goes beyond the end of its line, so the
-- line of a token counts the line ends in front of its first byte.
import Quadlang.Token.Lexer

namespace Quadlang

open Token (newline)

variable {text b rest : Bytes} {c mark : UInt8} {n base k m : Nat} {t : Token}

/-! ## Texts within a line -/

/-- A text goes on behind some bytes of the same line. -/
def Bytes.Inline (b rest : Bytes) : Prop := ∃ used, b = used ++ rest ∧ newline ∉ used

namespace Bytes.Inline

theorem refl (b : Bytes) : Inline b b := ⟨[], rfl, List.not_mem_nil⟩

theorem cons {c : UInt8} {r rest : Bytes} (hc : c ≠ newline) (h : Inline r rest) :
    Inline (c :: r) rest := by
  obtain ⟨used, rfl, hused⟩ := h
  refine ⟨c :: used, rfl, ?_⟩
  simp [hused, hc.symm]

theorem trans {b₁ b₂ : Bytes} (h : Inline b b₁) (h' : Inline b₁ b₂) : Inline b b₂ := by
  obtain ⟨used, rfl, hused⟩ := h
  obtain ⟨used', rfl, hused'⟩ := h'
  exact ⟨used ++ used', (List.append_assoc ..).symm, by simp [hused, hused']⟩

theorem of_dropWhile {p : UInt8 → Bool} (hp : p newline = false) (b : Bytes) :
    Inline b (b.dropWhile p) := by
  refine ⟨b.takeWhile p, List.takeWhile_append_dropWhile.symm, fun hmem => ?_⟩
  have htrue : p newline = true := List.all_eq_true.1 List.all_takeWhile newline hmem
  rw [hp] at htrue
  cases htrue

theorem count_eq (h : Inline b rest) : b.count newline = rest.count newline := by
  obtain ⟨used, rfl, hused⟩ := h
  rw [List.count_append, List.count_eq_zero_of_not_mem hused, Nat.zero_add]

end Bytes.Inline

open Bytes (Inline)

/-! ## Literals -/

/-- A byte that neither ends a line nor begins an escape, and is no mark of literals. -/
def Bytes.isCalm (c : UInt8) : Bool :=
  c ≠ newline && c ≠ Text.backslash && c ≠ Text.doubleQuote && c ≠ Text.singleQuote

/-- A text goes on behind some bytes that mean nothing to the end of a literal. -/
def Bytes.Calmly (b rest : Bytes) : Prop := ∃ used, b = used ++ rest ∧ ∀ c ∈ used, Bytes.isCalm c

namespace Bytes.Calmly

theorem refl (b : Bytes) : Calmly b b := ⟨[], rfl, by simp⟩

theorem cons {c : UInt8} {r rest : Bytes} (hc : isCalm c = true) (h : Calmly r rest) :
    Calmly (c :: r) rest := by
  obtain ⟨used, rfl, hused⟩ := h
  exact ⟨c :: used, rfl, List.forall_mem_cons.2 ⟨hc, hused⟩⟩

theorem inline (h : Calmly b rest) : Inline b rest := by
  obtain ⟨used, rfl, hused⟩ := h
  exact ⟨used, rfl, fun hmem => absurd (hused _ hmem) (by decide)⟩

end Bytes.Calmly

open Bytes (isCalm Calmly)

namespace Text

theorem isCalm_of_digit? {d : Nat} (h : digit? base c = some d) : isCalm c = true := by
  have hspecial : ∀ s : UInt8, s = newline ∨ s = backslash ∨ s = doubleQuote ∨ s = singleQuote →
      digit? base s = none := by
    rintro s (rfl | rfl | rfl | rfl)
    · simp [digit?, show newline.toNat = 10 from rfl]
    · simp [digit?, show backslash.toNat = 92 from rfl]
    · simp [digit?, show doubleQuote.toNat = 34 from rfl]
    · simp [digit?, show singleQuote.toNat = 39 from rfl]
  have hne : ∀ s : UInt8, s = newline ∨ s = backslash ∨ s = doubleQuote ∨ s = singleQuote →
    c ≠ s := by
    rintro s hs rfl
    rw [hspecial c hs] at h
    cases h
  simp [isCalm, hne newline, hne backslash, hne doubleQuote, hne singleQuote]

theorem isCalm_of_le (h : 0x80 ≤ c.toNat) : isCalm c = true := by
  have hne : ∀ s : UInt8, s.toNat < 0x80 → c ≠ s := by
    rintro s hs rfl
    omega
  simp [isCalm, hne newline (by decide), hne backslash (by decide), hne doubleQuote (by decide),
    hne singleQuote (by decide)]

theorem digits?_calm (h : digits? base k n b = some (m, rest)) : Calmly b rest := by
  induction k generalizing n b with
  | zero =>
    cases h
    exact .refl _
  | succ k ih =>
    cases b with
    | nil => cases h
    | cons c r =>
      simp only [digits?, Option.bind_eq_bind, Option.bind_eq_some_iff] at h
      obtain ⟨d, hd, h⟩ := h
      exact .cons (isCalm_of_digit? hd) (ih h)

theorem tails?_calm (h : tails? k n b = some (m, rest)) : Calmly b rest := by
  induction k generalizing n b with
  | zero =>
    cases h
    exact .refl _
  | succ k ih =>
    cases b with
    | nil => cases h
    | cons c r =>
      simp only [tails?] at h
      split at h
      · rename_i hc
        exact .cons (isCalm_of_le hc.1) (ih h)
      · cases h

theorem decode?_calm {r : Bytes} (h : decode? (c :: r) = some (n, rest)) : Calmly r rest := by
  simp only [decode?] at h
  split at h
  · cases h
    exact .refl _
  split at h
  · cases h
  split at h
  · exact tails?_calm h
  split at h
  · exact tails?_calm (Option.filter_eq_some_iff.1 h).1
  split at h
  · exact tails?_calm (Option.filter_eq_some_iff.1 h).1
  · cases h

/-- An escape is one byte that is taken along with the backslash, and digits. -/
theorem escaped?_calm (hmark : mark ≠ newline) (h : escaped? mark b = some (text, rest)) :
    ∃ c r, b = c :: r ∧ c ≠ newline ∧ Calmly r rest := by
  cases b with
  | nil => cases h
  | cons c r =>
    refine ⟨c, r, rfl, ?_⟩
    simp only [escaped?, Option.bind_eq_bind] at h
    split at h
    · rename_i found hfound
      cases h
      refine ⟨?_, .refl _⟩
      rintro rfl
      cases hfound
    split at h
    · rename_i hc
      obtain ⟨⟨n, r'⟩, hdigits, h⟩ := Option.bind_eq_some_iff.1 h
      cases h
      exact ⟨by rw [hc]; decide, digits?_calm hdigits⟩
    split at h
    · rename_i hc
      obtain ⟨⟨n, r'⟩, hdigits, h⟩ := Option.bind_eq_some_iff.1 h
      obtain ⟨-, h⟩ := Option.ite_none_right_eq_some.1 h
      cases h
      exact ⟨by rw [hc]; decide, digits?_calm hdigits⟩
    split at h
    · rename_i hc
      obtain ⟨⟨n, r'⟩, hdigits, h⟩ := Option.bind_eq_some_iff.1 h
      obtain ⟨-, h⟩ := Option.ite_none_right_eq_some.1 h
      cases h
      exact ⟨by rw [hc]; decide, digits?_calm hdigits⟩
    split at h
    · obtain ⟨⟨n, r'⟩, hdigits, h⟩ := Option.bind_eq_some_iff.1 h
      obtain ⟨-, h⟩ := Option.ite_none_right_eq_some.1 h
      cases h
      simp only [digits?, Option.bind_eq_bind, Option.bind_eq_some_iff] at hdigits
      obtain ⟨d, hd, hdigits⟩ := hdigits
      have hcalm := isCalm_of_digit? hd
      exact ⟨fun hc => absurd hcalm (by rw [hc]; decide), digits?_calm hdigits⟩
    split at h
    · rename_i hc
      cases h
      refine ⟨?_, .refl _⟩
      rcases hc with rfl | rfl
      · decide
      · exact hmark
    · cases h

/-- A character of a literal is one byte that is no backslash, or a backslash and the byte behind
it, and calm bytes in either case. -/
theorem literalChar?_calm (hmark : mark ≠ newline) (h : literalChar? mark b = some (text, rest)) :
    ∃ c r, b = c :: r ∧ c ≠ newline ∧ (c ≠ backslash ∧ Calmly r rest ∨
      c = backslash ∧ ∃ d r', r = d :: r' ∧ d ≠ newline ∧ Calmly r' rest) := by
  cases b with
  | nil => cases h
  | cons c r =>
    simp only [literalChar?] at h
    split at h
    · cases h
    rename_i hc
    refine ⟨c, r, rfl, hc, ?_⟩
    split at h
    · rename_i hbackslash
      exact .inr ⟨hbackslash, escaped?_calm hmark h⟩
    · rename_i hbackslash
      refine .inl ⟨hbackslash, ?_⟩
      split at h
      · rename_i hdecode
        cases h
        exact decode?_calm hdecode
      · cases h
        exact .refl _

theorem literalChar?_inline (hmark : mark ≠ newline) (h : literalChar? mark b = some (text, rest)) :
    Inline b rest := by
  obtain ⟨c, r, rfl, hc, ⟨-, hcalm⟩ | ⟨-, d, r', rfl, hd, hcalm⟩⟩ := literalChar?_calm hmark h
  · exact .cons hc hcalm.inline
  · exact .cons hc (.cons hd hcalm.inline)

theorem literalText?_inline {read : List Bytes} (hmark : mark ≠ newline)
    (h : literalText? mark read b = some text) : Inline b [] := by
  fun_induction literalText? mark read b with
  | case1 => cases h
  | case2 read r hr =>
    obtain rfl := List.isEmpty_iff.1 hr
    exact .cons hmark (.refl _)
  | case3 => cases h
  | case4 => cases h
  | case5 read c r hc s rest hchar ih => exact (literalChar?_inline hmark hchar).trans (ih h)

/-- A literal that can be read holds no line end. -/
theorem unquote?_inline (h : unquote? b = some text) : Inline b [] := by
  cases b with
  | nil => cases h
  | cons mark r =>
    simp only [unquote?] at h
    split at h
    · rename_i hmark
      have hne : mark ≠ newline := by
        rw [hmark]
        decide
      exact .cons hne (literalText?_inline hne h)
    split at h
    · rename_i hmark
      have hne : mark ≠ newline := by
        rw [hmark]
        decide
      refine .cons hne ?_
      split at h
      · rename_i hr
        rw [hr]
        exact .cons hne (.refl _)
      · simp only [Option.bind_eq_bind] at h
        obtain ⟨⟨s, rest⟩, hchar, h⟩ := Option.bind_eq_some_iff.1 h
        obtain ⟨⟨-, hrest⟩, -⟩ := Option.ite_none_right_eq_some.1 h
        obtain rfl : rest = [mark] := hrest
        exact (literalChar?_inline hne hchar).trans (.cons hne (.refl _))
    · cases h

end Text

/-! ## Tokens -/

namespace Token

variable {after before read : List Token} {b r rest : Bytes} {kind : Kind} {line : Nat}
  {ts : Tokens}

theorem closing?_eq_some {read : Bytes} (h : closing? mark read r = some (text, rest)) :
    ∃ used, text = read.reverse ++ used ∧ r = used ++ rest := by
  fun_induction closing? mark read r with
  | case1 => cases h
  | case2 => cases h
  | case3 read d r ih =>
    obtain ⟨used, rfl, rfl⟩ := ih h
    exact ⟨Text.backslash :: d :: used, by simp, rfl⟩
  | case4 => cases h
  | case5 read r =>
    cases h
    exact ⟨[mark], by simp, rfl⟩
  | case6 read c r _ _ _ ih =>
    obtain ⟨used, rfl, rfl⟩ := ih h
    exact ⟨c :: used, by simp, rfl⟩

theorem literal_inline (h : literal mark r = .ok (kind, text, rest)) : Inline r rest := by
  unfold literal at h
  split at h
  · cases h
  · rename_i quoted rest' hclosing
    split at h
    · cases h
    · rename_i s hunquote
      cases h
      obtain ⟨used, rfl, rfl⟩ := closing?_eq_some hclosing
      obtain ⟨all, hall, hfree⟩ := Text.unquote?_inline hunquote
      refine ⟨used, rfl, fun hmem => hfree ?_⟩
      rw [List.append_nil] at hall
      rw [← hall]
      exact List.mem_append_right _ hmem

theorem number_inline (c : UInt8) (r : Bytes) : Inline r (number c r).2.2 := by
  have hwhole : Inline r (r.dropWhile isDigit) := .of_dropWhile (by decide) r
  simp only [number]
  split
  · rename_i point d rest hrest
    rw [hrest] at hwhole
    split
    · rename_i hpoint
      obtain ⟨hpoint, hd⟩ := Bool.and_eq_true_iff.1 hpoint
      refine hwhole.trans (.cons ?_ (.cons ?_ (.of_dropWhile (by decide) rest)))
      · rw [of_decide_eq_true hpoint]
        decide
      · rintro rfl
        exact absurd hd (by decide)
    · exact hwhole
  · exact hwhole

theorem punctuation_inline (h : punctuation c r = .ok (kind, text, rest)) : Inline r rest := by
  unfold punctuation at h
  split at h
  · rename_i d r
    split at h
    · rename_i hmark
      cases h
      refine .cons ?_ (.refl _)
      rintro rfl
      have hlast : ∀ m ∈ longMarks, m.getLast? ≠ some newline := by decide
      exact hlast _ (List.contains_iff_mem.1 hmark) rfl
    split at h
    · cases h
      exact .refl _
    · cases h
  · split at h
    · cases h
      exact .refl _
    · cases h

/-- No token goes beyond its line. -/
theorem first_inline (h : first c r = .ok (kind, text, rest)) : Inline r rest := by
  unfold first at h
  split at h
  · cases h
    exact .of_dropWhile (by decide) r
  split at h
  · have hnumber := number_inline c r
    rw [Except.ok.inj h] at hnumber
    exact hnumber
  split at h
  · exact literal_inline h
  · exact punctuation_inline h

/-! ## Places -/

/-- What a token begins with: the rest of a text whose first token it is, or nothing at the end of
the file. -/
def Heads (t : Token) : Bytes → Prop
  | [] => t.kind = .endOfFile
  | c :: r => ∃ behind, first c r = .ok (t.kind, t.text, behind)

/-- Where a token of a text stands: the scan comes to its first byte when it has read the tokens in
front of it, and its line counts the line ends that it has passed. -/
def StandsIn (t : Token) (text : Bytes) (before : List Token) : Prop :=
  ∃ front rest, text = front ++ rest ∧ scan text = scanFrom before.reverse t.line rest ∧
    t.Heads rest ∧ t.line = 1 + front.count newline

theorem scanFrom_extends (h : scanFrom read line b = .ok ts) : read.reverse <+: ts.list := by
  fun_induction scanFrom read line b with
  | case1 =>
    cases h
    exact List.prefix_refl _
  | case2 _ _ _ ih | case3 _ _ _ _ _ _ ih | case4 _ _ _ _ _ _ _ ih => exact ih h
  | case5 => cases h
  | case6 read line c r _ _ _ kind text rest _ ih =>
    refine List.IsPrefix.trans ?_ (ih h)
    rw [List.reverse_cons]
    exact List.prefix_append ..

theorem scanFrom_first (hne : c ≠ newline) (hblank : ¬ isBlank c)
    (hcomment : ¬ (c = '/'.toUInt8 && r.head? = some '/'.toUInt8) = true)
    (h : first c r = .ok (kind, text, rest)) :
    scanFrom read line (c :: r) = scanFrom (⟨kind, text, line⟩ :: read) line rest := by
  rw [scanFrom, if_neg hne, if_neg hblank, if_neg hcomment]
  split
  · rename_i hfirst
    rw [h] at hfirst
    cases hfirst
  · rename_i hfirst
    rw [h] at hfirst
    cases hfirst
    rfl

/-- The place of every token that a scan has still to read. `front` is the text behind it. -/
theorem scanFrom_standsIn (front : Bytes) (htext : text = front ++ b)
    (hscan : scan text = scanFrom read line b)
    (hline : line = 1 + front.count newline) (h : scanFrom read line b = .ok ts)
    (hsplit : ts.list ++ [endOfFile ts.lastLine] = before ++ t :: after)
    (hread : read.length ≤ before.length) :
    t.StandsIn text before := by
  fun_induction scanFrom read line b generalizing front with
  | case1 read line =>
    cases h
    have hlength := congrArg List.length hsplit
    simp only [List.length_append, List.length_reverse, List.length_cons,
      List.length_nil] at hlength
    obtain ⟨rfl, hlast⟩ := List.append_inj hsplit (by simp; omega)
    obtain ⟨rfl, -⟩ := List.cons.inj hlast
    refine ⟨front, [], htext, ?_, rfl, hline⟩
    rw [hscan, scanFrom, List.reverse_reverse]
    rfl
  | case2 read line r ih =>
    refine ih (front ++ [newline]) ?_ hscan ?_ h hread
    · rw [htext, List.append_assoc]
      rfl
    · rw [List.count_append, List.count_singleton_self]
      omega
  | case3 read line c r hne _ ih =>
    refine ih (front ++ [c]) ?_ hscan ?_ h hread
    · rw [htext, List.append_assoc]
      rfl
    · rw [List.count_append, List.count_singleton, beq_false_of_ne hne]
      exact hline
  | case4 read line c r hne _ _ ih =>
    obtain ⟨used, hused, hfree⟩ : Inline (c :: r) (r.dropWhile (· ≠ newline)) :=
      .cons hne (.of_dropWhile (by decide) r)
    refine ih (front ++ used) ?_ hscan ?_ h hread
    · rw [htext, List.append_assoc, ← hused]
    · rw [List.count_append, List.count_eq_zero_of_not_mem hfree]
      exact hline
  | case5 => cases h
  | case6 read line c r hne hblank hcomment kind word rest hfirst ih =>
    rcases Nat.eq_or_lt_of_le hread with hlength | hlength
    · -- The next token is the one asked for.
      obtain ⟨more, hmore⟩ := scanFrom_extends h
      rw [List.reverse_cons, List.append_assoc, List.singleton_append] at hmore
      rw [← hmore, List.append_assoc] at hsplit
      obtain ⟨rfl, hnext⟩ := List.append_inj hsplit (by simpa using hlength)
      obtain ⟨rfl, -⟩ := List.cons.inj hnext
      refine ⟨front, c :: r, htext, ?_, ⟨rest, hfirst⟩, hline⟩
      rw [hscan, List.reverse_reverse]
      exact (scanFrom_first hne hblank hcomment hfirst).symm
    · obtain ⟨used, hused, hfree⟩ : Inline (c :: r) rest := .cons hne (first_inline hfirst)
      refine ih (front ++ used) ?_ ?_ ?_ h hlength
      · rw [htext, List.append_assoc, ← hused]
      · exact hscan
      · rw [List.count_append, List.count_eq_zero_of_not_mem hfree]
        exact hline

/-- Every token of a text stands on the line that it is given. -/
theorem standsIn_of_scan (h : scan text = .ok ts)
    (hsplit : ts.list ++ [endOfFile ts.lastLine] = before ++ t :: after) : t.StandsIn text before :=
  scanFrom_standsIn [] rfl rfl rfl h hsplit (Nat.zero_le _)

end Token

end Quadlang
