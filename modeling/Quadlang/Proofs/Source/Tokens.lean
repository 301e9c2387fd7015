-- Texts that tokens are written as. Tokens in any of their forms, with blanks, line ends and
-- comments between them, are read back as the same tokens, each on the line that it stands on.
import Quadlang.Proofs.Source.Places

namespace Quadlang.Token

open Text (backslash doubleQuote singleQuote literalChar? literalText? unquote?)
open Bytes (isCalm Calmly)

variable {c d mark : UInt8} {b r s rest text form last : Bytes} {kind : Kind} {line : Nat}
  {read : List Token}

/-! ## Printed tokens -/

/-- The forms that a token is written in. A quoted literal has every form that reads as its text. -/
inductive Written : Kind → Bytes → Bytes → Prop
  | word {c : UInt8} {r : Bytes} :
      isLetter c → (∀ b ∈ r, isWordByte b) → Written .identifier (c :: r) (c :: r)
  | int {c : UInt8} {r : Bytes} : isDigit c → (∀ b ∈ r, isDigit b) → Written .int (c :: r) (c :: r)
  | float {c d : UInt8} {r s : Bytes} :
      isDigit c → (∀ b ∈ r, isDigit b) → isDigit d → (∀ b ∈ s, isDigit b) →
      Written .float (c :: r ++ '.'.toUInt8 :: d :: s) (c :: r ++ '.'.toUInt8 :: d :: s)
  | long {c d : UInt8} : [c, d] ∈ longMarks → Written .punctuation [c, d] [c, d]
  | short {c : UInt8} : c ∈ shortMarks → Written .punctuation [c] [c]
  | string {r text : Bytes} :
      unquote? (doubleQuote :: r) = some text → Written .string text (doubleQuote :: r)
  | char {r text : Bytes} : unquote? (singleQuote :: r) = some text →
    Written .char text (singleQuote :: r)

/-- A blank or the end of a line. -/
def isSpace (c : UInt8) : Bool := isBlank c || c = newline

/-- Blanks, line ends and comments, each comment with the end of its line. -/
inductive Gap : Bytes → Prop
  | nil : Gap []
  | space {c : UInt8} {r : Bytes} : isSpace c → Gap r → Gap (c :: r)
  | comment {text r : Bytes} :
      newline ∉ text → Gap r → Gap ('/'.toUInt8 :: '/'.toUInt8 :: text ++ newline :: r)

/-- A gap that begins with a blank or the end of a line, so that it keeps two tokens apart. -/
inductive Separator : Bytes → Prop
  | mk {c : UInt8} {r : Bytes} : isSpace c → Gap r → Separator (c :: r)

/-- A token in one of its forms, and the gap in front of it. -/
structure Piece where
  gap : Bytes
  kind : Kind
  text : Bytes
  form : Bytes
  written : Written kind text form

/-- The gaps between pieces are separators. In front of the first piece any gap will do. -/
inductive Spaced : List Piece → Prop
  | nil : Spaced []
  | cons {p : Piece} {ps : List Piece} : Gap p.gap → (∀ q ∈ ps, Separator q.gap) → Spaced (p :: ps)

/-- Pieces one after another, and what stands behind them. -/
def print (ps : List Piece) (last : Bytes) : Bytes := ps.flatMap (fun p => p.gap ++ p.form) ++ last

theorem print_cons (p : Piece) (ps : List Piece) :
    print (p :: ps) last = p.gap ++ (p.form ++ print ps last) := by
  simp [print]

theorem Separator.gap (h : Separator b) : Gap b := by
  obtain ⟨hc, hr⟩ := h
  exact .space hc hr

/-! ## Gaps -/

theorem isSpace_iff : isSpace c = true ↔ c = newline ∨ isBlank c = true := by
  simp [isSpace, or_comm]

theorem scanFrom_gap (h : Gap b) (read : List Token) (line : Nat) :
    scanFrom read line (b ++ r) = scanFrom read (line + b.count newline) r := by
  induction h generalizing line with
  | nil => rfl
  | @space c b hc _ ih =>
    rw [List.cons_append, scanFrom]
    by_cases hne : c = newline
    · rw [if_pos hne, ih, hne, List.count_cons_self]
      congr 1
      omega
    · rw [if_neg hne, if_pos ((isSpace_iff.1 hc).resolve_left hne), ih, List.count_cons_of_ne hne]
  | @comment text b htext _ ih =>
    have hdrop : ('/'.toUInt8 :: (text ++ newline :: (b ++ r))).dropWhile (· ≠ newline) =
        newline :: (b ++ r) := by
      rw [← List.cons_append, List.dropWhile_append_of_pos, List.dropWhile_cons_of_neg (by simp)]
      intro x hx
      rcases List.mem_cons.1 hx with rfl | hx
      · decide
      · exact decide_eq_true fun h => htext (h ▸ hx)
    have hcount : ('/'.toUInt8 :: '/'.toUInt8 :: text ++ newline :: b).count newline =
        b.count newline + 1 := by
      rw [List.count_append, List.count_eq_zero_of_not_mem, List.count_cons_self, Nat.zero_add]
      have hslash : newline ≠ '/'.toUInt8 := by decide
      simp [hslash, htext]
    have htail : '/'.toUInt8 :: '/'.toUInt8 :: text ++ newline :: b ++ r =
        '/'.toUInt8 :: '/'.toUInt8 :: (text ++ newline :: (b ++ r)) := by simp
    rw [htail, scanFrom, if_neg (by decide), if_neg (by decide), if_pos (by simp), hdrop, scanFrom,
      if_pos rfl, ih, hcount]
    congr 1
    omega

/-! ## Literals -/

/-- The scan for the end of a literal passes over some bytes. -/
def Passes (mark : UInt8) (used : Bytes) : Prop :=
  ∀ read s, closing? mark read (used ++ s) = closing? mark (used.reverse ++ read) s

/-- The marks around literals. -/
def IsQuote (mark : UInt8) : Prop := mark = doubleQuote ∨ mark = singleQuote

theorem Passes.nil : Passes mark [] := fun _ _ => rfl

theorem Passes.cons (hnewline : c ≠ newline) (hbackslash : c ≠ backslash) (hmark : c ≠ mark)
    (h : Passes mark b) : Passes mark (c :: b) := by
  intro read s
  rw [List.cons_append, closing?.eq_def]
  simp only [if_neg hbackslash, if_neg hnewline, if_neg hmark]
  rw [h, List.reverse_cons, List.append_assoc, List.singleton_append]

theorem Passes.escape (d : UInt8) (h : Passes mark b) : Passes mark (backslash :: d :: b) := by
  intro read s
  rw [List.cons_append, List.cons_append, closing?.eq_def]
  simp only [if_true]
  rw [h]
  simp

theorem passes_of_calm (hmark : IsQuote mark) (h : ∀ c ∈ b, isCalm c) : Passes mark b := by
  induction b with
  | nil => exact .nil
  | cons c b ih =>
    obtain ⟨hc, hb⟩ := List.forall_mem_cons.1 h
    simp only [isCalm, Bool.and_eq_true, decide_eq_true_eq] at hc
    obtain ⟨⟨⟨hnewline, hbackslash⟩, hdouble⟩, hsingle⟩ := hc
    refine .cons hnewline hbackslash ?_ (ih hb)
    rcases hmark with rfl | rfl
    · exact hdouble
    · exact hsingle

theorem IsQuote.ne_newline (h : IsQuote mark) : mark ≠ newline := by
  rcases h with rfl | rfl <;> decide

theorem IsQuote.ne_backslash (h : IsQuote mark) : mark ≠ backslash := by
  rcases h with rfl | rfl <;> decide

section

variable (hmark : IsQuote mark)

include hmark

/-- A character of a literal does not end it. -/
theorem passes_of_literalChar? (hhead : b.head? ≠ some mark)
    (h : literalChar? mark b = some (text, rest)) :
    ∃ used, b = used ++ rest ∧ Passes mark used := by
  obtain ⟨c, r, rfl, hc, ⟨hbackslash, used, rfl, hused⟩ | ⟨rfl, d, r', rfl, -, used, rfl, hused⟩⟩ :=
    Text.literalChar?_calm hmark.ne_newline h
  · refine ⟨c :: used, rfl, .cons hc hbackslash ?_ (passes_of_calm hmark hused)⟩
    simpa using hhead
  · exact ⟨backslash :: d :: used, rfl, (passes_of_calm hmark hused).escape d⟩

theorem closing?_mark (read s : Bytes) :
    closing? mark read (mark :: s) = some ((mark :: read).reverse, s) := by
  rw [closing?.eq_def]
  simp only [if_neg hmark.ne_backslash, if_neg hmark.ne_newline, if_true]

/-- The characters of a literal end where the scan for its end does. -/
theorem closing?_of_literalText? {texts : List Bytes}
    (h : literalText? mark texts b = some text) (read s : Bytes) :
    closing? mark read (b ++ s) = some (read.reverse ++ b, s) := by
  fun_induction literalText? mark texts b generalizing read with
  | case1 => cases h
  | case2 texts r hr =>
    obtain rfl := List.isEmpty_iff.1 hr
    rw [List.singleton_append, closing?_mark hmark, List.reverse_cons]
  | case3 => cases h
  | case4 => cases h
  | case5 texts c r hc t rest hchar ih =>
    obtain ⟨used, hused, hpasses⟩ := passes_of_literalChar? hmark (by simpa using hc) hchar
    rw [hused, List.append_assoc, hpasses, ih h]
    simp

theorem closing?_of_unquote? (h : unquote? (mark :: r) = some text) (s : Bytes) :
    closing? mark [mark] (r ++ s) = some (mark :: r, s) := by
  simp only [unquote?] at h
  split at h
  · rw [closing?_of_literalText? hmark h]
    rfl
  rename_i hdouble
  rw [if_pos (hmark.resolve_left hdouble)] at h
  split at h
  · rename_i hr
    rw [hr, List.singleton_append, closing?_mark hmark]
    rfl
  · simp only [Option.bind_eq_bind, Option.bind_eq_some_iff, Option.ite_none_right_eq_some] at h
    obtain ⟨⟨t, rest⟩, hchar, ⟨hhead, hrest⟩, -⟩ := h
    obtain ⟨used, rfl, hpasses⟩ := passes_of_literalChar? hmark hhead hchar
    obtain rfl : rest = [mark] := hrest
    rw [List.append_assoc, hpasses, List.singleton_append, closing?_mark hmark]
    simp

theorem first_of_unquote? (h : unquote? (mark :: r) = some text) (s : Bytes) :
    first mark (r ++ s) = .ok (if mark = singleQuote then .char else .string, text, s) := by
  have hquote : (mark = singleQuote || mark = doubleQuote) = true := by
    rcases hmark with rfl | rfl <;> decide
  have hletter : isLetter mark = false ∧ isDigit mark = false := by
    rcases hmark with rfl | rfl <;> decide
  unfold first literal
  simp only [hletter, hquote, closing?_of_unquote? hmark h, h, Bool.false_eq_true,
    if_false, if_true]

end

/-! ## Other tokens -/

/-- A text that is empty or begins with a blank or the end of a line. -/
def Parted (s : Bytes) : Prop := ∀ c ∈ s.head?, isSpace c

theorem span_of_parted {P : UInt8 → Bool} (hspace : ∀ c, isSpace c = true → P c = false)
    (hr : ∀ c ∈ r, P c) (hs : Parted s) : (r ++ s).takeWhile P = r ∧ (r ++ s).dropWhile P = s := by
  rw [List.takeWhile_append_of_pos hr, List.dropWhile_append_of_pos hr]
  cases s with
  | nil => simp
  | cons c s => simp [hspace c (hs c rfl)]

theorem spaces {P : UInt8 → Prop} (h : ∀ c ∈ ascii " \t\x0d\n", P c) :
    ∀ c, isSpace c = true → P c := by
  intro c hc
  refine h c ?_
  simp only [isSpace, isBlank, Bool.or_eq_true, decide_eq_true_eq] at hc
  rcases hc with ((rfl | rfl) | rfl) | rfl <;> decide

theorem number_int (hr : ∀ b ∈ r, isDigit b) (hs : Parted s) :
    number c (r ++ s) = (.int, c :: r, s) := by
  obtain ⟨htake, hdrop⟩ := span_of_parted (spaces (by decide +kernel)) hr hs
  unfold number
  rw [htake, hdrop]
  rcases s with _ | ⟨point, _ | ⟨d, s⟩⟩
  · rfl
  · rfl
  · have hpoint : point ≠ '.'.toUInt8 := spaces (P := (· ≠ '.'.toUInt8)) (by decide +kernel) point
      (hs point rfl)
    simp [hpoint]

theorem number_float (hr : ∀ b ∈ r, isDigit b) (hd : isDigit d) {t : Bytes}
    (ht : ∀ b ∈ t, isDigit b) (hs : Parted s) :
    number c (r ++ '.'.toUInt8 :: d :: t ++ s) = (.float, c :: r ++ '.'.toUInt8 :: d :: t, s) := by
  obtain ⟨htake, hdrop⟩ := span_of_parted (spaces (by decide +kernel)) ht hs
  have hpoint : isDigit '.'.toUInt8 = false := by decide
  unfold number
  rw [List.append_assoc, List.takeWhile_append_of_pos hr, List.dropWhile_append_of_pos hr]
  simp [hpoint, hd, htake, hdrop]

theorem isLetter_of_isDigit (h : isDigit c = true) : isLetter c = false := by
  simp only [isDigit, isLetter, Bool.and_eq_true, Bool.or_eq_false_iff, Bool.and_eq_false_iff,
    decide_eq_true_eq, decide_eq_false_iff_not] at h ⊢
  omega

/-- A byte that begins a mark begins no other token. -/
def isMark (c : UInt8) : Bool :=
  !isLetter c && !isDigit c && !(c = singleQuote || c = doubleQuote) && !isSpace c

theorem first_of_isMark (h : isMark c = true) :
    first c r = punctuation c r ∧ isSpace c = false := by
  simp only [isMark, Bool.and_eq_true, Bool.not_eq_true'] at h
  obtain ⟨⟨⟨hletter, hdigit⟩, hquote⟩, hspace⟩ := h
  simp only [first, hletter, hdigit, hquote, Bool.false_eq_true, if_false, hspace, and_self]

/-- A form and what parts it from the next one are read as the token. -/
theorem first_of_written (h : Written kind text form) (hs : Parted s) :
    ∃ c r, form = c :: r ∧ isSpace c = false ∧
      (c = '/'.toUInt8 → (r ++ s).head? ≠ some '/'.toUInt8) ∧
        first c (r ++ s) = .ok (kind, text, s) := by
  have hslash : s.head? ≠ some '/'.toUInt8 := fun h => absurd (hs _ h) (by decide)
  -- A byte of a class that holds neither spaces nor the slash.
  have hclass : ∀ {P : UInt8 → Bool} {c : UInt8}, P c = true →
    (∀ c, isSpace c = true → P c = false) →
      P '/'.toUInt8 = false → isSpace c = false ∧ c ≠ '/'.toUInt8 := by
    intro P c hc hspace hslash
    refine ⟨Bool.eq_false_iff.2 fun h => ?_, ?_⟩
    · rw [hspace c h] at hc
      cases hc
    · rintro rfl
      rw [hslash] at hc
      cases hc
  cases h with
  | @word c r hc hr =>
    obtain ⟨hspace, hne⟩ := hclass hc (spaces (by decide +kernel)) (by decide)
    obtain ⟨htake, hdrop⟩ := span_of_parted (spaces (by decide +kernel)) hr hs
    exact ⟨c, r, rfl, hspace, fun h => absurd h hne, by rw [first, if_pos hc, htake, hdrop]⟩
  | @int c r hc hr =>
    obtain ⟨hspace, hne⟩ := hclass hc (spaces (by decide +kernel)) (by decide)
    refine ⟨c, r, rfl, hspace, fun h => absurd h hne, ?_⟩
    rw [first, if_neg (by simp [isLetter_of_isDigit hc]), if_pos hc, number_int hr hs]
  | @float c d r t hc hr hd ht =>
    obtain ⟨hspace, hne⟩ := hclass hc (spaces (by decide +kernel)) (by decide)
    refine ⟨c, r ++ '.'.toUInt8 :: d :: t, rfl, hspace, fun h => absurd h hne, ?_⟩
    rw [first, if_neg (by simp [isLetter_of_isDigit hc]), if_pos hc, number_float hr hd ht hs]
  | @long c d hmark =>
    have hbegins : ∀ m ∈ longMarks, ∀ c ∈ m.head?, isMark c = true ∧ c ≠ '/'.toUInt8 := by
      decide +kernel
    obtain ⟨hc, hne⟩ := hbegins _ hmark c rfl
    refine ⟨c, [d], rfl, (first_of_isMark (r := []) hc).2, fun h => absurd h hne, ?_⟩
    rw [(first_of_isMark hc).1, List.singleton_append, punctuation,
      if_pos (List.contains_iff_mem.2 hmark)]
  | @short c hmark =>
    have hbegins : ∀ c ∈ shortMarks, isMark c = true := by decide +kernel
    have hends : ∀ m ∈ longMarks, ∀ d ∈ m.getLast?, isSpace d = false := by decide +kernel
    have hc := hbegins c hmark
    refine ⟨c, [], rfl, (first_of_isMark (r := []) hc).2, fun _ => hslash, ?_⟩
    rw [(first_of_isMark hc).1, List.nil_append, punctuation.eq_def]
    split
    · rename_i d rest
      have hlong : ¬ longMarks.contains [c, d] := fun h => by
        have hspace := hends _ (List.contains_iff_mem.1 h) d rfl
        rw [hs d rfl] at hspace
        cases hspace
      rw [if_neg hlong, if_pos (List.contains_iff_mem.2 hmark)]
    · rw [if_pos (List.contains_iff_mem.2 hmark)]
  | @string r text h =>
    exact ⟨_, r, rfl, by decide, fun h => absurd h (by decide), first_of_unquote? (.inl rfl) h s⟩
  | @char r text h =>
    exact ⟨_, r, rfl, by decide, fun h => absurd h (by decide), first_of_unquote? (.inr rfl) h s⟩

/-- No form goes beyond its line. -/
theorem Written.newline_not_mem (h : Written kind text form) : newline ∉ form := by
  obtain ⟨c, r, rfl, hspace, -, hfirst⟩ := first_of_written h (s := []) (by simp [Parted])
  obtain ⟨used, hused, hfree⟩ := first_inline hfirst
  rw [List.append_nil, List.append_nil] at hused
  rw [hused]
  have hne : newline ≠ c := by
    rintro rfl
    exact absurd hspace (by decide)
  simp [hne, hfree]

/-! ## Texts -/

theorem scanFrom_written (h : Written kind text form) (hs : Parted s) :
    scanFrom read line (form ++ s) = scanFrom (⟨kind, text, line⟩ :: read) line s := by
  obtain ⟨c, r, rfl, hspace, hslash, hfirst⟩ := first_of_written h hs
  simp only [isSpace, Bool.or_eq_false_iff, decide_eq_false_iff_not] at hspace
  refine scanFrom_first hspace.2 (by simp [hspace.1]) ?_ hfirst
  simpa using hslash

theorem parted_print {ps : List Piece} (hps : ∀ p ∈ ps, Separator p.gap)
    (hlast : last = [] ∨ Separator last) :
    Parted (print ps last) := by
  have hseparator : ∀ {b s : Bytes}, Separator b → Parted (b ++ s) := by
    rintro _ s ⟨hc, -⟩ d hd
    cases hd
    exact hc
  cases ps with
  | nil =>
    rcases hlast with rfl | hlast
    · simp [print, Parted]
    · have := hseparator (s := []) hlast
      simpa [print] using this
  | cons p ps =>
    rw [print_cons]
    exact hseparator (hps p List.mem_cons_self)

/-- The tokens of pieces that stand behind a line. -/
def placed (line : Nat) : List Piece → List Token
  | [] => []
  | p :: ps =>
    ⟨p.kind, p.text, line + p.gap.count newline⟩ :: placed (line + p.gap.count newline) ps

theorem scanFrom_print {ps : List Piece} (hgap : ∀ p ∈ ps, Gap p.gap)
    (hps : ∀ p ∈ ps.tail, Separator p.gap)
    (hlast : last = [] ∨ Separator last) (read : List Token) (line : Nat) :
    scanFrom read line (print ps last) =
      .ok ⟨read.reverse ++ placed line ps, line + (print ps last).count newline⟩ := by
  induction ps generalizing read line with
  | nil =>
    have hgap : Gap last := by
      rcases hlast with rfl | hlast
      · exact .nil
      · exact hlast.gap
    have hscan := scanFrom_gap (r := []) hgap read line
    rw [List.append_nil, scanFrom] at hscan
    simpa [print, placed] using hscan
  | cons p ps ih =>
    obtain ⟨hp, hgap⟩ := List.forall_mem_cons.1 hgap
    rw [List.tail_cons] at hps
    have hform := List.count_eq_zero_of_not_mem p.written.newline_not_mem
    rw [print_cons, scanFrom_gap hp, scanFrom_written p.written (parted_print hps hlast),
      ih hgap fun q hq => hps q (List.mem_of_mem_tail hq)]
    simp [placed, hform, Nat.add_assoc]

theorem placed_getElem? {before after : List Piece} {p : Piece} :
    (placed line (before ++ p :: after))[before.length]? =
      some ⟨p.kind, p.text, line + (print before p.gap).count newline⟩ := by
  induction before generalizing line with
  | nil => simp [placed, print]
  | cons q before ih =>
    have hform := List.count_eq_zero_of_not_mem q.written.newline_not_mem
    simp [placed, ih, print_cons, hform, Nat.add_assoc]

theorem placed_map (line : Nat) (ps : List Piece) :
    (placed line ps).map (fun t => (t.kind, t.text)) = ps.map fun p => (p.kind, p.text) := by
  induction ps generalizing line with
  | nil => rfl
  | cons p ps ih => simp [placed, ih]

/-- Tokens in any of their forms, kept apart by separators, are read back as they are and as nothing
else, and each is on the line that counts the line ends in front of it. So is every token of every
text that can be read. -/
theorem printed_tokens_scanned (ps : List Piece) (last : Bytes) (hps : Spaced ps)
    (hlast : last = [] ∨ Separator last) :
    (∃ ts, scan (print ps last) = .ok ts ∧
      ts.list.map (fun t => (t.kind, t.text)) = ps.map (fun p => (p.kind, p.text)) ∧
      ts.lastLine = 1 + (print ps last).count newline ∧
      ∀ before p after, ps = before ++ p :: after →
        ts.list[before.length]? = some ⟨p.kind, p.text, 1 + (print before p.gap).count newline⟩) ∧
    ∀ text ts, scan text = .ok ts → ∀ before t after,
      ts.list ++ [endOfFile ts.lastLine] = before ++ t :: after → t.StandsIn text before := by
  have hgaps : (∀ p ∈ ps, Gap p.gap) ∧ ∀ p ∈ ps.tail, Separator p.gap := by
    cases hps with
    | nil => simp
    | cons hp hrest => exact ⟨List.forall_mem_cons.2 ⟨hp, fun q hq => (hrest q hq).gap⟩, hrest⟩
  refine ⟨⟨_, scanFrom_print hgaps.1 hgaps.2 hlast [] 1, ?_, rfl, ?_⟩, ?_⟩
  · exact placed_map 1 ps
  · rintro before p after rfl
    exact placed_getElem?
  · intro text ts hscan before t after hsplit
    exact standsIn_of_scan hscan hsplit

namespace Sample

/-- Two literals behind a comment that holds a mark. One of them holds the beginning of a comment
and its own mark, the other only its mark. -/
def pieces : List Piece :=
  [⟨[], .identifier, ascii "x", ascii "x", .word (by decide) (by decide +kernel)⟩,
    ⟨ascii " ", .punctuation, ascii "/", ascii "/", .short (by decide)⟩,
    ⟨ascii "\n// it's\n\t", .string, ascii "//\"", ascii "\"//\\\"\"", .string (by decide +kernel)⟩,
    ⟨ascii "\x0d", .char, ascii "'", ascii "'\\''", .char (by decide +kernel)⟩]

theorem spaced : Spaced pieces := by
  refine .cons .nil ?_
  have hcomment : Gap (ascii "// it's\n\t") :=
    @Gap.comment (ascii " it's") _ (by decide) (.space (by decide) .nil)
  simp only [List.forall_mem_cons]
  exact ⟨.mk (by decide) .nil, .mk (by decide) hcomment, .mk (by decide) .nil, by simp⟩

theorem pieces_scanned : Spaced pieces ∧ print pieces
    [] = ascii "x /\n// it's\n\t\"//\\\"\"\x0d'\\''" ∧
    ∃ ts, scan (print pieces []) = .ok ts ∧ ts.lastLine = 3 ∧
      ts.list[2]? = some ⟨.string, ascii "//\"", 3⟩ := by
  obtain ⟨⟨ts, hscan, -, hlast, hplaces⟩, -⟩ := printed_tokens_scanned pieces [] spaced (.inl rfl)
  exact ⟨spaced, by decide, ts, hscan, hlast, hplaces (pieces.take 2) _ _ rfl⟩

end Sample

end Quadlang.Token
