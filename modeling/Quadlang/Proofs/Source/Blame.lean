-- Which token an error in a text is about, and which line it reports. The line is that of the next
-- token, so a token that was taken before it was found wrong is reported on the line of its
-- successor.
import Quadlang.Compile
import Quadlang.Proofs.Source.Beginnings

namespace Quadlang

variable {e : SyntaxError} {c c' : Cursor} {ts : Tokens}

namespace Source

open Grammar Success

/-- The tokens ahead with the end of the file behind them. -/
def ahead (c : Cursor) : List Token := c.rest ++ [Token.endOfFile c.lastLine]

theorem ahead_eq (c : Cursor) : ahead c = c.next :: (ahead c).tail := by
  unfold ahead Cursor.next
  cases c.rest <;> rfl

theorem Ahead.ahead_eq (h : Ahead c c') : ∃ before, ahead c = before ++ ahead c' := by
  obtain ⟨⟨before, hbefore⟩, hlast⟩ := h
  exact ⟨before, by rw [ahead, ahead, hlast, ← hbefore, List.append_assoc]⟩

/-- Where a reading stops: in front of the token of the error or behind it. The end of the file is
never passed. -/
theorem Accuses.ahead_eq (h : Accuses c e c') :
    ahead c' = if e.cause.taken ∧ (ahead c).tail ≠ [] then (ahead c).tail else ahead c := by
  unfold ahead
  rw [h.rest, h.lastLine]
  cases e.cause.taken with
  | false => simp
  | true => cases c.rest <;> simp

theorem Accuses.line_eq (h : Accuses c e c') :
    e.line = if e.cause.taken then ((ahead c).tail.headD c.next).line else c.next.line := by
  rw [h.line]
  unfold ahead Cursor.next
  rw [h.rest, h.lastLine]
  cases e.cause.taken with
  | false => rfl
  | true => rcases c.rest with _ | ⟨t, _ | ⟨t', ts⟩⟩ <;> rfl

/-- An error that a text without bad tokens gives comes from its reading. -/
theorem read_of_parse {text : Bytes} {g g' : Generator} (hscan : Token.scan text = .ok ts)
    (h : g.parse text = (.error (.text e), g')) : (Grammar.read ts).error = some e := by
  unfold Generator.parse at h
  simp only [hscan] at h
  split at h
  · rename_i stop g₁ _
    cases stop <;> cases h
  · split at h
    · rename_i e' herror
      cases h
      exact herror
    · cases h

theorem read_eq_error (h : (Grammar.read ts).error = some e) :
    ∃ c, program (depth ts.list.length) ⟨ts.list, ts.lastLine, 0, []⟩ = .error e c := by
  unfold Grammar.read at h
  cases hread : program (depth ts.list.length) ⟨ts.list, ts.lastLine, 0, []⟩ with
  | ok u c =>
    rw [hread] at h
    cases h
  | error e' c =>
    rw [hread] at h
    cases h
    exact ⟨c, rfl⟩

theorem program_accuses (h : program (depth ts.list.length) ⟨ts.list, ts.lastLine, 0, []⟩ =
    .error e c) :
    ∃ c₁, Ahead ⟨ts.list, ts.lastLine, 0, []⟩ c₁ ∧ Accuses c₁ e c := by
  obtain ⟨as, -, hstopped⟩ := program_stops h (lt_depth _)
  exact hstopped.accuses

/-- The line of an error in a text whose tokens are all good. The error is about one token of the
text, at which the reading has stopped. Its line is the line that the token stands on if the token
was only looked at, and otherwise the line that the next token stands on. -/
theorem syntax_error_line {text : Bytes} {ts : Tokens} {g g' : Generator} {e : SyntaxError}
    (hscan : Token.scan text = .ok ts) (h : g.parse text = (.error (.text e), g')) :
    ∃ (before : List Token) (t : Token) (after : List Token) (c : Cursor),
      ts.list ++ [Token.endOfFile ts.lastLine] = before ++ t :: after ∧ t.StandsIn text before ∧
      e.cause.Blames t ∧
      program (depth ts.list.length) ⟨ts.list, ts.lastLine, 0, []⟩ = .error e c ∧
      ahead c = (if e.cause.taken ∧ after ≠ [] then after else t :: after) ∧
      e.line = if e.cause.taken then (after.headD t).line else t.line := by
  have herror := read_of_parse hscan h
  obtain ⟨c, hread⟩ := read_eq_error herror
  obtain ⟨c₁, hahead, haccuses⟩ := program_accuses hread
  obtain ⟨before, hbefore⟩ := hahead.ahead_eq
  have hsplit : ts.list ++ [Token.endOfFile ts.lastLine] = before ++
    c₁.next :: (ahead c₁).tail := by
    rw [← ahead_eq c₁]
    exact hbefore
  refine ⟨before, c₁.next, (ahead c₁).tail, c, hsplit, Token.standsIn_of_scan hscan hsplit,
    haccuses.blames, hread, ?_, haccuses.line_eq⟩
  rw [← ahead_eq c₁]
  exact haccuses.ahead_eq

namespace Semicolon

/-- The semicolon behind `x` is missing. What stands in its place is on the third line, and the
token behind that on the fourth. -/
def text : Bytes := ascii "program p;\nint x\nmain\n\x7b \x7d\n"

def main : Token := ⟨.identifier, ascii "main", 3⟩

def tokens : Tokens where
  list := [⟨.identifier, ascii "program", 1⟩, ⟨.identifier, ascii "p", 1⟩,
    ⟨.punctuation, ascii ";", 1⟩,
    ⟨.identifier, ascii "int", 2⟩, ⟨.identifier, ascii "x", 2⟩, main,
    ⟨.punctuation, ascii "\x7b", 4⟩, ⟨.punctuation, ascii "\x7d", 4⟩]
  lastLine := 5

def error : SyntaxError := ⟨4, .expected (ascii ";") main⟩

/-- The error in the text that ended a compilation. -/
def found? : Except TextError Unit → Option SyntaxError
  | .error (.text e) => some e
  | _ => none

theorem eq_of_found? {r : Except TextError Unit} (h : found? r = some e) :
    r = .error (.text e) := by
  unfold found? at h
  split at h
  · cases h
    rfl
  · cases h

theorem scan_text : Token.scan text = .ok tokens := by
  have hscan : (Token.scan text).toOption = some tokens := by decide +kernel
  cases h : Token.scan text with
  | error e => simp [h, Except.toOption] at hscan
  | ok ts =>
    rw [h] at hscan
    exact congrArg Except.ok (Option.some.inj hscan)

theorem parse_text :
    Generator.initial.parse text = (.error (.text error), (Generator.initial.parse text).2) := by
  have hfound : found? (Generator.initial.parse text).1 = some error := by decide +kernel
  exact Prod.ext (eq_of_found? hfound) rfl

/-- The token that is named stands on the third line and is reported on the fourth. -/
theorem main_reported_late : ∃ g, Token.scan text = .ok tokens ∧ main ∈ tokens.list ∧
    Generator.initial.parse text = (.error (.text error), g) ∧ error.cause.Blames main ∧
    main.line = 3 ∧ error.line = 4 :=
  ⟨_, scan_text, by decide, parse_text, rfl, rfl, rfl⟩

/-- The token of the error was taken, so its line is that of a token behind it. -/
theorem semicolon_missing : ∃ (g : Generator) (before : List Token) (t : Token)
    (after : List Token), Token.scan text = .ok tokens ∧
      Generator.initial.parse text = (.error (.text error), g) ∧
    tokens.list ++ [Token.endOfFile tokens.lastLine] = before ++ t :: after ∧
    t.StandsIn text before ∧ error.cause.Blames t ∧ error.line = (after.headD t).line := by
  obtain ⟨before, t, after, c, hsplit, hstands, hblames, -, -, hline⟩ :=
    syntax_error_line scan_text parse_text
  exact ⟨_, before, t, after, scan_text, parse_text, hsplit, hstands, hblames, hline⟩

end Semicolon

end Source

end Quadlang
