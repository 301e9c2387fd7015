-- Tokens of program text, and the errors that a text can hold.
import Quadlang.Text.Quoted

namespace Quadlang

inductive Token.Kind
  | endOfFile
  | identifier
  | int
  | float
  | char
  | string
  | punctuation
  deriving DecidableEq, Repr

/-- How a message names a kind of token. -/
def Token.Kind.name : Token.Kind → Bytes
  | .endOfFile => ascii "end of file"
  | .identifier => ascii "identifier"
  | .int => ascii "int"
  | .float => ascii "float"
  | .char => ascii "char"
  | .string => ascii "string"
  | .punctuation => ascii "punctuation"

/-- A token: its text, or what a quoted literal stands for, and the line it begins on. -/
structure Token where
  kind : Token.Kind
  text : Bytes
  line : Nat
  deriving DecidableEq, Repr

/-- The tokens of a text, and its last line. -/
structure Tokens where
  list : List Token
  lastLine : Nat
  deriving DecidableEq, Repr

namespace Token

/-- The token that stands behind the last one. -/
def endOfFile (line : Nat) : Token := ⟨.endOfFile, [], line⟩

/-- Whether a token is the given word or mark. A literal is neither. -/
def is (t : Token) (word : Bytes) : Bool :=
  (t.kind = .punctuation || t.kind = .identifier) && t.text = word

/-- How a message shows a token. -/
def shown (t : Token) : Bytes :=
  match t.kind with
  | .endOfFile | .identifier | .punctuation =>
    if t.text.isEmpty then t.kind.name else Text.quote t.text
  | _ => t.kind.name ++ ascii " " ++ Text.quote t.text

end Token

/-! ## Syntax errors -/

/-- What is wrong with the text of a program. -/
inductive SyntaxCause
  | unterminatedLiteral
  | badLiteral (literal : Bytes)
  | unsupportedCharacter (byte : UInt8)
  | expected (word : Bytes) (got : Token)
  | identifierExpected (got : Token)
  | typeExpected (got : Token)
  | statementExpected (got : Token)
  | expressionExpected (got : Token)
  | arraySizeExpected (got : Token)
  | badArraySize (text : Bytes)
  | badInt (text : Bytes)
  | badFloat (text : Bytes)
  | badChar (text : Bytes)
  | unexpected (got : Token)
  | unexpectedAfterMain (got : Token)
  | unexpectedEnd
  | tooDeep
  deriving DecidableEq, Repr

def SyntaxCause.detail : SyntaxCause → Bytes
  | .unterminatedLiteral => ascii "unterminated literal"
  | .badLiteral literal => ascii "bad literal " ++ literal
  | .unsupportedCharacter byte => ascii "unsupported character " ++ Text.quoteChar byte.toNat
  | .expected word got => Text.quote word ++ ascii " expected, got " ++ got.shown
  | .identifierExpected got => ascii "identifier expected, got " ++ got.shown
  | .typeExpected got => ascii "type expected, got " ++ got.shown
  | .statementExpected got => ascii "statement expected, got " ++ got.shown
  | .expressionExpected got => ascii "expression expected, got " ++ got.shown
  | .arraySizeExpected got => ascii "array size expected, got " ++ got.shown
  | .badArraySize text => ascii "bad array size " ++ text
  | .badInt text => ascii "bad int " ++ text
  | .badFloat text => ascii "bad float " ++ text
  | .badChar text => ascii "bad char literal " ++ Text.quote text
  | .unexpected got => ascii "unexpected " ++ got.shown
  | .unexpectedAfterMain got => ascii "unexpected " ++ got.shown ++ ascii " after main"
  | .unexpectedEnd => ascii "unexpected end of file"
  | .tooDeep => ascii "nesting too deep"

structure SyntaxError where
  line : Nat
  cause : SyntaxCause
  deriving DecidableEq, Repr

def SyntaxError.message (e : SyntaxError) : Bytes :=
  ascii "syntax error at line " ++ Bytes.ofNat e.line ++ ascii ": " ++ e.cause.detail

end Quadlang
