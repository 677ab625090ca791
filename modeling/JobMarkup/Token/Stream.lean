import JobMarkup.SourceText.Basic
import JobMarkup.Token.Lexeme

/-!
# Tokens of a text

A token is a lexeme at its place: its kind, how many characters come before it, how many it has,
and the span of its first and last character. The tokens of a text tile it; behind them stands one
token without characters, the end of the text.
-/

namespace JobMarkup

/-- A lexeme at its place in a text. -/
structure Token where
  kind : TokenKind
  /-- The number of characters before the token. -/
  offset : Nat
  /-- The number of characters of the token. -/
  length : Nat
  span : Span
deriving DecidableEq, Inhabited

namespace Token

/-- The token is a run of blanks or a line feed. -/
def isBlank (token : Token) : Bool := token.kind.isBlank

/-- The token ends an opening tag. -/
def isTagEnd (token : Token) : Bool := token.kind.isTagEnd

/-- The smallest span that holds all the given tokens, if there are any. -/
def cover (tokens : List Token) : Option Span := Span.cover (tokens.map span)

/-- Lexemes at their places, the first of them at the given offset. -/
def place (text : SourceText) : (offset : Nat) → List Lexeme → List Token
  | _, [] => []
  | offset, lexeme :: rest =>
    let length := lexeme.chars.length
    ⟨lexeme.kind, offset, length, text.spanOf offset (offset + length - 1)⟩
      :: place text (offset + length) rest

/-- Each lexeme is placed as one token. -/
theorem length_place (text : SourceText) (offset : Nat) (lexemes : List Lexeme) :
    (place text offset lexemes).length = lexemes.length := by
  induction lexemes generalizing offset with
  | nil => rfl
  | cons lexeme rest ih => simp [place, ih]

end Token

/-- The tokens of a text and the end of the text behind them. -/
structure TokenStream where
  tokens : List Token
  endToken : Token
deriving DecidableEq

namespace TokenStream

/-- All tokens, the end of the text included. -/
def toList (stream : TokenStream) : List Token := stream.tokens ++ [stream.endToken]

/-- The number of tokens, the end of the text included. -/
def length (stream : TokenStream) : Nat := stream.tokens.length + 1

/-- The place of the given tokens; without tokens, the end of the text. -/
def spanOf (stream : TokenStream) (tokens : List Token) : Span :=
  (Token.cover tokens).getD stream.endToken.span

/-- The length of a stream counts the end token with the others. -/
@[simp] theorem length_toList (stream : TokenStream) : stream.toList.length = stream.length := by
  simp [toList, length]

end TokenStream

namespace SourceText

/-- The token without characters behind the last character of a text. -/
def endToken (text : SourceText) : Token :=
  ⟨.endOfText, text.length, 0, Span.point text.document (text.locate text.length)⟩

/-- The tokens of a text. -/
def tokens (text : SourceText) : TokenStream :=
  ⟨Token.place text 0 (Lexeme.ofChars text.chars), text.endToken⟩

end SourceText

end JobMarkup
