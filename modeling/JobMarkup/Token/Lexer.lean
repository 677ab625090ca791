import JobMarkup.Cursor

/-!
# Reading tokens with a cursor

Tokens can also be taken from a text one at a time. A cursor stands at the first character of a token
and looks at that one and at the next. Both tell which mark it is, if it is one; if it is none, the
first one tells of which class a run begins there, and the cursor takes in characters of the class as
long as it sees one ahead. Behind the end of the text it sees zero characters.

Nothing here says that a run ends. So a cursor is given a limit to the characters that it takes in one
by one and to the tokens that it takes, and there is no result if it reaches the limit.
-/

namespace JobMarkup.Lexer

open Character

/-- The kind and the length of the mark that two characters begin with, if they begin with one. -/
def mark? (c following : Char) : Option (TokenKind × Nat) :=
  match c with
  | '<' =>
    if following = '/' then some (.openSlash, 2)
    else if following = '!' then some (.openBang, 2)
    else some (.openAngle, 1)
  | '/' => if following = '>' then some (.slashClose, 2) else some (.slash, 1)
  | '>' => some (.closeAngle, 1)
  | '.' => some (.period, 1)
  | ',' => some (.comma, 1)
  | '=' => some (.equal, 1)
  | '"' => some (.quote, 1)
  | '@' => if following = '\x7b' then some (.openReference, 2) else some (.atSign, 1)
  | '\x7d' => if following = '@' then some (.closeReference, 2) else some (.special, 1)
  | '-' => if following = '-' then some (.doubleHyphen, 2) else some (.hyphen, 1)
  | '\n' => some (.newline, 1)
  | c => if c ∈ Lexeme.specialMarks then some (.special, 1) else none

variable (text : SourceText)

/-- Take the characters that the cursor takes in, and a number of others, as a token. -/
def take (kind : TokenKind) (others : Nat) (cursor : Cursor) : Token × Cursor :=
  let (stretch, cursor) := cursor.consume text.window others
  (⟨kind, stretch.offset, stretch.length, stretch.span⟩, cursor)

/-- Take in the characters ahead up to one that is not accepted. -/
def growRun (accepts : Char → Bool) : (limit : Nat) → Cursor → Option Cursor
  | 0, _ => none
  | limit + 1, cursor =>
    if accepts (cursor.peek text.window 1) then growRun accepts limit (cursor.grow 1)
    else some cursor

/-- Take a run of the class that its first character begins, or this one alone if it is of no class. -/
def takeRun (limit : Nat) (first : Char) (cursor : Cursor) : Option (Token × Cursor) :=
  if isLetter first then (growRun text isLetter limit cursor).map (take text .letters 0)
  else if isInlineBlank first then
    (growRun text isInlineBlank limit cursor).map (take text .blank 0)
  else if isNumeric first then (growRun text isNumeric limit cursor).map (take text .digits 0)
  else some (take text .unknown 0 cursor)

/-- Take the token that begins where the cursor stands. -/
def next (limit : Nat) (cursor : Cursor) : Option (Token × Cursor) :=
  let first := cursor.peek text.window 0
  match mark? first (cursor.peek text.window 1) with
  | some (kind, length) => some (take text kind (length - 1) cursor)
  | none => takeRun text limit first cursor

/-- The token behind all characters, on the last line. -/
def final : Token :=
  let line := text.lineCount - 1
  let column := (text.lineLength line).toOption.getD 0
  ⟨.endOfText, text.length, 0, Span.point text.document ⟨line, column⟩⟩

/-- Take tokens up to the end of the text. -/
def tokensFrom (limit : Nat) : (rounds : Nat) → Cursor → Option (List Token)
  | 0, _ => none
  | rounds + 1, cursor =>
    if cursor.position < text.length then do
      let (token, cursor) ← next text limit cursor
      return token :: (← tokensFrom limit rounds cursor)
    else some [final text]

/-- Take all tokens of a text. -/
def tokens (limit : Nat) : Option (List Token) := tokensFrom text limit limit {}

end JobMarkup.Lexer
