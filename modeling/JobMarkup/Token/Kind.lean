import JobMarkup.Character.Letter
import JobMarkup.Character.Numeric
import JobMarkup.Character.Blank

/-!
# Token kinds

A token is one punctuation mark, one of six marks of two characters, a line feed, a run of letters,
of blanks or of numeric characters, or a single character of no other kind. The end of a text has a
kind of its own, which no characters have.
-/

namespace JobMarkup

/-- What a token is. -/
inductive TokenKind where
  /-- The end of the text. -/
  | endOfText
  /-- The mark `</`. -/
  | openSlash
  /-- The mark `<!`. -/
  | openBang
  /-- The mark `<`. -/
  | openAngle
  /-- The mark `/>`. -/
  | slashClose
  /-- The mark `/`. -/
  | slash
  /-- The mark `>`. -/
  | closeAngle
  /-- The mark `.`. -/
  | period
  /-- The mark `,`. -/
  | comma
  /-- The mark `=`. -/
  | equal
  /-- The mark `"`. -/
  | quote
  /-- The mark `@{`. -/
  | openReference
  /-- The mark `}@`. -/
  | closeReference
  /-- The mark `@`. -/
  | atSign
  /-- The mark `--`. -/
  | doubleHyphen
  /-- The mark `-`. -/
  | hyphen
  /-- Any other punctuation mark of ASCII. -/
  | special
  /-- A line feed. -/
  | newline
  /-- A run of letters. -/
  | letters
  /-- A run of numeric characters that does not begin with a letter. -/
  | digits
  /-- A run of blanks within a line. -/
  | blank
  /-- A character of no other kind. -/
  | unknown
deriving DecidableEq, Inhabited

namespace TokenKind

/-- Blanks and line feeds. -/
def isBlank : TokenKind → Bool
  | blank | newline => true
  | _ => false

/-- The kinds that end an opening tag. -/
def isTagEnd : TokenKind → Bool
  | closeAngle | slashClose => true
  | _ => false

/-- The kinds of letters and digits. -/
def isAlphanumeric : TokenKind → Bool
  | letters | digits => true
  | _ => false

/-- A kind in words. -/
def describe : TokenKind → String
  | endOfText => "end of input"
  | openSlash => "'</'"
  | openBang => "'<!'"
  | openAngle => "'<'"
  | slashClose => "'/>'"
  | slash => "'/'"
  | closeAngle => "'>'"
  | period => "'.'"
  | comma => "','"
  | equal => "'='"
  | quote => "'\"'"
  | openReference => "'@\x7b'"
  | closeReference => "'\x7d@'"
  | atSign => "'@'"
  | doubleHyphen => "'--'"
  | hyphen => "'-'"
  | special => "special character"
  | newline => "newline"
  | letters => "letters"
  | digits => "digits"
  | blank => "whitespace"
  | unknown => "unknown character"

end TokenKind

end JobMarkup
