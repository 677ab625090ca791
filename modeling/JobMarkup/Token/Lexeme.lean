import JobMarkup.Token.Kind

/-!
# Lexemes

A lexeme is a kind with the characters that have it. A text is cut into lexemes from left to right:
a character begins a lexeme, and each following character joins it as long as the longer text is a
lexeme again. Every lexeme can be reached this way, so each one found is the longest at its place,
and together they are the text.
-/

namespace JobMarkup

/-- A kind and the characters that have it. -/
structure Lexeme where
  kind : TokenKind
  chars : List Char
deriving DecidableEq

namespace Lexeme

open Character

/-- The punctuation marks of ASCII that have no kind of their own. -/
def specialMarks : List Char :=
  ['\x7d', '\x7b', '!', '#', '$', '%', '^', '&', '*', '(', ')', '_', '+', '~', '\x60', '[', ']',
    '|', ':', ';', '?', '\\', '\'']

/-- The kind of a run that begins with the character, where runs of letters come first, then runs
of blanks, then runs of numeric characters. -/
def runKind (c : Char) : TokenKind :=
  if isLetter c then .letters
  else if isInlineBlank c then .blank
  else if isNumeric c then .digits
  else .unknown

/-- The kind of a character on its own. -/
def startKind : Char → TokenKind
  | '<' => .openAngle
  | '/' => .slash
  | '>' => .closeAngle
  | '.' => .period
  | ',' => .comma
  | '=' => .equal
  | '"' => .quote
  | '@' => .atSign
  | '-' => .hyphen
  | '\n' => .newline
  | c => if c ∈ specialMarks then .special else runKind c

/-- The lexeme of a character on its own. -/
def start (c : Char) : Lexeme := ⟨startKind c, [c]⟩

/-- The kind of a lexeme with one more character, if that is a lexeme. -/
def extendedKind? (lexeme : Lexeme) (c : Char) : Option TokenKind :=
  match lexeme.kind with
  | .openAngle => if c = '/' then some .openSlash else if c = '!' then some .openBang else none
  | .slash => if c = '>' then some .slashClose else none
  | .atSign => if c = '\x7b' then some .openReference else none
  | .special => if lexeme.chars = ['\x7d'] ∧ c = '@' then some .closeReference else none
  | .hyphen => if c = '-' then some .doubleHyphen else none
  | .letters => if isLetter c then some .letters else none
  | .blank => if isInlineBlank c then some .blank else none
  | .digits => if isNumeric c then some .digits else none
  | _ => none

/-- The lexeme with one more character, if that is a lexeme. -/
def extend? (lexeme : Lexeme) (c : Char) : Option Lexeme :=
  (lexeme.extendedKind? c).map (⟨·, lexeme.chars ++ [c]⟩)

/-- The lexemes of a text whose first one has begun. -/
def split (current : Lexeme) : List Char → List Lexeme
  | [] => [current]
  | c :: rest =>
    match current.extend? c with
    | some longer => longer.split rest
    | none => current :: (start c).split rest

/-- The lexemes of a text. -/
def ofChars : List Char → List Lexeme
  | [] => []
  | c :: rest => (start c).split rest

/-- A lexeme that is extended by a character has this character behind its others. -/
theorem chars_of_extend? {lexeme longer : Lexeme} {c : Char} (h : lexeme.extend? c = some longer) :
    longer.chars = lexeme.chars ++ [c] := by
  simp only [extend?, Option.map_eq_some_iff] at h
  obtain ⟨kind, -, rfl⟩ := h
  rfl

/-- Cutting goes on where it stands and loses no character. -/
theorem flatMap_chars_split (current : Lexeme) (cs : List Char) :
    (current.split cs).flatMap chars = current.chars ++ cs := by
  induction cs generalizing current with
  | nil => simp [split]
  | cons c rest ih =>
    rw [split]
    cases h : current.extend? c with
    | some longer => simp [ih, chars_of_extend? h]
    | none => simp [ih, start]

/-- The lexemes of a text together are the text. -/
theorem flatMap_chars_ofChars (cs : List Char) : (ofChars cs).flatMap chars = cs := by
  cases cs with
  | nil => rfl
  | cons c rest => simp [ofChars, flatMap_chars_split, start]

end Lexeme

end JobMarkup
