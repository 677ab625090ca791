import JobMarkup.Proofs.CharacterClasses
import JobMarkup.Proofs.Outline
import JobMarkup.Proofs.Spelling

/-!
# Layouts

An outline can be written down in many ways: blanks may stand within tags, blanks and comments
between elements, and blanks in front of content. In all of these layouts an outline is read again,
if its names, keys and values are ones that can be read at all. Elements that are not closed by their
own tag may be nested as deep as the grammar goes down.
-/

namespace JobMarkup

open Variable Character

namespace Template

/-- The written form of a variable in a document. -/
def reference (identifier : Identifier) : String := "@\x7b" ++ identifier.toText ++ "\x7d@"

/-! ## What can be read -/

/-- The lexemes begin neither with a blank, nor with a comment, nor with a tag. -/
def BeginsText : List Lexeme → Prop
  | [] => True
  | first :: rest => first.kind.isBlank = false ∧ first.kind ≠ .openAngle
      ∧ ¬(first.kind = .openBang ∧ rest.head?.map Lexeme.kind = some .doubleHyphen)

/-- The name is a run of letters. -/
structure IsReadableName (name : String) : Prop where
  ne_nil : name.toList ≠ []
  letters : ∀ c ∈ name.toList, isLetter c = true

/-- The key is a partial symbol, and the value is read as the pieces that it has. -/
structure IsReadableAttribute (attr : String × List Piece) : Prop where
  key : SpellsPartial (Lexeme.ofChars attr.1.toList)
  value : Spells Grammar.attributeValueEnds (Lexeme.ofChars (renderPieces reference attr.2)) attr.2
  noReturn : '\r' ∉ renderAttribute reference attr

/-- The content is not empty, no element begins with it, and it is read as the pieces that it has. -/
structure IsReadableContent (pieces : List Piece) : Prop where
  ne_nil : pieces ≠ []
  value : Spells Grammar.elementValueEnds (Lexeme.ofChars (renderPieces reference pieces)) pieces
  begins : BeginsText (Lexeme.ofChars (renderPieces reference pieces))
  noReturn : '\r' ∉ renderPieces reference pieces

/-- The names, the attributes, no key given twice, and the contents can be read. -/
inductive IsReadable : Outline → Prop
  | intro {name attributes content children} : IsReadableName name →
      (∀ attr ∈ attributes, IsReadableAttribute attr) → (attributes.map Prod.fst).Nodup →
      (∀ pieces ∈ content, IsReadableContent pieces) → (∀ child ∈ children, IsReadable child) →
      IsReadable ⟨name, attributes, content, children⟩

/-! ## Layouts of an outline -/

/-- Blanks in a row, or none. -/
def IsGap (cs : List Char) : Prop := ∀ c ∈ cs, isBlank c = true

/-- Nothing is a gap as well, for parts that stand right behind each other. -/
theorem isGap_nil : IsGap [] := by simp [IsGap]

/-- One blank is a gap, such as the one in front of an attribute. -/
theorem isGap_singleton (c : Char) (h : isBlank c = true) : IsGap [c] := by
  simpa [IsGap] using h

/-- The marks that end a comment neither stand in the text nor begin at its end. -/
structure IsCommentText (inner : List Char) : Prop where
  not_infix : ¬['-', '-', '>'] <:+: inner
  getLast?_ne : inner.getLast? ≠ some '-'

/-- Blanks and comments in any order. -/
inductive WritesTrivia : List Char → Prop
  | gap {gap} : IsGap gap → WritesTrivia gap
  | comment {gap inner rest} : IsGap gap → IsCommentText inner → WritesTrivia rest →
      WritesTrivia (gap ++ ('<' :: '!' :: '-' :: '-' :: (inner ++ ('-' :: '-' :: '>' :: rest))))

/-- Attributes with blanks in front of each. -/
inductive WritesAttributes : List (String × List Piece) → List Char → Prop
  | nil : WritesAttributes [] []
  | cons {gap attr attributes cs} : gap ≠ [] → IsGap gap → WritesAttributes attributes cs →
      WritesAttributes (attr :: attributes) (gap ++ (renderAttribute reference attr ++ cs))

/-- What stands between the marks of an opening tag. -/
inductive WritesTag : (name : String) → List (String × List Piece) → List Char → Prop
  | intro {before name attributes cs behind} : IsGap before → WritesAttributes attributes cs →
      IsGap behind → WritesTag name attributes (before ++ (name.toList ++ (cs ++ behind)))

/-- A closing tag. -/
inductive WritesClosingTag : (name : String) → List Char → Prop
  | intro {before name behind} : IsGap before → IsGap behind →
      WritesClosingTag name ('<' :: '/' :: (before ++ (name.toList ++ (behind ++ ['>']))))

/-- An element, given how its content and its children are written. -/
inductive WritesElementWith (body : Option (List Piece) → List Outline → List Char → Prop) :
    Outline → List Char → Prop
  | selfClosing {leading name attributes tag} : WritesTrivia leading →
      WritesTag name attributes tag →
      WritesElementWith body ⟨name, attributes, none, []⟩ (leading ++ '<' :: (tag ++ ['/', '>']))
  | paired {leading name attributes tag content children inner close} : WritesTrivia leading →
      WritesTag name attributes tag → body content children inner → WritesClosingTag name close →
      WritesElementWith body ⟨name, attributes, content, children⟩
        (leading ++ '<' :: (tag ++ '>' :: (inner ++ close)))

/-- Elements one after the other. -/
inductive WritesAll (writes : Outline → List Char → Prop) : List Outline → List Char → Prop
  | nil : WritesAll writes [] []
  | cons {child others first rest} : writes child first → WritesAll writes others rest →
      WritesAll writes (child :: others) (first ++ rest)

/-- What stands between two tags: children with trivia behind them, or blanks and content. -/
inductive WritesBody (writes : Outline → List Char → Prop) :
    Option (List Piece) → List Outline → List Char → Prop
  | children {children cs trailing} : WritesAll writes children cs → WritesTrivia trailing →
      WritesBody writes none children (cs ++ trailing)
  | text {gap pieces} : IsGap gap →
      WritesBody writes (some pieces) [] (gap ++ renderPieces reference pieces)

/-- An element with elements in it down to the given number of levels. -/
def WritesElement : (levels : Nat) → Outline → List Char → Prop
  | 0 => WritesElementWith fun _ _ _ => False
  | levels + 1 => WritesElementWith (WritesBody (WritesElement levels))

/-- A document with the given root. -/
inductive WritesDocument : Outline → List Char → Prop
  | intro {root cs trailing} : WritesElement Grammar.maxDepth root cs → WritesTrivia trailing →
      WritesDocument root (cs ++ trailing)

end Template

end JobMarkup
