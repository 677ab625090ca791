import JobMarkup.Grammar.Element

/-!
# Reading a token stream

A reader stands in a token stream, reads what it is asked for, and collects diagnostics. Any
production of the grammar can be asked for at any place. A production that declines leaves the
reader where it was, but for the blanks in front of an element.
-/

namespace JobMarkup.Grammar

open JobMarkup.Tree

/-- What a reader can be asked for. -/
inductive Production where
  | partialSymbol
  | compoundSymbol
  | namespacedSymbol
  | interpolation
  /-- Content up to one of the terminators. -/
  | content (terminators : List TokenKind)
  | attribute
  | closingTag
  | comment
  /-- Comments and blanks, possibly none. -/
  | trivia
  | element
  | document
deriving DecidableEq

/-- The rule of a production, as a node. -/
def Production.rule : Production → Rule Node
  | partialSymbol => Rule.partialSymbol.map .partialSymbol
  | compoundSymbol => Rule.compoundSymbol.map .compoundSymbol
  | namespacedSymbol => Rule.namespacedSymbol.map .namespacedSymbol
  | interpolation => Rule.interpolation.map .interpolation
  | content terminators => (Rule.content terminators).map .content
  | .attribute => Rule.attribute.map .attribute
  | closingTag => Rule.closingTag.map .closingTag
  | comment => Rule.comment.map .comment
  | trivia => fun tokens => some ((Grammar.trivia tokens).map .trivia)
  | element => (Rule.element maxDepth).map .element
  | document => Rule.document.map .document

/-- The tokens that a production leaves when it declines. -/
def Production.restDeclined : Production → List Token → List Token
  | element | document => skipBlanks
  | _ => id

/-- A place in a token stream and the diagnostics so far, in the order of discovery. -/
structure Reader where
  stream : TokenStream
  /-- The tokens that have not been read. -/
  rest : List Token
  diagnostics : List Diagnostic

namespace Reader

/-- A reader in front of a token stream. -/
def ofStream (stream : TokenStream) : Reader := ⟨stream, stream.tokens, []⟩

/-- The token in front of the reader. -/
def current (reader : Reader) : Token := reader.rest.head?.getD reader.stream.endToken

/-- The diagnostic of a report: the span of the tokens that it is about. -/
def diagnose (stream : TokenStream) (report : Report) : Diagnostic :=
  ⟨.grammar report.fault, stream.spanOf report.about⟩

/-- Read one production. -/
def read (reader : Reader) (production : Production) : Option Node × Reader :=
  match production.rule reader.rest with
  | some parsed =>
    (some parsed.value, { reader with
      rest := parsed.rest
      diagnostics := reader.diagnostics ++ parsed.reports.map (diagnose reader.stream) })
  | none => (none, { reader with rest := production.restDeclined reader.rest })

end Reader

/-- The document in a token stream, if there is any markup in front, and the diagnostics. -/
def readDocument (stream : TokenStream) : Option Document × List Diagnostic :=
  match Rule.document stream.tokens with
  | some parsed => (some parsed.value, parsed.reports.map (Reader.diagnose stream))
  | none => (none, [])

end JobMarkup.Grammar
