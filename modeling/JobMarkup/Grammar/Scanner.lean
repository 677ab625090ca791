import JobMarkup.Cursor
import JobMarkup.Grammar.Reader

/-!
# Reading with a cursor

A rule says what is read from the tokens that are left, and bounds its repetitions by their number.
Here the grammar is read step by step, as an editor reads it while the text is being typed. A scanner
has a cursor, with which it looks ahead and takes tokens, it counts the elements that it is in, and it
collects diagnostics. How often a scan repeats itself depends on what it finds, so nothing here says
that it stops. It is run within a limit to its repetitions, without a result if it reaches the limit,
and it comes to an end if from some limit on the result is one and the same.
-/

namespace JobMarkup.Grammar

open JobMarkup.Tree

/-- Where a scanner stands, and what it has found. -/
structure Scanner where
  cursor : Cursor := {}
  /-- The number of elements whose children are being read. -/
  depth : Nat := 0
  /-- In the order of discovery. -/
  diagnostics : List Diagnostic := []
deriving DecidableEq

/-- What a scanner does within a limit, and the value that it finds. There is none if the limit is
reached. -/
abbrev Scan (α : Type) := ReaderT Nat (StateT Scanner Option) α

namespace Scan

variable {α β : Type} (stream : TokenStream)

/-- A scan that may repeat itself a number of times. -/
def again (step : (β → Scan α) → β → Scan α) : Nat → β → Scan α
  | 0, _ => failure
  | times + 1, start => step (again step times) start

/-- A scan that may repeat itself as often as the limit allows. -/
def loop (step : (β → Scan α) → β → Scan α) (start : β) : Scan α := do
  again step (← read) start

/-- The scan comes to an end: whatever limit it is given from some limit on, it finds the same value and
leaves the scanner where it is afterwards. -/
def Ends (scan : Scan α) (scanner : Scanner) (value : α) (after : Scanner) : Prop :=
  ∃ bound, ∀ limit, bound ≤ limit → scan limit scanner = some (value, after)

/-- A scan comes to one end only, since any two limits that are large enough have a common one
above them. -/
theorem Ends.unique {scan : Scan α} {scanner after after' : Scanner} {value value' : α}
    (h : scan.Ends scanner value after) (h' : scan.Ends scanner value' after') :
    value = value' ∧ after = after' := by
  obtain ⟨bound, hbound⟩ := h
  obtain ⟨bound', hbound'⟩ := h'
  have heq := (hbound _ (Nat.le_max_left bound bound')).symm.trans
    (hbound' _ (Nat.le_max_right bound bound'))
  rwa [Option.some.injEq, Prod.mk.injEq] at heq

/-- The token a number of places beyond those that the cursor takes in. -/
def peek (ahead : Nat) : Scan Token := do
  return (← get).cursor.peek stream.window ahead

/-- The kind of the token a number of places ahead is accepted. -/
def sees (accepts : TokenKind → Bool) (ahead : Nat) : Scan Bool := do
  return accepts (← peek stream ahead).kind

/-- Let the cursor take in more tokens. -/
def grow (count : Nat) : Scan Unit :=
  modify fun scanner => { scanner with cursor := scanner.cursor.grow count }

/-- Take the tokens that the cursor takes in and a number of others, and move behind them. -/
def consume (count : Nat) : Scan (List Token) :=
  modifyGet fun scanner =>
    let (tokens, cursor) := scanner.cursor.consume stream.window count
    (tokens, { scanner with cursor })

/-- Add a diagnostic about some tokens. -/
def report (fault : GrammarFault) (about : List Token) : Scan Unit :=
  modify fun scanner => { scanner with
    diagnostics := scanner.diagnostics ++ [Reader.diagnose stream ⟨fault, about⟩] }

/-- Add a diagnostic about some tokens if the condition holds. -/
def reportWhen (condition : Bool) (fault : GrammarFault) (about : List Token) : Scan Unit :=
  if condition then report stream fault about else pure ()

/-- Take one token of an accepted kind. -/
def token (accepts : TokenKind → Bool) : Scan (Option (List Token)) := do
  if ← sees stream accepts 0 then return some (← consume stream 0) else return none

/-- Let the cursor take in all tokens up to one that is not accepted. -/
def growWhile (accepts : TokenKind → Bool) : Scan Unit :=
  loop (fun growRest _ => do
    if ← sees stream accepts 1 then
      grow 1
      growRest ()) ()

/-- Take a token and all that follow it up to one that is not accepted. -/
def takeRun (accepts : TokenKind → Bool) : Scan (List Token) := do
  growWhile stream accepts
  consume stream 0

/-- Take a run of blanks and line feeds. -/
def blanks : Scan (Option (List Token)) := do
  if ← sees stream TokenKind.isBlank 0 then return some (← takeRun stream TokenKind.isBlank)
  else return none

/-- Find values until there are no more. -/
def many (scan : Scan (Option α)) : Scan (List α) :=
  loop (fun others _ => do
    match ← scan with
    | none => return []
    | some first => return first :: (← others ())) ()

/-! ## Symbols, content and attributes -/

/-- Let the cursor take in all that continues a partial symbol. -/
def growSymbol : Scan Unit :=
  loop (fun growRest _ => do
    if ← sees stream TokenKind.isAlphanumeric 1 then
      grow 1
      growRest ()
    else if (← sees stream (· == .hyphen) 1) && (← sees stream TokenKind.isAlphanumeric 2) then
      grow 2
      growRest ()) ()

/-- Take a token and all that continues a partial symbol behind it. -/
def takeSymbol : Scan (List Token) := do
  growSymbol stream
  consume stream 0

/-- A partial symbol. -/
def partialSymbol : Scan (Option (List Token)) := do
  if ← sees stream (· == .letters) 0 then return some (← takeSymbol stream) else return none

/-- A delimiter and the part behind it, which is reported if it is missing. -/
def delimitedPart (delimiter : TokenKind) (missing : GrammarFault) (part : Scan (Option Node)) :
    Scan (Option (List Node)) := do
  match ← token stream (· == delimiter) with
  | none => return none
  | some mark =>
    match ← part with
    | some next => return some [.single mark, next]
    | none =>
      report stream missing mark
      return some [.single mark]

/-- Parts with delimiters between them. -/
def joined (delimiter : TokenKind) (missing : GrammarFault) (part : Scan (Option Node)) :
    Scan (Option (List Node)) := do
  match ← part with
  | none => return none
  | some first =>
    let others ← many (delimitedPart stream delimiter missing part)
    return some (first :: others.flatten)

/-- The nodes of a compound symbol. -/
def compoundSymbol : Scan (Option (List Node)) :=
  joined stream .period .incompleteCompoundSymbol
    (return (← partialSymbol stream).map .partialSymbol)

/-- The nodes of a namespaced symbol. A symbol without any slash is reported. -/
def namespacedSymbol : Scan (Option (List Node)) := do
  let symbol ← joined stream .slash .incompleteNamespacedSymbol
    (return (← compoundSymbol stream).map .compoundSymbol)
  match symbol with
  | none => return none
  | some nodes =>
    reportWhen stream (nodes.length == 1) .missingNamespace (nodeTokens nodes)
    return some nodes

/-- An interpolation. Where its symbol or its closing mark is missing, the whole is reported. -/
def interpolation : Scan (Option Interpolation) := do
  match ← token stream (· == .openReference) with
  | none => return none
  | some opening =>
    let symbol ← namespacedSymbol stream
    let closing ← token stream (· == .closeReference)
    let whole : Interpolation := ⟨opening, symbol, closing⟩
    reportWhen stream (!whole.isTerminated) .nonTerminatedInterpolation whole.tokens
    return some whole

/-- A single token or an interpolation, declined in front of a terminator and at the end. -/
def contentPiece (terminators : List TokenKind) : Scan (Option Node) := do
  if ← sees stream (fun kind => kind ∈ terminators || kind == .endOfText) 0 then return none
  else if ← sees stream (· == .openReference) 0 then
    return (← interpolation stream).map .interpolation
  else return some (.single (← consume stream 0))

/-- The nodes of content that is not empty. -/
def content (terminators : List TokenKind) : Scan (Option (List Node)) := do
  let nodes ← many (contentPiece stream terminators)
  return if nodes.isEmpty then none else some nodes

/-- The value of an attribute whose opening quote has been read. -/
def attributeValue (attr : Attribute) : Scan Attribute := do
  let contents ← content stream attributeValueEnds
  let closeQuote ← token stream (· == .quote)
  let whole := { attr with contents, closeQuote }
  reportWhen stream closeQuote.isNone .nonTerminatedString whole.tokens
  return whole

/-- The quoted value of an attribute whose equals sign has been read. -/
def quotedValue (attr : Attribute) : Scan Attribute := do
  match ← token stream (· == .quote) with
  | none =>
    report stream .missingAttributeAssignment attr.tokens
    return attr
  | some quote => attributeValue stream { attr with openQuote := some quote }

/-- The equals sign and the value of an attribute whose name has been read. -/
def attributeAssignment (attr : Attribute) : Scan Attribute := do
  match ← token stream (· == .equal) with
  | none =>
    report stream .missingAttributeAssignment attr.tokens
    return attr
  | some sign => quotedValue stream { attr with equal := some sign }

/-- An attribute. -/
def namedAttribute : Scan (Option Attribute) := do
  match ← partialSymbol stream with
  | none => return none
  | some name => return some (← attributeAssignment stream { name })

/-! ## Comments, trivia and closing tags -/

/-- The tokens up to the marks that end a comment, or up to the end. -/
def commentContents : Scan (List Token) :=
  loop (fun others _ => do
    if ← sees stream (· == .endOfText) 0 then return []
    else if (← sees stream (· == .doubleHyphen) 0) && (← sees stream (· == .closeAngle) 1) then
      return []
    else
      let next ← consume stream 0
      return next ++ (← others ())) ()

/-- A comment. -/
def comment : Scan (Option Comment) := do
  if (← sees stream (· == .openBang) 0) && (← sees stream (· == .doubleHyphen) 1) then
    let opening ← consume stream 1
    let contents ← commentContents stream
    if ← sees stream (· == .endOfText) 0 then
      let whole : Comment := { opening, contents }
      report stream .nonTerminatedComment whole.tokens
      return some whole
    else return some { opening, contents, closing := some (← consume stream 1) }
  else return none

/-- A comment or a run of blanks. -/
def trivium : Scan (Option Node) := do
  match ← comment stream with
  | some found => return some (.comment found)
  | none => return (← blanks stream).map .single

/-- Comments and runs of blanks. -/
def trivia : Scan (List Node) := many (trivium stream)

/-- A closing tag. -/
def closingTag : Scan (Option ClosingTag) := do
  match ← token stream (· == .openSlash) with
  | none => return none
  | some opening =>
    let _ ← blanks stream
    match ← token stream (· == .letters) with
    | none =>
      let tag : ClosingTag := { opening }
      report stream .incompleteClosingTag tag.tokens
      return some tag
    | some name =>
      let _ ← blanks stream
      let tag : ClosingTag := { opening, name := some name }
      let closing ← token stream (· == .closeAngle)
      reportWhen stream closing.isNone .incompleteClosingTag tag.tokens
      return some { tag with closing }

/-! ## Opening tags -/

/-- The tokens up to the next blank or tag end, which should be one run of letters. -/
def tagName : Scan (List Token) := do
  let name ← takeRun stream fun kind => !kind.isBlank && !kind.isTagEnd && kind != .endOfText
  reportWhen stream (name.map Token.kind != [.letters]) .invalidElementName name
  return name

/-- The attributes behind a gap, which is reported if it is empty, and the gap behind them. -/
def attributes : Option (List Token) → Scan (List Attribute) :=
  loop fun others gap => do
    match ← namedAttribute stream with
    | none => return []
    | some first =>
      reportWhen stream gap.isNone .missingAttributeSpacing first.name
      return first :: (← others (← blanks stream))

/-- Leave out the tokens up to the end of a tag, and report them one by one. -/
def strays : Scan Unit :=
  loop (fun others _ => do
    if !(← sees stream (fun kind => kind.isTagEnd || kind == .endOfText) 0) then
      report stream .invalidToken (← consume stream 0)
      others ()) ()

/-- The name, the attributes and the end of an opening tag. -/
def namedTag (element : Element) : Scan Element := do
  let name ← tagName stream
  let attributes ← attributes stream (← blanks stream)
  strays stream
  let tagEnd ← token stream TokenKind.isTagEnd
  let whole := { element with name := some name, attributes, tagEnd }
  reportWhen stream tagEnd.isNone .nonTerminatedTag whole.tokens
  return whole

/-- An opening tag whose bracket has been read. -/
def openTag (leadingTrivia : List Node) (bracket : List Token) : Scan Element := do
  let element : Element := { leadingTrivia, openBracket := some bracket }
  let _ ← blanks stream
  match ← token stream TokenKind.isTagEnd with
  | some tagEnd =>
    let whole := { element with tagEnd := some tagEnd }
    report stream .missingElementName whole.tokens
    return whole
  | none =>
    if ← sees stream (· == .endOfText) 0 then
      report stream .nonTerminatedTag bracket
      return element
    else namedTag stream element

/-! ## Bodies, elements and documents -/

/-- The tokens up to the closing tag of the element that holds them, given the number of tags that
have been opened within it. -/
def rawContents : Nat → Scan (List Token) :=
  loop fun others nesting => do
    let next ← peek stream 0
    if next.kind = .endOfText || (next.kind = .openSlash && nesting = 0) then return []
    else
      let behind ← peek stream 1
      let first ← consume stream 0
      return first ++ (← others (nestingBehind nesting next [behind]))

/-- The closing tag of an element. Where it is missing, the whole element is reported. -/
def closeElement (element : Element) : Scan Element := do
  let closingTag ← closingTag stream
  let whole := { element with closingTag }
  reportWhen stream closingTag.isNone .nonTerminatedElement whole.tokens
  return whole

/-- The body of an element at the greatest depth: raw tokens. -/
def rawBody (element : Element) : Scan Element := do
  report stream .nestingTooDeep element.tokens
  let contents ← rawContents stream 0
  closeElement stream
    { element with children := contentNode (contents.map fun token => .single [token]) }

/-- The text of an element without children. -/
def textBody (element : Element) : Scan Element := do
  let contents ← content stream elementValueEnds
  closeElement stream { element with children := contentNode (contents.getD []) }

/-- Text behind the children of an element, and the closing tag. The text is reported and left out
of the tree. -/
def strayText (element : Element) : Scan Element := do
  let text ← takeRun stream fun kind => kind != .openSlash && kind != .endOfText
  let closingTag ← closingTag stream
  report stream .invalidElementValue text
  return { element with closingTag }

/-- The rest of an element whose children have been read. -/
def elementEnd (element : Element) : Scan Element := do
  if element.children.isEmpty then textBody stream element
  else if ← sees stream (fun kind => kind == .openSlash || kind == .endOfText) 0 then
    closeElement stream element
  else strayText stream element

/-- The body of an element, given how child elements are scanned. They are one level deeper, unless
the element is at the greatest depth. -/
def body (child : Scan (Option Element)) (whole : Element) : Scan Element := do
  if maxDepth ≤ (← get).depth then rawBody stream whole
  else
    modify fun scanner => { scanner with depth := scanner.depth + 1 }
    let children ← many child
    modify fun scanner => { scanner with depth := scanner.depth - 1 }
    elementEnd stream { whole with children := children.map .element }

/-- An element with the trivia in front of it, or trivia that no element follows, given how its
body is scanned. -/
def elementWith (body : Element → Scan Element) : Scan (Option Element) := do
  let _ ← blanks stream
  let leadingTrivia ← trivia stream
  match ← token stream (· == .openAngle) with
  | none => return if leadingTrivia.isEmpty then none else some { leadingTrivia }
  | some bracket =>
    let opened ← openTag stream leadingTrivia bracket
    if hasBody opened then return some (← body opened) else return some opened

/-- An element, whose child elements are scanned like itself. -/
def element : Scan (Option Element) :=
  loop (fun child _ => elementWith stream (body stream (child ()))) ()

/-- A root element and the trivia behind it. Nothing that follows is read. -/
def document : Scan (Option Document) := do
  match ← element stream with
  | none => return none
  | some root => return some { root, trailingTrivia := ← trivia stream }

end Scan

/-- Scan one production, as a node. -/
def Production.scan (stream : TokenStream) : Production → Scan (Option Node)
  | partialSymbol => return (← Scan.partialSymbol stream).map .partialSymbol
  | compoundSymbol => return (← Scan.compoundSymbol stream).map .compoundSymbol
  | namespacedSymbol => return (← Scan.namespacedSymbol stream).map .namespacedSymbol
  | interpolation => return (← Scan.interpolation stream).map .interpolation
  | content terminators => return (← Scan.content stream terminators).map .content
  | .attribute => return (← Scan.namedAttribute stream).map .attribute
  | closingTag => return (← Scan.closingTag stream).map .closingTag
  | comment => return (← Scan.comment stream).map .comment
  | trivia => return some (.trivia (← Scan.trivia stream))
  | element => return (← Scan.element stream).map .element
  | document => return (← Scan.document stream).map .document

end JobMarkup.Grammar
