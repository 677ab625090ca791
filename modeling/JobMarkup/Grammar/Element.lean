import JobMarkup.Grammar.Content
import JobMarkup.Grammar.Trivia

/-!
# Rules for elements and documents

An element is a tag that closes itself, or an opening tag, a body and a closing tag. The body holds
child elements or content. Trees go `maxDepth` levels deep: the body of an element at that depth is
taken as raw tokens up to its closing tag, and tags within are counted and not read.

Blanks in front of an element are left out of the tree, and comments stay in it. Comments that no
tag follows are an element of their own.
-/

namespace JobMarkup.Grammar

open JobMarkup.Tree

/-- The depth at which elements no longer hold elements, where the root has depth 0. -/
def maxDepth : Nat := 256

/-- The token is part of the name of a tag. -/
def isTagName (token : Token) : Bool := !token.isBlank && !token.isTagEnd

/-- The tokens up to the next blank or tag end, which should be one run of letters. -/
def tagName (tokens : List Token) : Parsed (List Token) :=
  let name := tokens.takeWhile isTagName
  ⟨name, tokens.dropWhile isTagName,
    reportIf (name.map Token.kind != [.letters]) .invalidElementName name⟩

/-- An attribute with the blanks in front of it, which are reported if there are none. -/
def Rule.spacedAttribute : Rule Attribute := fun tokens =>
  (Rule.attribute (skipBlanks tokens)).map fun parsed => { parsed with
    reports := parsed.reports
      ++ reportIf (!tokens.head?.any Token.isBlank) .missingAttributeSpacing parsed.value.name }

/-- An attribute takes its name behind whatever blanks there are, so the attributes of a tag can be
repeated. -/
theorem Rule.spacedAttribute_consumes : Rule.spacedAttribute.Consumes := by
  intro tokens parsed h
  simp only [Rule.spacedAttribute, Option.map_eq_some_iff] at h
  obtain ⟨read, hread, rfl⟩ := h
  obtain ⟨hsuffix, hlt⟩ := Rule.attribute_consumes (skipBlanks tokens) read hread
  have hblanks := skipBlanks_suffix tokens
  exact ⟨hsuffix.trans hblanks, Nat.lt_of_lt_of_le hlt hblanks.length_le⟩

/-- The name, the attributes and the end of an opening tag. Tokens behind the attributes that do
not end the tag are reported one by one and left out of the tree. -/
def namedTag (element : Element) (tokens : List Token) : Parsed Element :=
  let name := tagName tokens
  let attributes := Rule.spacedAttribute.many name.rest
  let behind := skipBlanks attributes.rest
  let strays := behind.takeWhile (fun token => !token.isTagEnd)
  let tagEnd := (Rule.token TokenKind.isTagEnd).optional
    (behind.dropWhile (fun token => !token.isTagEnd))
  let whole := { element with
    name := some name.value, attributes := attributes.value, tagEnd := tagEnd.value }
  ⟨whole, tagEnd.rest, name.reports ++ attributes.reports
    ++ strays.map (fun stray => ⟨.invalidToken, [stray]⟩)
    ++ reportIf tagEnd.value.isNone .nonTerminatedTag whole.tokens⟩

/-- An opening tag whose bracket has been read. -/
def openTag (leadingTrivia : List Node) (bracket : List Token) (tokens : List Token) :
    Parsed Element :=
  let element : Element := { leadingTrivia, openBracket := some bracket }
  match skipBlanks tokens with
  | [] => ⟨element, [], [⟨.nonTerminatedTag, bracket⟩]⟩
  | token :: rest =>
    if token.isTagEnd then
      let whole := { element with tagEnd := some [token] }
      ⟨whole, rest, [⟨.missingElementName, whole.tokens⟩]⟩
    else namedTag element (token :: rest)

/-- The opening tag has a name and does not close itself, so a body follows. -/
def hasBody (element : Element) : Bool :=
  element.name.isSome && element.tagEndKind == some .closeAngle

/-- An element whose bracket has been read and whose body, if it has one, is read by the given
function. -/
def taggedElement (body : Element → List Token → Parsed Element) (leadingTrivia : List Node)
    (bracket tokens : List Token) : Parsed Element :=
  let opened := openTag leadingTrivia bracket tokens
  if hasBody opened.value then
    let filled := body opened.value opened.rest
    ⟨filled.value, filled.rest, opened.reports ++ filled.reports⟩
  else opened

/-- An element whose body, if it has one, is read by the given function. -/
def Rule.elementWith (body : Element → List Token → Parsed Element) : Rule Element := fun tokens =>
  let leading := trivia (skipBlanks tokens)
  match Rule.token (· == .openAngle) leading.rest with
  | some bracket =>
    let tagged := taggedElement body leading.value bracket.value bracket.rest
    some ⟨tagged.value, tagged.rest, leading.reports ++ tagged.reports⟩
  | none =>
    if leading.value.isEmpty then none
    else some ⟨{ leadingTrivia := leading.value }, leading.rest, leading.reports⟩

/-- The rest of a tag, from its name on, leaves an end of the tokens. -/
theorem namedTag_suffix (element : Element) (tokens : List Token) :
    (namedTag element tokens).rest <:+ tokens :=
  ((Rule.token_consumes _).suffix_optional _).trans <| (List.dropWhile_suffix _).trans <|
    (skipBlanks_suffix _).trans <| (Rule.spacedAttribute_consumes.suffix_many _).trans
      (List.dropWhile_suffix _)

/-- An opening tag leaves an end of the tokens, with a name or without one. -/
theorem openTag_suffix (leadingTrivia : List Node) (bracket tokens : List Token) :
    (openTag leadingTrivia bracket tokens).rest <:+ tokens := by
  have hblanks := skipBlanks_suffix tokens
  rw [openTag]
  split
  · exact List.nil_suffix
  · next token rest h =>
    rw [h] at hblanks
    split
    · exact (List.suffix_cons token rest).trans hblanks
    · exact (namedTag_suffix _ _).trans hblanks

/-- An element whose bracket has been read leaves an end of the tokens if its body does. -/
theorem taggedElement_suffix {body : Element → List Token → Parsed Element}
    (hbody : ∀ element tokens, (body element tokens).rest <:+ tokens)
    (leadingTrivia : List Node) (bracket tokens : List Token) :
    (taggedElement body leadingTrivia bracket tokens).rest <:+ tokens := by
  have hopen := openTag_suffix leadingTrivia bracket tokens
  rw [taggedElement]
  split
  · exact (hbody _ _).trans hopen
  · exact hopen

/-- An element consumes its bracket or its trivia, if its body leaves an end of the tokens. -/
theorem Rule.elementWith_consumes {body : Element → List Token → Parsed Element}
    (hbody : ∀ element tokens, (body element tokens).rest <:+ tokens) :
    (Rule.elementWith body).Consumes := by
  intro tokens parsed h
  have hblanks := skipBlanks_suffix tokens
  have hleading := trivia_suffix (skipBlanks tokens)
  rw [Rule.elementWith] at h
  split at h
  · next bracket hbracket =>
    obtain rfl := Option.some.inj h
    obtain ⟨hsuffix, hlt⟩ := Rule.token_consumes _ _ bracket hbracket
    have htagged := taggedElement_suffix hbody (trivia (skipBlanks tokens)).value bracket.value
      bracket.rest
    exact ⟨htagged.trans (hsuffix.trans (hleading.trans hblanks)),
      Nat.lt_of_le_of_lt htagged.length_le
        (Nat.lt_of_lt_of_le hlt (hleading.trans hblanks).length_le)⟩
  · simp only [Option.ite_none_left_eq_some, Option.some.injEq] at h
    obtain ⟨hsome, rfl⟩ := h
    have hlt := Rule.trivium_consumes.length_rest_many (mt List.isEmpty_iff.mpr hsome)
    exact ⟨hleading.trans hblanks, Nat.lt_of_lt_of_le hlt hblanks.length_le⟩

/-- The number of open tags behind a token, given the number in front of it. A bracket opens a tag
only if a name directly follows. -/
def nestingBehind (nesting : Nat) (token : Token) (rest : List Token) : Nat :=
  match token.kind with
  | .openSlash | .slashClose => nesting - 1
  | .openAngle => if rest.head?.map Token.kind = some .letters then nesting + 1 else nesting
  | _ => nesting

/-- Cut in front of the closing tag of the element that holds the tokens, given the number of tags
that have been opened within it. -/
def rawContents : (nesting : Nat) → List Token → List Token × List Token
  | _, [] => ([], [])
  | nesting, token :: rest =>
    if token.kind = .openSlash ∧ nesting = 0 then ([], token :: rest)
    else
      let (contents, left) := rawContents (nestingBehind nesting token rest) rest
      (token :: contents, left)

/-- The content node that holds the nodes, if there are any. -/
def contentNode (nodes : List Node) : List Node := if nodes.isEmpty then [] else [.content nodes]

/-- The closing tag of an element. Where it is missing, the whole element is reported. -/
def closeElement (element : Element) (tokens : List Token) : Parsed Element :=
  let closing := Rule.closingTag.optional tokens
  let whole := { element with closingTag := closing.value }
  ⟨whole, closing.rest, closing.reports
    ++ reportIf closing.value.isNone .nonTerminatedElement whole.tokens⟩

/-- The body of an element at the greatest depth: raw tokens. -/
def rawBody (element : Element) (tokens : List Token) : Parsed Element :=
  let (contents, left) := rawContents 0 tokens
  let closed := closeElement
    { element with children := contentNode (contents.map fun token => .single [token]) } left
  ⟨closed.value, closed.rest, ⟨.nestingTooDeep, element.tokens⟩ :: closed.reports⟩

/-- The text of an element without children. -/
def textBody (element : Element) (tokens : List Token) : Parsed Element :=
  let contents := (Rule.content elementValueEnds).optional tokens
  let closed := closeElement
    { element with children := contentNode (contents.value.getD []) } contents.rest
  ⟨closed.value, closed.rest, contents.reports ++ closed.reports⟩

/-- Text behind the children of an element, and the closing tag. The text is reported and left out
of the tree. -/
def strayText (element : Element) (tokens : List Token) : Parsed Element :=
  let isText := fun token : Token => token.kind != .openSlash
  let closing := Rule.closingTag.optional (tokens.dropWhile isText)
  ⟨{ element with closingTag := closing.value }, closing.rest,
    closing.reports ++ [⟨.invalidElementValue, tokens.takeWhile isText⟩]⟩

/-- The rest of an element whose children have been read: text if there are no children, and the
closing tag. -/
def elementEnd (element : Element) (tokens : List Token) : Parsed Element :=
  if element.children.isEmpty then textBody element tokens
  else if tokens.head?.all (fun token => token.kind == .openSlash) then closeElement element tokens
  else strayText element tokens

/-- The body of an element: children read by the given rule or text, and a closing tag. -/
def nestedBody (child : Rule Element) (element : Element) (tokens : List Token) :
    Parsed Element :=
  let children := child.many tokens
  let whole := elementEnd { element with children := children.value.map .element }
    (skipBlanks children.rest)
  ⟨whole.value, whole.rest, children.reports ++ whole.reports⟩

/-- An element that may hold elements down to the given number of levels below it. -/
def Rule.element : (levels : Nat) → Rule Element
  | 0 => Rule.elementWith rawBody
  | levels + 1 => Rule.elementWith (nestedBody (Rule.element levels))

/-- A root element and the trivia behind it. Nothing that follows is read. -/
def Rule.document : Rule Document := fun tokens =>
  (Rule.element maxDepth tokens).map fun root =>
    let trailing := trivia root.rest
    ⟨{ root := root.value, trailingTrivia := trailing.value }, trailing.rest,
      root.reports ++ trailing.reports⟩

/-- Raw contents and the tokens that they stop at are all tokens. -/
theorem rawContents_append (nesting : Nat) (tokens : List Token) :
    (rawContents nesting tokens).1 ++ (rawContents nesting tokens).2 = tokens := by
  induction tokens generalizing nesting with
  | nil => rfl
  | cons token rest ih =>
    rw [rawContents]
    split
    · rfl
    · simp [ih]

/-- The closing of an element leaves an end of the tokens, also where the closing tag is missing. -/
theorem closeElement_suffix (element : Element) (tokens : List Token) :
    (closeElement element tokens).rest <:+ tokens :=
  Rule.closingTag_consumes.suffix_optional tokens

/-- A raw body leaves an end of the tokens. -/
theorem rawBody_suffix (element : Element) (tokens : List Token) :
    (rawBody element tokens).rest <:+ tokens :=
  (Rule.closingTag_consumes.suffix_optional _).trans ⟨_, rawContents_append 0 tokens⟩

/-- A body with text leaves an end of the tokens. -/
theorem textBody_suffix (element : Element) (tokens : List Token) :
    (textBody element tokens).rest <:+ tokens :=
  (Rule.closingTag_consumes.suffix_optional _).trans
    ((Rule.content_consumes _).suffix_optional tokens)

/-- Text behind children is passed over up to an end of the tokens. -/
theorem strayText_suffix (element : Element) (tokens : List Token) :
    (strayText element tokens).rest <:+ tokens :=
  (Rule.closingTag_consumes.suffix_optional _).trans (List.dropWhile_suffix _)

/-- Whatever closes an element behind its children leaves an end of the tokens. -/
theorem elementEnd_suffix (element : Element) (tokens : List Token) :
    (elementEnd element tokens).rest <:+ tokens := by
  rw [elementEnd]
  split
  · exact textBody_suffix element tokens
  · split
    · exact closeElement_suffix element tokens
    · exact strayText_suffix element tokens

/-- A body leaves an end of the tokens if each child that it holds consumes tokens. -/
theorem nestedBody_suffix {child : Rule Element} (hchild : child.Consumes) (element : Element)
    (tokens : List Token) : (nestedBody child element tokens).rest <:+ tokens :=
  (elementEnd_suffix _ _).trans ((skipBlanks_suffix _).trans (hchild.suffix_many tokens))

/-- An element consumes tokens at every depth, so the children of an element can be repeated. -/
theorem Rule.element_consumes (levels : Nat) : (Rule.element levels).Consumes := by
  induction levels with
  | zero => exact Rule.elementWith_consumes rawBody_suffix
  | succ levels ih => exact Rule.elementWith_consumes (nestedBody_suffix ih)

/-- A document consumes at least what its root does. -/
theorem Rule.document_consumes : Rule.document.Consumes := by
  intro tokens parsed h
  simp only [Rule.document, Option.map_eq_some_iff] at h
  obtain ⟨root, hroot, rfl⟩ := h
  obtain ⟨hsuffix, hlt⟩ := Rule.element_consumes maxDepth tokens root hroot
  have htrailing := trivia_suffix root.rest
  exact ⟨htrailing.trans hsuffix, Nat.lt_of_le_of_lt htrailing.length_le hlt⟩

end JobMarkup.Grammar
