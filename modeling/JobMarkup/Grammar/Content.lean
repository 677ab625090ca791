import JobMarkup.Grammar.Symbol

/-!
# Rules for content and attributes

Content is any tokens up to a terminator, with interpolations among them. It is the value of an
attribute and the text of an element, with terminators of its own in each place.
-/

namespace JobMarkup.Grammar

open JobMarkup.Tree

/-- A single token or an interpolation, declined in front of a terminator. -/
def Rule.contentPiece (terminators : List TokenKind) : Rule Node
  | [] => none
  | token :: rest =>
    if token.kind ∈ terminators then none
    else if token.kind = .openReference then interpolation.map .interpolation (token :: rest)
    else some ⟨.single [token], rest, []⟩

/-- A piece of content is an interpolation, or a token that begins none and does not end the
content. -/
theorem Rule.contentPiece_eq_some {terminators : List TokenKind} {tokens : List Token}
    {parsed : Parsed Node} (h : Rule.contentPiece terminators tokens = some parsed) :
    Rule.interpolation.map .interpolation tokens = some parsed
      ∨ ∃ token rest, tokens = token :: rest ∧ token.kind ∉ terminators
        ∧ token.kind ≠ .openReference ∧ parsed = ⟨.single [token], rest, []⟩ := by
  cases tokens with
  | nil => simp [Rule.contentPiece] at h
  | cons token rest =>
    rw [Rule.contentPiece, Option.ite_none_left_eq_some] at h
    obtain ⟨hends, h⟩ := h
    split at h
    · exact Or.inl h
    · next hreference => exact Or.inr ⟨token, rest, rfl, hends, hreference, (Option.some.inj h).symm⟩

/-- A piece of content takes its token or the opening mark of its interpolation, so content can be
read piece by piece. -/
theorem Rule.contentPiece_consumes (terminators : List TokenKind) :
    (Rule.contentPiece terminators).Consumes := by
  intro tokens parsed h
  obtain h | ⟨token, rest, rfl, -, -, rfl⟩ := Rule.contentPiece_eq_some h
  · exact Rule.interpolation_consumes.map Node.interpolation tokens parsed h
  · exact ⟨List.suffix_cons token rest, Nat.lt_succ_self _⟩

/-- The nodes of content that is not empty. -/
def Rule.content (terminators : List TokenKind) : Rule (List Node) := fun tokens =>
  let pieces := (contentPiece terminators).many tokens
  if pieces.value.isEmpty then none else some pieces

/-- What ends the value of an attribute. -/
def attributeValueEnds : List TokenKind := [.quote, .newline, .unknown, .slashClose, .closeAngle]

/-- What ends the text of an element. -/
def elementValueEnds : List TokenKind := [.openSlash, .unknown]

/-- The value of an attribute whose opening quote has been read. -/
def attributeValue (attr : Attribute) (tokens : List Token) : Parsed Attribute :=
  let contents := (Rule.content attributeValueEnds).optional tokens
  let closeQuote := (Rule.token (· == .quote)).optional contents.rest
  let whole := { attr with contents := contents.value, closeQuote := closeQuote.value }
  ⟨whole, closeQuote.rest, contents.reports
    ++ reportIf closeQuote.value.isNone .nonTerminatedString whole.tokens⟩

/-- The quoted value of an attribute whose equals sign has been read. -/
def quotedValue (attr : Attribute) (tokens : List Token) : Parsed Attribute :=
  match Rule.token (· == .quote) tokens with
  | none => ⟨attr, tokens, [⟨.missingAttributeAssignment, attr.tokens⟩]⟩
  | some quote => attributeValue { attr with openQuote := some quote.value } quote.rest

/-- The equals sign and the value of an attribute whose name has been read. -/
def attributeAssignment (attr : Attribute) (tokens : List Token) : Parsed Attribute :=
  match Rule.token (· == .equal) tokens with
  | none => ⟨attr, tokens, [⟨.missingAttributeAssignment, attr.tokens⟩]⟩
  | some sign => quotedValue { attr with equal := some sign.value } sign.rest

/-- An attribute. -/
def Rule.attribute : Rule Attribute := fun tokens =>
  (partialSymbol tokens).map fun name => attributeAssignment { name := name.value } name.rest

/-- Content that is there has taken at least one token. -/
theorem Rule.content_consumes (terminators : List TokenKind) :
    (Rule.content terminators).Consumes := by
  intro tokens parsed h
  have hpiece := Rule.contentPiece_consumes terminators
  simp only [Rule.content, Option.ite_none_left_eq_some, Option.some.injEq] at h
  obtain ⟨hsome, rfl⟩ := h
  exact ⟨hpiece.suffix_many tokens, hpiece.length_rest_many (mt List.isEmpty_iff.mpr hsome)⟩

/-- An attribute value leaves an end of the tokens, also where its closing quote is missing. -/
theorem attributeValue_suffix (attr : Attribute) (tokens : List Token) :
    (attributeValue attr tokens).rest <:+ tokens :=
  ((Rule.token_consumes _).suffix_optional _).trans
    ((Rule.content_consumes _).suffix_optional tokens)

/-- What follows the equals sign leaves an end of the tokens, whether or not a quote opens there. -/
theorem quotedValue_suffix (attr : Attribute) (tokens : List Token) :
    (quotedValue attr tokens).rest <:+ tokens := by
  rw [quotedValue]
  split
  · exact List.suffix_refl tokens
  · next quote hquote =>
    exact (attributeValue_suffix _ _).trans (Rule.token_consumes _ tokens quote hquote).1

/-- What follows the name of an attribute leaves an end of the tokens, whether or not an equals sign
is there. -/
theorem attributeAssignment_suffix (attr : Attribute) (tokens : List Token) :
    (attributeAssignment attr tokens).rest <:+ tokens := by
  rw [attributeAssignment]
  split
  · exact List.suffix_refl tokens
  · next sign hsign =>
    exact (quotedValue_suffix _ _).trans (Rule.token_consumes _ tokens sign hsign).1

/-- An attribute takes at least its name, so that attributes can be repeated. -/
theorem Rule.attribute_consumes : Rule.attribute.Consumes := by
  intro tokens parsed h
  simp only [Rule.attribute, Option.map_eq_some_iff] at h
  obtain ⟨name, hname, rfl⟩ := h
  have hread := Rule.partialSymbol_consumes tokens name hname
  have hsuffix := attributeAssignment_suffix { name := name.value } name.rest
  exact ⟨hsuffix.trans hread.1, Nat.lt_of_le_of_lt hsuffix.length_le hread.2⟩

end JobMarkup.Grammar
