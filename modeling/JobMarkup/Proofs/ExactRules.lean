import JobMarkup.Grammar.Content
import JobMarkup.Grammar.Trivia
import JobMarkup.Proofs.TreeTokens

/-!
# Rules that keep every token

Symbols, interpolations, content, attributes, comments and trivia keep all the tokens that are read
for them: the tokens of the value followed by the tokens left are the tokens found. That holds for
faulty markup as well. Rules that leave tokens out of the tree, as closing tags and elements do, are
the matter of `JobMarkup.Proofs.Accounting`.
-/

namespace JobMarkup.Grammar

open JobMarkup.Tree

variable {α β : Type}

/-- The rule keeps what it reads: the tokens of its value and the tokens left are all tokens. -/
def Rule.Exact (rule : Rule α) (tokensOf : α → List Token) : Prop :=
  ∀ tokens parsed, rule tokens = some parsed → tokensOf parsed.value ++ parsed.rest = tokens

namespace Rule

/-- A rule keeps its tokens whatever is made of what it reads, if the tokens stay the same. -/
theorem Exact.map {rule : Rule α} {tokensOf : α → List Token} (h : rule.Exact tokensOf)
    (f : α → β) {tokensOf' : β → List Token} (hf : ∀ value, tokensOf' (f value) = tokensOf value) :
    (rule.map f).Exact tokensOf' := by
  intro tokens parsed hparsed
  simp only [Rule.map, Option.map_eq_some_iff] at hparsed
  obtain ⟨read, hread, rfl⟩ := hparsed
  rw [Parsed.map, hf]
  exact h tokens read hread

/-- A choice keeps all tokens if both of its rules do. -/
theorem Exact.orElse {first second : Rule α} {tokensOf : α → List Token}
    (hfirst : first.Exact tokensOf) (hsecond : second.Exact tokensOf) :
    (first.orElse second).Exact tokensOf := by
  intro tokens parsed hparsed
  rw [Rule.orElse] at hparsed
  split at hparsed
  · next read hread => exact hfirst tokens parsed (hread.trans hparsed)
  · exact hsecond tokens parsed hparsed

/-- A slot that may stay open takes its tokens from the front. -/
theorem Exact.optional_slot {rule : Rule (List Token)} (h : rule.Exact id) (tokens : List Token) :
    slotTokens (rule.optional tokens).value ++ (rule.optional tokens).rest = tokens := by
  rw [Rule.optional]
  split
  · next read hread => exact h tokens read hread
  · rfl

/-- Nodes that may be missing take their tokens from the front. -/
theorem Exact.optional_nodes {rule : Rule (List Node)} (h : rule.Exact nodeTokens)
    (tokens : List Token) :
    nodeTokens ((rule.optional tokens).value.getD []) ++ (rule.optional tokens).rest = tokens := by
  rw [Rule.optional]
  split
  · next read hread => exact h tokens read hread
  · simp

/-- A repetition keeps all the tokens of its values, in their order. -/
theorem Exact.many {rule : Rule α} {tokensOf : α → List Token} (h : rule.Exact tokensOf)
    (tokens : List Token) :
    (rule.many tokens).value.flatMap tokensOf ++ (rule.many tokens).rest = tokens := by
  rw [Rule.many]
  generalize tokens.length = bound
  induction bound generalizing tokens with
  | zero => rfl
  | succ bound ih =>
    rw [Rule.atMost]
    split
    · rfl
    · next first hfirst =>
      rw [List.flatMap_cons, List.append_assoc, ih first.rest]
      exact h tokens first hfirst

/-- A single token keeps itself. -/
theorem token_exact (accepts : TokenKind → Bool) : (token accepts).Exact id := by
  intro tokens parsed h
  cases tokens with
  | nil => simp [token] at h
  | cons first rest =>
    simp only [token, Option.ite_none_right_eq_some, Option.some.injEq] at h
    obtain ⟨-, rfl⟩ := h
    rfl

/-- A run of blanks keeps all blanks in it. -/
theorem blanks_exact : blanks.Exact id := by
  intro tokens parsed h
  simp only [blanks, Option.ite_none_left_eq_some, Option.some.injEq] at h
  obtain ⟨-, rfl⟩ := h
  exact List.takeWhile_append_dropWhile

/-- A partial symbol keeps its first token and all that continue it. -/
theorem partialSymbol_exact : partialSymbol.Exact id := by
  intro tokens parsed h
  obtain ⟨token, rest, rfl, -, rfl⟩ := partialSymbol_eq_some h
  exact congrArg (token :: ·) (symbolTail_append rest)

/-- A delimiter and the part behind it keep their tokens, also where the part is missing. -/
theorem delimitedPart_exact (delimiter : TokenKind) (missing : GrammarFault) {part : Rule Node}
    (hpart : part.Exact Node.tokens) : (delimitedPart delimiter missing part).Exact nodeTokens := by
  intro tokens parsed h
  obtain ⟨token, rest, rfl, -, ⟨next, hnext, rfl⟩ | ⟨-, rfl⟩⟩ := delimitedPart_eq_some h
  · simpa using hpart rest next hnext
  · simp

/-- Parts with delimiters between them keep their tokens, also where parts are missing. -/
theorem joined_exact (delimiter : TokenKind) (missing : GrammarFault) {part : Rule Node}
    (hpart : part.Exact Node.tokens) : (joined delimiter missing part).Exact nodeTokens := by
  intro tokens parsed h
  simp only [joined, Option.map_eq_some_iff] at h
  obtain ⟨first, hfirst, rfl⟩ := h
  have hothers := (delimitedPart_exact delimiter missing hpart).many first.rest
  have hread := hpart tokens first hfirst
  rw [nodeTokens_cons, nodeTokens_flatten, List.append_assoc, hothers, hread]

/-- A compound symbol keeps its periods and its parts. -/
theorem compoundSymbol_exact : compoundSymbol.Exact nodeTokens :=
  joined_exact _ _ (partialSymbol_exact.map Node.partialSymbol Node.tokens_partialSymbol)

/-- A namespaced symbol keeps its slashes and its parts. -/
theorem namespacedSymbol_exact : namespacedSymbol.Exact nodeTokens := by
  intro tokens parsed h
  simp only [namespacedSymbol, Option.map_eq_some_iff] at h
  obtain ⟨symbol, hsymbol, rfl⟩ := h
  exact joined_exact _ _ (compoundSymbol_exact.map Node.compoundSymbol Node.tokens_compoundSymbol)
    tokens symbol hsymbol

/-- An interpolation keeps its marks and its symbol, also where one of them is missing. -/
theorem interpolation_exact : interpolation.Exact Interpolation.tokens := by
  intro tokens parsed h
  cases tokens with
  | nil => simp [interpolation] at h
  | cons token rest =>
    simp only [interpolation, Option.ite_none_right_eq_some, Option.some.injEq] at h
    obtain ⟨-, rfl⟩ := h
    have hsymbol := namespacedSymbol_exact.optional_nodes rest
    have hclosing := (token_exact (· == .closeReference)).optional_slot
      (namespacedSymbol.optional rest).rest
    rw [Interpolation.tokens_eq, List.append_assoc, hclosing, List.append_assoc, hsymbol]
    rfl

/-- A piece of content keeps its token or its interpolation. -/
theorem contentPiece_exact (terminators : List TokenKind) :
    (contentPiece terminators).Exact Node.tokens := by
  intro tokens parsed h
  obtain h | ⟨token, rest, rfl, -, -, rfl⟩ := contentPiece_eq_some h
  · exact interpolation_exact.map Node.interpolation Node.tokens_interpolation tokens parsed h
  · simp

/-- Content keeps the tokens of all its pieces. -/
theorem content_exact (terminators : List TokenKind) : (content terminators).Exact nodeTokens := by
  intro tokens parsed h
  simp only [content, Option.ite_none_left_eq_some, Option.some.injEq] at h
  obtain ⟨-, rfl⟩ := h
  rw [nodeTokens_eq_flatMap]
  exact (contentPiece_exact terminators).many tokens

end Rule

/-- The tokens of the value of an attribute join those of its name, equals sign and quote. -/
theorem tokens_attributeValue (name equal openQuote tokens : List Token) :
    (attributeValue { name, equal := some equal, openQuote := some openQuote } tokens).value.tokens
        ++ (attributeValue { name, equal := some equal, openQuote := some openQuote } tokens).rest
      = name ++ equal ++ openQuote ++ tokens := by
  have hcontents := (Rule.content_exact attributeValueEnds).optional_nodes tokens
  have hquote := (Rule.token_exact (· == .quote)).optional_slot
    ((Rule.content attributeValueEnds).optional tokens).rest
  simp only [attributeValue, Attribute.tokens_eq, slotTokens_some]
  rw [List.append_assoc, hquote, List.append_assoc, hcontents]

/-- What follows the equals sign of an attribute keeps its tokens, whether or not a quote opens
there. -/
theorem tokens_quotedValue (name equal tokens : List Token) :
    (quotedValue { name, equal := some equal } tokens).value.tokens
        ++ (quotedValue { name, equal := some equal } tokens).rest
      = name ++ equal ++ tokens := by
  rw [quotedValue]
  split
  · simp [Attribute.tokens_eq]
  · next quote hquote =>
    rw [tokens_attributeValue, List.append_assoc]
    exact congrArg (name ++ equal ++ ·) (Rule.token_exact _ tokens quote hquote)

/-- What follows the name of an attribute keeps its tokens, whether or not an equals sign is there. -/
theorem tokens_attributeAssignment (name tokens : List Token) :
    (attributeAssignment { name } tokens).value.tokens
        ++ (attributeAssignment { name } tokens).rest
      = name ++ tokens := by
  rw [attributeAssignment]
  split
  · simp [Attribute.tokens_eq]
  · next sign hsign =>
    rw [tokens_quotedValue, List.append_assoc]
    exact congrArg (name ++ ·) (Rule.token_exact _ tokens sign hsign)

namespace Rule

/-- An attribute keeps all its tokens, whatever is missing of it. -/
theorem attribute_exact : Rule.attribute.Exact Attribute.tokens := by
  intro tokens parsed h
  simp only [Rule.attribute, Option.map_eq_some_iff] at h
  obtain ⟨name, hname, rfl⟩ := h
  exact (tokens_attributeAssignment name.value name.rest).trans
    (partialSymbol_exact tokens name hname)

/-- A comment keeps its marks and all that is between them. -/
theorem comment_exact : comment.Exact Comment.tokens := by
  intro tokens parsed h
  match tokens, h with
  | bang :: hyphens :: rest, h =>
    have hrest := commentContents_append rest
    simp only [comment, Option.ite_none_right_eq_some] at h
    obtain ⟨-, h⟩ := h
    split at h
    · next hleft =>
      obtain rfl := Option.some.inj h
      rw [List.isEmpty_iff.mp hleft] at hrest
      simpa [Comment.tokens] using hrest
    · obtain rfl := Option.some.inj h
      simpa [Comment.tokens] using hrest

/-- A comment or a run of blanks keeps all its tokens. -/
theorem trivium_exact : trivium.Exact Node.tokens :=
  (comment_exact.map Node.comment Node.tokens_comment).orElse
    (blanks_exact.map Node.single Node.tokens_single)

end Rule

/-- Trivia keep all their tokens. -/
theorem tokens_trivia (tokens : List Token) :
    nodeTokens (trivia tokens).value ++ (trivia tokens).rest = tokens := by
  rw [nodeTokens_eq_flatMap]
  exact Rule.trivium_exact.many tokens

end JobMarkup.Grammar
