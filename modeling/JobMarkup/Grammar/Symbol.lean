import JobMarkup.Grammar.Rule
import JobMarkup.Tree.Tokens

/-!
# Rules for symbols

A partial symbol is a run of letters followed by further letters, digits, and hyphens that letters
or digits follow. Periods join partial symbols to a compound symbol, and slashes join compound
symbols to a namespaced symbol. An interpolation is a namespaced symbol between `@{` and `}@`.
-/

namespace JobMarkup.Grammar

open JobMarkup.Tree

/-- The token belongs to the symbol in front of it, given the tokens behind it. -/
def continuesSymbol (token : Token) (rest : List Token) : Bool :=
  token.kind.isAlphanumeric ||
    (token.kind == .hyphen && rest.head?.any (fun next => next.kind.isAlphanumeric))

/-- Cut behind the last token that belongs to a partial symbol that has begun. -/
def symbolTail : List Token → List Token × List Token
  | [] => ([], [])
  | token :: rest =>
    if continuesSymbol token rest then
      let (tail, left) := symbolTail rest
      (token :: tail, left)
    else ([], token :: rest)

/-- What continues a partial symbol and the tokens behind it are all tokens. -/
theorem symbolTail_append (tokens : List Token) :
    (symbolTail tokens).1 ++ (symbolTail tokens).2 = tokens := by
  induction tokens with
  | nil => rfl
  | cons token rest ih =>
    rw [symbolTail]
    split
    · simp [ih]
    · rfl

/-- A partial symbol. -/
def Rule.partialSymbol : Rule (List Token)
  | [] => none
  | token :: rest =>
    if token.kind = .letters then
      let (tail, left) := symbolTail rest
      some ⟨token :: tail, left, []⟩
    else none

/-- A delimiter and the part behind it, which is reported if it is missing. -/
def Rule.delimitedPart (delimiter : TokenKind) (missing : GrammarFault) (part : Rule Node) :
    Rule (List Node)
  | [] => none
  | token :: rest =>
    if token.kind = delimiter then
      match part rest with
      | some next => some ⟨[.single [token], next.value], next.rest, next.reports⟩
      | none => some ⟨[.single [token]], rest, [⟨missing, [token]⟩]⟩
    else none

/-- Parts with delimiters between them. -/
def Rule.joined (delimiter : TokenKind) (missing : GrammarFault) (part : Rule Node) :
    Rule (List Node) := fun tokens =>
  (part tokens).map fun first =>
    let others := (delimitedPart delimiter missing part).many first.rest
    ⟨first.value :: others.value.flatten, others.rest, first.reports ++ others.reports⟩

/-- The nodes of a compound symbol. -/
def Rule.compoundSymbol : Rule (List Node) :=
  joined .period .incompleteCompoundSymbol (partialSymbol.map .partialSymbol)

/-- The nodes of a namespaced symbol. A symbol without any slash is reported. -/
def Rule.namespacedSymbol : Rule (List Node) := fun tokens =>
  (joined .slash .incompleteNamespacedSymbol (compoundSymbol.map .compoundSymbol) tokens).map
    fun symbol => { symbol with
      reports := symbol.reports
        ++ reportIf (symbol.value.length == 1) .missingNamespace (nodeTokens symbol.value) }

/-- An interpolation. Where its symbol or its closing mark is missing, the whole is reported. -/
def Rule.interpolation : Rule Interpolation
  | [] => none
  | token :: rest =>
    if token.kind = .openReference then
      let symbol := namespacedSymbol.optional rest
      let closing := (Rule.token (· == .closeReference)).optional symbol.rest
      let whole : Interpolation := ⟨[token], symbol.value, closing.value⟩
      some ⟨whole, closing.rest, symbol.reports
        ++ reportIf (!whole.isTerminated) .nonTerminatedInterpolation whole.tokens⟩
    else none

/-- A partial symbol is read at letters, and nothing is reported. -/
theorem Rule.partialSymbol_eq_some {tokens : List Token} {parsed : Parsed (List Token)}
    (h : Rule.partialSymbol tokens = some parsed) :
    ∃ token rest, tokens = token :: rest ∧ token.kind = .letters
      ∧ parsed = ⟨token :: (symbolTail rest).1, (symbolTail rest).2, []⟩ := by
  cases tokens with
  | nil => simp [Rule.partialSymbol] at h
  | cons token rest =>
    simp only [Rule.partialSymbol, Option.ite_none_right_eq_some, Option.some.injEq] at h
    exact ⟨token, rest, rfl, h.1, h.2.symm⟩

/-- A partial symbol has nothing to report, whatever follows it. -/
theorem Rule.reports_partialSymbol {tokens : List Token} {parsed : Parsed (List Token)}
    (h : Rule.partialSymbol tokens = some parsed) : parsed.reports = [] := by
  obtain ⟨token, rest, -, -, rfl⟩ := Rule.partialSymbol_eq_some h
  rfl

/-- At its delimiter, a delimited part is read or reported as missing. -/
theorem Rule.delimitedPart_eq_some {delimiter : TokenKind} {missing : GrammarFault}
    {part : Rule Node} {tokens : List Token} {parsed : Parsed (List Node)}
    (h : Rule.delimitedPart delimiter missing part tokens = some parsed) :
    ∃ token rest, tokens = token :: rest ∧ token.kind = delimiter
      ∧ ((∃ next, part rest = some next
          ∧ parsed = ⟨[.single [token], next.value], next.rest, next.reports⟩)
        ∨ part rest = none ∧ parsed = ⟨[.single [token]], rest, [⟨missing, [token]⟩]⟩) := by
  cases tokens with
  | nil => simp [Rule.delimitedPart] at h
  | cons token rest =>
    rw [Rule.delimitedPart, Option.ite_none_right_eq_some] at h
    obtain ⟨hkind, h⟩ := h
    refine ⟨token, rest, rfl, hkind, ?_⟩
    split at h
    · next next hnext => exact Or.inl ⟨next, hnext, (Option.some.inj h).symm⟩
    · next hnone => exact Or.inr ⟨hnone, (Option.some.inj h).symm⟩

/-- A partial symbol consumes at least the letters with which it begins. -/
theorem Rule.partialSymbol_consumes : Rule.partialSymbol.Consumes := by
  intro tokens parsed h
  obtain ⟨token, rest, rfl, -, rfl⟩ := Rule.partialSymbol_eq_some h
  have hsuffix : (symbolTail rest).2 <:+ rest := ⟨_, symbolTail_append rest⟩
  exact ⟨hsuffix.trans (List.suffix_cons token rest), Nat.lt_succ_of_le hsuffix.length_le⟩

/-- A delimiter with the part behind it consumes at least the delimiter. -/
theorem Rule.delimitedPart_consumes (delimiter : TokenKind) (missing : GrammarFault)
    {part : Rule Node} (hpart : part.Consumes) :
    (Rule.delimitedPart delimiter missing part).Consumes := by
  intro tokens parsed h
  obtain ⟨token, rest, rfl, -, hread⟩ := Rule.delimitedPart_eq_some h
  have hsuffix : parsed.rest <:+ rest := by
    obtain ⟨next, hnext, rfl⟩ | ⟨-, rfl⟩ := hread
    · exact (hpart rest next hnext).1
    · exact List.suffix_refl rest
  exact ⟨hsuffix.trans (List.suffix_cons token rest), Nat.lt_succ_of_le hsuffix.length_le⟩

/-- Parts with delimiters between them consume at least the first part. -/
theorem Rule.joined_consumes (delimiter : TokenKind) (missing : GrammarFault) {part : Rule Node}
    (hpart : part.Consumes) : (Rule.joined delimiter missing part).Consumes := by
  intro tokens parsed h
  simp only [Rule.joined, Option.map_eq_some_iff] at h
  obtain ⟨first, hfirst, rfl⟩ := h
  have hmany := (Rule.delimitedPart_consumes delimiter missing hpart).suffix_many first.rest
  have hread := hpart tokens first hfirst
  exact ⟨hmany.trans hread.1, Nat.lt_of_le_of_lt hmany.length_le hread.2⟩

/-- A compound symbol consumes its first partial symbol. -/
theorem Rule.compoundSymbol_consumes : Rule.compoundSymbol.Consumes :=
  Rule.joined_consumes _ _ (Rule.partialSymbol_consumes.map Node.partialSymbol)

/-- A namespaced symbol consumes its first compound symbol, and the report on a missing slash takes
no tokens. -/
theorem Rule.namespacedSymbol_consumes : Rule.namespacedSymbol.Consumes := by
  intro tokens parsed h
  simp only [Rule.namespacedSymbol, Option.map_eq_some_iff] at h
  obtain ⟨symbol, hsymbol, rfl⟩ := h
  exact Rule.joined_consumes _ _ (Rule.compoundSymbol_consumes.map Node.compoundSymbol) tokens
    symbol hsymbol

/-- An interpolation consumes at least its opening mark. -/
theorem Rule.interpolation_consumes : Rule.interpolation.Consumes := by
  intro tokens parsed h
  cases tokens with
  | nil => simp [Rule.interpolation] at h
  | cons token rest =>
    simp only [Rule.interpolation, Option.ite_none_right_eq_some, Option.some.injEq] at h
    obtain ⟨-, rfl⟩ := h
    have hsuffix := ((Rule.token_consumes (· == .closeReference)).suffix_optional
      (Rule.namespacedSymbol.optional rest).rest).trans
        (Rule.namespacedSymbol_consumes.suffix_optional rest)
    exact ⟨hsuffix.trans (List.suffix_cons token rest), Nat.lt_succ_of_le hsuffix.length_le⟩

end JobMarkup.Grammar
