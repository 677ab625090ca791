import JobMarkup.Proofs.ContentGrammar
import Mathlib.Computability.RegularExpressions

/-!
# The words for symbols

The words of the grammar of symbols are given by regular expressions over token kinds. The values
without reports that the rules for symbols read have exactly these words for tokens.
-/

namespace JobMarkup.Grammar

open JobMarkup.Tree

/-! ## Words -/

/-- The alphanumeric kinds are letters and digits. -/
theorem isAlphanumeric_iff {kind : TokenKind} :
    kind.isAlphanumeric = true ↔ kind = .letters ∨ kind = .digits := by
  cases kind <;> simp [TokenKind.isAlphanumeric]

/-- Words over token kinds. -/
abbrev Word := RegularExpression TokenKind

/-- Letters or digits. -/
def alphanumericWord : Word := .char TokenKind.letters + .char TokenKind.digits

/-- Letters or digits, or a hyphen that they follow. -/
def pieceWord : Word := alphanumericWord + .char TokenKind.hyphen * alphanumericWord

/-- Letters, then any number of letters, digits, and hyphens that letters or digits follow. -/
def partialWord : Word := .char TokenKind.letters * pieceWord.star

/-- Partial symbols with periods between them. -/
def compoundWord : Word := partialWord * (.char TokenKind.period * partialWord).star

/-- At least two compound symbols with slashes between them. -/
def symbolWord : Word :=
  compoundWord * ((.char TokenKind.slash * compoundWord)
    * (.char TokenKind.slash * compoundWord).star)

/-- The kinds of the tokens are a word. -/
def Spells (word : Word) (tokens : List Token) : Prop :=
  tokens.map Token.kind ∈ word.matches'

section Spells

variable {first second word : Word} {kind : TokenKind} {tokens : List Token}

/-- A single kind is spelled by one token of this kind. -/
theorem spells_char :
    Spells (.char kind) tokens ↔ ∃ token, tokens = [token] ∧ token.kind = kind := by
  rw [Spells, RegularExpression.matches'_char]
  exact Set.mem_singleton_iff.trans List.map_eq_singleton_iff

/-- A choice of words is spelled by tokens that spell one of them. -/
theorem spells_add :
    Spells (first + second) tokens ↔ Spells first tokens ∨ Spells second tokens := by
  rw [Spells, RegularExpression.matches'_add, Language.mem_add]
  rfl

/-- Two words in a row are spelled by tokens that can be cut in two, one part for each word. -/
theorem spells_mul :
    Spells (first * second) tokens ↔ ∃ a b, tokens = a ++ b ∧ Spells first a ∧ Spells second b := by
  rw [Spells, RegularExpression.matches'_mul, Language.mem_mul]
  constructor
  · rintro ⟨a, ha, b, hb, heq⟩
    obtain ⟨front, back, rfl, rfl, rfl⟩ := List.map_eq_append_iff.mp heq.symm
    exact ⟨front, back, rfl, ha, hb⟩
  · rintro ⟨a, b, rfl, ha, hb⟩
    exact ⟨_, ha, _, hb, List.map_append.symm⟩

/-- A repeated word is spelled by tokens that can be cut into groups, each of which spells
the word. -/
theorem spells_star :
    Spells word.star tokens
      ↔ ∃ groups : List (List Token), tokens = groups.flatten
        ∧ ∀ group ∈ groups, Spells word group := by
  rw [Spells, RegularExpression.matches'_star, Language.mem_kstar]
  constructor
  · rintro ⟨words, heq, hwords⟩
    induction words generalizing tokens with
    | nil =>
      obtain rfl : tokens = [] := by simpa using heq
      exact ⟨[], rfl, by simp⟩
    | cons first words ih =>
      rw [List.flatten_cons] at heq
      obtain ⟨front, back, rfl, rfl, hback⟩ := List.map_eq_append_iff.mp heq
      obtain ⟨hfirst, hrest⟩ := List.forall_mem_cons.mp hwords
      obtain ⟨groups, rfl, hgroups⟩ := ih hback hrest
      exact ⟨front :: groups, rfl, List.forall_mem_cons.mpr ⟨hfirst, hgroups⟩⟩
  · rintro ⟨groups, rfl, hgroups⟩
    refine ⟨groups.map (List.map Token.kind), List.map_flatten, ?_⟩
    rw [List.forall_mem_map]
    exact hgroups

/-- Letters or digits are spelled by one alphanumeric token. -/
theorem spells_alphanumericWord :
    Spells alphanumericWord tokens
      ↔ ∃ token, tokens = [token] ∧ token.kind.isAlphanumeric = true := by
  simp only [alphanumericWord, spells_add, spells_char, isAlphanumeric_iff, and_or_left, exists_or]

/-- What continues a symbol is one alphanumeric token, with a hyphen in front of it or without. -/
theorem spells_pieceWord :
    Spells pieceWord tokens ↔ ∃ token, token.kind.isAlphanumeric = true
      ∧ (tokens = [token] ∨ ∃ hyphen, hyphen.kind = .hyphen ∧ tokens = [hyphen, token]) := by
  rw [pieceWord, spells_add, spells_mul, spells_alphanumericWord]
  constructor
  · rintro (⟨token, rfl, hkind⟩ | ⟨a, b, rfl, ha, hb⟩)
    · exact ⟨token, hkind, Or.inl rfl⟩
    · obtain ⟨hyphen, rfl, hhyphen⟩ := spells_char.mp ha
      obtain ⟨token, rfl, hkind⟩ := spells_alphanumericWord.mp hb
      exact ⟨token, hkind, Or.inr ⟨hyphen, hhyphen, rfl⟩⟩
  · rintro ⟨token, hkind, rfl | ⟨hyphen, hhyphen, rfl⟩⟩
    · exact Or.inl ⟨token, rfl, hkind⟩
    · exact Or.inr ⟨[hyphen], [token], rfl, spells_char.mpr ⟨hyphen, rfl, hhyphen⟩,
        spells_alphanumericWord.mpr ⟨token, rfl, hkind⟩⟩

/-- Tokens continue a partial symbol exactly if they spell repeated pieces. -/
theorem isSymbolTail_iff : IsSymbolTail tokens ↔ Spells pieceWord.star tokens := by
  rw [spells_star]
  constructor
  · intro h
    -- a hyphen is taken together with what follows it
    generalize hlength : tokens.length = length
    induction length using Nat.strong_induction_on generalizing tokens with
    | _ length ih =>
      cases tokens with
      | nil => exact ⟨[], rfl, by simp⟩
      | cons token rest =>
        obtain ⟨hcontinues, hrest⟩ := h
        rw [List.length_cons] at hlength
        rw [continuesSymbol, Bool.or_eq_true, Bool.and_eq_true, beq_iff_eq] at hcontinues
        rcases hcontinues with hkind | ⟨hhyphen, hnext⟩
        · obtain ⟨groups, rfl, hgroups⟩ := ih rest.length (by omega) hrest rfl
          have hgroup := spells_pieceWord.mpr ⟨token, hkind, Or.inl rfl⟩
          exact ⟨[token] :: groups, rfl, List.forall_mem_cons.mpr ⟨hgroup, hgroups⟩⟩
        · cases rest with
          | nil => simp at hnext
          | cons next rest =>
            rw [List.length_cons] at hlength
            obtain ⟨groups, rfl, hgroups⟩ := ih rest.length (by omega) hrest.2 rfl
            have hgroup := spells_pieceWord.mpr
              ⟨next, by simpa using hnext, Or.inr ⟨token, hhyphen, rfl⟩⟩
            exact ⟨[token, next] :: groups, rfl, List.forall_mem_cons.mpr ⟨hgroup, hgroups⟩⟩
  · rintro ⟨groups, rfl, hgroups⟩
    induction groups with
    | nil => exact trivial
    | cons group groups ih =>
      obtain ⟨hgroup, hothers⟩ := List.forall_mem_cons.mp hgroups
      have htail := ih hothers
      obtain ⟨token, hkind, rfl | ⟨hyphen, hhyphen, rfl⟩⟩ := spells_pieceWord.mp hgroup
      · exact ⟨by simp [continuesSymbol, hkind], htail⟩
      · exact ⟨by simp [continuesSymbol, hkind, hhyphen], by simp [continuesSymbol, hkind], htail⟩

/-- The tokens of a partial symbol are the words for it. -/
theorem isPartialSymbol_iff : IsPartialSymbol tokens ↔ Spells partialWord tokens := by
  rw [partialWord, spells_mul]
  constructor
  · intro h
    cases tokens with
    | nil => exact absurd h id
    | cons token rest =>
      exact ⟨[token], rest, rfl, spells_char.mpr ⟨token, rfl, h.1⟩, isSymbolTail_iff.mp h.2⟩
  · rintro ⟨a, b, rfl, ha, hb⟩
    obtain ⟨token, rfl, hkind⟩ := spells_char.mp ha
    exact ⟨hkind, isSymbolTail_iff.mpr hb⟩

/-- The tokens of a delimiter and a part are a word for the delimiter and one for the part. -/
theorem exists_isDelimited_iff {delimiter : TokenKind} {isPart : Node → Prop}
    (hpart : ∀ part, (∃ node, isPart node ∧ node.tokens = part) ↔ Spells word part) :
    (∃ group, IsDelimited delimiter isPart group ∧ nodeTokens group = tokens)
      ↔ Spells (.char delimiter * word) tokens := by
  rw [spells_mul]
  constructor
  · rintro ⟨_, ⟨token, node, rfl, hkind, hnode⟩, rfl⟩
    exact ⟨[token], node.tokens, by simp, spells_char.mpr ⟨token, rfl, hkind⟩,
      (hpart _).mp ⟨node, hnode, rfl⟩⟩
  · rintro ⟨a, b, rfl, ha, hb⟩
    obtain ⟨token, rfl, hkind⟩ := spells_char.mp ha
    obtain ⟨node, hnode, rfl⟩ := (hpart b).mpr hb
    exact ⟨_, ⟨token, node, rfl, hkind, hnode⟩, by simp⟩

/-- If the words of a part are those of its nodes, then words with delimiters in front are those of
delimited nodes. -/
theorem exists_groups {delimiter : TokenKind} {isPart : Node → Prop}
    (hpart : ∀ part, (∃ node, isPart node ∧ node.tokens = part) ↔ Spells word part)
    {words : List (List Token)} (hwords : ∀ group ∈ words, Spells (.char delimiter * word) group) :
    ∃ groups : List (List Node), (∀ group ∈ groups, IsDelimited delimiter isPart group)
      ∧ nodeTokens groups.flatten = words.flatten := by
  induction words with
  | nil => exact ⟨[], by simp, rfl⟩
  | cons first words ih =>
    obtain ⟨hfirst, hothers⟩ := List.forall_mem_cons.mp hwords
    obtain ⟨group, hgroup, rfl⟩ := (exists_isDelimited_iff hpart).mpr hfirst
    obtain ⟨groups, hgroups, htokens⟩ := ih hothers
    refine ⟨group :: groups, List.forall_mem_cons.mpr ⟨hgroup, hgroups⟩, ?_⟩
    rw [List.flatten_cons, nodeTokens_append, htokens, List.flatten_cons]

/-- The tokens of parts with delimiters between them are the words for them. -/
theorem exists_isJoined_iff {delimiter : TokenKind} {isPart : Node → Prop}
    (hpart : ∀ part, (∃ node, isPart node ∧ node.tokens = part) ↔ Spells word part) :
    (∃ nodes, IsJoined delimiter isPart nodes ∧ nodeTokens nodes = tokens)
      ↔ Spells (word * (.char delimiter * word).star) tokens := by
  rw [spells_mul]
  constructor
  · rintro ⟨nodes, hnodes, rfl⟩
    obtain ⟨first, groups, rfl, hfirst, hgroups⟩ := hnodes.exists_groups
    refine ⟨first.tokens, nodeTokens groups.flatten, nodeTokens_cons _ _,
      (hpart _).mp ⟨first, hfirst, rfl⟩, spells_star.mpr ⟨groups.map nodeTokens, ?_, ?_⟩⟩
    · rw [nodeTokens_flatten, List.flatMap_def]
    · rw [List.forall_mem_map]
      exact fun group hmem => (exists_isDelimited_iff hpart).mp ⟨group, hgroups group hmem, rfl⟩
  · rintro ⟨a, b, rfl, ha, hb⟩
    obtain ⟨first, hfirst, rfl⟩ := (hpart a).mpr ha
    obtain ⟨words, rfl, hwords⟩ := spells_star.mp hb
    obtain ⟨groups, hgroups, htokens⟩ := exists_groups hpart hwords
    exact ⟨_, isJoined_flatten hfirst hgroups, by rw [nodeTokens_cons, htokens]⟩

/-- The tokens of several parts are the words with at least one delimiter. -/
theorem exists_isJoined_iff_of_several {delimiter : TokenKind} {isPart : Node → Prop}
    (hpart : ∀ part, (∃ node, isPart node ∧ node.tokens = part) ↔ Spells word part) :
    (∃ nodes, (IsJoined delimiter isPart nodes ∧ nodes.length ≠ 1) ∧ nodeTokens nodes = tokens)
      ↔ Spells (word * ((.char delimiter * word) * (.char delimiter * word).star)) tokens := by
  rw [spells_mul]
  constructor
  · rintro ⟨nodes, ⟨hnodes, hlength⟩, rfl⟩
    cases hnodes with
    | one _ => exact absurd rfl hlength
    | @more first token rest hfirst hkind hrest =>
      have hrest := (exists_isJoined_iff hpart).mp ⟨rest, hrest, rfl⟩
      obtain ⟨a, b, heq, ha, hb⟩ := spells_mul.mp hrest
      refine ⟨first.tokens, token :: nodeTokens rest, by simp, (hpart _).mp ⟨first, hfirst, rfl⟩,
        spells_mul.mpr ⟨token :: a, b, by rw [heq, List.cons_append], ?_, hb⟩⟩
      exact spells_mul.mpr ⟨[token], a, rfl, spells_char.mpr ⟨token, rfl, hkind⟩, ha⟩
  · rintro ⟨a, b, rfl, ha, hb⟩
    obtain ⟨first, hfirst, rfl⟩ := (hpart a).mpr ha
    obtain ⟨c, d, rfl, hc, hd⟩ := spells_mul.mp hb
    obtain ⟨mark, e, rfl, hmark, he⟩ := spells_mul.mp hc
    obtain ⟨token, rfl, hkind⟩ := spells_char.mp hmark
    obtain ⟨rest, hrest, htokens⟩ :=
      (exists_isJoined_iff hpart).mpr (spells_mul.mpr ⟨e, d, rfl, he, hd⟩)
    exact ⟨_, ⟨.more hfirst hkind hrest, by simp⟩, by simp [htokens]⟩

end Spells

/-! ## Symbols without reports -/

/-- The tokens of partial symbols are the words for them. -/
theorem exists_isPartialNode_iff (part : List Token) :
    (∃ node, IsPartialNode node ∧ node.tokens = part) ↔ Spells partialWord part := by
  rw [← isPartialSymbol_iff]
  constructor
  · rintro ⟨_, ⟨tokens, rfl, htokens⟩, rfl⟩
    exact htokens
  · exact fun h => ⟨.partialSymbol part, ⟨part, rfl, h⟩, rfl⟩

/-- The tokens of compound symbols are the words for them. -/
theorem exists_isCompoundNode_iff (part : List Token) :
    (∃ node, IsCompoundNode node ∧ node.tokens = part) ↔ Spells compoundWord part := by
  rw [compoundWord, ← exists_isJoined_iff exists_isPartialNode_iff]
  constructor
  · rintro ⟨_, ⟨nodes, rfl, hnodes⟩, rfl⟩
    exact ⟨nodes, hnodes, rfl⟩
  · rintro ⟨nodes, hnodes, rfl⟩
    exact ⟨.compoundSymbol nodes, ⟨nodes, rfl, hnodes⟩, rfl⟩

/-- The tokens of symbols without reports are the words for them. -/
theorem exists_isNamespacedSymbol_iff (tokens : List Token) :
    (∃ nodes, IsNamespacedSymbol nodes ∧ nodeTokens nodes = tokens) ↔ Spells symbolWord tokens :=
  exists_isJoined_iff_of_several exists_isCompoundNode_iff

end JobMarkup.Grammar
