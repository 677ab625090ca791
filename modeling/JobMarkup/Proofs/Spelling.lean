import JobMarkup.Proofs.Meaning
import JobMarkup.Template.Pieces

/-!
# How values are spelled

Whether tokens are a value, and which pieces the value has, depends on the kinds and the characters
of the tokens and not on their places. So a value of one text is spelled by lexemes, and wherever
the same lexemes stand in a text one behind the other, the same pieces are read and bound.
-/

namespace JobMarkup.Template

open JobMarkup.Tree JobMarkup.Grammar JobMarkup.Variable

/-- The text of lexemes in a row. -/
def textOf (lexemes : List Lexeme) : String := String.ofList (lexemes.flatMap Lexeme.chars)

/-- The text of tokens is that of their lexemes, so it is the same elsewhere. -/
theorem wording_eq_textOf (text : SourceText) (tokens : List Token) :
    text.wording tokens = textOf (tokens.map (Token.lexeme text)) := by
  rw [SourceText.wording, textOf, text.charsOf_eq_flatMap_lexeme]

/-- The lexemes of some characters have these characters for their text. -/
theorem textOf_ofChars (cs : List Char) : textOf (Lexeme.ofChars cs) = String.ofList cs := by
  rw [textOf, Lexeme.flatMap_chars_ofChars]

/-! ## Symbols -/

/-- A lexeme of the given kind belongs to the symbol in front of it, given the lexemes behind it. -/
def continues (kind : TokenKind) (rest : List Lexeme) : Bool :=
  kind.isAlphanumeric
    || (kind == .hyphen && rest.head?.any (fun next => next.kind.isAlphanumeric))

/-- Lexemes all of which belong to a partial symbol that has begun in front of them. -/
def SpellsTail : List Lexeme → Prop
  | [] => True
  | lexeme :: rest => continues lexeme.kind rest = true ∧ SpellsTail rest

/-- The lexemes of a partial symbol. -/
def SpellsPartial : List Lexeme → Prop
  | [] => False
  | lexeme :: rest => lexeme.kind = .letters ∧ SpellsTail rest

/-- The lexemes of parts and of the delimiters between them. -/
inductive SpellsJoined (delimiter : TokenKind) (spellsPart : List Lexeme → Prop) :
    List Lexeme → Prop
  | one {part} : spellsPart part → SpellsJoined delimiter spellsPart part
  | more {part lexeme rest} : spellsPart part → lexeme.kind = delimiter →
      SpellsJoined delimiter spellsPart rest →
      SpellsJoined delimiter spellsPart (part ++ lexeme :: rest)

/-- The lexemes of a compound symbol. -/
def SpellsCompound : List Lexeme → Prop := SpellsJoined .period SpellsPartial

/-- The lexemes of the symbol of a variable: its namespace, a slash and its key. -/
inductive SpellsIdentifier : List Lexeme → Identifier → Prop
  | intro {scope slash key} : SpellsJoined .slash SpellsCompound scope → slash.kind = .slash →
      SpellsCompound key →
      SpellsIdentifier (scope ++ slash :: key) ⟨textOf scope, textOf key⟩

variable {text : SourceText}

/-- Whether tokens belong to a partial symbol that has begun is told by their lexemes. -/
theorem isSymbolTail_iff (tokens : List Token) :
    IsSymbolTail tokens ↔ SpellsTail (tokens.map (Token.lexeme text)) := by
  induction tokens with
  | nil => rfl
  | cons token rest ih =>
    have hcontinues : continuesSymbol token rest
        = continues (token.lexeme text).kind (rest.map (Token.lexeme text)) := by
      cases rest <;> rfl
    rw [IsSymbolTail, List.map_cons, SpellsTail, ih, hcontinues]

/-- Whether tokens are a partial symbol is told by their lexemes. -/
theorem isPartialSymbol_iff (tokens : List Token) :
    IsPartialSymbol tokens ↔ SpellsPartial (tokens.map (Token.lexeme text)) := by
  cases tokens with
  | nil => rfl
  | cons token rest =>
    rw [IsPartialSymbol, List.map_cons, SpellsPartial, ← isSymbolTail_iff]
    rfl

/-- The lexemes of parts that follow the grammar spell parts. -/
theorem SpellsJoined.of_isJoined {delimiter : TokenKind} {isPart : Tree.Node → Prop}
    {spellsPart : List Lexeme → Prop}
    (hpart : ∀ node, isPart node → spellsPart (node.tokens.map (Token.lexeme text)))
    {nodes : List Tree.Node} (h : IsJoined delimiter isPart nodes) :
    SpellsJoined delimiter spellsPart ((nodeTokens nodes).map (Token.lexeme text)) := by
  induction h with
  | one hnode => simpa using SpellsJoined.one (hpart _ hnode)
  | @more node token rest hnode hkind _ ih =>
    have hdelimiter : (token.lexeme text).kind = delimiter := hkind
    simpa using SpellsJoined.more (hpart node hnode) hdelimiter ih

/-- Tokens whose lexemes spell parts are those of parts that follow the grammar. -/
theorem SpellsJoined.exists_isJoined {delimiter : TokenKind} {isPart : Tree.Node → Prop}
    {spellsPart : List Lexeme → Prop}
    (hpart : ∀ tokens, spellsPart (tokens.map (Token.lexeme text)) →
      ∃ node, isPart node ∧ node.tokens = tokens)
    {lexemes : List Lexeme} (h : SpellsJoined delimiter spellsPart lexemes) {tokens : List Token}
    (htokens : tokens.map (Token.lexeme text) = lexemes) :
    ∃ nodes, IsJoined delimiter isPart nodes ∧ nodeTokens nodes = tokens := by
  induction h generalizing tokens with
  | @one part hspells =>
    obtain ⟨node, hnode, rfl⟩ := hpart tokens (htokens ▸ hspells)
    exact ⟨[node], .one hnode, by simp⟩
  | @more part lexeme rest hspells hkind _ ih =>
    obtain ⟨first, others, rfl, hfirst, hothers⟩ := List.map_eq_append_iff.mp htokens
    obtain ⟨token, behind, rfl, rfl, hbehind⟩ := List.map_eq_cons_iff.mp hothers
    obtain ⟨node, hnode, rfl⟩ := hpart first (hfirst ▸ hspells)
    obtain ⟨nodes, hnodes, rfl⟩ := ih hbehind
    exact ⟨node :: .single [token] :: nodes, .more hnode hkind hnodes, by simp⟩

/-- The lexemes of a compound symbol that has been read spell one. -/
theorem spellsCompound_of_isCompoundNode {node : Tree.Node} (h : IsCompoundNode node) :
    SpellsCompound (node.tokens.map (Token.lexeme text)) := by
  obtain ⟨nodes, rfl, hnodes⟩ := h
  rw [Node.tokens_compoundSymbol]
  refine SpellsJoined.of_isJoined ?_ hnodes
  rintro node ⟨tokens, rfl, htokens⟩
  rw [Node.tokens_partialSymbol]
  exact (isPartialSymbol_iff tokens).mp htokens

/-- Tokens with the lexemes of a compound symbol are those of one. -/
theorem exists_isCompoundNode {tokens : List Token}
    (h : SpellsCompound (tokens.map (Token.lexeme text))) :
    ∃ node, IsCompoundNode node ∧ node.tokens = tokens := by
  have hpart (part : List Token) (hspells : SpellsPartial (part.map (Token.lexeme text))) :
      ∃ node, IsPartialNode node ∧ node.tokens = part :=
    ⟨.partialSymbol part, ⟨part, rfl, (isPartialSymbol_iff part).mpr hspells⟩, by simp⟩
  obtain ⟨nodes, hnodes, rfl⟩ := SpellsJoined.exists_isJoined hpart h rfl
  exact ⟨.compoundSymbol nodes, ⟨nodes, rfl, hnodes⟩, by simp⟩

/-- The lexemes of a symbol that follows the grammar spell its variable. -/
theorem spellsIdentifier_of_isNamespacedSymbol {nodes : List Tree.Node}
    (h : IsNamespacedSymbol nodes) (hrun : text.IsRun (nodeTokens nodes)) {opening : List Token}
    {closing : Option (List Token)} :
    SpellsIdentifier ((nodeTokens nodes).map (Token.lexeme text))
      (symbolOf text ⟨opening, some nodes, closing⟩).identifier := by
  obtain ⟨init, slash, last, rfl, hinit, hslash, hlast⟩ := h.1.exists_concat h.2
  have hslashKind : (slash.lexeme text).kind = .slash := hslash
  have hscopeSpells : SpellsJoined .slash SpellsCompound
      ((nodeTokens init).map (Token.lexeme text)) :=
    SpellsJoined.of_isJoined (fun _ => spellsCompound_of_isCompoundNode) hinit
  have hkeySpells : SpellsCompound (last.tokens.map (Token.lexeme text)) :=
    spellsCompound_of_isCompoundNode hlast
  have hspells := SpellsIdentifier.intro hscopeSpells hslashKind hkeySpells
  rw [nodeTokens_append] at hrun
  have hscope := text_excerptOf (hrun.part (List.prefix_append _ _).isInfix)
    (hinit.nodeTokens_ne_nil fun _ => IsCompoundNode.tokens_ne_nil)
  have hkey := text_excerptOf
    (hrun.part (List.IsSuffix.isInfix ⟨nodeTokens init ++ [slash], by simp⟩)) hlast.tokens_ne_nil
  rw [wording_eq_textOf] at hscope hkey
  rw [← hscope, ← hkey] at hspells
  simpa [symbolOf, Symbol.identifier] using hspells

/-- Tokens whose lexemes spell a variable are those of a symbol that refers to it. -/
theorem exists_isNamespacedSymbol {tokens : List Token} {identifier : Identifier}
    (h : SpellsIdentifier (tokens.map (Token.lexeme text)) identifier) (hrun : text.IsRun tokens) :
    ∃ nodes, IsNamespacedSymbol nodes ∧ nodeTokens nodes = tokens
      ∧ ∀ opening closing, (symbolOf text ⟨opening, some nodes, closing⟩).identifier = identifier := by
  generalize hlexemes : tokens.map (Token.lexeme text) = lexemes at h
  obtain ⟨hscope, hslash, hkey⟩ := h
  obtain ⟨scopeTokens, others, rfl, rfl, hothers⟩ := List.map_eq_append_iff.mp hlexemes
  obtain ⟨slash, keyTokens, rfl, rfl, rfl⟩ := List.map_eq_cons_iff.mp hothers
  obtain ⟨init, hinit, rfl⟩ :=
    SpellsJoined.exists_isJoined (fun _ => exists_isCompoundNode) hscope rfl
  obtain ⟨last, hlast, rfl⟩ := exists_isCompoundNode hkey
  refine ⟨init ++ [.single [slash], last], ⟨hinit.concat hslash hlast, ?_⟩, by simp, ?_⟩
  · have hodd := hinit.length_odd
    simp only [List.length_append, List.length_cons, List.length_nil]
    omega
  · intro opening closing
    have hscopeText := text_excerptOf (hrun.part (List.prefix_append _ _).isInfix)
      (hinit.nodeTokens_ne_nil fun _ => IsCompoundNode.tokens_ne_nil)
    have hkeyText := text_excerptOf
      (hrun.part (List.IsSuffix.isInfix ⟨nodeTokens init ++ [slash], by simp⟩)) hlast.tokens_ne_nil
    rw [wording_eq_textOf] at hscopeText hkeyText
    simp [symbolOf, Symbol.identifier, hscopeText, hkeyText]

/-! ## Values -/

/-- The pieces begin with a text. -/
def beginsWithText : List Piece → Bool
  | .text _ :: _ => true
  | _ => false

/-- Lexemes that belong to a literal, in a value that ends in front of the given kinds. -/
def SpellsLiteral (terminators : List TokenKind) (lexemes : List Lexeme) : Prop :=
  ∀ lexeme ∈ lexemes, lexeme.kind ∉ terminators ∧ lexeme.kind ≠ .openReference

/-- The lexemes of a value and its pieces. No two texts stand side by side. -/
inductive Spells (terminators : List TokenKind) : List Lexeme → List Piece → Prop
  | nil : Spells terminators [] []
  | text {run rest pieces} : run ≠ [] → SpellsLiteral terminators run →
      beginsWithText pieces = false → Spells terminators rest pieces →
      Spells terminators (run ++ rest) (.text (textOf run) :: pieces)
  | value {opening inner closing rest identifier pieces} : opening.kind = .openReference →
      SpellsIdentifier inner identifier → closing.kind = .closeReference →
      Spells terminators rest pieces →
      Spells terminators (opening :: (inner ++ closing :: rest)) (.value identifier :: pieces)

/-- A value without pieces has no lexemes. -/
theorem Spells.eq_nil {terminators : List TokenKind} {lexemes : List Lexeme}
    (h : Spells terminators lexemes []) : lexemes = [] := by
  cases h
  rfl

/-- Without tokens there is no literal. -/
theorem literalOf_nil : literalOf text [] = [] := rfl

/-- A literal has the text of its lexemes. -/
theorem map_piece_literalOf {literal : List Token} (hrun : text.IsRun literal)
    (hne : literal ≠ []) :
    (literalOf text literal).map Value.piece
      = [.text (textOf (literal.map (Token.lexeme text)))] := by
  obtain ⟨span, hspan⟩ := exists_cover hrun hne
  have htext := text_excerptOf hrun hne
  rw [wording_eq_textOf] at htext
  simp [literalOf, hspan, ofSpan_of_cover hspan, Value.piece, htext]

/-- The lexemes of a literal that has begun, in front of those of further pieces. -/
theorem Spells.literal_append {terminators : List TokenKind} {literal : List Token}
    (hliteral : SpellsLiteral terminators (literal.map (Token.lexeme text)))
    (hrun : text.IsRun literal) {rest : List Lexeme} {pieces : List Piece}
    (hpieces : beginsWithText pieces = false) (hrest : Spells terminators rest pieces) :
    Spells terminators (literal.map (Token.lexeme text) ++ rest)
      ((literalOf text literal).map Value.piece ++ pieces) := by
  by_cases hnil : literal = []
  · simpa [hnil, literalOf_nil] using hrest
  · rw [map_piece_literalOf hrun hnil]
    exact .text (by simpa using hnil) hliteral hpieces hrest

/-- An empty run of lexemes spells a literal, whatever kinds end it. -/
theorem spellsLiteral_nil (terminators : List TokenKind) :
    SpellsLiteral terminators (([] : List Token).map (Token.lexeme text)) := by
  simp [SpellsLiteral]

/-- A literal goes on with any lexeme that neither ends it nor opens a reference. -/
theorem SpellsLiteral.concat {terminators : List TokenKind} {lexemes : List Lexeme}
    (h : SpellsLiteral terminators lexemes) {lexeme : Lexeme} (hends : lexeme.kind ∉ terminators)
    (hreference : lexeme.kind ≠ .openReference) : SpellsLiteral terminators (lexemes ++ [lexeme]) := by
  intro other hmem
  rcases List.mem_append.mp hmem with hmem | hmem
  · exact h other hmem
  · obtain rfl : other = lexeme := by simpa using hmem
    exact ⟨hends, hreference⟩

/-- The lexemes of nodes that follow the grammar spell the pieces of their value. -/
theorem spells_of_isContentPiece {terminators : List TokenKind} {nodes : List Tree.Node}
    (h : ∀ node ∈ nodes, IsContentPiece terminators node) {literal : List Token}
    (hliteral : SpellsLiteral terminators (literal.map (Token.lexeme text)))
    (hrun : text.IsRun (literal ++ nodeTokens nodes)) :
    Spells terminators ((literal ++ nodeTokens nodes).map (Token.lexeme text))
      ((valuesOf text literal nodes).map Value.piece) := by
  induction nodes generalizing literal with
  | nil =>
    rw [nodeTokens_nil, List.append_nil] at hrun
    simpa [valuesOf] using Spells.literal_append hliteral hrun rfl .nil
  | cons node rest ih =>
    have hothers (other : Tree.Node) (hmem : other ∈ rest) : IsContentPiece terminators other :=
      h other (List.mem_cons_of_mem _ hmem)
    obtain ⟨token, rfl, hends, hreference⟩ | ⟨whole, rfl, hwhole⟩ := h node List.mem_cons_self
    · have hlonger : SpellsLiteral terminators ((literal ++ [token]).map (Token.lexeme text)) := by
        rw [List.map_append]
        exact hliteral.concat hends hreference
      have hspells := ih hothers hlonger (by simpa using hrun)
      simpa [valuesOf] using hspells
    · have hliteralRun := hrun.part (List.prefix_append literal _).isInfix
      obtain ⟨opening, symbol, closing, rfl, hopening, hsymbol, hclosing⟩ := hwhole
      rw [nodeTokens_cons, Node.tokens_interpolation, Interpolation.tokens_eq] at hrun
      simp only [Option.getD_some, slotTokens_some, List.append_assoc, List.cons_append,
        List.nil_append] at hrun
      have hrest := ih hothers (spellsLiteral_nil terminators) (hrun.part
        (List.IsSuffix.isInfix ⟨literal ++ opening :: (nodeTokens symbol ++ [closing]), by simp⟩))
      have hidentifier : SpellsIdentifier ((nodeTokens symbol).map (Token.lexeme text))
          (symbolOf text ⟨[opening], some symbol, some [closing]⟩).identifier :=
        spellsIdentifier_of_isNamespacedSymbol hsymbol
          (hrun.part ⟨literal ++ [opening], closing :: nodeTokens rest, by simp⟩)
      have hopeningKind : (opening.lexeme text).kind = .openReference := hopening
      have hclosingKind : (closing.lexeme text).kind = .closeReference := hclosing
      have hall := Spells.literal_append hliteral hliteralRun rfl
        (Spells.value hopeningKind hidentifier hclosingKind hrest)
      simpa [valuesOf, Interpolation.tokens_eq, Value.piece, Symbol.piece] using hall

/-- Single tokens in a row join the literal that has begun. -/
theorem valuesOf_singles (literal tokens : List Token) (nodes : List Tree.Node) :
    valuesOf text literal ((tokens.map fun token => .single [token]) ++ nodes)
      = valuesOf text (literal ++ tokens) nodes := by
  induction tokens generalizing literal with
  | nil => simp
  | cons token rest ih => simp [valuesOf, ih]

/-- Tokens whose lexemes spell pieces are those of nodes with these pieces. -/
theorem Spells.exists_nodes {terminators : List TokenKind} {lexemes : List Lexeme}
    {pieces : List Piece} (h : Spells terminators lexemes pieces) {tokens : List Token}
    (htokens : tokens.map (Token.lexeme text) = lexemes) (hrun : text.IsRun tokens) :
    ∃ nodes, (∀ node ∈ nodes, IsContentPiece terminators node) ∧ nodeTokens nodes = tokens
      ∧ (valuesOf text [] nodes).map Value.piece = pieces
      ∧ (beginsWithText pieces = false → ∀ literal,
        valuesOf text literal nodes = literalOf text literal ++ valuesOf text [] nodes) := by
  induction h generalizing tokens with
  | nil =>
    obtain rfl := List.map_eq_nil_iff.mp htokens
    exact ⟨[], by simp, by simp, rfl, fun _ literal => by simp [valuesOf, literalOf_nil]⟩
  | @text run rest pieces hne hliteral hpieces _ ih =>
    obtain ⟨literal, behind, rfl, rfl, hbehind⟩ := List.map_eq_append_iff.mp htokens
    obtain ⟨nodes, hnodes, rfl, hvalues, hstart⟩ :=
      ih hbehind (hrun.part (List.suffix_append _ _).isInfix)
    have hliteralRun := hrun.part (List.prefix_append literal _).isInfix
    refine ⟨(literal.map fun token => .single [token]) ++ nodes, ?_, ?_, ?_, by
      simp [beginsWithText]⟩
    · intro node hmem
      rcases List.mem_append.mp hmem with hmem | hmem
      · obtain ⟨token, htoken, rfl⟩ := List.mem_map.mp hmem
        obtain ⟨hends, hreference⟩ := hliteral _ (List.mem_map_of_mem htoken)
        exact Or.inl ⟨token, rfl, hends, hreference⟩
      · exact hnodes node hmem
    · rw [nodeTokens_append, nodeTokens_map_single]
    · have hliteralNe : literal ≠ [] := by simpa using hne
      rw [valuesOf_singles, List.nil_append, hstart hpieces, List.map_append, hvalues,
        map_piece_literalOf hliteralRun hliteralNe]
      rfl
  | @value opening inner closing rest identifier pieces hopening hinner hclosing _ ih =>
    obtain ⟨openingToken, others, rfl, rfl, hothers⟩ := List.map_eq_cons_iff.mp htokens
    obtain ⟨innerTokens, behind, rfl, rfl, hbehind⟩ := List.map_eq_append_iff.mp hothers
    obtain ⟨closingToken, restTokens, rfl, rfl, hrest⟩ := List.map_eq_cons_iff.mp hbehind
    obtain ⟨nodes, hnodes, rfl, hvalues, -⟩ := ih hrest (hrun.part
      (List.IsSuffix.isInfix ⟨openingToken :: (innerTokens ++ [closingToken]), by simp⟩))
    obtain ⟨symbol, hsymbol, rfl, hidentifier⟩ := exists_isNamespacedSymbol hinner
      (hrun.part ⟨[openingToken], closingToken :: nodeTokens nodes, by simp⟩)
    have hwhole : IsInterpolation ⟨[openingToken], some symbol, some [closingToken]⟩ :=
      ⟨openingToken, symbol, closingToken, rfl, hopening, hsymbol, hclosing⟩
    refine ⟨.interpolation ⟨[openingToken], some symbol, some [closingToken]⟩ :: nodes, ?_, ?_, ?_,
      ?_⟩
    · intro node hmem
      rcases List.mem_cons.mp hmem with rfl | hmem
      · exact Or.inr ⟨_, rfl, hwhole⟩
      · exact hnodes node hmem
    · simp [Interpolation.tokens_eq]
    · simp [valuesOf, literalOf_nil, Value.piece, Symbol.piece, hidentifier, hvalues]
    · intro _ literal
      simp [valuesOf, literalOf_nil]

end JobMarkup.Template
