import JobMarkup.Proofs.NodeForms
import JobMarkup.Proofs.SymbolTexts

/-!
# The values of content

Content is bound by gathering the tokens of a literal until an interpolation comes or nothing more.
Here the content is first divided into stretches, each of them an interpolation or all the tokens
between two of them. Binding gives one value after the other what each stretch gives alone: a literal
of exactly its characters, a symbol, or a report. Since content is contiguous, whatever is missing in
it, the stretches put together are its text.
-/

namespace JobMarkup.Template

open JobMarkup.Tree JobMarkup.Grammar JobMarkup.Variable

variable {text : SourceText}

/-! ## Stretches -/

/-- A stretch of content: single tokens, or an interpolation. -/
inductive Stretch where
  | literal (tokens : List Token)
  | reference (whole : Interpolation)

namespace Stretch

/-- The nodes of a stretch. -/
def nodes : Stretch → List Tree.Node
  | literal tokens => tokens.map fun token => .single [token]
  | reference whole => [.interpolation whole]

/-- The tokens of a stretch. -/
def tokens : Stretch → List Token
  | literal tokens => tokens
  | reference whole => whole.tokens

/-- The stretch is a literal. -/
def IsLiteral : Stretch → Prop
  | literal _ => True
  | reference _ => False

/-- The nodes of a stretch have exactly its tokens. -/
@[simp] theorem nodeTokens_nodes (stretch : Stretch) : nodeTokens stretch.nodes = stretch.tokens := by
  cases stretch with
  | literal tokens => exact nodeTokens_map_single tokens
  | reference whole => simp [nodes, tokens]

/-- The stretches are the nodes, and each literal takes in all single tokens around it. -/
structure Divide (stretches : List Stretch) (nodes : List Tree.Node) : Prop where
  nodes_eq : stretches.flatMap Stretch.nodes = nodes
  filled : ∀ tokens, .literal tokens ∈ stretches → tokens ≠ []
  apart : stretches.IsChain fun first second => ¬(first.IsLiteral ∧ second.IsLiteral)

/-- The literal of tokens that have been gathered, if there are any. -/
def ofGathered (gathered : List Token) : List Stretch :=
  if gathered = [] then [] else [.literal gathered]

/-- The stretches of nodes, given the tokens that have been gathered for a literal. -/
def divide : (gathered : List Token) → List Tree.Node → List Stretch
  | gathered, [] => ofGathered gathered
  | gathered, .single tokens :: rest => divide (gathered ++ tokens) rest
  | gathered, .interpolation whole :: rest => ofGathered gathered ++ .reference whole :: divide [] rest
  | gathered, _ :: rest => divide gathered rest

/-- A literal is made of what has been gathered if that is not nothing, and it has all of it. -/
theorem literal_mem_ofGathered {gathered tokens : List Token} :
    .literal tokens ∈ ofGathered gathered ↔ gathered ≠ [] ∧ tokens = gathered := by
  rw [ofGathered]
  split
  · next h => simp [h]
  · next h => simp [h]

/-- What has been gathered comes back as single tokens. -/
theorem flatMap_nodes_ofGathered (gathered : List Token) :
    (ofGathered gathered).flatMap nodes = gathered.map fun token => .single [token] := by
  rw [ofGathered]
  split
  · next h => simp [h]
  · simp [nodes]

/-- Content is divided into stretches. -/
theorem divide_divides (gathered : List Token) {nodes : List Tree.Node}
    (hshape : ∀ node ∈ nodes, HasPieceShape node) :
    Divide (divide gathered nodes) (gathered.map (fun token => .single [token]) ++ nodes) := by
  induction nodes generalizing gathered with
  | nil =>
    refine ⟨by rw [divide, flatMap_nodes_ofGathered, List.append_nil], fun tokens hmem => ?_, ?_⟩
    · obtain ⟨hne, rfl⟩ := literal_mem_ofGathered.mp hmem
      exact hne
    · rw [divide, ofGathered]
      split <;> simp
  | cons node rest ih =>
    obtain ⟨hnode, hothers⟩ := List.forall_mem_cons.mp hshape
    rcases hnode with ⟨token, rfl⟩ | ⟨whole, rfl, -⟩
    · have hdivide := ih (gathered ++ [token]) hothers
      rw [divide]
      simpa using hdivide
    · obtain ⟨hnodes, hfilled, hapart⟩ := ih [] hothers
      rw [divide]
      refine ⟨?_, fun tokens hmem => ?_, ?_⟩
      · rw [List.flatMap_append, List.flatMap_cons, hnodes, flatMap_nodes_ofGathered]
        simp [Stretch.nodes]
      · rw [List.mem_append, List.mem_cons] at hmem
        obtain hmem | hmem | hmem := hmem
        · obtain ⟨hne, rfl⟩ := literal_mem_ofGathered.mp hmem
          exact hne
        · cases hmem
        · exact hfilled tokens hmem
      · -- an interpolation stands between two literals
        have hbehind : (Stretch.reference whole :: divide [] rest).IsChain
            fun first second => ¬(first.IsLiteral ∧ second.IsLiteral) :=
          List.isChain_cons.mpr ⟨fun _ _ => not_and.mpr nofun, hapart⟩
        refine List.isChain_append.mpr ⟨?_, hbehind, fun first _ second hmem => ?_⟩
        · rw [ofGathered]
          split <;> simp
        · obtain rfl : Stretch.reference whole = second := Option.some.inj hmem
          exact not_and.mpr fun _ => id

/-- The tokens of the stretches are those of the nodes. -/
theorem Divide.flatMap_tokens {stretches : List Stretch} {nodes : List Tree.Node}
    (h : Divide stretches nodes) : stretches.flatMap tokens = nodeTokens nodes := by
  rw [← h.nodes_eq, List.flatMap_def, List.flatMap_def, nodeTokens_flatten, List.flatMap_def,
    List.map_map]
  exact congrArg List.flatten (List.map_congr_left fun stretch _ => (nodeTokens_nodes stretch).symm)

/-- The interpolations among the stretches are nodes of the content, so they have the shape of such
nodes. -/
theorem Divide.hasShape {stretches : List Stretch} {nodes : List Tree.Node}
    (h : Divide stretches nodes) (hshape : ∀ node ∈ nodes, HasPieceShape node)
    {whole : Interpolation} (hmem : .reference whole ∈ stretches) :
    HasInterpolationShape whole := by
  have hnode : Tree.Node.interpolation whole ∈ nodes := by
    rw [← h.nodes_eq]
    exact List.mem_flatMap.mpr ⟨_, hmem, List.mem_singleton_self _⟩
  obtain ⟨token, heq⟩ | ⟨_, heq, hwhole⟩ := hshape _ hnode
  · cases heq
  · cases heq
    exact hwhole

end Stretch

/-! ## What stretches give -/

namespace Bound

variable {α : Type}

/-- Lists that are bound one after the other. -/
def concat (pieces : List (Bound (List α))) : Bound (List α) :=
  ⟨pieces.flatMap value, pieces.flatMap diagnostics, pieces.flatMap references⟩

/-- Two rows of lists are bound as the first row and then the second. -/
theorem concat_append (first second : List (Bound (List α))) :
    concat (first ++ second) = do
      let front ← concat first
      let back ← concat second
      return front ++ back := by
  change _ = Bound.mk _ _ _
  simp [concat]

/-- A row of lists is bound as its first list and then the others. -/
theorem concat_cons (first : Bound (List α)) (rest : List (Bound (List α))) :
    concat (first :: rest) = do
      let front ← first
      let back ← concat rest
      return front ++ back := by
  change _ = Bound.mk _ _ _
  simp [concat]

end Bound

namespace Stretch

/-- What is bound of a stretch alone. A literal has the characters of its tokens. An interpolation
gives its symbol, or one report at its span that it is unbound, behind those about its symbol. -/
inductive Gives (text : SourceText) : Stretch → Bound (List Value) → Prop
  | literal {tokens : List Token} {span : Span} : Token.cover tokens = some span →
      Gives text (.literal tokens) ⟨[.literal ⟨span, text.wording tokens⟩], [], []⟩
  | symbol {whole : Interpolation} {symbol : Symbol} :
      bindInterpolation text whole = ⟨some symbol, [], [symbol.reference]⟩ →
      Gives text (.reference whole) ⟨[.symbol symbol], [], [symbol.reference]⟩
  | unbound {whole : Interpolation} {reports : List Diagnostic} {span : Span} :
      bindInterpolation text whole = ⟨none, reports, []⟩ →
      (∀ report ∈ reports, report.problem = .binding .malformedSymbol) →
      Token.cover whole.tokens = some span →
      Gives text (.reference whole) ⟨[], reports ++ [⟨.binding (.unbound .symbol), span⟩], []⟩

variable (text) in
/-- The binding of a stretch. -/
def bound : Stretch → Bound (List Value)
  | literal tokens => pure (literalOf text tokens)
  | reference whole => do
    let symbol ← (bindInterpolation text whole).required text .symbol whole.tokens
    return symbol.toList.map .symbol

/-- Values are bound stretch by stretch. -/
theorem bindValues_eq_concat (gathered : List Token) {nodes : List Tree.Node}
    (hshape : ∀ node ∈ nodes, HasPieceShape node) :
    bindValues text gathered nodes = Bound.concat ((divide gathered nodes).map (bound text)) := by
  have hgathered (tokens : List Token) :
      Bound.concat ((ofGathered tokens).map (bound text)) = pure (literalOf text tokens) := by
    rw [ofGathered]
    split
    · next h => simp [h, literalOf, Token.cover, Bound.concat]
    · rw [List.map_singleton, Bound.concat_cons]
      simp [bound, Bound.concat]
  induction nodes generalizing gathered with
  | nil => exact (hgathered gathered).symm
  | cons node rest ih =>
    obtain ⟨hnode, hothers⟩ := List.forall_mem_cons.mp hshape
    rcases hnode with ⟨token, rfl⟩ | ⟨whole, rfl, -⟩
    · exact ih (gathered ++ [token]) hothers
    · rw [bindValues, divide, ih [] hothers, List.map_append, List.map_cons, Bound.concat_append,
        hgathered, Bound.concat_cons, bound]
      simp only [bind_assoc, pure_bind, List.append_assoc]

/-- A literal of contiguous tokens gives exactly their characters. -/
theorem gives_literal {tokens : List Token} (hrun : text.IsRun tokens) (hne : tokens ≠ []) :
    Gives text (.literal tokens) (bound text (.literal tokens)) := by
  obtain ⟨span, hcover, hextract⟩ := hrun.extract_cover hne
  have hexcerpt : Excerpt.ofSpan text span = ⟨span, text.wording tokens⟩ := by
    rw [Excerpt.ofSpan, hextract]
    rfl
  have hbound : bound text (.literal tokens) = ⟨[.literal ⟨span, text.wording tokens⟩], [], []⟩ := by
    rw [bound, literalOf, hcover, ← hexcerpt]
    rfl
  rw [hbound]
  exact .literal hcover

/-- An interpolation has a symbol without any report, or none with at most a report that its symbol
is malformed. -/
theorem bindInterpolation_of_shape {whole : Interpolation} (hshape : HasInterpolationShape whole)
    (hrun : text.IsRun whole.tokens) :
    (∃ symbol, bindInterpolation text whole = ⟨some symbol, [], [symbol.reference]⟩)
      ∨ ∃ reports, bindInterpolation text whole = ⟨none, reports, []⟩
        ∧ ∀ report ∈ reports, report.problem = .binding .malformedSymbol := by
  rw [bindInterpolation]
  split
  · next nodes hsymbol =>
    have hnodes : nodeTokens nodes <:+: whole.tokens :=
      ⟨whole.opening, slotTokens whole.closing, by rw [Interpolation.tokens_eq, hsymbol]; rfl⟩
    obtain ⟨span, -, -, hbound⟩ := bindSymbol_of_shape (hshape.symbol nodes hsymbol)
      (hrun.part hnodes)
    split at hbound
    · obtain ⟨symbol, hsymbol, -⟩ := hbound
      exact Or.inl ⟨symbol, hsymbol⟩
    · exact Or.inr ⟨_, hbound, by simp⟩
  · exact Or.inr ⟨[], rfl, by simp⟩

/-- An interpolation gives its symbol, or the report that it is unbound behind those about its
symbol. -/
theorem gives_reference {whole : Interpolation} (hshape : HasInterpolationShape whole)
    (hrun : text.IsRun whole.tokens) :
    Gives text (.reference whole) (bound text (.reference whole)) := by
  obtain ⟨symbol, hsymbol⟩ | ⟨reports, hnone, hreports⟩ := bindInterpolation_of_shape hshape hrun
  · have hbound : bound text (.reference whole) = ⟨[.symbol symbol], [], [symbol.reference]⟩ := by
      rw [bound, Bound.required, hsymbol]
      rfl
    rw [hbound]
    exact .symbol hsymbol
  · obtain ⟨span, hcover, -⟩ := hrun.extract_cover (hshape.isFilled _ (.refl _) rfl)
    have hbound : bound text (.reference whole)
        = ⟨[], reports ++ [⟨.binding (.unbound .symbol), span⟩], []⟩ := by
      rw [bound, Bound.required, hnone, Bound.faultAbout, hcover]
      change Bound.mk [] (reports ++ ([_] ++ []) ++ []) [] = _
      rw [List.append_nil, List.append_nil]
      rfl
    rw [hbound]
    exact .unbound hnone hreports hcover

end Stretch

end JobMarkup.Template

namespace JobMarkup.Grammar.Reader

open JobMarkup.Template

/-- Binding the values of content loses no text and doubles none. A reader of a text gives a tree with
content somewhere in it, complete or not. The content is divided into stretches, no two literals among
which stand side by side. Binding it gives, in their order, what each stretch gives: one literal for a
literal, with exactly the characters of its tokens, and for an interpolation its symbol, or the report
that it is unbound. The span of each stretch addresses its characters, and the span of the content
addresses those of all stretches, one after the other. -/
theorem bindValues_keeps_text {text : SourceText} {reader : Reader}
    (hreader : Reachable text.tokens reader) {production : Production} {whole : Tree.Node}
    (hwhole : (reader.read production).1 = some whole) {nodes : List Tree.Node}
    (hnode : (Tree.Node.content nodes).Within whole) :
    ∃ stretches pieces span, Stretch.Divide stretches nodes
      ∧ List.Forall₂ (Stretch.Gives text) stretches pieces
      ∧ bindValues text [] nodes = Bound.concat pieces
      ∧ (∀ stretch ∈ stretches, ∃ part, Token.cover stretch.tokens = some part
          ∧ text.extract part = .ok (text.charsOf stretch.tokens))
      ∧ (Tree.Node.content nodes).span = some span
      ∧ text.extract span = .ok (stretches.flatMap fun stretch => text.charsOf stretch.tokens) := by
  have hread := (Reader.readIn hwhole).within hnode
  obtain ⟨hne, hshape⟩ : nodes ≠ [] ∧ ∀ node ∈ nodes, HasPieceShape node :=
    Tree.Node.content_hasForm hread
  have hrun : text.IsRun (Tree.nodeTokens nodes) :=
    (Tree.Node.content_isInfix hread).trans hreader.suffix.2.isInfix
  have hdivide : Stretch.Divide (Stretch.divide [] nodes) nodes := Stretch.divide_divides [] hshape
  have htokens := hdivide.flatMap_tokens
  have hpart (stretch : Stretch) (hmem : stretch ∈ Stretch.divide [] nodes) :
      text.IsRun stretch.tokens := by
    refine hrun.part ?_
    rw [← htokens, List.flatMap_def]
    exact List.infix_of_mem_flatten (List.mem_map_of_mem hmem)
  have hgives : ∀ stretch ∈ Stretch.divide [] nodes, stretch.Gives text (stretch.bound text)
      ∧ stretch.tokens ≠ [] := by
    rintro (tokens | part) hmem
    · have hfilled := hdivide.filled tokens hmem
      exact ⟨Stretch.gives_literal (hpart _ hmem) hfilled, hfilled⟩
    · have hpartShape := hdivide.hasShape hshape hmem
      exact ⟨Stretch.gives_reference hpartShape (hpart _ hmem), hpartShape.isFilled _ (.refl _) rfl⟩
  obtain ⟨span, hcover, hextract⟩ :=
    hrun.extract_cover (HasContentShape.isFilled ⟨hne, hshape⟩ _ (.refl _) rfl)
  refine ⟨_, (Stretch.divide [] nodes).map (Stretch.bound text), span, hdivide, ?_,
    Stretch.bindValues_eq_concat [] hshape,
    fun stretch hmem => (hpart stretch hmem).extract_cover (hgives stretch hmem).2, hcover, ?_⟩
  · rw [List.forall₂_map_right_iff, List.forall₂_same]
    exact fun stretch hmem => (hgives stretch hmem).1
  · rw [hextract, ← htokens, SourceText.charsOf, List.flatMap_assoc]
    rfl

/-- An interpolation that lacks its end and a namespace, and one that is bound. -/
theorem bindValues_keeps_text_unterminated :
    let text := SourceText.ofString (.ofNat 0) "a b@\x7bx@\x7bv/k\x7d@c"
    ∃ nodes stretches pieces,
      ((Reader.ofStream text.tokens).read (.content [])).1 = some (.content nodes)
        ∧ List.Forall₂ (Stretch.Gives text) stretches pieces
        ∧ bindValues text [] nodes = Bound.concat pieces
        ∧ (Bound.concat pieces).diagnostics.map Diagnostic.problem
          = [.binding .malformedSymbol, .binding (.unbound .symbol)]
        ∧ (stretches.flatMap fun stretch => text.charsOf stretch.tokens) = text.chars := by
  intro text
  have hfound : (Rule.content [] text.tokens.tokens).map (fun parsed =>
      ((bindValues text [] parsed.value).diagnostics.map Diagnostic.problem,
        (text.extract (text.tokens.spanOf (Tree.nodeTokens parsed.value))).toOption))
        = some ([.binding .malformedSymbol, .binding (.unbound .symbol)], some text.chars) := by
    decide +kernel
  obtain ⟨parsed, hparsed, hfound⟩ := Option.map_eq_some_iff.mp hfound
  obtain ⟨hproblems, hchars⟩ := Prod.mk.inj hfound
  have hwhole : ((Reader.ofStream text.tokens).read (.content [])).1
      = some (.content parsed.value) := by
    simp [read, Production.rule, Reader.ofStream, Rule.map, hparsed, Parsed.map]
  obtain ⟨stretches, pieces, span, -, hgives, hbound, -, hspan, hextract⟩ :=
    bindValues_keeps_text .start hwhole (.refl _)
  have hcover : text.tokens.spanOf (Tree.nodeTokens parsed.value) = span := by
    have hcover : Token.cover (Tree.nodeTokens parsed.value) = some span := hspan
    rw [TokenStream.spanOf, hcover]
    rfl
  rw [hcover, hextract] at hchars
  rw [hbound] at hproblems
  exact ⟨parsed.value, stretches, pieces, hwhole, hgives, hbound, hproblems, Option.some.inj hchars⟩

end JobMarkup.Grammar.Reader
