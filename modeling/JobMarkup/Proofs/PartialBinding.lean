import JobMarkup.Proofs.CleanBinding
import JobMarkup.Proofs.CoveredSpans
import JobMarkup.Proofs.FilledNodes
import JobMarkup.Proofs.Stages

/-!
# Binding partial trees

Trees of faulty markup are bound as far as they go. Whatever is left out, what binding gives fits
the text: the uses of variables are those of the symbols in the template, in the order of the tree;
each excerpt holds the characters of its span; and each report is about tokens of the tree.

There is one lemma for each function that binds. What a function finds is compared with the tokens
that it binds, so what it finds among others lies where these tokens lie.
-/

namespace JobMarkup.Template

open JobMarkup.Tree JobMarkup.Grammar JobMarkup.Variable

variable {text : SourceText}

/-! ## Excerpts -/

/-- The excerpt holds the characters of its span, at least one. -/
def Excerpt.Quotes (text : SourceText) (excerpt : Excerpt) : Prop :=
  text.extract excerpt.span = .ok excerpt.text.toList ∧ excerpt.text ≠ ""

/-- Both parts of the symbol quote the text. -/
def Symbol.Quotes (text : SourceText) (symbol : Symbol) : Prop :=
  symbol.scope.Quotes text ∧ symbol.key.Quotes text

/-- The piece of a value quotes the text. -/
def Value.Quotes (text : SourceText) : Value → Prop
  | .literal excerpt => excerpt.Quotes text
  | .symbol reference => reference.Quotes text

/-- The attribute stands in the text, and its key and its value quote it. -/
structure Attribute.Quotes (text : SourceText) (attr : Attribute) : Prop where
  span : text.Addresses attr.span
  key : attr.key.Quotes text
  value : ∀ value ∈ attr.value, value.Quotes text

/-- The name, the attributes and the content of the element quote the text. -/
structure Element.Quotes (text : SourceText) (element : Element) : Prop where
  name : element.name.Quotes text
  attributes : ∀ attr ∈ element.attributes, attr.Quotes text
  content : ∀ values ∈ element.content, ∀ value ∈ values, value.Quotes text

/-- The excerpt of a span that addresses the text holds the characters of the span. -/
theorem Excerpt.quotes_ofSpan {span : Span} (h : text.Addresses span) :
    (Excerpt.ofSpan text span).Quotes text := by
  obtain ⟨-, cs, hextract, hne⟩ := h
  have htext : (Excerpt.ofSpan text span).text = String.ofList cs := by
    rw [Excerpt.ofSpan, hextract]
    rfl
  rw [Excerpt.Quotes, htext, String.toList_ofList]
  exact ⟨hextract, by simpa using hne⟩

/-- The excerpt of tokens in their order quotes the text. -/
theorem quotes_of_cover {tokens : List Token} (hsub : tokens.Sublist text.tokens.tokens)
    {span : Span} (h : Token.cover tokens = some span) : (Excerpt.ofSpan text span).Quotes text :=
  Excerpt.quotes_ofSpan (Span.CoversSome.isStretch ⟨tokens, hsub, h⟩).addresses

/-- The span of a symbol covers the tokens of both its parts. -/
theorem cover_append_eq_span {scope key : List Token} {scopeSpan keySpan : Span}
    (hsub : (scope ++ key).Sublist text.tokens.tokens) (hscope : Token.cover scope = some scopeSpan)
    (hkey : Token.cover key = some keySpan) :
    Token.cover (scope ++ key)
      = some (Symbol.span ⟨.ofSpan text scopeSpan, .ofSpan text keySpan⟩) := by
  have hne : scope ++ key ≠ [] := by
    intro hnil
    rw [(List.append_eq_nil_iff.mp hnil).1] at hscope
    simp [Token.cover] at hscope
  obtain ⟨whole, hwhole, -⟩ := SourceText.exists_cover_of_sublist hsub hne
  -- covering both parts and then the covers is joining the two spans
  have horder := text.inOrder_tokens.sublist (hsub.map Token.span)
  have hcovers := @Span.cover_covers _ [scope.map Token.span, key.map Token.span]
    (by simpa using horder)
  have hunion : (scopeSpan.union keySpan).toOption = some whole := by
    rw [Token.cover] at hscope hkey
    rw [Token.cover, List.map_append] at hwhole
    simp only [List.filterMap_cons_some hscope, List.filterMap_cons_some hkey, List.filterMap_nil,
      List.flatten_cons, List.flatten_nil, List.append_nil, hwhole] at hcovers
    simpa [Span.cover] using hcovers
  rw [hwhole, Symbol.span]
  simp only [Excerpt.ofSpan, hunion, Option.getD_some]

/-! ## What is found on the way to a value -/

/-- The diagnostic is about some of the tokens, and not about a symbol outside of a job document. -/
def IsReportOf (tokens : List Token) (diagnostic : Diagnostic) : Prop :=
  diagnostic.span.CoversSome tokens
    ∧ ∃ fault, diagnostic.problem = .binding fault ∧ fault ≠ .unexpectedSymbol

/-- A report about some tokens is a report about any tokens among which these are, in order. -/
theorem IsReportOf.of_sublist {tokens all : List Token} {diagnostic : Diagnostic}
    (h : IsReportOf tokens diagnostic) (hsub : tokens.Sublist all) : IsReportOf all diagnostic :=
  ⟨h.1.of_sublist hsub, h.2⟩

/-- The symbols are used, one after the other, where the tokens are; and all reports are about the
tokens. -/
structure Bound.Finds {α : Type} (bound : Bound α) (tokens : List Token) (symbols : List Symbol) :
    Prop where
  references_eq : bound.references = symbols.map Symbol.reference
  groups : Span.CoverGroups (symbols.map Symbol.span) tokens
  reports : ∀ diagnostic ∈ bound.diagnostics, IsReportOf tokens diagnostic

namespace Bound

variable {α β : Type} {tokens behind all : List Token} {symbols others : List Symbol}

/-- Recording is put together without regard to grouping, so sequences of binders can be regrouped. -/
instance : LawfulMonad Bound := .mk' Bound
  (fun bound => by
    change bound.andThen _ = bound
    simp [andThen])
  (fun value next => by
    change andThen _ next = next value
    simp [andThen])
  (fun bound next last => by
    change (bound.andThen next).andThen last = bound.andThen fun value => (next value).andThen last
    simp [andThen])

/-- How it goes on depends on nothing but the value. -/
theorem bind_congr {first : Bound α} {next next' : α → Bound β}
    (h : next first.value = next' first.value) : first >>= next = first >>= next' := by
  change first.andThen next = first.andThen next'
  rw [andThen, andThen, h]

/-- A value on its own finds nothing, whatever tokens it is compared with. -/
theorem finds_pure (value : α) (tokens : List Token) : (pure value : Bound α).Finds tokens [] :=
  ⟨rfl, .nil tokens, by simp⟩

/-- Two parts one after the other find the symbols of the first and then those of the second. -/
theorem Finds.bind {first : Bound α} {next : α → Bound β} (h : first.Finds tokens symbols)
    (hnext : (next first.value).Finds behind others) :
    (first >>= next).Finds (tokens ++ behind) (symbols ++ others) where
  references_eq := by
    rw [references_bind, h.references_eq, hnext.references_eq, List.map_append]
  groups := by
    rw [List.map_append]
    exact h.groups.append hnext.groups
  reports := by
    rw [diagnostics_bind]
    refine List.forall_mem_append.mpr ⟨fun diagnostic hmem => ?_, fun diagnostic hmem => ?_⟩
    · exact (h.reports diagnostic hmem).of_sublist (List.sublist_append_left _ _)
    · exact (hnext.reports diagnostic hmem).of_sublist (List.sublist_append_right _ _)

/-- Where the second part finds no symbol, the two find those of the first. -/
theorem Finds.bind_reports {first : Bound α} {next : α → Bound β} (h : first.Finds tokens symbols)
    (hnext : (next first.value).Finds tokens []) : (first >>= next).Finds tokens symbols where
  references_eq := by
    rw [references_bind, h.references_eq, hnext.references_eq, List.map_nil, List.append_nil]
  groups := h.groups
  reports := by
    rw [diagnostics_bind]
    exact List.forall_mem_append.mpr ⟨h.reports, hnext.reports⟩

/-- Going on after a report, without any symbol found so far. -/
theorem Finds.reports_bind {first : Bound α} {next : α → Bound β} (h : first.Finds tokens [])
    (hnext : (next first.value).Finds tokens symbols) : (first >>= next).Finds tokens symbols where
  references_eq := by
    rw [references_bind, h.references_eq, hnext.references_eq, List.map_nil, List.nil_append]
  groups := hnext.groups
  reports := by
    rw [diagnostics_bind]
    exact List.forall_mem_append.mpr ⟨h.reports, hnext.reports⟩

/-- Giving a value when everything has been found. -/
theorem Finds.bind_pure {first : Bound α} (h : first.Finds tokens symbols) (f : α → β) :
    (first >>= fun value => pure (f value)).Finds tokens symbols :=
  h.bind_reports (finds_pure (f first.value) tokens)

/-- What is found in some tokens is found in any tokens among which these are, in order. -/
theorem Finds.of_sublist {bound : Bound α} (h : bound.Finds tokens symbols)
    (hsub : tokens.Sublist all) : bound.Finds all symbols :=
  ⟨h.references_eq, h.groups.of_sublist hsub,
    fun diagnostic hmem => (h.reports diagnostic hmem).of_sublist hsub⟩

variable {fault : BindingFault}

/-- A fault at the span that covers tokens is a report about them, if it is not that a symbol is
unexpected. -/
theorem finds_faultAt {span : Span} (hcover : Token.cover tokens = some span)
    (hfault : fault ≠ .unexpectedSymbol) : (faultAt span fault).Finds tokens [] := by
  refine ⟨rfl, .nil tokens, ?_⟩
  simpa [faultAt, IsReportOf] using ⟨⟨tokens, List.Sublist.refl _, hcover⟩, hfault⟩

/-- The start of the text does not stand in for tokens that are reported. -/
theorem finds_faultAbout (hsub : tokens.Sublist text.tokens.tokens) (hne : tokens ≠ [])
    (hfault : fault ≠ .unexpectedSymbol) : (faultAbout text tokens fault).Finds tokens [] := by
  obtain ⟨span, hcover, -⟩ := SourceText.exists_cover_of_sublist hsub hne
  rw [faultAbout, hcover]
  exact finds_faultAt hcover hfault

/-- Asking for a value may report that it is missing, and does not change it. -/
@[simp] theorem value_required (part : BoundPart) (bound : Bound (Option α)) :
    (bound.required text part tokens).value = bound.value := by
  rw [required, value_bind]
  cases bound.value <;> rfl

/-- A value that is not there is reported, and nothing else is added. -/
theorem Finds.required {bound : Bound (Option α)} (h : bound.Finds tokens symbols)
    (hsub : tokens.Sublist text.tokens.tokens) (hne : tokens ≠ []) (part : BoundPart) :
    (bound.required text part tokens).Finds tokens symbols := by
  refine h.bind_reports ?_
  cases bound.value with
  | some value => exact finds_pure (some value) tokens
  | none => exact (finds_faultAbout hsub hne (by simp)).bind_pure fun _ => none

end Bound

/-! ## Symbols and values -/

/-- Nodes that are at least three end in a slash and a key behind it. -/
theorem eq_take_append_of_three_le {nodes : List Tree.Node} (h : 3 ≤ nodes.length) :
    ∃ slash last, nodes = nodes.take (nodes.length - 2) ++ [slash, last] := by
  have hlength : (nodes.drop (nodes.length - 2)).length = 2 := by
    rw [List.length_drop]
    omega
  obtain ⟨slash, last, hdrop⟩ := List.length_eq_two.mp hlength
  exact ⟨slash, last, by rw [← hdrop, List.take_append_drop]⟩

/-- A symbol is found in its tokens or reported about them, and it quotes the text. -/
theorem bindSymbol_finds {nodes : List Tree.Node} (hne : nodeTokens nodes ≠ [])
    (hsub : (nodeTokens nodes).Sublist text.tokens.tokens) :
    (bindSymbol text nodes).Finds (nodeTokens nodes) (bindSymbol text nodes).value.toList
      ∧ ∀ symbol ∈ (bindSymbol text nodes).value, symbol.Quotes text := by
  rw [bindSymbol]
  split
  · next hlength =>
    obtain ⟨slash, last, hnodes⟩ := eq_take_append_of_three_le hlength.2
    have hlast : nodes.getLast? = some last := by
      rw [hnodes]
      simp
    simp only [hlast, Option.bind_eq_bind, Option.bind_some]
    have hparts : (nodeTokens (nodes.take (nodes.length - 2)) ++ last.tokens).Sublist
        (nodeTokens nodes) := by
      conv_rhs => rw [hnodes]
      simp
    split
    · next scope key hscope hkey =>
      have hspan := cover_append_eq_span (hparts.trans hsub) hscope hkey
      refine ⟨⟨rfl, ?_, by simp⟩, ?_⟩
      · refine ⟨[_ ++ last.tokens], by simpa using hparts, ?_⟩
        simp [hspan]
      · simp only [Option.mem_def, Option.some.injEq, forall_eq']
        exact ⟨quotes_of_cover ((List.sublist_append_left _ _).trans (hparts.trans hsub)) hscope,
          quotes_of_cover ((List.sublist_append_right _ _).trans (hparts.trans hsub)) hkey⟩
    · exact ⟨Bound.finds_pure none _, by simp⟩
  · exact ⟨(Bound.finds_faultAbout hsub hne (by simp)).bind_pure fun _ => none, by simp⟩

/-- An interpolation finds its symbol in its tokens, or reports about its symbol. -/
theorem bindInterpolation_finds {whole : Interpolation} (hshape : HasInterpolationShape whole)
    (hsub : whole.tokens.Sublist text.tokens.tokens) :
    (bindInterpolation text whole).Finds whole.tokens (bindInterpolation text whole).value.toList
      ∧ ∀ symbol ∈ (bindInterpolation text whole).value, symbol.Quotes text := by
  obtain ⟨opening, symbol, closing⟩ := whole
  cases symbol with
  | none => exact ⟨Bound.finds_pure none _, by simp [bindInterpolation]⟩
  | some nodes =>
    have hnodes : (nodeTokens nodes).Sublist
        (Interpolation.tokens ⟨opening, some nodes, closing⟩) := by
      simp [Interpolation.tokens_eq]
    have hne := (hshape.symbol nodes rfl).isFilled _ (.refl _) rfl
    obtain ⟨hfinds, hquotes⟩ := bindSymbol_finds hne (hnodes.trans hsub)
    exact ⟨hfinds.of_sublist hnodes, hquotes⟩

/-- A literal of tokens of a text quotes the text. -/
theorem quotes_literalOf {tokens : List Token} (hsub : tokens.Sublist text.tokens.tokens) :
    ∀ value ∈ literalOf text tokens, value.Quotes text := by
  intro value hmem
  obtain ⟨span, hspan, rfl⟩ := List.mem_map.mp hmem
  exact quotes_of_cover hsub (Option.mem_toList.mp hspan)

/-- The symbols of values that are nothing but symbols are all of them. -/
theorem symbols_map_symbol (references : List Symbol) :
    symbols (references.map .symbol) = references := by
  induction references with
  | nil => rfl
  | cons first rest ih => exact congrArg (first :: ·) ih

/-- A value has the symbols of its interpolations, and literals for what stands between them. -/
theorem bindValues_finds {nodes : List Tree.Node} (hshape : ∀ node ∈ nodes, HasPieceShape node)
    (literal : List Token) (hsub : (literal ++ nodeTokens nodes).Sublist text.tokens.tokens) :
    (bindValues text literal nodes).Finds (nodeTokens nodes)
        (symbols (bindValues text literal nodes).value)
      ∧ ∀ value ∈ (bindValues text literal nodes).value, value.Quotes text := by
  induction nodes generalizing literal with
  | nil =>
    have hquotes := quotes_literalOf ((List.sublist_append_left _ _).trans hsub)
    refine ⟨?_, hquotes⟩
    rw [bindValues, Bound.value_pure, symbols_literalOf]
    exact Bound.finds_pure _ _
  | cons node rest ih =>
    obtain ⟨hnode, hothers⟩ := List.forall_mem_cons.mp hshape
    rcases hnode with ⟨token, rfl⟩ | ⟨whole, rfl, hwhole⟩
    · obtain ⟨hfinds, hquotes⟩ := ih hothers (literal ++ [token]) (by simpa using hsub)
      rw [bindValues]
      exact ⟨hfinds.of_sublist (List.sublist_append_right [token] _), hquotes⟩
    · rw [nodeTokens_cons, Node.tokens_interpolation] at hsub ⊢
      have hwholeSub := ((List.sublist_append_left _ _).trans (List.sublist_append_right _ _)).trans
        hsub
      have hrestSub := ((List.sublist_append_right _ _).trans (List.sublist_append_right _ _)).trans
        hsub
      obtain ⟨hsymbol, hsymbolQuotes⟩ := bindInterpolation_finds hwhole hwholeSub
      obtain ⟨hfinds, hquotes⟩ := ih hothers [] hrestSub
      have hne := hwhole.isFilled _ (.refl _) rfl
      rw [bindValues]
      refine ⟨?_, ?_⟩
      · simp only [Bound.value_bind, Bound.value_required, Bound.value_pure, symbols_append,
          symbols_literalOf, symbols_map_symbol, List.nil_append]
        exact (hsymbol.required hwholeSub hne .symbol).bind (hfinds.bind_pure _)
      · simp only [Bound.value_bind, Bound.value_required, Bound.value_pure,
          List.forall_mem_append]
        refine ⟨⟨quotes_literalOf ((List.sublist_append_left _ _).trans hsub), ?_⟩, hquotes⟩
        simpa [Value.Quotes] using hsymbolQuotes

/-! ## Attributes -/

/-- An attribute finds the symbols of its value in its tokens and quotes the text, if it is bound
at all. -/
theorem bindAttribute_finds {attr : Tree.Attribute} (hshape : HasAttributeShape attr)
    (hsub : attr.tokens.Sublist text.tokens.tokens) :
    (bindAttribute text attr).Finds attr.tokens
        ((bindAttribute text attr).value.toList.flatMap fun bound => symbols bound.value)
      ∧ ∀ bound ∈ (bindAttribute text attr).value, bound.Quotes text
        ∧ Token.cover attr.tokens = some bound.span := by
  have hne := hshape.isFilled _ (.refl _) rfl
  have hnameSub : attr.name.Sublist attr.tokens := by simp [Attribute.tokens_eq]
  have hcontents : (nodeTokens (attr.contents.getD [])).Sublist attr.tokens := by
    rw [Attribute.tokens_eq]
    exact (List.sublist_append_right _ _).trans (List.sublist_append_left _ _)
  have hpieces : ∀ node ∈ attr.contents.getD [], HasPieceShape node := by
    cases hvalue : attr.contents with
    | none => simp
    | some nodes => exact (hshape.contents nodes hvalue).2
  obtain ⟨hfinds, hquotes⟩ := bindValues_finds hpieces [] (hcontents.trans hsub)
  obtain ⟨span, hspan, hstretch⟩ := SourceText.exists_cover_of_sublist hsub hne
  rw [bindAttribute]
  split
  · split
    · next name hname =>
      simp only [hspan, Option.map_some]
      refine ⟨?_, ?_⟩
      · simpa using (hfinds.of_sublist hcontents).bind_pure _
      · have hkey := quotes_of_cover (hnameSub.trans hsub) hname
        simpa using ⟨hstretch.addresses, hkey, hquotes⟩
    · exact ⟨Bound.finds_pure none _, by simp⟩
  · exact ⟨Bound.finds_pure none _, by simp⟩

section

variable (keys : List String) (attr : Tree.Attribute) (rest : List Tree.Attribute)

/-- An attribute that cannot be bound is reported, and the keys before it stay as they are. -/
theorem bindAttributes_cons_none (h : (bindAttribute text attr).value = none) :
    bindAttributes text keys (attr :: rest)
      = (bindAttribute text attr).required text .attribute attr.tokens >>= fun _ =>
        bindAttributes text keys rest := by
  rw [bindAttributes]
  refine Bound.bind_congr ?_
  rw [Bound.value_required, h]

/-- An attribute that is bound is checked against the keys before it, and its key joins them. -/
theorem bindAttributes_cons_some {bound : Attribute}
    (h : (bindAttribute text attr).value = some bound) :
    bindAttributes text keys (attr :: rest)
      = (bindAttribute text attr).required text .attribute attr.tokens >>= fun _ =>
        (if bound.key.text ∈ keys then Bound.faultAt bound.span .duplicateAttribute else pure ())
          >>= fun _ => bindAttributes text (bound.key.text :: keys) rest >>= fun others =>
            pure (bound :: others) := by
  rw [bindAttributes]
  refine Bound.bind_congr ?_
  rw [Bound.value_required, h]
  dsimp only
  split <;> rfl

end

/-- Attributes are bound one by one; one that is not there is reported, and so is one that has the
key of an earlier one. -/
theorem bindAttributes_finds {attributes : List Tree.Attribute}
    (hshape : ∀ attr ∈ attributes, HasAttributeShape attr)
    (hsub : (attributeTokens attributes).Sublist text.tokens.tokens) (keys : List String) :
    (bindAttributes text keys attributes).Finds (attributeTokens attributes)
        ((bindAttributes text keys attributes).value.flatMap fun bound => symbols bound.value)
      ∧ ∀ bound ∈ (bindAttributes text keys attributes).value, bound.Quotes text := by
  induction attributes generalizing keys with
  | nil => exact ⟨Bound.finds_pure [] _, by simp [bindAttributes]⟩
  | cons attr rest ih =>
    obtain ⟨hattr, hothers⟩ := List.forall_mem_cons.mp hshape
    rw [attributeTokens_cons] at hsub ⊢
    have hattrSub := (List.sublist_append_left _ _).trans hsub
    have hrestSub := (List.sublist_append_right _ _).trans hsub
    have hne := hattr.isFilled _ (.refl _) rfl
    obtain ⟨hfinds, hquotes⟩ := bindAttribute_finds hattr hattrSub
    have hrequired := hfinds.required hattrSub hne .attribute
    cases hvalue : (bindAttribute text attr).value with
    | none =>
      obtain ⟨hrest, hrestQuotes⟩ := ih hothers hrestSub keys
      rw [bindAttributes_cons_none keys attr rest hvalue]
      refine ⟨?_, hrestQuotes⟩
      rw [hvalue] at hrequired
      exact hrequired.bind hrest
    | some bound =>
      obtain ⟨hbound, hspan⟩ := hquotes bound hvalue
      obtain ⟨hrest, hrestQuotes⟩ := ih hothers hrestSub (bound.key.text :: keys)
      have hduplicate : Bound.Finds (if bound.key.text ∈ keys then
          Bound.faultAt bound.span .duplicateAttribute else pure ()) attr.tokens [] := by
        split
        · exact Bound.finds_faultAt hspan (by simp)
        · exact Bound.finds_pure () _
      rw [bindAttributes_cons_some keys attr rest hvalue, ← bind_assoc]
      refine ⟨?_, ?_⟩
      · rw [hvalue] at hrequired
        simp only [Bound.value_bind, Bound.value_pure, List.flatMap_cons]
        simp only [Option.toList_some, List.flatMap_singleton] at hrequired
        exact (hrequired.bind_reports hduplicate).bind (hrest.bind_pure _)
      · simpa using ⟨hbound, hrestQuotes⟩

/-! ## Elements -/

/-- The names of an element that can be bound are those in its tags. -/
theorem slots_of_boundNames {element : Tree.Element} {name closingName : List Token}
    (h : boundNames element = some (name, closingName)) :
    element.name = some name
      ∧ (closingName = [] ∨ (element.closingTag >>= ClosingTag.name) = some closingName) := by
  rw [boundNames, Tree.Element.form] at h
  split at h
  · next name' hform =>
    split at hform
    · simp at hform
    · split at hform
      · next hname _ =>
        split at hform
        · simp_all
        · split at hform <;> simp at hform
      · simp at hform
  · next name' closingName' hform =>
    split at hform
    · simp at hform
    · split at hform
      · next hname _ =>
        split at hform
        · simp at hform
        · split at hform
          · simp_all
          · simp at hform
      · simp at hform
  · simp at h
  · simp at h

/-- A check of a closing name finds no symbols, and what it reports is about the name. -/
theorem checkClosingName_finds (text : SourceText) (name : Excerpt) (closingName : List Token) :
    (checkClosingName text name closingName).Finds closingName [] := by
  rw [checkClosingName]
  split
  · next span hspan =>
    split
    · exact Bound.finds_pure () _
    · exact Bound.finds_faultAt hspan (by simp)
  · exact Bound.finds_pure () _

/-- Binding the element finds the symbols of the element that is bound, and this element and those
below it quote the text. -/
structure BindsPart (text : SourceText) (element : Tree.Element) : Prop where
  finds : (bindElement text element).Finds element.tokens
    ((bindElement text element).value.toList.flatMap Element.symbols)
  quotes : ∀ root ∈ (bindElement text element).value, ∀ bound ∈ root.elements, bound.Quotes text

/-- The symbols of elements in a row are those of each element in turn. -/
theorem symbolsBelow_eq_flatMap (elements : List Element) :
    symbolsBelow elements = elements.flatMap Element.symbols := by
  induction elements with
  | nil => rfl
  | cons child rest ih => rw [symbolsBelow, ih, List.flatMap_cons]

/-- The elements below some elements in a row are those of each element in turn. -/
theorem elementsBelow_eq_flatMap (elements : List Element) :
    elementsBelow elements = elements.flatMap Element.elements := by
  induction elements with
  | nil => rfl
  | cons child rest ih => rw [elementsBelow, ih, List.flatMap_cons]

/-- Children are bound one by one; one without a tag is left out, and one that cannot be bound is
reported. -/
theorem bindChildren_finds {children : List Tree.Element}
    (hchildren : ∀ child ∈ children, (Tree.Node.element child).IsFilled
      ∧ (child.tokens.Sublist text.tokens.tokens → BindsPart text child))
    (hsub : (nodeTokens (children.map .element)).Sublist text.tokens.tokens) :
    (bindChildren text (children.map .element)).Finds (nodeTokens (children.map .element))
        ((bindChildren text (children.map .element)).value.flatMap Element.symbols)
      ∧ ∀ child ∈ (bindChildren text (children.map .element)).value,
        ∀ bound ∈ child.elements, bound.Quotes text := by
  induction children with
  | nil => exact ⟨Bound.finds_pure [] _, by simp [bindChildren]⟩
  | cons child rest ih =>
    obtain ⟨⟨hfilled, hchild⟩, hothers⟩ := List.forall_mem_cons.mp hchildren
    rw [List.map_cons, nodeTokens_cons, Tree.Node.tokens_element] at hsub ⊢
    obtain ⟨hfinds, hquotes⟩ := ih hothers ((List.sublist_append_right _ _).trans hsub)
    rw [bindChildren]
    split
    · exact ⟨hfinds.of_sublist (List.sublist_append_right _ _), hquotes⟩
    · have hchildSub := (List.sublist_append_left _ _).trans hsub
      obtain ⟨hpart, hpartQuotes⟩ := hchild hchildSub
      have hrequired := hpart.required hchildSub (hfilled _ (.refl _) rfl) .element
      simp only [Bound.value_bind, Bound.value_required, Bound.value_pure, List.flatMap_append,
        List.forall_mem_append]
      exact ⟨hrequired.bind (hfinds.bind_pure _), by simpa using hpartQuotes, hquotes⟩

/-- An element whose tags are not complete is not bound. -/
theorem bindElement_of_boundNames_eq_none {element : Tree.Element}
    (hnames : boundNames element = none) : bindElement text element = pure none := by
  obtain ⟨leading, openBracket, nameSlot, attributes, tagEnd, children, closingTag⟩ := element
  rw [bindElement, hnames]

/-- An element whose name has no place is not bound. -/
theorem bindElement_of_cover_eq_none {element : Tree.Element} {name closingName : List Token}
    (hnames : boundNames element = some (name, closingName)) (hspan : Token.cover name = none) :
    bindElement text element = pure none := by
  obtain ⟨leading, openBracket, nameSlot, attributes, tagEnd, children, closingTag⟩ := element
  rw [bindElement, hnames]
  simp only [hspan]

section

variable {element : Tree.Element} {name closingName : List Token} {span : Span}
  (hnames : boundNames element = some (name, closingName)) (hspan : Token.cover name = some span)
include hnames hspan

/-- Content between the tags is bound as a value. -/
theorem bindElement_content {nodes : List Tree.Node}
    (hchildren : element.children = [.content nodes]) :
    bindElement text element
      = checkClosingName text (.ofSpan text span) closingName >>= fun _ =>
        bindAttributes text [] element.attributes >>= fun attributes =>
        bindValues text [] nodes >>= fun content =>
        pure (some ⟨.ofSpan text span, attributes, some content, []⟩) := by
  obtain ⟨leading, openBracket, nameSlot, attributes, tagEnd, children, closingTag⟩ := element
  obtain rfl : children = [.content nodes] := hchildren
  rw [bindElement, hnames]
  simp only [hspan]

/-- Elements between the tags are bound as children. -/
theorem bindElement_children {children : List Tree.Element}
    (hchildren : element.children = children.map .element) :
    bindElement text element
      = checkClosingName text (.ofSpan text span) closingName >>= fun _ =>
        bindAttributes text [] element.attributes >>= fun attributes =>
        bindChildren text (children.map .element) >>= fun bound =>
        pure (some ⟨.ofSpan text span, attributes, none, bound⟩) := by
  obtain ⟨leading, openBracket, nameSlot, attributes, tagEnd, nodes, closingTag⟩ := element
  obtain rfl : nodes = children.map .element := hchildren
  rw [bindElement, hnames]
  cases children <;> simp only [hspan, List.map_cons, List.map_nil]

end

/-- The symbols of an element are those of its attributes and of what stands between its tags. -/
theorem symbols_mk (name : Excerpt) (attributes : List Attribute) (content : Option (List Value))
    (children : List Element) :
    Element.symbols ⟨name, attributes, content, children⟩
      = (attributes.flatMap fun attr => symbols attr.value)
        ++ (symbols (content.getD []) ++ children.flatMap Element.symbols) := by
  rw [Element.symbols, symbolsBelow_eq_flatMap, List.append_assoc]

/-- The elements of an element are itself and those of its children in turn. -/
theorem elements_mk (name : Excerpt) (attributes : List Attribute) (content : Option (List Value))
    (children : List Element) :
    Element.elements ⟨name, attributes, content, children⟩
      = ⟨name, attributes, content, children⟩ :: children.flatMap Element.elements := by
  rw [Element.elements, elementsBelow_eq_flatMap]

/-- What is bound of an element stands in its tokens: its names, and behind the name of its opening
tag its attributes and what stands between its tags. -/
theorem sublists_of_boundNames {element : Tree.Element} {name closingName : List Token}
    (hnames : boundNames element = some (name, closingName)) :
    name.Sublist element.tokens ∧ closingName.Sublist element.tokens
      ∧ (attributeTokens element.attributes ++ nodeTokens element.children).Sublist
        element.tokens := by
  obtain ⟨leading, openBracket, nameSlot, attributes, tagEnd, children, closingTag⟩ := element
  obtain ⟨hname, hclosing⟩ := slots_of_boundNames hnames
  obtain rfl : nameSlot = some name := hname
  rw [Element.tokens_eq]
  refine ⟨?_, ?_, ?_⟩
  · exact List.IsInfix.sublist ⟨nodeTokens leading ++ slotTokens openBracket,
      attributeTokens attributes ++ slotTokens tagEnd ++ nodeTokens children
        ++ closingTagTokens closingTag, by simp⟩
  · rcases hclosing with rfl | hclosing
    · exact List.nil_sublist _
    · obtain ⟨tag, rfl, htag⟩ := Option.bind_eq_some_iff.mp hclosing
      refine List.Sublist.trans ?_ (List.sublist_append_right _ _)
      simp [ClosingTag.tokens, htag]
  · have hbody : (attributeTokens attributes ++ nodeTokens children).Sublist
        (attributeTokens attributes ++ slotTokens tagEnd ++ nodeTokens children) :=
      (List.sublist_append_left _ _).append_right _
    exact hbody.trans (List.IsInfix.sublist ⟨nodeTokens leading ++ slotTokens openBracket ++ name,
      closingTagTokens closingTag, by simp⟩)

/-- An element with a tag is bound part by part. -/
theorem bindsPart_of_tagged {child : Tree.Element → Prop}
    (hchild : ∀ element, child element → (Tree.Node.element element).IsFilled
      ∧ (element.tokens.Sublist text.tokens.tokens → BindsPart text element))
    {element : Tree.Element} (hshape : HasTaggedShape child element)
    (hsub : element.tokens.Sublist text.tokens.tokens) {name closingName : List Token}
    (hnames : boundNames element = some (name, closingName)) {span : Span}
    (hspan : Token.cover name = some span) : BindsPart text element := by
  obtain ⟨hnameSub, hclosingSub, hbodySub⟩ := sublists_of_boundNames hnames
  have hname := quotes_of_cover (hnameSub.trans hsub) hspan
  have hclosing := (checkClosingName_finds text (.ofSpan text span) closingName).of_sublist
    hclosingSub
  obtain ⟨hattributes, hattributesQuotes⟩ := bindAttributes_finds hshape.tag.attributes
    ((List.sublist_append_left _ _).trans (hbodySub.trans hsub)) []
  have hchildrenSub := (List.sublist_append_right _ _).trans (hbodySub.trans hsub)
  have hchildren := hshape.children
  generalize hnodes : element.children = nodes at hchildren hchildrenSub hbodySub
  cases hchildren with
  | @content nodes hcontent =>
    rw [nodeTokens_cons, Tree.Node.tokens_content, nodeTokens_nil, List.append_nil]
      at hchildrenSub hbodySub
    obtain ⟨hvalues, hvaluesQuotes⟩ := bindValues_finds hcontent.2 [] hchildrenSub
    have hbound : bindElement text element = _ := bindElement_content hnames hspan hnodes
    refine ⟨?_, ?_⟩
    · rw [hbound]
      refine hclosing.reports_bind (Bound.Finds.of_sublist ?_ hbodySub)
      simp only [Bound.value_bind, Bound.value_pure, Option.toList_some, List.flatMap_singleton,
        symbols_mk, Option.getD_some, List.flatMap_nil, List.append_nil]
      exact hattributes.bind (hvalues.bind_pure _)
    · have hquotes : Element.Quotes text ⟨.ofSpan text span,
          (bindAttributes text [] element.attributes).value,
          some (bindValues text [] nodes).value, []⟩ :=
        ⟨hname, hattributesQuotes, by simpa using hvaluesQuotes⟩
      simpa [hbound, elements_mk] using hquotes
  | @children elements helements =>
    obtain ⟨hbelow, hbelowQuotes⟩ := bindChildren_finds (fun child hmem => hchild child
      (helements child hmem)) hchildrenSub
    have hbound : bindElement text element = _ := bindElement_children hnames hspan hnodes
    refine ⟨?_, ?_⟩
    · rw [hbound]
      refine hclosing.reports_bind (Bound.Finds.of_sublist ?_ hbodySub)
      simp only [Bound.value_bind, Bound.value_pure, Option.toList_some, List.flatMap_singleton,
        symbols_mk, Option.getD_none, symbols, List.filterMap_nil, List.nil_append]
      exact hattributes.bind (hbelow.bind_pure _)
    · have hquotes : Element.Quotes text ⟨.ofSpan text span,
          (bindAttributes text [] element.attributes).value, none,
          (bindChildren text (elements.map .element)).value⟩ :=
        ⟨hname, hattributesQuotes, by simp⟩
      rw [hbound]
      simp only [Bound.value_bind, Bound.value_pure, Option.mem_def, Option.some.injEq, forall_eq',
        elements_mk, List.forall_mem_cons, List.forall_mem_flatMap]
      exact ⟨hquotes, hbelowQuotes⟩

/-- An element whose tokens stand in a text is bound as far as it goes, if its children are. -/
theorem bindsPart_of_elementShape {child : Tree.Element → Prop}
    (hchild : ∀ element, child element → (Tree.Node.element element).IsFilled
      ∧ (element.tokens.Sublist text.tokens.tokens → BindsPart text element))
    {element : Tree.Element} (hshape : HasElementShape child element)
    (hsub : element.tokens.Sublist text.tokens.tokens) : BindsPart text element := by
  -- an element whose names are not there, or have no place, is not bound
  have hnone (h : bindElement text element = pure none) : BindsPart text element :=
    ⟨by rw [h]; exact Bound.finds_pure none _, by simp [h]⟩
  rcases hshape.trivia_or_tagged with ⟨leading, -, -, rfl⟩ | htagged
  · exact hnone rfl
  · cases hnames : boundNames element with
    | none => exact hnone (bindElement_of_boundNames_eq_none hnames)
    | some names =>
      obtain ⟨name, closingName⟩ := names
      cases hspan : Token.cover name with
      | none => exact hnone (bindElement_of_cover_eq_none hnames hspan)
      | some span => exact bindsPart_of_tagged hchild htagged hsub hnames hspan

/-- Elements are bound part by part, whatever is missing of them. -/
theorem bindsPart_of_shape {levels : Nat} {element : Tree.Element}
    (hshape : HasShape levels element) (hsub : element.tokens.Sublist text.tokens.tokens) :
    BindsPart text element := by
  induction levels generalizing element with
  | zero => exact bindsPart_of_elementShape (fun _ hfalse => hfalse.elim) hshape hsub
  | succ levels ih =>
    exact bindsPart_of_elementShape (fun child h => ⟨h.isFilled, ih h⟩) hshape hsub

/-- The root of a document that is read is bound part by part, and reported if that fails. -/
theorem bindRoot_finds {document : Tree.Document}
    (hdocument : text.compile.document = some document) :
    (Context.bindRoot text document.root).Finds document.tokens
        ((Context.bindRoot text document.root).value.toList.flatMap Element.symbols)
      ∧ ∀ root ∈ (Context.bindRoot text document.root).value,
        ∀ bound ∈ root.elements, bound.Quotes text := by
  obtain ⟨rest, reports, hrule, -⟩ := SourceText.exists_rule_of_document_eq hdocument
  have hshape : HasDocumentShape document := Rule.document_yields _ _ hrule
  have hroot : document.root.tokens.Sublist document.tokens := by
    rw [Document.tokens_eq]
    exact List.sublist_append_left _ _
  have hrootSub := hroot.trans (SourceText.sublist_of_document_eq hdocument)
  obtain ⟨hfinds, hquotes⟩ := bindsPart_of_shape hshape.root hrootSub
  have hrequired := hfinds.required hrootSub (hshape.root.isFilled _ (.refl _) rfl) .element
  rw [Context.bindRoot, Bound.value_required]
  exact ⟨hrequired.of_sublist hroot, hquotes⟩

end JobMarkup.Template
