import JobMarkup.Compilation
import JobMarkup.Proofs.TokenMaps

/-!
# The name of a document

The name of a document stands in the spans and nowhere else. A text under another name has the same
tokens, the same tree, the same template and the same diagnostics, with the new name in their spans.
What is written from the template and what is highlighted have no spans, and do not depend on the
name at all.
-/

namespace JobMarkup

variable (r : DocumentId → DocumentId)

/-- The span with its document renamed. -/
def Span.rename (span : Span) : Span := { span with document := r span.document }

/-- The token with its document renamed. -/
def Token.rename (token : Token) : Token := { token with span := token.span.rename r }

/-- The tokens with their document renamed. -/
def TokenStream.rename (stream : TokenStream) : TokenStream :=
  ⟨stream.tokens.map (Token.rename r), stream.endToken.rename r⟩

/-- The text under the new name of its document. -/
def SourceText.rename (text : SourceText) : SourceText :=
  { text with document := r text.document }

/-- The diagnostic with its document renamed. -/
def Diagnostic.rename (diagnostic : Diagnostic) : Diagnostic :=
  { diagnostic with span := diagnostic.span.rename r }

namespace Variable

/-- The reference with its document renamed. -/
def Reference.rename (reference : Reference) : Reference :=
  { reference with span := reference.span.rename r }

/-- The uses of variables with their document renamed. -/
def References.rename (references : References) : References :=
  ⟨references.entries.map fun entry => (entry.1, entry.2.map (Span.rename r))⟩

end Variable

namespace Template

/-- The excerpt with its document renamed. -/
def Excerpt.rename (excerpt : Excerpt) : Excerpt := { excerpt with span := excerpt.span.rename r }

/-- The symbol with its document renamed. -/
def Symbol.rename (symbol : Symbol) : Symbol := ⟨symbol.scope.rename r, symbol.key.rename r⟩

/-- The piece of a value with its document renamed. -/
def Value.rename : Value → Value
  | literal excerpt => literal (excerpt.rename r)
  | symbol reference => symbol (reference.rename r)

/-- The attribute with its document renamed. -/
def Attribute.rename (attr : Attribute) : Attribute :=
  ⟨attr.span.rename r, attr.key.rename r, attr.value.map (Value.rename r)⟩

mutual

/-- The element with its document renamed. -/
def Element.rename : Element → Element
  | ⟨name, attributes, content, children⟩ =>
    ⟨name.rename r, attributes.map (Attribute.rename r), content.map (List.map (Value.rename r)),
      renameElements children⟩

/-- The elements with their document renamed. -/
def renameElements : List Element → List Element
  | [] => []
  | element :: rest => element.rename :: renameElements rest

end

/-- The template with its document renamed. -/
def Document.rename (document : Document) : Document :=
  ⟨document.kind, document.root.map (Element.rename r), document.references.rename r⟩

/-- What has been found, with its document renamed, the values by the given map. -/
def Bound.rename {α : Type} (g : α → α) (bound : Bound α) : Bound α :=
  ⟨g bound.value, bound.diagnostics.map (Diagnostic.rename r),
    bound.references.map (Variable.Reference.rename r)⟩

end Template

/-- The compilation with its document renamed. -/
def Compilation.rename (compilation : Compilation) : Compilation where
  text := compilation.text.rename r
  stream := compilation.stream.rename r
  document := compilation.document.map (Tree.Document.map (Token.rename r))
  grammarDiagnostics := compilation.grammarDiagnostics.map (Diagnostic.rename r)
  template := compilation.template.map (Template.Document.rename r)
  bindingDiagnostics := compilation.bindingDiagnostics.map (Diagnostic.rename r)

variable {r : DocumentId → DocumentId}

/-! ## Spans and tokens -/

/-- Renaming a document keeps the kinds of its tokens, on which alone the grammar depends. -/
theorem keepsKinds_rename : Grammar.KeepsKinds (Token.rename r) := fun _ => rfl

/-- Renaming goes through the union of two spans; different documents stay different, so it fails as
before. -/
theorem Span.union_rename (hr : r.Injective) (a b : Span) :
    (a.rename r).union (b.rename r) = (a.union b).map (Span.rename r) := by
  -- spans of two documents have no union, and must not get one
  simp only [union, rename, hr.eq_iff]
  split <;> rfl

/-- Renaming goes through the span that covers a list of spans. -/
theorem Span.cover_rename (hr : r.Injective) (spans : List Span) :
    cover (spans.map (Span.rename r)) = (cover spans).map (Span.rename r) := by
  cases spans with
  | nil => rfl
  | cons span rest =>
    rw [List.map_cons, cover, cover]
    induction rest generalizing span with
    | nil => rfl
    | cons next rest ih =>
      rw [List.map_cons, List.foldlM_cons, List.foldlM_cons, union_rename hr]
      cases span.union next with
      | error _ => rfl
      | ok covered => exact ih covered

/-- Renaming goes through the span that covers tokens. -/
theorem Token.cover_rename (hr : r.Injective) (tokens : List Token) :
    cover (tokens.map (Token.rename r)) = (cover tokens).map (Span.rename r) := by
  rw [cover, cover, ← Span.cover_rename hr, List.map_map, List.map_map]
  rfl

/-- Lexemes are placed in a renamed text as they are in the text. -/
theorem Token.place_rename (text : SourceText) (offset : Nat) (lexemes : List Lexeme) :
    place (text.rename r) offset lexemes = (place text offset lexemes).map (Token.rename r) := by
  induction lexemes generalizing offset with
  | nil => rfl
  | cons lexeme rest ih =>
    rw [place, place, List.map_cons, ih]
    rfl

/-- A renamed text has the same tokens, with the new name in their spans. -/
theorem SourceText.tokens_rename (text : SourceText) :
    (text.rename r).tokens = text.tokens.rename r := by
  have hplaced := Token.place_rename (r := r) text 0 (Lexeme.ofChars text.chars)
  simp only [tokens, TokenStream.rename, ← hplaced]
  rfl

/-! ## Reading -/

/-- A report becomes the same diagnostic, with the new name in its span. -/
theorem Grammar.diagnose_rename (hr : r.Injective) (stream : TokenStream) (report : Report) :
    Reader.diagnose (stream.rename r) (report.map (Token.rename r))
      = (Reader.diagnose stream report).rename r := by
  simp only [Reader.diagnose, TokenStream.spanOf, Report.map, Token.cover_rename hr]
  cases Token.cover report.about <;> rfl

/-- A renamed stream is read as the same document with the same diagnostics, under the new name. -/
theorem Grammar.readDocument_rename (hr : r.Injective) (stream : TokenStream) :
    readDocument (stream.rename r)
      = ((readDocument stream).1.map (Tree.Document.map (Token.rename r)),
        (readDocument stream).2.map (Diagnostic.rename r)) := by
  simp only [readDocument, TokenStream.rename, Rule.document_commutes keepsKinds_rename _]
  cases Rule.document stream.tokens with
  | none => rfl
  | some parsed =>
    have hdiagnoses : Reader.diagnose (stream.rename r) ∘ Report.map (Token.rename r)
        = Diagnostic.rename r ∘ Reader.diagnose stream := funext (diagnose_rename hr stream)
    simp only [Option.map_some, Parsed.value_mapTokens, Parsed.reports_mapTokens, List.map_map,
      ← hdiagnoses]
    rfl

/-! ## Binding -/

/-- The same characters are extracted from a renamed text; only the span in an error has
another name. -/
theorem SourceText.extract_rename (hr : r.Injective) (text : SourceText) (span : Span) :
    ((text.rename r).extract (span.rename r)).toOption = (text.extract span).toOption := by
  have hcheck : ((text.rename r).checkSpan (span.rename r)).toOption
      = (text.checkSpan span).toOption := by
    have hchars : charAtPosition ⟨r text.document, text.lines⟩ = text.charAtPosition := rfl
    simp only [checkSpan, rename, Span.rename, ne_eq, hr.eq_iff, hchars]
    split
    · rfl
    · cases (text.charAtPosition span.start).isSome && (text.charAtPosition span.stop).isSome <;>
        rfl
  have hextract (text : SourceText) (span : Span) : (text.extract span).toOption
      = (text.checkSpan span).toOption.map fun _ =>
        text.slice (text.offset span.start)
          (text.offset span.stop - text.offset span.start + 1) := by
    rw [extract]
    cases text.checkSpan span <;> rfl
  rw [hextract, hextract, hcheck]
  rfl

namespace Template

open JobMarkup.Tree (nodeTokens)

/-- An excerpt of a renamed text has the same characters. -/
theorem Excerpt.ofSpan_rename (hr : r.Injective) (text : SourceText) (span : Span) :
    ofSpan (text.rename r) (span.rename r) = (ofSpan text span).rename r := by
  rw [ofSpan, ofSpan, SourceText.extract_rename hr]
  rfl

/-- A renamed symbol refers to the same variable, from a renamed span. -/
theorem Symbol.reference_rename (hr : r.Injective) (symbol : Symbol) :
    (symbol.rename r).reference = symbol.reference.rename r := by
  have hspan : (symbol.rename r).span = symbol.span.rename r := by
    simp only [span, rename, Excerpt.rename, Span.union_rename hr]
    cases symbol.scope.span.union symbol.key.span <;> rfl
  rw [reference, hspan]
  rfl

namespace Bound

variable {α β : Type} {g : α → α} {k : β → β}

/-- Renaming goes through a sequence if it goes through its second part, so binders are renamed part
by part. -/
theorem rename_bind {first : Bound α} {second : α → Bound β} {renamed : α → Bound β}
    (h : ∀ value, renamed (g value) = (second value).rename r k) :
    (first.rename r g >>= renamed) = (first >>= second).rename r k := by
  have hvalue := h first.value
  change andThen _ _ = rename r k (andThen _ _)
  simp only [andThen, rename, List.map_append] at hvalue ⊢
  rw [hvalue]

/-- A fault at a renamed span is the renamed diagnostic. -/
theorem faultAt_rename (span : Span) (fault : BindingFault) :
    faultAt (span.rename r) fault = (faultAt span fault).rename r id := rfl

/-- A fault about renamed tokens is the renamed diagnostic, also if there are no tokens to point at. -/
theorem faultAbout_rename (hr : r.Injective) (text : SourceText) (tokens : List Token)
    (fault : BindingFault) :
    faultAbout (text.rename r) (tokens.map (Token.rename r)) fault
      = (faultAbout text tokens fault).rename r id := by
  rw [faultAbout, faultAbout, Token.cover_rename hr, ← faultAt_rename]
  cases Token.cover tokens <;> rfl

/-- A part that is required is missing from a renamed text exactly if it is from the text. -/
theorem required_rename (hr : r.Injective) (text : SourceText) (part : BoundPart)
    (tokens : List Token) (bound : Bound (Option α)) :
    required (text.rename r) part (tokens.map (Token.rename r)) (bound.rename r (Option.map g))
      = (required text part tokens bound).rename r (Option.map g) := by
  refine rename_bind fun value => ?_
  cases value with
  | some value => rfl
  | none =>
    simp only [Option.map_none]
    rw [faultAbout_rename hr]
    exact rename_bind fun _ => rfl

end Bound

/-- The span of a node whose tokens are renamed is the span of the node, renamed. -/
theorem nodeSpan_rename (hr : r.Injective) (node : Tree.Node) :
    (node.map (Token.rename r)).span = node.span.map (Span.rename r) := by
  rw [Tree.Node.span, Tree.Node.span, Tree.Node.tokens_map, Token.cover_rename hr]

/-- A symbol of a renamed text is bound to the renamed symbol. -/
theorem bindSymbol_rename (hr : r.Injective) (text : SourceText) (nodes : List Tree.Node) :
    bindSymbol (text.rename r) (nodes.map (Tree.Node.map (Token.rename r)))
      = (bindSymbol text nodes).rename r (Option.map (Symbol.rename r)) := by
  simp only [bindSymbol, List.length_map, ← List.map_take, Tree.nodeTokens_map,
    Token.cover_rename hr, List.getLast?_map]
  split
  · cases Token.cover (nodeTokens (nodes.take (nodes.length - 2))) with
    | none => rfl
    | some scope =>
      cases nodes.getLast? with
      | none => rfl
      | some last =>
        simp only [Option.map_some, Option.bind_eq_bind, Option.bind_some, nodeSpan_rename hr]
        cases last.span with
        | none => rfl
        | some key =>
          have hreference := Symbol.reference_rename hr ⟨.ofSpan text scope, .ofSpan text key⟩
          simp only [Symbol.rename] at hreference
          simp [Bound.rename, Excerpt.ofSpan_rename hr, hreference, Symbol.rename]
  · rw [Bound.faultAbout_rename hr]
    exact Bound.rename_bind fun _ => rfl

/-- An interpolation of a renamed text is bound to the renamed symbol. -/
theorem bindInterpolation_rename (hr : r.Injective) (text : SourceText)
    (interpolation : Tree.Interpolation) :
    bindInterpolation (text.rename r) (interpolation.map (Token.rename r))
      = (bindInterpolation text interpolation).rename r (Option.map (Symbol.rename r)) := by
  rw [bindInterpolation, bindInterpolation, Tree.Interpolation.map_eq]
  cases interpolation.symbol with
  | none => rfl
  | some nodes => exact bindSymbol_rename hr text nodes

/-- A literal of renamed tokens is the renamed literal. -/
theorem literalOf_rename (hr : r.Injective) (text : SourceText) (tokens : List Token) :
    literalOf (text.rename r) (tokens.map (Token.rename r))
      = (literalOf text tokens).map (Value.rename r) := by
  rw [literalOf, literalOf, Token.cover_rename hr]
  cases Token.cover tokens with
  | none => rfl
  | some span => simp [Excerpt.ofSpan_rename hr, Value.rename]

/-- Renaming keeps the kind of a node. -/
theorem kind_map (node : Tree.Node) : (node.map (Token.rename r)).kind = node.kind := by
  cases node <;> simp only [Tree.Node.map, Tree.Node.kind]

/-- Content of a renamed text is bound to the renamed values. -/
theorem bindValues_rename (hr : r.Injective) (text : SourceText) (literal : List Token)
    (nodes : List Tree.Node) :
    bindValues (text.rename r) (literal.map (Token.rename r))
        (nodes.map (Tree.Node.map (Token.rename r)))
      = (bindValues text literal nodes).rename r (List.map (Value.rename r)) := by
  fun_induction bindValues text literal nodes with
  | case1 literal =>
    rw [List.map_nil, bindValues, literalOf_rename hr]
    rfl
  | case2 literal tokens rest ih =>
    rw [List.map_cons, Tree.Node.map, bindValues, ← List.map_append, ih]
  | case3 literal interpolation rest ih =>
    rw [List.map_cons, Tree.Node.map, bindValues, Tree.Interpolation.tokens_map,
      bindInterpolation_rename hr, Bound.required_rename hr]
    refine Bound.rename_bind fun symbol => ?_
    rw [List.map_nil] at ih
    rw [ih]
    refine Bound.rename_bind fun others => ?_
    rw [literalOf_rename hr]
    cases symbol <;> simp [Bound.rename, Value.rename, pure]
  | case4 literal node rest hsingle hinterpolation ih =>
    have hbind := bindValues.eq_4 (text.rename r) (literal.map (Token.rename r))
      (node.map (Token.rename r)) (rest.map (Tree.Node.map (Token.rename r)))
      (by cases node <;> simp_all [Tree.Node.map]) (by cases node <;> simp_all [Tree.Node.map])
    rw [List.map_cons, hbind, kind_map, Tree.Node.tokens_map, Bound.faultAbout_rename hr, ih]
    exact Bound.rename_bind fun _ => rfl

/-- The value that nodes stand for, before any literal has begun. -/
theorem bindValues_nil_rename (hr : r.Injective) (text : SourceText) (nodes : List Tree.Node) :
    bindValues (text.rename r) [] (nodes.map (Tree.Node.map (Token.rename r)))
      = (bindValues text [] nodes).rename r (List.map (Value.rename r)) :=
  bindValues_rename hr text [] nodes

/-- An attribute of a renamed text is bound to the renamed attribute. -/
theorem bindAttribute_rename (hr : r.Injective) (text : SourceText) (attr : Tree.Attribute) :
    bindAttribute (text.rename r) (attr.map (Token.rename r))
      = (bindAttribute text attr).rename r (Option.map (Attribute.rename r)) := by
  have hterminated : (attr.map (Token.rename r)).isTerminated = attr.isTerminated := by
    simp [Tree.Attribute.isTerminated, Tree.Attribute.map_eq]
  rw [bindAttribute, bindAttribute, hterminated]
  split
  · rw [Tree.Attribute.tokens_map, Tree.Attribute.map_eq, Token.cover_rename hr,
      Token.cover_rename hr]
    cases Token.cover attr.name with
    | none => rfl
    | some name =>
      simp only [Option.map_some, Tree.getD_map_nodes, bindValues_nil_rename hr]
      refine Bound.rename_bind fun value => ?_
      cases Token.cover attr.tokens with
      | none => rfl
      | some span =>
        simp [Bound.rename, pure, Attribute.rename, Excerpt.ofSpan_rename hr]
  · rfl

/-- The attributes of a renamed text are bound alike, since keys are compared by their characters. -/
theorem bindAttributes_rename (hr : r.Injective) (text : SourceText) (keys : List String)
    (attributes : List Tree.Attribute) :
    bindAttributes (text.rename r) keys (attributes.map (Tree.Attribute.map (Token.rename r)))
      = (bindAttributes text keys attributes).rename r (List.map (Attribute.rename r)) := by
  induction attributes generalizing keys with
  | nil => rfl
  | cons attr rest ih =>
    rw [List.map_cons, bindAttributes, bindAttributes, Tree.Attribute.tokens_map,
      bindAttribute_rename hr, Bound.required_rename hr]
    refine Bound.rename_bind fun bound => ?_
    cases bound with
    | none => exact ih keys
    | some bound =>
      -- keys are compared as texts, so the same attributes are duplicates
      have hothers : (do
            let others ← bindAttributes (text.rename r) (bound.key.text :: keys)
              (rest.map (Tree.Attribute.map (Token.rename r)))
            return bound.rename r :: others)
          = Bound.rename r (List.map (Attribute.rename r)) (do
            let others ← bindAttributes text (bound.key.text :: keys) rest
            return bound :: others) := by
        rw [ih]
        exact Bound.rename_bind fun _ => rfl
      simp only [Option.map_some, Attribute.rename, Excerpt.rename] at hothers ⊢
      split
      · rw [Bound.faultAt_rename]
        exact Bound.rename_bind fun _ => hothers
      · exact hothers

/-- Names of tags that differ differ under every name of the document. -/
theorem checkClosingName_rename (hr : r.Injective) (text : SourceText) (name : Excerpt)
    (closingName : List Token) :
    checkClosingName (text.rename r) (name.rename r) (closingName.map (Token.rename r))
      = (checkClosingName text name closingName).rename r id := by
  rw [checkClosingName, checkClosingName, Token.cover_rename hr]
  cases Token.cover closingName with
  | none => rfl
  | some span =>
    simp only [Option.map_some, Excerpt.ofSpan_rename hr, Excerpt.rename]
    split <;> rfl

/-- The names of an element that can be bound are the same, with their tokens renamed. -/
theorem boundNames_rename (element : Tree.Element) :
    boundNames (element.map (Token.rename r))
      = (boundNames element).map fun names =>
        (names.1.map (Token.rename r), names.2.map (Token.rename r)) := by
  have hkind := Grammar.tagEndKind_map (keepsKinds_rename (r := r)) element
  rw [boundNames, boundNames, Tree.Element.form, Tree.Element.form, hkind]
  generalize element.tagEndKind = kind
  obtain ⟨leadingTrivia, openBracket, name, attributes, tagEnd, children, closingTag⟩ := element
  cases openBracket with
  | none => rfl
  | some bracket =>
    cases name with
    | none => rfl
    | some name =>
      cases tagEnd with
      | none => rfl
      | some tagEnd =>
        by_cases hcloses : kind = some .slashClose
        · simp [Tree.Element.map, Tree.Element.isTriviaOnly, hcloses]
        · rcases closingTag with _ | ⟨opening, _ | closingName, closing⟩ <;>
            simp [Tree.Element.map, Tree.Element.isTriviaOnly, hcloses, Tree.ClosingTag.map]

mutual

/-- An element of a renamed text is bound to the renamed element, by recursion on the tree. -/
theorem bindElement_rename (hr : r.Injective) (text : SourceText) :
    (element : Tree.Element) → bindElement (text.rename r) (element.map (Token.rename r))
      = (bindElement text element).rename r (Option.map (Element.rename r))
  | ⟨leadingTrivia, openBracket, name, attributes, tagEnd, children, closingTag⟩ => by
    have hnames := boundNames_rename (r := r)
      ⟨leadingTrivia, openBracket, name, attributes, tagEnd, children, closingTag⟩
    rw [Tree.Element.map] at hnames ⊢
    rw [bindElement, bindElement, hnames]
    cases boundNames ⟨leadingTrivia, openBracket, name, attributes, tagEnd, children, closingTag⟩
      with
    | none => rfl
    | some names =>
      simp only [Option.map_some, Token.cover_rename hr]
      cases Token.cover names.1 with
      | none => rfl
      | some span =>
        simp only [Option.map_some, Excerpt.ofSpan_rename hr, checkClosingName_rename hr,
          Tree.mapAttributes_eq_map, bindAttributes_rename hr]
        refine Bound.rename_bind fun _ => Bound.rename_bind fun bound => ?_
        have hchildren : (do
              let children ← bindChildren (text.rename r) (Tree.mapNodes (Token.rename r) children)
              return some ⟨(Excerpt.ofSpan text span).rename r, bound.map (Attribute.rename r), none,
                children⟩)
            = Bound.rename r (Option.map (Element.rename r)) (do
              let children ← bindChildren text children
              return some ⟨Excerpt.ofSpan text span, bound, none, children⟩) := by
          rw [bindChildren_rename hr text children]
          exact Bound.rename_bind fun _ => rfl
        -- content is the body only if it is the only child
        rcases children with _ | ⟨node, _ | ⟨next, rest⟩⟩
        · exact hchildren
        · cases node with
          | content nodes =>
            simp only [Tree.mapNodes, Tree.Node.map, Tree.mapNodes_eq_map, bindValues_nil_rename hr]
            exact Bound.rename_bind fun _ => rfl
          | _ => exact hchildren
        · cases node <;> exact hchildren

/-- The children of an element of a renamed text are bound to the renamed elements. -/
theorem bindChildren_rename (hr : r.Injective) (text : SourceText) :
    (nodes : List Tree.Node) → bindChildren (text.rename r) (Tree.mapNodes (Token.rename r) nodes)
      = (bindChildren text nodes).rename r (renameElements r)
  | [] => rfl
  | node :: rest => by
    have hrest := bindChildren_rename hr text rest
    have hunexpected : (do
          Bound.faultAbout (text.rename r) (node.map (Token.rename r)).tokens
            (.unexpectedNode (node.map (Token.rename r)).kind)
          bindChildren (text.rename r) (Tree.mapNodes (Token.rename r) rest))
        = Bound.rename r (renameElements r) (do
          Bound.faultAbout text node.tokens (.unexpectedNode node.kind)
          bindChildren text rest) := by
      rw [kind_map, Tree.Node.tokens_map, Bound.faultAbout_rename hr, hrest]
      exact Bound.rename_bind fun _ => rfl
    cases node with
    | comment comment => exact hrest
    | trivia nodes => exact hrest
    | element child =>
      rw [Tree.mapNodes, Tree.Node.map, bindChildren, bindChildren]
      have htrivia : (child.map (Token.rename r)).isTriviaOnly = child.isTriviaOnly := by
        rw [Tree.Element.map_eq, Tree.Element.isTriviaOnly, Option.isNone_map]
        rfl
      rw [htrivia]
      split
      · exact hrest
      · rw [bindElement_rename hr text child, Tree.Element.tokens_map, Bound.required_rename hr]
        refine Bound.rename_bind fun bound => ?_
        rw [hrest]
        refine Bound.rename_bind fun others => ?_
        cases bound <;> rfl
    | _ => exact hunexpected

end

end Template

namespace Variable.References

/-- A use is entered under the same variable, with its span renamed. -/
theorem addTo_rename (reference : Reference) (entries : List (Identifier × List Span)) :
    addTo (reference.rename r) (entries.map fun entry => (entry.1, entry.2.map (Span.rename r)))
      = (addTo reference entries).map fun entry => (entry.1, entry.2.map (Span.rename r)) := by
  induction entries with
  | nil => rfl
  | cons entry rest ih =>
    rw [List.map_cons, addTo, addTo, ih]
    by_cases h : entry.1 = reference.identifier <;> simp [Reference.rename, h]

/-- Renamed uses are added in the same order to the same variables. -/
theorem addAll_rename (references : References) (added : List Reference) :
    (references.rename r).addAll (added.map (Reference.rename r))
      = (references.addAll added).rename r := by
  induction added generalizing references with
  | nil => rfl
  | cons reference rest ih =>
    have hadd : (references.rename r).add (reference.rename r)
        = (references.add reference).rename r :=
      congrArg References.mk (addTo_rename reference references.entries)
    rw [List.map_cons, addAll, List.foldl_cons, hadd]
    exact ih _

/-- All spans of renamed uses are the renamed spans, in the same order. -/
theorem spans_rename (references : References) :
    (references.rename r).spans = references.spans.map (Span.rename r) := by
  simp [spans, rename, List.flatMap_map, List.map_flatMap]

end Variable.References

namespace Template

/-- The kind of a document does not depend on its name. -/
theorem kindOfRoot_rename (root : Option Element) :
    DocumentKind.ofRoot (root.map (Element.rename r)) = DocumentKind.ofRoot root := by
  rcases root with _ | ⟨name, attributes, content, children⟩ <;>
    simp [DocumentKind.ofRoot, Element.rename, Excerpt.rename]

/-- Binding a document in a context in which nothing has been found. -/
theorem bindDocument_rename (hr : r.Injective) (text : SourceText) (document : Tree.Document) :
    (Context.ofText (text.rename r)).bindDocument (document.map (Token.rename r))
      = (((Context.ofText text).bindDocument document).1.rename r,
        ⟨text.rename r,
          ((Context.ofText text).bindDocument document).2.diagnostics.map (Diagnostic.rename r),
          ((Context.ofText text).bindDocument document).2.references.rename r⟩) := by
  obtain ⟨root, trailingTrivia⟩ := document
  have hroot : Context.bindRoot (text.rename r) (root.map (Token.rename r))
      = (Context.bindRoot text root).rename r (Option.map (Element.rename r)) := by
    rw [Context.bindRoot, Tree.Element.tokens_map, bindElement_rename hr,
      Bound.required_rename hr]
    rfl
  simp only [Context.bindDocument, Tree.Document.map, Context.ofText, hroot]
  generalize Context.bindRoot text root = bound
  have hreferences : Variable.References.addAll {} (bound.references.map (.rename r))
      = (Variable.References.addAll {} bound.references).rename r :=
    Variable.References.addAll_rename {} bound.references
  have hunexpected (kind : DocumentKind) (references : Variable.References) :
      Context.unexpectedSymbols kind (references.rename r)
        = (Context.unexpectedSymbols kind references).map (Diagnostic.rename r) := by
    cases kind with
    | job => rfl
    | generic =>
      simp [Context.unexpectedSymbols, Variable.References.spans_rename, Diagnostic.rename]
  -- the root decides by its name whether uses are reported, and these are read off the references
  simp only [Context.record, Bound.rename, kindOfRoot_rename, Document.rename, List.map_append,
    hreferences, hunexpected, List.map_nil]

/-! ## Writing -/

variable {values : Variable.Values}

/-- A piece of a value is written alike under every name of the document. -/
theorem Value.write_rename (out : String) (value : Value) :
    (value.rename r).write values out = value.write values out := by
  cases value <;> rfl

/-- A value is written alike under every name of the document. -/
theorem writeValue_rename (out : String) (pieces : List Value) :
    writeValue values out (pieces.map (Value.rename r)) = writeValue values out pieces := by
  simp only [writeValue, List.foldl_map, Value.write_rename]

/-- A tag is written alike under every name of the document. -/
theorem writeTag_rename (out name : String) (attributes : List Attribute) :
    writeTag values out name (attributes.map (Attribute.rename r))
      = writeTag values out name attributes := by
  have hattribute (out : String) (attr : Attribute) :
      (attr.rename r).write values out = attr.write values out := by
    simp only [Attribute.write, Attribute.rename, Excerpt.rename, writeValue_rename]
  simp only [writeTag, List.foldl_map, hattribute]

mutual

/-- An element is written alike under every name of the document, by recursion on the element. -/
theorem Element.write_rename : (out : String) → (element : Element) →
    (element.rename r).write values out = element.write values out
  | out, ⟨name, attributes, some content, children⟩ => by
    simp only [Element.rename, Option.map_some, Element.write, Excerpt.rename, writeTag_rename,
      writeValue_rename]
  | out, ⟨name, attributes, none, []⟩ => by
    simp only [Element.rename, Option.map_none, renameElements, Element.write, Excerpt.rename,
      writeTag_rename]
  | out, ⟨name, attributes, none, child :: children⟩ => by
    simp only [Element.rename, Option.map_none, renameElements, Element.write, Excerpt.rename,
      writeTag_rename, child.write_rename, writeElements_rename _ children]

/-- Elements in a row are written alike under every name of the document. -/
theorem writeElements_rename : (out : String) → (elements : List Element) →
    writeElements values out (renameElements r elements) = writeElements values out elements
  | _, [] => rfl
  | out, element :: rest => by
    simp only [renameElements, writeElements, element.write_rename, writeElements_rename _ rest]

end

/-- A template gives the same text for the same values under every name of the document. -/
theorem Document.instantiate_rename (document : Document) :
    (document.rename r).instantiate values = document.instantiate values := by
  simp only [instantiate, write, rename]
  cases document.root with
  | none => rfl
  | some root => exact root.write_rename ""

end Template

/-! ## Highlights -/

namespace Highlight

open JobMarkup.Tree (mapSlot)

/-- Tokens are highlighted at the same places under every name of the document. -/
theorem ofTokens_rename (hr : r.Injective) (text : SourceText) (category : Category)
    (tokens : List Token) :
    ofTokens (text.rename r) category (tokens.map (Token.rename r))
      = ofTokens text category tokens := by
  rw [ofTokens, ofTokens, Token.cover_rename hr]
  cases Token.cover tokens <;> rfl

/-- A part that may be missing is highlighted alike under every name of the document. -/
theorem ofSlot_rename (hr : r.Injective) (text : SourceText) (category : Category)
    (slot : Option (List Token)) :
    ofTokens (text.rename r) category (Tree.slotTokens (mapSlot (Token.rename r) slot))
      = ofTokens text category (Tree.slotTokens slot) := by
  rw [Tree.slotTokens_map, ofTokens_rename hr]

/-- An interpolation is highlighted alike under every name of the document. -/
theorem ofInterpolation_rename (hr : r.Injective) (text : SourceText)
    (interpolation : Tree.Interpolation) :
    ofInterpolation (text.rename r) (interpolation.map (Token.rename r))
      = ofInterpolation text interpolation := by
  simp only [ofInterpolation, Tree.Interpolation.map_eq, Tree.getD_map_nodes, Tree.nodeTokens_map,
    ofTokens_rename hr, ofSlot_rename hr]

/-- A value is highlighted alike under every name of the document, interpolation by interpolation. -/
theorem ofValue_rename (hr : r.Injective) (text : SourceText) (closing run : List Token)
    (nodes : List Tree.Node) :
    ofValue (text.rename r) (closing.map (Token.rename r)) (run.map (Token.rename r))
        (nodes.map (Tree.Node.map (Token.rename r)))
      = ofValue text closing run nodes := by
  induction nodes generalizing run with
  | nil => rw [List.map_nil, ofValue, ofValue, ← List.map_append, ofTokens_rename hr]
  | cons node rest ih =>
    have hcontinued : ofValue (text.rename r) (closing.map (Token.rename r))
          (run.map (Token.rename r) ++ (node.map (Token.rename r)).tokens)
          (rest.map (Tree.Node.map (Token.rename r)))
        = ofValue text closing (run ++ node.tokens) rest := by
      rw [Tree.Node.tokens_map, ← List.map_append, ih]
    cases node with
    | interpolation interpolation =>
      have hrest := ih []
      rw [List.map_nil] at hrest
      rw [List.map_cons, Tree.Node.map, ofValue, ofValue, ofTokens_rename hr,
        ofInterpolation_rename hr, hrest]
    | _ => simpa only [List.map_cons, Tree.Node.map, ofValue] using hcontinued

/-- An attribute is highlighted alike under every name of the document. -/
theorem ofAttribute_rename (hr : r.Injective) (text : SourceText) (attr : Tree.Attribute) :
    ofAttribute (text.rename r) (attr.map (Token.rename r)) = ofAttribute text attr := by
  rw [ofAttribute, ofAttribute, Tree.Attribute.map_eq, ofTokens_rename hr]
  cases attr.openQuote with
  | none => rfl
  | some quote =>
    simp only [Option.map_some, Tree.getD_map_nodes, Tree.slotTokens_map, ofValue_rename hr]

mutual

/-- A node is highlighted alike under every name of the document, by recursion on the tree. -/
theorem ofNode_rename (hr : r.Injective) (text : SourceText) : (node : Tree.Node) →
    ofNode (text.rename r) (node.map (Token.rename r)) = ofNode text node
  | .comment remark => by
    simp only [Tree.Node.map, ofNode, Tree.Comment.tokens_map, ofTokens_rename hr]
  | .closingTag tag => by
    simp only [Tree.Node.map, ofNode, Tree.ClosingTag.tokens_map, ofTokens_rename hr]
  | .namespacedSymbol nodes => by
    simp only [Tree.Node.map, ofNode, Tree.nodeTokens_mapNodes, ofTokens_rename hr]
  | .interpolation reference => by
    simp only [Tree.Node.map, ofNode, ofInterpolation_rename hr]
  | .attribute attr => by simp only [Tree.Node.map, ofNode, ofAttribute_rename hr]
  | .element root => by simp only [Tree.Node.map, ofNode, ofElement_rename hr text root]
  | .document whole => by simp only [Tree.Node.map, ofNode, ofDocument_rename hr text whole]
  | .sequence nodes => by simp only [Tree.Node.map, ofNode, ofNodes_rename hr text nodes]
  | .compoundSymbol nodes => by simp only [Tree.Node.map, ofNode, ofNodes_rename hr text nodes]
  | .content nodes => by simp only [Tree.Node.map, ofNode, ofNodes_rename hr text nodes]
  | .trivia nodes => by simp only [Tree.Node.map, ofNode, ofNodes_rename hr text nodes]
  | .single _ => by simp only [Tree.Node.map, ofNode]
  | .partialSymbol _ => by simp only [Tree.Node.map, ofNode]

/-- Nodes in a row are highlighted alike under every name of the document. -/
theorem ofNodes_rename (hr : r.Injective) (text : SourceText) : (nodes : List Tree.Node) →
    ofNodes (text.rename r) (Tree.mapNodes (Token.rename r) nodes) = ofNodes text nodes
  | [] => rfl
  | node :: rest => by
    simp only [Tree.mapNodes, ofNodes, ofNode_rename hr text node, ofNodes_rename hr text rest]

/-- An element is highlighted alike under every name of the document. -/
theorem ofElement_rename (hr : r.Injective) (text : SourceText) : (element : Tree.Element) →
    ofElement (text.rename r) (element.map (Token.rename r)) = ofElement text element
  | ⟨leadingTrivia, openBracket, name, attributes, tagEnd, children, closingTag⟩ => by
    simp only [Tree.Element.map, ofElement, ofNodes_rename hr text leadingTrivia,
      ofNodes_rename hr text children, ofSlot_rename hr, Tree.mapAttributes_eq_map,
      List.flatMap_map, ofAttribute_rename hr, Tree.closingTagTokens_map, ofTokens_rename hr]

/-- A document is highlighted alike under every name that it is given. -/
theorem ofDocument_rename (hr : r.Injective) (text : SourceText) : (document : Tree.Document) →
    ofDocument (text.rename r) (document.map (Token.rename r)) = ofDocument text document
  | ⟨root, trailingTrivia⟩ => by
    simp only [Tree.Document.map, ofDocument, ofElement_rename hr text root,
      ofNodes_rename hr text trailingTrivia]

end

end Highlight

/-! ## Compilation -/

/-- Under another name a text compiles to the same, with the new name in the spans. -/
theorem SourceText.compile_rename (hr : r.Injective) (text : SourceText) :
    (text.rename r).compile = text.compile.rename r := by
  simp only [compile, tokens_rename, Grammar.readDocument_rename hr]
  cases (Grammar.readDocument text.tokens).1 with
  | none => rfl
  | some tree =>
    simp only [Option.map_some, Template.bindDocument_rename hr]
    rfl

/-- What is written from the template does not depend on the name of the document. -/
theorem Compilation.instantiate_rename (compilation : Compilation) (values : Variable.Values) :
    (compilation.rename r).instantiate values = compilation.instantiate values := by
  simp only [instantiate, rename]
  cases compilation.template with
  | none => rfl
  | some template => exact template.instantiate_rename

/-- What is highlighted does not depend on the name of the document. -/
theorem Compilation.highlights_rename (hr : r.Injective) (compilation : Compilation) :
    (compilation.rename r).highlights = compilation.highlights := by
  simp only [highlights, rename]
  cases compilation.document with
  | none => rfl
  | some document => exact Highlight.ofDocument_rename hr compilation.text document

end JobMarkup
