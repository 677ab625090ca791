import JobMarkup.Proofs.ElementGrammar
import JobMarkup.Proofs.TokenRuns
import JobMarkup.Template.Context

/-!
# What a tree that follows the grammar means

Binding can fail for a partial tree in many ways. For a tree that follows the grammar it cannot: the
element that each element stands for, the attribute of each attribute and the symbol of each
interpolation are given here directly, in the order of the tree. What is left to report are closing
tags with another name and attributes given twice.
-/

namespace JobMarkup

/-- The text of tokens in a row. -/
def SourceText.wording (text : SourceText) (tokens : List Token) : String :=
  String.ofList (text.charsOf tokens)

namespace Tree

/-! ## The parts of a tree that have a meaning of their own -/

mutual

/-- The element and the elements with a tag below it, each in front of those below it. -/
def Element.elements : Element → List Element
  | ⟨leadingTrivia, openBracket, name, attributes, tagEnd, children, closingTag⟩ =>
    ⟨leadingTrivia, openBracket, name, attributes, tagEnd, children, closingTag⟩
      :: childElements children

/-- The elements with a tag among nodes and below them. -/
def childElements : List Node → List Element
  | [] => []
  | .element child :: rest =>
    if child.isTriviaOnly then childElements rest else child.elements ++ childElements rest
  | _ :: rest => childElements rest

end

/-- The interpolations among the nodes of a value. -/
def valueInterpolations : List Node → List Interpolation
  | [] => []
  | .interpolation whole :: rest => whole :: valueInterpolations rest
  | _ :: rest => valueInterpolations rest

/-- The interpolations in the value of an attribute. -/
def Attribute.interpolations (attr : Attribute) : List Interpolation :=
  valueInterpolations (attr.contents.getD [])

mutual

/-- The interpolations of an element: those of its attributes and those between its tags. -/
def Element.interpolations : Element → List Interpolation
  | ⟨_, _, _, attributes, _, children, _⟩ =>
    attributes.flatMap Attribute.interpolations ++ childInterpolations children

/-- The interpolations of nodes between tags. -/
def childInterpolations : List Node → List Interpolation
  | [] => []
  | .element child :: rest => child.interpolations ++ childInterpolations rest
  | .content nodes :: rest => valueInterpolations nodes ++ childInterpolations rest
  | _ :: rest => childInterpolations rest

end

end Tree

namespace Template

open JobMarkup.Tree JobMarkup.Grammar JobMarkup.Variable

variable (text : SourceText)

/-! ## Meanings -/

/-- The excerpt of tokens in a row. -/
def excerptOf (tokens : List Token) : Excerpt :=
  .ofSpan text ((Token.cover tokens).getD (Span.origin text.document))

/-- The symbol of an interpolation: its last node is the key, the nodes before the last slash are
the namespace. -/
def symbolOf (whole : Interpolation) : Symbol :=
  let nodes := whole.symbol.getD []
  ⟨excerptOf text (nodeTokens (nodes.take (nodes.length - 2))),
    excerptOf text (nodeTokens nodes.getLast?.toList)⟩

/-- The values of nodes, given the tokens of a literal that has begun: a symbol for each
interpolation, and a literal for all tokens between two of them. -/
def valuesOf : (literal : List Token) → List Tree.Node → List Value
  | literal, [] => literalOf text literal
  | literal, .single tokens :: rest => valuesOf (literal ++ tokens) rest
  | literal, .interpolation whole :: rest =>
    literalOf text literal ++ .symbol (symbolOf text whole) :: valuesOf [] rest
  | literal, _ :: rest => valuesOf literal rest

/-- The attribute of an attribute. -/
def attributeOf (attr : Tree.Attribute) : Attribute :=
  ⟨(Token.cover attr.tokens).getD (Span.origin text.document), excerptOf text attr.name,
    valuesOf text [] (attr.contents.getD [])⟩

/-- The content of nodes between tags, if they are content. -/
def contentOf : List Tree.Node → Option (List Value)
  | [.content nodes] => some (valuesOf text [] nodes)
  | _ => none

mutual

/-- The element of an element. -/
def elementOf : Tree.Element → Element
  | ⟨_, _, name, attributes, _, children, _⟩ =>
    ⟨excerptOf text (slotTokens name), attributes.map (attributeOf text), contentOf text children,
      childrenOf children⟩

/-- The elements of nodes between tags: one for each element that has a tag. -/
def childrenOf : List Tree.Node → List Element
  | [] => []
  | .element child :: rest =>
    if child.isTriviaOnly then childrenOf rest else elementOf child :: childrenOf rest
  | _ :: rest => childrenOf rest

end

/-! ## Reports -/

/-- The report of a closing tag whose name is not that of the opening tag. -/
def mismatches (element : Tree.Element) : List Diagnostic :=
  match element.closingTag >>= ClosingTag.name with
  | some closingName =>
    if text.wording closingName = text.wording (slotTokens element.name) then []
    else [⟨.binding (.tagMismatch (text.wording (slotTokens element.name))),
      (Token.cover closingName).getD (Span.origin text.document)⟩]
  | none => []

/-- The reports of attributes with the key of an earlier one, given the keys of those before. -/
def duplicates : (keys : List String) → List Tree.Attribute → List Diagnostic
  | _, [] => []
  | keys, attr :: rest =>
    (if text.wording attr.name ∈ keys then
      [⟨.binding .duplicateAttribute,
        (Token.cover attr.tokens).getD (Span.origin text.document)⟩]
    else []) ++ duplicates (text.wording attr.name :: keys) rest

/-- The reports of an element: its closing tag, then its attributes. -/
def elementReports (element : Tree.Element) : List Diagnostic :=
  mismatches text element ++ duplicates text [] element.attributes

/-- The uses of variables that interpolations make. -/
def referencesOf (interpolations : List Interpolation) : List Reference :=
  interpolations.map fun whole => (symbolOf text whole).reference

variable {text}

/-! ## Binding gives the meaning -/

/-- Going on from a value, with what has been found on the way to it. -/
@[simp] theorem Bound.mk_bind {α β : Type} (value : α) (diagnostics : List Diagnostic)
    (references : List Reference) (next : α → Bound β) :
    (Bound.mk value diagnostics references >>= next)
      = ⟨(next value).value, diagnostics ++ (next value).diagnostics,
        references ++ (next value).references⟩ := rfl

/-- A value on its own is bound without any diagnostics or uses of variables. -/
@[simp] theorem Bound.pure_eq {α : Type} (value : α) : (pure value : Bound α) = ⟨value, [], []⟩ :=
  rfl

/-- What is there counts as bound. -/
@[simp] theorem Bound.required_some {α : Type} (part : BoundPart) (tokens : List Token) (value : α)
    (diagnostics : List Diagnostic) (references : List Reference) :
    Bound.required text part tokens ⟨some value, diagnostics, references⟩
      = ⟨some value, diagnostics, references⟩ := by
  simp [Bound.required]

/-- Tokens of a text in their order have a span. -/
theorem exists_cover {tokens : List Token} (h : text.IsRun tokens) (hne : tokens ≠ []) :
    ∃ span, Token.cover tokens = some span :=
  ⟨_, text.cover_of_sublist h.sublist hne⟩

/-- The excerpt of tokens that stand in the text one behind the other has their characters. -/
theorem text_excerptOf {tokens : List Token} (h : text.IsRun tokens) (hne : tokens ≠ []) :
    (excerptOf text tokens).text = text.wording tokens := by
  obtain ⟨span, hcover, hextract⟩ := h.extract_cover hne
  simp [excerptOf, hcover, Excerpt.ofSpan, hextract, Except.toOption, SourceText.wording]

/-- The excerpt of the span that covers tokens is the excerpt of the tokens. -/
theorem ofSpan_of_cover {tokens : List Token} {span : Span} (h : Token.cover tokens = some span) :
    Excerpt.ofSpan text span = excerptOf text tokens := by
  simp [excerptOf, h]

/-- Nodes in odd number are bound: the last one is the key, those before the last two are the
namespace. -/
theorem bindSymbol_concat {init : List Tree.Node} {middle last : Tree.Node}
    (hodd : init.length % 2 = 1) (hrun : text.IsRun (nodeTokens (init ++ [middle, last])))
    (hinit : nodeTokens init ≠ []) (hlast : last.tokens ≠ []) :
    bindSymbol text (init ++ [middle, last])
      = ⟨some ⟨excerptOf text (nodeTokens init), excerptOf text last.tokens⟩, [],
        [Symbol.reference ⟨excerptOf text (nodeTokens init), excerptOf text last.tokens⟩]⟩ := by
  have hlength : (init ++ [middle, last]).length % 2 = 1 ∧ 3 ≤ (init ++ [middle, last]).length := by
    simp only [List.length_append, List.length_cons, List.length_nil]
    omega
  have hscope : (init ++ [middle, last]).take ((init ++ [middle, last]).length - 2) = init := by
    simp
  rw [nodeTokens_append] at hrun
  obtain ⟨scope, hscopeCover⟩ := exists_cover (hrun.part (List.prefix_append _ _).isInfix) hinit
  obtain ⟨key, hkeyCover⟩ := exists_cover
    (hrun.part (List.IsSuffix.isInfix ⟨nodeTokens init ++ middle.tokens, by simp⟩)) hlast
  have hkeySpan : last.span = some key := hkeyCover
  rw [bindSymbol, if_pos hlength]
  simp only [hscope]
  simp [hscopeCover, hkeySpan, ofSpan_of_cover hscopeCover, ofSpan_of_cover hkeyCover]

/-- A symbol with a namespace and a key is bound. -/
theorem bindSymbol_eq {nodes : List Tree.Node} (h : IsNamespacedSymbol nodes)
    (hrun : text.IsRun (nodeTokens nodes)) {opening : List Token} {closing : Option (List Token)} :
    bindSymbol text nodes = ⟨some (symbolOf text ⟨opening, some nodes, closing⟩), [],
      [(symbolOf text ⟨opening, some nodes, closing⟩).reference]⟩ := by
  obtain ⟨init, slash, last, rfl, hinit, -, hlast⟩ := h.1.exists_concat h.2
  rw [bindSymbol_concat hinit.length_odd hrun
    (hinit.nodeTokens_ne_nil fun _ => IsCompoundNode.tokens_ne_nil) hlast.tokens_ne_nil]
  simp [symbolOf]

/-- The interpolation of a value is bound. -/
theorem bindInterpolation_eq {whole : Interpolation} (h : IsInterpolation whole)
    (hrun : text.IsRun whole.tokens) :
    bindInterpolation text whole
      = ⟨some (symbolOf text whole), [], [(symbolOf text whole).reference]⟩ := by
  obtain ⟨opening, symbol, closing, rfl, -, hsymbol, -⟩ := h
  refine bindSymbol_eq hsymbol (hrun.part ?_)
  rw [Interpolation.tokens_eq]
  exact List.infix_append _ _ _

/-- Values are bound without a report. -/
theorem bindValues_eq {terminators : List TokenKind} {nodes : List Tree.Node}
    (h : ∀ node ∈ nodes, IsContentPiece terminators node) (hrun : text.IsRun (nodeTokens nodes))
    (literal : List Token) :
    bindValues text literal nodes
      = ⟨valuesOf text literal nodes, [], referencesOf text (valueInterpolations nodes)⟩ := by
  induction nodes generalizing literal with
  | nil => rfl
  | cons node rest ih =>
    rw [nodeTokens_cons] at hrun
    have hrest := ih (fun other hmem => h other (List.mem_cons_of_mem _ hmem))
      (hrun.part (List.suffix_append _ _).isInfix)
    obtain ⟨token, rfl, -⟩ | ⟨whole, rfl, hwhole⟩ := h node List.mem_cons_self
    · rw [bindValues, hrest]
      rfl
    · have hnode := bindInterpolation_eq hwhole (hrun.part (by
        simpa using (List.prefix_append whole.tokens (nodeTokens rest)).isInfix))
      simp [bindValues, hrest, hnode, valuesOf, valueInterpolations, referencesOf]

/-- An attribute that follows the grammar is bound without a report. -/
theorem bindAttribute_eq {attr : Tree.Attribute} (h : IsAttribute attr)
    (hrun : text.IsRun attr.tokens) :
    bindAttribute text attr
      = ⟨some (attributeOf text attr), [], referencesOf text attr.interpolations⟩ := by
  obtain ⟨span, hspan⟩ := exists_cover hrun h.tokens_ne_nil
  obtain ⟨nameSpan, hname⟩ := exists_cover (hrun.part h.name_infix) h.name_ne_nil
  obtain ⟨name, equal, openQuote, contents, closeQuote, rfl, -, -, -, -, hcontents⟩ := h
  have hpieces : ∀ node ∈ contents.getD [], IsContentPiece attributeValueEnds node := by
    cases contents with
    | none => simp
    | some nodes => exact (hcontents nodes rfl).2
  have hvalues := bindValues_eq hpieces (hrun.part (by
    rw [Tree.Attribute.tokens_eq]
    exact List.infix_append _ _ _)) []
  rw [bindAttribute, if_pos (by rfl), hname]
  simp only [hvalues, ofSpan_of_cover hname]
  simp [attributeOf, hspan, Tree.Attribute.interpolations]

/-- Attributes are bound one by one, and those with the key of an earlier one are reported. -/
theorem bindAttributes_eq {attributes : List Tree.Attribute} {read : List Token}
    (h : ReadsAttributes attributes read) (hrun : text.IsRun read) (keys : List String) :
    bindAttributes text keys attributes
      = ⟨attributes.map (attributeOf text), duplicates text keys attributes,
        referencesOf text (attributes.flatMap Tree.Attribute.interpolations)⟩ := by
  induction h generalizing keys with
  | nil => rfl
  | @cons blanks attr attributes tokens _ _ hattr _ ih =>
    have hattrRun := hrun.part (List.infix_append' blanks attr.tokens tokens)
    have hbound := bindAttribute_eq hattr hattrRun
    have hkey := text_excerptOf (hattrRun.part hattr.name_infix) hattr.name_ne_nil
    have hothers := ih (hrun.part ((List.suffix_append _ _).trans
      (List.suffix_append _ _)).isInfix) (text.wording attr.name :: keys)
    rw [bindAttributes, hbound]
    by_cases hmem : text.wording attr.name ∈ keys
    · simp [attributeOf, hkey, hothers, hmem, duplicates, referencesOf, Bound.faultAt]
    · simp [attributeOf, hkey, hothers, hmem, duplicates, referencesOf]

/-- What is bound of an opening tag: its name, and its attributes. -/
theorem bindOpenTag_eq {name tagEnd : Token} {attributes : List Tree.Attribute} {tag : List Token}
    (h : ReadsOpenTag name attributes tagEnd tag) (hrun : text.IsRun tag) :
    text.IsRun [name] ∧ bindAttributes text [] attributes
      = ⟨attributes.map (attributeOf text), duplicates text [] attributes,
        referencesOf text (attributes.flatMap Tree.Attribute.interpolations)⟩ := by
  cases h with
  | @intro before _ _ tokens behind _ _ _ hattributes _ _ =>
    refine ⟨hrun.part ⟨before, tokens ++ (behind ++ [tagEnd]), by simp⟩, ?_⟩
    exact bindAttributes_eq hattributes
      (hrun.part ⟨before ++ [name], behind ++ [tagEnd], by simp⟩) []

/-- A closing tag with another name is reported, and nothing else of it. -/
theorem checkClosingName_eq {name closingName : Token} (hname : text.IsRun [name])
    (hclosing : text.IsRun [closingName]) {element : Tree.Element}
    (hnameSlot : element.name = some [name])
    (hclosingSlot : (element.closingTag >>= ClosingTag.name) = some [closingName]) :
    checkClosingName text (excerptOf text [name]) [closingName]
      = ⟨(), mismatches text element, []⟩ := by
  obtain ⟨span, hspan⟩ := exists_cover hclosing (by simp)
  rw [checkClosingName, mismatches, hclosingSlot, hspan]
  simp only [ofSpan_of_cover hspan, text_excerptOf hname (List.cons_ne_nil _ _),
    text_excerptOf hclosing (List.cons_ne_nil _ _), hnameSlot, slotTokens_some]
  split
  · rfl
  · simp [Bound.faultAt, hspan]

/-- The meaning of an element, part by part. -/
theorem elementOf_eq (element : Tree.Element) :
    elementOf text element = ⟨excerptOf text (slotTokens element.name),
      element.attributes.map (attributeOf text), contentOf text element.children,
      childrenOf text element.children⟩ := by
  cases element
  rw [elementOf]

/-- What stands between the tags of an element is bound: content, or the elements with a tag. -/
def BindsBody (text : SourceText) (children : List Tree.Node) : Prop :=
  (∃ nodes, children = [.content nodes] ∧ bindValues text [] nodes
      = ⟨valuesOf text [] nodes, [], referencesOf text (valueInterpolations nodes)⟩)
    ∨ ∃ elements : List Tree.Element, children = elements.map .element
      ∧ bindChildren text children = ⟨childrenOf text children,
        (childElements children).flatMap (elementReports text),
        referencesOf text (childInterpolations children)⟩

/-- An element is bound if its name, its attributes and what stands between its tags are. -/
theorem bindElement_of_body {leading : List Tree.Node} {bracket name tagEnd : Token}
    {attributes : List Tree.Attribute} {children : List Tree.Node} {closing : Option ClosingTag}
    {closingName : List Token} {element : Tree.Element}
    (helement : element
      = ⟨leading, some [bracket], some [name], attributes, some [tagEnd], children, closing⟩)
    (hnames : boundNames element = some ([name], closingName)) (hname : text.IsRun [name])
    (hclosing : checkClosingName text (excerptOf text [name]) closingName
      = ⟨(), mismatches text element, []⟩)
    (hattributes : bindAttributes text [] attributes
      = ⟨attributes.map (attributeOf text), duplicates text [] attributes,
        referencesOf text (attributes.flatMap Tree.Attribute.interpolations)⟩)
    (hbody : BindsBody text children) :
    bindElement text element = ⟨some (elementOf text element),
      element.elements.flatMap (elementReports text), referencesOf text element.interpolations⟩ := by
  obtain ⟨span, hspan⟩ := exists_cover hname (List.cons_ne_nil _ _)
  subst helement
  rw [bindElement, hnames]
  simp only [hspan, ofSpan_of_cover hspan, hclosing, hattributes]
  obtain ⟨nodes, rfl, hvalues⟩ | ⟨elements, rfl, hchildren⟩ := hbody
  · simp [hvalues, elementOf, contentOf, childrenOf, Tree.Element.elements, childElements,
      elementReports, Tree.Element.interpolations, childInterpolations, referencesOf]
  · have hcontent : contentOf text (elements.map .element) = none := by
      cases elements <;> rfl
    cases elements with
    | nil =>
      simp [bindChildren, elementOf, contentOf, childrenOf, Tree.Element.elements, childElements,
        elementReports, Tree.Element.interpolations, childInterpolations, referencesOf]
    | cons child others =>
      simp only [List.map_cons] at hchildren hcontent ⊢
      simp [hchildren, elementOf, hcontent, Tree.Element.elements, elementReports,
        Tree.Element.interpolations, referencesOf]

/-- The binding of an element that has a tag is complete. -/
def BindsElement (text : SourceText) (element : Tree.Element) : Prop :=
  element.isTriviaOnly = false
    ∧ bindElement text element = ⟨some (elementOf text element),
      element.elements.flatMap (elementReports text), referencesOf text element.interpolations⟩

/-- Children are bound one by one; one without a tag is left out. -/
theorem bindChildren_eq {reads : Tree.Element → List Token → Prop}
    (hreads : ∀ element tokens, reads element tokens → text.IsRun tokens →
      BindsElement text element)
    {children : List Tree.Element} {tokens : List Token} (h : ReadsChildren reads children tokens)
    (hrun : text.IsRun tokens) :
    bindChildren text (children.map .element) = ⟨childrenOf text (children.map .element),
      (childElements (children.map .element)).flatMap (elementReports text),
      referencesOf text (childInterpolations (children.map .element))⟩ := by
  induction h with
  | nil => rfl
  | trivia => rfl
  | @cons child others first rest hchild _ ih =>
    obtain ⟨htagged, hbound⟩ :=
      hreads child first hchild (hrun.part (List.prefix_append first rest).isInfix)
    have hothers := ih (hrun.part (List.suffix_append first rest).isInfix)
    simp [bindChildren, childrenOf, childElements, childInterpolations, htagged, hbound, hothers,
      referencesOf]

/-- A body of the grammar is bound to its meaning if each element in it is. -/
theorem bindsBody_of_readsBody {reads : Tree.Element → List Token → Prop}
    (hreads : ∀ element tokens, reads element tokens → text.IsRun tokens →
      BindsElement text element)
    {children : List Tree.Node} {inner : List Token} (h : ReadsBody reads children inner)
    (hrun : text.IsRun inner) : BindsBody text children := by
  cases h with
  | @children elements _ helements =>
    exact Or.inr ⟨elements, rfl, bindChildren_eq hreads helements hrun⟩
  | @text blanks nodes _ hcontent _ =>
    have hnodes := hrun.part (List.suffix_append blanks (nodeTokens nodes)).isInfix
    exact Or.inl ⟨nodes, rfl, bindValues_eq hcontent.2 hnodes []⟩

/-- An element with complete tags is bound if what stands between its tags is. -/
theorem bindsElement_of_readsElementWith {body : List Tree.Node → List Token → Prop}
    (hbody : ∀ children inner, body children inner → text.IsRun inner → BindsBody text children)
    {element : Tree.Element} {tokens : List Token} (h : ReadsElementWith body element tokens)
    (hrun : text.IsRun tokens) : BindsElement text element := by
  refine ⟨?_, ?_⟩
  · cases h <;> rfl
  cases h with
  | @selfClosing leading front bracket name attributes tagEnd tag hleading hbracket htag hkind =>
    obtain ⟨hname, hattributes⟩ := bindOpenTag_eq htag
      (hrun.part ⟨front ++ [bracket], [], by simp⟩)
    have hnames : boundNames ⟨leading, some [bracket], some [name], attributes, some [tagEnd], [],
        none⟩ = some ([name], []) := by
      simp [boundNames, Tree.Element.form, Tree.Element.isTriviaOnly, Tree.Element.tagEndKind, hkind]
    exact bindElement_of_body rfl hnames hname rfl hattributes (Or.inr ⟨[], rfl, rfl⟩)
  | @paired leading front bracket name attributes tagEnd tag children inner closing close hleading
      hbracket htag hkind hinner hclose =>
    obtain ⟨hname, hattributes⟩ := bindOpenTag_eq htag
      (hrun.part ⟨front ++ [bracket], inner ++ close, by simp⟩)
    have hchildren := hbody children inner hinner
      (hrun.part ⟨front ++ bracket :: tag, close, by simp⟩)
    have hcloseRun : text.IsRun close :=
      hrun.part (List.IsSuffix.isInfix ⟨front ++ bracket :: (tag ++ inner), by simp⟩)
    cases hclose with
    | @intro opening closingName closing before behind _ _ _ _ _ =>
      have hclosingName : text.IsRun [closingName] :=
        hcloseRun.part ⟨opening :: before, behind ++ [closing], by simp⟩
      have hnames : boundNames ⟨leading, some [bracket], some [name], attributes, some [tagEnd],
          children, some ⟨[opening], some [closingName], some [closing]⟩⟩
            = some ([name], [closingName]) := by
        simp [boundNames, Tree.Element.form, Tree.Element.isTriviaOnly, Tree.Element.tagEndKind,
          hkind]
      exact bindElement_of_body rfl hnames hname (checkClosingName_eq hname hclosingName rfl rfl)
        hattributes hchildren

/-- An element that follows the grammar is bound, and what is reported are its closing tag and its
attributes and those of the elements below it. -/
theorem bindsElement_of_readsElement {levels : Nat} {element : Tree.Element} {tokens : List Token}
    (h : ReadsElement levels element tokens) (hrun : text.IsRun tokens) :
    BindsElement text element := by
  induction levels generalizing element tokens with
  | zero =>
    refine bindsElement_of_readsElementWith (fun children inner hbody => ?_) h hrun
    exact absurd hbody id
  | succ levels ih =>
    refine bindsElement_of_readsElementWith (fun children inner hbody => ?_) h hrun
    exact bindsBody_of_readsBody (fun element tokens => ih) hbody

/-- An element that follows the grammar has a name. -/
theorem exists_name_of_readsElement {levels : Nat} {element : Tree.Element} {tokens : List Token}
    (h : ReadsElement levels element tokens) (hrun : text.IsRun tokens) :
    ∃ name, element.name = some [name] ∧ text.IsRun [name] := by
  have hwith (body : List Tree.Node → List Token → Prop) (h : ReadsElementWith body element tokens) :
      ∃ name, element.name = some [name] ∧ text.IsRun [name] := by
    cases h with
    | @selfClosing _ front bracket name _ _ _ _ _ htag _ =>
      exact ⟨name, rfl, (bindOpenTag_eq htag (hrun.part ⟨front ++ [bracket], [], by simp⟩)).1⟩
    | @paired _ front bracket name _ _ _ _ inner _ close _ _ htag _ _ _ =>
      exact ⟨name, rfl,
        (bindOpenTag_eq htag (hrun.part ⟨front ++ [bracket], inner ++ close, by simp⟩)).1⟩
  cases levels with
  | zero => exact hwith _ h
  | succ levels => exact hwith _ h

end Template

end JobMarkup
