import JobMarkup.Compilation
import JobMarkup.Proofs.Meaning
import JobMarkup.Proofs.VariableUses

/-!
# Binding after reading without a report

Whatever leaves a gap in a tree is reported by the reader. So a document that has been read without
any report, and has more than trivia, is bound completely: its template holds what the tree means,
part by part in the order of the tree, and the reports of binding are those of closing tags with
another name, of attributes given twice, and, outside of job documents, of each interpolation.
-/

namespace JobMarkup

namespace Template

open JobMarkup.Tree JobMarkup.Grammar

mutual

/-- The element and the elements below it, each in front of those below it. -/
def Element.elements : Element → List Element
  | ⟨name, attributes, content, children⟩ =>
    ⟨name, attributes, content, children⟩ :: elementsBelow children

/-- Elements in a row and the elements below them. -/
def elementsBelow : List Element → List Element
  | [] => []
  | child :: rest => child.elements ++ elementsBelow rest

end

mutual

/-- The references of an element: those of its attributes, of its content and of its children. -/
def Element.symbols : Element → List Symbol
  | ⟨_, attributes, content, children⟩ =>
    (attributes.flatMap fun attr => Template.symbols attr.value)
      ++ Template.symbols (content.getD []) ++ symbolsBelow children

/-- The references of elements in a row. -/
def symbolsBelow : List Element → List Symbol
  | [] => []
  | child :: rest => child.symbols ++ symbolsBelow rest

end

variable {text : SourceText}

/-- Literals refer to no variable. -/
theorem symbols_literalOf (tokens : List Token) : symbols (literalOf text tokens) = [] := by
  rw [literalOf]
  cases Token.cover tokens <;> rfl

/-- A value has one symbol for each of its interpolations, in their order. -/
theorem symbols_valuesOf (literal : List Token) (nodes : List Tree.Node) :
    symbols (valuesOf text literal nodes) = (valueInterpolations nodes).map (symbolOf text) := by
  fun_induction valuesOf text literal nodes with
  | case1 literal => simp [symbols_literalOf, valueInterpolations]
  | case2 literal tokens rest ih => simpa [valueInterpolations] using ih
  | case3 literal whole rest ih =>
    rw [symbols_append, symbols_literalOf, List.nil_append, valueInterpolations, List.map_cons,
      ← ih]
    rfl
  | case4 literal node rest hsingle hinterpolation ih =>
    cases node with
    | interpolation whole => exact absurd rfl (hinterpolation whole)
    | _ => simpa [valueInterpolations] using ih

/-- One element is bound for each element that has a tag, and one symbol for each interpolation. -/
structure Corresponds (text : SourceText) (element : Tree.Element) : Prop where
  elements_eq : (elementOf text element).elements = element.elements.map (elementOf text)
  symbols_eq : (elementOf text element).symbols = element.interpolations.map (symbolOf text)

/-- The symbols of bound attributes are those of the interpolations in their values, in the same
order. -/
theorem symbols_attributesOf (attributes : List Tree.Attribute) :
    ((attributes.map (attributeOf text)).flatMap fun attr => symbols attr.value)
      = (attributes.flatMap Tree.Attribute.interpolations).map (symbolOf text) := by
  induction attributes with
  | nil => rfl
  | cons attr rest ih =>
    simp [ih, attributeOf, symbols_valuesOf, Tree.Attribute.interpolations]

/-- Children correspond if each of those that are read does. -/
theorem corresponds_children {reads : Tree.Element → List Token → Prop}
    (hreads : ∀ element tokens, reads element tokens →
      element.isTriviaOnly = false ∧ Corresponds text element)
    {children : List Tree.Element} {tokens : List Token}
    (h : ReadsChildren reads children tokens) :
    elementsBelow (childrenOf text (children.map .element))
        = (childElements (children.map .element)).map (elementOf text)
      ∧ symbolsBelow (childrenOf text (children.map .element))
        = (childInterpolations (children.map .element)).map (symbolOf text) := by
  induction h with
  | nil => exact ⟨rfl, rfl⟩
  | trivia => exact ⟨rfl, rfl⟩
  | @cons child others first rest hchild _ ih =>
    obtain ⟨htagged, helements, hsymbols⟩ := hreads child first hchild
    obtain ⟨hothers, hothersSymbols⟩ := ih
    simp [childrenOf, childElements, childInterpolations, elementsBelow, symbolsBelow, htagged,
      helements, hsymbols, hothers, hothersSymbols]

/-- What stands between tags corresponds: elements to elements and symbols to interpolations. -/
structure BodyCorresponds (text : SourceText) (children : List Tree.Node) : Prop where
  elements_eq : elementsBelow (childrenOf text children)
    = (childElements children).map (elementOf text)
  symbols_eq : symbols ((contentOf text children).getD []) ++ symbolsBelow (childrenOf text children)
    = (childInterpolations children).map (symbolOf text)

/-- An element corresponds to the tree if what stands between its tags does. -/
theorem BodyCorresponds.corresponds {element : Tree.Element}
    (h : BodyCorresponds text element.children) : Corresponds text element := by
  obtain ⟨leading, bracket, name, attributes, tagEnd, children, closing⟩ := element
  have helements := h.elements_eq
  have hsymbols := h.symbols_eq
  refine ⟨?_, ?_⟩
  · simp [elementOf, Element.elements, Tree.Element.elements, helements]
  · simp only [elementOf, Element.symbols, Tree.Element.interpolations, List.append_assoc, hsymbols,
      symbols_attributesOf, List.map_append]

/-- A body that has been read corresponds to the tree if every element in it does. -/
theorem bodyCorresponds_of_readsBody {reads : Tree.Element → List Token → Prop}
    (hreads : ∀ element tokens, reads element tokens →
      element.isTriviaOnly = false ∧ Corresponds text element)
    {children : List Tree.Node} {inner : List Token} (h : ReadsBody reads children inner) :
    BodyCorresponds text children := by
  cases h with
  | @children elements _ helements =>
    obtain ⟨hbelow, hsymbols⟩ := corresponds_children hreads helements
    have hcontent : contentOf text (elements.map .element) = none := by
      cases elements <;> rfl
    exact ⟨hbelow, by simpa [hcontent, symbols] using hsymbols⟩
  | @text blanks nodes _ _ _ =>
    refine ⟨rfl, ?_⟩
    simp [contentOf, symbols_valuesOf, childrenOf, symbolsBelow, childInterpolations]

/-- An element that follows the grammar has a tag, and its meaning corresponds to it. -/
theorem corresponds_of_readsElement {levels : Nat} {element : Tree.Element} {tokens : List Token}
    (h : ReadsElement levels element tokens) :
    element.isTriviaOnly = false ∧ Corresponds text element := by
  induction levels generalizing element tokens with
  | zero =>
    cases h with
    | selfClosing => exact ⟨rfl, BodyCorresponds.corresponds ⟨rfl, rfl⟩⟩
    | paired _ _ _ _ hbody _ => exact absurd hbody id
  | succ levels ih =>
    cases h with
    | selfClosing => exact ⟨rfl, BodyCorresponds.corresponds ⟨rfl, rfl⟩⟩
    | paired _ _ _ _ hbody _ =>
      exact ⟨rfl, (bodyCorresponds_of_readsBody (fun _ _ => ih) hbody).corresponds⟩

/-- The reports for the interpolations of a document that may not refer to variables. -/
def unexpectedReports (text : SourceText) (root : Tree.Element) : List Diagnostic :=
  root.interpolations.map fun whole => ⟨.binding .unexpectedSymbol, (symbolOf text whole).span⟩

/-- The faults of binding that a complete tree can have. -/
def isSemantic : BindingFault → Bool
  | .tagMismatch _ | .duplicateAttribute | .unexpectedSymbol => true
  | .unexpectedNode _ | .unbound _ | .malformedSymbol => false

/-- What is reported of an element is about its closing tag or its attributes. -/
theorem isSemantic_of_mem_elementReports {element : Tree.Element} {diagnostic : Diagnostic}
    (h : diagnostic ∈ elementReports text element) :
    ∃ fault, diagnostic.problem = .binding fault ∧ isSemantic fault = true := by
  have hduplicates (keys : List String) (attributes : List Tree.Attribute)
      (hmem : diagnostic ∈ duplicates text keys attributes) :
      diagnostic.problem = .binding .duplicateAttribute := by
    induction attributes generalizing keys with
    | nil => simp [duplicates] at hmem
    | cons attr rest ih =>
      rw [duplicates] at hmem
      rcases List.mem_append.mp hmem with hmem | hmem
      · split at hmem
        · rw [List.mem_singleton.mp hmem]
        · simp at hmem
      · exact ih _ hmem
  rcases List.mem_append.mp h with h | h
  · rw [mismatches] at h
    split at h
    · split at h
      · simp at h
      · rw [List.mem_singleton.mp h]
        exact ⟨_, rfl, rfl⟩
    · simp at h
  · exact ⟨_, hduplicates _ _ h, rfl⟩

end Template

namespace SourceText

open Template Grammar Variable

variable (text : SourceText)

/-- The uses of variables in an element. -/
def referencesIn (root : Tree.Element) : References :=
  References.empty.addAll (referencesOf text root.interpolations)

/-- The spans of all uses are those of the symbols, in some order. -/
theorem spans_referencesIn_perm (root : Tree.Element) :
    (text.referencesIn root).spans.Perm
      (root.interpolations.map fun whole => (symbolOf text whole).span) := by
  have hperm := References.spans_addAll_perm .empty (referencesOf text root.interpolations)
  rw [referencesOf, List.map_map] at hperm
  exact hperm

/-- Compiling a text whose document follows the grammar. -/
theorem compile_of_readsDocument {document : Tree.Document} {read rest : List Token}
    (h : ReadsDocument document read) (hread : text.IsRun read)
    (hdocument : Rule.document text.tokens.tokens = some ⟨document, rest, []⟩) :
    text.compile = ⟨text, text.tokens, some document, [],
      some ⟨DocumentKind.ofRoot (some (elementOf text document.root)),
        some (elementOf text document.root), text.referencesIn document.root⟩,
      document.root.elements.flatMap (elementReports text)
        ++ Context.unexpectedSymbols (DocumentKind.ofRoot (some (elementOf text document.root)))
          (text.referencesIn document.root)⟩ := by
  have hrun : ∀ tokens, ReadsElement maxDepth document.root tokens → tokens <+: read →
      BindsElement text document.root := fun tokens hroot hfront =>
    bindsElement_of_readsElement hroot (hread.part hfront.isInfix)
  obtain ⟨-, hbound⟩ : BindsElement text document.root := by
    cases h with
    | intro hroot _ => exact hrun _ hroot (List.prefix_append _ _)
  have hbindRoot : Context.bindRoot text document.root = ⟨some (elementOf text document.root),
      document.root.elements.flatMap (elementReports text),
      referencesOf text document.root.interpolations⟩ := by
    rw [Context.bindRoot, hbound, Bound.required_some]
  have hreadDocument : readDocument text.tokens = (some document, []) := by
    simp [readDocument, hdocument]
  simp only [compile, hreadDocument, Context.bindDocument, Context.ofText, hbindRoot,
    Context.record, List.nil_append]
  rfl

/-- A document that is read without a report, and has more than trivia, follows the grammar. -/
theorem exists_readsDocument {document : Tree.Document}
    (hdocument : text.compile.document = some document)
    (hgrammar : text.compile.grammarDiagnostics = [])
    (hroot : document.root.isTriviaOnly = false) :
    ∃ read rest, text.tokens.tokens = read ++ rest ∧ ReadsDocument document read
      ∧ Rule.document text.tokens.tokens = some ⟨document, rest, []⟩ := by
  cases hrule : Rule.document text.tokens.tokens with
  | none =>
    have hreadDocument : readDocument text.tokens = (none, []) := by simp [readDocument, hrule]
    simp [compile, hreadDocument] at hdocument
  | some parsed =>
    obtain ⟨value, rest, reports⟩ := parsed
    have hreadDocument : readDocument text.tokens
        = (some value, reports.map (Reader.diagnose text.tokens)) := by
      simp [readDocument, hrule]
    simp only [compile, hreadDocument, Option.some.injEq, List.map_eq_nil_iff] at hdocument hgrammar
    subst hdocument hgrammar
    obtain ⟨read, htokens, hreads⟩ := document_sound hrule rfl
    exact ⟨read, rest, htokens, hreads.resolve_left (by simp [hroot]), rfl⟩

/-- The kind of a document that follows the grammar is told by the name of its root. -/
theorem ofRoot_elementOf {document : Tree.Document} {read : List Token}
    (h : ReadsDocument document read) (hread : text.IsRun read) :
    DocumentKind.ofRoot (some (elementOf text document.root))
      = if equalIgnoringCase (text.wording (Tree.slotTokens document.root.name)) jobName then .job
        else .generic := by
  cases h with
  | @intro root trailing tokens hroot _ =>
    obtain ⟨name, hname, hrun⟩ := exists_name_of_readsElement hroot
      (hread.part (List.prefix_append tokens _).isInfix)
    have htext := text_excerptOf hrun (List.cons_ne_nil _ _)
    rw [DocumentKind.ofRoot, elementOf_eq, hname, Tree.slotTokens_some, htext]

/-- The reports of binding are, up to order, those of the elements and those of a root that is
not a job. -/
theorem bindingDiagnostics_perm {document : Tree.Document} {read rest : List Token}
    (h : ReadsDocument document read) (hread : text.IsRun read)
    (hdocument : Rule.document text.tokens.tokens = some ⟨document, rest, []⟩) :
    text.compile.bindingDiagnostics.Perm
      (document.root.elements.flatMap (elementReports text)
        ++ if equalIgnoringCase (text.wording (Tree.slotTokens document.root.name)) jobName
          then [] else unexpectedReports text document.root) := by
  rw [text.compile_of_readsDocument h hread hdocument]
  refine List.Perm.append_left _ ?_
  have hkind := text.ofRoot_elementOf h hread
  split at hkind
  · next hjob => rw [hkind, if_pos hjob, Context.unexpectedSymbols]
  · next hjob =>
    rw [hkind, if_neg hjob, Context.unexpectedSymbols, unexpectedReports]
    have hmap := (text.spans_referencesIn_perm document.root).map
      fun span => (⟨.binding .unexpectedSymbol, span⟩ : Diagnostic)
    rwa [List.map_map] at hmap

/-- A document that is read without a report is bound completely. Its template is the meaning of its
tree, with one element for each element that has a tag, the attributes of each element one by one,
and one symbol for each interpolation, all in the order of the tree. The reports of binding are, in
some order, those of the elements and, if the root is not named as that of a job, one for each
interpolation; none of them says that a part could not be bound, that a symbol is malformed or that
a node was unexpected. -/
theorem compile_of_cleanGrammar {document : Tree.Document}
    (hdocument : text.compile.document = some document)
    (hgrammar : text.compile.grammarDiagnostics = [])
    (hroot : document.root.isTriviaOnly = false) :
    ∃ template root, text.compile.template = some template ∧ template.root = some root
      ∧ root = elementOf text document.root
      ∧ root.elements = document.root.elements.map (elementOf text)
      ∧ (∀ element : Tree.Element,
        (elementOf text element).attributes = element.attributes.map (attributeOf text))
      ∧ root.symbols = document.root.interpolations.map (symbolOf text)
      ∧ text.compile.bindingDiagnostics.Perm
        (document.root.elements.flatMap (elementReports text)
          ++ if equalIgnoringCase (text.wording (Tree.slotTokens document.root.name)) jobName
            then [] else unexpectedReports text document.root)
      ∧ ∀ diagnostic ∈ text.compile.bindingDiagnostics,
        ∃ fault, diagnostic.problem = .binding fault ∧ isSemantic fault = true := by
  obtain ⟨read, rest, htokens, hreads, hrule⟩ :=
    text.exists_readsDocument hdocument hgrammar hroot
  have hread : text.IsRun read := List.IsPrefix.isInfix ⟨rest, htokens.symm⟩
  have hcompile := text.compile_of_readsDocument hreads hread hrule
  have hperm := text.bindingDiagnostics_perm hreads hread hrule
  have hcorresponds : Corresponds text document.root := by
    cases hreads with
    | intro helement _ => exact (corresponds_of_readsElement helement).2
  refine ⟨_, _, by rw [hcompile], rfl, rfl, hcorresponds.elements_eq, ?_,
    hcorresponds.symbols_eq, hperm, ?_⟩
  · intro element
    rw [elementOf_eq]
  · intro diagnostic hmem
    rcases List.mem_append.mp (hperm.subset hmem) with hmem | hmem
    · obtain ⟨element, -, hmem⟩ := List.mem_flatMap.mp hmem
      exact isSemantic_of_mem_elementReports hmem
    · split at hmem
      · simp at hmem
      · obtain ⟨whole, -, rfl⟩ := List.mem_map.mp hmem
        exact ⟨_, rfl, rfl⟩

/-- An element that is no job, with an interpolation and the closing tag of another element. -/
theorem compile_of_cleanGrammar_mismatch :
    (ofString (.ofNat 0) "<a k=\"@\x7bx/y\x7d@\"></b>").compile.grammarDiagnostics = []
      ∧ ∃ document template root,
        (ofString (.ofNat 0) "<a k=\"@\x7bx/y\x7d@\"></b>").compile.document = some document
          ∧ (ofString (.ofNat 0) "<a k=\"@\x7bx/y\x7d@\"></b>").compile.template = some template
          ∧ template.root = some root
          ∧ root.elements = document.root.elements.map
            (elementOf (ofString (.ofNat 0) "<a k=\"@\x7bx/y\x7d@\"></b>")) := by
  have hcompiled : (ofString (.ofNat 0) "<a k=\"@\x7bx/y\x7d@\"></b>").compile.grammarDiagnostics
        = []
      ∧ ((ofString (.ofNat 0) "<a k=\"@\x7bx/y\x7d@\"></b>").compile.document.filter
        fun document => !document.root.isTriviaOnly).isSome = true := by
    decide +kernel
  obtain ⟨hgrammar, hsome⟩ := hcompiled
  obtain ⟨document, hdocument⟩ := Option.isSome_iff_exists.mp hsome
  obtain ⟨hdocument, hroot⟩ := Option.filter_eq_some_iff.mp hdocument
  obtain ⟨template, root, htemplate, htemplateRoot, -, helements, -⟩ :=
    compile_of_cleanGrammar _ hdocument hgrammar (by simpa using hroot)
  exact ⟨hgrammar, document, template, root, hdocument, htemplate, htemplateRoot, helements⟩

end SourceText

end JobMarkup
