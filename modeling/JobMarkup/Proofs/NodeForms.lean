import JobMarkup.Proofs.ReadNodes
import JobMarkup.Proofs.TemplateShape

/-!
# The form of every node

Whatever tokens a tree is read from, its nodes have the form that their kind asks for: symbols are
parts with delimiters between them, content is single tokens and interpolations, trivia are blanks
and comments, and what stands between the tags of an element is either elements or one node of
content. Comments that no tag follows are read as an element without a tag, behind which no other
element begins; so among the children of an element it can only be the last one.
-/

namespace JobMarkup.Grammar

open JobMarkup.Tree

/-! ## Elements without a tag -/

/-- If a rule declines behind each value of some sort, a repetition can only end in such a value. -/
theorem Rule.not_of_mem_dropLast_many {α : Type} {rule : Rule α} {final : α → Prop}
    (h : ∀ tokens parsed, rule tokens = some parsed → final parsed.value → rule parsed.rest = none)
    (tokens : List Token) : ∀ value ∈ (rule.many tokens).value.dropLast, ¬final value := by
  rw [Rule.many]
  generalize tokens.length = bound
  induction bound generalizing tokens with
  | zero => simp [atMost]
  | succ bound ih =>
    rw [atMost]
    split
    · simp
    next first hfirst =>
    dsimp only
    by_cases hothers : (rule.atMost bound first.rest).value = []
    · simp [hothers]
    rw [List.dropLast_cons_of_ne_nil hothers, List.forall_mem_cons]
    refine ⟨fun hfinal => hothers ?_, ih first.rest⟩
    have hdeclines := h tokens first hfirst hfinal
    cases bound with
    | zero => rfl
    | succ bound => rw [atMost, hdeclines]

/-- An opening tag keeps the bracket with which it begins. -/
theorem openTag_openBracket (leading : List Node) (bracket tokens : List Token) :
    (openTag leading bracket tokens).value.openBracket = some bracket := by
  rw [openTag]
  split
  · rfl
  · split <;> rfl

/-- A body function does not touch the opening tag. -/
theorem isTriviaOnly_taggedElement {tokens front : List Token} {levels : Nat}
    {body : Element → List Token → Parsed Element} (hbody : Node.FillsIn tokens levels body)
    (hfront : front <:+ tokens) (leading : List Node) (bracket : List Token) :
    (taggedElement body leading bracket front).value.isTriviaOnly = false := by
  have hopen := openTag_openBracket leading bracket front
  rw [taggedElement]
  split
  · obtain ⟨children, closingTag, hvalue, -⟩ := hbody (openTag leading bracket front).value _
      ((openTag_suffix leading bracket front).trans hfront)
    simp only [hvalue, Element.isTriviaOnly, hopen, Option.isNone_some]
  · simp only [Element.isTriviaOnly, hopen, Option.isNone_some]

/-- Behind an element that is only trivia no element begins, so it is the last one of a repetition. -/
theorem elementWith_declines_of_isTriviaOnly {tokens : List Token} {levels : Nat}
    {body : Element → List Token → Parsed Element} (hbody : Node.FillsIn tokens levels body)
    {parsed : Parsed Element} (h : Rule.elementWith body tokens = some parsed)
    (htrivia : parsed.value.isTriviaOnly = true) : Rule.elementWith body parsed.rest = none := by
  rw [Rule.elementWith] at h
  split at h
  · next bracket hbracket =>
    obtain rfl := Option.some.inj h
    have hrest := (Rule.token_consumes _ _ bracket hbracket).1.trans
      ((trivia_suffix (skipBlanks tokens)).trans (skipBlanks_suffix tokens))
    have htagged := isTriviaOnly_taggedElement hbody hrest (trivia (skipBlanks tokens)).value
      bracket.value
    exact absurd htrivia (by simp [htagged])
  · next hbracket =>
    simp only [Option.ite_none_left_eq_some, Option.some.injEq] at h
    obtain ⟨-, rfl⟩ := h
    have htrivium : Rule.trivium (trivia (skipBlanks tokens)).rest = none :=
      Rule.trivium_consumes.many_declines (skipBlanks tokens)
    rw [elementWith_declines_iff, skipBlanks_of_follows (follows_of_trivium_eq_none htrivium)]
    exact beginsNoElement_iff.mpr ⟨htrivium, hbracket⟩

/-- No element begins behind an element without a tag. -/
theorem element_declines_of_isTriviaOnly {levels : Nat} {tokens : List Token}
    {parsed : Parsed Element} (h : Rule.element levels tokens = some parsed)
    (htrivia : parsed.value.isTriviaOnly = true) : Rule.element levels parsed.rest = none := by
  cases levels with
  | zero => exact elementWith_declines_of_isTriviaOnly Node.rawBody_fillsIn h htrivia
  | succ levels =>
    exact elementWith_declines_of_isTriviaOnly (Node.nestedBody_fillsIn levels) h htrivia

end JobMarkup.Grammar

namespace JobMarkup.Tree

open JobMarkup.Grammar

/-! ## Forms -/

/-- The form of an element. -/
structure Element.HasForm (root : Element) : Prop where
  /-- The children are elements, of which only the last may lack a tag, or one node of content that
  is not empty. -/
  children : (∃ elements : List Element, root.children = elements.map .element
      ∧ ∀ child ∈ elements.dropLast, child.isTriviaOnly = false)
    ∨ ∃ nodes, nodes ≠ [] ∧ root.children = [.content nodes]
  /-- Without a tag there is nothing but trivia. -/
  triviaOnly : root.isTriviaOnly = true → root = { leadingTrivia := root.leadingTrivia }
  /-- Nothing is within an element that closes itself or whose opening tag has no end. -/
  bare : root.tagEnd = none ∨ root.tagEndKind = some .slashClose →
    root.children = [] ∧ root.closingTag = none

/-- The form that a node of its kind has. -/
def Node.HasForm : Node → Prop
  | .single _ | .sequence _ => True
  | .partialSymbol name => IsPartialSymbol name
  | .compoundSymbol nodes => HasParts .period IsPartialNode nodes
  | .namespacedSymbol nodes => HasParts .slash HasCompoundShape nodes
  | .interpolation whole => HasInterpolationShape whole
  | .attribute attr => HasAttributeShape attr
  | .element root => root.HasForm
  | .closingTag tag => HasClosingTagShape tag
  | .comment whole => HasCommentShape whole
  | .content nodes => nodes ≠ [] ∧ ∀ node ∈ nodes, HasPieceShape node
  | .trivia nodes => ∀ node ∈ nodes, HasTriviumShape node
  | .document whole => HasDocumentShape whole

/-- Content that has been read has the form of content, also where it holds raw tokens. -/
theorem Node.content_hasForm {tokens : List Token} {nodes : List Node}
    (h : (content nodes).ReadIn tokens) : (content nodes).HasForm := by
  obtain ⟨terminators, hread⟩ | ⟨run, hne, -, rfl⟩ := h
  · exact hread.holds (Rule.content_yields terminators)
  · refine ⟨by simpa using hne, fun node hmem => ?_⟩
    obtain ⟨token, -, rfl⟩ := List.mem_map.mp hmem
    exact Or.inl ⟨token, rfl⟩

/-- An element that closes itself, or whose opening tag has no end, has no body. -/
theorem Element.bare_of_shape {child : Element → Prop} {root : Element}
    (h : HasElementShape child root)
    (hbare : root.tagEnd = none ∨ root.tagEndKind = some .slashClose) :
    root.children = [] ∧ root.closingTag = none := by
  cases h with
  | trivia => exact ⟨rfl, rfl⟩
  | bare _ _ hopened => exact ⟨hopened.children_eq, hopened.closingTag_eq⟩
  | @filled opened _ _ _ hbody _ _ =>
    rw [hasBody, Bool.and_eq_true, beq_iff_eq] at hbody
    rcases hbare with hnone | hkind
    · have hend : opened.tagEnd = none := hnone
      simp [Element.tagEndKind, hend] at hbody
    · exact absurd (hkind.symm.trans hbody.2) (by simp)

/-- An element that has been read has the form of an element at every level. -/
theorem Element.hasForm {tokens : List Token} {levels : Nat} {root : Element}
    (h : (Rule.element levels).ReadsIn tokens root) : root.HasForm := by
  have hshape : ∃ child, HasElementShape child root := by
    have hlevels := h.holds (Rule.element_yields levels)
    cases levels with
    | zero => exact ⟨_, hlevels⟩
    | succ levels => exact ⟨_, hlevels⟩
  obtain ⟨child, hshape⟩ := hshape
  refine ⟨?_, ?_, Element.bare_of_shape hshape⟩
  · have hchildren := (Node.isReadElement h).children
    generalize root.children = children at hchildren
    cases hchildren with
    | empty => exact Or.inl ⟨[], rfl, by simp⟩
    | @content levels nodes hcontent => exact Or.inr ⟨nodes, (Node.content_hasForm hcontent).1, rfl⟩
    | @children levels front _ =>
      refine Or.inl ⟨_, rfl, fun element hmem => ?_⟩
      have hnot := @Rule.not_of_mem_dropLast_many _ (Rule.element levels)
        (fun child => child.isTriviaOnly = true) (fun _ _ => element_declines_of_isTriviaOnly) front
        element hmem
      exact Bool.eq_false_iff.mpr hnot
  · intro htrivia
    rcases hshape.trivia_or_tagged with ⟨leading, -, -, rfl⟩ | htagged
    · rfl
    · obtain ⟨mark, hmark, -⟩ := htagged.tag.openBracket
      simp [Element.isTriviaOnly, hmark] at htrivia

/-- A node has the form that the rule for its kind ensures. -/
theorem Node.ReadIn.hasForm {tokens : List Token} {node : Node} (h : node.ReadIn tokens) :
    node.HasForm := by
  cases node with
  | single run => trivial
  | sequence nodes => trivial
  | partialSymbol name => exact Rule.ReadsIn.holds h Rule.partialSymbol_yields
  | compoundSymbol nodes => exact Rule.ReadsIn.holds h Rule.compoundSymbol_yields
  | namespacedSymbol nodes => exact Rule.ReadsIn.holds h Rule.namespacedSymbol_yields
  | interpolation whole => exact Rule.ReadsIn.holds h Rule.interpolation_yields
  | «attribute» attr => exact Rule.ReadsIn.holds h Rule.attribute_yields
  | element root =>
    obtain ⟨levels, hroot⟩ := h
    exact Element.hasForm hroot
  | closingTag tag => exact Rule.ReadsIn.holds h Rule.closingTag_yields
  | comment whole => exact Rule.ReadsIn.holds h Rule.comment_yields
  | content nodes => exact Node.content_hasForm h
  | trivia nodes =>
    obtain ⟨front, -, rfl⟩ := h
    exact trivia_shape front
  | document whole => exact Rule.ReadsIn.holds h Rule.document_yields

end JobMarkup.Tree

namespace JobMarkup.Grammar.Reader

open JobMarkup.Tree

/-- A reader in front of any tokens gives only trees whose nodes have the form of their kind. So a
document that it gives is bound, in any context, without the report of an unexpected node, and each
element that is bound in it has content or children, and not both. -/
theorem read_hasForm (reader : Reader) (production : Production) {whole : Node}
    (h : (reader.read production).1 = some whole) :
    (∀ node : Node, node.Within whole → node.HasForm)
      ∧ ∀ document, whole = .document document → ∀ context : Template.Context,
        (∃ reports,
          (context.bindDocument document).2.diagnostics = context.diagnostics ++ reports
            ∧ ∀ diagnostic ∈ reports, ∀ kind,
              diagnostic.problem ≠ .binding (.unexpectedNode kind))
          ∧ ∀ root ∈ (context.bindDocument document).1.root, ∀ element ∈ root.elements,
            element.content = none ∨ element.children = [] := by
  have hread : whole.ReadIn reader.rest := Reader.readIn h
  refine ⟨fun node hnode => (hread.within hnode).hasForm, ?_⟩
  rintro document rfl context
  exact ⟨Template.bindDocument_expectsNodes hread.hasForm context,
    Template.isExclusive_bindRoot context.text document.root⟩

/-- A document with a symbol that has no key and an interpolation without a symbol, in which no
element is closed. -/
theorem read_hasForm_malformed :
    let text := SourceText.ofString (.ofNat 0) "<a b=\"@\x7bn//\x7d@\"><c>x@\x7b<d>"
    ∃ document, ((ofStream text.tokens).read .document).1 = some (.document document)
      ∧ (∀ node : Node, node.Within (.document document) → node.HasForm)
      ∧ ∀ root ∈ ((Template.Context.ofText text).bindDocument document).1.root,
        ∀ element ∈ root.elements, element.content = none ∨ element.children = [] := by
  intro text
  have hsome : (Rule.document text.tokens.tokens).isSome = true := by
    decide +kernel
  obtain ⟨parsed, hparsed⟩ := Option.isSome_iff_exists.mp hsome
  have hread : ((ofStream text.tokens).read .document).1 = some (.document parsed.value) := by
    simp [read, Production.rule, ofStream, Rule.map, hparsed, Parsed.map]
  obtain ⟨hforms, hbound⟩ := read_hasForm _ .document hread
  exact ⟨parsed.value, hread, hforms, (hbound _ rfl (.ofText text)).2⟩

end JobMarkup.Grammar.Reader
