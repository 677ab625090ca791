import JobMarkup.Proofs.PartialBinding

/-!
# The shape of every template

Whatever tree is bound, each element of the template has content or children, and not both. The
binder would also report nodes that stand where it does not know what to do with them. Trees that
are read have no such nodes, so there are no such reports: values are single tokens and
interpolations, and elements hold elements or one node of content.
-/

namespace JobMarkup.Template

open JobMarkup.Grammar

/-! ## Content and children -/

/-- The element has content or children, and not both. -/
def Element.IsExclusive (element : Element) : Prop :=
  element.content = none ∨ element.children = []

section

variable (text : SourceText)

mutual

/-- An element is bound with its content or with its children, and so are all elements below it. -/
theorem isExclusive_bindElement :
    ∀ element : Tree.Element, ∀ root ∈ (bindElement text element).value,
      ∀ bound ∈ root.elements, bound.IsExclusive
  | ⟨leading, openBracket, name, attributes, tagEnd, children, closingTag⟩ => by
    intro root hroot
    rw [bindElement] at hroot
    split at hroot
    · split at hroot
      · simp only [Bound.value_bind] at hroot
        split at hroot
        · obtain rfl := Option.some.inj hroot
          simp [elements_mk, Element.IsExclusive]
        · have hchildren := isExclusive_bindChildren children
          obtain rfl := Option.some.inj hroot
          simp only [elements_mk, List.forall_mem_cons, List.forall_mem_flatMap]
          exact ⟨Or.inl rfl, hchildren⟩
      · simp at hroot
    · simp at hroot

/-- Elements that are bound from children have content or children, and so have all below them. -/
theorem isExclusive_bindChildren :
    ∀ children : List Tree.Node, ∀ child ∈ (bindChildren text children).value,
      ∀ bound ∈ child.elements, bound.IsExclusive
  | [] => by simp [bindChildren]
  | node :: rest => by
    have hrest := isExclusive_bindChildren rest
    cases node with
    | element child =>
      rw [bindChildren]
      split
      · exact hrest
      · have hchild := isExclusive_bindElement child
        simp only [Bound.value_bind, Bound.value_required, Bound.value_pure,
          List.forall_mem_append]
        exact ⟨by simpa using hchild, hrest⟩
    | _ => exact hrest

end

/-- The root and all elements below it have content or children, and not both. -/
theorem isExclusive_bindRoot (root : Tree.Element) :
    ∀ bound ∈ (Context.bindRoot text root).value, ∀ element ∈ bound.elements,
      element.IsExclusive := by
  rw [Context.bindRoot, Bound.value_required]
  exact isExclusive_bindElement text root

end

/-! ## Reports of nodes -/

namespace Bound

variable {α β : Type}

/-- No node has been reported as unexpected. -/
def ExpectsNodes (bound : Bound α) : Prop :=
  ∀ diagnostic ∈ bound.diagnostics, ∀ kind, diagnostic.problem ≠ .binding (.unexpectedNode kind)

namespace ExpectsNodes

/-- A value on its own reports no node. -/
theorem pure (value : α) : (pure value : Bound α).ExpectsNodes := by simp [ExpectsNodes]

/-- A sequence reports no node if neither of its parts does. -/
theorem bind {first : Bound α} {next : α → Bound β} (h : first.ExpectsNodes)
    (hnext : (next first.value).ExpectsNodes) : (first >>= next).ExpectsNodes := by
  rw [ExpectsNodes, diagnostics_bind]
  exact List.forall_mem_append.mpr ⟨h, hnext⟩

/-- A fault that is not about a node reports none. -/
theorem faultAt {fault : BindingFault} (h : ∀ kind, fault ≠ .unexpectedNode kind) (span : Span) :
    (faultAt span fault).ExpectsNodes := by
  simpa [ExpectsNodes, Bound.faultAt] using h

/-- A fault about tokens reports no node, if it is another fault. -/
theorem faultAbout {fault : BindingFault} (h : ∀ kind, fault ≠ .unexpectedNode kind)
    (text : SourceText) (tokens : List Token) : (faultAbout text tokens fault).ExpectsNodes :=
  faultAt h _

/-- A part that is required may be reported as missing, which is not a report of a node. -/
theorem required {bound : Bound (Option α)} (h : bound.ExpectsNodes) (text : SourceText)
    (part : BoundPart) (tokens : List Token) : (bound.required text part tokens).ExpectsNodes := by
  apply h.bind
  cases bound.value with
  | some value => exact pure (some value)
  | none => exact (faultAbout (by simp) text tokens).bind (pure none)

end ExpectsNodes

end Bound

section

variable {text : SourceText}

/-- A symbol reports no node. -/
theorem bindSymbol_expectsNodes (nodes : List Tree.Node) :
    (bindSymbol text nodes).ExpectsNodes := by
  rw [bindSymbol]
  split
  · dsimp only
    split
    · simp [Bound.ExpectsNodes]
    · exact .pure none
  · exact (Bound.ExpectsNodes.faultAbout (by simp) text _).bind (.pure none)

/-- An interpolation reports no node. -/
theorem bindInterpolation_expectsNodes (whole : Tree.Interpolation) :
    (bindInterpolation text whole).ExpectsNodes := by
  rw [bindInterpolation]
  split
  · exact bindSymbol_expectsNodes _
  · exact .pure none

/-- Content of single tokens and interpolations reports no node. -/
theorem bindValues_expectsNodes {nodes : List Tree.Node} (h : ∀ node ∈ nodes, HasPieceShape node)
    (literal : List Token) : (bindValues text literal nodes).ExpectsNodes := by
  induction nodes generalizing literal with
  | nil => exact .pure _
  | cons node rest ih =>
    obtain ⟨hnode, hrest⟩ := List.forall_mem_cons.mp h
    rcases hnode with ⟨token, rfl⟩ | ⟨whole, rfl, -⟩
    · exact ih hrest _
    · have hsymbol := (@bindInterpolation_expectsNodes text whole).required text .symbol
        whole.tokens
      exact hsymbol.bind ((ih hrest []).bind (.pure _))

/-- An attribute of the shape that is read reports no node. -/
theorem bindAttribute_expectsNodes {attr : Tree.Attribute} (h : HasAttributeShape attr) :
    (bindAttribute text attr).ExpectsNodes := by
  have hcontents : ∀ node ∈ attr.contents.getD [], HasPieceShape node := by
    cases hslot : attr.contents with
    | none => simp
    | some nodes => exact (h.contents nodes hslot).2
  rw [bindAttribute]
  split
  · split
    · exact (bindValues_expectsNodes hcontents []).bind (.pure _)
    · exact .pure none
  · exact .pure none

/-- Attributes of the shape that is read report no node, whatever keys stand before them. -/
theorem bindAttributes_expectsNodes {attributes : List Tree.Attribute}
    (h : ∀ attr ∈ attributes, HasAttributeShape attr) (keys : List String) :
    (bindAttributes text keys attributes).ExpectsNodes := by
  induction attributes generalizing keys with
  | nil => exact .pure _
  | cons attr rest ih =>
    obtain ⟨hattr, hrest⟩ := List.forall_mem_cons.mp h
    rw [bindAttributes]
    apply ((bindAttribute_expectsNodes hattr).required text .attribute attr.tokens).bind
    split
    · next bound _ =>
      have hothers : (bindAttributes text (bound.key.text :: keys) rest >>= fun others =>
          pure (bound :: others)).ExpectsNodes :=
        (ih hrest (bound.key.text :: keys)).bind (.pure _)
      split
      · exact (Bound.ExpectsNodes.faultAt (by simp) _).bind hothers
      · exact hothers
    · exact ih hrest keys

/-- A check of a closing name reports no node. -/
theorem checkClosingName_expectsNodes (name : Excerpt) (closingName : List Token) :
    (checkClosingName text name closingName).ExpectsNodes := by
  rw [checkClosingName]
  split
  · split
    · exact .pure ()
    · exact .faultAt (by simp) _
  · exact .pure ()

/-- Children that are all elements report no node, if none of them does. -/
theorem bindChildren_expectsNodes {children : List Tree.Element}
    (h : ∀ child ∈ children, (bindElement text child).ExpectsNodes) :
    (bindChildren text (children.map .element)).ExpectsNodes := by
  induction children with
  | nil => exact .pure []
  | cons child rest ih =>
    obtain ⟨hchild, hrest⟩ := List.forall_mem_cons.mp h
    rw [List.map_cons, bindChildren]
    split
    · exact ih hrest
    · exact (hchild.required text .element child.tokens).bind ((ih hrest).bind (.pure _))

/-- An element is bound without a report of a node if the elements in it are. -/
theorem bindElement_expectsNodes {child : Tree.Element → Prop}
    (hchild : ∀ element, child element → (bindElement text element).ExpectsNodes)
    {element : Tree.Element} (h : HasElementShape child element) :
    (bindElement text element).ExpectsNodes := by
  rcases h.trivia_or_tagged with ⟨leading, -, -, rfl⟩ | htagged
  · exact .pure none
  have hattributes := @bindAttributes_expectsNodes text _ htagged.tag.attributes []
  have hchildren := htagged.children
  generalize hnodes : element.children = nodes at hchildren
  cases hnames : boundNames element with
  | none =>
    rw [bindElement_of_boundNames_eq_none hnames]
    exact .pure none
  | some names =>
    obtain ⟨name, closingName⟩ := names
    cases hspan : Token.cover name with
    | none =>
      rw [bindElement_of_cover_eq_none hnames hspan]
      exact .pure none
    | some span =>
      have hclosing := @checkClosingName_expectsNodes text (.ofSpan text span) closingName
      cases hchildren with
      | content hcontent =>
        rw [bindElement_content hnames hspan hnodes]
        exact hclosing.bind (hattributes.bind
          ((bindValues_expectsNodes hcontent.2 []).bind (.pure _)))
      | children helements =>
        rw [bindElement_children hnames hspan hnodes]
        exact hclosing.bind (hattributes.bind
          ((bindChildren_expectsNodes fun child hmem => hchild child (helements child hmem)).bind
            (.pure _)))

/-- An element of the shape that is read reports no node, by induction on the level. -/
theorem bindElement_expectsNodes_of_shape {levels : Nat} {element : Tree.Element}
    (h : HasShape levels element) : (bindElement text element).ExpectsNodes := by
  induction levels generalizing element with
  | zero => exact bindElement_expectsNodes (fun _ hfalse => hfalse.elim) h
  | succ levels ih => exact bindElement_expectsNodes (fun _ hshape => ih hshape) h

end

/-- Binding a document that has been read adds to the diagnostics that there are, and reports no
node as unexpected. -/
theorem bindDocument_expectsNodes {document : Tree.Document} (h : HasDocumentShape document)
    (context : Context) :
    ∃ reports, (context.bindDocument document).2.diagnostics = context.diagnostics ++ reports
      ∧ ∀ diagnostic ∈ reports, ∀ kind, diagnostic.problem ≠ .binding (.unexpectedNode kind) := by
  have hroot := (@bindElement_expectsNodes_of_shape context.text _ _ h.root).required context.text
    .element document.root.tokens
  have huses (kind : DocumentKind) (references : Variable.References) :
      ∀ diagnostic ∈ Context.unexpectedSymbols kind references,
        ∀ kind, diagnostic.problem ≠ .binding (.unexpectedNode kind) := by
    cases kind <;> simp [Context.unexpectedSymbols]
  exact ⟨_, List.append_assoc .., List.forall_mem_append.mpr ⟨hroot, huses _ _⟩⟩

end JobMarkup.Template
