import JobMarkup.Proofs.CollectedReferences
import JobMarkup.Proofs.SymbolTexts
import JobMarkup.Proofs.UnreadMarkup

/-!
# Which symbols are recorded

Uses of variables are recorded while a document is bound, and binding does not enter every node:
it passes over the value of an attribute that lacks a quote, and over all attributes and children of
an element whose tags are not complete. A closing tag with another name, and a key that has been
given before, keep nothing out. So of the complete symbols in a document exactly those are recorded
that binding reaches, and in a document that is no job exactly these are reported.
-/

namespace JobMarkup.Template

open JobMarkup.Tree JobMarkup.Grammar JobMarkup.Variable

/-! ## Complete symbols -/

/-- Compound symbols with a slash between any two of them. -/
def areSegments : List Tree.Node → Bool
  | [.compoundSymbol _] => true
  | .compoundSymbol _ :: .single [token] :: rest => token.kind == .slash && areSegments rest
  | _ => false

/-- The symbol has at least two segments, and none is missing. -/
def IsCompleteSymbol (nodes : List Tree.Node) : Prop := areSegments nodes = true ∧ 2 ≤ nodes.length

/-- Segments end in one of them, and the nodes in front of it come in pairs. -/
theorem exists_concat_of_areSegments {nodes : List Tree.Node} (h : areSegments nodes = true) :
    nodes.length % 2 = 1 ∧ ∃ init parts, nodes = init ++ [.compoundSymbol parts] := by
  fun_induction areSegments nodes with
  | case1 parts => exact ⟨rfl, [], parts, rfl⟩
  | case2 parts token rest ih =>
    obtain ⟨hlength, init, last, rfl⟩ := ih (Bool.and_eq_true_iff.mp h).2
    refine ⟨?_, _ :: _ :: init, last, rfl⟩
    simp only [List.length_cons] at hlength ⊢
    omega
  | case3 => simp at h

/-! ## What binding reaches -/

/-- Binding goes on to the parts of the node: of a document, of content, of an attribute with both
quotes, and of an element with complete tags. -/
def IsEntered : Tree.Node → Prop
  | .document _ | .content _ => True
  | .attribute attr => attr.isTerminated = true
  | .element element => (boundNames element).isSome = true
  | _ => False

/-- All nodes around the node, up to and with the whole, are entered. -/
inductive IsReached (node : Tree.Node) : Tree.Node → Prop
  | refl : IsReached node node
  | part {part whole : Tree.Node} : IsReached node part → part ∈ whole.parts → IsEntered whole →
      IsReached node whole

variable {node part whole : Tree.Node}

/-- Below a node that binding enters, what is reached is what is reached from one of its parts. -/
theorem isReached_iff (hne : node ≠ whole) :
    IsReached node whole ↔ IsEntered whole ∧ ∃ part ∈ whole.parts, IsReached node part := by
  constructor
  · rintro (_ | ⟨hpart, hmem, hentered⟩)
    · exact absurd rfl hne
    · exact ⟨hentered, _, hmem, hpart⟩
  · rintro ⟨hentered, part, hmem, hpart⟩
    exact .part hpart hmem hentered

/-- In a node that is not entered only the node itself is reached. -/
theorem isReached_iff_eq (h : ¬IsEntered whole) : IsReached node whole ↔ node = whole := by
  constructor
  · rintro (_ | ⟨-, -, hentered⟩)
    · rfl
    · exact absurd hentered h
  · rintro rfl
    exact .refl

/-- What binding reaches lies within the whole. -/
theorem IsReached.within (h : IsReached node whole) : node.Within whole := by
  induction h with
  | refl => exact .refl node
  | part _ hmem _ ih => exact ih.of_mem_parts hmem

/-! ## What is found in a node -/

variable {text : SourceText} {reference : Reference}

/-- The use of a variable is found at an interpolation that binding reaches in the node. -/
def IsFoundIn (text : SourceText) (reference : Reference) (node : Tree.Node) : Prop :=
  ∃ whole, IsReached (.interpolation whole) node
    ∧ reference ∈ (bindInterpolation text whole).references

/-- What is found in a node that is entered is what is found in its parts. -/
theorem isFoundIn_iff (h : IsEntered node) :
    IsFoundIn text reference node ↔ ∃ part ∈ node.parts, IsFoundIn text reference part := by
  have hreached (whole : Interpolation) : IsReached (.interpolation whole) node
      ↔ ∃ part ∈ node.parts, IsReached (.interpolation whole) part := by
    rw [isReached_iff (by rintro rfl; exact h), and_iff_right h]
  simp only [IsFoundIn, hreached]
  constructor
  · rintro ⟨whole, ⟨part, hmem, hpart⟩, hreference⟩
    exact ⟨part, hmem, whole, hpart, hreference⟩
  · rintro ⟨part, hmem, whole, hpart, hreference⟩
    exact ⟨whole, ⟨part, hmem, hpart⟩, hreference⟩

/-- An interpolation is reached from itself, so what is found at it is what its own binding records. -/
theorem isFoundIn_interpolation (whole : Interpolation) :
    IsFoundIn text reference (.interpolation whole)
      ↔ reference ∈ (bindInterpolation text whole).references := by
  have hnot : ¬IsEntered (.interpolation whole) := fun h => h
  simp [IsFoundIn, isReached_iff_eq hnot]

/-- Nothing is found in a node that is neither entered nor an interpolation. -/
theorem not_isFoundIn (h : ¬IsEntered node) (hkind : node.kind ≠ .interpolation) :
    ¬IsFoundIn text reference node := by
  rintro ⟨whole, hreached, -⟩
  obtain rfl := (isReached_iff_eq h).mp hreached
  exact hkind rfl

/-- Nothing is found in the marks of a node. -/
theorem not_isFoundIn_slotParts (slot : Option (List Token)) :
    ¬∃ part ∈ slotParts slot, IsFoundIn text reference part := by
  rintro ⟨part, hmem, hfound⟩
  obtain ⟨tokens, -, rfl⟩ := List.mem_map.mp hmem
  exact @not_isFoundIn (.single tokens) text reference (fun h => h) (by simp [Tree.Node.kind]) hfound

/-- A part that is required records what it records by itself, whether or not it is there. -/
@[simp] theorem Bound.references_required {α : Type} (bound : Bound (Option α)) (part : BoundPart)
    (tokens : List Token) :
    (bound.required text part tokens).references = bound.references := by
  rw [required, references_bind]
  cases bound.value <;> simp [faultAbout, faultAt]

/-- Content records the uses at the interpolations among its nodes, whatever literal has begun. -/
theorem mem_references_bindValues {nodes : List Tree.Node}
    (hshape : ∀ node ∈ nodes, HasPieceShape node) (literal : List Token) :
    reference ∈ (bindValues text literal nodes).references
      ↔ ∃ part ∈ nodes, IsFoundIn text reference part := by
  induction nodes generalizing literal with
  | nil => simp [bindValues]
  | cons node rest ih =>
    obtain ⟨hnode, hothers⟩ := List.forall_mem_cons.mp hshape
    rw [List.exists_mem_cons_iff]
    rcases hnode with ⟨token, rfl⟩ | ⟨whole, rfl, -⟩
    · have hnone := @not_isFoundIn (.single [token]) text reference (fun h => h)
        (by simp [Tree.Node.kind])
      rw [bindValues, ih hothers, or_iff_right hnone]
    · rw [bindValues, isFoundIn_interpolation, ← ih hothers []]
      simp

/-- An attribute records what is found in it, which is nothing if it lacks a quote. -/
theorem mem_references_bindAttribute {attr : Tree.Attribute} (hshape : HasAttributeShape attr)
    (hsub : attr.tokens.Sublist text.tokens.tokens) :
    reference ∈ (bindAttribute text attr).references
      ↔ IsFoundIn text reference (.attribute attr) := by
  rw [bindAttribute]
  split
  · next hterminated =>
    have hname : attr.name.Sublist attr.tokens := by simp [Attribute.tokens_eq]
    obtain ⟨span, hspan, -⟩ :=
      SourceText.exists_cover_of_sublist (hname.trans hsub) hshape.name.ne_nil
    have hpieces : ∀ node ∈ attr.contents.getD [], HasPieceShape node := by
      cases hvalue : attr.contents with
      | none => simp
      | some nodes => exact (hshape.contents nodes hvalue).2
    obtain ⟨name, equal, openQuote, contents, closeQuote⟩ := attr
    have hnone := @not_isFoundIn (.partialSymbol name) text reference (fun h => h)
      (by simp [Tree.Node.kind])
    rw [isFoundIn_iff (show IsEntered (.attribute _) from hterminated)]
    simp only [hspan, Tree.Node.parts, List.cons_append, List.exists_mem_cons_iff,
      List.mem_append, or_and_right, exists_or, not_isFoundIn_slotParts, hnone, false_or, or_false]
    rw [Bound.references_bind, Bound.references_pure, List.append_nil,
      mem_references_bindValues hpieces]
    cases contents with
    | none => simp
    | some nodes =>
      have hcontent : IsEntered (.content nodes) := trivial
      simp [isFoundIn_iff hcontent, Tree.Node.parts]
  · next hopen =>
    have hnone := @not_isFoundIn (.attribute attr) text reference hopen (by simp [Tree.Node.kind])
    simpa using hnone

/-- The attributes of a tag record what is found in each of them, whatever keys stand before them. -/
theorem mem_references_bindAttributes {attributes : List Tree.Attribute}
    (hshape : ∀ attr ∈ attributes, HasAttributeShape attr)
    (hsub : (attributeTokens attributes).Sublist text.tokens.tokens) (keys : List String) :
    reference ∈ (bindAttributes text keys attributes).references
      ↔ ∃ attr ∈ attributes, IsFoundIn text reference (.attribute attr) := by
  induction attributes generalizing keys with
  | nil => simp [bindAttributes]
  | cons attr rest ih =>
    obtain ⟨hattr, hothers⟩ := List.forall_mem_cons.mp hshape
    rw [attributeTokens_cons] at hsub
    have hattrSub := (List.sublist_append_left _ _).trans hsub
    have hrestSub := (List.sublist_append_right _ _).trans hsub
    rw [List.exists_mem_cons_iff, ← mem_references_bindAttribute hattr hattrSub]
    cases hvalue : (bindAttribute text attr).value with
    | none =>
      rw [bindAttributes_cons_none keys attr rest hvalue, Bound.references_bind, List.mem_append,
        Bound.references_required, ih hothers hrestSub]
    | some bound =>
      -- a key that has been given before is reported, and its symbols are kept
      have hduplicate : (if bound.key.text ∈ keys then
          Bound.faultAt bound.span .duplicateAttribute else pure ()).references = [] := by
        split <;> rfl
      rw [bindAttributes_cons_some keys attr rest hvalue, Bound.references_bind,
        Bound.references_required, Bound.references_bind, hduplicate, List.nil_append,
        Bound.references_bind, Bound.references_pure, List.append_nil, List.mem_append,
        ih hothers hrestSub]

/-! ## What is found in elements -/

/-- A check of a closing name records no use. -/
theorem references_checkClosingName (name : Excerpt) (closingName : List Token) :
    (checkClosingName text name closingName).references = [] :=
  (checkClosingName_finds text name closingName).references_eq

/-- Children in a row record what is found in each of them. -/
theorem mem_references_bindChildren {children : List Tree.Element}
    (hchildren : ∀ child ∈ children, reference ∈ (bindElement text child).references
      ↔ IsFoundIn text reference (.element child)) :
    reference ∈ (bindChildren text (children.map .element)).references
      ↔ ∃ child ∈ children, IsFoundIn text reference (.element child) := by
  induction children with
  | nil => simp [bindChildren]
  | cons child rest ih =>
    obtain ⟨hchild, hothers⟩ := List.forall_mem_cons.mp hchildren
    rw [List.map_cons, List.exists_mem_cons_iff, ← hchild, ← ih hothers, bindChildren]
    split
    · next htrivia =>
      have hnames : boundNames child = none := by simp [boundNames, Tree.Element.form, htrivia]
      simp [bindElement_of_boundNames_eq_none hnames]
    · simp


/-- In an element with complete tags a use is found in an attribute or between the tags. -/
theorem isFoundIn_element {element : Tree.Element} (h : (boundNames element).isSome = true) :
    IsFoundIn text reference (.element element)
      ↔ (∃ attr ∈ element.attributes, IsFoundIn text reference (.attribute attr))
        ∨ ∃ part ∈ element.children, IsFoundIn text reference part := by
  have hentered : IsEntered (.element element) := h
  obtain ⟨leading, openBracket, name, attributes, tagEnd, children, closingTag⟩ := element
  have hleading := @not_isFoundIn (.trivia leading) text reference (fun h => h)
    (by simp [Tree.Node.kind])
  have hclosing (tag : ClosingTag) := @not_isFoundIn (.closingTag tag) text reference (fun h => h)
    (by simp [Tree.Node.kind])
  rw [isFoundIn_iff hentered]
  simp only [Tree.Node.parts, List.cons_append, List.exists_mem_cons_iff, List.mem_append,
    or_and_right, exists_or, not_isFoundIn_slotParts, hleading, false_or, or_false, List.mem_map,
    exists_exists_and_eq_and, hclosing, and_false, exists_false]

/-- An element records what is found in it, if each child that it may hold does. -/
theorem mem_references_of_elementShape {child : Tree.Element → Prop}
    (hchild : ∀ element, child element → element.tokens.Sublist text.tokens.tokens →
      (reference ∈ (bindElement text element).references
        ↔ IsFoundIn text reference (.element element)))
    {element : Tree.Element} (hshape : HasElementShape child element)
    (hsub : element.tokens.Sublist text.tokens.tokens) :
    reference ∈ (bindElement text element).references
      ↔ IsFoundIn text reference (.element element) := by
  cases hnames : boundNames element with
  | none =>
    have hnone := @not_isFoundIn (.element element) text reference (by simp [IsEntered, hnames])
      (by simp [Tree.Node.kind])
    simpa [bindElement_of_boundNames_eq_none hnames] using hnone
  | some names =>
    obtain ⟨name, closingName⟩ := names
    obtain ⟨leading, -, -, rfl⟩ | htagged := hshape.trivia_or_tagged
    · simp [boundNames, Tree.Element.form, Tree.Element.isTriviaOnly] at hnames
    obtain ⟨hnameSub, -, hbodySub⟩ := sublists_of_boundNames hnames
    have hname := htagged.tag.name name (slots_of_boundNames hnames).1
    obtain ⟨span, hspan, -⟩ := SourceText.exists_cover_of_sublist (hnameSub.trans hsub) hname
    have hattributes := @mem_references_bindAttributes text reference _ htagged.tag.attributes
      ((List.sublist_append_left _ _).trans (hbodySub.trans hsub)) []
    have hchildrenSub := (List.sublist_append_right _ _).trans (hbodySub.trans hsub)
    have hchildren := htagged.children
    rw [isFoundIn_element (by simp [hnames]), ← hattributes]
    generalize hnodes : element.children = nodes at hchildren hchildrenSub
    cases hchildren with
    | @content nodes hcontent =>
      have hentered : IsEntered (.content nodes) := trivial
      rw [bindElement_content hnames hspan hnodes]
      simp [references_checkClosingName, mem_references_bindValues hcontent.2,
        isFoundIn_iff hentered, Tree.Node.parts]
    | @children elements helements =>
      have hbound : reference ∈ (bindChildren text (elements.map .element)).references
          ↔ ∃ child ∈ elements, IsFoundIn text reference (.element child) := by
        refine mem_references_bindChildren fun child hmem => hchild child (helements child hmem) ?_
        refine List.Sublist.trans ?_ hchildrenSub
        rw [nodeTokens_map_element, List.flatMap_def]
        exact List.sublist_flatten_of_mem (List.mem_map_of_mem hmem)
      rw [bindElement_children hnames hspan hnodes]
      simp [references_checkClosingName, hbound]

/-- An element of any level records what is found in it, by induction on the level. -/
theorem mem_references_bindElement {levels : Nat} {element : Tree.Element}
    (hshape : HasShape levels element) (hsub : element.tokens.Sublist text.tokens.tokens) :
    reference ∈ (bindElement text element).references
      ↔ IsFoundIn text reference (.element element) := by
  induction levels generalizing element with
  | zero => exact mem_references_of_elementShape (fun _ hfalse => hfalse.elim) hshape hsub
  | succ levels ih => exact mem_references_of_elementShape (fun _ h => ih h) hshape hsub

/-- The uses of variables in a document are those at the interpolations that binding reaches. -/
theorem mem_references_bindRoot {document : Tree.Document}
    (hdocument : text.compile.document = some document) :
    reference ∈ (Context.bindRoot text document.root).references
      ↔ IsFoundIn text reference (.document document) := by
  obtain ⟨rest, reports, hrule, -⟩ := SourceText.exists_rule_of_document_eq hdocument
  have hshape : HasDocumentShape document := Rule.document_yields _ _ hrule
  have hroot : document.root.tokens.Sublist document.tokens := by
    rw [Document.tokens_eq]
    exact List.sublist_append_left _ _
  have hbound := @mem_references_bindElement text reference _ _ hshape.root
    (hroot.trans (SourceText.sublist_of_document_eq hdocument))
  have hentered : IsEntered (.document document) := trivial
  have htrailing := @not_isFoundIn (.trivia document.trailingTrivia) text reference (fun h => h)
    (by simp [Tree.Node.kind])
  have hparts : (Tree.Node.document document).parts
      = [.element document.root, .trivia document.trailingTrivia] := by
    cases document
    rfl
  rw [Context.bindRoot, Bound.references_required, hbound, isFoundIn_iff hentered, hparts]
  simp [htrailing]

end JobMarkup.Template

namespace JobMarkup.SourceText

open JobMarkup.Tree JobMarkup.Grammar JobMarkup.Template JobMarkup.Variable

variable {text : SourceText}

/-! ## Symbols at one place -/

/-- No two tokens of a text start at the same place. -/
theorem eq_of_start_eq {a b : Token} (ha : a ∈ text.tokens.tokens) (hb : b ∈ text.tokens.tokens)
    (hstart : a.span.start = b.span.start) : a = b := by
  have horder := text.inOrder_tokens
  have hordered (token : Token) (hmem : token ∈ text.tokens.tokens) :
      token.span.start ≤ token.span.stop :=
    horder.ordered _ (List.mem_map_of_mem hmem)
  by_contra hne
  have hapart : text.tokens.tokens.Pairwise fun a b => a.span.start ≠ b.span.start :=
    (List.pairwise_map.mp horder.pairwise).imp_of_mem fun hmem _ hlt =>
      ((hordered _ hmem).trans_lt hlt).ne
  have : Std.Symm fun a b : Token => a.span.start ≠ b.span.start := ⟨fun _ _ h => h.symm⟩
  exact hapart.forall ha hb hne hstart

/-- An interpolation with a symbol is read in front of the first token of the symbol. -/
theorem exists_front_of_symbol {tokens : List Token} {whole : Interpolation}
    (hwhole : Rule.interpolation.ReadsIn tokens whole) {nodes : List Tree.Node}
    (hsymbol : whole.symbol = some nodes) (hne : nodeTokens nodes ≠ []) :
    ∃ mark rest parsed, mark :: (nodeTokens nodes).head hne :: rest <:+ tokens
      ∧ Rule.interpolation (mark :: (nodeTokens nodes).head hne :: rest) = some parsed
      ∧ parsed.value = whole := by
  obtain ⟨front, parsed, hfront, hparsed, rfl⟩ := hwhole
  cases front with
  | nil => simp [Rule.interpolation] at hparsed
  | cons mark rest =>
    have hread := hparsed
    simp only [Rule.interpolation, Option.ite_none_right_eq_some, Option.some.injEq] at hread
    obtain ⟨-, hread⟩ := hread
    have hexact := Rule.namespacedSymbol_exact.optional_nodes rest
    rw [← hread] at hsymbol
    rw [show (Rule.namespacedSymbol.optional rest).value = some nodes from hsymbol] at hexact
    have hrest : rest = (nodeTokens nodes).head hne
        :: ((nodeTokens nodes).tail ++ (Rule.namespacedSymbol.optional rest).rest) := by
      rw [← List.cons_append, List.cons_head_tail]
      exact hexact.symm
    rw [hrest] at hfront hparsed
    exact ⟨mark, _, parsed, hfront, hparsed, rfl⟩

/-- The symbol of an interpolation of a text is a run of tokens. -/
theorem isRun_of_symbol {whole : Interpolation}
    (hwhole : Rule.interpolation.ReadsIn text.tokens.tokens whole) {nodes : List Tree.Node}
    (hsymbol : whole.symbol = some nodes) :
    HasSymbolShape nodes ∧ text.IsRun (nodeTokens nodes) := by
  have hshape : HasInterpolationShape whole := hwhole.holds Rule.interpolation_yields
  refine ⟨hshape.symbol nodes hsymbol, ?_⟩
  have hwholeRun : text.IsRun whole.tokens := hwhole.isInfix Rule.interpolation_exact
  refine hwholeRun.part ⟨whole.opening, slotTokens whole.closing, ?_⟩
  simp [Interpolation.tokens_eq, hsymbol]

/-- A symbol spans from the start of its first token. -/
theorem start_eq_of_cover {tokens : List Token} (hrun : text.IsRun tokens) {span : Span}
    (hspan : Token.cover tokens = some span) :
    ∃ hne : tokens ≠ [], (tokens.head hne).span.start = span.start := by
  have hne : tokens ≠ [] := by
    rintro rfl
    simp [Token.cover] at hspan
  rw [text.cover_of_sublist hrun.sublist hne, Option.some.injEq] at hspan
  exact ⟨hne, by rw [← hspan]⟩

/-- No two interpolations of a text have symbols at the same span. -/
theorem eq_of_symbol_cover {whole other : Interpolation}
    (hwhole : Rule.interpolation.ReadsIn text.tokens.tokens whole)
    (hother : Rule.interpolation.ReadsIn text.tokens.tokens other)
    {nodes others : List Tree.Node} (hnodes : whole.symbol = some nodes)
    (hothers : other.symbol = some others) {span : Span}
    (hspan : Token.cover (nodeTokens nodes) = some span)
    (hsame : Token.cover (nodeTokens others) = some span) : whole = other := by
  obtain ⟨hne, hstart⟩ := start_eq_of_cover (isRun_of_symbol hwhole hnodes).2 hspan
  obtain ⟨hne', hstart'⟩ := start_eq_of_cover (isRun_of_symbol hother hothers).2 hsame
  obtain ⟨mark, rest, parsed, hfront, hparsed, rfl⟩ := exists_front_of_symbol hwhole hnodes hne
  obtain ⟨mark', rest', parsed', hfront', hparsed', rfl⟩ :=
    exists_front_of_symbol hother hothers hne'
  have hfirst : (nodeTokens nodes).head hne = (nodeTokens others).head hne' := by
    refine eq_of_start_eq (hfront.subset ?_) (hfront'.subset ?_) (hstart.trans hstart'.symm)
    · simp
    · simp
  rw [← hfirst] at hfront' hparsed'
  -- the first token of the symbol stands in the text only once
  obtain ⟨front, htokens⟩ := hfront
  obtain ⟨front', htokens'⟩ := hfront'
  have hsplit : front ++ [mark] ++ (nodeTokens nodes).head hne :: rest
      = front' ++ [mark'] ++ (nodeTokens nodes).head hne :: rest' := by
    simpa using htokens.trans htokens'.symm
  have hnodup := text.nodup_tokens
  rw [← htokens, List.append_cons, List.perm_middle.nodup_iff, List.nodup_cons, List.mem_append,
    not_or] at hnodup
  obtain ⟨hfronts, -, hrests⟩ :=
    (List.append_cons_inj_of_notMem hnodup.1.1 hnodup.1.2).mp hsplit
  obtain ⟨-, hmarks⟩ := List.append_inj' hfronts rfl
  rw [← hrests, ← List.singleton_inj.mp hmarks, hparsed, Option.some.injEq] at hparsed'
  rw [hparsed']

/-! ## Recorded symbols -/

/-- A complete symbol is bound to the variable that its text names. -/
theorem bindSymbol_of_isCompleteSymbol {nodes : List Tree.Node} (hshape : HasSymbolShape nodes)
    (hrun : text.IsRun (nodeTokens nodes)) (hcomplete : IsCompleteSymbol nodes) :
    ∃ span written symbol, (Tree.Node.namespacedSymbol nodes).span = some span
      ∧ text.extract span = .ok written.toList
      ∧ Identifier.parse written = .ok symbol.identifier ∧ symbol.span = span
      ∧ bindSymbol text nodes = ⟨some symbol, [], [symbol.reference]⟩ := by
  obtain ⟨hsegments, htwo⟩ := hcomplete
  obtain ⟨hodd, init, parts, hnodes⟩ := exists_concat_of_areSegments hsegments
  obtain ⟨span, hcover, hextract, hbound⟩ := bindSymbol_of_shape hshape hrun
  rw [if_pos (by omega)] at hbound
  obtain ⟨symbol, hsymbol, hspan, hnamed⟩ := hbound
  have hend : (text.charsOf (nodeTokens nodes)).getLast? ≠ some '/' := by
    obtain ⟨first, before, slash, -, -, hlast | ⟨key, hkey, hlast⟩⟩ :=
      HasParts.exists_concat hshape (by omega)
    · rw [hnodes] at hlast
      simpa using (List.append_inj' hlast rfl).2
    · rw [hlast, List.append_cons] at hrun ⊢
      rw [nodeTokens_append, nodeTokens_cons, nodeTokens_nil, List.append_nil] at hrun ⊢
      have hkeyRun : text.IsRun key.tokens := hrun.part (List.suffix_append _ _).isInfix
      rw [charsOf_append,
        List.getLast?_append_of_ne_nil _ (hkeyRun.charsOf_ne_nil hkey.tokens_ne_nil)]
      exact fun hslash => hkeyRun.slash_not_mem hkey.kind_mem (List.mem_of_getLast? hslash)
  rw [Symbol.NamedBy, wording, String.toList_ofList, if_neg hend] at hnamed
  exact ⟨span, _, symbol, hcover, hextract, hnamed.2.2, hspan, hsymbol⟩

/-- A complete symbol in a document names a variable, and its use is recorded exactly if binding
reaches the interpolation. -/
theorem mem_references_iff_isReached {document : Tree.Document}
    (hdocument : text.compile.document = some document) {whole : Interpolation}
    (hwhole : (Tree.Node.interpolation whole).Within (.document document))
    {nodes : List Tree.Node} (hsymbol : whole.symbol = some nodes)
    (hcomplete : IsCompleteSymbol nodes) :
    ∃ span written identifier, (Tree.Node.namespacedSymbol nodes).span = some span
      ∧ text.extract span = .ok written.toList ∧ Identifier.parse written = .ok identifier
      ∧ (IsReached (.interpolation whole) (.document document) →
        ⟨identifier, span⟩ ∈ (Context.bindRoot text document.root).references)
      ∧ ∀ reference ∈ (Context.bindRoot text document.root).references, reference.span = span →
        IsReached (.interpolation whole) (.document document) := by
  obtain ⟨rest, reports, hrule, -⟩ := exists_rule_of_document_eq hdocument
  have hread : (Tree.Node.document document).ReadIn text.tokens.tokens :=
    ⟨_, _, List.suffix_refl _, hrule, rfl⟩
  obtain ⟨hshape, hrun⟩ := isRun_of_symbol (hread.within hwhole) hsymbol
  obtain ⟨span, written, symbol, hcover, hextract, hparse, rfl, hbound⟩ :=
    bindSymbol_of_isCompleteSymbol hshape hrun hcomplete
  refine ⟨_, written, symbol.identifier, hcover, hextract, hparse, fun hreached => ?_,
    fun reference hmem hspan => ?_⟩
  · refine (mem_references_bindRoot hdocument).mpr ⟨whole, hreached, ?_⟩
    simp [bindInterpolation, hsymbol, hbound, Symbol.reference]
  · obtain ⟨other, hreached, hfound⟩ := (mem_references_bindRoot hdocument).mp hmem
    have hother := hread.within hreached.within
    cases hothers : other.symbol with
    | none => simp [bindInterpolation, hothers] at hfound
    | some others =>
      obtain ⟨hshape', hrun'⟩ := isRun_of_symbol hother hothers
      obtain ⟨place, hplace, -, hbinding⟩ := bindSymbol_of_shape hshape' hrun'
      simp only [bindInterpolation, hothers] at hfound
      split at hbinding
      · obtain ⟨bound, hbinding, rfl, -⟩ := hbinding
        obtain rfl : reference = bound.reference := by simpa [hbinding] using hfound
        have hsame := eq_of_symbol_cover (hread.within hwhole) hother hsymbol hothers hcover
          (hplace.trans (congrArg some hspan))
        rwa [hsame]
      · simp [hbinding] at hfound

/-- A document that is read from a text, and in it an interpolation whose symbol has at least two
segments and lacks none. The text of the symbol names a variable. The use of this variable at the
span of the symbol is recorded exactly if each attribute around the interpolation has both its
quotes and each element around it has complete tags; a closing tag with another name and repeated
keys do not matter. If the document is not a job, the symbol is reported as unexpected exactly then
as well. -/
theorem compile_records {document : Tree.Document}
    (hdocument : text.compile.document = some document) {whole : Interpolation}
    (hwhole : (Tree.Node.interpolation whole).Within (.document document))
    {nodes : List Tree.Node} (hsymbol : whole.symbol = some nodes)
    (hcomplete : IsCompleteSymbol nodes) :
    ∃ span written identifier template, (Tree.Node.namespacedSymbol nodes).span = some span
      ∧ text.extract span = .ok written.toList ∧ Identifier.parse written = .ok identifier
      ∧ text.compile.template = some template
      ∧ (span ∈ (template.references.get? identifier).getD []
        ↔ IsReached (.interpolation whole) (.document document))
      ∧ (template.kind = .generic →
        (⟨.binding .unexpectedSymbol, span⟩ ∈ text.compile.bindingDiagnostics
          ↔ IsReached (.interpolation whole) (.document document))) := by
  obtain ⟨span, written, identifier, hspan, hextract, hparse, hrecorded, hreached⟩ :=
    mem_references_iff_isReached hdocument hwhole hsymbol hcomplete
  refine ⟨span, written, identifier, _, hspan, hextract, hparse, template_of_document_eq hdocument,
    ?_, fun hgeneric => ?_⟩
  · have huses : ((References.empty.addAll
        (Context.bindRoot text document.root).references).get? identifier).getD []
          = References.spansOf (Context.bindRoot text document.root).references identifier := by
      rw [References.get?_addAll]
      split
      · next hnone => simp [hnone]
      · rfl
    rw [huses, References.spansOf]
    constructor
    · intro hmem
      obtain ⟨reference, hreference, heq⟩ := List.mem_map.mp hmem
      exact hreached reference (List.mem_filter.mp hreference).1 heq
    · intro h
      exact List.mem_map.mpr ⟨_, List.mem_filter.mpr ⟨hrecorded h, by simp⟩, rfl⟩
  · have hkind : DocumentKind.ofRoot (Context.bindRoot text document.root).value = .generic :=
      hgeneric
    have hothers : (⟨.binding .unexpectedSymbol, span⟩ : Diagnostic)
        ∉ (Context.bindRoot text document.root).diagnostics := by
      intro hmem
      obtain ⟨-, fault, hproblem, hfault⟩ := (bindRoot_finds hdocument).1.reports _ hmem
      exact hfault (Problem.binding.inj hproblem).symm
    have hspans := References.spans_addAll_perm .empty
      (Context.bindRoot text document.root).references
    rw [bindingDiagnostics_of_document_eq hdocument, hkind, Context.unexpectedSymbols,
      List.mem_append, or_iff_right hothers]
    constructor
    · intro hmem
      obtain ⟨place, hplace, heq⟩ := List.mem_map.mp hmem
      obtain rfl : place = span := congrArg Diagnostic.span heq
      obtain ⟨reference, hreference, heq⟩ := List.mem_map.mp (hspans.mem_iff.mp hplace)
      exact hreached reference hreference heq
    · intro h
      refine List.mem_map.mpr ⟨span, hspans.mem_iff.mpr ?_, rfl⟩
      exact List.mem_map.mpr ⟨_, hrecorded h, rfl⟩

/-- A symbol of two segments in front of the value of the first attribute of the root. -/
theorem exists_first_symbol {document : Tree.Document} {terminated named : Bool}
    (h : (document.root.attributes.head?.bind fun attr => attr.contents.bind fun nodes =>
      nodes.head?.bind fun node => match node with
        | .interpolation whole => whole.symbol.map fun symbol =>
          (areSegments symbol, symbol.length, attr.isTerminated, (boundNames document.root).isSome)
        | _ => none) = some (true, 3, terminated, named)) :
    ∃ whole nodes, (Tree.Node.interpolation whole).Within (.document document)
      ∧ whole.symbol = some nodes ∧ IsCompleteSymbol nodes
      ∧ (terminated = true → named = true →
        IsReached (.interpolation whole) (.document document)) := by
  simp only [Option.bind_eq_some_iff] at h
  obtain ⟨attr, hattr, values, hcontents, node, hnode, hsymbol⟩ := h
  split at hsymbol
  · next whole =>
    obtain ⟨nodes, hnodes, heq⟩ := Option.map_eq_some_iff.mp hsymbol
    simp only [Prod.mk.injEq] at heq
    obtain ⟨hsegments, hlength, hterminated, hnames⟩ := heq
    -- the nodes from the interpolation up to the document, each of them a part of the next one
    have hpiece : .interpolation whole ∈ (Tree.Node.content values).parts :=
      List.mem_of_mem_head? hnode
    have hcontent : .content values ∈ (Tree.Node.attribute attr).parts := by
      obtain ⟨key, equal, openQuote, contents, closeQuote⟩ := attr
      obtain rfl : contents = some values := hcontents
      simp [Tree.Node.parts]
    have hattribute : .attribute attr ∈ (Tree.Node.element document.root).parts := by
      cases hroot : document.root
      simp only [hroot] at hattr
      simp [Tree.Node.parts, List.mem_of_mem_head? hattr]
    have hroot : .element document.root ∈ (Tree.Node.document document).parts := by
      cases document
      simp [Tree.Node.parts]
    refine ⟨whole, nodes, ?_, hnodes, ⟨hsegments, by omega⟩, fun hends hcloses => ?_⟩
    · exact .part hpiece (.part hcontent (.part hattribute (.part hroot (.refl _))))
    · rw [hends] at hterminated
      rw [hcloses] at hnames
      exact .part (.part (.part (.part .refl hpiece trivial) hcontent hterminated) hattribute
        hnames) hroot trivial
  · simp at hsymbol

/-- A symbol in an element whose closing tag has another name is recorded and reported. -/
theorem compile_records_mismatch :
    let text := ofString (.ofNat 0) "<a x=\"@\x7bn/k\x7d@\"></b>"
    ∃ document whole nodes, text.compile.document = some document
      ∧ (Tree.Node.interpolation whole).Within (.document document) ∧ whole.symbol = some nodes
      ∧ IsCompleteSymbol nodes
      ∧ ∃ span written identifier template, (Tree.Node.namespacedSymbol nodes).span = some span
        ∧ text.extract span = .ok written.toList ∧ Identifier.parse written = .ok identifier
        ∧ text.compile.template = some template
        ∧ span ∈ (template.references.get? identifier).getD []
        ∧ (template.kind = .generic →
          ⟨.binding .unexpectedSymbol, span⟩ ∈ text.compile.bindingDiagnostics) := by
  intro text
  have hread : (text.compile.document.bind fun document =>
      document.root.attributes.head?.bind fun attr => attr.contents.bind fun nodes =>
        nodes.head?.bind fun node => match node with
          | .interpolation whole => whole.symbol.map fun symbol =>
            (areSegments symbol, symbol.length, attr.isTerminated,
              (boundNames document.root).isSome)
          | _ => none) = some (true, 3, true, true) := by
    decide +kernel
  obtain ⟨document, hdocument, hread⟩ := Option.bind_eq_some_iff.mp hread
  obtain ⟨whole, nodes, hwhole, hsymbol, hcomplete, hreached⟩ := exists_first_symbol hread
  obtain ⟨span, written, identifier, template, hspan, hextract, hparse, htemplate, hrecorded,
    hreported⟩ := compile_records hdocument hwhole hsymbol hcomplete
  exact ⟨document, whole, nodes, hdocument, hwhole, hsymbol, hcomplete, span, written, identifier,
    template, hspan, hextract, hparse, htemplate, hrecorded.mpr (hreached rfl rfl),
    fun hgeneric => (hreported hgeneric).mpr (hreached rfl rfl)⟩

/-- Not every complete symbol is recorded: none is in an attribute without a closing quote. -/
theorem not_forall_complete_recorded :
    ¬∀ (text : SourceText) (document : Tree.Document) (whole : Interpolation)
      (nodes : List Tree.Node) (span : Span) (written : String) (identifier : Identifier),
      text.compile.document = some document →
      (Tree.Node.interpolation whole).Within (.document document) → whole.symbol = some nodes →
      IsCompleteSymbol nodes → (Tree.Node.namespacedSymbol nodes).span = some span →
      text.extract span = .ok written.toList → Identifier.parse written = .ok identifier →
      span ∈ (text.compile.references.get? identifier).getD [] := by
  intro hall
  have hread : ((ofString (.ofNat 0) "<a x=\"@\x7bn/k\x7d@/>").compile.document.bind
      fun document => document.root.attributes.head?.bind fun attr => attr.contents.bind fun nodes =>
        nodes.head?.bind fun node => match node with
          | .interpolation whole => whole.symbol.map fun symbol =>
            (areSegments symbol, symbol.length, attr.isTerminated,
              (boundNames document.root).isSome)
          | _ => none) = some (true, 3, false, true) := by
    decide +kernel
  obtain ⟨document, hdocument, hread⟩ := Option.bind_eq_some_iff.mp hread
  obtain ⟨whole, nodes, hwhole, hsymbol, hcomplete, -⟩ := exists_first_symbol hread
  obtain ⟨span, written, identifier, hspan, hextract, hparse, -⟩ :=
    mem_references_iff_isReached hdocument hwhole hsymbol hcomplete
  have hrecorded := hall _ document whole nodes span written identifier hdocument hwhole hsymbol
    hcomplete hspan hextract hparse
  have hnone : (ofString (.ofNat 0) "<a x=\"@\x7bn/k\x7d@/>").compile.references = .empty := by
    decide +kernel
  simp [hnone, References.get?, References.empty] at hrecorded

end JobMarkup.SourceText
