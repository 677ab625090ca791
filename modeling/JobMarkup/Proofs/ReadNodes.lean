import JobMarkup.Grammar.Reader
import JobMarkup.Proofs.TreeShape

/-!
# The rule behind every node

Each node of a tree that is read has been read by the rule for nodes of its kind, in front of some
end of the tokens; marks and runs of blanks are the leaves. So what a rule ensures of all that it
reads holds of each node of its kind, wherever the node stands in the tree.

For each kind of node there is one lemma about its parts. Only bodies of elements are read by
different rules: elements by the rule for one level less, text by the rule for content, and below
the last level raw tokens.
-/

namespace JobMarkup.Grammar

open JobMarkup.Tree

/-! ## Values that are read at some place -/

namespace Rule

variable {α β : Type} {rule : Rule α} {tokens front : List Token} {value : α}

/-- The rule reads the value in front of some end of the tokens. -/
def ReadsIn (rule : Rule α) (tokens : List Token) (value : α) : Prop :=
  ∃ front parsed, front <:+ tokens ∧ rule front = some parsed ∧ parsed.value = value

/-- What holds of all that a rule reads. -/
theorem ReadsIn.holds (h : rule.ReadsIn tokens value) {holds : α → Prop}
    (hyields : rule.Yields holds) : holds value := by
  obtain ⟨front, parsed, -, hparsed, rfl⟩ := h
  exact hyields front parsed hparsed

/-- What a rule keeps is a stretch of the tokens. -/
theorem ReadsIn.isInfix (h : rule.ReadsIn tokens value) {tokensOf : α → List Token}
    (hexact : rule.Exact tokensOf) : tokensOf value <:+: tokens := by
  obtain ⟨front, parsed, hfront, hparsed, rfl⟩ := h
  exact List.IsInfix.trans ⟨[], parsed.rest, hexact front parsed hparsed⟩ hfront.isInfix

/-- What is read by a rule whose values are changed has been read by the rule itself. -/
theorem ReadsIn.of_map {f : α → β} {value : β} (h : (rule.map f).ReadsIn tokens value) :
    ∃ read, rule.ReadsIn tokens read ∧ f read = value := by
  obtain ⟨front, parsed, hfront, hparsed, rfl⟩ := h
  simp only [Rule.map, Option.map_eq_some_iff] at hparsed
  obtain ⟨read, hread, rfl⟩ := hparsed
  exact ⟨read.value, ⟨front, read, hfront, hread, rfl⟩, rfl⟩

/-- An optional value that is there has been read by its rule. -/
theorem readsIn_optional (rule : Rule α) (hfront : front <:+ tokens) :
    ∀ value ∈ (rule.optional front).value, rule.ReadsIn tokens value := by
  rw [optional]
  split
  · next parsed hparsed =>
    rintro value hvalue
    exact ⟨front, parsed, hfront, hparsed, Option.some.inj hvalue⟩
  · simp

/-- A repetition uses its rule in front of one end of the tokens after the other. -/
theorem readsIn_many (hrule : rule.Consumes) (hfront : front <:+ tokens) :
    ∀ value ∈ (rule.many front).value, rule.ReadsIn tokens value := by
  rw [many]
  generalize front.length = bound
  induction bound generalizing front with
  | zero => simp [atMost]
  | succ bound ih =>
    rw [atMost]
    split
    · simp
    · next first hfirst =>
      have hrest := (hrule front first hfirst).1.trans hfront
      exact List.forall_mem_cons.mpr ⟨⟨front, first, hfront, hfirst, rfl⟩, ih hrest⟩

/-- The nodes of a symbol are delimiters and what the rule for its parts reads. -/
theorem ReadsIn.of_mem_joined {delimiter : TokenKind} {missing : GrammarFault} {part : Rule Node}
    (hpart : part.Consumes) {nodes : List Node}
    (h : (joined delimiter missing part).ReadsIn tokens nodes) :
    ∀ node ∈ nodes, (∃ token, node = .single [token]) ∨ part.ReadsIn tokens node := by
  have hgroup (group : List Node) (h : (delimitedPart delimiter missing part).ReadsIn tokens group) :
      ∀ node ∈ group, (∃ token, node = .single [token]) ∨ part.ReadsIn tokens node := by
    obtain ⟨front, parsed, hfront, hparsed, rfl⟩ := h
    obtain ⟨token, rest, rfl, -, ⟨next, hnext, rfl⟩ | ⟨-, rfl⟩⟩ := delimitedPart_eq_some hparsed
    · have hrest := (List.suffix_cons token rest).trans hfront
      simp only [List.forall_mem_cons]
      exact ⟨Or.inl ⟨token, rfl⟩, Or.inr ⟨rest, next, hrest, hnext, rfl⟩, by simp⟩
    · simp
  obtain ⟨front, parsed, hfront, hparsed, rfl⟩ := h
  simp only [joined, Option.map_eq_some_iff] at hparsed
  obtain ⟨first, hfirst, rfl⟩ := hparsed
  refine List.forall_mem_cons.mpr ⟨Or.inr ⟨front, first, hfront, hfirst, rfl⟩, ?_⟩
  intro node hmem
  obtain ⟨group, hgroups, hmem⟩ := List.mem_flatten.mp hmem
  have hrest := (hpart front first hfirst).1.trans hfront
  exact hgroup group (readsIn_many (delimitedPart_consumes delimiter missing hpart) hrest group
    hgroups) node hmem

end Rule

end JobMarkup.Grammar

namespace JobMarkup.Tree.Node

open JobMarkup.Grammar

/-- The node has been read by the rule for nodes of its kind. A mark or a run of blanks is a leaf;
the tokens in a comment, and those in an element below the last level, are single nodes in a row. -/
def ReadIn (tokens : List Token) : Node → Prop
  | .single _ => True
  | .sequence nodes => ∃ run : List Token, nodes = run.map fun token => .single [token]
  | .partialSymbol name => Rule.partialSymbol.ReadsIn tokens name
  | .compoundSymbol nodes => Rule.compoundSymbol.ReadsIn tokens nodes
  | .namespacedSymbol nodes => Rule.namespacedSymbol.ReadsIn tokens nodes
  | .interpolation whole => Rule.interpolation.ReadsIn tokens whole
  | .attribute attr => Rule.attribute.ReadsIn tokens attr
  | .element root => ∃ levels, (Rule.element levels).ReadsIn tokens root
  | .closingTag tag => Rule.closingTag.ReadsIn tokens tag
  | .comment whole => Rule.comment.ReadsIn tokens whole
  | .content nodes => (∃ terminators, (Rule.content terminators).ReadsIn tokens nodes)
    ∨ ∃ run : List Token, run ≠ [] ∧ run <:+: tokens ∧ nodes = run.map fun token => .single [token]
  | .trivia nodes => ∃ front, front <:+ tokens ∧ (Grammar.trivia front).value = nodes
  | .document whole => Rule.document.ReadsIn tokens whole

variable {tokens : List Token}

/-! ## The parts of symbols, values and attributes -/

/-- The marks of a node are leaves, so nothing is asked of them. -/
theorem readIn_slotParts (slot : Option (List Token)) :
    ∀ part ∈ slotParts slot, part.ReadIn tokens := by
  cases slot <;> simp [slotParts, ReadIn]

/-- The parts of a compound symbol have been read as partial symbols, and its periods are leaves. -/
theorem readIn_parts_compoundSymbol {nodes : List Node}
    (h : Rule.compoundSymbol.ReadsIn tokens nodes) :
    ∀ part ∈ nodes, part.ReadIn tokens := by
  intro part hmem
  obtain ⟨token, rfl⟩ | hread := Rule.ReadsIn.of_mem_joined
    (Rule.partialSymbol_consumes.map Node.partialSymbol) h part hmem
  · trivial
  · obtain ⟨name, hname, rfl⟩ := hread.of_map
    exact hname

/-- The parts of a namespaced symbol have been read as compound symbols, and its slashes are leaves. -/
theorem readIn_parts_namespacedSymbol {nodes : List Node}
    (h : Rule.namespacedSymbol.ReadsIn tokens nodes) :
    ∀ part ∈ nodes, part.ReadIn tokens := by
  obtain ⟨front, parsed, hfront, hparsed, rfl⟩ := h
  simp only [Rule.namespacedSymbol, Option.map_eq_some_iff] at hparsed
  obtain ⟨symbol, hsymbol, rfl⟩ := hparsed
  intro part hmem
  obtain ⟨token, rfl⟩ | hread := Rule.ReadsIn.of_mem_joined
    (Rule.compoundSymbol_consumes.map Node.compoundSymbol) ⟨front, symbol, hfront, hsymbol, rfl⟩
    part hmem
  · trivial
  · obtain ⟨parts, hparts, rfl⟩ := hread.of_map
    exact hparts

/-- The symbol of an interpolation has been read as one, and the marks are leaves. -/
theorem readIn_parts_interpolation {whole : Interpolation}
    (h : Rule.interpolation.ReadsIn tokens whole) :
    ∀ part ∈ (interpolation whole).parts, part.ReadIn tokens := by
  obtain ⟨front, parsed, hfront, hparsed, rfl⟩ := h
  cases front with
  | nil => simp [Rule.interpolation] at hparsed
  | cons token rest =>
    simp only [Rule.interpolation, Option.ite_none_right_eq_some, Option.some.injEq] at hparsed
    obtain ⟨-, rfl⟩ := hparsed
    have hsymbol := Rule.readsIn_optional Rule.namespacedSymbol
      ((List.suffix_cons token rest).trans hfront)
    simp only [parts, List.cons_append, List.forall_mem_cons, List.forall_mem_append]
    exact ⟨trivial, by simpa [ReadIn] using hsymbol, readIn_slotParts _⟩

/-- The pieces of content have been read as interpolations or are leaves. -/
theorem readIn_parts_content {nodes : List Node} (h : (content nodes).ReadIn tokens) :
    ∀ part ∈ nodes, part.ReadIn tokens := by
  obtain ⟨terminators, front, parsed, hfront, hparsed, rfl⟩ | ⟨run, -, -, rfl⟩ := h
  · simp only [Rule.content, Option.ite_none_left_eq_some, Option.some.injEq] at hparsed
    obtain ⟨-, rfl⟩ := hparsed
    intro part hmem
    obtain ⟨front, parsed, hfront, hparsed, rfl⟩ := Rule.readsIn_many
      (Rule.contentPiece_consumes terminators) hfront part hmem
    obtain hparsed | ⟨token, rest, rfl, -, -, rfl⟩ := Rule.contentPiece_eq_some hparsed
    · obtain ⟨whole, hwhole, heq⟩ : ∃ whole, Rule.interpolation.ReadsIn tokens whole
          ∧ interpolation whole = parsed.value :=
        Rule.ReadsIn.of_map ⟨front, parsed, hfront, hparsed, rfl⟩
      rw [← heq]
      exact hwhole
    · trivial
  · simp [ReadIn]

/-- Content is a stretch of the tokens. -/
theorem content_isInfix {nodes : List Node} (h : (content nodes).ReadIn tokens) :
    nodeTokens nodes <:+: tokens := by
  obtain ⟨terminators, hread⟩ | ⟨run, -, hrun, rfl⟩ := h
  · exact hread.isInfix (Rule.content_exact terminators)
  · rwa [nodeTokens_map_single]

/-- The name of an attribute and its value have been read as such, and its marks are leaves. -/
theorem readIn_parts_attribute {attr : Tree.Attribute} (h : Rule.attribute.ReadsIn tokens attr) :
    ∀ part ∈ (Node.attribute attr).parts, part.ReadIn tokens := by
  obtain ⟨front, parsed, hfront, hparsed, rfl⟩ := h
  simp only [Rule.attribute, Option.map_eq_some_iff] at hparsed
  obtain ⟨name, hname, rfl⟩ := hparsed
  -- the name is read here, and the contents behind it if it comes to that
  have hsymbol : Rule.partialSymbol.ReadsIn tokens name.value := ⟨front, name, hfront, hname, rfl⟩
  have hrest := (Rule.partialSymbol_consumes front name hname).1.trans hfront
  have hparts (equal openQuote closeQuote : Option (List Token)) (contents : Option (List Node))
      (hcontents : ∀ nodes ∈ contents, (content nodes).ReadIn tokens) :
      ∀ part ∈ (Node.attribute ⟨name.value, equal, openQuote, contents, closeQuote⟩).parts,
        part.ReadIn tokens := by
    simp only [parts, List.cons_append, List.forall_mem_cons, List.forall_mem_append]
    refine ⟨hsymbol, ⟨⟨readIn_slotParts _, readIn_slotParts _⟩, ?_⟩, readIn_slotParts _⟩
    simpa using hcontents
  rw [attributeAssignment]
  split
  · exact hparts _ _ _ none (by simp)
  next sign hsign =>
  rw [quotedValue]
  split
  · exact hparts _ _ _ none (by simp)
  next quote hquote =>
  have hquoted := (Rule.token_consumes _ _ quote hquote).1.trans
    ((Rule.token_consumes _ _ sign hsign).1.trans hrest)
  exact hparts _ _ _ _ fun nodes hmem =>
    Or.inl ⟨_, Rule.readsIn_optional (Rule.content attributeValueEnds) hquoted nodes hmem⟩

/-! ## The parts of trivia and tags -/

/-- The parts of trivia have been read as comments or are leaves. -/
theorem readIn_parts_trivia {nodes : List Node} (h : (trivia nodes).ReadIn tokens) :
    ∀ part ∈ nodes, part.ReadIn tokens := by
  obtain ⟨front, hfront, rfl⟩ := h
  intro part hmem
  obtain ⟨front, parsed, hfront, hparsed, rfl⟩ := Rule.readsIn_many Rule.trivium_consumes hfront
    part hmem
  rw [Rule.trivium, Rule.orElse] at hparsed
  split at hparsed
  · next read hread =>
    obtain rfl := Option.some.inj hparsed
    obtain ⟨whole, hwhole, heq⟩ : ∃ whole, Rule.comment.ReadsIn tokens whole
        ∧ comment whole = read.value := Rule.ReadsIn.of_map ⟨front, read, hfront, hread, rfl⟩
    rw [← heq]
    exact hwhole
  · simp only [Rule.map, Option.map_eq_some_iff] at hparsed
    obtain ⟨run, -, rfl⟩ := hparsed
    trivial

/-- What a comment holds is a run of single tokens, and its marks are leaves. -/
theorem readIn_parts_comment (whole : Comment) :
    ∀ part ∈ (comment whole).parts, part.ReadIn tokens := by
  simp only [parts, List.forall_mem_cons]
  exact ⟨trivial, ⟨whole.contents, rfl⟩, readIn_slotParts _⟩

/-- The marks and the name of a closing tag are leaves. -/
theorem readIn_parts_closingTag (tag : ClosingTag) :
    ∀ part ∈ (closingTag tag).parts, part.ReadIn tokens := by
  simp only [parts, List.cons_append, List.forall_mem_cons, List.forall_mem_append]
  exact ⟨trivial, readIn_slotParts _, readIn_slotParts _⟩

/-! ## The parts of elements -/

/-- What has been read between the tags of an element that may hold the given number of levels. -/
inductive IsReadBody (tokens : List Token) : (levels : Nat) → List Node → Prop
  | empty {levels : Nat} : IsReadBody tokens levels []
  | content {levels : Nat} {nodes : List Node} : (content nodes).ReadIn tokens →
      IsReadBody tokens levels [.content nodes]
  | children {levels : Nat} {front : List Token} : front <:+ tokens →
      IsReadBody tokens (levels + 1) (((Rule.element levels).many front).value.map .element)

/-- All that an element is put together from has been read in the tokens. -/
structure IsReadElement (tokens : List Token) (levels : Nat) (root : Tree.Element) : Prop where
  leadingTrivia : (trivia root.leadingTrivia).ReadIn tokens
  attributes : ∀ attr ∈ root.attributes, Rule.attribute.ReadsIn tokens attr
  children : IsReadBody tokens levels root.children
  closingTag : ∀ tag ∈ root.closingTag, Rule.closingTag.ReadsIn tokens tag

/-- A body function fills an opened element with a body and a closing tag from the tokens. -/
def FillsIn (tokens : List Token) (levels : Nat)
    (body : Tree.Element → List Token → Parsed Tree.Element) : Prop :=
  ∀ root front, front <:+ tokens → ∃ children closingTag,
    (body root front).value = { root with children, closingTag }
      ∧ IsReadBody tokens levels children ∧ ∀ tag ∈ closingTag, Rule.closingTag.ReadsIn tokens tag

/-- A node of content is a body, and no content is an empty one. -/
theorem isReadBody_contentNode {levels : Nat} {nodes : List Node}
    (h : nodes ≠ [] → (content nodes).ReadIn tokens) :
    IsReadBody tokens levels (contentNode nodes) := by
  rw [contentNode]
  split
  · exact .empty
  · next hsome => exact .content (h (mt List.isEmpty_iff.mpr hsome))

/-- A raw body fills an element at the last level with raw tokens. -/
theorem rawBody_fillsIn : FillsIn tokens 0 rawBody := by
  intro root front hfront
  have hleft : (rawContents 0 front).2 <:+ tokens :=
    List.IsSuffix.trans ⟨_, rawContents_append 0 front⟩ hfront
  have hraw : (rawContents 0 front).1 <:+: tokens :=
    List.IsInfix.trans ⟨[], _, rawContents_append 0 front⟩ hfront.isInfix
  refine ⟨_, _, rfl, isReadBody_contentNode fun hne => Or.inr ⟨_, ?_, hraw, rfl⟩,
    Rule.readsIn_optional _ hleft⟩
  exact mt (fun hnil => by rw [hnil, List.map_nil]) hne

/-- A body above the last level fills an element with elements of one level less, or with content. -/
theorem nestedBody_fillsIn (levels : Nat) :
    FillsIn tokens (levels + 1) (nestedBody (Rule.element levels)) := by
  intro root front hfront
  have hbehind : skipBlanks ((Rule.element levels).many front).rest <:+ tokens :=
    (skipBlanks_suffix _).trans (((Rule.element_consumes levels).suffix_many front).trans hfront)
  rw [nestedBody]
  simp only [elementEnd]
  split
  · refine ⟨_, _, rfl, isReadBody_contentNode fun hne => Or.inl ⟨elementValueEnds, ?_⟩,
      Rule.readsIn_optional _ (((Rule.content_consumes _).suffix_optional _).trans hbehind)⟩
    cases hvalue : ((Rule.content elementValueEnds).optional
        (skipBlanks ((Rule.element levels).many front).rest)).value with
    | none => simp [hvalue] at hne
    | some nodes => exact Rule.readsIn_optional _ hbehind nodes hvalue
  · split
    · exact ⟨_, _, rfl, .children hfront, Rule.readsIn_optional _ hbehind⟩
    · exact ⟨_, _, rfl, .children hfront,
        Rule.readsIn_optional _ ((List.dropWhile_suffix _).trans hbehind)⟩

/-- An opening tag keeps the trivia in front of it, and its attributes are read behind its name. -/
theorem openTag_readIn {leading : List Node} {bracket front : List Token}
    (hfront : front <:+ tokens) :
    (openTag leading bracket front).value.leadingTrivia = leading
      ∧ ∀ attr ∈ (openTag leading bracket front).value.attributes,
        Rule.attribute.ReadsIn tokens attr := by
  have hblanks := (skipBlanks_suffix front).trans hfront
  rw [openTag]
  split
  · exact ⟨rfl, by simp⟩
  next token rest hskip =>
  split
  · exact ⟨rfl, by simp⟩
  refine ⟨rfl, fun attr hmem => ?_⟩
  have hname : (tagName (token :: rest)).rest <:+ tokens :=
    (List.dropWhile_suffix _).trans (hskip ▸ hblanks)
  obtain ⟨front, parsed, hfront, hparsed, rfl⟩ := Rule.readsIn_many Rule.spacedAttribute_consumes
    hname attr hmem
  simp only [Rule.spacedAttribute, Option.map_eq_some_iff] at hparsed
  obtain ⟨read, hread, rfl⟩ := hparsed
  exact ⟨_, read, (skipBlanks_suffix front).trans hfront, hread, rfl⟩

/-- An element is put together from parts that have been read, if its body is. -/
theorem isReadElement_of_elementWith {levels : Nat}
    {body : Tree.Element → List Token → Parsed Tree.Element} (hbody : FillsIn tokens levels body)
    {root : Tree.Element} (h : (Rule.elementWith body).ReadsIn tokens root) :
    IsReadElement tokens levels root := by
  obtain ⟨front, parsed, hfront, hparsed, rfl⟩ := h
  have hblanks := (skipBlanks_suffix front).trans hfront
  have hleading : (trivia (Grammar.trivia (skipBlanks front)).value).ReadIn tokens :=
    ⟨_, hblanks, rfl⟩
  rw [Rule.elementWith] at hparsed
  split at hparsed
  · next bracket hbracket =>
    obtain rfl := Option.some.inj hparsed
    have hrest := (Rule.token_consumes _ _ bracket hbracket).1.trans
      ((trivia_suffix (skipBlanks front)).trans hblanks)
    obtain ⟨hkept, hattributes⟩ := @openTag_readIn tokens
      (Grammar.trivia (skipBlanks front)).value bracket.value bracket.rest hrest
    have hopened := openTag_isOpened (Grammar.trivia (skipBlanks front)).value bracket.value
      bracket.rest
    rw [← hkept] at hleading
    dsimp only [taggedElement]
    split
    · obtain ⟨children, closingTag, hvalue, hchildren, hclosing⟩ :=
        hbody (openTag (Grammar.trivia (skipBlanks front)).value bracket.value bracket.rest).value
          _ ((openTag_suffix _ _ _).trans hrest)
      rw [hvalue]
      exact ⟨hleading, hattributes, hchildren, hclosing⟩
    · exact ⟨hleading, hattributes, hopened.children_eq ▸ .empty, by simp [hopened.closingTag_eq]⟩
  · simp only [Option.ite_none_left_eq_some, Option.some.injEq] at hparsed
    obtain ⟨-, rfl⟩ := hparsed
    exact ⟨hleading, by simp, .empty, by simp⟩

/-- An element of any level is put together from parts that have been read. -/
theorem isReadElement {levels : Nat} {root : Tree.Element}
    (h : (Rule.element levels).ReadsIn tokens root) : IsReadElement tokens levels root := by
  cases levels with
  | zero => exact isReadElement_of_elementWith rawBody_fillsIn h
  | succ levels => exact isReadElement_of_elementWith (nestedBody_fillsIn levels) h

/-- All that a body consists of has been read in the tokens. -/
theorem IsReadBody.readIn {levels : Nat} {nodes : List Node} (h : IsReadBody tokens levels nodes) :
    ∀ part ∈ nodes, part.ReadIn tokens := by
  cases h with
  | empty => simp
  | content hcontent => simpa using hcontent
  | @children levels front hfront =>
    rw [List.forall_mem_map]
    exact fun child hmem =>
      ⟨levels, Rule.readsIn_many (Rule.element_consumes levels) hfront child hmem⟩

/-- All parts of an element have been read in the tokens, the closing tag included. -/
theorem readIn_parts_element {root : Tree.Element} (h : (element root).ReadIn tokens) :
    ∀ part ∈ (element root).parts, part.ReadIn tokens := by
  obtain ⟨levels, hroot⟩ := h
  obtain ⟨hleading, hattributes, hchildren, hclosing⟩ := isReadElement hroot
  obtain ⟨leading, openBracket, name, attributes, tagEnd, children, closingTag⟩ := root
  simp only [parts, List.cons_append, List.forall_mem_cons, List.forall_mem_append]
  refine ⟨hleading, ⟨⟨⟨⟨readIn_slotParts _, readIn_slotParts _⟩, ?_⟩, readIn_slotParts _⟩,
    hchildren.readIn⟩, ?_⟩
  · rw [List.forall_mem_map]
    exact hattributes
  · rw [List.forall_mem_map]
    simpa [ReadIn] using hclosing

/-- The root of a document and the trivia behind it have been read in the tokens. -/
theorem readIn_parts_document {document : Tree.Document}
    (h : Rule.document.ReadsIn tokens document) :
    ∀ part ∈ (Node.document document).parts, part.ReadIn tokens := by
  obtain ⟨front, parsed, hfront, hparsed, rfl⟩ := h
  simp only [Rule.document, Option.map_eq_some_iff] at hparsed
  obtain ⟨root, hroot, rfl⟩ := hparsed
  have hrest := (Rule.element_consumes maxDepth front root hroot).1.trans hfront
  simp only [parts, List.forall_mem_cons]
  exact ⟨⟨maxDepth, front, root, hfront, hroot, rfl⟩, ⟨root.rest, hrest, rfl⟩, by simp⟩

/-! ## All nodes of a tree -/

variable {node part whole : Node}

/-- The parts of a node that has been read have been read. -/
theorem ReadIn.of_mem_parts (h : whole.ReadIn tokens) (hmem : part ∈ whole.parts) :
    part.ReadIn tokens := by
  cases whole with
  | single run => simp [parts] at hmem
  | partialSymbol name => simp [parts] at hmem
  | sequence nodes =>
    obtain ⟨run, rfl⟩ := h
    obtain ⟨token, -, rfl⟩ := List.mem_map.mp hmem
    trivial
  | compoundSymbol nodes => exact readIn_parts_compoundSymbol h part hmem
  | namespacedSymbol nodes => exact readIn_parts_namespacedSymbol h part hmem
  | interpolation interpolation => exact readIn_parts_interpolation h part hmem
  | «attribute» attr => exact readIn_parts_attribute h part hmem
  | element root => exact readIn_parts_element h part hmem
  | closingTag tag => exact readIn_parts_closingTag tag part hmem
  | comment comment => exact readIn_parts_comment comment part hmem
  | content nodes => exact readIn_parts_content h part hmem
  | trivia nodes => exact readIn_parts_trivia h part hmem
  | document document => exact readIn_parts_document h part hmem

/-- Each node of a tree that has been read has been read by the rule for its kind. -/
theorem ReadIn.within (h : whole.ReadIn tokens) (hnode : node.Within whole) :
    node.ReadIn tokens := by
  induction hnode with
  | refl node => exact h
  | part hpart _ ih => exact (ih h).of_mem_parts hpart

end JobMarkup.Tree.Node

namespace JobMarkup.Grammar

open JobMarkup.Tree

/-- What a production reads has been read by the rule for its kind. -/
theorem Production.readIn {production : Production} {tokens : List Token} {parsed : Parsed Node}
    (h : production.rule tokens = some parsed) : parsed.value.ReadIn tokens := by
  have hread : production.rule.ReadsIn tokens parsed.value :=
    ⟨tokens, parsed, List.suffix_refl tokens, h, rfl⟩
  cases production with
  | content terminators =>
    obtain ⟨nodes, hnodes, heq⟩ := hread.of_map
    rw [← heq]
    exact Or.inl ⟨terminators, hnodes⟩
  | trivia =>
    obtain rfl := Option.some.inj h
    exact ⟨tokens, List.suffix_refl tokens, rfl⟩
  | element =>
    obtain ⟨root, hroot, heq⟩ := hread.of_map
    rw [← heq]
    exact ⟨maxDepth, hroot⟩
  | _ =>
    obtain ⟨value, hvalue, heq⟩ := hread.of_map
    rw [← heq]
    exact hvalue

/-- What a reader gives is read from the tokens in front of it. -/
theorem Reader.readIn {reader : Reader} {production : Production} {whole : Node}
    (h : (reader.read production).1 = some whole) : whole.ReadIn reader.rest := by
  rw [read] at h
  split at h
  · next parsed hparsed =>
    obtain rfl := Option.some.inj h
    exact production.readIn hparsed
  · simp at h

end JobMarkup.Grammar
