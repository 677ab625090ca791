import JobMarkup.Proofs.DeepNesting
import JobMarkup.Proofs.NodeForms
import JobMarkup.Proofs.Progress
import Mathlib.Algebra.GroupWithZero.Nat

/-!
# The bound on nesting

However deep markup is nested, no element that is read is deeper than the greatest depth, and so no
element that is bound is. What is cut is reported: there is one report for each element at the greatest
depth whose opening tag has a name and an end that a body follows.

The reports are counted rule by rule. All rules but the one for a cut body are free of such reports,
and an element of one level has those of the elements in it.
-/

namespace JobMarkup.Grammar

open JobMarkup.Tree

variable {α β : Type}

/-! ## Counted reports -/

/-- The number of reports of elements that are cut. -/
def cuts (reports : List Report) : Nat :=
  reports.countP fun report => report.fault = .nestingTooDeep

/-- Without reports nothing is cut. -/
@[simp] theorem cuts_nil : cuts [] = 0 := rfl

/-- A report counts if it is about an element that is cut. -/
@[simp] theorem cuts_cons (fault : GrammarFault) (about : List Token) (reports : List Report) :
    cuts (⟨fault, about⟩ :: reports)
      = cuts reports + if fault = .nestingTooDeep then 1 else 0 := by
  simp [cuts, List.countP_cons]

/-- The cut elements of two lists of reports are counted list by list. -/
@[simp] theorem cuts_append (reports others : List Report) :
    cuts (reports ++ others) = cuts reports + cuts others :=
  List.countP_append

/-- A report with another fault does not count, whether it is made or not. -/
@[simp] theorem cuts_reportIf (condition : Bool) {fault : GrammarFault} (about : List Token)
    (h : fault ≠ .nestingTooDeep) : cuts (reportIf condition fault about) = 0 := by
  cases condition <;> simp [reportIf, h]

/-- Whatever the rule reads, the number of cut elements that it reports is that of the value. -/
def Rule.Counts (rule : Rule α) (count : α → Nat) : Prop :=
  ∀ tokens parsed, rule tokens = some parsed → cuts parsed.reports = count parsed.value

/-- The rule reports no cut element. -/
def Rule.IsUncut (rule : Rule α) : Prop := rule.Counts fun _ => 0

namespace Rule

/-- What is made of the values of a rule does not change its reports, so it cuts as little as
before. -/
theorem IsUncut.map {rule : Rule α} (h : rule.IsUncut) (f : α → β) : (rule.map f).IsUncut := by
  intro tokens parsed hparsed
  simp only [Rule.map, Option.map_eq_some_iff] at hparsed
  obtain ⟨read, hread, rfl⟩ := hparsed
  exact h tokens read hread

/-- A choice cuts no element if neither of its rules does. -/
theorem IsUncut.orElse {first second : Rule α} (hfirst : first.IsUncut)
    (hsecond : second.IsUncut) : (first.orElse second).IsUncut := by
  intro tokens parsed hparsed
  rw [Rule.orElse] at hparsed
  split at hparsed
  · next read hread => exact hfirst tokens parsed (hread.trans hparsed)
  · exact hsecond tokens parsed hparsed

/-- An optional part cuts no element if its rule does not. -/
theorem IsUncut.optional {rule : Rule α} (h : rule.IsUncut) (tokens : List Token) :
    cuts (rule.optional tokens).reports = 0 := by
  rw [Rule.optional]
  split
  · next parsed hparsed => exact h tokens parsed hparsed
  · rfl

/-- A repetition reports as many cut elements as all its values have together. -/
theorem Counts.many {rule : Rule α} {count : α → Nat} (h : rule.Counts count)
    (tokens : List Token) :
    cuts (rule.many tokens).reports = ((rule.many tokens).value.map count).sum := by
  rw [Rule.many]
  generalize tokens.length = bound
  induction bound generalizing tokens with
  | zero => rfl
  | succ bound ih =>
    rw [atMost]
    split
    · rfl
    · next first hfirst =>
      rw [cuts_append, h tokens first hfirst, ih, List.map_cons, List.sum_cons]

/-- A repetition of a rule that cuts no element cuts none. -/
theorem IsUncut.many {rule : Rule α} (h : rule.IsUncut) (tokens : List Token) :
    cuts (rule.many tokens).reports = 0 := by
  simp [Counts.many h]

/-! ## Rules without cut elements -/

/-- A partial symbol has no reports at all, so none about cut elements. -/
theorem partialSymbol_isUncut : partialSymbol.IsUncut := by
  intro tokens parsed h
  rw [reports_partialSymbol h]
  rfl

/-- Parts with delimiters cut no element if each part cuts none and a missing part is reported
otherwise. -/
theorem joined_isUncut (delimiter : TokenKind) {missing : GrammarFault}
    (hmissing : missing ≠ .nestingTooDeep) {part : Rule Node} (hpart : part.IsUncut) :
    (joined delimiter missing part).IsUncut := by
  have hdelimited : (delimitedPart delimiter missing part).IsUncut := by
    intro tokens parsed h
    obtain ⟨token, rest, -, -, ⟨next, hnext, rfl⟩ | ⟨-, rfl⟩⟩ := delimitedPart_eq_some h
    · exact hpart rest next hnext
    · simp [hmissing]
  intro tokens parsed h
  simp only [joined, Option.map_eq_some_iff] at h
  obtain ⟨first, hfirst, rfl⟩ := h
  rw [cuts_append, hpart tokens first hfirst, hdelimited.many]

/-- A namespaced symbol cuts no element. -/
theorem namespacedSymbol_isUncut : namespacedSymbol.IsUncut := by
  have hcompound : compoundSymbol.IsUncut :=
    joined_isUncut _ (by decide) (partialSymbol_isUncut.map Node.partialSymbol)
  intro tokens parsed h
  simp only [namespacedSymbol, Option.map_eq_some_iff] at h
  obtain ⟨symbol, hsymbol, rfl⟩ := h
  have hjoined := joined_isUncut _ (by decide) (hcompound.map Node.compoundSymbol) _ _ hsymbol
  simp [hjoined]

/-- An interpolation cuts no element. -/
theorem interpolation_isUncut : interpolation.IsUncut := by
  intro tokens parsed h
  cases tokens with
  | nil => simp [interpolation] at h
  | cons token rest =>
    simp only [interpolation, Option.ite_none_right_eq_some, Option.some.injEq] at h
    obtain ⟨-, rfl⟩ := h
    simp [namespacedSymbol_isUncut.optional]

/-- Content cuts no element. -/
theorem content_isUncut (terminators : List TokenKind) : (content terminators).IsUncut := by
  have hpiece : (contentPiece terminators).IsUncut := by
    intro tokens parsed h
    obtain h | ⟨token, rest, -, -, -, rfl⟩ := contentPiece_eq_some h
    · exact interpolation_isUncut.map Node.interpolation tokens parsed h
    · rfl
  intro tokens parsed h
  simp only [content, Option.ite_none_left_eq_some, Option.some.injEq] at h
  obtain ⟨-, rfl⟩ := h
  exact hpiece.many tokens

/-- An attribute cuts no element. -/
theorem attribute_isUncut : Rule.attribute.IsUncut := by
  intro tokens parsed h
  simp only [Rule.attribute, Option.map_eq_some_iff] at h
  obtain ⟨name, -, rfl⟩ := h
  rw [attributeAssignment]
  split
  · simp
  rw [quotedValue]
  split
  · simp
  simp [attributeValue, (content_isUncut _).optional]

/-- An attribute with the blanks in front of it cuts no element. -/
theorem spacedAttribute_isUncut : spacedAttribute.IsUncut := by
  intro tokens parsed h
  simp only [spacedAttribute, Option.map_eq_some_iff] at h
  obtain ⟨read, hread, rfl⟩ := h
  have hattr := attribute_isUncut _ read hread
  simp [hattr]

/-- A comment or a run of blanks cuts no element. -/
theorem trivium_isUncut : trivium.IsUncut := by
  have hcomment : comment.IsUncut := by
    intro tokens parsed h
    match tokens, h with
    | bang :: hyphens :: rest, h =>
      simp only [comment, Option.ite_none_right_eq_some] at h
      obtain ⟨-, h⟩ := h
      split at h
      · obtain rfl := Option.some.inj h
        simp
      · obtain rfl := Option.some.inj h
        rfl
  have hblanks : blanks.IsUncut := by
    intro tokens parsed h
    simp only [blanks, Option.ite_none_left_eq_some, Option.some.injEq] at h
    obtain ⟨-, rfl⟩ := h
    rfl
  exact (hcomment.map Node.comment).orElse (hblanks.map Node.single)

/-- A closing tag cuts no element. -/
theorem closingTag_isUncut : closingTag.IsUncut := by
  intro tokens parsed h
  cases tokens with
  | nil => simp [closingTag] at h
  | cons token rest =>
    simp only [closingTag, Option.ite_none_right_eq_some, Option.some.injEq] at h
    obtain ⟨-, rfl⟩ := h
    rw [closingTagName]
    split
    · simp
    · simp [closingTagEnd]

end Rule

/-- Trivia cut no element, however many there are. -/
theorem cuts_trivia (tokens : List Token) : cuts (trivia tokens).reports = 0 :=
  Rule.trivium_isUncut.many tokens

/-! ## Elements that are cut -/

section

variable (element : Element) (tokens : List Token)

/-- The rest of an opening tag cuts no element. -/
theorem cuts_namedTag : cuts (namedTag element tokens).reports = 0 := by
  have hstrays (strays : List Token) :
      cuts (strays.map fun stray => ⟨.invalidToken, [stray]⟩) = 0 := by
    induction strays with
    | nil => rfl
    | cons stray rest ih => simp [ih]
  simp [namedTag, tagName, Rule.spacedAttribute_isUncut.many, hstrays]

/-- An opening tag cuts no element; only its body may. -/
theorem cuts_openTag (leading : List Node) (bracket : List Token) :
    cuts (openTag leading bracket tokens).reports = 0 := by
  rw [openTag]
  split
  · simp
  · split
    · simp
    · exact cuts_namedTag _ _

/-- Closing an element does not cut it. -/
theorem cuts_closeElement : cuts (closeElement element tokens).reports = 0 := by
  simp [closeElement, Rule.closingTag_isUncut.optional]

/-- What comes behind the children of an element is not cut. -/
theorem cuts_elementEnd : cuts (elementEnd element tokens).reports = 0 := by
  rw [elementEnd]
  split
  · rw [textBody, cuts_append, (Rule.content_isUncut _).optional, cuts_closeElement]
  · split
    · exact cuts_closeElement _ _
    · simp [strayText, Rule.closingTag_isUncut.optional]

end

/-- The number of elements at a depth below an element whose opening tag a body follows. -/
def cutsAt (depth : Nat) (element : Element) : Nat :=
  ((element.atDepth depth).filter hasBody).length

/-- At depth zero there is the element itself, which counts if it has a body. -/
theorem cutsAt_zero (element : Element) :
    cutsAt 0 element = if hasBody element = true then 1 else 0 := by
  cases h : hasBody element <;> simp [cutsAt, Element.atDepth, h]

/-- The elements one level deeper are counted child by child. -/
theorem cutsAt_succ (depth : Nat) (element : Element) :
    cutsAt (depth + 1) element
      = ((element.children.filterMap Node.child?).map (cutsAt depth)).sum := by
  rw [cutsAt, Element.atDepth, List.filter_flatMap, List.length_flatMap]
  rfl

/-- Nothing is cut in an element without a body. -/
theorem cutsAt_of_not_hasBody {element : Element} (hbody : hasBody element = false)
    (hchildren : element.children = []) (depth : Nat) : cutsAt depth element = 0 := by
  cases depth with
  | zero => simp [cutsAt_zero, hbody]
  | succ depth => simp [cutsAt_succ, hchildren]

/-- A body reports the elements at the depth that are cut. -/
def CountsBody (depth : Nat) (body : Element → List Token → Parsed Element) : Prop :=
  ∀ element tokens, hasBody element = true →
    cuts (body element tokens).reports = cutsAt depth (body element tokens).value

/-- A raw body reports exactly the element that it belongs to. -/
theorem rawBody_counts : CountsBody 0 rawBody := by
  intro element tokens hbody
  have hvalue : hasBody (rawBody element tokens).value = true := hbody
  rw [cutsAt_zero, if_pos hvalue]
  simp [rawBody, cuts_closeElement]

/-- The elements in a body are those that have been read as children. -/
theorem filterMap_children_elementEnd (element : Element) (elements : List Element)
    (tokens : List Token) :
    (elementEnd { element with children := elements.map .element } tokens).value.children.filterMap
      Node.child? = elements := by
  rw [elementEnd]
  split
  · next hnil =>
    obtain rfl : elements = [] := by simpa using hnil
    dsimp only [textBody, closeElement]
    rw [contentNode]
    split <;> rfl
  · split <;> exact filterMap_child?_map_element elements

/-- A body with elements reports what its children report, one level above them. -/
theorem nestedBody_counts {child : Rule Element} {depth : Nat} (h : child.Counts (cutsAt depth)) :
    CountsBody (depth + 1) (nestedBody child) := by
  intro element tokens _
  rw [cutsAt_succ, nestedBody, cuts_append, cuts_elementEnd, h.many]
  rw [filterMap_children_elementEnd]
  rfl

/-- An element reports what its body does, and nothing if it has none. -/
theorem Rule.elementWith_counts {body : Element → List Token → Parsed Element} {depth : Nat}
    (hbody : CountsBody depth body) : (Rule.elementWith body).Counts (cutsAt depth) := by
  intro tokens parsed h
  rw [Rule.elementWith] at h
  split at h
  · next bracket _ =>
    obtain rfl := Option.some.inj h
    have hopened := openTag_isOpened (trivia (skipBlanks tokens)).value bracket.value bracket.rest
    have hopenedCuts := cuts_openTag bracket.rest (trivia (skipBlanks tokens)).value bracket.value
    dsimp only [taggedElement]
    split
    · next hhasBody =>
      rw [cuts_append, cuts_append, cuts_trivia, hopenedCuts, hbody _ _ hhasBody]
      simp
    · next hhasBody =>
      rw [cuts_append, cuts_trivia, hopenedCuts,
        cutsAt_of_not_hasBody (Bool.eq_false_iff.mpr hhasBody) hopened.children_eq]
  · simp only [Option.ite_none_left_eq_some, Option.some.injEq] at h
    obtain ⟨-, rfl⟩ := h
    rw [cuts_trivia, cutsAt_of_not_hasBody rfl rfl]

/-- Each cut element at the greatest depth is reported, and there are no other reports of cuts. -/
theorem Rule.element_counts (levels : Nat) : (Rule.element levels).Counts (cutsAt levels) := by
  induction levels with
  | zero => exact elementWith_counts rawBody_counts
  | succ levels ih => exact elementWith_counts (nestedBody_counts ih)

end JobMarkup.Grammar

namespace JobMarkup.Tree

open JobMarkup.Grammar

/-! ## Elements at their depths -/

/-- The outermost element of an element or a document. -/
def Node.root? : Node → Option Element
  | .element root => some root
  | .document whole => some whole.root
  | _ => none

/-- A child of an element is one level deeper than the element. -/
theorem Element.child_mem_atDepth {depth : Nat} {root parent child : Element}
    (h : parent ∈ root.atDepth depth) (hchild : .element child ∈ parent.children) :
    child ∈ root.atDepth (depth + 1) := by
  rw [atDepth_add]
  exact List.mem_flatMap.mpr ⟨parent, h, mem_atDepth_succ hchild List.mem_cons_self⟩

/-- Below a level without elements there are no elements on any deeper level. -/
theorem Element.atDepth_eq_nil_of_le {root : Element} {bound depth : Nat}
    (hbound : root.atDepth bound = []) (h : bound ≤ depth) : root.atDepth depth = [] := by
  obtain ⟨more, rfl⟩ := Nat.exists_eq_add_of_le h
  rw [atDepth_add, hbound]
  rfl

end JobMarkup.Tree

namespace JobMarkup.Grammar

open JobMarkup.Tree

/-- The child elements of an element have the shape that its children may have. -/
theorem HasElementShape.children {child : Element → Prop} {root : Element}
    (h : HasElementShape child root) : ∀ inner ∈ root.children.filterMap Node.child?, child inner := by
  rcases h.trivia_or_tagged with ⟨leading, -, -, rfl⟩ | htagged
  · simp
  · have hbody := htagged.children
    generalize root.children = children at hbody
    cases hbody with
    | children helements => rwa [filterMap_child?_map_element]
    | content => simp [Node.child?]

/-- An element that holds elements down to the given number of levels has none deeper. -/
theorem HasShape.atDepth_eq_nil {levels : Nat} {root : Element} (h : HasShape levels root) :
    root.atDepth (levels + 1) = [] := by
  induction levels generalizing root with
  | zero =>
    exact List.flatMap_eq_nil_iff.mpr fun inner hinner =>
      (HasElementShape.children h inner hinner).elim
  | succ levels ih =>
    exact List.flatMap_eq_nil_iff.mpr fun inner hinner =>
      ih (HasElementShape.children h inner hinner)

/-- What follows the first part of a symbol is parts and delimiters. -/
theorem HasParts.part_or_single {delimiter : TokenKind} {isPart : Node → Prop} {nodes : List Node}
    (h : HasParts delimiter isPart nodes) :
    ∀ node ∈ nodes, isPart node ∨ ∃ token, node = .single [token] := by
  obtain ⟨first, rest, rfl, hfirst, hrest⟩ := h
  refine List.forall_mem_cons.mpr ⟨Or.inl hfirst, ?_⟩
  clear hfirst
  induction hrest with
  | nil => simp
  | missing _ _ ih => exact List.forall_mem_cons.mpr ⟨Or.inr ⟨_, rfl⟩, ih⟩
  | part _ hnode _ ih =>
    exact List.forall_mem_cons.mpr
      ⟨Or.inr ⟨_, rfl⟩, List.forall_mem_cons.mpr ⟨Or.inl hnode, ih⟩⟩

end JobMarkup.Grammar

namespace JobMarkup.Tree.Node

open JobMarkup.Grammar

variable {tokens : List Token} {node part whole : Node}

/-- The node is an element or a document. -/
def isRoot (node : Node) : Bool := node.kind == .element || node.kind == .document

/-- The marks of a tag are neither elements nor documents. -/
theorem not_isRoot_slotParts (slot : Option (List Token)) :
    ∀ part ∈ slotParts slot, part.isRoot = false := by
  cases slot <;> simp [slotParts, isRoot, kind]

/-- Only elements and documents have elements or documents among their parts. -/
theorem ReadIn.not_isRoot_of_mem_parts (h : whole.ReadIn tokens) (hmem : part ∈ whole.parts)
    (hwhole : whole.isRoot = false) : part.isRoot = false := by
  have hform := h.hasForm
  cases whole with
  | element root => simp [isRoot, kind] at hwhole
  | document whole => simp [isRoot, kind] at hwhole
  | single run => simp [parts] at hmem
  | partialSymbol name => simp [parts] at hmem
  | sequence nodes =>
    obtain ⟨run, rfl⟩ := h
    obtain ⟨token, -, rfl⟩ := List.mem_map.mp hmem
    rfl
  | compoundSymbol nodes =>
    obtain ⟨inner, rfl, -⟩ | ⟨token, rfl⟩ := HasParts.part_or_single hform part hmem <;> rfl
  | namespacedSymbol nodes =>
    obtain ⟨inner, rfl, -⟩ | ⟨token, rfl⟩ := HasParts.part_or_single hform part hmem <;> rfl
  | content nodes =>
    obtain ⟨token, rfl⟩ | ⟨inner, rfl, -⟩ := hform.2 part hmem <;> rfl
  | trivia nodes =>
    obtain ⟨comment, rfl, -⟩ | ⟨run, rfl, -⟩ := hform part hmem <;> rfl
  | interpolation whole =>
    obtain ⟨opening, symbol, closing⟩ := whole
    revert part
    simp only [parts, List.cons_append, List.forall_mem_cons, List.forall_mem_append,
      List.forall_mem_map]
    exact ⟨rfl, fun _ _ => rfl, not_isRoot_slotParts _⟩
  | «attribute» attr =>
    obtain ⟨name, equal, openQuote, contents, closeQuote⟩ := attr
    revert part
    simp only [parts, List.cons_append, List.forall_mem_cons, List.forall_mem_append,
      List.forall_mem_map]
    exact ⟨rfl, ⟨⟨not_isRoot_slotParts _, not_isRoot_slotParts _⟩, fun _ _ => rfl⟩,
      not_isRoot_slotParts _⟩
  | closingTag tag =>
    revert part
    simp only [parts, List.cons_append, List.forall_mem_cons, List.forall_mem_append]
    exact ⟨rfl, not_isRoot_slotParts _, not_isRoot_slotParts _⟩
  | comment comment =>
    obtain ⟨opening, contents, closing⟩ := comment
    revert part
    simp only [parts, List.forall_mem_cons]
    exact ⟨rfl, rfl, not_isRoot_slotParts _⟩

/-- The parts of an element are no documents, and those that are elements are children. -/
theorem ReadIn.root_of_mem_parts_element {root : Tree.Element} (h : (element root).ReadIn tokens) :
    ∀ part ∈ (element root).parts, part.isRoot = true →
      ∃ child, part = .element child ∧ part ∈ root.children := by
  have hform : root.HasForm := h.hasForm
  have hchildren : ∀ part ∈ root.children, part.isRoot = true →
      ∃ child, part = .element child ∧ part ∈ root.children := by
    obtain ⟨elements, heq, -⟩ | ⟨nodes, -, heq⟩ := hform.children
    · rw [heq, List.forall_mem_map]
      exact fun child hmem _ => ⟨child, rfl, List.mem_map_of_mem hmem⟩
    · simp [heq, isRoot, kind]
  have hnot {node : Node} {goal : Prop} (hnode : node.isRoot = false) (hroot : node.isRoot = true) :
      goal := absurd hroot (by simp [hnode])
  have hslot (slot : Option (List Token)) {goal : Node → Prop} :
      ∀ part ∈ slotParts slot, part.isRoot = true → goal part :=
    fun part hmem => hnot (not_isRoot_slotParts slot part hmem)
  obtain ⟨leading, openBracket, name, attributes, tagEnd, children, closing⟩ := root
  simp only [parts, List.cons_append, List.forall_mem_cons, List.forall_mem_append,
    List.forall_mem_map]
  exact ⟨hnot rfl, ⟨⟨⟨⟨hslot _, hslot _⟩, fun _ _ => hnot rfl⟩, hslot _⟩, hchildren⟩,
    fun _ _ => hnot rfl⟩

/-- Every element of a tree that is read stands at some depth below the outermost one, and there is no
document but the whole tree. -/
theorem ReadIn.document_or_atDepth (h : whole.ReadIn tokens) (hnode : node.Within whole)
    (hroot : node.isRoot = true) :
    (∃ document, node = .document document ∧ whole = .document document)
      ∨ ∃ root element depth, whole.root? = some root ∧ node = .element element
        ∧ element ∈ root.atDepth depth := by
  induction hnode with
  | refl whole =>
    cases whole with
    | element root => exact Or.inr ⟨root, root, 0, rfl, rfl, List.mem_cons_self⟩
    | document whole => exact Or.inl ⟨whole, rfl, rfl⟩
    | _ => simp [isRoot, kind] at hroot
  | @part inner node whole hinner hwithin ih =>
    have hread := h.within hwithin
    have hnodeRoot : node.isRoot = true := by
      cases hnodeRoot : node.isRoot with
      | true => rfl
      | false => simp [hread.not_isRoot_of_mem_parts hinner hnodeRoot] at hroot
    obtain ⟨document, rfl, rfl⟩ | ⟨root, parent, depth, hwhole, rfl, hmem⟩ := ih h hnodeRoot
    · obtain ⟨root, trailingTrivia⟩ := document
      obtain rfl | rfl : inner = .element root ∨ inner = .trivia trailingTrivia := by
        simpa [parts] using hinner
      · exact Or.inr ⟨_, _, 0, rfl, rfl, List.mem_cons_self⟩
      · simp [isRoot, kind] at hroot
    · obtain ⟨child, rfl, hchild⟩ := hread.root_of_mem_parts_element _ hinner hroot
      exact Or.inr ⟨root, child, depth + 1, hwhole, rfl, Tree.Element.child_mem_atDepth hmem hchild⟩

end JobMarkup.Tree.Node

namespace JobMarkup.Template

/-! ## Templates -/

/-- The elements at a depth below an element, which itself is at depth zero. -/
def Element.atDepth : (depth : Nat) → Element → List Element
  | 0, element => [element]
  | depth + 1, element => element.children.flatMap (atDepth depth)

/-- The outermost element of an element or of a document in which it could be bound. -/
def Node.root? : Node → Option Element
  | .element root => some root
  | .document whole => whole.root
  | _ => none

mutual

/-- Every element of a template stands at some depth. -/
theorem Element.exists_atDepth :
    ∀ root : Element, ∀ inner ∈ root.elements, ∃ depth, inner ∈ root.atDepth depth
  | ⟨name, attributes, content, children⟩ => by
    rw [Element.elements, List.forall_mem_cons]
    refine ⟨⟨0, List.mem_cons_self⟩, fun inner hinner => ?_⟩
    obtain ⟨depth, hdepth⟩ := Element.exists_atDepth_of_children children inner hinner
    exact ⟨depth + 1, hdepth⟩

/-- Every element below some bound ones is at some depth below one of them. -/
theorem Element.exists_atDepth_of_children :
    ∀ children : List Element, ∀ inner ∈ elementsBelow children,
      ∃ depth, inner ∈ children.flatMap (atDepth depth)
  | [] => by simp [elementsBelow]
  | child :: rest => by
    rw [elementsBelow, List.forall_mem_append]
    refine ⟨fun inner hinner => ?_, fun inner hinner => ?_⟩
    · obtain ⟨depth, hdepth⟩ := Element.exists_atDepth child inner hinner
      exact ⟨depth, List.mem_flatMap.mpr ⟨child, List.mem_cons_self, hdepth⟩⟩
    · obtain ⟨depth, hdepth⟩ := Element.exists_atDepth_of_children rest inner hinner
      exact ⟨depth, by rw [List.flatMap_cons]; exact List.mem_append_right _ hdepth⟩

end

variable {text : SourceText}

/-- Children are bound from children. -/
theorem exists_child_of_mem_bindChildren {children : List Tree.Node} {inner : Element}
    (h : inner ∈ (bindChildren text children).value) :
    ∃ child, .element child ∈ children ∧ (bindElement text child).value = some inner := by
  induction children with
  | nil => simp [bindChildren] at h
  | cons node rest ih =>
    have hrest (h : inner ∈ (bindChildren text rest).value) :
        ∃ child, .element child ∈ node :: rest ∧ (bindElement text child).value = some inner := by
      obtain ⟨child, hmem, hchild⟩ := ih h
      exact ⟨child, List.mem_cons_of_mem _ hmem, hchild⟩
    cases node with
    | element child =>
      rw [bindChildren] at h
      split at h
      · exact hrest h
      · simp only [Bound.value_bind, Bound.value_required, Bound.value_pure, List.mem_append,
          Option.mem_toList] at h
        exact h.elim (fun h => ⟨child, List.mem_cons_self, h⟩) hrest
    | _ => exact hrest h

/-- An element is bound within another one only from a child in the tree, so binding does not nest
deeper than reading. -/
theorem exists_child_of_bindElement {element : Tree.Element} {bound inner : Element}
    (h : (bindElement text element).value = some bound) (hinner : inner ∈ bound.children) :
    ∃ child, .element child ∈ element.children ∧ (bindElement text child).value = some inner := by
  obtain ⟨leading, openBracket, name, attributes, tagEnd, children, closingTag⟩ := element
  rw [bindElement] at h
  split at h
  · split at h
    · simp only [Bound.value_bind] at h
      split at h
      · obtain rfl := Option.some.inj h
        simp at hinner
      · obtain rfl := Option.some.inj h
        exact exists_child_of_mem_bindChildren hinner
    · simp at h
  · simp at h

/-- An element is bound no deeper than it has been read. -/
theorem atDepth_eq_nil_of_bindElement {element : Tree.Element} {bound : Element} {depth : Nat}
    (h : (bindElement text element).value = some bound) (hnil : element.atDepth depth = []) :
    bound.atDepth depth = [] := by
  induction depth generalizing element bound with
  | zero => simp [Tree.Element.atDepth] at hnil
  | succ depth ih =>
    refine List.flatMap_eq_nil_iff.mpr fun inner hinner => ?_
    obtain ⟨child, hmem, hchild⟩ := exists_child_of_bindElement h hinner
    exact ih hchild (List.flatMap_eq_nil_iff.mp hnil child (List.mem_filterMap.mpr ⟨_, hmem, rfl⟩))

/-- What is bound of an element or a document is what is bound of the outermost element. -/
theorem bindElement_of_bind {context : Context} {whole : Tree.Node} {root : Tree.Element}
    (hroot : whole.root? = some root) {bound : Node} (hbound : bound ∈ (context.bind whole).1)
    {outer : Element} (houter : outer ∈ bound.root?) :
    (bindElement context.text root).value = some outer := by
  cases whole with
  | element element =>
    obtain rfl := Option.some.inj hroot
    obtain ⟨inner, hinner, rfl⟩ := Option.map_eq_some_iff.mp hbound
    obtain rfl := Option.some.inj houter
    exact hinner
  | document whole =>
    obtain rfl := Option.some.inj hroot
    obtain rfl := Option.some.inj hbound
    have hvalue : (Context.bindRoot context.text whole.root).value = some outer := houter
    rwa [Context.bindRoot, Bound.value_required] at hvalue
  | _ => simp [Tree.Node.root?] at hroot

end JobMarkup.Template

namespace JobMarkup.Grammar

open JobMarkup.Tree

variable {α : Type}

/-! ## The bound -/

/-- What stands at some depth stands no deeper than the bound behind which nothing stands. -/
theorem le_of_mem_layer {layer : Nat → List α} {bound depth : Nat} {member : α}
    (h : ∀ depth, bound < depth → layer depth = []) (hmem : member ∈ layer depth) :
    depth ≤ bound := by
  refine Nat.le_of_not_lt fun hdeep => ?_
  rw [h depth hdeep] at hmem
  exact List.not_mem_nil hmem

/-- What is read of an element, whatever the tokens are, has no elements behind the greatest depth,
and the cuts at this depth are reported. -/
theorem Rule.element_nesting {tokens : List Token} {parsed : Parsed Element}
    (h : Rule.element maxDepth tokens = some parsed) :
    (∀ depth, maxDepth < depth → parsed.value.atDepth depth = [])
      ∧ (∀ element ∈ parsed.value.atDepth maxDepth, ∀ child, .element child ∉ element.children)
      ∧ cuts parsed.reports = ((parsed.value.atDepth maxDepth).filter hasBody).length := by
  have hbelow : parsed.value.atDepth (maxDepth + 1) = [] :=
    HasShape.atDepth_eq_nil (element_yields maxDepth tokens parsed h)
  refine ⟨fun depth => Element.atDepth_eq_nil_of_le hbelow, fun element hmem child hchild => ?_,
    element_counts maxDepth tokens parsed h⟩
  have hdeeper := Element.child_mem_atDepth hmem hchild
  rw [hbelow] at hdeeper
  exact List.not_mem_nil hdeeper

/-- The element or the document that a production gives has an outermost element, which the rule for
elements gives with all reports of cuts. -/
theorem Production.exists_root {production : Production}
    (h : production = .element ∨ production = .document) {tokens : List Token}
    {parsed : Parsed Node} (hparsed : production.rule tokens = some parsed) :
    ∃ root, Rule.element maxDepth tokens = some root ∧ parsed.value.root? = some root.value
      ∧ cuts parsed.reports = cuts root.reports := by
  obtain rfl | rfl := h
  · obtain ⟨root, hroot, rfl⟩ := Option.map_eq_some_iff.mp hparsed
    exact ⟨root, hroot, rfl, rfl⟩
  · obtain ⟨whole, hwhole, rfl⟩ := Option.map_eq_some_iff.mp hparsed
    simp only [Rule.document, Option.map_eq_some_iff] at hwhole
    obtain ⟨root, hroot, rfl⟩ := hwhole
    exact ⟨root, hroot, rfl, by simp [Parsed.map, cuts_trivia]⟩

/-- Among the diagnostics of reports those on nesting are as many as the reports of cut elements. -/
theorem countP_diagnose (stream : TokenStream) (reports : List Report) :
    (reports.map (Reader.diagnose stream)).countP
      (fun diagnostic => diagnostic.problem = .grammar .nestingTooDeep) = cuts reports := by
  rw [List.countP_map, cuts]
  congr 1
  funext report
  simp [Reader.diagnose]

/-- A scanner in front of a text finds what a reader in front of it reads. -/
theorem Production.scan_ends_ofStream (text : SourceText) (production : Production) :
    (production.scan text.tokens).Ends {} ((Reader.ofStream text.tokens).read production).1
      ((Reader.ofStream text.tokens).read production).2.scanner := by
  have hstart : (Reader.ofStream text.tokens).scanner = {} := by
    rw [Reader.scanner, Reader.ofStream, Nat.sub_self]
    rfl
  rw [← hstart]
  exact Reader.Reachable.start.scan_ends production

/-- However deep the markup in a text is nested, the scan of an element or a document comes to an end,
and no element that it gives or that is bound of it stands deeper than at depth 256. Nothing stands
within the elements there, and those of them that a body follows are reported, each once. -/
theorem Production.scan_nesting (text : SourceText) {production : Production}
    (h : production = .element ∨ production = .document) :
    ∃ found after, (production.scan text.tokens).Ends {} found after ∧ ∀ whole ∈ found,
      ∃ root, whole.root? = some root
        ∧ (∀ element, (Node.element element).Within whole →
          ∃ depth ≤ 256, element ∈ root.atDepth depth)
        ∧ (∀ depth, 256 < depth → root.atDepth depth = [])
        ∧ (∀ element ∈ root.atDepth 256, ∀ child, .element child ∉ element.children)
        ∧ after.diagnostics.countP (fun diagnostic => diagnostic.problem = .grammar .nestingTooDeep)
          = ((root.atDepth 256).filter hasBody).length
        ∧ ∀ context : Template.Context, ∀ bound ∈ (context.bind whole).1,
          ∀ outer ∈ bound.root?,
            (∀ inner ∈ outer.elements, ∃ depth ≤ 256, inner ∈ outer.atDepth depth)
              ∧ ∀ depth, 256 < depth → outer.atDepth depth = [] := by
  refine ⟨_, _, production.scan_ends_ofStream text, fun whole hwhole => ?_⟩
  have hread : whole.ReadIn text.tokens.tokens := Reader.readIn hwhole
  rw [Reader.read, Reader.ofStream] at hwhole ⊢
  split at hwhole
  · next parsed hparsed =>
    obtain rfl := Option.some.inj hwhole
    obtain ⟨root, hrule, hroot, hcuts⟩ := production.exists_root h hparsed
    obtain ⟨hbound, hchildless, hcount⟩ := Rule.element_nesting hrule
    refine ⟨root.value, hroot, fun element hwithin => ?_, hbound, hchildless, ?_, ?_⟩
    · obtain ⟨document, heq, -⟩ | ⟨root', inner, depth, hroot', heq, hmem⟩ :=
        hread.document_or_atDepth hwithin rfl
      · cases heq
      obtain rfl := Option.some.inj (hroot.symm.trans hroot')
      obtain rfl := Node.element.inj heq
      exact ⟨depth, le_of_mem_layer hbound hmem, hmem⟩
    · simp only [Reader.scanner, List.nil_append, countP_diagnose]
      rw [hcuts, hcount]
      rfl
    · intro context bound hboundNode outer houter
      have hvalue := Template.bindElement_of_bind hroot hboundNode houter
      have hnone (depth : Nat) (hdepth : 256 < depth) : outer.atDepth depth = [] :=
        Template.atDepth_eq_nil_of_bindElement hvalue (hbound depth hdepth)
      refine ⟨fun inner hinner => ?_, hnone⟩
      obtain ⟨depth, hmem⟩ := Template.Element.exists_atDepth outer inner hinner
      exact ⟨depth, le_of_mem_layer hnone hmem, hmem⟩
  · simp at hwhole

set_option maxRecDepth 20000 in
/-- Of 258 elements within one another, the one at the greatest depth is cut. -/
theorem Production.scan_nesting_nested :
    let text := SourceText.nested 258 []
    ∃ whole root after, (Production.document.scan text.tokens).Ends {} (some whole) after
      ∧ whole.root? = some root ∧ root.atDepth 257 = [] ∧ (root.atDepth 256).length = 1
      ∧ after.diagnostics.countP (fun diagnostic => diagnostic.problem = .grammar .nestingTooDeep)
        = 1 := by
  intro text
  have hcheck : (Rule.document text.tokens.tokens).map (fun parsed =>
      ((parsed.value.root.atDepth 256).length,
        ((parsed.value.root.atDepth 256).filter hasBody).length)) = some (1, 1) := by
    decide +kernel
  obtain ⟨parsed, hparsed, hcheck⟩ := Option.map_eq_some_iff.mp hcheck
  obtain ⟨hlength, hcut⟩ := Prod.mk.inj hcheck
  obtain ⟨found, after, hends, hall⟩ := Production.scan_nesting text (.inr rfl)
  have hfound : found = some (.document parsed.value) := by
    rw [(hends.unique (Production.scan_ends_ofStream text .document)).1, Reader.read]
    have hrule : Production.document.rule (Reader.ofStream text.tokens).rest
        = some (parsed.map .document) := by
      exact Option.map_eq_some_iff.mpr ⟨parsed, hparsed, rfl⟩
    rw [hrule]
    rfl
  subst hfound
  obtain ⟨root, hroot, -, hbound, -, hcount, -⟩ := hall _ rfl
  obtain rfl := Option.some.inj hroot
  exact ⟨_, _, after, hends, rfl, hbound 257 (by decide), hlength, hcount.trans hcut⟩

end JobMarkup.Grammar
