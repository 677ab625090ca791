import JobMarkup.Proofs.TokenRuns
import JobMarkup.Proofs.TreeTokens

/-!
# Parts of a tree and their spans

Every node but a leaf is put together from parts: the nodes in it, and its slots, each of which is a
part of its own. The tokens of a node are those of its parts in their order. So the parts of a tree
over the tokens of a text have spans in order, and joining the spans of its parts gives the span of
a node, which runs from the start of its first to the end of its last token.
-/

namespace JobMarkup

namespace Span

/-- Spans in order are covered if there are any. -/
theorem cover_eq_none_iff {document : DocumentId} {spans : List Span} (h : InOrder document spans) :
    cover spans = none ↔ spans = [] := by
  constructor
  · intro hnone
    by_contra hne
    rw [cover_of_inOrder h hne] at hnone
    exact absurd hnone (by simp)
  · rintro rfl
    rfl

/-- The covers of groups of spans in order are in order, and lie where the groups lie. -/
theorem InOrder.covers {document : DocumentId} {groups : List (List Span)}
    (h : InOrder document groups.flatten) : InOrder document (groups.filterMap cover) := by
  induction groups with
  | nil => exact ⟨by simp, by simp, List.Pairwise.nil⟩
  | cons group rest ih =>
    rw [List.flatten_cons] at h
    have hgroup := h.sublist (List.sublist_append_left group rest.flatten)
    have hrest := h.sublist (List.sublist_append_right group rest.flatten)
    by_cases hne : group = []
    · rw [hne, List.filterMap_cons_none cover_nil]
      exact ih hrest
    rw [List.filterMap_cons_some (cover_of_inOrder hgroup hne)]
    refine .cons rfl (hgroup.start_head_le_stop_getLast hne) ?_ (ih hrest)
    -- the cover of a later group starts where the group does
    intro span hspan
    obtain ⟨other, hother, hspan⟩ := List.mem_filterMap.mp hspan
    have hotherNe : other ≠ [] := by
      rintro rfl
      simp at hspan
    have hsub : other.Sublist rest.flatten := List.sublist_flatten_of_mem hother
    rw [cover_of_inOrder (hrest.sublist hsub) hotherNe, Option.some.injEq] at hspan
    subst hspan
    have hbehind := (List.pairwise_append.mp h.pairwise).2.2 _ (List.getLast_mem hne) _
      (hsub.subset (List.head_mem hotherNe))
    exact hbehind

/-- Covering groups of spans in order and then the covers is covering all the spans. -/
theorem cover_covers {document : DocumentId} {groups : List (List Span)}
    (h : InOrder document groups.flatten) :
    cover (groups.filterMap cover) = cover groups.flatten := by
  induction groups with
  | nil => rfl
  | cons group rest ih =>
    have hcovers := h.covers
    rw [List.flatten_cons] at h ⊢
    have hgroup := h.sublist (List.sublist_append_left group rest.flatten)
    have hrest := h.sublist (List.sublist_append_right group rest.flatten)
    by_cases hne : group = []
    · rw [hne, List.filterMap_cons_none cover_nil, List.nil_append]
      exact ih hrest
    have hcover := cover_of_inOrder hgroup hne
    rw [List.filterMap_cons_some hcover] at hcovers ⊢
    rw [cover_of_inOrder hcovers (by simp), cover_of_inOrder h (by simp [hne])]
    have htail := hcovers.sublist (List.sublist_cons_self _ _)
    by_cases hrestNe : rest.flatten = []
    · have hnone : rest.filterMap cover = [] := by
        rw [← cover_eq_none_iff htail, ih hrest, hrestNe]
        rfl
      simp [hnone, hrestNe]
    · have hsome : rest.filterMap cover ≠ [] := by
        intro hnil
        have hnone := ih hrest
        rw [hnil, cover_of_inOrder hrest hrestNe] at hnone
        exact absurd hnone (by simp)
      have hstop := ih hrest
      rw [cover_of_inOrder htail hsome, cover_of_inOrder hrest hrestNe] at hstop
      simp only [Option.some.injEq, Span.mk.injEq] at hstop
      rw [List.getLast_cons hsome, List.getLast_append_of_ne_nil _ hrestNe, hstop.2.2]
      simp [hne]

end Span

namespace Tree

/-- A slot as a part. -/
def slotParts (slot : Option (List Token)) : List Node := slot.toList.map .single

/-- The parts that a node is put together from. -/
def Node.parts : Node → List Node
  | .single _ | .partialSymbol _ => []
  | .sequence nodes | .compoundSymbol nodes | .namespacedSymbol nodes => nodes
  | .content nodes | .trivia nodes => nodes
  | .interpolation ⟨opening, symbol, closing⟩ =>
    .single opening :: symbol.toList.map .namespacedSymbol ++ slotParts closing
  | .attribute ⟨name, equal, openQuote, contents, closeQuote⟩ =>
    .partialSymbol name :: slotParts equal ++ slotParts openQuote ++ contents.toList.map .content
      ++ slotParts closeQuote
  | .element ⟨leadingTrivia, openBracket, name, attributes, tagEnd, children, closing⟩ =>
    .trivia leadingTrivia :: slotParts openBracket ++ slotParts name
      ++ attributes.map .attribute ++ slotParts tagEnd ++ children
      ++ closing.toList.map .closingTag
  | .closingTag tag => .single tag.opening :: slotParts tag.name ++ slotParts tag.closing
  | .comment ⟨opening, contents, closing⟩ =>
    .single opening :: .sequence (contents.map fun token => .single [token]) :: slotParts closing
  | .document ⟨root, trailingTrivia⟩ => [.element root, .trivia trailingTrivia]

/-- The node is a leaf, which holds its tokens itself. -/
def Node.isLeaf : Node → Bool
  | .single _ | .partialSymbol _ => true
  | _ => false

/-- The parts of a slot have the tokens of the slot. -/
@[simp] theorem nodeTokens_slotParts (slot : Option (List Token)) :
    nodeTokens (slotParts slot) = slotTokens slot := by
  cases slot <;> simp [slotParts]

namespace Node

/-- A row of nodes has the tokens of each of them. -/
@[simp] theorem tokens_sequence (nodes : List Node) :
    (sequence nodes).tokens = nodeTokens nodes := rfl

/-- The tokens of a node are those of its parts, unless it is a leaf. -/
theorem tokens_eq_parts {node : Node} (h : node.isLeaf = false) :
    node.tokens = nodeTokens node.parts := by
  cases node with
  | single tokens => simp [isLeaf] at h
  | partialSymbol tokens => simp [isLeaf] at h
  | sequence nodes => simp [parts]
  | compoundSymbol nodes => simp [parts]
  | namespacedSymbol nodes => simp [parts]
  | content nodes => simp [parts]
  | trivia nodes => simp [parts]
  | interpolation part =>
    obtain ⟨opening, symbol, closing⟩ := part
    cases symbol <;> simp [parts, Interpolation.tokens_eq]
  | «attribute» part =>
    obtain ⟨name, equal, openQuote, contents, closeQuote⟩ := part
    cases contents <;> simp [parts, Attribute.tokens_eq]
  | element part =>
    obtain ⟨leadingTrivia, openBracket, name, attributes, tagEnd, children, closing⟩ := part
    cases closing <;> simp [parts, Element.tokens_eq, nodeTokens_map_attribute]
  | closingTag tag => simp [parts, ClosingTag.tokens]
  | comment part => simp [parts, Comment.tokens, nodeTokens_map_single]
  | document part =>
    obtain ⟨root, trailingTrivia⟩ := part
    simp [parts, Document.tokens_eq]

/-- One node belongs to the tree of another one. -/
inductive Within : Node → Node → Prop
  | refl (node : Node) : Within node node
  | part {part node whole : Node} : part ∈ node.parts → Within node whole → Within part whole

/-- A node with parts is no leaf. -/
theorem isLeaf_of_mem_parts {part node : Node} (h : part ∈ node.parts) : node.isLeaf = false := by
  cases node with
  | single tokens => simp [parts] at h
  | partialSymbol tokens => simp [parts] at h
  | _ => rfl

/-- The tokens of a part stand in the node in their order. -/
theorem tokens_sublist_of_mem_parts {part node : Node} (h : part ∈ node.parts) :
    part.tokens.Sublist node.tokens := by
  rw [tokens_eq_parts (isLeaf_of_mem_parts h), nodeTokens_eq_flatMap, List.flatMap_def]
  exact List.sublist_flatten_of_mem (List.mem_map_of_mem h)

/-- The tokens of each node of a tree stand in the tree in their order. -/
theorem Within.tokens_sublist {part whole : Node} (h : Within part whole) :
    part.tokens.Sublist whole.tokens := by
  induction h with
  | refl node => exact List.Sublist.refl _
  | part hpart _ ih => exact (tokens_sublist_of_mem_parts hpart).trans ih

variable {text : SourceText} {node : Node}

/-- A node over the tokens of a text spans from the start of its first to the end of its last
token. -/
theorem span_of_sublist (h : node.tokens.Sublist text.tokens.tokens) (hne : node.tokens ≠ []) :
    node.span = some ⟨text.document, (node.tokens.head hne).span.start,
      (node.tokens.getLast hne).span.stop⟩ :=
  text.cover_of_sublist h hne

/-- The span of a node is the span of its parts, unless it is a leaf. -/
theorem span_eq_cover_parts (h : node.tokens.Sublist text.tokens.tokens)
    (hleaf : node.isLeaf = false) : node.span = Span.cover (node.parts.filterMap Node.span) := by
  have hparts : (node.parts.map fun part => part.tokens.map Token.span).flatten
      = node.tokens.map Token.span := by
    rw [tokens_eq_parts hleaf, nodeTokens_eq_flatMap, List.map_flatMap, List.flatMap_def]
  have horder := text.inOrder_tokens.sublist (h.map Token.span)
  rw [← hparts] at horder
  have hcover := Span.cover_covers horder
  rw [hparts, List.filterMap_map] at hcover
  exact hcover.symm

end Node

end Tree

end JobMarkup
