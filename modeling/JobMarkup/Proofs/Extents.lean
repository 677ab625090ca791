import JobMarkup.Proofs.TreeTokens
import JobMarkup.Tree.Extent
import Mathlib.Data.List.Basic

/-!
# Extents of trees over one document

Joining spans of one document does not depend on how they are grouped. So a node over tokens of one
document, in whatever order these are, has the smallest span that holds them as its extent.
-/

namespace JobMarkup

namespace Position

/-- The least of three positions does not depend on how they are grouped. -/
theorem min_assoc (a b c : Position) : min (min a b) c = min a (min b c) := by
  simp only [min, le_def]
  grind

/-- The greatest of three positions does not depend on how they are grouped. -/
theorem max_assoc (a b c : Position) : max (max a b) c = max a (max b c) := by
  simp only [max, le_def]
  grind

end Position

namespace Span

variable {document : DocumentId} {a b a' b' spans : List Span}

/-- The smallest span that holds two spans, whose documents are not compared. -/
def join (a b : Span) : Span := ⟨a.document, min a.start b.start, max a.stop b.stop⟩

/-- Joining spans does not depend on how they are grouped, so lists of spans can be joined part
by part. -/
instance : Std.Associative join where
  assoc a b c := by simp [join, Position.min_assoc, Position.max_assoc]

/-- All of the spans are of the document. -/
def AreIn (document : DocumentId) (spans : List Span) : Prop :=
  ∀ span ∈ spans, span.document = document

/-- Two groups are of a document exactly if both together are. -/
theorem areIn_append : AreIn document (a ++ b) ↔ AreIn document a ∧ AreIn document b :=
  List.forall_mem_append

/-- Joining further spans to a span keeps its document. -/
theorem document_foldl_join (span : Span) : (spans.foldl join span).document = span.document := by
  induction spans generalizing span with
  | nil => rfl
  | cons next rest ih => exact ih (span.join next)

/-- Spans of one document have a cover, which is the first of them with all others joined to it. -/
theorem cover_cons {span : Span} (h : AreIn document (span :: spans)) :
    cover (span :: spans) = some (spans.foldl join span) := by
  induction spans generalizing span with
  | nil => rfl
  | cons next rest ih =>
    obtain ⟨hspan, hnext, hrest⟩ : span.document = document ∧ next.document = document
        ∧ AreIn document rest := by simpa [AreIn] using h
    have hunion : span.union next = .ok (span.join next) := by
      rw [union, if_pos (hspan.trans hnext.symm), join]
    have hjoined := @ih (span.join next) (List.forall_mem_cons.mpr ⟨hspan, hrest⟩)
    rw [cover] at hjoined ⊢
    rw [List.foldlM_cons, hunion, List.foldl_cons, ← hjoined]
    rfl

/-- Two groups of spans of one document are covered by the join of their covers. -/
theorem cover_append (h : AreIn document (a ++ b)) :
    cover (a ++ b) = Option.merge join (cover a) (cover b) := by
  obtain ⟨ha, hb⟩ := areIn_append.mp h
  cases a with
  | nil => simp
  | cons first rest =>
    cases b with
    | nil => simp
    | cons other others =>
      have hwhole : cover (first :: rest ++ other :: others)
          = some ((rest ++ other :: others).foldl join first) := cover_cons h
      rw [hwhole, cover_cons ha, cover_cons hb, List.foldl_append, List.foldl_cons, List.foldl_assoc]
      rfl

/-- Both groups are of the document and have the same cover. -/
structure SameCover (document : DocumentId) (a b : List Span) : Prop where
  left : AreIn document a
  right : AreIn document b
  cover_eq : cover a = cover b

/-- A group of spans of a document has its own cover. -/
theorem SameCover.refl (h : AreIn document a) : SameCover document a a := ⟨h, h, rfl⟩

/-- Groups with the same cover may be put in the place of each other among others. -/
theorem SameCover.append (h : SameCover document a b) (h' : SameCover document a' b') :
    SameCover document (a ++ a') (b ++ b') := by
  have hleft := areIn_append.mpr ⟨h.left, h'.left⟩
  have hright := areIn_append.mpr ⟨h.right, h'.right⟩
  refine ⟨hleft, hright, ?_⟩
  rw [cover_append hleft, cover_append hright, h.cover_eq, h'.cover_eq]

/-- The cover of a group stands for the group. -/
theorem SameCover.of_cover_eq {covered : Option Span} (h : AreIn document a) (hcover : covered = cover a) :
    SameCover document covered.toList a := by
  subst hcover
  cases a with
  | nil => exact .refl h
  | cons span rest =>
    rw [cover_cons h]
    refine ⟨?_, h, (cover_cons h).symm⟩
    simpa [AreIn, document_foldl_join] using h span List.mem_cons_self

/-- A group may be replaced by its cover, as the tokens of a part are by the extent of the part. -/
theorem SameCover.toList (h : SameCover document a b) : SameCover document (cover a).toList b :=
  .of_cover_eq h.right h.cover_eq

end Span

namespace Tree

open JobMarkup.Span

variable {document : DocumentId}

/-- All of the tokens are of the document. -/
def AreIn (document : DocumentId) (tokens : List Token) : Prop :=
  Span.AreIn document (tokens.map Token.span)

/-- Two runs of tokens are of a document exactly if both together are. -/
theorem areIn_append {a b : List Token} :
    AreIn document (a ++ b) ↔ AreIn document a ∧ AreIn document b := by
  rw [AreIn, List.map_append, Span.areIn_append, AreIn, AreIn]

/-- Without tokens there is none that is outside of a document. -/
theorem areIn_nil (document : DocumentId) : AreIn document [] := nofun

/-- The extents are of the document and have the cover of the tokens. -/
def Joins (document : DocumentId) (extents : List Span) (tokens : List Token) : Prop :=
  SameCover document extents (tokens.map Token.span)

/-- The extents of two parts in a row have the cover of all their tokens. -/
theorem Joins.append {first second : List Span} {a b : List Token} (h : Joins document first a)
    (h' : Joins document second b) : Joins document (first ++ second) (a ++ b) := by
  rw [Joins, List.map_append]
  exact SameCover.append h h'

/-- The cover of the extents stands for the tokens. -/
theorem Joins.toList {extents : List Span} {tokens : List Token} (h : Joins document extents tokens) :
    Joins document (Span.cover extents).toList tokens :=
  SameCover.toList h

/-- What the extents of parts cover is what their tokens cover. -/
theorem Joins.cover_eq {extents : List Span} {tokens : List Token}
    (h : Joins document extents tokens) : Span.cover extents = Token.cover tokens :=
  SameCover.cover_eq h

/-- The span that covers tokens may stand for them. -/
theorem joins_cover {tokens : List Token} (h : AreIn document tokens) :
    Joins document (Token.cover tokens).toList tokens :=
  .of_cover_eq h rfl

/-- The extent of a part that may be missing has the cover of its tokens. -/
theorem joins_slot {slot : Option (List Token)} (h : AreIn document (slotTokens slot)) :
    Joins document (slotExtents slot) (slotTokens slot) := by
  cases slot with
  | none => exact .refl h
  | some tokens => exact joins_cover h

/-- The extent of a closing tag is what its tokens cover. -/
theorem ClosingTag.extent_eq {tag : ClosingTag} (h : AreIn document tag.tokens) :
    tag.extent = Token.cover tag.tokens := by
  simp only [ClosingTag.tokens, areIn_append] at h
  exact (((joins_cover h.1.1).append (joins_slot h.1.2)).append (joins_slot h.2)).cover_eq

/-- The extent of a comment is what its tokens cover. -/
theorem Comment.extent_eq {comment : Comment} (h : AreIn document comment.tokens) :
    comment.extent = Token.cover comment.tokens := by
  simp only [Comment.tokens, areIn_append] at h
  exact (((joins_cover h.1.1).append (joins_cover h.1.2)).append (joins_slot h.2)).cover_eq

/-- The extent of a closing tag that may be missing has the cover of its tokens. -/
theorem joins_closingTag {tag : Option ClosingTag} (h : AreIn document (closingTagTokens tag)) :
    Joins document (tag.bind ClosingTag.extent).toList (closingTagTokens tag) := by
  cases tag with
  | none => exact .refl h
  | some tag => exact .of_cover_eq h (ClosingTag.extent_eq h)

mutual

/-- The extent of a node over tokens of one document is its span. -/
theorem Node.extent_eq : ∀ {node : Node}, AreIn document node.tokens → node.extent = node.span
  | .single _, _ => rfl
  | .partialSymbol _, _ => rfl
  | .sequence _, h => (joins_nodes h).cover_eq
  | .compoundSymbol _, h => (joins_nodes h).cover_eq
  | .namespacedSymbol _, h => (joins_nodes h).cover_eq
  | .content _, h => (joins_nodes h).cover_eq
  | .trivia _, h => (joins_nodes h).cover_eq
  | .interpolation _, h => Interpolation.extent_eq h
  | .attribute _, h => Attribute.extent_eq h
  | .element _, h => Element.extent_eq h
  | .closingTag _, h => ClosingTag.extent_eq h
  | .comment _, h => Comment.extent_eq h
  | .document _, h => Document.extent_eq h

/-- The extents of nodes in a row have the cover of all their tokens, by recursion on the tree. -/
theorem joins_nodes : ∀ {nodes : List Node}, AreIn document (nodeTokens nodes) →
    Joins document (nodeExtents nodes) (nodeTokens nodes)
  | [], h => .refl h
  | _ :: _, h => by
    obtain ⟨hnode, hrest⟩ := areIn_append.mp h
    exact Joins.append (.of_cover_eq hnode (Node.extent_eq hnode)) (joins_nodes hrest)

/-- The extent of an interpolation is what its tokens cover. -/
theorem Interpolation.extent_eq : ∀ {whole : Interpolation}, AreIn document whole.tokens →
    whole.extent = Token.cover whole.tokens
  | ⟨_, none, _⟩, h => by
    obtain ⟨hopening, hclosing⟩ := areIn_append.mp h
    exact ((joins_cover hopening).append (joins_slot hclosing)).cover_eq
  | ⟨_, some _, _⟩, h => by
    simp only [Interpolation.tokens, areIn_append] at h
    exact (((joins_cover h.1.1).append (joins_nodes h.1.2).toList).append
      (joins_slot h.2)).cover_eq

/-- The extent of an attribute is what its tokens cover. -/
theorem Attribute.extent_eq : ∀ {attr : Attribute}, AreIn document attr.tokens →
    attr.extent = Token.cover attr.tokens
  | ⟨_, _, _, none, _⟩, h => by
    simp only [Attribute.tokens, areIn_append] at h
    exact ((((joins_cover h.1.1.1).append (joins_slot h.1.1.2)).append
      (joins_slot h.1.2)).append (joins_slot h.2)).cover_eq
  | ⟨_, _, _, some _, _⟩, h => by
    simp only [Attribute.tokens, areIn_append] at h
    exact (((((joins_cover h.1.1.1.1).append (joins_slot h.1.1.1.2)).append
      (joins_slot h.1.1.2)).append (joins_nodes h.1.2).toList).append (joins_slot h.2)).cover_eq

/-- The extents of attributes in a row have the cover of all their tokens. -/
theorem joins_attributes : ∀ {attributes : List Attribute},
    AreIn document (attributeTokens attributes) →
      Joins document (attributeExtents attributes) (attributeTokens attributes)
  | [], h => .refl h
  | _ :: _, h => by
    obtain ⟨hattr, hrest⟩ := areIn_append.mp h
    exact Joins.append (.of_cover_eq hattr (Attribute.extent_eq hattr)) (joins_attributes hrest)

/-- The extent of an element is what its tokens cover, whatever is missing of it. -/
theorem Element.extent_eq : ∀ {element : Element}, AreIn document element.tokens →
    element.extent = Token.cover element.tokens
  | ⟨_, _, _, _, _, _, _⟩, h => by
    simp only [Element.tokens, areIn_append] at h
    obtain ⟨⟨⟨⟨⟨⟨hleading, hbracket⟩, hname⟩, hattributes⟩, htagEnd⟩, hchildren⟩, hclosing⟩ := h
    exact (((((((joins_nodes hleading).toList.append (joins_slot hbracket)).append
      (joins_slot hname)).append (joins_attributes hattributes).toList).append
      (joins_slot htagEnd)).append (joins_nodes hchildren).toList).append
      (joins_closingTag hclosing)).cover_eq

/-- The extent of a document is what its tokens cover, with the trivia behind the root. -/
theorem Document.extent_eq : ∀ {whole : Document}, AreIn document whole.tokens →
    whole.extent = Token.cover whole.tokens
  | ⟨_, _⟩, h => by
    obtain ⟨hroot, htrailing⟩ := areIn_append.mp h
    have hjoined : Joins document _ _ := .of_cover_eq hroot (Element.extent_eq hroot)
    exact (hjoined.append (joins_nodes htrailing).toList).cover_eq

end

end Tree

end JobMarkup
