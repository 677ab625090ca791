import JobMarkup.Proofs.CollectedReferences
import JobMarkup.Proofs.Outline
import JobMarkup.Proofs.TemplateShape

/-!
# Instances of compiled texts

Every text, faulty or not, has pieces that do not depend on any values, and its instances are those
of the pieces. The variables of the pieces are the uses that have been collected while the document
was bound, in the order of the text: no symbol gets into the template without being collected, and
no use is collected of a symbol that does not get into it. So an instance depends on the variables
of the document alone.
-/

namespace JobMarkup

namespace Template

open Variable

/-! ## The variables of pieces -/

/-- Without pieces there are no variables. -/
@[simp] theorem identifiersOf_nil : identifiersOf [] = [] := rfl

/-- A text among pieces refers to no variable. -/
@[simp] theorem identifiersOf_text (literal : String) (rest : List Piece) :
    identifiersOf (.text literal :: rest) = identifiersOf rest := rfl

/-- Pieces in a row refer to the variables of the first ones and then to those of the others. -/
theorem identifiersOf_append (first second : List Piece) :
    identifiersOf (first ++ second) = identifiersOf first ++ identifiersOf second :=
  List.filterMap_append

/-- The pieces of attributes refer to the variables of the symbols in their values. -/
theorem identifiersOf_attributePieces (attributes : List Attribute) :
    identifiersOf (attributePieces attributes)
      = (attributes.flatMap fun attr => symbols attr.value).map Symbol.identifier := by
  induction attributes with
  | nil => rfl
  | cons attr rest ih =>
    have hattr : identifiersOf attr.pieces = (symbols attr.value).map Symbol.identifier := by
      rw [map_identifier_symbols, Attribute.pieces, identifiersOf_append]
      exact List.append_nil _
    rw [attributePieces] at ih ⊢
    rw [List.flatMap_cons, identifiersOf_append, ih, identifiersOf_text, hattr, List.flatMap_cons,
      List.map_append]

mutual

/-- The variables of the pieces are those that the symbols of the element refer to, where no element
has both content and children. -/
theorem identifiersOf_pieces :
    ∀ element : Element, (∀ bound ∈ element.elements, bound.IsExclusive) →
      identifiersOf element.pieces = element.symbols.map Symbol.identifier
  | ⟨name, attributes, some content, children⟩, h => by
    rw [elements_mk, List.forall_mem_cons] at h
    obtain rfl : children = [] := h.1.resolve_left (by simp)
    simp [Element.pieces, symbols_mk, closingTagPieces, identifiersOf_append,
      identifiersOf_attributePieces, map_identifier_symbols]
  | ⟨name, attributes, none, []⟩, _ => by
    simp [Element.pieces, symbols_mk, symbols, identifiersOf_append, identifiersOf_attributePieces]
  | ⟨name, attributes, none, child :: children⟩, h => by
    rw [Element.elements, elementsBelow, List.forall_mem_cons, List.forall_mem_append] at h
    obtain ⟨-, hchild, hchildren⟩ := h
    simp [Element.pieces, Element.symbols, symbolsBelow, symbols, closingTagPieces,
      identifiersOf_append, identifiersOf_attributePieces, identifiersOf_pieces child hchild,
      identifiersOf_elementPieces children hchildren]

/-- The pieces of elements refer to the variables of their symbols in the order of the text, where
an element has content or children and not both. -/
theorem identifiersOf_elementPieces :
    ∀ elements : List Element, (∀ bound ∈ elementsBelow elements, bound.IsExclusive) →
      identifiersOf (elementPieces elements) = (symbolsBelow elements).map Symbol.identifier
  | [], _ => rfl
  | child :: rest, h => by
    rw [elementsBelow, List.forall_mem_append] at h
    rw [elementPieces, identifiersOf_append, identifiersOf_pieces child h.1,
      identifiersOf_elementPieces rest h.2, symbolsBelow, List.map_append]

end

/-- Pieces in a row depend only on the values of their own variables. -/
theorem instantiate_congr {values values' : Values} {pieces : List Piece}
    (h : ∀ identifier ∈ identifiersOf pieces, values.get identifier = values'.get identifier) :
    instantiate values pieces = instantiate values' pieces := by
  induction pieces with
  | nil => rfl
  | cons piece rest ih =>
    cases piece with
    | text literal =>
      rw [instantiate_cons, instantiate_cons, ih h]
      rfl
    | value identifier =>
      obtain ⟨hfirst, hrest⟩ := List.forall_mem_cons.mp h
      rw [instantiate_cons, instantiate_cons, ih hrest]
      simp [hfirst]

end Template

namespace SourceText

open Template Variable

/-- The pieces of the template that is read from a text; none without a document. -/
def pieces (text : SourceText) : List Piece :=
  (text.compile.template.map Template.Document.pieces).getD []

/-- The symbols of the template that is read from a text, in the order of the text. -/
def symbols (text : SourceText) : List Symbol :=
  (text.compile.template.map Template.Document.symbols).getD []

variable (text : SourceText)

/-- An instance of a text is one of its pieces, and empty if there is no template. -/
theorem instantiate_compile (values : Values) :
    text.compile.instantiate values = instantiate values text.pieces := by
  rw [Compilation.instantiate, pieces]
  cases text.compile.template with
  | none => rfl
  | some template => exact template.instantiate_eq values

/-- No element of the template has both content and children, so each symbol of the template gives a
piece. -/
theorem identifiersOf_pieces_compile :
    identifiersOf text.pieces = text.symbols.map Symbol.identifier := by
  cases hdocument : text.compile.document with
  | none =>
    rw [pieces, symbols, template_compile, hdocument]
    rfl
  | some document =>
    have hexclusive := isExclusive_bindRoot text document.root
    rw [pieces, symbols, template_of_document_eq hdocument]
    simp only [Option.map_some, Option.getD_some, Document.pieces, Document.symbols]
    cases hroot : (Context.bindRoot text document.root).value with
    | none => rfl
    | some root => simpa using identifiersOf_pieces root (hexclusive root hroot)

/-- The references of a text are collected from the symbols of its template. -/
theorem references_compile :
    text.compile.references = References.empty.addAll (text.symbols.map Symbol.reference) := by
  cases hdocument : text.compile.document with
  | none =>
    rw [Compilation.references, symbols, template_compile, hdocument]
    rfl
  | some document =>
    obtain ⟨hfinds, -⟩ := bindRoot_finds hdocument
    rw [Compilation.references, symbols, template_of_document_eq hdocument]
    simp only [Option.map_some, Option.getD_some, Document.symbols, hfinds.references_eq]

/-- The symbols of a template stand one behind the other. -/
theorem pairwise_symbols : (text.symbols.map Symbol.span).Pairwise (fun a b => a.stop < b.start) := by
  cases hdocument : text.compile.document with
  | none =>
    rw [symbols, template_compile, hdocument]
    exact List.Pairwise.nil
  | some document =>
    obtain ⟨hfinds, -⟩ := bindRoot_finds hdocument
    rw [symbols, template_of_document_eq hdocument]
    exact (hfinds.groups.inOrder (sublist_of_document_eq hdocument)).pairwise

/-- Every text has pieces, chosen without regard to any values, such that its instance under values
is the texts of the pieces and the values of their variables one after the other. The variables of
the pieces are those of the uses that the references of the text hold, in the order of the text. So
texts have the same instance under values that agree on the variables of the references, whatever
other variables they have. -/
theorem compile_instantiates :
    ∃ (pieces : List Piece) (uses : List Reference),
      (∀ values, text.compile.instantiate values
        = String.join (pieces.map (Piece.instantiate values)))
      ∧ pieces.filterMap Piece.identifier? = uses.map Reference.identifier
      ∧ uses.Perm text.compile.references.all
      ∧ uses.Pairwise (fun a b => a.span.stop < b.span.start)
      ∧ ∀ values values' : Values,
        (∀ identifier ∈ text.compile.references.identifiers,
          values.get identifier = values'.get identifier) →
        text.compile.instantiate values = text.compile.instantiate values' := by
  have hidentifiers : identifiersOf text.pieces
      = (text.symbols.map Symbol.reference).map Reference.identifier := by
    rw [text.identifiersOf_pieces_compile, List.map_map]
    rfl
  refine ⟨text.pieces, text.symbols.map Symbol.reference, text.instantiate_compile, hidentifiers,
    ?_, ?_, ?_⟩
  · rw [text.references_compile]
    exact (References.empty.all_addAll_perm _).symm
  · have hspans := text.pairwise_symbols
    rw [List.pairwise_map] at hspans ⊢
    exact hspans
  · intro values values' hagree
    rw [text.instantiate_compile, text.instantiate_compile]
    apply instantiate_congr
    intro identifier hmem
    apply hagree
    rw [text.references_compile, References.mem_identifiers_addAll, ← hidentifiers]
    exact Or.inr hmem

/-- One variable has the text of an interpolation as its value; another one is not in the text. -/
theorem compile_instantiates_unrelated :
    (ofString (.ofNat 0) "<job a=\"@\x7bn/v\x7d@\">@\x7bn/w\x7d@</job>").compile.instantiate
        (.ofList [(⟨"n", "v"⟩, "@\x7bn/w\x7d@"), (⟨"n", "w"⟩, "y")])
      = (ofString (.ofNat 0) "<job a=\"@\x7bn/v\x7d@\">@\x7bn/w\x7d@</job>").compile.instantiate
        (.ofList [(⟨"m", "v"⟩, "z"), (⟨"n", "w"⟩, "y"), (⟨"n", "v"⟩, "@\x7bn/w\x7d@")]) := by
  obtain ⟨-, -, -, -, -, -, hagree⟩ := compile_instantiates
    (ofString (.ofNat 0) "<job a=\"@\x7bn/v\x7d@\">@\x7bn/w\x7d@</job>")
  apply hagree
  decide +kernel

end SourceText

end JobMarkup
