import JobMarkup.Proofs.CleanBinding
import JobMarkup.Proofs.Writing

/-!
# Outlines of templates

The outline of an element is the element without its spans: names, keys and pieces, in their order.
Instances of a template depend on its outline alone. The canonical text of an outline, given the
text of each variable, is what instances are written as: one space before each attribute, nothing
between tags but their content, and a tag that closes itself where there is none.
-/

namespace JobMarkup

open Variable

namespace Template

/-- An element without its spans. -/
structure Outline where
  name : String
  /-- The keys with their values. -/
  attributes : List (String × List Piece)
  content : Option (List Piece)
  children : List Outline

/-- The key and the value of an attribute. -/
def Attribute.outline (attr : Attribute) : String × List Piece :=
  (attr.key.text, attr.value.map Value.piece)

mutual

/-- The element without its spans. -/
def Element.outline : Element → Outline
  | ⟨name, attributes, content, children⟩ =>
    ⟨name.text, attributes.map Attribute.outline, content.map (List.map Value.piece),
      outlines children⟩

/-- Elements in a row without their spans. -/
def outlines : List Element → List Outline
  | [] => []
  | child :: rest => child.outline :: outlines rest

end

/-- The outline of an element has the name of the element. -/
@[simp] theorem Element.outline_name (element : Element) : element.outline.name = element.name.text := by
  cases element
  rfl

/-! ## Canonical texts -/

section Render

variable (value : Identifier → String)

/-- The characters of a piece, given those of the variables. -/
def Piece.render : Piece → List Char
  | text literal => literal.toList
  | .value identifier => (value identifier).toList

/-- The characters of pieces in a row. -/
def renderPieces (pieces : List Piece) : List Char := pieces.flatMap (Piece.render value)

/-- The characters of an attribute: the key and the value in quotes. -/
def renderAttribute (attr : String × List Piece) : List Char :=
  attr.1.toList ++ '=' :: '"' :: (renderPieces value attr.2 ++ ['"'])

/-- The characters of attributes, a space before each. -/
def renderAttributes (attributes : List (String × List Piece)) : List Char :=
  attributes.flatMap fun attr => ' ' :: renderAttribute value attr

/-- The characters of a closing tag. -/
def closingChars (name : String) : List Char := '<' :: '/' :: (name.toList ++ ['>'])

mutual

/-- The canonical text of an element. -/
def Outline.render : Outline → List Char
  | ⟨name, attributes, some content, _⟩ =>
    '<' :: (name.toList ++ (renderAttributes value attributes
      ++ '>' :: (renderPieces value content ++ closingChars name)))
  | ⟨name, attributes, none, []⟩ =>
    '<' :: (name.toList ++ (renderAttributes value attributes ++ ['/', '>']))
  | ⟨name, attributes, none, child :: children⟩ =>
    '<' :: (name.toList ++ (renderAttributes value attributes
      ++ '>' :: (child.render ++ renderAll children ++ closingChars name)))

/-- The canonical texts of elements one after the other. -/
def renderAll : List Outline → List Char
  | [] => []
  | child :: rest => child.render ++ renderAll rest

end

end Render

/-- Pieces in a row are written one part after the other. -/
theorem renderPieces_append (value : Identifier → String) (first second : List Piece) :
    renderPieces value (first ++ second) = renderPieces value first ++ renderPieces value second := by
  simp [renderPieces]

/-- The first of some pieces is written in front of the others. -/
theorem renderPieces_cons (value : Identifier → String) (piece : Piece) (rest : List Piece) :
    renderPieces value (piece :: rest) = piece.render value ++ renderPieces value rest := rfl

/-- A text among pieces is written as it is. -/
@[simp] theorem renderPieces_text (value : Identifier → String) (literal : String)
    (rest : List Piece) :
    renderPieces value (.text literal :: rest) = literal.toList ++ renderPieces value rest := rfl

/-- No pieces are written as nothing. -/
@[simp] theorem renderPieces_nil (value : Identifier → String) : renderPieces value [] = [] := rfl

/-- The characters of an instance are those of its pieces. -/
theorem toList_instantiate (values : Values) (pieces : List Piece) :
    (instantiate values pieces).toList = renderPieces values.get pieces := by
  have hpiece (piece : Piece) : (piece.instantiate values).toList = piece.render values.get := by
    cases piece <;> rfl
  induction pieces with
  | nil => simp [instantiate]
  | cons piece rest ih =>
    simp only [instantiate, List.map_cons, String.join_cons, String.toList_append] at ih ⊢
    rw [ih, hpiece, renderPieces_cons]

/-- The pieces of attributes are written as the canonical text of their outlines. -/
theorem renderPieces_attributePieces (value : Identifier → String) (attributes : List Attribute) :
    renderPieces value (attributePieces attributes)
      = renderAttributes value (attributes.map Attribute.outline) := by
  induction attributes with
  | nil => rfl
  | cons attr rest ih =>
    rw [attributePieces, List.flatMap_cons, renderPieces_append, ← attributePieces, ih]
    simp [renderAttributes, renderAttribute, Attribute.pieces, Attribute.outline,
      renderPieces_append]

/-- The pieces of a closing tag are written as the canonical closing tag. -/
theorem renderPieces_closingTagPieces (value : Identifier → String) (name : String) :
    renderPieces value (closingTagPieces name) = closingChars name := by
  simp [closingTagPieces, closingChars]

mutual

/-- An instance is the canonical text of the outline. -/
theorem renderPieces_pieces (value : Identifier → String) :
    ∀ element : Element, renderPieces value element.pieces = element.outline.render value
  | ⟨name, attributes, some content, children⟩ => by
    simp [Element.pieces, Element.outline, Outline.render, renderPieces_append,
      renderPieces_attributePieces, renderPieces_closingTagPieces]
  | ⟨name, attributes, none, []⟩ => by
    simp [Element.pieces, Element.outline, outlines, Outline.render, renderPieces_append,
      renderPieces_attributePieces]
  | ⟨name, attributes, none, child :: children⟩ => by
    have hchild := renderPieces_pieces value child
    have hchildren := renderPieces_elementPieces value children
    simp [Element.pieces, Element.outline, outlines, Outline.render, renderPieces_append,
      renderPieces_attributePieces, renderPieces_closingTagPieces, hchild, hchildren]

/-- The pieces of elements are written as the canonical texts of their outlines, by recursion on the
elements. -/
theorem renderPieces_elementPieces (value : Identifier → String) :
    ∀ elements : List Element,
      renderPieces value (elementPieces elements) = renderAll value (outlines elements)
  | [] => rfl
  | child :: rest => by
    rw [elementPieces, renderPieces_append, renderPieces_pieces value child,
      renderPieces_elementPieces value rest, outlines, renderAll]

end

/-- The characters of the instance of an element. -/
theorem toList_instantiate_element (values : Values) (element : Element) :
    (instantiate values element.pieces).toList = element.outline.render values.get := by
  rw [toList_instantiate, renderPieces_pieces]

/-! ## Variables -/

/-- The variable of a piece, if it is one. -/
def Piece.identifier? : Piece → Option Identifier
  | text _ => none
  | value identifier => some identifier

/-- The variables of pieces in a row. -/
def identifiersOf (pieces : List Piece) : List Identifier := pieces.filterMap Piece.identifier?

mutual

/-- The variables of an outline: those of its attributes, of its content and of its children. -/
def Outline.identifiers : Outline → List Identifier
  | ⟨_, attributes, content, children⟩ =>
    (attributes.flatMap fun attr => identifiersOf attr.2) ++ identifiersOf (content.getD [])
      ++ identifiersBelow children

/-- The variables of outlines in a row. -/
def identifiersBelow : List Outline → List Identifier
  | [] => []
  | child :: rest => child.identifiers ++ identifiersBelow rest

end

/-- The symbols of a value refer to the variables of its pieces, in the same order. -/
theorem map_identifier_symbols (values : List Value) :
    (symbols values).map Symbol.identifier = identifiersOf (values.map Value.piece) := by
  induction values with
  | nil => rfl
  | cons value rest ih =>
    simp only [symbols, identifiersOf] at ih
    cases value <;>
      simp [symbols, identifiersOf, List.filterMap_cons, Value.symbol?, Value.piece, Symbol.piece,
        Piece.identifier?, ih]

mutual

/-- The variables of an outline are those that the symbols of the element refer to. -/
theorem map_identifier_symbols_element :
    ∀ element : Element, element.symbols.map Symbol.identifier = element.outline.identifiers
  | ⟨name, attributes, content, children⟩ => by
    have hchildren := map_identifier_symbolsBelow children
    have hattributes : (attributes.flatMap fun attr => symbols attr.value).map Symbol.identifier
        = (attributes.map Attribute.outline).flatMap fun attr => identifiersOf attr.2 := by
      rw [List.map_flatMap, List.flatMap_map]
      simp [map_identifier_symbols, Attribute.outline]
    have hcontent : (symbols (content.getD [])).map Symbol.identifier
        = identifiersOf ((content.map (List.map Value.piece)).getD []) := by
      cases content <;> simp [map_identifier_symbols]
    simp only [Element.symbols, Element.outline, Outline.identifiers, List.map_append, hchildren,
      hattributes, hcontent]

/-- The symbols of elements refer to the variables of their outlines, in the same order. -/
theorem map_identifier_symbolsBelow :
    ∀ elements : List Element,
      (symbolsBelow elements).map Symbol.identifier = identifiersBelow (outlines elements)
  | [] => rfl
  | child :: rest => by
    rw [symbolsBelow, List.map_append, map_identifier_symbols_element child,
      map_identifier_symbolsBelow rest, outlines, identifiersBelow]

end

/-- Pieces in a row depend only on the texts of their own variables. -/
theorem renderPieces_congr {f g : Identifier → String} {pieces : List Piece}
    (h : ∀ identifier ∈ identifiersOf pieces, f identifier = g identifier) :
    renderPieces f pieces = renderPieces g pieces := by
  rw [renderPieces, renderPieces, List.flatMap_def, List.flatMap_def]
  congr 1
  refine List.map_congr_left fun piece hpiece => ?_
  cases piece with
  | text literal => rfl
  | value identifier =>
    have hmem : identifier ∈ identifiersOf pieces :=
      List.mem_filterMap.mpr ⟨.value identifier, hpiece, rfl⟩
    rw [Piece.render, Piece.render, h identifier hmem]

/-- Attributes are written alike with values that agree on their variables. -/
theorem renderAttributes_congr {f g : Identifier → String} {attributes : List (String × List Piece)}
    (h : ∀ attr ∈ attributes, ∀ identifier ∈ identifiersOf attr.2, f identifier = g identifier) :
    renderAttributes f attributes = renderAttributes g attributes := by
  rw [renderAttributes, renderAttributes, List.flatMap_def, List.flatMap_def]
  congr 1
  refine List.map_congr_left fun attr hattr => ?_
  rw [renderAttribute, renderAttribute, renderPieces_congr (h attr hattr)]

mutual

/-- The canonical text depends only on the texts of the variables of the outline. -/
theorem Outline.render_congr {f g : Identifier → String} :
    ∀ outline : Outline, (∀ identifier ∈ outline.identifiers, f identifier = g identifier) →
      outline.render f = outline.render g
  | ⟨name, attributes, content, children⟩, h => by
    simp only [Outline.identifiers, List.mem_append, List.mem_flatMap] at h
    have hattributes : renderAttributes f attributes = renderAttributes g attributes :=
      renderAttributes_congr fun attr hattr identifier hmem =>
        h identifier (Or.inl (Or.inl ⟨attr, hattr, hmem⟩))
    have hchildren := renderAll_congr (f := f) (g := g) children
      fun identifier hmem => h identifier (Or.inr hmem)
    cases content with
    | some pieces =>
      have hcontent : renderPieces f pieces = renderPieces g pieces :=
        renderPieces_congr fun identifier hmem => h identifier (Or.inl (Or.inr hmem))
      rw [Outline.render, Outline.render, hattributes, hcontent]
    | none =>
      cases children with
      | nil => rw [Outline.render, Outline.render, hattributes]
      | cons child rest =>
        rw [renderAll, renderAll] at hchildren
        rw [Outline.render, Outline.render, hattributes, hchildren]

/-- Outlines in a row are written alike with values that agree on their variables. -/
theorem renderAll_congr {f g : Identifier → String} :
    ∀ outlines : List Outline, (∀ identifier ∈ identifiersBelow outlines, f identifier = g identifier) →
      renderAll f outlines = renderAll g outlines
  | [], _ => rfl
  | child :: rest, h => by
    simp only [identifiersBelow, List.mem_append] at h
    rw [renderAll, renderAll, Outline.render_congr child fun identifier hmem => h identifier (Or.inl hmem),
      renderAll_congr rest fun identifier hmem => h identifier (Or.inr hmem)]

end

/-! ## Joined texts -/

/-- Texts that stand side by side made one. -/
def joinTexts : List Piece → List Piece
  | [] => []
  | .text literal :: rest =>
    match joinTexts rest with
    | .text next :: others => .text (literal ++ next) :: others
    | others => .text literal :: others
  | .value identifier :: rest => .value identifier :: joinTexts rest

/-- Joining texts does not change what pieces are written as. -/
theorem renderPieces_joinTexts (value : Identifier → String) (pieces : List Piece) :
    renderPieces value (joinTexts pieces) = renderPieces value pieces := by
  fun_induction joinTexts pieces with
  | case1 => rfl
  | case2 literal rest next others hjoined ih =>
    rw [hjoined, renderPieces_text] at ih
    rw [renderPieces_text, renderPieces_text, String.toList_append, List.append_assoc, ih]
  | case3 literal rest _ ih => rw [renderPieces_text, renderPieces_text, ih]
  | case4 identifier rest ih => rw [renderPieces_cons, renderPieces_cons, ih]

/-- Joining texts keeps the variables and their order. -/
theorem identifiersOf_joinTexts (pieces : List Piece) :
    identifiersOf (joinTexts pieces) = identifiersOf pieces := by
  have htext (literal : String) (rest : List Piece) :
      identifiersOf (.text literal :: rest) = identifiersOf rest := rfl
  fun_induction joinTexts pieces with
  | case1 => rfl
  | case2 literal rest next others hjoined ih =>
    rw [hjoined, htext] at ih
    rw [htext, htext, ih]
  | case3 literal rest _ ih => rw [htext, htext, ih]
  | case4 identifier rest ih => exact congrArg (List.cons identifier) ih

/-- An attribute with its texts joined. -/
def joinedAttribute (attr : String × List Piece) : String × List Piece := (attr.1, joinTexts attr.2)

mutual

/-- The outline with texts that stand side by side made one. -/
def Outline.joined : Outline → Outline
  | ⟨name, attributes, content, children⟩ =>
    ⟨name, attributes.map joinedAttribute, content.map joinTexts, joinedAll children⟩

/-- Outlines in a row with their texts joined. -/
def joinedAll : List Outline → List Outline
  | [] => []
  | child :: rest => child.joined :: joinedAll rest

end

/-- Joining the texts in the value of an attribute does not change what the attribute is written as. -/
theorem renderAttribute_joinedAttribute (value : Identifier → String) (attr : String × List Piece) :
    renderAttribute value (joinedAttribute attr) = renderAttribute value attr := by
  rw [renderAttribute, renderAttribute, joinedAttribute, renderPieces_joinTexts]

/-- Joining the texts in their values does not change what attributes are written as. -/
theorem renderAttributes_joined (value : Identifier → String)
    (attributes : List (String × List Piece)) :
    renderAttributes value (attributes.map joinedAttribute) = renderAttributes value attributes := by
  simp [renderAttributes, List.flatMap_map, renderAttribute_joinedAttribute]

mutual

/-- Joining texts does not change the canonical text. -/
theorem Outline.render_joined (value : Identifier → String) :
    ∀ outline : Outline, outline.joined.render value = outline.render value
  | ⟨name, attributes, some content, children⟩ => by
    simp only [Outline.joined, Option.map_some, Outline.render, renderAttributes_joined,
      renderPieces_joinTexts]
  | ⟨name, attributes, none, []⟩ => by
    simp only [Outline.joined, Option.map_none, joinedAll, Outline.render, renderAttributes_joined]
  | ⟨name, attributes, none, child :: children⟩ => by
    simp only [Outline.joined, Option.map_none, joinedAll, Outline.render, renderAttributes_joined,
      Outline.render_joined value child, renderAll_joinedAll value children]

/-- Joining texts does not change what outlines are written as, by recursion on the outlines. -/
theorem renderAll_joinedAll (value : Identifier → String) :
    ∀ outlines : List Outline, renderAll value (joinedAll outlines) = renderAll value outlines
  | [] => rfl
  | child :: rest => by
    rw [joinedAll, renderAll, renderAll, Outline.render_joined value child,
      renderAll_joinedAll value rest]

end

mutual

/-- Joining texts does not change the variables. -/
theorem Outline.identifiers_joined :
    ∀ outline : Outline, outline.joined.identifiers = outline.identifiers
  | ⟨name, attributes, content, children⟩ => by
    have hattributes : ((attributes.map joinedAttribute).flatMap fun attr => identifiersOf attr.2)
        = attributes.flatMap fun attr => identifiersOf attr.2 := by
      simp [List.flatMap_map, joinedAttribute, identifiersOf_joinTexts]
    have hcontent : identifiersOf ((content.map joinTexts).getD [])
        = identifiersOf (content.getD []) := by
      cases content <;> simp [identifiersOf_joinTexts]
    rw [Outline.joined, Outline.identifiers, Outline.identifiers, hattributes, hcontent,
      identifiersBelow_joinedAll children]

/-- Joining texts keeps the variables of outlines and their order. -/
theorem identifiersBelow_joinedAll :
    ∀ outlines : List Outline, identifiersBelow (joinedAll outlines) = identifiersBelow outlines
  | [] => rfl
  | child :: rest => by
    rw [joinedAll, identifiersBelow, identifiersBelow, Outline.identifiers_joined child,
      identifiersBelow_joinedAll rest]

end

end Template

namespace SourceText

open Template

/-- The instance of a template with a root, character by character. -/
theorem toList_instantiate_compile {text : SourceText} {template : Template.Document}
    {root : Template.Element} (htemplate : text.compile.template = some template)
    (hroot : template.root = some root) (values : Values) :
    (text.compile.instantiate values).toList = root.outline.render values.get := by
  rw [Compilation.instantiate, htemplate, Option.map_some, Option.getD_some,
    template.instantiate_eq, Template.Document.pieces, hroot]
  exact toList_instantiate_element values root

end SourceText

end JobMarkup
