import JobMarkup.Proofs.LineEnds

/-!
# Reading a template again

An element that has been read, and of which nothing is reported, can be read again from its canonical
text, in which each variable is a reference to itself. Whatever marks its texts contain, they are cut
into the same lexemes as before.
-/

namespace JobMarkup

open Variable Character

namespace SourceText

variable {text : SourceText} {tokens : List Token}

/-- The tokens of a run are found again in their characters alone. -/
theorem IsRun.ofChars_charsOf (h : text.IsRun tokens) :
    Lexeme.ofChars (text.charsOf tokens) = tokens.map (Token.lexeme text) := by
  have hinfix : tokens.map (Token.lexeme text) <:+: Lexeme.ofChars text.chars := by
    rw [← text.map_lexeme_tokens]
    exact List.IsInfix.map (Token.lexeme text) h
  rw [text.charsOf_eq_flatMap_lexeme]
  exact ((Lexeme.isCut_ofChars text.chars).part hinfix).ofChars_flatMap

/-- The characters of a token are such as its kind allows, since the token is a lexeme of the text. -/
theorem IsRun.fits (h : text.IsRun tokens) {token : Token} (hmem : token ∈ tokens) :
    Lexeme.Fits token.kind (token.chars text) := by
  have hlexeme : token.lexeme text ∈ Lexeme.ofChars (text.charsOf tokens) :=
    h.ofChars_charsOf ▸ List.mem_map_of_mem hmem
  exact Lexeme.fits_of_mem_ofChars _ hlexeme

/-- The characters of a run are characters of the text. -/
theorem IsRun.charsOf_subset (h : text.IsRun tokens) : text.charsOf tokens ⊆ text.chars := by
  obtain ⟨offset, -, hfront⟩ := h.eq_place
  exact fun c hc => List.mem_of_mem_drop (hfront.subset hc)

end SourceText

namespace Template

open JobMarkup.Tree JobMarkup.Grammar

/-! ## The characters of what has been spelled -/

/-- The characters of the symbol of a variable are its written form. -/
theorem SpellsIdentifier.flatMap_chars {lexemes : List Lexeme} {identifier : Identifier}
    (h : SpellsIdentifier lexemes identifier)
    (hfits : ∀ lexeme ∈ lexemes, Lexeme.Fits lexeme.kind lexeme.chars) :
    lexemes.flatMap Lexeme.chars = identifier.toText.toList := by
  obtain ⟨-, hslash, -⟩ := h
  rename_i scope slash key
  have hchars := hfits slash (by simp)
  rw [hslash, Lexeme.Fits] at hchars
  simp [Identifier.toText, textOf, hchars]

/-- The characters of a value are those of its pieces, each variable in its written form. -/
theorem Spells.flatMap_chars {terminators : List TokenKind} {lexemes : List Lexeme}
    {pieces : List Piece} (h : Spells terminators lexemes pieces)
    (hfits : ∀ lexeme ∈ lexemes, Lexeme.Fits lexeme.kind lexeme.chars) :
    lexemes.flatMap Lexeme.chars = renderPieces reference pieces := by
  induction h with
  | nil => rfl
  | @text run rest pieces _ _ _ _ ih =>
    have hrest := ih fun lexeme hmem => hfits lexeme (List.mem_append_right run hmem)
    rw [List.flatMap_append, hrest, renderPieces_text, textOf, String.toList_ofList]
  | @value opening inner closing rest identifier pieces hopening hinner hclosing _ ih =>
    have hrest := ih fun lexeme hmem => hfits lexeme (by simp [hmem])
    have hidentifier := hinner.flatMap_chars fun lexeme hmem => hfits lexeme (by simp [hmem])
    have hopeningChars := hfits opening List.mem_cons_self
    have hclosingChars := hfits closing (by simp)
    rw [hopening, Lexeme.Fits] at hopeningChars
    rw [hclosing, Lexeme.Fits] at hclosingChars
    rw [renderPieces_cons, Piece.render, reference]
    simp [hopeningChars, hclosingChars, hidentifier, hrest]

variable {text : SourceText}

/-- The pieces of nodes that follow the grammar are read again from their characters. -/
theorem spells_renderPieces {terminators : List TokenKind} {nodes : List Tree.Node}
    (hnodes : ∀ node ∈ nodes, IsContentPiece terminators node) (hrun : text.IsRun (nodeTokens nodes)) :
    renderPieces reference ((valuesOf text [] nodes).map Value.piece)
        = text.charsOf (nodeTokens nodes)
      ∧ Spells terminators (Lexeme.ofChars (text.charsOf (nodeTokens nodes)))
        ((valuesOf text [] nodes).map Value.piece) := by
  have hspells := spells_of_isContentPiece hnodes (spellsLiteral_nil terminators) hrun
  rw [List.nil_append, ← hrun.ofChars_charsOf] at hspells
  have hchars := hspells.flatMap_chars Lexeme.fits_of_mem_ofChars
  rw [Lexeme.flatMap_chars_ofChars] at hchars
  exact ⟨hchars.symm, hspells⟩

/-! ## The outline of an element that has been read -/

/-- The name of a tag is a run of letters, so it can be read as a name again. -/
theorem isReadableName_of_isRun {name : Token} (hrun : text.IsRun [name])
    (hkind : name.kind = .letters) : IsReadableName (excerptOf text [name]).text := by
  have hfits := hrun.fits List.mem_cons_self
  rw [hkind, Lexeme.Fits] at hfits
  have hchars : (excerptOf text [name]).text.toList = name.chars text := by
    rw [text_excerptOf hrun (List.cons_ne_nil _ _)]
    simp [SourceText.wording]
  refine ⟨?_, ?_⟩
  · rw [hchars]
    exact text.chars_ne_nil (hrun.sublist.subset List.mem_cons_self)
  · rw [hchars]
    exact hfits

/-- An attribute that has been read can be read again. -/
theorem isReadableAttribute_of_isAttribute (hreturn : '\r' ∉ text.chars) {attr : Tree.Attribute}
    (h : IsAttribute attr) (hrun : text.IsRun attr.tokens) :
    IsReadableAttribute (attributeOf text attr).outline := by
  have hname := hrun.part h.name_infix
  have hkey := text_excerptOf hname h.name_ne_nil
  obtain ⟨name, equal, openQuote, contents, closeQuote, rfl, hpartial, -, -, -, hcontents⟩ := h
  have hnodes : ∀ node ∈ contents.getD [], IsContentPiece attributeValueEnds node := by
    cases contents with
    | none => simp
    | some nodes => exact (hcontents nodes rfl).2
  rw [Attribute.tokens_eq] at hrun
  obtain ⟨hrender, hspells⟩ := spells_renderPieces hnodes
    (hrun.part ⟨name ++ [equal] ++ [openQuote], [closeQuote], by simp⟩)
  have hkeyChars : (excerptOf text name).text.toList = text.charsOf name := by
    rw [hkey, SourceText.wording, String.toList_ofList]
  refine ⟨?_, ?_, ?_⟩
  · rw [attributeOf, Attribute.outline, hkeyChars, hname.ofChars_charsOf,
      ← isPartialSymbol_iff]
    exact hpartial
  · rw [attributeOf, Attribute.outline, hrender]
    exact hspells
  · have hkeyReturn : '\r' ∉ text.charsOf name := fun hmem => hreturn (hname.charsOf_subset hmem)
    have hvalueReturn : '\r' ∉ text.charsOf (nodeTokens (contents.getD [])) := fun hmem =>
      hreturn ((hrun.part ⟨name ++ [equal] ++ [openQuote], [closeQuote], by simp⟩).charsOf_subset hmem)
    rw [attributeOf, Attribute.outline, renderAttribute, hkeyChars, hrender]
    simp [hkeyReturn, hvalueReturn]

/-- Content that has been read can be read again. -/
theorem isReadableContent_of_isContent (hreturn : '\r' ∉ text.chars) {nodes : List Tree.Node}
    (h : IsContent elementValueEnds nodes) (hbegins : BeginsNoElement (nodeTokens nodes))
    (hrun : text.IsRun (nodeTokens nodes)) :
    IsReadableContent ((valuesOf text [] nodes).map Value.piece) := by
  obtain ⟨hrender, hspells⟩ := spells_renderPieces h.2 hrun
  have hne := h.nodeTokens_ne_nil
  refine ⟨?_, ?_, ?_, ?_⟩
  · intro hnil
    rw [hnil, hrun.ofChars_charsOf] at hspells
    exact hne (List.map_eq_nil_iff.mp hspells.eq_nil)
  · rw [hrender]
    exact hspells
  · rw [hrender, hrun.ofChars_charsOf, ← beginsNoElement_iff_beginsText]
    exact hbegins
  · rw [hrender]
    exact fun hmem => hreturn (hrun.charsOf_subset hmem)

/-- Attributes that have been read can be read again. -/
theorem isReadableAttribute_of_readsAttributes (hreturn : '\r' ∉ text.chars)
    {attributes : List Tree.Attribute} {tokens : List Token}
    (h : ReadsAttributes attributes tokens) (hrun : text.IsRun tokens) :
    ∀ attr ∈ attributes, IsReadableAttribute (attributeOf text attr).outline := by
  induction h with
  | nil => simp
  | @cons blanks attr attributes tokens _ _ hattr _ ih =>
    rw [List.forall_mem_cons]
    exact ⟨isReadableAttribute_of_isAttribute hreturn hattr (hrun.part ⟨blanks, tokens, by simp⟩),
      ih (hrun.part (List.IsSuffix.isInfix ⟨blanks ++ attr.tokens, by simp⟩))⟩

/-- A tag that has been read, and whose keys are not given twice, can be read again if what stands
behind it can. -/
theorem isReadable_of_readsOpenTag (hreturn : '\r' ∉ text.chars) {name tagEnd : Token}
    {attributes : List Tree.Attribute} {tag : List Token}
    (h : ReadsOpenTag name attributes tagEnd tag) (hrun : text.IsRun tag)
    (hduplicates : duplicates text [] attributes = []) {content : Option (List Piece)}
    {children : List Outline} (hcontent : ∀ pieces ∈ content, IsReadableContent pieces)
    (hchildren : ∀ child ∈ children, IsReadable child) :
    IsReadable ⟨(excerptOf text [name]).text, (attributes.map (attributeOf text)).map Attribute.outline,
      content, children⟩ := by
  have hkeys := keys_of_readsOpenTag h hrun
  have hnameRun := (bindOpenTag_eq h hrun).1
  obtain ⟨-, hletters, hattributes, -, -⟩ := h
  rename_i before middle behind
  have hmiddle : text.IsRun middle := hrun.part ⟨before ++ [name], behind ++ [tagEnd], by simp⟩
  refine .intro (isReadableName_of_isRun hnameRun hletters) ?_ ?_ hcontent hchildren
  · rw [List.map_map, List.forall_mem_map]
    exact isReadableAttribute_of_readsAttributes hreturn hattributes hmiddle
  · rw [@List.map_map _ _ _ Attribute.outline]
    exact hkeys ▸ ((duplicates_eq_nil_iff [] attributes).mp hduplicates).2

/-! ## Canonical texts as layouts -/

/-- Canonical attributes have one space in front of each, so they are laid out as attributes may be. -/
theorem writesAttributes_render (attributes : List (String × List Piece)) :
    WritesAttributes attributes (renderAttributes reference attributes) := by
  induction attributes with
  | nil => exact .nil
  | cons attr rest ih => exact .cons (List.cons_ne_nil ' ' []) (isGap_singleton ' ' (by decide)) ih

/-- A canonical opening tag is laid out without gaps other than those in front of attributes. -/
theorem writesTag_render (name : String) (attributes : List (String × List Piece)) :
    WritesTag name attributes (name.toList ++ renderAttributes reference attributes) := by
  have h : WritesTag name attributes _ :=
    .intro isGap_nil (writesAttributes_render attributes) isGap_nil
  simpa using h

/-- A canonical closing tag is laid out without gaps. -/
theorem writesClosingTag_render (name : String) : WritesClosingTag name (closingChars name) :=
  .intro isGap_nil isGap_nil

/-- An element that has been read, and of which nothing is reported, can be read again from its
canonical text. -/
structure IsRereadable (levels : Nat) (outline : Outline) : Prop where
  readable : IsReadable outline
  writes : WritesElement levels outline (outline.render reference)

/-- Children of an element that can be read again one by one. -/
structure AreRereadable (levels : Nat) (children : List Outline) : Prop where
  readable : ∀ child ∈ children, IsReadable child
  writes : WritesAll (WritesElement levels) children (renderAll reference children)

/-- Children that have been read can be read again one by one, if each of them can. -/
theorem areRereadable_of_readsChildren {levels : Nat}
    (hreads : ∀ (element : Tree.Element) tokens, ReadsElement levels element tokens →
      text.IsRun tokens → element.elements.flatMap (elementReports text) = [] →
      IsRereadable levels (elementOf text element).outline)
    {children : List Tree.Element} {tokens : List Token}
    (h : ReadsChildren (ReadsElement levels) children tokens) (hrun : text.IsRun tokens)
    (hreports : (childElements (children.map .element)).flatMap (elementReports text) = []) :
    AreRereadable levels (outlines (childrenOf text (children.map .element))) := by
  induction h with
  | nil => exact ⟨by simp [childrenOf, outlines], .nil⟩
  | trivia => exact ⟨by simp [childrenOf, outlines, Tree.Element.isTriviaOnly], .nil⟩
  | @cons child others first rest hchild _ ih =>
    have htagged := (@corresponds_of_readsElement text _ _ _ hchild).1
    simp only [List.map_cons, childElements, htagged, Bool.false_eq_true, if_false,
      List.flatMap_append, List.append_eq_nil_iff] at hreports
    obtain ⟨hreadable, hwrites⟩ := hreads child first hchild
      (hrun.part (List.prefix_append first rest).isInfix) hreports.1
    obtain ⟨hothersReadable, hothersWrites⟩ :=
      ih (hrun.part (List.suffix_append first rest).isInfix) hreports.2
    simp only [List.map_cons, childrenOf, htagged, Bool.false_eq_true, if_false, outlines]
    refine ⟨?_, .cons hwrites hothersWrites⟩
    intro other hmem
    rcases List.mem_cons.mp hmem with rfl | hmem
    · exact hreadable
    · exact hothersReadable other hmem

/-- An element that closes itself has its canonical text as a layout at any level. -/
theorem writesElement_selfClosing (levels : Nat) (name : String)
    (attributes : List (String × List Piece)) :
    WritesElement levels ⟨name, attributes, none, []⟩
      (Outline.render reference ⟨name, attributes, none, []⟩) := by
  have hwith (body : Option (List Piece) → List Outline → List Char → Prop) :
      WritesElementWith body ⟨name, attributes, none, []⟩ _ :=
    .selfClosing (.gap isGap_nil) (writesTag_render name attributes)
  cases levels <;> simpa [WritesElement, Outline.render] using hwith _

/-- The canonical text of an element is one of its layouts if those of its children are. -/
theorem writesElement_render {levels : Nat} (name : String) (attributes : List (String × List Piece))
    {content : Option (List Piece)} {children : List Outline}
    (hcontent : content.isSome = true → children = [])
    (hchildren : WritesAll (WritesElement levels) children (renderAll reference children)) :
    WritesElement (levels + 1) ⟨name, attributes, content, children⟩
      (Outline.render reference ⟨name, attributes, content, children⟩) := by
  have hpaired {inner : List Char} (hinner : WritesBody (WritesElement levels) content children inner) :
      WritesElement (levels + 1) ⟨name, attributes, content, children⟩
        ('<' :: (name.toList ++ (renderAttributes reference attributes
          ++ '>' :: (inner ++ closingChars name)))) := by
    have h := WritesElementWith.paired (.gap isGap_nil) (writesTag_render name attributes) hinner
      (writesClosingTag_render name)
    simpa [WritesElement] using h
  cases content with
  | some pieces =>
    obtain rfl := hcontent rfl
    exact hpaired (.text isGap_nil)
  | none =>
    cases children with
    | nil => exact writesElement_selfClosing (levels + 1) name attributes
    | cons child rest =>
      have hinner := WritesBody.children hchildren (.gap isGap_nil)
      rw [List.append_nil] at hinner
      exact hpaired hinner

/-- Nothing is reported of an element if nothing is of its tag and of the elements below it. -/
theorem of_reports_eq_nil {element : Tree.Element}
    (h : element.elements.flatMap (elementReports text) = []) :
    duplicates text [] element.attributes = []
      ∧ (childElements element.children).flatMap (elementReports text) = [] := by
  cases element
  simp only [Tree.Element.elements, List.flatMap_cons, List.append_eq_nil_iff, elementReports] at h
  exact ⟨h.1.2, h.2⟩

/-- An element that has been read and closes itself can be read again from its canonical text. -/
theorem isRereadable_selfClosing (hreturn : '\r' ∉ text.chars) (levels : Nat) {name tagEnd : Token}
    {attributes : List Tree.Attribute} {tag : List Token}
    (h : ReadsOpenTag name attributes tagEnd tag) (hrun : text.IsRun tag) (leading : List Tree.Node)
    (bracket : List Token)
    (hreports : (Tree.Element.mk leading (some bracket) (some [name]) attributes (some [tagEnd]) []
      none).elements.flatMap (elementReports text) = []) :
    IsRereadable levels (elementOf text ⟨leading, some bracket, some [name], attributes,
      some [tagEnd], [], none⟩).outline := by
  obtain ⟨hduplicates, -⟩ := of_reports_eq_nil hreports
  rw [elementOf_eq, Element.outline, slotTokens_some]
  exact ⟨isReadable_of_readsOpenTag hreturn h hrun hduplicates (by simp [contentOf])
    (by simp [childrenOf, outlines]), writesElement_selfClosing _ _ _⟩

/-- An element that has been read, and of which nothing is reported, can be read again. -/
theorem isRereadable_of_readsElement (hreturn : '\r' ∉ text.chars) {levels : Nat}
    {element : Tree.Element} {tokens : List Token} (h : ReadsElement levels element tokens)
    (hrun : text.IsRun tokens) (hreports : element.elements.flatMap (elementReports text) = []) :
    IsRereadable levels (elementOf text element).outline := by
  induction levels generalizing element tokens with
  | zero =>
    cases h with
    | @selfClosing leading front bracket name attributes tagEnd tag _ _ htag _ =>
      have htagRun : text.IsRun tag := hrun.part ⟨front ++ [bracket], [], by simp⟩
      exact isRereadable_selfClosing hreturn 0 htag htagRun leading [bracket] hreports
    | paired _ _ _ _ hbody _ => exact absurd hbody id
  | succ levels ih =>
    cases h with
    | @selfClosing leading front bracket name attributes tagEnd tag _ _ htag _ =>
      have htagRun : text.IsRun tag := hrun.part ⟨front ++ [bracket], [], by simp⟩
      exact isRereadable_selfClosing hreturn (levels + 1) htag htagRun leading [bracket] hreports
    | @paired leading front bracket name attributes tagEnd tag children inner closing close _ _ htag _
        hbody _ =>
      obtain ⟨hduplicates, hbelow⟩ := of_reports_eq_nil hreports
      have htagRun : text.IsRun tag := hrun.part ⟨front ++ [bracket], inner ++ close, by simp⟩
      have hinner : text.IsRun inner := hrun.part ⟨front ++ bracket :: tag, close, by simp⟩
      rw [elementOf_eq, Element.outline, slotTokens_some]
      cases hbody with
      | @children elements _ helements =>
        have hcontent : contentOf text (elements.map .element) = none := by
          cases elements <;> rfl
        obtain ⟨hreadable, hwrites⟩ :=
          areRereadable_of_readsChildren (fun _ _ => ih) helements hinner hbelow
        exact ⟨isReadable_of_readsOpenTag hreturn htag htagRun hduplicates (by simp [hcontent])
          hreadable, writesElement_render _ _ (by simp [hcontent]) hwrites⟩
      | @text blanks nodes _ hcontent hbegins =>
        have hreadable := isReadableContent_of_isContent hreturn hcontent hbegins
          (hinner.part (List.suffix_append blanks _).isInfix)
        exact ⟨isReadable_of_readsOpenTag hreturn htag htagRun hduplicates
          (by simpa [contentOf] using hreadable) (by simp [childrenOf, outlines]),
          writesElement_render _ _ (fun _ => rfl) .nil⟩

end Template

end JobMarkup
