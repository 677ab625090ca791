import JobMarkup.Proofs.Layout

/-!
# Well-formed outlines

Whether an outline is well-formed is told by its characters, piece by piece: names are letters, keys
and the parts of variables begin with a letter, and texts have no mark that could end a value, begin
a tag or begin a reference. An outline that is well-formed can be read, once texts that stand side by
side are joined.
-/

namespace JobMarkup.Template

open JobMarkup.Grammar JobMarkup.Variable JobMarkup.Character

/-! ## Characters of an outline -/

/-- Letters, numeric characters, and single hyphens in front of these. -/
inductive IsPartialTail : List Char → Prop
  | nil : IsPartialTail []
  | alphanumeric {c rest} : isLetter c = true ∨ isNumeric c = true → IsPartialTail rest →
      IsPartialTail (c :: rest)
  | hyphen {c rest} : isLetter c = true ∨ isNumeric c = true → IsPartialTail rest →
      IsPartialTail ('-' :: c :: rest)

/-- A partial symbol, which begins with a letter. -/
inductive IsPartial : List Char → Prop
  | intro {c rest} : isLetter c = true → IsPartialTail rest → IsPartial (c :: rest)

/-- Parts and the separators between them. -/
inductive IsSeparated (separator : Char) (isPart : List Char → Prop) : List Char → Prop
  | one {part} : isPart part → IsSeparated separator isPart part
  | more {part rest} : isPart part → IsSeparated separator isPart rest →
      IsSeparated separator isPart (part ++ separator :: rest)

/-- Partial symbols with periods between them. -/
def IsSegment : List Char → Prop := IsSeparated '.' IsPartial

/-- A variable with segments in its namespace, and one segment as its key. -/
structure IsVariable (identifier : Identifier) : Prop where
  scope : IsSeparated '/' IsSegment identifier.scope.toList
  key : IsSegment identifier.key.toList

/-- The punctuation marks of ASCII that a text may have: all but those of tags, of quotes and of
references. -/
def literalMarks : List Char :=
  ['!', '#', '$', '%', '&', '\'', '(', ')', '*', '+', ',', '-', '.', ':', ';', '=', '?', '[', '\\',
    ']', '^', '_', '\x60', '|', '~']

/-- The characters that a text may have. -/
def isLiteralChar (c : Char) : Bool :=
  isLetter c || isNumeric c || isBlank c || c ∈ literalMarks

/-- A text that is not empty, or a variable. The given line ends do not occur in texts. -/
inductive IsLegalPiece (excluded : List Char) : Piece → Prop
  | text {literal : String} : literal.toList ≠ [] →
      (∀ c ∈ literal.toList, isLiteralChar c = true ∧ c ∉ excluded) →
      IsLegalPiece excluded (.text literal)
  | value {identifier} : IsVariable identifier → IsLegalPiece excluded (.value identifier)

/-- The key is a partial symbol, and the value has no line ends. -/
structure IsLegalAttribute (attr : String × List Piece) : Prop where
  key : IsPartial attr.1.toList
  value : ∀ piece ∈ attr.2, IsLegalPiece ['\n', '\r'] piece

/-- The content is not empty, does not begin with a blank, and has line feeds only as line ends. -/
structure IsLegalContent (pieces : List Piece) : Prop where
  ne_nil : pieces ≠ []
  legal : ∀ piece ∈ pieces, IsLegalPiece ['\r'] piece
  begins : ∀ c ∈ (renderPieces reference pieces).head?, isBlank c = false

/-- The outline is made of well-formed parts: a name, attributes with keys of their own, and either
content or children. -/
inductive IsWellFormed : Outline → Prop
  | intro {name attributes content children} : IsReadableName name →
      (∀ attr ∈ attributes, IsLegalAttribute attr) → (attributes.map Prod.fst).Nodup →
      (∀ pieces ∈ content, IsLegalContent pieces) → (content.isSome = true → children = []) →
      (∀ child ∈ children, IsWellFormed child) →
      IsWellFormed ⟨name, attributes, content, children⟩

/-! ## Symbols -/

/-- A numeric character or a letter begins a lexeme of its kind. -/
theorem isAlphanumeric_startKind {c : Char} (h : isLetter c = true ∨ isNumeric c = true) :
    (Lexeme.startKind c).isAlphanumeric = true := by
  rcases h with h | h
  · rw [Lexeme.startKind_of_isLetter h]
    rfl
  · rcases Lexeme.startKind_of_isNumeric h with hkind | hkind <;> rw [hkind] <;> rfl

/-- What has begun as letters or digits goes on as a partial symbol does. -/
theorem split_of_isPartialTail {cs : List Char} (h : IsPartialTail cs) {current : Lexeme}
    (hcurrent : current.kind.isAlphanumeric = true) :
    ∃ first rest, current.split cs = first :: rest ∧ first.kind = current.kind ∧ SpellsTail rest := by
  induction h generalizing current with
  | nil => exact ⟨current, [], rfl, rfl, trivial⟩
  | @alphanumeric c rest hc _ ih =>
    have hstart : (Lexeme.start c).kind.isAlphanumeric = true := isAlphanumeric_startKind hc
    rw [Lexeme.split]
    cases hextend : current.extend? c with
    | some longer =>
      have hkind := Lexeme.kind_of_extend? hcurrent hextend
      obtain ⟨first, others, hsplit, hfirst, hothers⟩ := ih (hkind ▸ hcurrent)
      exact ⟨first, others, hsplit, hfirst.trans hkind, hothers⟩
    | none =>
      obtain ⟨first, others, hsplit, hfirst, hothers⟩ := ih hstart
      refine ⟨current, first :: others, by simp [hsplit], rfl, ?_, hothers⟩
      rw [continues, hfirst, hstart, Bool.true_or]
  | @hyphen c rest hc _ ih =>
    have hstart : (Lexeme.start c).kind.isAlphanumeric = true := isAlphanumeric_startKind hc
    obtain ⟨first, others, hsplit, hfirst, hothers⟩ := ih hstart
    have hfirstKind : first.kind.isAlphanumeric = true := by
      rw [hfirst]
      exact hstart
    -- the hyphen is a lexeme of its own, between what has begun and what follows
    have hends : current.extend? '-' = none := Lexeme.extend?_hyphen hcurrent
    have hne : c ≠ '-' := by
      rintro rfl
      simp [class_of_mem_marks (by decide : '-' ∈ marks)] at hc
    have hhyphen : (Lexeme.start '-').extend? c = none := by
      simp [Lexeme.start, Lexeme.startKind, Lexeme.extend?, Lexeme.extendedKind?, hne]
    refine ⟨current, Lexeme.start '-' :: first :: others, ?_, rfl, ?_, ?_, hothers⟩
    · rw [Lexeme.split, hends, Lexeme.split, hhyphen]
      simp [hsplit]
    · simp [continues, Lexeme.start, Lexeme.startKind, hfirstKind]
    · simp [continues, hfirstKind]

/-- A partial symbol is cut into the lexemes of one. -/
theorem IsPartial.spells {cs : List Char} (h : IsPartial cs) : SpellsPartial (Lexeme.ofChars cs) := by
  obtain ⟨hc, htail⟩ := h
  rename_i c rest
  have hkind : (Lexeme.start c).kind = .letters := Lexeme.startKind_of_isLetter hc
  have hstart : (Lexeme.start c).kind.isAlphanumeric = true := by rw [hkind]; rfl
  obtain ⟨first, others, hsplit, hfirst, hothers⟩ := split_of_isPartialTail htail hstart
  rw [Lexeme.ofChars, hsplit]
  exact ⟨hfirst.trans hkind, hothers⟩

/-- The text begins with a letter. -/
def BeginsWithLetter (cs : List Char) : Prop := ∃ c rest, cs = c :: rest ∧ isLetter c = true

/-- A partial symbol begins with a letter. -/
theorem IsPartial.beginsWithLetter {cs : List Char} (h : IsPartial cs) : BeginsWithLetter cs := by
  obtain ⟨hc, -⟩ := h
  exact ⟨_, _, rfl, hc⟩

/-- Parts with separators begin with a letter if the parts do. -/
theorem IsSeparated.beginsWithLetter {separator : Char} {isPart : List Char → Prop}
    (hpart : ∀ part, isPart part → BeginsWithLetter part) {cs : List Char}
    (h : IsSeparated separator isPart cs) : BeginsWithLetter cs := by
  cases h with
  | one h => exact hpart cs h
  | @more part rest h _ =>
    obtain ⟨c, others, rfl, hc⟩ := hpart part h
    exact ⟨c, others ++ separator :: rest, rfl, hc⟩

/-- The characters of symbols. -/
def isSymbolChar (c : Char) : Bool := isLetter c || isNumeric c || c ∈ ['-', '.', '/']

/-- What continues a partial symbol has characters of symbols only. -/
theorem IsPartialTail.isSymbolChar {cs : List Char} (h : IsPartialTail cs) :
    ∀ c ∈ cs, isSymbolChar c = true := by
  induction h with
  | nil => simp
  | alphanumeric hc _ ih =>
    rw [List.forall_mem_cons]
    exact ⟨by simpa [Template.isSymbolChar] using Or.inl hc, ih⟩
  | hyphen hc _ ih =>
    rw [List.forall_mem_cons, List.forall_mem_cons]
    exact ⟨by simp [Template.isSymbolChar], by simpa [Template.isSymbolChar] using Or.inl hc, ih⟩

/-- A partial symbol has characters of symbols only. -/
theorem IsPartial.isSymbolChar {cs : List Char} (h : IsPartial cs) :
    ∀ c ∈ cs, isSymbolChar c = true := by
  obtain ⟨hc, htail⟩ := h
  rw [List.forall_mem_cons]
  exact ⟨by simp [Template.isSymbolChar, hc], htail.isSymbolChar⟩

/-- Parts with separators have characters of symbols only, if the parts and the separator have. -/
theorem IsSeparated.isSymbolChar {separator : Char} (hseparator : separator ∈ ['.', '/'])
    {isPart : List Char → Prop} (hpart : ∀ part, isPart part → ∀ c ∈ part, isSymbolChar c = true)
    {cs : List Char} (h : IsSeparated separator isPart cs) : ∀ c ∈ cs, isSymbolChar c = true := by
  induction h with
  | one h => exact hpart _ h
  | more h _ ih =>
    rw [List.forall_mem_append, List.forall_mem_cons]
    have hmark : Template.isSymbolChar separator = true := by
      have hmem : separator ∈ ['-', '.', '/'] := List.mem_cons_of_mem _ hseparator
      simp [Template.isSymbolChar, hmem]
    exact ⟨hpart _ h, hmark, ih⟩

/-- A symbol has no opening angle, no closing brace and no return. -/
theorem not_mem_of_isSymbolChar {cs : List Char} (h : ∀ c ∈ cs, isSymbolChar c = true) :
    '<' ∉ cs ∧ '\x7d' ∉ cs ∧ '\r' ∉ cs := by
  have hnone (c : Char) (hletter : isLetter c = false ∧ isNumeric c = false)
      (hc : c ∉ ['-', '.', '/']) : c ∉ cs := by
    intro hmem
    have hsymbolChar := h c hmem
    simp [isSymbolChar, hletter, hc] at hsymbolChar
  have hmark (c : Char) (hc : c ∈ marks) : isLetter c = false ∧ isNumeric c = false :=
    ⟨(class_of_mem_marks hc).1, (class_of_mem_marks hc).2.1⟩
  exact ⟨hnone _ (hmark _ (by decide)) (by decide), hnone _ (hmark _ (by decide)) (by decide),
    hnone _ (not_isLetter_of_isBlank (by decide)) (by decide)⟩

/-- Parts and separators are cut into the lexemes of the parts and of the separators. -/
theorem IsSeparated.spells {separator : Char} {delimiter : Lexeme}
    (hdelimiter : Lexeme.ofChars [separator] = [delimiter]) {isPart : List Char → Prop}
    {spellsPart : List Lexeme → Prop}
    (hpart : ∀ part, isPart part → spellsPart (Lexeme.ofChars part))
    (hborders : ∀ part rest, isPart part → IsSeparated separator isPart rest →
      Lexeme.Border part (separator :: rest) ∧ Lexeme.Border [separator] rest)
    {cs : List Char} (h : IsSeparated separator isPart cs) :
    SpellsJoined delimiter.kind spellsPart (Lexeme.ofChars cs) := by
  induction h with
  | one h => exact .one (hpart _ h)
  | @more part rest h hrest ih =>
    obtain ⟨hbefore, hbehind⟩ := hborders part rest h hrest
    have hmark : Lexeme.ofChars (separator :: rest) = delimiter :: Lexeme.ofChars rest := by
      rw [← List.singleton_append, Lexeme.ofChars_append hbehind, hdelimiter]
      rfl
    rw [Lexeme.ofChars_append hbefore, hmark]
    exact .more (hpart part h) rfl ih

/-- A segment is cut into the lexemes of a compound symbol. -/
theorem IsSegment.spells {cs : List Char} (h : IsSegment cs) :
    SpellsCompound (Lexeme.ofChars cs) := by
  have hmark : Lexeme.ofChars ['.'] = [⟨.period, ['.']⟩] := rfl
  refine IsSeparated.spells hmark (fun _ => IsPartial.spells) ?_ h
  intro part rest _ _
  exact ⟨.of_isFresh rfl, .of_isClosed (by simp [Lexeme.ofChars, Lexeme.split]; rfl)⟩

/-- A segment begins with the letter of its first part. -/
theorem IsSegment.beginsWithLetter {cs : List Char} (h : IsSegment cs) : BeginsWithLetter cs :=
  IsSeparated.beginsWithLetter (fun _ => IsPartial.beginsWithLetter) h

/-- A segment has characters of symbols only. -/
theorem IsSegment.isSymbolChar {cs : List Char} (h : IsSegment cs) :
    ∀ c ∈ cs, isSymbolChar c = true :=
  IsSeparated.isSymbolChar (by simp) (fun _ => IsPartial.isSymbolChar) h

/-- A slash in front of a letter is a mark of its own. -/
theorem border_slash_of_beginsWithLetter {cs : List Char} (h : BeginsWithLetter cs) :
    Lexeme.Border ['/'] cs := by
  obtain ⟨c, rest, rfl, hc⟩ := h
  intro lexeme hlexeme d hd
  obtain rfl : c = d := by simpa using hd
  obtain rfl : Lexeme.start '/' = lexeme := by simpa [Lexeme.ofChars, Lexeme.split] using hlexeme
  exact Lexeme.extend?_of_isLetter hc rfl

/-- A variable is cut into the lexemes of its symbol. -/
theorem IsVariable.spells {identifier : Identifier} (h : IsVariable identifier) :
    SpellsIdentifier (Lexeme.ofChars identifier.toText.toList) identifier := by
  obtain ⟨hscope, hkey⟩ := h
  have hsymbolChar := IsSeparated.isSymbolChar (by simp) (fun _ => IsSegment.isSymbolChar) hscope
  have hscopeSpells : SpellsJoined .slash SpellsCompound
      (Lexeme.ofChars identifier.scope.toList) := by
    have hmark : Lexeme.ofChars ['/'] = [⟨.slash, ['/']⟩] := rfl
    refine IsSeparated.spells hmark (fun _ => IsSegment.spells) ?_ hscope
    intro part rest hpart hrest
    exact ⟨.slash (not_mem_of_isSymbolChar hpart.isSymbolChar).1, border_slash_of_beginsWithLetter
      (hrest.beginsWithLetter fun _ => IsSegment.beginsWithLetter)⟩
  have hlexemes : Lexeme.ofChars identifier.toText.toList
      = Lexeme.ofChars identifier.scope.toList
        ++ ⟨.slash, ['/']⟩ :: Lexeme.ofChars identifier.key.toList := by
    have htext : identifier.toText.toList
        = identifier.scope.toList ++ '/' :: identifier.key.toList := by
      simp [Identifier.toText]
    have hmark : Lexeme.ofChars ('/' :: identifier.key.toList)
        = ⟨.slash, ['/']⟩ :: Lexeme.ofChars identifier.key.toList :=
      Lexeme.ofChars_append (border_slash_of_beginsWithLetter hkey.beginsWithLetter)
    rw [htext, Lexeme.ofChars_append (.slash (not_mem_of_isSymbolChar hsymbolChar).1), hmark]
  have hslash : (Lexeme.mk .slash ['/']).kind = .slash := rfl
  have hspells := SpellsIdentifier.intro hscopeSpells hslash hkey.spells
  rw [textOf_ofChars, textOf_ofChars, String.ofList_toList, String.ofList_toList] at hspells
  rw [hlexemes]
  exact hspells

/-- The written form of a variable has characters of symbols only. -/
theorem IsVariable.isSymbolChar {identifier : Identifier} (h : IsVariable identifier) :
    ∀ c ∈ identifier.toText.toList, isSymbolChar c = true := by
  have hscope := IsSeparated.isSymbolChar (by simp) (fun _ => IsSegment.isSymbolChar) h.scope
  have htext : identifier.toText.toList
      = identifier.scope.toList ++ '/' :: identifier.key.toList := by
    simp [Identifier.toText]
  rw [htext, List.forall_mem_append, List.forall_mem_cons]
  exact ⟨hscope, by simp [Template.isSymbolChar], h.key.isSymbolChar⟩

/-! ## Values -/

/-- The kinds of lexemes that texts are cut into. -/
def literalKinds : List TokenKind :=
  [.period, .comma, .equal, .doubleHyphen, .hyphen, .special, .newline, .letters, .digits, .blank]

/-- Of the marks, a text may have only the line feed and those of literals. -/
theorem not_isLiteralChar {c : Char} (hmark : c ∈ marks) (hnewline : c ≠ '\n')
    (hliteral : c ∉ literalMarks) : isLiteralChar c = false := by
  simp [isLiteralChar, class_of_mem_marks hmark, not_isBlank_of_mem_marks hmark hnewline, hliteral]

/-- The characters that a text may have are cut into lexemes that end no value and open no
reference. -/
theorem kind_mem_literalKinds {cs : List Char} (h : ∀ c ∈ cs, isLiteralChar c = true)
    {lexeme : Lexeme} (hmem : lexeme ∈ Lexeme.ofChars cs) : lexeme.kind ∈ literalKinds := by
  have hchars (c : Char) (hc : c ∈ lexeme.chars) : isLiteralChar c = true :=
    h c (Lexeme.mem_of_mem_chars hmem hc)
  have hfits := Lexeme.fits_of_mem_ofChars lexeme hmem
  have hmark (c : Char) (hc : c ∈ ['<', '/', '>', '"', '@']) : isLiteralChar c = false := by
    obtain ⟨hmem, hnewline, hliteral⟩ : c ∈ marks ∧ c ≠ '\n' ∧ c ∉ literalMarks := by
      simp only [List.mem_cons, List.not_mem_nil, or_false] at hc
      rcases hc with rfl | rfl | rfl | rfl | rfl <;> decide
    exact not_isLiteralChar hmem hnewline hliteral
  have hmarks : literalMarks ⊆ marks := by decide
  obtain ⟨kind, chars⟩ := lexeme
  cases kind with
  | endOfText => exact absurd hfits id
  | openSlash | openBang | openAngle | slashClose | slash | closeAngle | quote | openReference
  | closeReference | atSign =>
    simp only [Lexeme.Fits] at hfits
    subst hfits
    simp [hmark] at hchars
  | unknown =>
    obtain ⟨c, hunknown, hchar⟩ := hfits
    have hliteral := hchars c (by rw [hchar]; exact List.mem_singleton_self c)
    simp only [Lexeme.isUnknown, Bool.and_eq_true, Bool.not_eq_true', decide_eq_true_eq] at hunknown
    obtain ⟨⟨⟨hmark, hletter⟩, hnumeric⟩, hblank⟩ := hunknown
    simp only [isLiteralChar, hletter, hnumeric, hblank, Bool.false_or, decide_eq_true_eq] at hliteral
    exact absurd (hmarks hliteral) hmark
  | _ => simp [literalKinds]

/-- Pieces in which no two texts stand side by side. -/
def AreJoined : List Piece → Prop
  | [] => True
  | .text _ :: rest => beginsWithText rest = false ∧ AreJoined rest
  | .value _ :: rest => AreJoined rest

/-- Joining texts leaves no two of them side by side. -/
theorem areJoined_joinTexts (pieces : List Piece) : AreJoined (joinTexts pieces) := by
  fun_induction joinTexts pieces with
  | case1 => trivial
  | case2 literal rest next others hjoined ih =>
    rw [hjoined] at ih
    exact ih
  | case3 literal rest halone ih =>
    refine ⟨?_, ih⟩
    cases hrest : joinTexts rest with
    | nil => rfl
    | cons piece others =>
      cases piece with
      | text next => exact absurd hrest (halone next others)
      | value identifier => rfl
  | case4 identifier rest ih => exact ih

/-- Joining legal texts gives legal texts. -/
theorem isLegalPiece_of_mem_joinTexts {excluded : List Char} {pieces : List Piece}
    (h : ∀ piece ∈ pieces, IsLegalPiece excluded piece) :
    ∀ piece ∈ joinTexts pieces, IsLegalPiece excluded piece := by
  fun_induction joinTexts pieces with
  | case1 => simp
  | case2 literal rest next others hjoined ih =>
    rw [List.forall_mem_cons] at h
    have hrest := ih h.2
    rw [hjoined, List.forall_mem_cons] at hrest
    obtain ⟨⟨hne, hliteral⟩, -⟩ := h
    obtain ⟨⟨-, hnext⟩, hothers⟩ := hrest
    rw [List.forall_mem_cons]
    refine ⟨.text ?_ ?_, hothers⟩
    · rw [String.toList_append]
      exact List.append_ne_nil_of_left_ne_nil hne _
    · rw [String.toList_append, List.forall_mem_append]
      exact ⟨hliteral, hnext⟩
  | case3 literal rest _ ih =>
    rw [List.forall_mem_cons] at h ⊢
    exact ⟨h.1, ih h.2⟩
  | case4 identifier rest ih =>
    rw [List.forall_mem_cons] at h ⊢
    exact ⟨h.1, ih h.2⟩

/-- Pieces that begin with no text begin with the mark of a reference, if there are any. -/
theorem border_renderPieces {cs : List Char} (h : '\x7d' ∉ cs) {pieces : List Piece}
    (hpieces : beginsWithText pieces = false) :
    Lexeme.Border cs (renderPieces reference pieces) := by
  cases pieces with
  | nil => simp [Lexeme.Border]
  | cons piece rest =>
    cases piece with
    | text literal => simp [beginsWithText] at hpieces
    | value identifier =>
      have hhead : ∃ behind, renderPieces reference (.value identifier :: rest) = '@' :: behind := by
        refine ⟨'\x7b' :: (identifier.toText.toList ++ '\x7d' :: '@' :: renderPieces reference rest), ?_⟩
        simp [renderPieces_cons, Piece.render, reference]
      obtain ⟨behind, hbehind⟩ := hhead
      rw [hbehind]
      exact .atSign h

/-- The lexemes of a legal text belong to a literal, if no mark of such a text ends the value. -/
theorem spellsLiteral_ofChars {terminators : List TokenKind} {excluded : List Char}
    (hterminators : ∀ kind ∈ literalKinds, kind ∈ terminators → kind = .newline ∧ '\n' ∈ excluded)
    {cs : List Char} (h : ∀ c ∈ cs, isLiteralChar c = true ∧ c ∉ excluded) :
    SpellsLiteral terminators (Lexeme.ofChars cs) := by
  intro lexeme hmem
  have hkind := kind_mem_literalKinds (fun c hc => (h c hc).1) hmem
  refine ⟨fun hends => ?_, fun hopening => by simp [hopening, literalKinds] at hkind⟩
  obtain ⟨hnewline, hexcluded⟩ := hterminators _ hkind hends
  have hfits := Lexeme.fits_of_mem_ofChars lexeme hmem
  rw [hnewline, Lexeme.Fits] at hfits
  exact (h '\n' (Lexeme.mem_of_mem_chars hmem (by simp [hfits]))).2 hexcluded

/-- A reference is cut into its marks and the lexemes of its symbol. -/
theorem ofChars_renderPieces_value {identifier : Identifier} {rest : List Piece} :
    Lexeme.ofChars (renderPieces reference (.value identifier :: rest))
      = ⟨.openReference, ['@', '\x7b']⟩ :: (Lexeme.ofChars identifier.toText.toList
        ++ ⟨.closeReference, ['\x7d', '@']⟩ :: Lexeme.ofChars (renderPieces reference rest)) := by
  have hchars : renderPieces reference (.value identifier :: rest)
      = '@' :: '\x7b' :: (identifier.toText.toList
        ++ '\x7d' :: '@' :: renderPieces reference rest) := by
    simp [renderPieces_cons, Piece.render, reference]
  have hopening (cs : List Char) : Lexeme.ofChars ('@' :: '\x7b' :: cs)
      = ⟨.openReference, ['@', '\x7b']⟩ :: Lexeme.ofChars cs :=
    Lexeme.ofChars_append (a := ['@', '\x7b']) (.of_isClosed (by decide))
  have hclosing (cs : List Char) : Lexeme.ofChars ('\x7d' :: '@' :: cs)
      = ⟨.closeReference, ['\x7d', '@']⟩ :: Lexeme.ofChars cs :=
    Lexeme.ofChars_append (a := ['\x7d', '@']) (.of_isClosed (by decide))
  rw [hchars, hopening, Lexeme.ofChars_append (.of_isFresh rfl), hclosing]

/-- Legal pieces are read again from their characters. -/
theorem spells_of_isLegalPiece {terminators : List TokenKind} {excluded : List Char}
    (hterminators : ∀ kind ∈ literalKinds, kind ∈ terminators → kind = .newline ∧ '\n' ∈ excluded)
    {pieces : List Piece} (h : ∀ piece ∈ pieces, IsLegalPiece excluded piece)
    (hjoined : AreJoined pieces) :
    Spells terminators (Lexeme.ofChars (renderPieces reference pieces)) pieces := by
  induction pieces with
  | nil => exact .nil
  | cons piece rest ih =>
    rw [List.forall_mem_cons] at h
    obtain ⟨hpiece, hrest⟩ := h
    cases hpiece with
    | @text literal hne hliteral =>
      obtain ⟨hapart, hothers⟩ := hjoined
      have hbrace : '\x7d' ∉ literal.toList := fun hmem => by
        have hchar := (hliteral _ hmem).1
        simp [not_isLiteralChar (by decide : '\x7d' ∈ marks) (by decide) (by decide)] at hchar
      have hall := Spells.text (Lexeme.ofChars_ne_nil hne) (spellsLiteral_ofChars hterminators hliteral)
        hapart (ih hrest hothers)
      rw [textOf_ofChars, String.ofList_toList] at hall
      rwa [renderPieces_text, Lexeme.ofChars_append (border_renderPieces hbrace hapart)]
    | @value identifier hidentifier =>
      rw [ofChars_renderPieces_value]
      exact .value rfl hidentifier.spells rfl (ih hrest hjoined)

/-! ## Outlines -/

/-- Legal pieces are written down without a mark that begins a tag and without carriage returns. -/
theorem not_mem_renderPieces {excluded : List Char} (hreturn : '\r' ∈ excluded) {pieces : List Piece}
    (h : ∀ piece ∈ pieces, IsLegalPiece excluded piece) :
    '<' ∉ renderPieces reference pieces ∧ '\r' ∉ renderPieces reference pieces := by
  induction pieces with
  | nil => simp
  | cons piece rest ih =>
    rw [List.forall_mem_cons] at h
    obtain ⟨hpiece, hrest⟩ := h
    obtain ⟨hangle, hcarriage⟩ := ih hrest
    rw [renderPieces_cons, List.mem_append, List.mem_append, not_or, not_or]
    refine ⟨⟨?_, hangle⟩, ⟨?_, hcarriage⟩⟩
    · cases hpiece with
      | text _ hliteral =>
        intro hmem
        have hchar := (hliteral _ hmem).1
        simp [not_isLiteralChar (by decide : '<' ∈ marks) (by decide) (by decide)] at hchar
      | value hidentifier =>
        simp [Piece.render, reference, (not_mem_of_isSymbolChar hidentifier.isSymbolChar).1]
    · cases hpiece with
      | text _ hliteral => exact fun hmem => (hliteral _ hmem).2 hreturn
      | value hidentifier =>
        simp [Piece.render, reference, (not_mem_of_isSymbolChar hidentifier.isSymbolChar).2.2]

/-- No element begins with a text without angle brackets that does not begin with a blank. -/
theorem beginsText_ofChars {cs : List Char} (hblank : ∀ c ∈ cs.head?, isBlank c = false)
    (hangle : '<' ∉ cs) : BeginsText (Lexeme.ofChars cs) := by
  cases hlexemes : Lexeme.ofChars cs with
  | nil => trivial
  | cons lexeme rest =>
    have hmem : lexeme ∈ Lexeme.ofChars cs := by rw [hlexemes]; exact List.mem_cons_self
    have hfits := Lexeme.fits_of_mem_ofChars lexeme hmem
    have hhead := Lexeme.head?_chars_of_mem_head?_ofChars
      (by rw [hlexemes]; rfl : lexeme ∈ (Lexeme.ofChars cs).head?)
    have hnone : '<' ∉ lexeme.chars := fun hchar => hangle (Lexeme.mem_of_mem_chars hmem hchar)
    have hne := ((Lexeme.isCut_ofChars cs).solid lexeme hmem).chars_ne_nil
    obtain ⟨c, others, hchars⟩ := List.exists_cons_of_ne_nil hne
    have hc : isBlank c = false := by
      refine hblank c ?_
      rw [← hhead, hchars]
      rfl
    refine ⟨?_, ?_, ?_⟩
    · by_contra hkind
      have hcBlank := hfits.allBlank (by simpa using hkind) c (by simp [hchars])
      simp [hc] at hcBlank
    · intro hkind
      rw [hkind, Lexeme.Fits] at hfits
      simp [hfits] at hnone
    · rintro ⟨hkind, -⟩
      rw [hkind, Lexeme.Fits] at hfits
      simp [hfits] at hnone

/-- A legal attribute can be read, once its texts are joined. -/
theorem IsLegalAttribute.isReadable {attr : String × List Piece} (h : IsLegalAttribute attr) :
    IsReadableAttribute (joinedAttribute attr) := by
  have hlegal := isLegalPiece_of_mem_joinTexts h.value
  refine ⟨h.key.spells, spells_of_isLegalPiece (by decide) hlegal (areJoined_joinTexts attr.2), ?_⟩
  have hkey := (not_mem_of_isSymbolChar h.key.isSymbolChar).2.2
  have hvalue := (not_mem_renderPieces (by simp) h.value).2
  rw [renderAttribute_joinedAttribute, renderAttribute]
  simp [hkey, hvalue]

/-- Joining texts does not make pieces vanish. -/
theorem joinTexts_ne_nil {pieces : List Piece} (h : pieces ≠ []) : joinTexts pieces ≠ [] := by
  fun_cases joinTexts pieces <;> simp_all

/-- Legal content can be read, once its texts are joined. -/
theorem IsLegalContent.isReadable {pieces : List Piece} (h : IsLegalContent pieces) :
    IsReadableContent (joinTexts pieces) := by
  have hlegal := isLegalPiece_of_mem_joinTexts h.legal
  obtain ⟨hangle, hcarriage⟩ := not_mem_renderPieces (by simp) h.legal
  refine ⟨joinTexts_ne_nil h.ne_nil,
    spells_of_isLegalPiece (by decide) hlegal (areJoined_joinTexts pieces), ?_, ?_⟩
  · rw [renderPieces_joinTexts]
    exact beginsText_ofChars h.begins hangle
  · rwa [renderPieces_joinTexts]

/-- What is true of each outline with its texts joined is true of all of them in a row. -/
theorem forall_mem_joinedAll {p : Outline → Prop} {children : List Outline}
    (h : ∀ child ∈ children, p child.joined) : ∀ child ∈ joinedAll children, p child := by
  induction children with
  | nil => simp [joinedAll]
  | cons child rest ih =>
    rw [List.forall_mem_cons] at h
    rw [joinedAll, List.forall_mem_cons]
    exact ⟨h.1, ih h.2⟩

/-- A well-formed outline can be read once its texts are joined. -/
theorem IsWellFormed.isReadable {outline : Outline} (h : IsWellFormed outline) :
    IsReadable outline.joined := by
  induction h with
  | @intro name attributes content children hname hattributes hnodup hcontent _ _ ih =>
    rw [Outline.joined]
    refine .intro hname ?_ ?_ ?_ (forall_mem_joinedAll ih)
    · intro attr hmem
      obtain ⟨other, hother, rfl⟩ := List.mem_map.mp hmem
      exact (hattributes other hother).isReadable
    · rw [List.map_map]
      exact hnodup
    · intro pieces hmem
      obtain ⟨others, hothers, rfl⟩ := Option.map_eq_some_iff.mp hmem
      exact (hcontent others hothers).isReadable

end JobMarkup.Template
