import JobMarkup.Proofs.Layout

/-!
# Reading a layout

In every layout of an outline that can be read, tokens of an element are found that has this
outline. Each part of a layout is read in front of what follows it: the tokens of a text are cut
where the part ends, because no lexeme goes on behind it.
-/

namespace JobMarkup.Template

open JobMarkup.Tree JobMarkup.Grammar JobMarkup.Variable JobMarkup.Character

variable {text : SourceText}

/-! ## Cutting tokens -/

/-- The tokens of a text are those of its parts if there is a border between them. -/
theorem exists_split {a b : List Char} (h : Lexeme.Border a b) {tokens : List Token}
    (htokens : tokens.map (Token.lexeme text) = Lexeme.ofChars (a ++ b)) :
    ∃ first rest, tokens = first ++ rest ∧ first.map (Token.lexeme text) = Lexeme.ofChars a
      ∧ rest.map (Token.lexeme text) = Lexeme.ofChars b := by
  rw [Lexeme.ofChars_append h] at htokens
  exact List.map_eq_append_iff.mp htokens

/-- A mark with a border behind it is the first token. -/
theorem exists_mark {a b : List Char} {lexeme : Lexeme} (hmark : Lexeme.ofChars a = [lexeme])
    (h : Lexeme.Border a b) {tokens : List Token}
    (htokens : tokens.map (Token.lexeme text) = Lexeme.ofChars (a ++ b)) :
    ∃ token rest, tokens = token :: rest ∧ token.kind = lexeme.kind
      ∧ rest.map (Token.lexeme text) = Lexeme.ofChars b := by
  obtain ⟨first, rest, rfl, hfirst, hrest⟩ := exists_split h htokens
  rw [hmark] at hfirst
  obtain ⟨token, others, rfl, rfl, hothers⟩ := List.map_eq_cons_iff.mp hfirst
  obtain rfl := List.map_eq_nil_iff.mp hothers
  exact ⟨token, rest, rfl, rfl, hrest⟩

/-- A mark that no character extends is the first token. -/
theorem exists_closedMark {a b : List Char} {lexeme : Lexeme} (hmark : Lexeme.ofChars a = [lexeme])
    (hclosed : Lexeme.isClosed lexeme.kind = true) {tokens : List Token}
    (htokens : tokens.map (Token.lexeme text) = Lexeme.ofChars (a ++ b)) :
    ∃ token rest, tokens = token :: rest ∧ token.kind = lexeme.kind
      ∧ rest.map (Token.lexeme text) = Lexeme.ofChars b := by
  refine exists_mark hmark (.of_isClosed fun last hlast => ?_) htokens
  rw [hmark] at hlast
  obtain rfl : lexeme = last := by simpa using hlast
  exact hclosed

/-- An opening bracket is no blank, so a gap in front of it ends there. -/
theorem head?_openAngle_not_isBlank (rest : List Char) :
    ∀ c ∈ ('<' :: rest).head?, isBlank c = false := by
  intro c hc
  obtain rfl : '<' = c := by simpa using hc
  decide

/-- What holds of the first character of each of two texts holds of that of both together. -/
theorem forall_mem_head?_append {p : Char → Prop} {a b : List Char} (ha : ∀ c ∈ a.head?, p c)
    (hb : ∀ c ∈ b.head?, p c) : ∀ c ∈ (a ++ b).head?, p c := by
  cases a with
  | nil => exact hb
  | cons d rest => exact ha

/-- A gap begins with a blank, if it is not empty. -/
theorem IsGap.head? {gap : List Char} (h : IsGap gap) : ∀ c ∈ gap.head?, isBlank c = true :=
  fun c hc => h c (List.mem_of_mem_head? hc)

/-- Blanks are read in front of what is none. -/
theorem IsGap.reads {gap rest : List Char} (h : IsGap gap)
    (hrest : ∀ c ∈ rest.head?, isBlank c = false) {tokens : List Token}
    (htokens : tokens.map (Token.lexeme text) = Lexeme.ofChars (gap ++ rest)) :
    ∃ blanks others, tokens = blanks ++ others ∧ AllBlank blanks ∧ (gap ≠ [] → blanks ≠ [])
      ∧ others.map (Token.lexeme text) = Lexeme.ofChars rest := by
  obtain ⟨blanks, others, rfl, hblanks, hothers⟩ := exists_split (.of_blanks h hrest) htokens
  refine ⟨blanks, others, rfl, ?_, ?_, hothers⟩
  · intro token hmem
    have hlexeme : token.lexeme text ∈ Lexeme.ofChars gap := hblanks ▸ List.mem_map_of_mem hmem
    exact Lexeme.isBlank_of_mem_ofChars h _ hlexeme
  · rintro hne rfl
    have hchars := Lexeme.flatMap_chars_ofChars gap
    rw [← hblanks] at hchars
    exact hne hchars.symm

/-! ## Names and attributes -/

/-- A name is read in front of what is no letter. -/
theorem IsReadableName.reads {name : String} (h : IsReadableName name) {rest : List Char}
    (hrest : ∀ c ∈ rest.head?, isLetter c = false) {tokens : List Token}
    (htokens : tokens.map (Token.lexeme text) = Lexeme.ofChars (name.toList ++ rest)) :
    ∃ token others, tokens = token :: others ∧ token.kind = .letters
      ∧ text.wording [token] = name ∧ others.map (Token.lexeme text) = Lexeme.ofChars rest := by
  obtain ⟨first, others, rfl, hfirst, hothers⟩ :=
    exists_split (.of_letters h.ne_nil h.letters hrest) htokens
  rw [Lexeme.ofChars_letters h.ne_nil h.letters] at hfirst
  obtain ⟨token, none, rfl, hlexeme, hnone⟩ := List.map_eq_cons_iff.mp hfirst
  obtain rfl := List.map_eq_nil_iff.mp hnone
  refine ⟨token, others, rfl, congrArg Lexeme.kind hlexeme, ?_, hothers⟩
  rw [wording_eq_textOf, List.map_singleton, hlexeme]
  simp [textOf]

/-- A name that can be read begins with a letter. -/
theorem IsReadableName.head? {name : String} (h : IsReadableName name) (rest : List Char) :
    ∀ c ∈ (name.toList ++ rest).head?, isLetter c = true := by
  intro c hc
  rw [List.head?_append_of_ne_nil _ h.ne_nil] at hc
  exact h.letters c (List.mem_of_mem_head? hc)

/-- A letter is not blank. -/
theorem not_isBlank_of_isLetter {c : Char} (h : isLetter c = true) : isBlank c = false := by
  by_contra hblank
  simp [not_isLetter_of_isBlank (by simpa using hblank : isBlank c = true)] at h

/-- A blank is no letter. -/
theorem IsGap.head?_not_isLetter {gap : List Char} (h : IsGap gap) :
    ∀ c ∈ gap.head?, isLetter c = false :=
  fun c hc => (not_isLetter_of_isBlank (h.head? c hc)).1

/-- A partial symbol begins with a letter. -/
theorem head?_of_spellsPartial {cs : List Char} (h : SpellsPartial (Lexeme.ofChars cs)) :
    ∃ c rest, cs = c :: rest ∧ isLetter c = true := by
  cases cs with
  | nil => exact absurd h id
  | cons c rest =>
    refine ⟨c, rest, rfl, ?_⟩
    cases hlexemes : Lexeme.ofChars (c :: rest) with
    | nil => rw [hlexemes] at h; exact absurd h id
    | cons lexeme others =>
      rw [hlexemes] at h
      have hhead := Lexeme.head?_chars_of_mem_head?_ofChars
        (by rw [hlexemes]; rfl : lexeme ∈ (Lexeme.ofChars (c :: rest)).head?)
      have hfits := Lexeme.fits_of_mem_ofChars lexeme
        (by rw [hlexemes]; exact List.mem_cons_self : lexeme ∈ Lexeme.ofChars (c :: rest))
      rw [h.1, Lexeme.Fits] at hfits
      exact hfits c (List.mem_of_mem_head? (by rw [hhead]; rfl))

/-- The slot of a value: empty if there is nothing in it. -/
def contentSlot (nodes : List Tree.Node) : Option (List Tree.Node) :=
  if nodes = [] then none else some nodes

/-- The slot of a value holds its nodes, also if there are none. -/
theorem getD_contentSlot (nodes : List Tree.Node) : (contentSlot nodes).getD [] = nodes := by
  rw [contentSlot]
  split
  · next h => exact h.symm
  · rfl

/-- Nodes that are there in the slot of a value are content. -/
theorem isContent_of_mem_contentSlot {terminators : List TokenKind} {nodes : List Tree.Node}
    (h : ∀ node ∈ nodes, IsContentPiece terminators node) {value : List Tree.Node}
    (hmem : value ∈ contentSlot nodes) : IsContent terminators value := by
  rw [contentSlot] at hmem
  split at hmem
  · simp at hmem
  · next hne =>
    obtain rfl : nodes = value := by simpa using hmem
    exact ⟨hne, h⟩

/-- The value of an attribute is read up to its closing quote. -/
theorem IsReadableAttribute.reads {attr : String × List Piece} (h : IsReadableAttribute attr)
    {rest : List Char} {tokens : List Token} (hrun : text.IsRun tokens)
    (htokens : tokens.map (Token.lexeme text)
      = Lexeme.ofChars (renderAttribute reference attr ++ rest)) :
    ∃ read others, tokens = read.tokens ++ others ∧ IsAttribute read
      ∧ (attributeOf text read).outline = attr
      ∧ others.map (Token.lexeme text) = Lexeme.ofChars rest := by
  obtain ⟨key, pieces⟩ := attr
  obtain ⟨hkey, hvalue, -⟩ := h
  simp only [renderAttribute, List.append_assoc, List.cons_append, List.nil_append] at htokens
  obtain ⟨name, others, rfl, hname, hothers⟩ := exists_split (.of_isFresh rfl) htokens
  obtain ⟨equal, others, rfl, hequal, hothers⟩ := exists_closedMark (a := ['=']) rfl rfl hothers
  obtain ⟨openQuote, others, rfl, hopenQuote, hothers⟩ :=
    exists_closedMark (a := ['"']) rfl rfl hothers
  obtain ⟨value, others, rfl, hvalueTokens, hothers⟩ := exists_split (.of_isFresh rfl) hothers
  obtain ⟨closeQuote, others, rfl, hcloseQuote, hbehind⟩ :=
    exists_closedMark (a := ['"']) rfl rfl hothers
  obtain ⟨nodes, hnodes, rfl, hpieces, -⟩ := hvalue.exists_nodes hvalueTokens
    (hrun.part ⟨name ++ [equal, openQuote], closeQuote :: others, by simp⟩)
  have hread : IsAttribute
      ⟨name, some [equal], some [openQuote], contentSlot nodes, some [closeQuote]⟩ := by
    refine ⟨name, equal, openQuote, contentSlot nodes, closeQuote, rfl, ?_, hequal, hopenQuote,
      hcloseQuote, fun _ => isContent_of_mem_contentSlot hnodes⟩
    rw [@isPartialSymbol_iff text, hname]
    exact hkey
  have hkeyText := text_excerptOf (hrun.part (List.prefix_append name _).isInfix) hread.name_ne_nil
  rw [wording_eq_textOf, hname, textOf_ofChars, String.ofList_toList] at hkeyText
  refine ⟨_, others, ?_, hread, ?_, hbehind⟩
  · simp [Attribute.tokens_eq, getD_contentSlot]
  · simp [attributeOf, Attribute.outline, hkeyText, getD_contentSlot, hpieces]

/-- Attributes are read with the blanks in front of them. -/
theorem WritesAttributes.reads {attributes : List (String × List Piece)} {cs : List Char}
    (h : WritesAttributes attributes cs) (hreadable : ∀ attr ∈ attributes, IsReadableAttribute attr)
    {rest : List Char} {tokens : List Token} (hrun : text.IsRun tokens)
    (htokens : tokens.map (Token.lexeme text) = Lexeme.ofChars (cs ++ rest)) :
    ∃ read front others, tokens = front ++ others ∧ ReadsAttributes read front
      ∧ read.map (fun attr => (attributeOf text attr).outline) = attributes
      ∧ others.map (Token.lexeme text) = Lexeme.ofChars rest := by
  induction h generalizing tokens with
  | nil => exact ⟨[], [], tokens, rfl, .nil, rfl, htokens⟩
  | @cons gap attr attributes cs hne hgap _ ih =>
    have hattr := hreadable attr List.mem_cons_self
    obtain ⟨c, key, hkey, hc⟩ := head?_of_spellsPartial hattr.key
    rw [List.append_assoc, List.append_assoc] at htokens
    obtain ⟨blanks, behind, rfl, hblanks, hblanksNe, hbehind⟩ := hgap.reads (by
      simpa [renderAttribute, hkey] using not_isBlank_of_isLetter hc) htokens
    obtain ⟨first, behind, rfl, hfirst, houtline, hbehind⟩ :=
      hattr.reads (hrun.part (List.suffix_append _ _).isInfix) hbehind
    obtain ⟨read, front, others, rfl, hread, houtlines, hothers⟩ :=
      ih (fun other hmem => hreadable other (List.mem_cons_of_mem _ hmem))
        (hrun.part (List.IsSuffix.isInfix ⟨blanks ++ first.tokens, by simp⟩)) hbehind
    refine ⟨first :: read, blanks ++ (first.tokens ++ front), others, by simp,
      .cons (hblanksNe hne) hblanks hfirst hread, ?_, hothers⟩
    rw [List.map_cons, houtline, houtlines]

/-- Attributes begin with a blank, so the name of the tag ends in front of them. -/
theorem WritesAttributes.head? {attributes : List (String × List Piece)} {cs : List Char}
    (h : WritesAttributes attributes cs) : ∀ c ∈ cs.head?, isLetter c = false := by
  cases h with
  | nil => simp
  | cons hne hgap _ =>
    intro c hc
    rw [List.head?_append_of_ne_nil _ hne] at hc
    exact hgap.head?_not_isLetter c hc

/-! ## Tags -/

/-- A mark that ends a tag begins neither a name nor a gap. -/
def EndsTag (cs : List Char) : Prop := ∀ c ∈ cs.head?, c = '>' ∨ c = '/'

/-- Where a tag ends, no gap and no name go on. -/
theorem EndsTag.not_isBlank {cs : List Char} (h : EndsTag cs) :
    ∀ c ∈ cs.head?, isBlank c = false ∧ isLetter c = false := by
  intro c hc
  have hmark : c ∈ marks ∧ c ≠ '\n' := by
    rcases h c hc with rfl | rfl <;> decide
  exact ⟨not_isBlank_of_mem_marks hmark.1 hmark.2, (class_of_mem_marks hmark.1).1⟩

/-- The name and the attributes of a tag are read up to the mark that ends the tag. -/
theorem WritesTag.reads {name : String} {attributes : List (String × List Piece)} {tag : List Char}
    (h : WritesTag name attributes tag) (hname : IsReadableName name)
    (hreadable : ∀ attr ∈ attributes, IsReadableAttribute attr) {rest : List Char}
    (hrest : EndsTag rest) {tokens : List Token} (hrun : text.IsRun tokens)
    (htokens : tokens.map (Token.lexeme text) = Lexeme.ofChars (tag ++ rest)) :
    ∃ token read front others, tokens = front ++ others ∧ text.IsRun [token]
      ∧ text.wording [token] = name
      ∧ read.map (fun attr => (attributeOf text attr).outline) = attributes
      ∧ (∀ tagEnd : Token, tagEnd.isTagEnd = true →
        ReadsOpenTag token read tagEnd (front ++ [tagEnd]))
      ∧ others.map (Token.lexeme text) = Lexeme.ofChars rest := by
  obtain ⟨hbefore, hattributes, hbehind⟩ := h
  rename_i before cs behind
  simp only [List.append_assoc] at htokens
  obtain ⟨blanks, others, rfl, hblanks, -, hothers⟩ := hbefore.reads
    (fun c hc => not_isBlank_of_isLetter (hname.head? _ c hc)) htokens
  obtain ⟨token, others, rfl, hkind, hwording, hothers⟩ := hname.reads
    (forall_mem_head?_append hattributes.head? (forall_mem_head?_append hbehind.head?_not_isLetter
      fun c hc => (hrest.not_isBlank c hc).2)) hothers
  obtain ⟨read, middle, others, rfl, hread, houtlines, hothers⟩ := hattributes.reads hreadable
    (hrun.part (List.IsSuffix.isInfix ⟨blanks ++ [token], by simp⟩)) hothers
  obtain ⟨blanks', others, rfl, hblanks', -, hothers⟩ := hbehind.reads
    (fun c hc => (hrest.not_isBlank c hc).1) hothers
  refine ⟨token, read, blanks ++ token :: (middle ++ blanks'), others, by simp,
    hrun.part ⟨blanks, middle ++ (blanks' ++ others), by simp⟩, hwording, houtlines, ?_, hothers⟩
  intro tagEnd hend
  simpa using ReadsOpenTag.intro hblanks hkind hread hblanks' hend

/-- A closing tag is read up to its end. -/
theorem WritesClosingTag.reads {name : String} {cs : List Char} (h : WritesClosingTag name cs)
    (hname : IsReadableName name) {rest : List Char} {tokens : List Token}
    (htokens : tokens.map (Token.lexeme text) = Lexeme.ofChars (cs ++ rest)) :
    ∃ tag token close others, tokens = close ++ others ∧ ReadsClosingTag tag close
      ∧ tag.name = some [token] ∧ text.wording [token] = name
      ∧ others.map (Token.lexeme text) = Lexeme.ofChars rest := by
  obtain ⟨hbefore, hbehind⟩ := h
  rename_i before behind
  simp only [List.append_assoc, List.cons_append, List.nil_append] at htokens
  obtain ⟨opening, others, rfl, hopening, hothers⟩ :=
    exists_closedMark (a := ['<', '/']) rfl rfl htokens
  obtain ⟨blanks, others, rfl, hblanks, -, hothers⟩ := hbefore.reads
    (fun c hc => not_isBlank_of_isLetter (hname.head? _ c hc)) hothers
  have hend : EndsTag ('>' :: rest) := by simp [EndsTag]
  obtain ⟨token, others, rfl, hkind, hwording, hothers⟩ := hname.reads
    (forall_mem_head?_append hbehind.head?_not_isLetter fun c hc => (hend.not_isBlank c hc).2)
    hothers
  obtain ⟨blanks', others, rfl, hblanks', -, hothers⟩ := hbehind.reads
    (fun c hc => (hend.not_isBlank c hc).1) hothers
  obtain ⟨closing, others, rfl, hclosing, hothers⟩ := exists_closedMark (a := ['>']) rfl rfl hothers
  exact ⟨_, token, opening :: (blanks ++ token :: (blanks' ++ [closing])), others, by simp,
    .intro hopening hblanks hkind hblanks' hclosing, rfl, hwording, hothers⟩

/-! ## Trivia -/

/-- The marks that end a comment are not found in its text. -/
theorem IsCommentText.commentContents {inner : List Char} (h : IsCommentText inner)
    {contents : List Token} (hcontents : contents.map (Token.lexeme text) = Lexeme.ofChars inner) :
    (Grammar.commentContents contents).2 = [] := by
  have hall := commentContents_append contents
  refine (commentContents_spec contents).2.resolve_right ?_
  rintro ⟨closing, angle, rest, hcut, hclosing, hangle⟩
  rw [hcut] at hall
  have hfits (token : Token) (hmem : token ∈ contents) :
      Lexeme.Fits token.kind (token.chars text) :=
    Lexeme.fits_of_mem_ofChars (token.lexeme text) (hcontents ▸ List.mem_map_of_mem hmem)
  have hclosingChars := hfits closing (by rw [← hall]; simp)
  have hangleChars := hfits angle (by rw [← hall]; simp)
  rw [hclosing, Lexeme.Fits] at hclosingChars
  rw [hangle, Lexeme.Fits] at hangleChars
  have hchars := Lexeme.flatMap_chars_ofChars inner
  rw [← hcontents, ← hall] at hchars
  refine h.not_infix ⟨((Grammar.commentContents contents).1.map (Token.lexeme text)).flatMap
    Lexeme.chars, (rest.map (Token.lexeme text)).flatMap Lexeme.chars, ?_⟩
  rw [← hchars]
  simp [hclosingChars, hangleChars]

/-- Blanks and comments are read as trivia, in front of what is not blank. -/
theorem WritesTrivia.reads {cs : List Char} (h : WritesTrivia cs) {rest : List Char}
    (hrest : ∀ c ∈ rest.head?, isBlank c = false) {tokens : List Token}
    (htokens : tokens.map (Token.lexeme text) = Lexeme.ofChars (cs ++ rest)) :
    ∃ nodes others, tokens = nodeTokens nodes ++ others ∧ IsTrivia nodes
      ∧ others.map (Token.lexeme text) = Lexeme.ofChars rest := by
  -- blanks make a node only if there are any
  have hgapNode {blanks : List Token} (hblanks : AllBlank blanks) {nodes : List Tree.Node}
      (hnodes : IsTrivia nodes) (hfollows : Follows NotBlank (nodeTokens nodes)) :
      ∃ more, nodeTokens more = blanks ++ nodeTokens nodes ∧ IsTrivia more := by
    by_cases hne : blanks = []
    · exact ⟨nodes, by simp [hne], hnodes⟩
    · exact ⟨.single blanks :: nodes, by simp, .blanks hne hblanks hfollows hnodes⟩
  induction h generalizing tokens with
  | gap hgap =>
    obtain ⟨blanks, others, rfl, hblanks, -, hothers⟩ := hgap.reads hrest htokens
    obtain ⟨nodes, hnodes, htrivia⟩ := hgapNode hblanks .nil (by simpa using follows_nil)
    exact ⟨nodes, others, by simp [hnodes], htrivia, hothers⟩
  | @comment gap inner behind hgap hinner _ ih =>
    simp only [List.append_assoc, List.cons_append] at htokens
    obtain ⟨blanks, others, rfl, hblanks, -, hothers⟩ :=
      hgap.reads (head?_openAngle_not_isBlank _) htokens
    obtain ⟨bang, others, rfl, hbang, hothers⟩ := exists_closedMark (a := ['<', '!']) rfl rfl hothers
    obtain ⟨hyphens, others, rfl, hhyphens, hothers⟩ :=
      exists_closedMark (a := ['-', '-']) rfl rfl hothers
    obtain ⟨contents, others, rfl, hcontents, hothers⟩ :=
      exists_split (.hyphen hinner.getLast?_ne) hothers
    obtain ⟨closing, others, rfl, hclosing, hothers⟩ :=
      exists_closedMark (a := ['-', '-']) rfl rfl hothers
    obtain ⟨angle, others, rfl, hangle, hothers⟩ := exists_closedMark (a := ['>']) rfl rfl hothers
    obtain ⟨nodes, others, rfl, hnodes, hothers⟩ := ih hothers
    have hcomment : IsComment ⟨[bang, hyphens], contents, some [closing, angle]⟩ :=
      ⟨bang, hyphens, contents, closing, angle, rfl, hbang, hhyphens,
        hinner.commentContents hcontents, hclosing, hangle⟩
    obtain ⟨more, hmore, htrivia⟩ := hgapNode hblanks (.comment hcomment hnodes) (by
      simp only [nodeTokens_cons, Node.tokens_comment, Comment.tokens, List.append_assoc,
        List.cons_append]
      exact follows_cons.mpr (by rw [hbang]; rfl))
    exact ⟨more, others, by simp [hmore, Comment.tokens], htrivia, hothers⟩

/-- Trivia stand in front of a tag, their first blanks left out. -/
theorem exists_readsLeading {nodes : List Tree.Node} (h : IsTrivia nodes) :
    ∃ leading, ReadsLeading leading (nodeTokens nodes) := by
  have hnone : AllBlank [] := by simp [AllBlank]
  cases h with
  | nil => exact ⟨[], .intro hnone .nil follows_nil⟩
  | @comment comment rest hcomment hrest =>
    refine ⟨.comment comment :: rest, .intro hnone (.comment hcomment hrest) ?_⟩
    obtain ⟨bang, hyphens, contents, closing, angle, rfl, hbang, -⟩ := hcomment
    simp only [nodeTokens_cons, Node.tokens_comment, Comment.tokens, List.append_assoc,
      List.cons_append]
    exact follows_cons.mpr (by rw [hbang]; rfl)
  | @blanks run rest _ hblank hfollows hrest =>
    refine ⟨rest, ?_⟩
    rw [nodeTokens_cons, Node.tokens_single]
    exact .intro hblank hrest hfollows

/-! ## Reports -/

/-- No attribute is reported if no key is given twice. -/
theorem duplicates_eq_nil_iff (keys : List String) (attributes : List Tree.Attribute) :
    duplicates text keys attributes = []
      ↔ (∀ attr ∈ attributes, text.wording attr.name ∉ keys)
        ∧ (attributes.map fun attr => text.wording attr.name).Nodup := by
  induction attributes generalizing keys with
  | nil => simp [duplicates]
  | cons attr rest ih =>
    rw [duplicates, List.append_eq_nil_iff, ih, List.map_cons, List.nodup_cons]
    by_cases hmem : text.wording attr.name ∈ keys
    · simp [hmem]
    · rw [if_neg hmem]
      simp only [true_and, List.mem_cons, not_or, List.mem_map, not_exists, not_and,
        forall_eq_or_imp, hmem, not_false_eq_true]
      grind

/-- The key of an attribute is the wording of its name. -/
theorem keys_of_readsOpenTag {name tagEnd : Token} {attributes : List Tree.Attribute}
    {tag : List Token} (h : ReadsOpenTag name attributes tagEnd tag) (hrun : text.IsRun tag) :
    (attributes.map fun attr => (attributeOf text attr).outline).map Prod.fst
      = attributes.map fun attr => text.wording attr.name := by
  obtain ⟨-, -, hattributes, -, -⟩ := h
  rename_i before middle behind
  have hmiddle : text.IsRun middle := hrun.part ⟨before ++ [name], behind ++ [tagEnd], by simp⟩
  clear hrun
  induction hattributes with
  | nil => rfl
  | @cons blanks attr attributes tokens _ _ hattr _ ih =>
    have hname := text_excerptOf ((hmiddle.part ⟨blanks, tokens, by simp⟩).part hattr.name_infix)
      hattr.name_ne_nil
    simp only [List.map_cons]
    rw [ih (hmiddle.part (List.IsSuffix.isInfix ⟨blanks ++ attr.tokens, by simp⟩))]
    simp [attributeOf, Attribute.outline, hname]

/-! ## Elements -/

/-- An element that has a tag and the given outline, and of which nothing is reported. -/
structure HasOutline (text : SourceText) (outline : Outline) (element : Tree.Element) : Prop where
  tagged : element.isTriviaOnly = false
  outline_eq : (elementOf text element).outline = outline
  noReports : element.elements.flatMap (elementReports text) = []

/-- Nodes between tags that have the given content and children, and of which nothing is
reported. -/
structure BodyHasOutline (text : SourceText) (content : Option (List Piece))
    (children : List Outline) (nodes : List Tree.Node) : Prop where
  content_eq : (contentOf text nodes).map (List.map Value.piece) = content
  children_eq : outlines (childrenOf text nodes) = children
  noReports : (childElements nodes).flatMap (elementReports text) = []

/-- An element has the outline that its tags and what stands between them have. -/
theorem BodyHasOutline.hasOutline {content : Option (List Piece)} {children : List Outline}
    {element : Tree.Element} (hbody : BodyHasOutline text content children element.children)
    {name tagEnd : Token} {tag : List Token} (hname : element.name = some [name])
    (htag : ReadsOpenTag name element.attributes tagEnd tag) (hrun : text.IsRun tag)
    (htagged : element.isTriviaOnly = false) {attributes : List (String × List Piece)}
    (houtlines : element.attributes.map (fun attr => (attributeOf text attr).outline) = attributes)
    (hnodup : (attributes.map Prod.fst).Nodup) (hclosing : mismatches text element = []) :
    HasOutline text ⟨text.wording [name], attributes, content, children⟩ element := by
  have hduplicates : duplicates text [] element.attributes = [] := by
    rw [duplicates_eq_nil_iff, ← keys_of_readsOpenTag htag hrun, houtlines]
    exact ⟨by simp, hnodup⟩
  have hnameText := text_excerptOf (bindOpenTag_eq htag hrun).1 (List.cons_ne_nil name [])
  refine ⟨htagged, ?_, ?_⟩
  · rw [elementOf_eq, hname, Element.outline, hbody.content_eq, hbody.children_eq, ← houtlines]
    simp [hnameText]
  · have hself : elementReports text element = [] := by simp [elementReports, hclosing, hduplicates]
    have hbelow := hbody.noReports
    cases element
    simp [Tree.Element.elements, hself, hbelow]

/-- Trivia that no tag follows are read as children, which have no outline. -/
theorem exists_readsChildren_trivia (reads : Tree.Element → List Token → Prop)
    {leading : List Tree.Node} {front : List Token} (h : ReadsLeading leading front) :
    ∃ children, ReadsChildren reads children front
      ∧ BodyHasOutline text none [] (children.map .element) := by
  by_cases hne : leading = []
  · have hblank : AllBlank front := by
      obtain ⟨hblanks, -, -⟩ := h
      simpa [hne] using hblanks
    exact ⟨[], .nil hblank, rfl, rfl, rfl⟩
  · exact ⟨_, .trivia hne h, rfl, rfl, rfl⟩

/-- Children with their outlines keep them when one more child stands in front. -/
theorem HasOutline.cons {outline : Outline} {children : List Outline} {child : Tree.Element}
    {others : List Tree.Element} (hchild : HasOutline text outline child)
    (hothers : BodyHasOutline text none children (others.map .element)) :
    BodyHasOutline text none (outline :: children) ((child :: others).map .element) := by
  refine ⟨?_, ?_, ?_⟩
  · cases others <;> rfl
  · simp [childrenOf, hchild.tagged, outlines, hchild.outline_eq, hothers.children_eq]
  · simp only [List.map_cons, childElements, hchild.tagged, Bool.false_eq_true, if_false,
      List.flatMap_append, hchild.noReports, hothers.noReports, List.append_nil]

/-- A tag does not begin as a closing tag or a comment does, since its name can be read. -/
theorem WritesTag.head? {name : String} {attributes : List (String × List Piece)} {tag : List Char}
    (h : WritesTag name attributes tag) (hname : IsReadableName name) (rest : List Char) :
    ∀ c ∈ (tag ++ rest).head?, c ≠ '/' ∧ c ≠ '!' := by
  have hmarks (c : Char) (hc : isBlank c = true ∨ isLetter c = true) : c ≠ '/' ∧ c ≠ '!' := by
    have hmark (mark : Char) (hmem : mark ∈ marks) (hne : mark ≠ '\n') : c ≠ mark := by
      rintro rfl
      simp [not_isBlank_of_mem_marks hmem hne, class_of_mem_marks hmem] at hc
    exact ⟨hmark '/' (by decide) (by decide), hmark '!' (by decide) (by decide)⟩
  obtain ⟨hbefore, -, -⟩ := h
  rename_i before cs behind
  simp only [List.append_assoc]
  exact forall_mem_head?_append (fun c hc => hmarks c (Or.inl (hbefore.head? c hc)))
    fun c hc => hmarks c (Or.inr (hname.head? _ c hc))

/-- Trivia in front of a tag, the bracket, the name and the attributes are read up to the mark that
ends the tag. -/
theorem exists_readsOpenTag {leading : List Char} (hleading : WritesTrivia leading) {name : String}
    {attributes : List (String × List Piece)} {tag : List Char} (htag : WritesTag name attributes tag)
    (hname : IsReadableName name) (hattributes : ∀ attr ∈ attributes, IsReadableAttribute attr)
    {rest : List Char} (hrest : EndsTag rest) {tokens : List Token} (hrun : text.IsRun tokens)
    (htokens : tokens.map (Token.lexeme text) = Lexeme.ofChars (leading ++ '<' :: (tag ++ rest))) :
    ∃ nodes front bracket token read middle others,
      tokens = front ++ bracket :: (middle ++ others) ∧ ReadsLeading nodes front
      ∧ bracket.kind = .openAngle ∧ text.wording [token] = name
      ∧ read.map (fun attr => (attributeOf text attr).outline) = attributes
      ∧ (∀ tagEnd : Token, tagEnd.isTagEnd = true →
        ReadsOpenTag token read tagEnd (middle ++ [tagEnd]))
      ∧ others.map (Token.lexeme text) = Lexeme.ofChars rest := by
  obtain ⟨nodes, others, rfl, hnodes, hothers⟩ :=
    hleading.reads (head?_openAngle_not_isBlank _) htokens
  obtain ⟨front, hfront⟩ := exists_readsLeading hnodes
  obtain ⟨bracket, others, rfl, hbracket, hothers⟩ :=
    exists_mark (a := ['<']) rfl (.of_openAngle (htag.head? hname rest)) hothers
  obtain ⟨token, read, middle, others, rfl, -, hwording, houtlines, hreads, hothers⟩ :=
    htag.reads hname hattributes hrest
      (hrun.part (List.IsSuffix.isInfix ⟨nodeTokens nodes ++ [bracket], by simp⟩)) hothers
  exact ⟨front, nodeTokens nodes, bracket, token, read, middle, others, rfl, hfront, hbracket,
    hwording, houtlines, hreads, hothers⟩

/-- What is read in front of anything else for an outline, given how elements are read. -/
def ReadsAs (text : SourceText) (reads : Tree.Element → List Token → Prop) (outline : Outline)
    (cs : List Char) : Prop :=
  ∀ {rest : List Char} {tokens : List Token}, text.IsRun tokens →
    tokens.map (Token.lexeme text) = Lexeme.ofChars (cs ++ rest) →
    ∃ element front others, tokens = front ++ others ∧ reads element front
      ∧ HasOutline text outline element ∧ others.map (Token.lexeme text) = Lexeme.ofChars rest

/-- Children are read one after the other, and the trivia behind them. -/
theorem WritesAll.reads {writes : Outline → List Char → Prop}
    {reads : Tree.Element → List Token → Prop} {children : List Outline} {cs : List Char}
    (h : WritesAll writes children cs)
    (hreads : ∀ child ∈ children, ∀ cs, writes child cs → ReadsAs text reads child cs)
    {trailing : List Char} (htrailing : WritesTrivia trailing) {rest : List Char}
    (hrest : ∀ c ∈ rest.head?, isBlank c = false) {tokens : List Token} (hrun : text.IsRun tokens)
    (htokens : tokens.map (Token.lexeme text) = Lexeme.ofChars (cs ++ (trailing ++ rest))) :
    ∃ elements front others, tokens = front ++ others ∧ ReadsChildren reads elements front
      ∧ BodyHasOutline text none children (elements.map .element)
      ∧ others.map (Token.lexeme text) = Lexeme.ofChars rest := by
  induction h generalizing tokens with
  | nil =>
    obtain ⟨nodes, others, rfl, hnodes, hothers⟩ := htrailing.reads hrest htokens
    obtain ⟨leading, hleading⟩ := exists_readsLeading hnodes
    obtain ⟨children, hchildren, hbody⟩ := exists_readsChildren_trivia reads hleading
    exact ⟨children, _, others, rfl, hchildren, hbody, hothers⟩
  | @cons child siblings first cs hchild _ ih =>
    rw [List.append_assoc] at htokens
    obtain ⟨element, front, others, rfl, helement, houtline, hothers⟩ :=
      hreads child List.mem_cons_self first hchild hrun htokens
    obtain ⟨elements, behind, others, rfl, helements, hbody, hothers⟩ :=
      ih (fun other hmem => hreads other (List.mem_cons_of_mem _ hmem))
        (hrun.part (List.suffix_append _ _).isInfix) hothers
    exact ⟨element :: elements, front ++ behind, others, by simp, .cons helement helements,
      houtline.cons hbody, hothers⟩

/-! ## What stands between tags -/

/-- Text that begins content begins with no blank. -/
theorem head?_of_beginsText {cs : List Char} (h : BeginsText (Lexeme.ofChars cs)) :
    ∀ c ∈ cs.head?, isBlank c = false := by
  intro c hc
  cases hlexemes : Lexeme.ofChars cs with
  | nil =>
    have hchars := Lexeme.flatMap_chars_ofChars cs
    rw [hlexemes] at hchars
    simp [← hchars] at hc
  | cons lexeme others =>
    rw [hlexemes] at h
    have hfits := Lexeme.fits_of_mem_ofChars lexeme
      (by rw [hlexemes]; exact List.mem_cons_self : lexeme ∈ Lexeme.ofChars cs)
    have hhead := Lexeme.head?_chars_of_mem_head?_ofChars
      (by rw [hlexemes]; rfl : lexeme ∈ (Lexeme.ofChars cs).head?)
    exact hfits.not_isBlank h.1 c (List.mem_of_mem_head? (hhead.trans hc))

/-- Where no element begins is told by the lexemes. -/
theorem beginsNoElement_iff_beginsText (tokens : List Token) :
    BeginsNoElement tokens ↔ BeginsText (tokens.map (Token.lexeme text)) := by
  cases tokens with
  | nil => rfl
  | cons token rest => cases rest <;> rfl

/-- What is read in front of a closing tag for content or for children. -/
def BodyReadsAs (text : SourceText) (reads : List Tree.Node → List Token → Prop)
    (content : Option (List Piece)) (children : List Outline) (cs : List Char) : Prop :=
  ∀ {behind : List Char} {tokens : List Token}, text.IsRun tokens →
    tokens.map (Token.lexeme text) = Lexeme.ofChars (cs ++ '<' :: behind) →
    ∃ nodes front others, tokens = front ++ others ∧ reads nodes front
      ∧ BodyHasOutline text content children nodes
      ∧ others.map (Token.lexeme text) = Lexeme.ofChars ('<' :: behind)

/-- A body in a layout is read as a body with its content or its children, if each child is read. -/
theorem WritesBody.reads {writes : Outline → List Char → Prop}
    {reads : Tree.Element → List Token → Prop} {content : Option (List Piece)}
    {children : List Outline} {inner : List Char} (h : WritesBody writes content children inner)
    (hcontent : ∀ pieces ∈ content, IsReadableContent pieces)
    (hreads : ∀ child ∈ children, ∀ cs, writes child cs → ReadsAs text reads child cs) :
    BodyReadsAs text (ReadsBody reads) content children inner := by
  intro behind tokens hrun htokens
  have hangle := head?_openAngle_not_isBlank behind
  cases h with
  | children hall htrailing =>
    rw [List.append_assoc] at htokens
    obtain ⟨elements, front, others, rfl, helements, hbody, hothers⟩ :=
      hall.reads hreads htrailing hangle hrun htokens
    exact ⟨_, front, others, rfl, .children helements, hbody, hothers⟩
  | @text gap pieces hgap =>
    obtain ⟨hne, hvalue, hbegins, -⟩ := hcontent pieces rfl
    rw [List.append_assoc] at htokens
    obtain ⟨blanks, others, rfl, hblanks, -, hothers⟩ :=
      hgap.reads (forall_mem_head?_append (head?_of_beginsText hbegins) hangle) htokens
    obtain ⟨value, others, rfl, hvalueTokens, hbehind⟩ := exists_split (.of_isFresh rfl) hothers
    obtain ⟨nodes, hnodes, rfl, hpieces, -⟩ := hvalue.exists_nodes hvalueTokens
      (hrun.part ⟨blanks, others, by simp⟩)
    have hnodesNe : nodes ≠ [] := by
      rintro rfl
      exact hne hpieces.symm
    have hnoElement : BeginsNoElement (nodeTokens nodes) := by
      rw [@beginsNoElement_iff_beginsText text, hvalueTokens]
      exact hbegins
    refine ⟨_, blanks ++ nodeTokens nodes, others, by simp,
      .text hblanks ⟨hnodesNe, hnodes⟩ hnoElement, ⟨?_, rfl, rfl⟩, hbehind⟩
    rw [contentOf, Option.map_some, hpieces]

/-! ## Elements and documents -/

/-- An element that closes itself is read with its outline. -/
theorem reads_selfClosing (readsBody : List Tree.Node → List Token → Prop) {leading : List Char}
    (hleading : WritesTrivia leading) {name : String} {attributes : List (String × List Piece)}
    {tag : List Char} (htag : WritesTag name attributes tag)
    (hreadable : IsReadable ⟨name, attributes, none, []⟩) :
    ReadsAs text (ReadsElementWith readsBody) ⟨name, attributes, none, []⟩
      (leading ++ '<' :: (tag ++ ['/', '>'])) := by
  intro rest tokens hrun htokens
  obtain ⟨hname, hattributes, hnodup, -, -⟩ := hreadable
  simp only [List.append_assoc, List.cons_append] at htokens
  obtain ⟨nodes, front, bracket, token, read, middle, others, rfl, hfront, hbracket, hwording,
    houtlines, hreads, hothers⟩ := exists_readsOpenTag hleading htag hname hattributes
      (by simp [EndsTag]) hrun htokens
  obtain ⟨tagEnd, others, rfl, htagEnd, hothers⟩ :=
    exists_closedMark (a := ['/', '>']) rfl rfl hothers
  have hopenTag := hreads tagEnd (by rw [Token.isTagEnd, htagEnd]; rfl)
  refine ⟨_, front ++ bracket :: (middle ++ [tagEnd]), others, by simp,
    .selfClosing hfront hbracket hopenTag htagEnd, ?_, hothers⟩
  have houtline : HasOutline text _
      ⟨nodes, some [bracket], some [token], read, some [tagEnd], [], none⟩ :=
    BodyHasOutline.hasOutline (⟨rfl, rfl, rfl⟩ : BodyHasOutline text none [] []) rfl hopenTag
      (hrun.part ⟨front ++ [bracket], others, by simp⟩) rfl houtlines hnodup rfl
  rwa [hwording] at houtline

/-- An element with a closing tag is read with its outline if what stands between its tags is. -/
theorem reads_paired {readsBody : List Tree.Node → List Token → Prop} {leading : List Char}
    (hleading : WritesTrivia leading) {name : String} {attributes : List (String × List Piece)}
    {tag : List Char} (htag : WritesTag name attributes tag) {content : Option (List Piece)}
    {children : List Outline} (hreadable : IsReadable ⟨name, attributes, content, children⟩)
    {inner : List Char} (hbody : BodyReadsAs text readsBody content children inner)
    {close : List Char} (hclose : WritesClosingTag name close) :
    ReadsAs text (ReadsElementWith readsBody) ⟨name, attributes, content, children⟩
      (leading ++ '<' :: (tag ++ '>' :: (inner ++ close))) := by
  intro rest tokens hrun htokens
  obtain ⟨hname, hattributes, hnodup, -, -⟩ := hreadable
  simp only [List.append_assoc, List.cons_append] at htokens
  obtain ⟨nodes, front, bracket, token, read, middle, others, rfl, hfront, hbracket, hwording,
    houtlines, hreads, hothers⟩ := exists_readsOpenTag hleading htag hname hattributes
      (by simp [EndsTag]) hrun htokens
  obtain ⟨tagEnd, others, rfl, htagEnd, hothers⟩ := exists_closedMark (a := ['>']) rfl rfl hothers
  have hopenTag := hreads tagEnd (by rw [Token.isTagEnd, htagEnd]; rfl)
  -- the body is read in front of the bracket that the closing tag begins with
  obtain ⟨marks, hmarks⟩ : ∃ marks, close = '<' :: marks := by
    cases hclose
    exact ⟨_, rfl⟩
  have hothers : others.map (Token.lexeme text)
      = Lexeme.ofChars (inner ++ '<' :: (marks ++ rest)) := by
    rw [hothers, hmarks]
    rfl
  obtain ⟨between, inside, others, rfl, hinside, hbetween, hothers⟩ := hbody
    (hrun.part (List.IsSuffix.isInfix ⟨front ++ bracket :: (middle ++ [tagEnd]), by simp⟩)) hothers
  rw [← List.cons_append, ← hmarks] at hothers
  obtain ⟨closing, closingToken, closeTokens, others, rfl, hreadsClose, hclosingName,
    hclosingWording, hothers⟩ := hclose.reads hname hothers
  refine ⟨_, front ++ bracket :: ((middle ++ [tagEnd]) ++ (inside ++ closeTokens)), others,
    by simp, .paired hfront hbracket hopenTag htagEnd hinside hreadsClose, ?_, hothers⟩
  have houtline : HasOutline text _
      ⟨nodes, some [bracket], some [token], read, some [tagEnd], between, some closing⟩ :=
    BodyHasOutline.hasOutline hbetween rfl hopenTag
      (hrun.part ⟨front ++ [bracket], inside ++ (closeTokens ++ others), by simp⟩) rfl
      houtlines hnodup (by simp [mismatches, hclosingName, hwording, hclosingWording])
  rwa [hwording] at houtline

/-- An element in a layout is read as an element with its outline, if its body is read. -/
theorem WritesElementWith.reads {body : Option (List Piece) → List Outline → List Char → Prop}
    {readsBody : List Tree.Node → List Token → Prop} {outline : Outline} {cs : List Char}
    (h : WritesElementWith body outline cs) (hreadable : IsReadable outline)
    (hbody : ∀ inner, body outline.content outline.children inner →
      BodyReadsAs text readsBody outline.content outline.children inner) :
    ReadsAs text (ReadsElementWith readsBody) outline cs := by
  cases h with
  | selfClosing hleading htag => exact reads_selfClosing readsBody hleading htag hreadable
  | paired hleading htag hinner hclose =>
    exact reads_paired hleading htag hreadable (hbody _ hinner) hclose

/-- In each of its layouts an outline is read again. -/
theorem WritesElement.reads {levels : Nat} {outline : Outline} {cs : List Char}
    (h : WritesElement levels outline cs) (hreadable : IsReadable outline) :
    ReadsAs text (ReadsElement levels) outline cs := by
  induction levels generalizing outline cs with
  | zero =>
    refine WritesElementWith.reads h hreadable fun inner hinner => ?_
    exact absurd hinner id
  | succ levels ih =>
    refine WritesElementWith.reads h hreadable fun inner hinner => ?_
    obtain ⟨-, -, -, hcontent, hchildren⟩ := hreadable
    exact hinner.reads hcontent fun child hmem cs hchild => ih hchild (hchildren child hmem)

/-- A text that is a layout of an outline is read to its end, without a report. -/
theorem WritesDocument.reads {outline : Outline} (h : WritesDocument outline text.chars)
    (hreadable : IsReadable outline) :
    ∃ root trailing read, ReadsDocument ⟨root, trailing⟩ text.tokens.tokens
      ∧ ReadsElement maxDepth root read ∧ HasOutline text outline root
      ∧ Rule.document text.tokens.tokens = some ⟨⟨root, trailing⟩, [], []⟩ := by
  have htokens := text.map_lexeme_tokens
  generalize text.chars = cs at h htokens
  obtain ⟨hroot, htrailing⟩ := h
  rename_i cs trailing
  obtain ⟨root, front, others, hfront, helement, houtline, hothers⟩ :=
    hroot.reads hreadable (List.infix_refl _) htokens
  rw [← List.append_nil trailing] at hothers
  obtain ⟨nodes, rest, rfl, hnodes, hrest⟩ := htrailing.reads (by simp) hothers
  obtain rfl : rest = [] := List.map_eq_nil_iff.mp hrest
  rw [List.append_nil] at hfront
  have hdocument : ReadsDocument ⟨root, nodes⟩ text.tokens.tokens := by
    rw [hfront]
    exact .intro helement hnodes
  have hrule : Rule.document (text.tokens.tokens ++ []) = some ⟨⟨root, nodes⟩, [], []⟩ :=
    document_complete hdocument rfl
  rw [List.append_nil] at hrule
  exact ⟨root, nodes, front, hdocument, helement, houtline, hrule⟩

/-- In a job, or without variables, no symbol is unexpected. -/
theorem HasOutline.unexpectedSymbols_eq_nil {outline : Outline} {root : Tree.Element}
    (h : HasOutline text outline root) {read : List Token} (hreads : ReadsElement maxDepth root read)
    (hjob : equalIgnoringCase outline.name jobName = true ∨ outline.identifiers = []) :
    Context.unexpectedSymbols (DocumentKind.ofRoot (some (elementOf text root)))
      (text.referencesIn root) = [] := by
  rcases hjob with hjob | hnone
  · have hname : (elementOf text root).name.text = outline.name := by
      rw [← h.outline_eq, Element.outline_name]
    rw [DocumentKind.ofRoot, hname, if_pos hjob, Context.unexpectedSymbols]
  · have hsymbols := (@corresponds_of_readsElement text _ _ _ hreads).2.symbols_eq
    have hidentifiers := map_identifier_symbols_element (elementOf text root)
    rw [h.outline_eq, hnone, hsymbols, List.map_eq_nil_iff, List.map_eq_nil_iff] at hidentifiers
    rw [SourceText.referencesIn, hidentifiers]
    cases DocumentKind.ofRoot (some (elementOf text root)) <;> rfl

/-- A text whose document has an outline is compiled to a template with this outline, and nothing is
reported, if it is a job or has no variables. -/
theorem compile_of_hasOutline {outline : Outline} {root : Tree.Element} {trailing : List Tree.Node}
    {read tokens rest : List Token} (hdocument : ReadsDocument ⟨root, trailing⟩ tokens)
    (hrun : text.IsRun tokens)
    (hrule : Rule.document text.tokens.tokens = some ⟨⟨root, trailing⟩, rest, []⟩)
    (hreads : ReadsElement maxDepth root read) (houtline : HasOutline text outline root)
    (hjob : equalIgnoringCase outline.name jobName = true ∨ outline.identifiers = []) :
    text.compile.diagnostics = [] ∧ ∃ template root, text.compile.template = some template
      ∧ template.root = some root ∧ root.outline = outline
      ∧ template.kind = DocumentKind.ofRoot (some root)
      ∧ template.references = References.empty.addAll (root.symbols.map Symbol.reference) := by
  have hcompile := text.compile_of_readsDocument hdocument hrun hrule
  have hsymbols := (@corresponds_of_readsElement text _ _ _ hreads).2.symbols_eq
  refine ⟨?_, _, _, by rw [hcompile], rfl, houtline.outline_eq, rfl, ?_⟩
  · rw [Compilation.diagnostics, hcompile, houtline.noReports,
      houtline.unexpectedSymbols_eq_nil hreads hjob]
    rfl
  · rw [hsymbols, List.map_map]
    rfl

/-- A text that is a layout of an outline is compiled to a template with this outline, and nothing
is reported, if it is a job or has no variables. -/
theorem compile_of_writesDocument {outline : Outline} (hreadable : IsReadable outline)
    (hwrites : WritesDocument outline text.chars)
    (hjob : equalIgnoringCase outline.name jobName = true ∨ outline.identifiers = []) :
    text.compile.diagnostics = [] ∧ ∃ template root, text.compile.template = some template
      ∧ template.root = some root ∧ root.outline = outline
      ∧ template.kind = DocumentKind.ofRoot (some root)
      ∧ template.references = References.empty.addAll (root.symbols.map Symbol.reference) := by
  obtain ⟨root, trailing, read, hdocument, hreads, houtline, hrule⟩ := hwrites.reads hreadable
  exact compile_of_hasOutline hdocument (List.infix_refl _) hrule hreads houtline hjob

end JobMarkup.Template
