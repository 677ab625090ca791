import JobMarkup.Grammar.Element
import JobMarkup.Proofs.ExactRules
import Mathlib.Data.List.TakeWhile

/-!
# What rules leave out of the tree

Closing tags and elements leave tokens out of the tree: blanks in several places, stray tokens in a
tag, and text behind child elements. Every token that is read is kept in its place or left out for
one of these reasons, and all but blanks are reported by the very rule that leaves them out.
-/

namespace JobMarkup.Grammar

open JobMarkup.Tree

/-- Leaving excused runs of tokens out of the tokens read gives the tokens kept. -/
inductive Leaves (excused : List Token → Prop) : (kept read : List Token) → Prop
  | nil : Leaves excused [] []
  | keep {token kept read} : Leaves excused kept read → Leaves excused (token :: kept) (token :: read)
  | drop {run kept read} : excused run → Leaves excused kept read → Leaves excused kept (run ++ read)

namespace Leaves

variable {excused excused' : List Token → Prop} {kept read kept' read' : List Token}

/-- Keeping all tokens leaves out nothing, so exact rules are a case of rules that leave tokens out. -/
theorem refl (tokens : List Token) : Leaves excused tokens tokens := by
  induction tokens with
  | nil => exact .nil
  | cons token rest ih => exact .keep ih

/-- An excused run may be left out as a whole. -/
theorem of_excused (h : excused read) : Leaves excused [] read := by
  have hdrop := Leaves.drop h .nil
  rwa [List.append_nil] at hdrop

/-- Tokens that are excused one by one may all be left out, as the stray tokens of a tag are. -/
theorem of_forall (h : ∀ token ∈ read, excused [token]) : Leaves excused [] read := by
  induction read with
  | nil => exact .nil
  | cons token rest ih =>
    have hrest := ih fun other hmem => h other (List.mem_cons_of_mem _ hmem)
    exact .drop (h token List.mem_cons_self) hrest

/-- What is kept of two runs in a row is what is kept of the first and then what is kept of the
second. -/
theorem append (h : Leaves excused kept read) (h' : Leaves excused kept' read') :
    Leaves excused (kept ++ kept') (read ++ read') := by
  induction h with
  | nil => exact h'
  | keep _ ih => exact .keep ih
  | drop hexcused _ ih =>
    rw [List.append_assoc]
    exact .drop hexcused ih

/-- What is left out with fewer excuses is left out with more of them. -/
theorem mono (h : Leaves excused kept read) (himp : ∀ run, excused run → excused' run) :
    Leaves excused' kept read := by
  induction h with
  | nil => exact .nil
  | keep _ ih => exact .keep ih
  | drop hexcused _ ih => exact .drop (himp _ hexcused) ih

/-- The tokens kept are in the order in which they were read. -/
theorem sublist (h : Leaves excused kept read) : kept.Sublist read := by
  induction h with
  | nil => exact List.Sublist.slnil
  | keep _ ih => exact ih.cons_cons _
  | drop _ _ ih => exact ih.trans (List.sublist_append_right _ _)

/-- A token that is read is kept or belongs to an excused run. -/
theorem mem_or_excused (h : Leaves excused kept read) {token : Token} (hmem : token ∈ read) :
    token ∈ kept ∨ ∃ run, excused run ∧ run.Sublist read ∧ token ∈ run := by
  induction h with
  | nil => simp at hmem
  | keep _ ih =>
    rcases List.mem_cons.mp hmem with rfl | hmem
    · exact Or.inl List.mem_cons_self
    · refine (ih hmem).imp (List.mem_cons_of_mem _) ?_
      rintro ⟨run, hexcused, hsub, hrun⟩
      exact ⟨run, hexcused, hsub.cons _, hrun⟩
  | @drop dropped _ _ hexcused _ ih =>
    rcases List.mem_append.mp hmem with hmem | hmem
    · exact Or.inr ⟨dropped, hexcused, List.sublist_append_left _ _, hmem⟩
    · refine (ih hmem).imp_right ?_
      rintro ⟨run, hrunExcused, hsub, hrun⟩
      exact ⟨run, hrunExcused, hsub.trans (List.sublist_append_right _ _), hrun⟩

end Leaves

/-- The faults whose tokens are left out of the tree. -/
def discards (fault : GrammarFault) : Prop := fault = .invalidToken ∨ fault = .invalidElementValue

/-- Tokens may be left out if they are blank or if a report says that they are. -/
def Excused (reports : List Report) (run : List Token) : Prop :=
  (∀ token ∈ run, token.isBlank = true) ∨ ∃ fault, discards fault ∧ ⟨fault, run⟩ ∈ reports

/-- Further reports take no excuse away. -/
theorem Excused.of_subset {reports others : List Report} (h : reports ⊆ others) {run : List Token}
    (hexcused : Excused reports run) : Excused others run :=
  hexcused.imp_right fun ⟨fault, hfault, hmem⟩ => ⟨fault, hfault, h hmem⟩

/-- What has been read from the front of the tokens, less what may be left out, is what is kept. -/
def Accounted (kept : List Token) (reports : List Report) (tokens rest : List Token) : Prop :=
  ∃ read, tokens = read ++ rest ∧ Leaves (Excused reports) kept read

namespace Accounted

variable {kept kept' tokens middle rest : List Token} {reports reports' : List Report}

/-- A reading that keeps every token accounts for them without any report. -/
theorem of_exact (h : kept ++ rest = tokens) : Accounted kept reports tokens rest :=
  ⟨kept, h.symm, .refl kept⟩

/-- Reading nothing accounts for nothing and leaves all tokens. -/
theorem nil (tokens : List Token) : Accounted [] reports tokens tokens := of_exact rfl

/-- Blanks in front may be left out. -/
theorem behind_blanks (h : Accounted kept reports (skipBlanks tokens) rest) :
    Accounted kept reports tokens rest := by
  obtain ⟨read, htokens, hread⟩ := h
  refine ⟨tokens.takeWhile Token.isBlank ++ read, ?_, .drop (Or.inl ?_) hread⟩
  · rw [List.append_assoc, ← htokens]
    exact List.takeWhile_append_dropWhile.symm
  · exact fun token hmem => List.mem_takeWhile_imp hmem

/-- Two readings one behind the other account together for what each of them accounts for. -/
theorem trans (h : Accounted kept reports tokens middle)
    (h' : Accounted kept' reports' middle rest) :
    Accounted (kept ++ kept') (reports ++ reports') tokens rest := by
  obtain ⟨read, rfl, hread⟩ := h
  obtain ⟨read', rfl, hread'⟩ := h'
  refine ⟨read ++ read', (List.append_assoc _ _ _).symm, .append ?_ ?_⟩
  · exact hread.mono fun _ => Excused.of_subset (List.subset_append_left _ _)
  · exact hread'.mono fun _ => Excused.of_subset (List.subset_append_right _ _)

/-- More reports do no harm. -/
theorem of_subset (h : Accounted kept reports tokens rest) (hsub : reports ⊆ reports') :
    Accounted kept reports' tokens rest := by
  obtain ⟨read, htokens, hread⟩ := h
  exact ⟨read, htokens, hread.mono fun _ => Excused.of_subset hsub⟩

end Accounted

/-- The rule accounts for all the tokens that it reads. -/
def Rule.Accounts {α : Type} (rule : Rule α) (tokensOf : α → List Token) : Prop :=
  ∀ tokens parsed, rule tokens = some parsed →
    Accounted (tokensOf parsed.value) parsed.reports tokens parsed.rest

namespace Rule

variable {α : Type} {tokensOf : α → List Token}

/-- A rule whose values hold exactly the tokens that it reads accounts for them. -/
theorem Exact.accounts {rule : Rule α} (h : rule.Exact tokensOf) : rule.Accounts tokensOf :=
  fun tokens parsed hparsed => .of_exact (h tokens parsed hparsed)

/-- A rule accounts for its tokens whatever is made of what it reads, if the tokens stay the same. -/
theorem Accounts.map {β : Type} {rule : Rule α} (h : rule.Accounts tokensOf) (f : α → β)
    {tokensOf' : β → List Token} (hf : ∀ value, tokensOf' (f value) = tokensOf value) :
    (rule.map f).Accounts tokensOf' := by
  intro tokens parsed hparsed
  simp only [Rule.map, Option.map_eq_some_iff] at hparsed
  obtain ⟨read, hread, rfl⟩ := hparsed
  rw [Parsed.map, hf]
  exact h tokens read hread

/-- A repetition accounts for the tokens of all its values in a row. -/
theorem Accounts.many {rule : Rule α} (h : rule.Accounts tokensOf) (tokens : List Token) :
    Accounted ((rule.many tokens).value.flatMap tokensOf) (rule.many tokens).reports tokens
      (rule.many tokens).rest := by
  rw [Rule.many]
  generalize tokens.length = bound
  induction bound generalizing tokens with
  | zero => exact .nil tokens
  | succ bound ih =>
    rw [Rule.atMost]
    split
    · exact .nil tokens
    · next first hfirst =>
      rw [List.flatMap_cons]
      exact (h tokens first hfirst).trans (ih first.rest)

end Rule

/-! ## Closing tags -/

/-- What the end of a closing tag adds to the tag is accounted for, with the blanks in front of it
left out. -/
theorem accounted_closingTagEnd (opening name tokens : List Token) :
    ∃ added, (closingTagEnd { opening, name := some name } tokens).value.tokens
        = opening ++ name ++ added
      ∧ Accounted added (closingTagEnd { opening, name := some name } tokens).reports tokens
          (closingTagEnd { opening, name := some name } tokens).rest := by
  have hclosing := (Rule.token_exact (· == .closeAngle)).optional_slot (skipBlanks tokens)
  refine ⟨slotTokens ((Rule.token (· == .closeAngle)).optional (skipBlanks tokens)).value, rfl, ?_⟩
  exact (Accounted.of_exact hclosing).behind_blanks

/-- What the name and the end of a closing tag add to the tag is accounted for. -/
theorem accounted_closingTagName (opening tokens : List Token) :
    ∃ added, (closingTagName { opening } tokens).value.tokens = opening ++ added
      ∧ Accounted added (closingTagName { opening } tokens).reports tokens
          (closingTagName { opening } tokens).rest := by
  rw [closingTagName]
  split
  · exact ⟨[], by simp [ClosingTag.tokens], (Accounted.nil _).behind_blanks⟩
  · next name hname =>
    obtain ⟨added, htokens, hadded⟩ := accounted_closingTagEnd opening name.value name.rest
    refine ⟨name.value ++ added, by rw [htokens, List.append_assoc], ?_⟩
    have hread : Accounted name.value [] (skipBlanks tokens) name.rest :=
      .of_exact (Rule.token_exact _ _ name hname)
    exact (hread.trans hadded).behind_blanks

/-- A closing tag accounts for its tokens; only blanks around its name are left out. -/
theorem Rule.closingTag_accounts : Rule.closingTag.Accounts ClosingTag.tokens := by
  intro tokens parsed h
  cases tokens with
  | nil => simp [Rule.closingTag] at h
  | cons token rest =>
    simp only [Rule.closingTag, Option.ite_none_right_eq_some, Option.some.injEq] at h
    obtain ⟨-, rfl⟩ := h
    obtain ⟨added, htokens, hadded⟩ := accounted_closingTagName [token] rest
    rw [htokens]
    have hopening : Accounted [token] [] (token :: rest) rest := .of_exact rfl
    exact hopening.trans hadded

/-! ## Opening tags -/

/-- An attribute of a tag accounts for its tokens; only the blanks in front of it are left out. -/
theorem Rule.spacedAttribute_accounts : Rule.spacedAttribute.Accounts Attribute.tokens := by
  intro tokens parsed h
  simp only [Rule.spacedAttribute, Option.map_eq_some_iff] at h
  obtain ⟨read, hread, rfl⟩ := h
  exact (Accounted.of_exact (Rule.attribute_exact _ read hread)).behind_blanks

/-- Stray tokens are left out, each with a report of its own. -/
theorem accounted_strays (tokens : List Token) :
    Accounted []
      ((tokens.takeWhile fun token => !token.isTagEnd).map fun stray => ⟨.invalidToken, [stray]⟩)
      tokens (tokens.dropWhile fun token => !token.isTagEnd) := by
  refine ⟨_, List.takeWhile_append_dropWhile.symm, .of_forall fun token hmem => Or.inr ?_⟩
  exact ⟨.invalidToken, Or.inl rfl, List.mem_map_of_mem hmem⟩

/-- A step in reading an element: what it adds to the tokens of the element is accounted for. -/
def Adds (element : Element) (tokens : List Token) (parsed : Parsed Element) : Prop :=
  ∃ added, parsed.value.tokens = element.tokens ++ added
    ∧ Accounted added parsed.reports tokens parsed.rest

/-- An element whose body has not been read. -/
structure IsOpened (element : Element) : Prop where
  children_eq : element.children = []
  closingTag_eq : element.closingTag = none

/-- An element whose body has not been read has no children to forget. -/
theorem IsOpened.fill_nil {element : Element} (h : IsOpened element) :
    { element with children := [] } = element := by
  have hchildren := h.children_eq
  cases element
  simpa using hchildren.symm

/-- The body of an element comes behind its opening tag. -/
theorem IsOpened.tokens_fill {element : Element} (h : IsOpened element) (children : List Node)
    (closingTag : Option ClosingTag) :
    Element.tokens { element with children, closingTag }
      = element.tokens ++ (nodeTokens children ++ closingTagTokens closingTag) := by
  simp [Element.tokens_eq, h.children_eq, h.closingTag_eq]

/-- The rest of a tag does not read a body. -/
theorem namedTag_isOpened (leadingTrivia : List Node) (bracket tokens : List Token) :
    IsOpened (namedTag { leadingTrivia, openBracket := some bracket } tokens).value :=
  ⟨rfl, rfl⟩

/-- What the rest of a tag adds to the element is accounted for, with stray tokens left out by
reports. -/
theorem namedTag_adds (leadingTrivia : List Node) (bracket tokens : List Token) :
    Adds { leadingTrivia, openBracket := some bracket } tokens
      (namedTag { leadingTrivia, openBracket := some bracket } tokens) := by
  have hname : Accounted (tagName tokens).value (tagName tokens).reports tokens
      (tagName tokens).rest := .of_exact List.takeWhile_append_dropWhile
  have hattributes := Rule.spacedAttribute_accounts.many (tagName tokens).rest
  have hstrays := accounted_strays
    (skipBlanks (Rule.spacedAttribute.many (tagName tokens).rest).rest)
  have hend := (Rule.token_exact TokenKind.isTagEnd).optional_slot
    ((skipBlanks (Rule.spacedAttribute.many (tagName tokens).rest).rest).dropWhile
      fun token => !token.isTagEnd)
  have htagEnd : Accounted _ [] _ _ := .of_exact hend
  have hall := hname.trans (hattributes.trans (hstrays.trans htagEnd).behind_blanks)
  refine ⟨_, ?_, hall.of_subset ?_⟩
  · simp [namedTag, Element.tokens_eq, attributeTokens_eq_flatMap]
  · simp only [List.append_nil, namedTag, ← List.append_assoc]
    exact List.subset_append_left _ _

/-- An opening tag does not read a body, with a name or without one. -/
theorem openTag_isOpened (leadingTrivia : List Node) (bracket tokens : List Token) :
    IsOpened (openTag leadingTrivia bracket tokens).value := by
  rw [openTag]
  split
  · exact ⟨rfl, rfl⟩
  · split
    · exact ⟨rfl, rfl⟩
    · exact namedTag_isOpened _ _ _

/-- What an opening tag adds to its bracket is accounted for. -/
theorem openTag_adds (leadingTrivia : List Node) (bracket tokens : List Token) :
    Adds { leadingTrivia, openBracket := some bracket } tokens
      (openTag leadingTrivia bracket tokens) := by
  rw [openTag]
  split
  · next h =>
    refine ⟨[], (List.append_nil _).symm, Accounted.behind_blanks ?_⟩
    rw [h]
    exact .nil []
  · next token rest h =>
    split
    · refine ⟨[token], by simp [Element.tokens_eq], Accounted.behind_blanks ?_⟩
      rw [h]
      exact .of_exact rfl
    · obtain ⟨added, htokens, hadded⟩ := namedTag_adds leadingTrivia bracket (token :: rest)
      exact ⟨added, htokens, Accounted.behind_blanks (h ▸ hadded)⟩

/-! ## Bodies -/

/-- The closing tag of an element, if there is one, is accounted for. -/
theorem accounted_optional_closingTag (tokens : List Token) :
    Accounted (closingTagTokens (Rule.closingTag.optional tokens).value)
      (Rule.closingTag.optional tokens).reports tokens (Rule.closingTag.optional tokens).rest := by
  rw [Rule.optional]
  split
  · next tag htag => exact Rule.closingTag_accounts tokens tag htag
  · exact .nil tokens

/-- A node for content holds the tokens of the content, and there is no node for no content. -/
theorem nodeTokens_contentNode (nodes : List Node) :
    nodeTokens (contentNode nodes) = nodeTokens nodes := by
  rw [contentNode]
  split
  · next h => rw [List.isEmpty_iff.mp h]
  · simp

/-- Whether or not the closing tag is there, the tokens that closing an element takes are
accounted for. -/
theorem closeElement_accounted (element : Element) (tokens : List Token) :
    Accounted (closingTagTokens (closeElement element tokens).value.closingTag)
      (closeElement element tokens).reports tokens (closeElement element tokens).rest :=
  (accounted_optional_closingTag tokens).of_subset (List.subset_append_left _ _)

/-- A raw body adds its tokens and its closing tag, and leaves out nothing. -/
theorem rawBody_adds {element : Element} (h : IsOpened element) (tokens : List Token) :
    Adds element tokens (rawBody element tokens) := by
  have hcontents : Accounted (rawContents 0 tokens).1 [] tokens (rawContents 0 tokens).2 :=
    .of_exact (rawContents_append 0 tokens)
  have hclosed := closeElement_accounted
    { element with
      children := contentNode ((rawContents 0 tokens).1.map fun token => .single [token]) }
    (rawContents 0 tokens).2
  have hall := (hcontents.trans hclosed).of_subset
    (List.subset_cons_self ⟨.nestingTooDeep, element.tokens⟩ _)
  refine ⟨_, h.tokens_fill (contentNode _) _, ?_⟩
  rw [nodeTokens_contentNode, nodeTokens_map_single]
  exact hall

/-- A body with text adds its content and its closing tag, and leaves out nothing. -/
theorem textBody_adds {element : Element} (h : IsOpened element) (tokens : List Token) :
    Adds element tokens (textBody element tokens) := by
  have hcontents : Accounted _ [] tokens _ :=
    .of_exact ((Rule.content_exact elementValueEnds).optional_nodes tokens)
  have hclosed := closeElement_accounted
    { element with
      children := contentNode (((Rule.content elementValueEnds).optional tokens).value.getD []) }
    ((Rule.content elementValueEnds).optional tokens).rest
  have hall := (hcontents.trans hclosed).of_subset (List.subset_append_right
    ((Rule.content elementValueEnds).optional tokens).reports _)
  refine ⟨_, h.tokens_fill (contentNode _) _, ?_⟩
  rw [nodeTokens_contentNode]
  exact hall

/-- Text behind child elements is left out, and the report at the end is about all of it. -/
theorem accounted_strayText (element : Element) (tokens : List Token) :
    Accounted (closingTagTokens (strayText element tokens).value.closingTag)
      (strayText element tokens).reports tokens (strayText element tokens).rest := by
  let isText := fun token : Token => token.kind != .openSlash
  have htext : Accounted [] [⟨.invalidElementValue, tokens.takeWhile isText⟩] tokens
      (tokens.dropWhile isText) := by
    refine ⟨_, List.takeWhile_append_dropWhile.symm, .of_excused (Or.inr ?_)⟩
    exact ⟨.invalidElementValue, Or.inr rfl, List.mem_singleton_self _⟩
  have hclosing := accounted_optional_closingTag (tokens.dropWhile isText)
  refine (htext.trans hclosing).of_subset ?_
  intro report hmem
  rcases List.mem_append.mp hmem with hmem | hmem
  · exact List.mem_append_right _ hmem
  · exact List.mem_append_left _ hmem

/-- The children of an element whose children have been read are followed by its closing tag, or by
its text and its closing tag. -/
theorem elementEnd_adds {element : Element} (h : IsOpened element) (children : List Node)
    (tokens : List Token) :
    ∃ added,
      (elementEnd { element with children } tokens).value.tokens
          = element.tokens ++ (nodeTokens children ++ added)
        ∧ Accounted added (elementEnd { element with children } tokens).reports tokens
          (elementEnd { element with children } tokens).rest := by
  rw [elementEnd]
  split
  · next hchildren =>
    obtain rfl : children = [] := List.isEmpty_iff.mp hchildren
    rw [h.fill_nil]
    simpa [Adds] using textBody_adds h tokens
  · split
    · exact ⟨_, h.tokens_fill children _, closeElement_accounted _ tokens⟩
    · exact ⟨_, h.tokens_fill children _, accounted_strayText _ tokens⟩

/-- A body with child elements accounts for its tokens if each child does; text behind the children
is left out by a report. -/
theorem nestedBody_adds {child : Rule Element} (hchild : child.Accounts Element.tokens)
    {element : Element} (h : IsOpened element) (tokens : List Token) :
    Adds element tokens (nestedBody child element tokens) := by
  obtain ⟨added, htokens, hadded⟩ := elementEnd_adds h ((child.many tokens).value.map .element)
    (skipBlanks (child.many tokens).rest)
  refine ⟨_, htokens, ?_⟩
  rw [nodeTokens_map_element]
  exact (hchild.many tokens).trans hadded.behind_blanks

/-! ## Elements and documents -/

/-- An element whose bracket has been read accounts for what follows if its body does. -/
theorem taggedElement_adds {body : Element → List Token → Parsed Element}
    (hbody : ∀ element tokens, IsOpened element → Adds element tokens (body element tokens))
    (leadingTrivia : List Node) (bracket tokens : List Token) :
    Adds { leadingTrivia, openBracket := some bracket } tokens
      (taggedElement body leadingTrivia bracket tokens) := by
  have hopened := openTag_adds leadingTrivia bracket tokens
  rw [taggedElement]
  split
  · obtain ⟨opening, hopening, haccounted⟩ := hopened
    obtain ⟨added, htokens, hadded⟩ := hbody _ (openTag leadingTrivia bracket tokens).rest
      (openTag_isOpened leadingTrivia bracket tokens)
    exact ⟨opening ++ added, by rw [htokens, hopening, List.append_assoc],
      haccounted.trans hadded⟩
  · exact hopened

/-- An element accounts for its tokens if its body does. -/
theorem Rule.elementWith_accounts {body : Element → List Token → Parsed Element}
    (hbody : ∀ element tokens, IsOpened element → Adds element tokens (body element tokens)) :
    (Rule.elementWith body).Accounts Element.tokens := by
  intro tokens parsed h
  have hleading : Accounted (nodeTokens (trivia (skipBlanks tokens)).value)
      (trivia (skipBlanks tokens)).reports tokens (trivia (skipBlanks tokens)).rest :=
    (Accounted.of_exact (tokens_trivia (skipBlanks tokens))).behind_blanks
  rw [Rule.elementWith] at h
  split at h
  · next bracket hbracket =>
    obtain rfl := Option.some.inj h
    obtain ⟨added, htokens, hadded⟩ := taggedElement_adds hbody
      (trivia (skipBlanks tokens)).value bracket.value bracket.rest
    have hopening : Accounted bracket.value [] _ bracket.rest :=
      .of_exact (Rule.token_exact _ _ bracket hbracket)
    have hall := hleading.trans (hopening.trans hadded)
    rw [htokens]
    simpa [Element.tokens_eq] using hall
  · simp only [Option.ite_none_left_eq_some, Option.some.injEq] at h
    obtain ⟨-, rfl⟩ := h
    simpa [Element.tokens_eq] using hleading

/-- Elements account for all their tokens, whatever the markup is. -/
theorem Rule.element_accounts (levels : Nat) : (Rule.element levels).Accounts Element.tokens := by
  induction levels with
  | zero => exact Rule.elementWith_accounts fun _ tokens h => rawBody_adds h tokens
  | succ levels ih =>
    exact Rule.elementWith_accounts fun _ tokens h => nestedBody_adds ih h tokens

/-- A document accounts for the tokens of its root and of the trivia behind it. -/
theorem Rule.document_accounts : Rule.document.Accounts Document.tokens := by
  intro tokens parsed h
  simp only [Rule.document, Option.map_eq_some_iff] at h
  obtain ⟨root, hroot, rfl⟩ := h
  have htrailing : Accounted _ (trivia root.rest).reports _ _ :=
    .of_exact (tokens_trivia root.rest)
  rw [Document.tokens_eq]
  exact (Rule.element_accounts maxDepth tokens root hroot).trans htrailing

end JobMarkup.Grammar
