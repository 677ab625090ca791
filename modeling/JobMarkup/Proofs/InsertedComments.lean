import JobMarkup.Proofs.CommentEnds
import JobMarkup.Proofs.LineEnds
import JobMarkup.Proofs.Relocation
import JobMarkup.Proofs.RoundTrip
import JobMarkup.Proofs.Stages

/-!
# Comments behind opening tags

A comment that is put directly behind the opening tag of an element becomes part of the trivia in
front of its first child, or a child without a tag if there is none. So nothing changes where the
element holds elements or nothing. Content is only read where no child is, and a comment is one: in
front of content it makes the content stray text, which is reported.
-/

namespace JobMarkup.Tree

mutual

/-- The tokens of an element in a tree are tokens of the tree, in their order. -/
theorem Element.tokens_sublist_of_mem_elements {inner : Element} :
    ∀ {element : Element}, inner ∈ element.elements → inner.tokens.Sublist element.tokens
  | ⟨leadingTrivia, openBracket, name, attributes, tagEnd, children, closingTag⟩, h => by
    rw [Element.elements, List.mem_cons] at h
    rcases h with rfl | h
    · exact List.Sublist.refl _
    · rw [Element.tokens, List.append_assoc]
      exact (tokens_sublist_of_mem_childElements h).trans
        ((List.sublist_append_left _ _).trans (List.sublist_append_right _ _))

/-- The tokens of an element below some nodes come in order among the tokens of the nodes. -/
theorem tokens_sublist_of_mem_childElements {inner : Element} :
    ∀ {nodes : List Node}, inner ∈ childElements nodes → inner.tokens.Sublist (nodeTokens nodes)
  | [], h => by simp [childElements] at h
  | node :: rest, h => by
    rw [nodeTokens_cons]
    have hrest (hmem : inner ∈ childElements rest) :
        inner.tokens.Sublist (node.tokens ++ nodeTokens rest) :=
      (tokens_sublist_of_mem_childElements hmem).trans (List.sublist_append_right _ _)
    cases node with
    | element child =>
      rw [childElements] at h
      split at h
      · exact hrest h
      · rcases List.mem_append.mp h with h | h
        · exact (Element.tokens_sublist_of_mem_elements h).trans (List.sublist_append_left _ _)
        · exact hrest h
    | _ => exact hrest (by simpa [childElements] using h)

end

/-- The token that ends the opening tag is one of the tokens of the element. -/
theorem Element.mem_tokens_of_tagEnd {element : Element} {token : Token}
    (h : element.tagEnd = some [token]) : token ∈ element.tokens := by
  cases element
  simp_all [Element.tokens, slotTokens]

end JobMarkup.Tree

namespace JobMarkup.Template

open JobMarkup.Tree JobMarkup.Grammar

variable {text other : SourceText}

section

variable {inner : Tree.Element} {tagEnd : Token} {comment : List Lexeme}

/-- Lexemes put behind a token. -/
def insertBehind (text : SourceText) (front : List Token) (token : Token) (comment : List Lexeme)
    (behind : List Token) : List Lexeme :=
  front.map (Token.lexeme text) ++ token.lexeme text :: (comment ++ behind.map (Token.lexeme text))

/-- What is put behind a token stands in front of whatever comes behind the part that has the token. -/
theorem insertBehind_append (front behind rest : List Token) (token : Token) (comment : List Lexeme) :
    insertBehind text front token comment (behind ++ rest)
      = insertBehind text front token comment behind ++ rest.map (Token.lexeme text) := by
  simp [insertBehind]

/-- What is put behind a token stands behind whatever comes in front of the part that has the token. -/
theorem append_insertBehind (first front behind : List Token) (token : Token)
    (comment : List Lexeme) :
    insertBehind text (first ++ front) token comment behind
      = first.map (Token.lexeme text) ++ insertBehind text front token comment behind := by
  simp [insertBehind]

/-- The elements of an element are itself and those below its children. -/
theorem mem_elements_iff {element : Tree.Element} :
    inner ∈ element.elements ↔ inner = element ∨ inner ∈ childElements element.children := by
  cases element
  rw [Tree.Element.elements, List.mem_cons]

/-- Where a comment is put into one of the children, children are read with the comment in
that one. -/
theorem exists_children_insert {reads : Tree.Element → List Token → Prop}
    (hreads : Relocates text other reads)
    (htagged : ∀ element read, reads element read → element.isTriviaOnly = false)
    (hchild : ∀ child read, reads child read → text.IsRun read →
      child.elements.flatMap (elementReports text) = [] → inner ∈ child.elements →
      ∃ front behind, read = front ++ tagEnd :: behind
        ∧ ReadsWhere other reads (elementOf text child).outline
          (insertBehind text front tagEnd comment behind))
    {children : List Tree.Element} {tokens : List Token} (h : ReadsChildren reads children tokens)
    (hrun : text.IsRun tokens)
    (hreports : (childElements (children.map .element)).flatMap (elementReports text) = [])
    (hinner : inner ∈ childElements (children.map .element)) :
    ∃ front behind, tokens = front ++ tagEnd :: behind
      ∧ ∀ others, other.IsRun others →
        others.map (Token.lexeme other) = insertBehind text front tagEnd comment behind →
        ∃ elements, ReadsChildren reads elements others
          ∧ BodyHasOutline other none (outlines (childrenOf text (children.map .element)))
            (elements.map .element) := by
  have hnothing : IsLead (([] : List Lexeme).map Lexeme.kind) := isLead_nil
  induction h with
  | nil => simp [childElements] at hinner
  | trivia => simp [childElements, Tree.Element.isTriviaOnly] at hinner
  | @cons child siblings first rest hfirst hrest ih =>
    have hchildTagged := htagged child first hfirst
    have hfirstRun := hrun.part (List.prefix_append first rest).isInfix
    have hrestRun := hrun.part (List.suffix_append first rest).isInfix
    simp only [List.map_cons, childElements, hchildTagged, Bool.false_eq_true, if_false,
      List.flatMap_append, List.append_eq_nil_iff, List.mem_append] at hreports hinner
    obtain ⟨hfirstReports, hrestReports⟩ := hreports
    obtain hinner | hinner := hinner
    · obtain ⟨front, behind, rfl, hwhere⟩ := hchild child first hfirst hfirstRun hfirstReports hinner
      refine ⟨front, behind ++ rest, by simp, fun others hother hlexemes => ?_⟩
      rw [insertBehind_append] at hlexemes
      obtain ⟨part, others, rfl, hpart, hothers⟩ := List.map_eq_append_iff.mp hlexemes
      obtain ⟨element, hread, houtline⟩ :=
        hwhere part (hother.part (List.prefix_append _ _).isInfix) hpart
      obtain ⟨elements, helements, hbody⟩ := exists_children hreads htagged hrest hrestRun
        hrestReports hnothing (hother.part (List.suffix_append _ _).isInfix) hothers
      refine ⟨element :: elements, .cons hread helements, ?_⟩
      simpa [childrenOf, hchildTagged, outlines] using houtline.cons hbody
    · obtain ⟨front, behind, rfl, hwhere⟩ := ih hrestRun hrestReports hinner
      refine ⟨first ++ front, behind, by simp, fun others hother hlexemes => ?_⟩
      rw [append_insertBehind] at hlexemes
      obtain ⟨part, others, rfl, hpart, hothers⟩ := List.map_eq_append_iff.mp hlexemes
      obtain ⟨element, hread, houtline⟩ := hreads child first hfirst hfirstRun hfirstReports []
        hnothing part (hother.part (List.prefix_append _ _).isInfix) hpart
      obtain ⟨elements, helements, hbody⟩ :=
        hwhere others (hother.part (List.suffix_append _ _).isInfix) hothers
      refine ⟨element :: elements, .cons hread helements, ?_⟩
      simpa [childrenOf, hchildTagged, outlines] using houtline.cons hbody

/-- An element holds no content. -/
def HoldsNoContent (element : Tree.Element) : Prop :=
  ∀ nodes, Tree.Node.content nodes ∉ element.children

/-- A body without content is read behind a comment. -/
theorem bodyReadsWhere_comment {reads : Tree.Element → List Token → Prop}
    (hreads : Relocates text other reads)
    (htagged : ∀ element read, reads element read → element.isTriviaOnly = false)
    {children : List Tree.Node} {tokens : List Token} (h : ReadsBody reads children tokens)
    (hnone : ∀ nodes, Tree.Node.content nodes ∉ children) (hrun : text.IsRun tokens)
    (hreports : (childElements children).flatMap (elementReports text) = [])
    (hcomment : IsLead (comment.map Lexeme.kind)) :
    BodyReadsWhere other (ReadsBody reads) ((contentOf text children).map (List.map Value.piece))
      (outlines (childrenOf text children)) (comment ++ tokens.map (Token.lexeme text)) := by
  intro others hother hlexemes
  cases h with
  | text => exact absurd List.mem_cons_self (hnone _)
  | @children elements _ helements =>
    have hcontent : contentOf text (elements.map .element) = none := by
      cases elements <;> rfl
    obtain ⟨read, hread, hbody⟩ :=
      exists_children hreads htagged helements hrun hreports hcomment hother hlexemes
    rw [hcontent]
    exact ⟨_, .children hread, hbody⟩

/-- An element that holds the comment is read with its outline if its body is. -/
theorem exists_insert_elementWith {body : List Tree.Node → List Token → Prop}
    {element : Tree.Element} {read : List Token} (h : ReadsElementWith body element read)
    (hrun : text.IsRun read) (hreports : element.elements.flatMap (elementReports text) = [])
    (hinner : inner ∈ element.elements) (htagEnd : inner.tagEnd = some [tagEnd])
    (hkind : tagEnd.kind = .closeAngle)
    (hself : ∀ tokens, body element.children tokens → text.IsRun tokens → inner = element →
      BodyReadsWhere other body ((contentOf text element.children).map (List.map Value.piece))
        (outlines (childrenOf text element.children)) (comment ++ tokens.map (Token.lexeme text)))
    (hbelow : ∀ tokens, body element.children tokens → text.IsRun tokens →
      inner ∈ childElements element.children → ∃ front behind, tokens = front ++ tagEnd :: behind
        ∧ BodyReadsWhere other body ((contentOf text element.children).map (List.map Value.piece))
          (outlines (childrenOf text element.children))
          (insertBehind text front tagEnd comment behind)) :
    ∃ front behind, read = front ++ tagEnd :: behind
      ∧ ReadsWhere other (ReadsElementWith body) (elementOf text element).outline
        (insertBehind text front tagEnd comment behind) := by
  obtain ⟨hmismatches, hduplicates, -⟩ := reports_eq_nil_iff.mp hreports
  have hnothing : IsLead (([] : List Lexeme).map Lexeme.kind) := isLead_nil
  cases h with
  | @selfClosing leading front bracket name attributes last tag hleading hbracket htag hlast =>
    obtain rfl | hbelow := mem_elements_iff.mp hinner
    · obtain rfl : last = tagEnd := by simpa using htagEnd
      simp [hlast] at hkind
    · simp [childElements] at hbelow
  | @paired leading front bracket name attributes last tag children tokens closing close hleading
      hbracket htag hlast hbody hclose =>
    have htagRun : text.IsRun tag := hrun.part ⟨front ++ [bracket], tokens ++ close, by simp⟩
    have htokensRun : text.IsRun tokens := hrun.part ⟨front ++ bracket :: tag, close, by simp⟩
    have hclosing := closingName_of_mismatches rfl rfl hclose hmismatches
    rw [outline_elementOf rfl (bindOpenTag_eq htag htagRun).1]
    obtain rfl | hchild := mem_elements_iff.mp hinner
    · obtain rfl : last = tagEnd := by simpa using htagEnd
      obtain ⟨begins, rfl⟩ := htag.exists_begins
      refine ⟨front ++ bracket :: begins, tokens ++ close, by simp, ?_⟩
      have hwhole := readsWhere_paired hleading hbracket htag hlast htagRun hduplicates hclose
        hclosing (hself tokens hbody htokensRun rfl) hnothing
      simpa [insertBehind] using hwhole
    · obtain ⟨before, behind, rfl, hwhere⟩ := hbelow tokens hbody htokensRun hchild
      refine ⟨front ++ bracket :: (tag ++ before), behind ++ close, by simp, ?_⟩
      have hwhole := readsWhere_paired hleading hbracket htag hlast htagRun hduplicates hclose
        hclosing hwhere hnothing
      simpa [insertBehind] using hwhole

/-- An element is read with its outline if a comment is put behind the opening tag of an element in it
that holds no content. -/
theorem exists_insert_element {levels : Nat} {element : Tree.Element} {read : List Token}
    (h : ReadsElement levels element read) (hrun : text.IsRun read)
    (hreports : element.elements.flatMap (elementReports text) = [])
    (hinner : inner ∈ element.elements) (htagEnd : inner.tagEnd = some [tagEnd])
    (hkind : tagEnd.kind = .closeAngle) (hnone : HoldsNoContent inner)
    (hcomment : IsLead (comment.map Lexeme.kind)) :
    ∃ front behind, read = front ++ tagEnd :: behind
      ∧ ReadsWhere other (ReadsElement levels) (elementOf text element).outline
        (insertBehind text front tagEnd comment behind) := by
  induction levels generalizing element read with
  | zero =>
    exact exists_insert_elementWith h hrun hreports hinner htagEnd hkind
      (fun _ hbody => hbody.elim) fun _ hbody => hbody.elim
  | succ levels ih =>
    have hreads := @relocates_readsElement text other levels
    have htagged (element : Tree.Element) (read : List Token) (h : ReadsElement levels element read) :
        element.isTriviaOnly = false := not_isTriviaOnly_of_readsElement h
    obtain ⟨-, -, hbelow⟩ := reports_eq_nil_iff.mp hreports
    refine exists_insert_elementWith h hrun hreports hinner htagEnd hkind
      (fun tokens hbody htokens hself => ?_) fun tokens hbody htokens hchild => ?_
    · subst hself
      exact bodyReadsWhere_comment hreads htagged hbody hnone htokens hbelow hcomment
    · generalize element.children = children at hbody hchild hbelow
      cases hbody with
      | text => simp [childElements] at hchild
      | @children elements _ helements =>
        have hcontent : contentOf text (elements.map .element) = none := by
          cases elements <;> rfl
        obtain ⟨front, behind, rfl, hwhere⟩ := exists_children_insert hreads htagged
          (fun child read hread hrun hreports hinner => ih hread hrun hreports hinner)
          helements htokens hbelow hchild
        refine ⟨front, behind, rfl, fun others hother hlexemes => ?_⟩
        obtain ⟨read, hread, hbody⟩ := hwhere others hother hlexemes
        rw [hcontent]
        exact ⟨_, .children hread, hbody⟩

/-! ## In front of content -/

/-- Some text is reported as stray. -/
def ReportsStrayText (reports : List Report) : Prop :=
  ∃ report ∈ reports, report.fault = .invalidElementValue

/-- Stray text that is reported by the first part is reported by the whole. -/
theorem ReportsStrayText.append_left {reports : List Report} (h : ReportsStrayText reports)
    (others : List Report) : ReportsStrayText (reports ++ others) := by
  obtain ⟨report, hmem, hfault⟩ := h
  exact ⟨report, List.mem_append_left _ hmem, hfault⟩

/-- Stray text that is reported by a later part is reported by the whole. -/
theorem ReportsStrayText.append_right {reports : List Report} (h : ReportsStrayText reports)
    (others : List Report) : ReportsStrayText (others ++ reports) := by
  obtain ⟨report, hmem, hfault⟩ := h
  exact ⟨report, List.mem_append_right _ hmem, hfault⟩

/-- Content begins with a token that does not end it. -/
theorem exists_cons_of_isContent {terminators : List TokenKind} (hends : .openReference ∉ terminators)
    {nodes : List Tree.Node} (h : IsContent terminators nodes) :
    ∃ token rest, nodeTokens nodes = token :: rest ∧ token.kind ∉ terminators := by
  obtain ⟨node, others, rfl⟩ := List.exists_cons_of_ne_nil h.1
  obtain ⟨token, rfl, hkind, -⟩ | ⟨whole, rfl, opening, symbol, closing, rfl, hopening, -⟩ :=
    h.2 node List.mem_cons_self
  · exact ⟨token, nodeTokens others, by simp, hkind⟩
  · exact ⟨opening, nodeTokens symbol ++ closing :: nodeTokens others,
      by simp [Interpolation.tokens_eq], by rwa [hopening]⟩

/-- Content behind trivia without a tag is stray text. -/
theorem strays_nestedBody_content {child : Rule Tree.Element}
    {reads : Tree.Element → List Token → Prop} (hchild : IsElementRule child reads)
    {leading : List Tree.Node} {front : List Token} (hleading : ReadsLeading leading front)
    (hne : leading ≠ []) {nodes : List Tree.Node} (hcontent : IsContent elementValueEnds nodes)
    (hbegins : BeginsNoElement (nodeTokens nodes)) {closing : ClosingTag} {close : List Token}
    (hclose : ReadsClosingTag closing close) (element : Tree.Element) (rest : List Token) :
    ReportsStrayText
      (nestedBody child element (front ++ (nodeTokens nodes ++ (close ++ rest)))).reports := by
  obtain ⟨opening, others, htokens, hopening⟩ := hclose.exists_cons rest
  have hall : BeginsNoElement (nodeTokens nodes ++ (close ++ rest)) := by
    refine hbegins.append hcontent.nodeTokens_ne_nil ?_
    rw [htokens, follows_cons, hopening]
    simp
  obtain ⟨token, tail, hnodes, hends⟩ := exists_cons_of_isContent (by decide) hcontent
  have hslash : token.kind ≠ .openSlash := by
    intro hkind
    simp [hkind, elementValueEnds] at hends
  have hskip := skipBlanks_of_follows hall.follows
  have hmany := hchild.many_eq_nil (hskip.symm ▸ hall)
  have hread := hchild.complete_trivia leading front _ hne hleading hall
  have hhead : (nodeTokens nodes ++ (close ++ rest)).head? = some token := by
    rw [hnodes]
    rfl
  refine ReportsStrayText.append_right ?_ _
  rw [Rule.many_eq hchild.consumes, hread]
  generalize nodeTokens nodes ++ (close ++ rest) = behind at hmany hskip hhead
  simp [hmany, hskip, elementEnd, hhead, hslash, strayText, ReportsStrayText]

/-- Wherever the lexemes stand in the text, stray text is reported by the rule. -/
def StraysWhere (other : SourceText) (rule : Rule Tree.Element) (lexemes : List Lexeme) : Prop :=
  ∀ tokens rest, other.IsRun tokens → tokens.map (Token.lexeme other) = lexemes →
    ∃ parsed, rule (tokens ++ rest) = some parsed ∧ ReportsStrayText parsed.reports

/-- Wherever the lexemes stand in the text, stray text is reported in the body. -/
def BodyStraysWhere (other : SourceText) (body : Tree.Element → List Token → Parsed Tree.Element)
    (lexemes : List Lexeme) : Prop :=
  ∀ element tokens rest, other.IsRun tokens → tokens.map (Token.lexeme other) = lexemes →
    ReportsStrayText (body element (tokens ++ rest)).reports

/-- What is reported is reported whatever follows. -/
theorem BodyStraysWhere.append {body : Tree.Element → List Token → Parsed Tree.Element}
    {lexemes : List Lexeme} (h : BodyStraysWhere other body lexemes) (more : List Lexeme) :
    BodyStraysWhere other body (lexemes ++ more) := by
  intro element tokens rest hother hlexemes
  obtain ⟨part, others, rfl, hpart, -⟩ := List.map_eq_append_iff.mp hlexemes
  rw [List.append_assoc]
  exact h element part (others ++ rest) (hother.part (List.prefix_append _ _).isInfix) hpart

/-- In the body of an element, content behind a comment is stray text. -/
theorem bodyStraysWhere_comment {child : Rule Tree.Element}
    {reads : Tree.Element → List Token → Prop} (hchild : IsElementRule child reads)
    {blanks : List Token} (hblanks : AllBlank blanks) {nodes : List Tree.Node}
    (hcontent : IsContent elementValueEnds nodes) (hbegins : BeginsNoElement (nodeTokens nodes))
    (hrun : text.IsRun (nodeTokens nodes)) {closing : ClosingTag} {close : List Token}
    (hclose : ReadsClosingTag closing close) (hcomment : AreCommentKinds (comment.map Lexeme.kind)) :
    BodyStraysWhere other (nestedBody child) (comment
      ++ ((blanks ++ nodeTokens nodes).map (Token.lexeme text) ++ close.map (Token.lexeme text))) := by
  intro element tokens rest hother hlexemes
  rw [List.map_append, List.append_assoc, ← List.append_assoc] at hlexemes
  obtain ⟨front, behind, rfl, hfront, hbehind⟩ := List.map_eq_append_iff.mp hlexemes
  obtain ⟨value, marks, rfl, hvalue, hmarks⟩ := List.map_eq_append_iff.mp hbehind
  have hblanksLeading : ReadsLeading [] (blanks ++ nodeTokens []) :=
    .intro hblanks .nil (by simp [Follows])
  rw [nodeTokens_nil, List.append_nil] at hblanksLeading
  obtain ⟨leading, hleading, hne⟩ :=
    hcomment.exists_leading hblanksLeading (kinds_of_lexemes_append hfront)
  obtain ⟨read, hread, rfl, -⟩ := exists_pieces hcontent.2 hrun
    (hother.part ⟨front, marks, by simp⟩) hvalue
  have hreadContent : IsContent elementValueEnds read := by
    refine ⟨?_, hread⟩
    rintro rfl
    exact hcontent.nodeTokens_ne_nil (List.map_eq_nil_iff.mp hvalue.symm)
  have hnoElement : BeginsNoElement (nodeTokens read) := by
    rw [@beginsNoElement_iff_beginsText other, hvalue, ← beginsNoElement_iff_beginsText]
    exact hbegins
  obtain ⟨closingTag, hreadClose, -⟩ := exists_closingTag hclose hmarks
  have hstrays := strays_nestedBody_content hchild hleading hne hreadContent hnoElement hreadClose
    element rest
  simpa using hstrays

/-- Children one of which holds content behind a comment. -/
theorem exists_strays_children {child : Rule Tree.Element} {reads : Tree.Element → List Token → Prop}
    (hrule : IsElementRule child reads) (hreads : Relocates text other reads)
    (htagged : ∀ element read, reads element read → element.isTriviaOnly = false)
    (hchild : ∀ element read, reads element read → text.IsRun read →
      element.elements.flatMap (elementReports text) = [] → inner ∈ element.elements →
      ∃ front behind, read = front ++ tagEnd :: behind
        ∧ StraysWhere other child (insertBehind text front tagEnd comment behind))
    {children : List Tree.Element} {tokens : List Token} (h : ReadsChildren reads children tokens)
    (hrun : text.IsRun tokens)
    (hreports : (childElements (children.map .element)).flatMap (elementReports text) = [])
    (hinner : inner ∈ childElements (children.map .element)) :
    ∃ front behind, tokens = front ++ tagEnd :: behind ∧ ∀ others rest, other.IsRun others →
      others.map (Token.lexeme other) = insertBehind text front tagEnd comment behind →
      ReportsStrayText (child.many (others ++ rest)).reports := by
  have hnothing : IsLead (([] : List Lexeme).map Lexeme.kind) := isLead_nil
  induction h with
  | nil => simp [childElements] at hinner
  | trivia => simp [childElements, Tree.Element.isTriviaOnly] at hinner
  | @cons first siblings firstTokens restTokens hfirst hrest ih =>
    have hfirstTagged := htagged first firstTokens hfirst
    have hfirstRun := hrun.part (List.prefix_append firstTokens restTokens).isInfix
    simp only [List.map_cons, childElements, hfirstTagged, Bool.false_eq_true, if_false,
      List.flatMap_append, List.append_eq_nil_iff, List.mem_append] at hreports hinner
    obtain hinner | hinner := hinner
    · obtain ⟨front, behind, rfl, hstrays⟩ := hchild first firstTokens hfirst hfirstRun hreports.1 hinner
      refine ⟨front, behind ++ restTokens, by simp, fun others rest hother hlexemes => ?_⟩
      rw [insertBehind_append] at hlexemes
      obtain ⟨part, others, rfl, hpart, -⟩ := List.map_eq_append_iff.mp hlexemes
      obtain ⟨parsed, hparsed, hstray⟩ :=
        hstrays part (others ++ rest) (hother.part (List.prefix_append _ _).isInfix) hpart
      rw [List.append_assoc, Rule.many_eq hrule.consumes, hparsed]
      exact hstray.append_left _
    · obtain ⟨front, behind, rfl, hstrays⟩ :=
        ih (hrun.part (List.suffix_append firstTokens _).isInfix) hreports.2 hinner
      refine ⟨firstTokens ++ front, behind, by simp, fun others rest hother hlexemes => ?_⟩
      rw [append_insertBehind] at hlexemes
      obtain ⟨part, others, rfl, hpart, hothers⟩ := List.map_eq_append_iff.mp hlexemes
      obtain ⟨element, hread, -⟩ := hreads first firstTokens hfirst hfirstRun hreports.1 []
        hnothing part (hother.part (List.prefix_append _ _).isInfix) hpart
      have hstray := hstrays others rest (hother.part (List.suffix_append _ _).isInfix) hothers
      rw [List.append_assoc, Rule.many_eq hrule.consumes, hrule.complete element part _ hread]
      exact hstray.append_right _

/-- An element reports stray text that is reported in its body. -/
theorem exists_strays_elementWith {reads : List Tree.Node → List Token → Prop}
    {body : Tree.Element → List Token → Parsed Tree.Element} {element : Tree.Element}
    {read : List Token} (h : ReadsElementWith reads element read) (hrun : text.IsRun read)
    (hinner : inner ∈ element.elements) (htagEnd : inner.tagEnd = some [tagEnd])
    (hkind : tagEnd.kind = .closeAngle)
    (hself : ∀ tokens closing close, reads element.children tokens → text.IsRun tokens →
      ReadsClosingTag closing close → inner = element → BodyStraysWhere other body
        (comment ++ (tokens.map (Token.lexeme text) ++ close.map (Token.lexeme text))))
    (hbelow : ∀ tokens, reads element.children tokens → text.IsRun tokens →
      inner ∈ childElements element.children → ∃ front behind, tokens = front ++ tagEnd :: behind
        ∧ BodyStraysWhere other body (insertBehind text front tagEnd comment behind)) :
    ∃ front behind, read = front ++ tagEnd :: behind
      ∧ StraysWhere other (Rule.elementWith body)
        (insertBehind text front tagEnd comment behind) := by
  have hnothing : IsLead (([] : List Lexeme).map Lexeme.kind) := isLead_nil
  cases h with
  | @selfClosing leading front bracket name attributes last tag hleading hbracket htag hlast =>
    obtain rfl | hbelow := mem_elements_iff.mp hinner
    · obtain rfl : last = tagEnd := by simpa using htagEnd
      simp [hlast] at hkind
    · simp [childElements] at hbelow
  | @paired leading front bracket name attributes last tag children tokens closing close hleading
      hbracket htag hlast hbody hclose =>
    have htagRun : text.IsRun tag := hrun.part ⟨front ++ [bracket], tokens ++ close, by simp⟩
    have htokensRun : text.IsRun tokens := hrun.part ⟨front ++ bracket :: tag, close, by simp⟩
    -- the tag is read elsewhere, and the body behind it
    have htagWhere {lexemes : List Lexeme} (hstrays : BodyStraysWhere other body lexemes) :
        StraysWhere other (Rule.elementWith body)
          ((front ++ bracket :: tag).map (Token.lexeme text) ++ lexemes) := by
      intro others rest hother hlexemes
      obtain ⟨trivia, first, mark, token, attributes, mark', begins, behind, rfl, htrivia, hmark,
        hread, hmark', -, -, hbehind⟩ :=
        exists_leadingTag hleading hbracket htag htagRun hnothing hother hlexemes
      have hpaired := elementWith_paired body htrivia hmark hread (hmark'.trans hlast)
        (behind ++ rest)
      refine ⟨_, by simpa using hpaired, ?_⟩
      exact hstrays _ behind rest
        (hother.part (List.IsSuffix.isInfix ⟨first ++ mark :: begins, by simp⟩)) hbehind
    obtain rfl | hchild := mem_elements_iff.mp hinner
    · obtain rfl : last = tagEnd := by simpa using htagEnd
      obtain ⟨begins, rfl⟩ := htag.exists_begins
      refine ⟨front ++ bracket :: begins, tokens ++ close, by simp, ?_⟩
      have hwhole := htagWhere (hself tokens closing close hbody htokensRun hclose rfl)
      simpa [insertBehind] using hwhole
    · obtain ⟨before, behind, rfl, hstrays⟩ := hbelow tokens hbody htokensRun hchild
      refine ⟨front ++ bracket :: (tag ++ before), behind ++ close, by simp, ?_⟩
      have hwhole := htagWhere (hstrays.append (close.map (Token.lexeme text)))
      simpa [insertBehind] using hwhole

/-- Stray text is reported in an element if a comment is put behind the opening tag of an element in it
that holds content. -/
theorem exists_strays_element {levels : Nat} {element : Tree.Element} {read : List Token}
    (h : ReadsElement levels element read) (hrun : text.IsRun read)
    (hreports : element.elements.flatMap (elementReports text) = [])
    (hinner : inner ∈ element.elements) (htagEnd : inner.tagEnd = some [tagEnd])
    (hkind : tagEnd.kind = .closeAngle) (hholds : ¬HoldsNoContent inner)
    (hcomment : AreCommentKinds (comment.map Lexeme.kind)) :
    ∃ front behind, read = front ++ tagEnd :: behind
      ∧ StraysWhere other (Rule.element levels)
        (insertBehind text front tagEnd comment behind) := by
  induction levels generalizing element read with
  | zero =>
    exact exists_strays_elementWith h hrun hinner htagEnd hkind
      (fun _ _ _ hbody => hbody.elim) fun _ hbody => hbody.elim
  | succ levels ih =>
    have hrule := element_isElementRule levels
    obtain ⟨-, -, hbelow⟩ := reports_eq_nil_iff.mp hreports
    refine exists_strays_elementWith h hrun hinner htagEnd hkind
      (fun tokens closing close hbody htokens hclose hself => ?_)
      fun tokens hbody htokens hchild => ?_
    · subst hself
      rw [HoldsNoContent] at hholds
      generalize inner.children = children at hbody hholds
      cases hbody with
      | children => simp at hholds
      | text hblanks hcontent hbegins =>
        exact bodyStraysWhere_comment hrule hblanks hcontent hbegins
          (htokens.part (List.suffix_append _ _).isInfix) hclose hcomment
    · generalize element.children = children at hbody hchild hbelow
      cases hbody with
      | text => simp [childElements] at hchild
      | @children elements _ helements =>
        obtain ⟨front, behind, rfl, hstrays⟩ := exists_strays_children hrule
          (relocates_readsElement levels) (fun _ _ => not_isTriviaOnly_of_readsElement)
          (fun child read hread hrun hreports hinner => ih hread hrun hreports hinner)
          helements htokens hbelow hchild
        refine ⟨front, behind, rfl, fun opened others rest hother hlexemes => ?_⟩
        exact (hstrays others rest hother hlexemes).append_left _

end

end JobMarkup.Template

namespace JobMarkup

namespace Lexeme

/-- The lexemes of a comment without hyphens in it. -/
def ofComment (cs : List Char) : List Lexeme :=
  ⟨.openBang, ['<', '!']⟩ :: ⟨.doubleHyphen, ['-', '-']⟩
    :: (ofChars cs ++ [⟨.doubleHyphen, ['-', '-']⟩, ⟨.closeAngle, ['>']⟩])

/-- A comment without hyphens in it, in front of anything else. -/
theorem ofChars_comment {cs : List Char} (h : '-' ∉ cs) (rest : List Char) :
    ofChars ('<' :: '!' :: '-' :: '-' :: (cs ++ '-' :: '-' :: '>' :: rest))
      = ofComment cs ++ ofChars rest := by
  have hnone : trailingHyphens cs = 0 := by
    rw [trailingHyphens, List.length_eq_zero_iff, List.rtakeWhile_eq_nil_iff]
    intro hne heq
    have hlast := List.getLast_mem hne
    rw [beq_iff_eq.mp heq] at hlast
    exact h hlast
  have hends : Grammar.EndsComment (cs ++ '-' :: '-' :: '>' :: rest) cs rest :=
    ⟨rfl, by rw [hnone]; exact Even.zero⟩
  have hopening := ofChars_closed_append ⟨.openBang, ['<', '!']⟩ rfl rfl
    ('-' :: '-' :: (cs ++ '-' :: '-' :: '>' :: rest))
  rw [List.cons_append, List.cons_append, List.nil_append] at hopening
  rw [hopening, ofChars_pair_append, hends.ofChars_eq]
  simp [ofComment]

/-- Without hyphens there is no pair of hyphens. -/
theorem doubleHyphen_not_mem_ofChars {cs : List Char} (h : '-' ∉ cs) :
    .doubleHyphen ∉ (ofChars cs).map kind := by
  intro hmem
  obtain ⟨lexeme, hlexeme, hkind⟩ := List.mem_map.mp hmem
  have hfits := fits_of_mem_ofChars lexeme hlexeme
  rw [hkind, Fits] at hfits
  refine h ?_
  rw [← flatMap_chars_ofChars cs]
  exact List.mem_flatMap.mpr ⟨lexeme, hlexeme, by simp [hfits]⟩

end Lexeme

namespace Grammar

/-- Without a pair of hyphens no comment ends. -/
theorem commentContents_of_not_mem {tokens : List Token}
    (h : .doubleHyphen ∉ tokens.map Token.kind) : (commentContents tokens).2 = [] := by
  induction tokens with
  | nil => rfl
  | cons token rest ih =>
    rw [List.map_cons, List.mem_cons, not_or] at h
    rw [commentContents, if_neg fun hcut => h.1 hcut.1.symm]
    exact ih h.2

/-- The lexemes of a comment without hyphens in it have the kinds of a comment. -/
theorem areCommentKinds_ofComment {cs : List Char} (h : '-' ∉ cs) :
    AreCommentKinds ((Lexeme.ofComment cs).map Lexeme.kind) := by
  have hkinds := areCommentKinds_of_contents fun contents hcontents =>
    commentContents_of_not_mem (hcontents ▸ Lexeme.doubleHyphen_not_mem_ofChars h)
  simpa [Lexeme.ofComment] using hkinds

/-- Whether trivia begin at some tokens depends on the kinds of the tokens alone. -/
theorem trivium_of_kinds {tokens others : List Token} (h : Rule.trivium tokens = none)
    (hkinds : others.map Token.kind = tokens.map Token.kind) : Rule.trivium others = none := by
  cases others with
  | nil => rfl
  | cons token rest =>
    obtain ⟨first, behind, rfl, hfirst, hbehind⟩ := List.map_eq_cons_iff.mp hkinds.symm
    have hhead : rest.head?.map Token.kind = behind.head?.map Token.kind := by
      rw [← List.head?_map, ← List.head?_map, hbehind]
    rw [Rule.trivium_eq_none_iff] at h ⊢
    rwa [Token.isBlank, hhead, ← hfirst]

end Grammar

namespace SourceText

open Template Grammar

variable {text other : SourceText}

/-- A token stands behind the characters in front of it. -/
theorem offset_of_split {front behind : List Token} {token : Token}
    (h : text.tokens.tokens = front ++ token :: behind) :
    token.offset = (text.charsOf front).length := by
  have hplace : text.tokens.tokens = Token.place text 0 (Lexeme.ofChars text.chars) := rfl
  rw [← text.map_lexeme_tokens, h, List.map_append, Token.place_append] at hplace
  obtain ⟨-, hbehind⟩ := List.append_inj hplace (by simp [Token.length_place])
  rw [List.map_cons, Token.place] at hbehind
  rw [(List.cons.inj hbehind).1, charsOf_eq_flatMap_lexeme]
  simp

/-- Where a comment is put behind the end of a tag, its lexemes stand between those of the text. -/
theorem map_lexeme_insertComment {front behind : List Token} {tagEnd : Token}
    (htokens : text.tokens.tokens = front ++ tagEnd :: behind) (hkind : tagEnd.kind = .closeAngle)
    {cs : List Char} (hcs : '-' ∉ cs)
    (hchars : other.chars = text.charsOf front ++ '>' :: '<' :: '!' :: '-' :: '-'
      :: (cs ++ '-' :: '-' :: '>' :: text.charsOf behind)) :
    other.tokens.tokens.map (Token.lexeme other)
      = insertBehind text front tagEnd (Lexeme.ofComment cs) behind := by
  have hfront : text.IsRun (front ++ [tagEnd]) := ⟨[], behind, by simp [htokens]⟩
  have hbehind : text.IsRun behind := ⟨front ++ [tagEnd], [], by simp [htokens]⟩
  have htagEnd := hfront.fits (by simp : tagEnd ∈ front ++ [tagEnd])
  rw [hkind, Lexeme.Fits] at htagEnd
  have hborder : Lexeme.Border (text.charsOf (front ++ [tagEnd])) ('<' :: '!' :: '-' :: '-'
      :: (cs ++ '-' :: '-' :: '>' :: text.charsOf behind)) := by
    refine .of_isClosed fun lexeme hlast => ?_
    rw [hfront.ofChars_charsOf] at hlast
    obtain rfl : tagEnd.lexeme text = lexeme := by simpa using hlast
    rw [Token.kind_lexeme, hkind]
    rfl
  have hsplit : other.chars = text.charsOf (front ++ [tagEnd]) ++ ('<' :: '!' :: '-' :: '-'
      :: (cs ++ '-' :: '-' :: '>' :: text.charsOf behind)) := by
    simp [hchars, htagEnd]
  rw [other.map_lexeme_tokens, hsplit, Lexeme.ofChars_append hborder, Lexeme.ofChars_comment hcs,
    hfront.ofChars_charsOf, hbehind.ofChars_charsOf]
  simp [insertBehind]

/-! ## Documents -/

/-- The root of a document that is compiled without a report has a tag. -/
theorem not_isTriviaOnly_of_clean (hclean : text.compile.diagnostics = [])
    {tree : Tree.Document} (htree : text.compile.document = some tree) :
    tree.root.isTriviaOnly = false := by
  by_contra htrivia
  have hbound := bindElement_of_isTriviaOnly text (by simpa using htrivia)
  have hbinding := (List.append_eq_nil_iff.mp hclean).2
  rw [bindingDiagnostics_of_document_eq htree] at hbinding
  simp [Context.bindRoot, Bound.required, hbound, Bound.faultAbout, Bound.faultAt] at hbinding

/-- A document that is compiled without a report follows the grammar, and nothing is reported of its
elements. -/
theorem exists_readsDocument_of_clean (hclean : text.compile.diagnostics = [])
    {tree : Tree.Document} (htree : text.compile.document = some tree) :
    ∃ read rest, text.tokens.tokens = read ++ rest ∧ ReadsDocument tree read
      ∧ Rule.document text.tokens.tokens = some ⟨tree, rest, []⟩
      ∧ tree.root.elements.flatMap (elementReports text) = [] := by
  have htagged := not_isTriviaOnly_of_clean hclean htree
  obtain ⟨hgrammar, hbinding⟩ := List.append_eq_nil_iff.mp hclean
  obtain ⟨read, rest, htokens, hreads, hrule⟩ := text.exists_readsDocument htree hgrammar htagged
  have hread : text.IsRun read := List.IsPrefix.isInfix ⟨rest, htokens.symm⟩
  rw [text.compile_of_readsDocument hreads hread hrule] at hbinding
  exact ⟨read, rest, htokens, hreads, hrule, (List.append_eq_nil_iff.mp hbinding).1⟩

/-- No trivia follow a document. -/
theorem trivium_of_document {tokens rest : List Token} {tree : Tree.Document} {reports : List Report}
    (h : Rule.document tokens = some ⟨tree, rest, reports⟩) : Rule.trivium rest = none := by
  simp only [Rule.document, Option.map_eq_some_iff] at h
  obtain ⟨root, -, hparsed⟩ := h
  obtain rfl : (trivia root.rest).rest = rest := congrArg Parsed.rest hparsed
  exact Rule.trivium_consumes.many_declines root.rest

section

variable {tree : Tree.Document} {inner : Tree.Element} {tagEnd : Token} {comment : List Lexeme}

/-- A text with a comment behind the tag of an element that holds no content is compiled to a template
that differs in spans alone, and nothing is reported. -/
theorem exists_compile_insertBehind (hreturn : '\r' ∉ text.chars)
    (hclean : text.compile.diagnostics = []) (htree : text.compile.document = some tree)
    (hinner : inner ∈ tree.root.elements) (htagEnd : inner.tagEnd = some [tagEnd])
    (hkind : tagEnd.kind = .closeAngle) (hnone : HoldsNoContent inner)
    (hcomment : IsLead (comment.map Lexeme.kind)) :
    ∃ front behind, text.tokens.tokens = front ++ tagEnd :: behind
      ∧ (other.tokens.tokens.map (Token.lexeme other) = insertBehind text front tagEnd comment behind →
        other.compile.diagnostics = [] ∧ ∃ template root again rootAgain,
          text.compile.template = some template ∧ template.root = some root
          ∧ other.compile.template = some again ∧ again.root = some rootAgain
          ∧ again.kind = template.kind ∧ rootAgain.outline = root.outline
          ∧ again.references.uses = template.references.uses) := by
  obtain ⟨read, rest, htokens, hreads, hrule, hreports⟩ := exists_readsDocument_of_clean hclean htree
  have hread : text.IsRun read := List.IsPrefix.isInfix ⟨rest, htokens.symm⟩
  have hcompile := text.compile_of_readsDocument hreads hread hrule
  have htemplate := congrArg Compilation.template hcompile
  obtain ⟨-, hkindFirst, hreferences, hjob, -⟩ := isRereadable_of_clean hreturn hclean htemplate rfl
  cases hreads with
  | @intro root trailing read hroot htrailing =>
  obtain ⟨front, behind, rfl, hwhere⟩ := @exists_insert_element text other _ _ comment _ _ _ hroot
    (hread.part (List.prefix_append _ _).isInfix) hreports hinner htagEnd hkind hnone hcomment
  refine ⟨front, behind ++ (Tree.nodeTokens trailing ++ rest), by simp [htokens], fun hlexemes => ?_⟩
  rw [insertBehind_append, List.map_append] at hlexemes
  obtain ⟨rootTokens, others, hothers, hrootTokens, hbehind⟩ := List.map_eq_append_iff.mp hlexemes
  obtain ⟨trailingTokens, others, rfl, htrailingTokens, hrest⟩ := List.map_eq_append_iff.mp hbehind
  obtain ⟨nodes, hnodes, rfl, -⟩ := htrailing.exists_of_kinds (kinds_of_lexemes htrailingTokens)
  obtain ⟨element, helement, houtline⟩ :=
    hwhere rootTokens (List.IsPrefix.isInfix ⟨_, hothers.symm⟩) hrootTokens
  have hstops := trivium_of_kinds (trivium_of_document hrule) (kinds_of_lexemes hrest)
  have hdocument : ReadsDocument ⟨element, nodes⟩ (rootTokens ++ Tree.nodeTokens nodes) :=
    .intro helement hnodes
  have hruleAgain := document_complete hdocument hstops
  rw [List.append_assoc, ← hothers] at hruleAgain
  obtain ⟨hcleanAgain, again, rootAgain, hagain, hrootAgain, houtlineAgain, hkindAgain,
    hreferencesAgain⟩ := compile_of_hasOutline hdocument
      (List.IsPrefix.isInfix ⟨others, by simp [hothers]⟩) hruleAgain helement houtline hjob
  refine ⟨hcleanAgain, _, _, again, rootAgain, htemplate, rfl, hagain, hrootAgain, ?_, houtlineAgain,
    ?_⟩
  · rw [hkindAgain, ofRoot_congr houtlineAgain]
  · rw [hreferencesAgain, hreferences, uses_symbols_congr houtlineAgain]

/-- In a text with a comment behind the tag of an element that holds content, this content is reported
as stray text. -/
theorem exists_strays_insertBehind (hclean : text.compile.diagnostics = [])
    (htree : text.compile.document = some tree) (hinner : inner ∈ tree.root.elements)
    (htagEnd : inner.tagEnd = some [tagEnd]) (hkind : tagEnd.kind = .closeAngle)
    (hholds : ¬HoldsNoContent inner) (hcomment : AreCommentKinds (comment.map Lexeme.kind)) :
    ∃ front behind, text.tokens.tokens = front ++ tagEnd :: behind
      ∧ (other.tokens.tokens.map (Token.lexeme other) = insertBehind text front tagEnd comment behind →
        ∃ span, ⟨.grammar .invalidElementValue, span⟩ ∈ other.compile.diagnostics) := by
  obtain ⟨read, rest, htokens, hreads, hrule, hreports⟩ := exists_readsDocument_of_clean hclean htree
  have hread : text.IsRun read := List.IsPrefix.isInfix ⟨rest, htokens.symm⟩
  cases hreads with
  | @intro root trailing read hroot htrailing =>
  obtain ⟨front, behind, rfl, hstrays⟩ := @exists_strays_element text other _ _ comment _ _ _ hroot
    (hread.part (List.prefix_append _ _).isInfix) hreports hinner htagEnd hkind hholds hcomment
  refine ⟨front, behind ++ (Tree.nodeTokens trailing ++ rest), by simp [htokens], fun hlexemes => ?_⟩
  rw [insertBehind_append] at hlexemes
  obtain ⟨rootTokens, others, hothers, hrootTokens, -⟩ := List.map_eq_append_iff.mp hlexemes
  obtain ⟨parsed, hparsed, report, hmem, hfault⟩ :=
    hstrays rootTokens others (List.IsPrefix.isInfix ⟨_, hothers.symm⟩) hrootTokens
  refine ⟨other.tokens.spanOf report.about, List.mem_append_left _ ?_⟩
  rw [grammarDiagnostics_compile, readDocument, hothers, Rule.document, hparsed]
  simp only [Option.map_some, List.map_append, List.mem_append]
  exact Or.inl (List.mem_map.mpr ⟨report, hmem, by rw [Reader.diagnose, hfault]⟩)

end

/-- The characters around a bracket at the end of a tag. -/
theorem chars_of_split {front behind : List Token} {tagEnd : Token}
    (htokens : text.tokens.tokens = front ++ tagEnd :: behind) (hkind : tagEnd.kind = .closeAngle) :
    text.chars = text.charsOf front ++ '>' :: text.charsOf behind := by
  have hrun : text.IsRun text.tokens.tokens := List.infix_refl _
  have htagEnd := hrun.fits (by simp [htokens] : tagEnd ∈ text.tokens.tokens)
  rw [hkind, Lexeme.Fits] at htagEnd
  rw [← text.charsOf_tokens_tokens, htokens]
  simp [htagEnd]

/-- The lexemes of a source with a comment put behind the end of a tag. -/
theorem map_lexeme_ofString_insertComment {document : DocumentId} {before behind : String}
    {front rest : List Token} {tagEnd : Token}
    (htokens : (ofString document (before ++ ">" ++ behind)).tokens.tokens = front ++ tagEnd :: rest)
    (hkind : tagEnd.kind = .closeAngle)
    (hplace : tagEnd.offset = (normalizeLineEnds before.toList).length) {comment : String}
    (hcomment : '-' ∉ comment.toList) :
    let other := ofString document (before ++ "><!--" ++ comment ++ "-->" ++ behind)
    other.tokens.tokens.map (Token.lexeme other)
      = insertBehind (ofString document (before ++ ">" ++ behind)) front tagEnd
        (Lexeme.ofComment (normalizeLineEnds comment.toList)) rest := by
  intro other
  have hmark (a b : List Char) : normalizeLineEnds (a ++ '>' :: b)
      = normalizeLineEnds a ++ '>' :: normalizeLineEnds b := by
    rw [normalizeLineEnds_append (Or.inr (by simp)), normalizeLineEnds_cons (by decide)]
  -- the characters in front of the bracket and behind it are those of the two parts of the source
  have hangle : ">".toList = ['>'] := rfl
  have hchars := chars_of_split htokens hkind
  simp only [chars_ofString, String.toList_append, hangle, List.append_assoc, List.singleton_append,
    hmark] at hchars
  obtain ⟨hfront, hrest⟩ := List.append_inj hchars (by rw [← hplace, offset_of_split htokens])
  obtain ⟨-, hrest⟩ := List.cons.inj hrest
  refine map_lexeme_insertComment htokens hkind
    (not_mem_normalizeLineEnds (by decide) hcomment) ?_
  have hopening : "><!--".toList = ['>', '<', '!', '-', '-'] := rfl
  have hclosing : "-->".toList = ['-', '-', '>'] := rfl
  have hcons {c : Char} (hc : c ≠ '\r') (cs : List Char) := normalizeLineEnds_cons hc cs
  rw [chars_ofString, ← hfront, ← hrest]
  simp only [String.toList_append, hopening, hclosing, List.append_assoc, List.cons_append,
    List.nil_append, hmark]
  rw [hcons (by decide), hcons (by decide), hcons (by decide), hcons (by decide),
    normalizeLineEnds_append (Or.inr (by simp)), hcons (by decide), hcons (by decide),
    hcons (by decide)]

/-- A source can be cut at the end of the opening tag of an element in its tree. -/
theorem exists_split_of_tagEnd {document : DocumentId} {source : String} {tree : Tree.Document}
    {element : Tree.Element} {tagEnd : Token}
    (htree : (ofString document source).compile.document = some tree)
    (helement : element ∈ tree.root.elements) (htagEnd : element.tagEnd = some [tagEnd])
    (hkind : tagEnd.kind = .closeAngle) :
    ∃ before behind, source = before ++ ">" ++ behind
      ∧ tagEnd.offset = (normalizeLineEnds before.toList).length := by
  have hmem : tagEnd ∈ (ofString document source).tokens.tokens := by
    refine (sublist_of_document_eq htree).subset ?_
    have hroot := (Tree.Element.tokens_sublist_of_mem_elements helement).subset
      (Tree.Element.mem_tokens_of_tagEnd htagEnd)
    cases tree
    exact List.mem_append_left _ hroot
  obtain ⟨front, rest, htokens⟩ := List.append_of_mem hmem
  have hchars := chars_of_split htokens hkind
  rw [chars_ofString] at hchars
  obtain ⟨before, behind, hsource, hbefore, -⟩ :=
    exists_split_of_normalizeLineEnds (by decide) hchars
  refine ⟨String.ofList before, String.ofList behind, ?_, ?_⟩
  · rw [← String.toList_inj, hsource]
    simp
  · rw [offset_of_split htokens, String.toList_ofList, hbefore]

/-- A comment without hyphens that is put directly behind the opening tag of an element, in a source
that is compiled without a report. If the element holds no content, the source is again compiled without
a report, to a template that differs in spans alone. If it holds content, this content is no longer
read: it is reported as stray text. -/
theorem compile_insertComment (document : DocumentId) (source : String) {tree : Tree.Document}
    {element : Tree.Element} {tagEnd : Token}
    (hclean : (ofString document source).compile.diagnostics = [])
    (htree : (ofString document source).compile.document = some tree)
    (helement : element ∈ tree.root.elements) (htagEnd : element.tagEnd = some [tagEnd])
    (hkind : tagEnd.kind = .closeAngle) :
    let first := (ofString document source).compile
    ∃ before behind, source = before ++ ">" ++ behind
      ∧ tagEnd.offset = (normalizeLineEnds before.toList).length
      ∧ ∀ comment : String, '-' ∉ comment.toList →
        let second := (ofString document (before ++ "><!--" ++ comment ++ "-->" ++ behind)).compile
        (HoldsNoContent element → second.diagnostics = []
          ∧ (∃ template root again rootAgain, first.template = some template
            ∧ template.root = some root ∧ second.template = some again
            ∧ again.root = some rootAgain ∧ again.kind = template.kind
            ∧ rootAgain.outline = root.outline
            ∧ again.references.uses = template.references.uses)
          ∧ ∀ values, second.instantiate values = first.instantiate values)
        ∧ (¬HoldsNoContent element →
          ∃ span, ⟨.grammar .invalidElementValue, span⟩ ∈ second.diagnostics) := by
  intro first
  have hreturn : '\r' ∉ (ofString document source).chars := by
    rw [chars_ofString]
    exact return_not_mem_normalizeLineEnds _
  obtain ⟨before, behind, rfl, hoffset⟩ := exists_split_of_tagEnd htree helement htagEnd hkind
  refine ⟨_, _, rfl, hoffset, ?_⟩
  intro comment hcomment second
  have hkinds := areCommentKinds_ofComment
    (not_mem_normalizeLineEnds (by decide : '-' ≠ '\n') hcomment)
  constructor
  · intro hnone
    obtain ⟨front, rest, htokens, hinserted⟩ := exists_compile_insertBehind hreturn hclean htree
      helement htagEnd hkind hnone hkinds.isLead
    obtain ⟨hcleanAgain, template, root, again, rootAgain, htemplate, hroot, hagain, hrootAgain,
      hkindAgain, houtline, huses⟩ :=
      hinserted (map_lexeme_ofString_insertComment htokens hkind hoffset hcomment)
    refine ⟨hcleanAgain, ⟨template, root, again, rootAgain, htemplate, hroot, hagain, hrootAgain,
      hkindAgain, houtline, huses⟩, fun values => ?_⟩
    rw [← String.toList_inj, toList_instantiate_compile hagain hrootAgain,
      toList_instantiate_compile htemplate hroot, houtline]
  · intro hholds
    obtain ⟨front, rest, htokens, hinserted⟩ :=
      exists_strays_insertBehind hclean htree helement htagEnd hkind hholds hkinds
    exact hinserted (map_lexeme_ofString_insertComment htokens hkind hoffset hcomment)

/-- The opening tag of the root of a tree, and what stands behind it. -/
theorem exists_opening {offset : Nat} {tree : Option Tree.Document}
    {children : List Tree.NodeKind}
    (h : tree.map (fun tree => (tree.root.tagEnd.map (List.map fun token => (token.kind, token.offset)),
      tree.root.children.map Tree.Node.kind)) = some (some [(.closeAngle, offset)], children)) :
    ∃ whole tagEnd, tree = some whole ∧ whole.root.tagEnd = some [tagEnd]
      ∧ tagEnd.kind = .closeAngle ∧ tagEnd.offset = offset
      ∧ whole.root.children.map Tree.Node.kind = children := by
  obtain ⟨whole, rfl, hread⟩ := Option.map_eq_some_iff.mp h
  obtain ⟨htagEnd, hchildren⟩ := Prod.mk.inj hread
  obtain ⟨tokens, htokens, hkinds⟩ := Option.map_eq_some_iff.mp htagEnd
  obtain ⟨tagEnd, others, rfl, hpair, hothers⟩ := List.map_eq_cons_iff.mp hkinds
  obtain rfl := List.map_eq_nil_iff.mp hothers
  obtain ⟨hkind, hoffset⟩ := Prod.mk.inj hpair
  exact ⟨whole, tagEnd, rfl, htokens, hkind, hoffset, hchildren⟩

/-- In front of a blank and a child with a variable. -/
theorem compile_insertComment_child :
    let source := "<job> <a x=\"@\x7bn/k\x7d@\"/></job>"
    let first := (ofString (.ofNat 0) source).compile
    ∃ tree tagEnd, first.diagnostics = [] ∧ first.document = some tree
      ∧ tree.root ∈ tree.root.elements ∧ tree.root.tagEnd = some [tagEnd]
      ∧ tagEnd.kind = .closeAngle ∧ HoldsNoContent tree.root
      ∧ ∃ before behind, source = before ++ ">" ++ behind
        ∧ tagEnd.offset = (normalizeLineEnds before.toList).length
        ∧ let second := (ofString (.ofNat 0) (before ++ "><!--" ++ "c" ++ "-->" ++ behind)).compile
          second.diagnostics = [] ∧ ∀ values, second.instantiate values = first.instantiate values := by
  intro source first
  have hclean : first.diagnostics = [] := by decide +kernel
  obtain ⟨tree, tagEnd, htree, htagEnd, hkind, -, hchildren⟩ :=
    @exists_opening 4 first.document [.element] (by decide +kernel)
  have helement : tree.root ∈ tree.root.elements := mem_elements_iff.mpr (Or.inl rfl)
  have hnone : HoldsNoContent tree.root := by
    intro nodes hmem
    have hkinds : Tree.NodeKind.content ∈ tree.root.children.map Tree.Node.kind :=
      List.mem_map.mpr ⟨_, hmem, rfl⟩
    rw [hchildren] at hkinds
    simp at hkinds
  obtain ⟨before, behind, hsource, hplace, hall⟩ :=
    compile_insertComment (.ofNat 0) source hclean htree helement htagEnd hkind
  obtain ⟨hsecond, -, hvalues⟩ := (hall "c" (by decide)).1 hnone
  exact ⟨tree, tagEnd, hclean, htree, helement, htagEnd, hkind, hnone, before, behind, hsource,
    hplace, hsecond, hvalues⟩

/-- Comments do not leave every element as it is: content behind one is reported. -/
theorem not_forall_insertComment :
    ¬∀ (source before behind comment : String) (tree : Tree.Document) (element : Tree.Element)
      (tagEnd : Token), (ofString (.ofNat 0) source).compile.diagnostics = [] →
      (ofString (.ofNat 0) source).compile.document = some tree →
      element ∈ tree.root.elements → element.tagEnd = some [tagEnd] → tagEnd.kind = .closeAngle →
      source = before ++ ">" ++ behind →
      tagEnd.offset = (normalizeLineEnds before.toList).length → '-' ∉ comment.toList →
      (ofString (.ofNat 0)
        (before ++ "><!--" ++ comment ++ "-->" ++ behind)).compile.diagnostics = [] := by
  intro hall
  obtain ⟨tree, tagEnd, htree, htagEnd, hkind, hplace, -⟩ :=
    @exists_opening 2 (ofString (.ofNat 0) "<a>text</a>").compile.document [.content]
      (by decide +kernel)
  have hreported : (ofString (.ofNat 0) "<a><!--c-->text</a>").compile.diagnostics ≠ [] := by
    decide +kernel
  exact hreported (hall "<a>text</a>" "<a" "text</a>" "c" tree tree.root tagEnd (by decide +kernel)
    htree (mem_elements_iff.mpr (Or.inl rfl)) htagEnd hkind rfl hplace (by decide))

end SourceText

end JobMarkup
