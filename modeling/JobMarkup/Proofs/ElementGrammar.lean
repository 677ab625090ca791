import JobMarkup.Proofs.TagGrammar

/-!
# The grammar of elements and documents

An element that is read without a report has complete tags. Between its tags stand children, or
content in which no element begins, and at the greatest depth it closes itself. The grammar is a
relation between an element and the tokens that are read for it; it goes down level by level, as the
rule for elements does. Trivia that no tag follows are an element without a tag, which stands behind
all other children.
-/

namespace JobMarkup.Grammar

open JobMarkup.Tree

/-- Blanks, which are left out, and the trivia in front of a tag. -/
inductive ReadsLeading : List Node → List Token → Prop
  | intro {blanks nodes} : AllBlank blanks → IsTrivia nodes → Follows NotBlank (nodeTokens nodes) →
      ReadsLeading nodes (blanks ++ nodeTokens nodes)

/-- An element with complete tags, given what may be read between them. -/
inductive ReadsElementWith (body : List Node → List Token → Prop) : Element → List Token → Prop
  | selfClosing {leading front bracket name attributes tagEnd tag} : ReadsLeading leading front →
      bracket.kind = .openAngle → ReadsOpenTag name attributes tagEnd tag →
      tagEnd.kind = .slashClose →
      ReadsElementWith body ⟨leading, some [bracket], some [name], attributes, some [tagEnd], [], none⟩
        (front ++ bracket :: tag)
  | paired {leading front bracket name attributes tagEnd tag children inner closing close} :
      ReadsLeading leading front → bracket.kind = .openAngle →
      ReadsOpenTag name attributes tagEnd tag → tagEnd.kind = .closeAngle → body children inner →
      ReadsClosingTag closing close →
      ReadsElementWith body
        ⟨leading, some [bracket], some [name], attributes, some [tagEnd], children, some closing⟩
        (front ++ bracket :: (tag ++ (inner ++ close)))

/-- Children of an element up to its closing tag. Only the last one can be without a tag. -/
inductive ReadsChildren (reads : Element → List Token → Prop) : List Element → List Token → Prop
  | nil {blanks} : AllBlank blanks → ReadsChildren reads [] blanks
  | trivia {leading front} : leading ≠ [] → ReadsLeading leading front →
      ReadsChildren reads [{ leadingTrivia := leading }] front
  | cons {child others first rest} : reads child first → ReadsChildren reads others rest →
      ReadsChildren reads (child :: others) (first ++ rest)

/-- What stands between the tags of an element: children, or blanks and content. -/
inductive ReadsBody (reads : Element → List Token → Prop) : List Node → List Token → Prop
  | children {children tokens} : ReadsChildren reads children tokens →
      ReadsBody reads (children.map .element) tokens
  | text {blanks nodes} : AllBlank blanks → IsContent elementValueEnds nodes →
      BeginsNoElement (nodeTokens nodes) →
      ReadsBody reads [.content nodes] (blanks ++ nodeTokens nodes)

/-- An element with complete tags that may hold elements down to the given number of levels. -/
def ReadsElement : (levels : Nat) → Element → List Token → Prop
  | 0 => ReadsElementWith fun _ _ => False
  | levels + 1 => ReadsElementWith (ReadsBody (ReadsElement levels))

/-- A document whose root has a tag, and the tokens that are read for it. -/
inductive ReadsDocument : Document → List Token → Prop
  | intro {root trailing tokens} : ReadsElement maxDepth root tokens → IsTrivia trailing →
      ReadsDocument ⟨root, trailing⟩ (tokens ++ nodeTokens trailing)

/-! ## Bodies -/

/-- A body function reads what a relation allows, and the closing tag behind it. -/
structure IsBody (body : Element → List Token → Parsed Element)
    (reads : List Node → List Token → Prop) : Prop where
  sound : ∀ element tokens, (body element tokens).reports = [] →
    ∃ children inner closing close, tokens = inner ++ (close ++ (body element tokens).rest)
      ∧ (body element tokens).value = { element with children, closingTag := some closing }
      ∧ reads children inner ∧ ReadsClosingTag closing close
  complete : ∀ element children inner closing close rest, reads children inner →
    ReadsClosingTag closing close →
    body element (inner ++ (close ++ rest))
      = ⟨{ element with children, closingTag := some closing }, rest, []⟩

/-- A rule for children reads what a relation allows, and trivia without a tag. -/
structure IsElementRule (rule : Rule Element) (reads : Element → List Token → Prop) : Prop where
  consumes : rule.Consumes
  sound : ∀ tokens parsed, rule tokens = some parsed → parsed.reports = [] →
    ∃ read, tokens = read ++ parsed.rest ∧ (reads parsed.value read
      ∨ ∃ leading, parsed.value = { leadingTrivia := leading } ∧ leading ≠ []
        ∧ ReadsLeading leading read ∧ BeginsNoElement parsed.rest)
  complete : ∀ element read rest, reads element read →
    rule (read ++ rest) = some ⟨element, rest, []⟩
  complete_trivia : ∀ leading read rest, leading ≠ [] → ReadsLeading leading read →
    BeginsNoElement rest → rule (read ++ rest) = some ⟨{ leadingTrivia := leading }, rest, []⟩
  declines_iff : ∀ tokens, rule tokens = none ↔ BeginsNoElement (skipBlanks tokens)

/-- An element is closed without a report only by a complete closing tag. -/
theorem closeElement_sound {element : Element} {tokens : List Token}
    (h : (closeElement element tokens).reports = []) :
    ∃ closing close, tokens = close ++ (closeElement element tokens).rest
      ∧ (closeElement element tokens).value = { element with closingTag := some closing }
      ∧ ReadsClosingTag closing close := by
  rw [closeElement] at h ⊢
  obtain ⟨hclosing, hmissing⟩ := List.append_eq_nil_iff.mp h
  rw [Rule.optional] at hclosing hmissing ⊢
  split at hmissing
  · next closing htag =>
    simp only [htag] at hclosing ⊢
    obtain ⟨close, htokens, hclose⟩ := Rule.closingTag_sound htag hclosing
    exact ⟨closing.value, close, htokens, rfl, hclose⟩
  · simp [reportIf] at hmissing

/-- A complete closing tag closes an element without a report, whatever follows it. -/
theorem closeElement_complete (element : Element) {closing : ClosingTag} {close : List Token}
    (h : ReadsClosingTag closing close) (rest : List Token) :
    closeElement element (close ++ rest)
      = ⟨{ element with closingTag := some closing }, rest, []⟩ := by
  have hread := Rule.closingTag_complete h rest
  simp [closeElement, Rule.optional, hread, Parsed.map, reportIf]

/-- Nothing is read at the greatest depth without a report. -/
theorem rawBody_isBody : IsBody rawBody fun _ _ => False := by
  refine ⟨?_, ?_⟩
  · intro element tokens h
    simp [rawBody] at h
  · intro element children inner closing close rest h
    exact absurd h id

/-- A closing tag begins with its mark, which ends content and begins no element. -/
theorem ReadsClosingTag.exists_cons {closing : ClosingTag} {close : List Token}
    (h : ReadsClosingTag closing close) (rest : List Token) :
    ∃ opening others, close ++ rest = opening :: others ∧ opening.kind = .openSlash := by
  obtain ⟨hopening, -, -, -, -⟩ := h
  exact ⟨_, _, rfl, hopening⟩

/-- No element begins with the mark of a closing tag, so the children of an element end there. -/
theorem beginsNoElement_openSlash {opening : Token} (h : opening.kind = .openSlash)
    (rest : List Token) : BeginsNoElement (opening :: rest) := by
  simp [BeginsNoElement, Token.isBlank, h, TokenKind.isBlank]

/-- Where the body of an element without children is read without a report, it is a text and then a
closing tag. -/
theorem textBody_sound {element : Element} {tokens : List Token}
    (h : (textBody element tokens).reports = []) :
    ∃ nodes closing close,
      tokens = nodeTokens nodes ++ (close ++ (textBody element tokens).rest)
        ∧ (textBody element tokens).value
          = { element with children := contentNode nodes, closingTag := some closing }
        ∧ (nodes = [] ∨ IsContent elementValueEnds nodes) ∧ ReadsClosingTag closing close := by
  rw [textBody] at h ⊢
  obtain ⟨hcontents, hclosed⟩ := List.append_eq_nil_iff.mp h
  have hexact := (Rule.content_exact elementValueEnds).optional_nodes tokens
  obtain ⟨closing, close, hrest, hvalue, hclose⟩ := closeElement_sound hclosed
  refine ⟨_, closing, close, ?_, hvalue, ?_, hclose⟩
  · rw [← hrest]
    exact hexact.symm
  · have hsound := (Rule.content_sound elementValueEnds).optional hcontents
    cases hnodes : ((Rule.content elementValueEnds).optional tokens).value with
    | none => exact Or.inl rfl
    | some nodes => exact Or.inr (hsound nodes hnodes)

/-- Content in front of a complete closing tag is read as the body of an element, and so is no
content. -/
theorem textBody_complete (element : Element) (nodes : List Node) {closing : ClosingTag}
    {close : List Token} (hclose : ReadsClosingTag closing close)
    (hnodes : nodes = [] ∨ IsContent elementValueEnds nodes) (rest : List Token) :
    textBody element (nodeTokens nodes ++ (close ++ rest))
      = ⟨{ element with children := contentNode nodes, closingTag := some closing }, rest, []⟩ := by
  obtain ⟨opening, others, htokens, hopening⟩ := hclose.exists_cons rest
  have hends : opening.kind ∈ elementValueEnds := by simp [hopening, elementValueEnds]
  have hclosed := closeElement_complete { element with children := contentNode nodes } hclose rest
  obtain rfl | hcontent := hnodes
  · have hdeclines : Rule.content elementValueEnds (close ++ rest) = none := by
      rw [htokens]
      exact Rule.content_declines hends
    simp [textBody, Rule.optional, hdeclines, hclosed]
  · have hread := Rule.content_complete (by decide) nodes hcontent (close ++ rest) (by
      rw [htokens]
      exact follows_cons.mpr hends)
    simp [textBody, Rule.optional, hread, Parsed.map, hclosed]

/-- Without children, only blanks are read. -/
theorem ReadsChildren.allBlank {reads : Element → List Token → Prop} {read : List Token}
    (h : ReadsChildren reads [] read) : AllBlank read := by
  cases h with
  | nil hblanks => exact hblanks

section Children

variable {child : Rule Element} {reads : Element → List Token → Prop}

/-- No child is read where no element begins. -/
theorem IsElementRule.many_eq_nil (hchild : IsElementRule child reads) {tokens : List Token}
    (h : BeginsNoElement (skipBlanks tokens)) : child.many tokens = ⟨[], tokens, []⟩ := by
  rw [Rule.many_eq hchild.consumes, (hchild.declines_iff tokens).mpr h]

/-- Children without a report, and the blanks behind them. -/
theorem children_sound (hchild : IsElementRule child reads) {tokens : List Token}
    (h : (child.many tokens).reports = []) :
    ∃ read, tokens = read ++ skipBlanks (child.many tokens).rest
      ∧ ReadsChildren reads (child.many tokens).value read
      ∧ BeginsNoElement (skipBlanks (child.many tokens).rest) := by
  generalize hlength : tokens.length = length
  induction length using Nat.strong_induction_on generalizing tokens with
  | _ length ih =>
    rw [Rule.many_eq hchild.consumes] at h ⊢
    split at h
    · next hnone =>
      exact ⟨tokens.takeWhile Token.isBlank, (takeWhile_append_skipBlanks tokens).symm,
        .nil (allBlank_takeWhile tokens), (hchild.declines_iff tokens).mp hnone⟩
    next first hfirst =>
    have hlt := (hchild.consumes tokens first hfirst).2
    obtain ⟨hfirstReports, hothers⟩ := List.append_eq_nil_iff.mp h
    obtain ⟨read, hread, hvalue⟩ := hchild.sound tokens first hfirst hfirstReports
    obtain hreads | ⟨leading, hfirstValue, hne, hleading, hnoElement⟩ := hvalue
    · obtain ⟨rest, hrest, hchildren, hbehind⟩ := ih _ (hlength ▸ hlt) hothers rfl
      refine ⟨read ++ rest, ?_, .cons hreads hchildren, hbehind⟩
      rw [List.append_assoc, ← hrest, hread]
    · -- nothing is read behind trivia without a tag
      have hskip := skipBlanks_of_follows hnoElement.follows
      rw [hchild.many_eq_nil (by rwa [hskip]), hfirstValue]
      exact ⟨read, by rw [hskip, hread], .trivia hne hleading, by rwa [hskip]⟩

/-- Children are read one after the other, whatever is reported in them. They may be read with a view
of their own. -/
theorem many_eq_of_readsChildren (hchild : IsElementRule child reads)
    {lower : Element → List Token → Prop} {children : List Element} {read : List Token}
    (h : ReadsChildren lower children read) {view : Element → Element}
    {reports : Element → List Report} {rest : List Token} (hrest : BeginsNoElement rest)
    (htrivia : ∀ leading, view { leadingTrivia := leading } = { leadingTrivia := leading }
      ∧ reports { leadingTrivia := leading } = [])
    (hchildren : ∀ element ∈ children, ∀ first behind, lower element first →
      first ++ behind <:+ read ++ rest →
      child (first ++ behind) = some ⟨view element, behind, reports element⟩) :
    (child.many (read ++ rest)).value = children.map view
      ∧ (child.many (read ++ rest)).reports = children.flatMap reports
      ∧ skipBlanks (child.many (read ++ rest)).rest = rest := by
  induction h with
  | @nil blanks hblanks =>
    have hskip := skipBlanks_append hblanks hrest.follows
    rw [hchild.many_eq_nil (by rwa [hskip])]
    exact ⟨rfl, rfl, hskip⟩
  | @trivia leading front hne hleading =>
    have hskip := skipBlanks_of_follows hrest.follows
    have hmany : child.many rest = ⟨[], rest, []⟩ := hchild.many_eq_nil (by rwa [hskip])
    obtain ⟨hview, hnone⟩ := htrivia leading
    rw [Rule.many_eq hchild.consumes, hchild.complete_trivia leading front rest hne hleading hrest]
    exact ⟨by simp [hmany, hview], by simp [hmany, hnone], by simp [hmany, hskip]⟩
  | @cons element others first read hfirst _ ih =>
    obtain ⟨hthis, hothers⟩ := List.forall_mem_cons.mp hchildren
    obtain ⟨hvalue, hreports, hbehind⟩ := ih fun other hmem first' behind hother hsuffix => by
      refine hothers other hmem first' behind hother (hsuffix.trans ?_)
      rw [List.append_assoc]
      exact List.suffix_append _ _
    have hread := hthis first (read ++ rest) hfirst (by simp)
    rw [List.append_assoc, Rule.many_eq hchild.consumes, hread]
    exact ⟨by simp [hvalue], by simp [hreports], hbehind⟩

/-- Children are read one after the other, up to where no element begins. -/
theorem children_complete (hchild : IsElementRule child reads) {children : List Element}
    {read : List Token} (h : ReadsChildren reads children read) {rest : List Token}
    (hrest : BeginsNoElement rest) :
    (child.many (read ++ rest)).value = children ∧ (child.many (read ++ rest)).reports = []
      ∧ skipBlanks (child.many (read ++ rest)).rest = rest := by
  obtain ⟨hvalue, hreports, hbehind⟩ := @many_eq_of_readsChildren child reads hchild reads children
    read h id (fun _ => []) rest hrest (fun _ => ⟨rfl, rfl⟩) fun element _ first behind hfirst _ =>
      hchild.complete element first behind hfirst
  exact ⟨by simpa using hvalue, hreports.trans (List.flatMap_eq_nil_iff.mpr fun _ _ => rfl),
    hbehind⟩

/-- A body without a report holds children that are read without one, or content in which no element
begins, and it is closed. -/
theorem nestedBody_sound (hchild : IsElementRule child reads) {element : Element}
    {tokens : List Token} (h : (nestedBody child element tokens).reports = []) :
    ∃ children inner closing close,
      tokens = inner ++ (close ++ (nestedBody child element tokens).rest)
        ∧ (nestedBody child element tokens).value
          = { element with children, closingTag := some closing }
        ∧ ReadsBody reads children inner ∧ ReadsClosingTag closing close := by
  rw [nestedBody] at h ⊢
  obtain ⟨hchildrenReports, hend⟩ := List.append_eq_nil_iff.mp h
  obtain ⟨read, hread, hchildren, hbehind⟩ := children_sound hchild hchildrenReports
  rw [elementEnd] at hend ⊢
  split at hend
  · next hnone =>
    rw [if_pos hnone]
    obtain ⟨nodes, closing, close, htokens, hvalue, hnodes, hclose⟩ := textBody_sound hend
    have hvalues : (child.many tokens).value = [] := by simpa using hnone
    rw [hvalues] at hchildren
    refine ⟨contentNode nodes, read ++ nodeTokens nodes, closing, close, ?_, hvalue, ?_, hclose⟩
    · rw [List.append_assoc, ← htokens]
      exact hread
    obtain rfl | hcontent := hnodes
    · simpa [contentNode] using ReadsBody.children hchildren
    · rw [htokens] at hbehind
      have hnode : contentNode nodes = [.content nodes] := by simp [contentNode, hcontent.1]
      rw [hnode]
      exact .text hchildren.allBlank hcontent hbehind.of_append
  · next hsome =>
    rw [if_neg hsome]
    split at hend
    · next hslash =>
      rw [if_pos hslash]
      obtain ⟨closing, close, htokens, hvalue, hclose⟩ := closeElement_sound hend
      refine ⟨_, read, closing, close, ?_, hvalue, .children hchildren, hclose⟩
      rw [← htokens]
      exact hread
    · simp [strayText] at hend

/-- Behind children the closing tag of their parent is read, whatever has been reported in them. -/
theorem nestedBody_of_many (element : Element) {tokens : List Token} {children : List Element}
    {reports : List Report} (hvalue : (child.many tokens).value = children)
    (hreports : (child.many tokens).reports = reports) {closing : ClosingTag}
    {close rest : List Token} (hclose : ReadsClosingTag closing close)
    (hbehind : skipBlanks (child.many tokens).rest = close ++ rest) :
    nestedBody child element tokens
      = ⟨{ element with children := children.map .element, closingTag := some closing },
        rest, reports⟩ := by
  obtain ⟨opening, others, htokens, hopening⟩ := hclose.exists_cons rest
  rw [nestedBody, hvalue, hreports, hbehind, elementEnd]
  split
  · next hnone =>
    have hnil : children.map Node.element = [] := List.isEmpty_iff.mp hnone
    have htext := textBody_complete { element with children := children.map .element } [] hclose
      (Or.inl rfl) rest
    rw [nodeTokens_nil, List.nil_append] at htext
    rw [htext, hnil]
    simp [contentNode]
  · have hslash : (close ++ rest).head?.all (fun token => token.kind == .openSlash) = true := by
      simp [htokens, hopening]
    rw [if_pos hslash, closeElement_complete _ hclose]
    simp

/-- Children and a closing tag are read as such. -/
theorem nestedBody_children (hchild : IsElementRule child reads) (element : Element)
    {children : List Element} {inner : List Token} (h : ReadsChildren reads children inner)
    {closing : ClosingTag} {close : List Token} (hclose : ReadsClosingTag closing close)
    (rest : List Token) :
    nestedBody child element (inner ++ (close ++ rest))
      = ⟨{ element with children := children.map .element, closingTag := some closing },
        rest, []⟩ := by
  obtain ⟨opening, others, htokens, hopening⟩ := hclose.exists_cons rest
  have hnoElement : BeginsNoElement (close ++ rest) := by
    rw [htokens]
    exact beginsNoElement_openSlash hopening others
  obtain ⟨hvalue, hreports, hbehind⟩ := children_complete hchild h hnoElement
  exact nestedBody_of_many element hvalue hreports hclose hbehind

/-- Content and a closing tag are read as such, if no element begins with the content. -/
theorem nestedBody_text (hchild : IsElementRule child reads) (element : Element)
    {blanks : List Token} (hblanks : AllBlank blanks) {nodes : List Node}
    (hcontent : IsContent elementValueEnds nodes) (hbegins : BeginsNoElement (nodeTokens nodes))
    {closing : ClosingTag} {close : List Token} (hclose : ReadsClosingTag closing close)
    (rest : List Token) :
    nestedBody child element (blanks ++ (nodeTokens nodes ++ (close ++ rest)))
      = ⟨{ element with children := [.content nodes], closingTag := some closing }, rest, []⟩ := by
  obtain ⟨opening, others, htokens, hopening⟩ := hclose.exists_cons rest
  have hall : BeginsNoElement (nodeTokens nodes ++ (close ++ rest)) := by
    refine hbegins.append hcontent.nodeTokens_ne_nil ?_
    rw [htokens, follows_cons, hopening]
    simp
  have hskip := skipBlanks_append hblanks hall.follows
  have htext := textBody_complete { element with children := [] } nodes hclose
    (Or.inr hcontent) rest
  have hnode : contentNode nodes = [.content nodes] := by simp [contentNode, hcontent.1]
  rw [hnode] at htext
  rw [nestedBody, hchild.many_eq_nil (by rwa [hskip]), hskip]
  simp [elementEnd, htext]

/-- Bodies that hold elements are bodies as the grammar has them, one level above their children. -/
theorem nestedBody_isBody (hchild : IsElementRule child reads) :
    IsBody (nestedBody child) (ReadsBody reads) where
  sound _ _ h := nestedBody_sound hchild h
  complete element children inner closing close rest h hclose := by
    cases h with
    | children hchildren => exact nestedBody_children hchild element hchildren hclose rest
    | text hblanks hcontent hbegins =>
      rw [List.append_assoc]
      exact nestedBody_text hchild element hblanks hcontent hbegins hclose rest

end Children

/-! ## Elements -/

/-- What is read in front of a tag without a report is trivia, and no more trivia follow. -/
theorem leading_sound {tokens : List Token} (h : (trivia (skipBlanks tokens)).reports = []) :
    ∃ front, tokens = front ++ (trivia (skipBlanks tokens)).rest
      ∧ ReadsLeading (trivia (skipBlanks tokens)).value front
      ∧ Rule.trivium (trivia (skipBlanks tokens)).rest = none := by
  obtain ⟨htrivia, hrest⟩ := trivia_sound h
  have hfollows := follows_skipBlanks tokens
  rw [← tokens_trivia (skipBlanks tokens)] at hfollows
  refine ⟨_, ?_, .intro (allBlank_takeWhile tokens) htrivia hfollows.of_append, hrest⟩
  rw [List.append_assoc, tokens_trivia, takeWhile_append_skipBlanks]

/-- Blanks and the trivia behind them are read up to where no further trivia begin. -/
theorem leading_complete {leading : List Node} {front : List Token}
    (h : ReadsLeading leading front) {rest : List Token} (hrest : Rule.trivium rest = none) :
    trivia (skipBlanks (front ++ rest)) = ⟨leading, rest, []⟩ := by
  obtain ⟨hblanks, htrivia, hfollows⟩ := h
  rw [List.append_assoc, skipBlanks_append hblanks
    (hfollows.append (follows_of_trivium_eq_none hrest)), trivia_complete htrivia hrest]

/-- A tag ends with an angle bracket, with a slash in front of it or without. -/
theorem tagEnd_cases {tagEnd : Token} (h : tagEnd.isTagEnd = true) :
    tagEnd.kind = .closeAngle ∨ tagEnd.kind = .slashClose := by
  rw [Token.isTagEnd] at h
  cases hkind : tagEnd.kind <;> simp_all [TokenKind.isTagEnd]

/-- The last token of an opening tag ends it. -/
theorem ReadsOpenTag.isTagEnd {name tagEnd : Token} {attributes : List Attribute}
    {read : List Token} (h : ReadsOpenTag name attributes tagEnd read) :
    tagEnd.isTagEnd = true := by
  obtain ⟨-, -, -, -, hend⟩ := h
  exact hend

/-- An opening tag ends with its mark. -/
theorem ReadsOpenTag.exists_begins {name tagEnd : Token} {attributes : List Attribute}
    {tag : List Token} (h : ReadsOpenTag name attributes tagEnd tag) :
    ∃ begins, tag = begins ++ [tagEnd] := by
  obtain ⟨-, -, -, -, -⟩ := h
  rename_i before tokens behind
  exact ⟨before ++ name :: (tokens ++ behind), by simp⟩

/-- An element that is read behind its bracket without a report has the tokens that the grammar
gives it, given that its body has. -/
theorem taggedElement_sound {body : Element → List Token → Parsed Element}
    {reads : List Node → List Token → Prop} (hbody : IsBody body reads) {leading : List Node}
    {front : List Token} (hleading : ReadsLeading leading front) {bracket : Token}
    (hbracket : bracket.kind = .openAngle) {tokens : List Token}
    (h : (taggedElement body leading [bracket] tokens).reports = []) :
    ∃ read, tokens = read ++ (taggedElement body leading [bracket] tokens).rest
      ∧ ReadsElementWith reads (taggedElement body leading [bracket] tokens).value
        (front ++ bracket :: read) := by
  have hopenReports : (openTag leading [bracket] tokens).reports = [] := by
    rw [taggedElement] at h
    split at h
    · exact (List.append_eq_nil_iff.mp h).1
    · exact h
  obtain ⟨name, attributes, tagEnd, tag, htokens, hvalue, htag⟩ := openTag_sound hopenReports
  rw [taggedElement] at h ⊢
  split at h
  · next hhas =>
    rw [if_pos hhas]
    rw [hvalue] at h hhas ⊢
    obtain ⟨children, inner, closing, close, hrest, hfilled, hinner, hclose⟩ :=
      hbody.sound _ _ (List.append_eq_nil_iff.mp h).2
    have hkind : tagEnd.kind = .closeAngle := by
      simpa [hasBody, Element.tagEndKind] using hhas
    refine ⟨tag ++ (inner ++ close), ?_, ?_⟩
    · rw [List.append_assoc, List.append_assoc, ← hrest, ← htokens]
    · rw [hfilled]
      exact .paired hleading hbracket htag hkind hinner hclose
  · next hhas =>
    rw [if_neg hhas]
    rw [hvalue] at hhas ⊢
    have hkind : tagEnd.kind ≠ .closeAngle := by
      simpa [hasBody, Element.tagEndKind] using hhas
    exact ⟨tag, htokens,
      .selfClosing hleading hbracket htag ((tagEnd_cases htag.isTagEnd).resolve_left hkind)⟩

section ElementWith

variable {body : Element → List Token → Parsed Element} {reads : List Node → List Token → Prop}

/-- An element without a report has complete tags with a body of the grammar between them, or it is
nothing but trivia. -/
theorem elementWith_sound (hbody : IsBody body reads) {tokens : List Token} {parsed : Parsed Element}
    (h : Rule.elementWith body tokens = some parsed) (hreports : parsed.reports = []) :
    ∃ read, tokens = read ++ parsed.rest ∧ (ReadsElementWith reads parsed.value read
      ∨ ∃ leading, parsed.value = { leadingTrivia := leading } ∧ leading ≠ []
        ∧ ReadsLeading leading read ∧ BeginsNoElement parsed.rest) := by
  rw [Rule.elementWith] at h
  split at h
  · next bracket hbracket =>
    obtain rfl := Option.some.inj h
    obtain ⟨hleadingReports, htagged⟩ := List.append_eq_nil_iff.mp hreports
    obtain ⟨front, hfront, hleading, -⟩ := leading_sound hleadingReports
    obtain ⟨token, hkind, hvalue⟩ := Rule.token_eq_some hbracket
    have hexact := Rule.token_exact _ _ bracket hbracket
    rw [hvalue] at htagged hexact ⊢
    obtain ⟨read, hread, hreads⟩ :=
      taggedElement_sound hbody hleading (by simpa using hkind) htagged
    refine ⟨_, ?_, Or.inl hreads⟩
    rw [List.append_assoc, List.cons_append, ← hread]
    exact hfront.trans (congrArg (front ++ ·) hexact.symm)
  · next hbracket =>
    simp only [Option.ite_none_left_eq_some, Option.some.injEq] at h
    obtain ⟨hne, rfl⟩ := h
    obtain ⟨front, hfront, hleading, hrest⟩ := leading_sound hreports
    exact ⟨front, hfront, Or.inr ⟨_, rfl, mt List.isEmpty_iff.mpr hne, hleading,
      beginsNoElement_iff.mpr ⟨hrest, hbracket⟩⟩⟩

/-- A tag that closes itself is read as such. -/
theorem elementWith_selfClosing (body : Element → List Token → Parsed Element) {leading : List Node}
    {front : List Token} (hleading : ReadsLeading leading front) {bracket : Token}
    (hbracket : bracket.kind = .openAngle) {name tagEnd : Token} {attributes : List Attribute}
    {tag : List Token} (htag : ReadsOpenTag name attributes tagEnd tag)
    (hkind : tagEnd.kind = .slashClose) (rest : List Token) :
    Rule.elementWith body (front ++ bracket :: (tag ++ rest))
      = some ⟨⟨leading, some [bracket], some [name], attributes, some [tagEnd], [], none⟩, rest,
        []⟩ := by
  have hopen := openTag_complete leading [bracket] htag rest
  have htrivia := leading_complete hleading (trivium_openAngle hbracket (tag ++ rest))
  rw [Rule.elementWith, htrivia]
  simp [Rule.token, hbracket, taggedElement, hopen, hasBody, Element.tagEndKind, hkind]

/-- Behind an opening tag that does not close itself the body is read. -/
theorem elementWith_paired (body : Element → List Token → Parsed Element) {leading : List Node}
    {front : List Token} (hleading : ReadsLeading leading front) {bracket : Token}
    (hbracket : bracket.kind = .openAngle) {name tagEnd : Token} {attributes : List Attribute}
    {tag : List Token} (htag : ReadsOpenTag name attributes tagEnd tag)
    (hkind : tagEnd.kind = .closeAngle) (rest : List Token) :
    Rule.elementWith body (front ++ bracket :: (tag ++ rest))
      = some (body
        ⟨leading, some [bracket], some [name], attributes, some [tagEnd], [], none⟩ rest) := by
  have hopen := openTag_complete leading [bracket] htag rest
  have htrivia := leading_complete hleading (trivium_openAngle hbracket (tag ++ rest))
  rw [Rule.elementWith, htrivia]
  simp [Rule.token, hbracket, taggedElement, hopen, hasBody, Element.tagEndKind, hkind]

/-- An element of the grammar is read as a whole without a report, whatever follows it. -/
theorem elementWith_complete (hbody : IsBody body reads) {element : Element} {read : List Token}
    (h : ReadsElementWith reads element read) (rest : List Token) :
    Rule.elementWith body (read ++ rest) = some ⟨element, rest, []⟩ := by
  cases h with
  | @selfClosing leading front bracket name attributes tagEnd tag hleading hbracket htag hkind =>
    rw [List.append_assoc, List.cons_append,
      elementWith_selfClosing body hleading hbracket htag hkind]
  | @paired leading front bracket name attributes tagEnd tag children inner closing close hleading
      hbracket htag hkind hinner hclose =>
    simp only [List.append_assoc, List.cons_append]
    rw [elementWith_paired body hleading hbracket htag hkind,
      hbody.complete _ children inner closing close rest hinner hclose]

/-- An element is read wherever trivia or a tag are in front, behind the blanks. -/
theorem elementWith_declines_iff (body : Element → List Token → Parsed Element)
    (tokens : List Token) :
    Rule.elementWith body tokens = none ↔ BeginsNoElement (skipBlanks tokens) := by
  rw [beginsNoElement_iff, Rule.elementWith]
  constructor
  · intro h
    split at h
    · simp at h
    · next hbracket =>
      have hnone : (trivia (skipBlanks tokens)).value = [] := by simpa using h
      obtain ⟨htrivium, hrest⟩ := trivia_eq_nil hnone
      exact ⟨htrivium, by rwa [hrest] at hbracket⟩
  · rintro ⟨htrivium, hbracket⟩
    have htrivia : trivia (skipBlanks tokens) = ⟨[], skipBlanks tokens, []⟩ :=
      trivia_complete .nil htrivium
    simp [htrivia, hbracket]

/-- The rule for elements reads what the grammar has, one level above the rule for bodies. -/
theorem elementWith_isElementRule (hbody : IsBody body reads)
    (hsuffix : ∀ element tokens, (body element tokens).rest <:+ tokens) :
    IsElementRule (Rule.elementWith body) (ReadsElementWith reads) where
  consumes := Rule.elementWith_consumes hsuffix
  sound _ _ h hreports := elementWith_sound hbody h hreports
  complete _ _ rest h := elementWith_complete hbody h rest
  complete_trivia leading read rest hne hleading hrest := by
    obtain ⟨htrivium, hbracket⟩ := beginsNoElement_iff.mp hrest
    rw [Rule.elementWith, leading_complete hleading htrivium]
    simp [hbracket, hne]
  declines_iff := elementWith_declines_iff body

end ElementWith

/-- The rule for elements reads without a report exactly what the grammar allows. -/
theorem element_isElementRule (levels : Nat) :
    IsElementRule (Rule.element levels) (ReadsElement levels) := by
  induction levels with
  | zero => exact elementWith_isElementRule rawBody_isBody rawBody_suffix
  | succ levels ih =>
    exact elementWith_isElementRule (nestedBody_isBody ih)
      (nestedBody_suffix (Rule.element_consumes levels))

/-! ## Documents -/

/-- A document that is read without a report has trivia only or follows the grammar. -/
theorem document_sound {tokens : List Token} {parsed : Parsed Document}
    (h : Rule.document tokens = some parsed) (hreports : parsed.reports = []) :
    ∃ read, tokens = read ++ parsed.rest
      ∧ (parsed.value.root.isTriviaOnly = true ∨ ReadsDocument parsed.value read) := by
  simp only [Rule.document, Option.map_eq_some_iff] at h
  obtain ⟨root, hroot, rfl⟩ := h
  obtain ⟨hrootReports, htrailing⟩ := List.append_eq_nil_iff.mp hreports
  obtain ⟨read, hread, hvalue⟩ :=
    (element_isElementRule maxDepth).sound tokens root hroot hrootReports
  refine ⟨read ++ nodeTokens (trivia root.rest).value, ?_, ?_⟩
  · rw [List.append_assoc, tokens_trivia, hread]
  · obtain hreads | ⟨leading, hleading, -⟩ := hvalue
    · exact Or.inr (.intro hreads (trivia_sound htrailing).1)
    · left
      simp [hleading, Element.isTriviaOnly]

/-- A document that follows the grammar is read as such, up to what is no trivia. -/
theorem document_complete {document : Document} {read : List Token}
    (h : ReadsDocument document read) {rest : List Token} (hrest : Rule.trivium rest = none) :
    Rule.document (read ++ rest) = some ⟨document, rest, []⟩ := by
  cases h with
  | @intro root trailing tokens hroot htrailing =>
    have hread := (element_isElementRule maxDepth).complete root tokens
      (nodeTokens trailing ++ rest) hroot
    rw [List.append_assoc, Rule.document]
    simp [hread, trivia_complete htrailing hrest]

end JobMarkup.Grammar
