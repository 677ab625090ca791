import JobMarkup.Proofs.ElementGrammar
import JobMarkup.Proofs.Stages
import JobMarkup.Proofs.UnreadMarkup

/-!
# Documents of any depth

Elements at the greatest depth are cut: what stands between their tags is kept as raw tokens, up to
where the tags that have been counted on the way are closed. Tags are counted by their marks, which
is not how they are read. A bracket counts only if the name stands directly behind it, and the marks
in comments and in the values of attributes count like all others. Where names stand directly behind
their brackets, and the marks in each comment and each attribute balance, the count is right, and a
document of any depth is cut at the closing tags that the grammar gives it.
-/

namespace JobMarkup.Tree

/-- The element that a node is, if it is one. -/
def Node.child? : Node → Option Element
  | .element child => some child
  | _ => none

namespace Element

/-- The elements at a depth below an element, which itself is at depth zero. -/
def atDepth : (depth : Nat) → Element → List Element
  | 0, element => [element]
  | depth + 1, element => (element.children.filterMap Node.child?).flatMap (atDepth depth)

/-- The element up to the end of its opening tag. -/
def opened (element : Element) : Element := { element with children := [], closingTag := none }

/-- Only elements stand between the tags. -/
def HoldsElements (element : Element) : Prop :=
  ∀ node ∈ element.children, (Node.child? node).isSome = true

/-- The tokens between the end of the opening tag and the mark of the closing tag. -/
def enclosed (tokens : List Token) (element : Element) : List Token :=
  match element.tagEnd, element.closingTag with
  | some [tagEnd], some ⟨[opening], _, _⟩ =>
    ((tokens.dropWhile (· ≠ tagEnd)).drop 1).takeWhile (· ≠ opening)
  | _, _ => []

/-- The element as far as it goes down to the given depth. Elements at that depth hold what they
enclose as raw tokens. -/
def cut (tokens : List Token) : (depth : Nat) → Element → Element
  | 0, element =>
    { element with children :=
        Grammar.contentNode ((element.enclosed tokens).map fun token => .single [token]) }
  | depth + 1, element =>
    { element with children := element.children.map fun node => match node with
        | .element child => .element (child.cut tokens depth)
        | other => other }

/-- Whether only elements stand between the tags can be checked node by node. -/
instance : DecidablePred HoldsElements := fun element =>
  inferInstanceAs (Decidable (∀ node ∈ element.children, (Node.child? node).isSome = true))

/-- Cutting an element keeps its closing tag. -/
@[simp] theorem closingTag_cut (tokens : List Token) (depth : Nat) (element : Element) :
    (element.cut tokens depth).closingTag = element.closingTag := by
  cases depth <;> rfl

/-- The elements at a depth are found in two steps, through those at a lesser depth. -/
theorem atDepth_add (depth more : Nat) (element : Element) :
    element.atDepth (depth + more) = (element.atDepth depth).flatMap (atDepth more) := by
  induction depth generalizing element with
  | zero => simp [atDepth]
  | succ depth ih =>
    rw [Nat.succ_add, atDepth, atDepth, List.flatMap_assoc]
    exact congrArg (List.flatMap · _) (funext ih)

/-- Nothing is below a depth at which there is nothing. -/
theorem forall_atDepth {holds : Nat → Element → Prop} {root : Element} {first bound : Nat}
    (hbound : root.atDepth bound = [])
    (h : ∀ depth ∈ List.range bound, first ≤ depth → ∀ element ∈ root.atDepth depth,
      holds depth element) :
    ∀ depth, first ≤ depth → ∀ element ∈ root.atDepth depth, holds depth element := by
  intro depth hfirst element hmem
  obtain hlt | hle := Nat.lt_or_ge depth bound
  · exact h depth (List.mem_range.mpr hlt) hfirst element hmem
  · obtain ⟨more, rfl⟩ := Nat.exists_eq_add_of_le hle
    simp [atDepth_add, hbound] at hmem

/-- What is at a depth below a child is one level deeper below the element. -/
theorem mem_atDepth_succ {depth : Nat} {element child inner : Element}
    (hchild : .element child ∈ element.children) (h : inner ∈ child.atDepth depth) :
    inner ∈ element.atDepth (depth + 1) :=
  List.mem_flatMap.mpr ⟨child, List.mem_filterMap.mpr ⟨_, hchild, rfl⟩, h⟩

end Element

end JobMarkup.Tree

namespace JobMarkup.Grammar

open JobMarkup.Tree

/-! ## Counted tags -/

/-- The number of tags that are open behind tokens, given the number in front of them; none if more
are closed than are open. -/
def countTags : (nesting : Nat) → List Token → Option Nat
  | nesting, [] => some nesting
  | nesting, token :: rest =>
    if token.kind = .openSlash ∨ token.kind = .slashClose then
      if nesting = 0 then none else countTags (nesting - 1) rest
    else if token.kind = .openAngle ∧ rest.head?.map Token.kind = some .letters then
      countTags (nesting + 1) rest
    else countTags nesting rest

/-- The marks in the tokens open as many tags as they close, and none is closed too early. -/
def IsBalanced (tokens : List Token) : Prop := countTags 0 tokens = some 0

/-- Counting the marks of an element gives its tags: the name stands directly behind the bracket, and
no other marks tip the balance. -/
structure IsCounted (tokens : List Token) (element : Element) : Prop where
  name : ∀ bracket ∈ element.openBracket, ∀ name ∈ element.name, bracket ++ name <:+: tokens
  attributes : ∀ attr ∈ element.attributes, IsBalanced attr.tokens
  leadingTrivia : ∀ node ∈ element.leadingTrivia, IsBalanced node.tokens

/-- Whether marks balance is decided by counting them. -/
instance (tokens : List Token) : Decidable (IsBalanced tokens) :=
  inferInstanceAs (Decidable (countTags 0 tokens = some 0))

/-- Whether the count gives the tags of an element can be evaluated part by part. -/
instance (tokens : List Token) (element : Element) : Decidable (IsCounted tokens element) :=
  decidable_of_iff
    ((∀ bracket ∈ element.openBracket, ∀ name ∈ element.name, bracket ++ name <:+: tokens)
      ∧ (∀ attr ∈ element.attributes, IsBalanced attr.tokens)
      ∧ ∀ node ∈ element.leadingTrivia, IsBalanced node.tokens)
    ⟨fun ⟨hname, hattributes, hleading⟩ => ⟨hname, hattributes, hleading⟩,
      fun ⟨hname, hattributes, hleading⟩ => ⟨hname, hattributes, hleading⟩⟩

section

variable {nesting : Nat} {token : Token} {rest : List Token}

/-- A mark that closes a tag leaves one tag less open. -/
theorem nestingBehind_of_closes (h : token.kind = .openSlash ∨ token.kind = .slashClose) :
    nestingBehind nesting token rest = nesting - 1 := by
  obtain hkind | hkind := h <;> rw [nestingBehind, hkind]

/-- A bracket with letters directly behind it leaves one tag more open. -/
theorem nestingBehind_of_opens (h : token.kind = .openAngle)
    (hrest : rest.head?.map Token.kind = some .letters) :
    nestingBehind nesting token rest = nesting + 1 := by
  rw [nestingBehind, h]
  exact if_pos hrest

/-- Any other token leaves as many tags open as there were, such as a bracket with a blank behind it. -/
theorem nestingBehind_of_neither (hcloses : ¬(token.kind = .openSlash ∨ token.kind = .slashClose))
    (hopens : ¬(token.kind = .openAngle ∧ rest.head?.map Token.kind = some .letters)) :
    nestingBehind nesting token rest = nesting := by
  rw [not_or] at hcloses
  rw [nestingBehind]
  split
  · next hkind => exact absurd hkind hcloses.1
  · next hkind => exact absurd hkind hcloses.2
  · next hkind => exact if_neg fun hrest => hopens ⟨hkind, hrest⟩
  · rfl

end

/-- Behind the tokens, raw contents go on with another number of open tags. -/
def Passes (nesting behind : Nat) (tokens : List Token) : Prop :=
  ∀ rest, rawContents nesting (tokens ++ rest)
    = (tokens ++ (rawContents behind rest).1, (rawContents behind rest).2)

/-- Passing over nothing leaves the count as it is. -/
theorem passes_nil (nesting : Nat) : Passes nesting nesting [] := fun _ => rfl

/-- Two runs are passed over one after the other, with the count between them. -/
theorem Passes.append {first second third : Nat} {a b : List Token} (ha : Passes first second a)
    (hb : Passes second third b) : Passes first third (a ++ b) := by
  intro rest
  rw [List.append_assoc, ha, hb, List.append_assoc]

/-- A token that does not end the contents is passed, and then the others are. -/
theorem passes_cons {nesting behind : Nat} {token : Token} {tokens : List Token}
    (hgoes : ¬(token.kind = .openSlash ∧ nesting = 0))
    (h : ∀ rest, Passes (nestingBehind nesting token (tokens ++ rest)) behind tokens) :
    Passes nesting behind (token :: tokens) := by
  intro rest
  rw [List.cons_append, rawContents, if_neg hgoes, h rest rest]
  rfl

/-- Tokens without brackets and closing marks leave the count as it is. -/
theorem passes_of_forall {tokens : List Token}
    (h : ∀ token ∈ tokens, token.kind ∉ [.openSlash, .slashClose, .openAngle]) (nesting : Nat) :
    Passes nesting nesting tokens := by
  induction tokens with
  | nil => exact passes_nil nesting
  | cons token rest ih =>
    obtain ⟨htoken, hrest⟩ := List.forall_mem_cons.mp h
    simp only [List.mem_cons, List.not_mem_nil, or_false, not_or] at htoken
    refine passes_cons (fun hslash => htoken.1 hslash.1) fun behind => ?_
    rw [nestingBehind_of_neither (not_or.mpr ⟨htoken.1, htoken.2.1⟩) fun h => htoken.2.2 h.1]
    exact ih hrest

/-- A token that no tag begins or ends with leaves the count as it is. -/
theorem passes_single {token : Token}
    (h : token.kind ∉ [TokenKind.openSlash, .slashClose, .openAngle]) (nesting : Nat) :
    Passes nesting nesting [token] :=
  passes_of_forall (List.forall_mem_singleton.mpr h) nesting

/-- Blanks leave the count as it is. -/
theorem passes_blanks {tokens : List Token} (h : AllBlank tokens) (nesting : Nat) :
    Passes nesting nesting tokens := by
  refine passes_of_forall (fun token hmem hkind => ?_) nesting
  have hblank := h token hmem
  simp only [List.mem_cons, List.not_mem_nil, or_false] at hkind
  rcases hkind with hkind | hkind | hkind <;>
    simp [Token.isBlank, hkind, TokenKind.isBlank] at hblank

/-- Raw contents count as the marks are counted, if no bracket is at the end. -/
theorem passes_of_countTags {tokens : List Token} {front behind : Nat}
    (h : countTags front tokens = some behind)
    (hlast : ∀ last ∈ tokens.getLast?, last.kind ≠ .openAngle) (nesting : Nat) :
    Passes (nesting + front) (nesting + behind) tokens := by
  induction tokens generalizing front with
  | nil =>
    obtain rfl := Option.some.inj h
    exact passes_nil _
  | cons token rest ih =>
    have hrest : ∀ last ∈ rest.getLast?, last.kind ≠ .openAngle := by
      intro last hmem
      refine hlast last ?_
      cases rest with
      | nil => simp at hmem
      | cons next rest => simpa using hmem
    rw [countTags] at h
    split at h
    · next hcloses =>
      split at h
      · simp at h
      · next hpos =>
        have hgoes : ¬(token.kind = .openSlash ∧ nesting + front = 0) := by
          rintro ⟨-, hzero⟩
          omega
        refine passes_cons hgoes fun others => ?_
        rw [nestingBehind_of_closes hcloses, Nat.add_sub_assoc (Nat.pos_of_ne_zero hpos)]
        exact ih h hrest
    · next hcloses =>
      refine passes_cons (fun hslash => hcloses (Or.inl hslash.1)) fun others => ?_
      -- the token behind a bracket is among the tokens, since no bracket is at their end
      have hnext : token.kind = .openAngle →
          (rest ++ others).head?.map Token.kind = rest.head?.map Token.kind := by
        intro hkind
        cases rest with
        | nil => exact absurd hkind (hlast token rfl)
        | cons next rest => rfl
      split at h
      · next hopens =>
        rw [nestingBehind_of_opens hopens.1 ((hnext hopens.1).trans hopens.2), Nat.add_assoc]
        exact ih h hrest
      · next hopens =>
        rw [nestingBehind_of_neither hcloses fun h => hopens ⟨h.1, (hnext h.1).symm.trans h.2⟩]
        exact ih h hrest

/-- Tokens whose marks balance leave the count as it is, unless a bracket at their end is completed
by what follows. -/
theorem IsBalanced.passes {tokens front : List Token} {last : Token} (h : IsBalanced tokens)
    (htokens : tokens = front ++ [last]) (hlast : last.kind ≠ .openAngle) (nesting : Nat) :
    Passes nesting nesting tokens := by
  refine passes_of_countTags h (fun other hother => ?_) nesting
  obtain rfl : last = other := by simpa [htokens] using hother
  exact hlast

/-! ## What counting passes over -/

section

variable {stream : List Token}

/-- Blanks and comments in front of a tag are passed and leave the count as it is. -/
theorem passes_leading {leading : List Node} {front : List Token} (h : ReadsLeading leading front)
    (hbalanced : ∀ node ∈ leading, IsBalanced node.tokens) (nesting : Nat) :
    Passes nesting nesting front := by
  obtain ⟨hblanks, htrivia, -⟩ := h
  refine (passes_blanks hblanks nesting).append ?_
  induction htrivia with
  | nil => exact passes_nil nesting
  | @comment comment rest hcomment _ ih =>
    obtain ⟨hthis, hothers⟩ := List.forall_mem_cons.mp hbalanced
    obtain ⟨bang, hyphens, contents, closing, angle, rfl, -, -, -, -, hangle⟩ := hcomment
    have htokens : (Node.comment ⟨[bang, hyphens], contents, some [closing, angle]⟩).tokens
        = (bang :: hyphens :: contents ++ [closing]) ++ [angle] := by
      simp [Comment.tokens]
    rw [nodeTokens_cons]
    exact (hthis.passes htokens (by simp [hangle]) nesting).append (ih hothers)
  | @blanks run rest _ hrun _ _ ih =>
    rw [nodeTokens_cons, Node.tokens_single]
    exact (passes_blanks hrun nesting).append (ih (List.forall_mem_cons.mp hbalanced).2)

/-- The attributes of a tag leave the count as it is if the marks in each of them balance. -/
theorem passes_attributes {attributes : List Attribute} {tokens : List Token}
    (h : ReadsAttributes attributes tokens)
    (hbalanced : ∀ attr ∈ attributes, IsBalanced attr.tokens) (nesting : Nat) :
    Passes nesting nesting tokens := by
  induction h with
  | nil => exact passes_nil nesting
  | @cons blanks attr attributes tokens _ hblanks hattr _ ih =>
    obtain ⟨hthis, hothers⟩ := List.forall_mem_cons.mp hbalanced
    obtain ⟨name, equal, openQuote, contents, quote, rfl, -, -, -, hquote, -⟩ := hattr
    have htokens : Attribute.tokens ⟨name, some [equal], some [openQuote], contents, some [quote]⟩
        = (name ++ [equal, openQuote] ++ nodeTokens (contents.getD [])) ++ [quote] := by
      simp [Attribute.tokens_eq]
    have hpasses := hthis.passes htokens (by simp [hquote]) nesting
    exact (passes_blanks hblanks nesting).append (hpasses.append (ih hothers))

/-- A mark that closes a counted tag is passed and takes one off the count. -/
theorem passes_closes {token : Token} (h : token.kind = .openSlash ∨ token.kind = .slashClose)
    (nesting : Nat) : Passes (nesting + 1) nesting [token] := by
  refine passes_cons (fun hslash => absurd hslash.2 (Nat.succ_ne_zero nesting)) fun rest => ?_
  rw [nestingBehind_of_closes h]
  exact passes_nil nesting

/-- A closing tag leaves one tag less open. -/
theorem passes_closingTag {closing : ClosingTag} {close : List Token}
    (h : ReadsClosingTag closing close) (nesting : Nat) : Passes (nesting + 1) nesting close := by
  obtain ⟨hopening, hbefore, hname, hbehind, hend⟩ := h
  refine (passes_closes (Or.inl hopening) nesting).append ((passes_blanks hbefore nesting).append ?_)
  exact (passes_single (by simp [hname]) nesting).append
    ((passes_blanks hbehind nesting).append (passes_single (by simp [hend]) nesting))

/-- A token that stands once has one token directly behind it. -/
theorem eq_of_pair_isInfix (hnodup : stream.Nodup) {first second other : Token}
    {behind : List Token} (hpair : [first, second] <:+: stream)
    (h : first :: other :: behind <:+: stream) : second = other := by
  obtain ⟨before, after, hstream⟩ := hpair
  obtain ⟨front, rest, hother⟩ := h
  simp only [List.append_assoc, List.cons_append, List.nil_append] at hstream hother
  rw [← hstream, List.perm_middle.nodup_iff, List.nodup_cons, List.mem_append, not_or] at hnodup
  have hsame := (List.append_cons_inj_of_notMem hnodup.1.1 hnodup.1.2).mp (hstream.trans hother.symm)
  exact (List.cons.inj hsame.2.2).1

/-- An opening tag is counted where the name stands directly behind the bracket, up to the mark at
its end. -/
theorem passes_openTag (hnodup : stream.Nodup) {bracket name tagEnd : Token}
    {attributes : List Attribute} {tag : List Token} (hbracket : bracket.kind = .openAngle)
    (h : ReadsOpenTag name attributes tagEnd tag) (htag : bracket :: tag <:+: stream)
    (hname : [bracket, name] <:+: stream) (hbalanced : ∀ attr ∈ attributes, IsBalanced attr.tokens)
    (nesting : Nat) :
    ∃ begins, tag = begins ++ [tagEnd] ∧ Passes nesting (nesting + 1) (bracket :: begins) := by
  obtain ⟨hbefore, hletters, hattributes, hbehind, -⟩ := h
  rename_i before tokens behind
  cases before with
  | cons blank before =>
    obtain rfl := eq_of_pair_isInfix hnodup hname htag
    have hblank := hbefore name List.mem_cons_self
    simp [Token.isBlank, hletters, TokenKind.isBlank] at hblank
  | nil =>
    refine ⟨name :: (tokens ++ behind), by simp, ?_⟩
    refine passes_cons (by simp [hbracket]) fun rest => ?_
    rw [nestingBehind_of_opens hbracket (by simp [hletters])]
    exact (passes_single (by simp [hletters]) _).append
      ((passes_attributes hattributes hbalanced _).append (passes_blanks hbehind _))

/-- Children are passed over if each of them is. -/
theorem passes_children {reads : Element → List Token → Prop} {children : List Element}
    {inner : List Token} (h : ReadsChildren reads children inner)
    (hchildren : ∀ child ∈ children, ∀ read, reads child read → read <:+: inner →
      ∀ nesting, Passes nesting nesting read)
    (hleading : ∀ child ∈ children, ∀ node ∈ child.leadingTrivia, IsBalanced node.tokens)
    (nesting : Nat) : Passes nesting nesting inner := by
  induction h with
  | nil hblanks => exact passes_blanks hblanks nesting
  | trivia _ hreads => exact passes_leading hreads (List.forall_mem_singleton.mp hleading) nesting
  | @cons child others first rest hfirst _ ih =>
    obtain ⟨hthis, hothers⟩ := List.forall_mem_cons.mp hchildren
    refine (hthis first hfirst (List.prefix_append _ _).isInfix nesting).append (ih ?_ ?_)
    · intro other hmem read hread hwithin
      exact hothers other hmem read hread (hwithin.trans (List.suffix_append _ _).isInfix)
    · exact (List.forall_mem_cons.mp hleading).2

/-- A body of elements holds children only. -/
theorem ReadsBody.exists_children {reads : Element → List Token → Prop} {children : List Node}
    {inner : List Token} (h : ReadsBody reads children inner)
    (hholds : ∀ node ∈ children, (Node.child? node).isSome = true) :
    ∃ elements, children = elements.map .element ∧ ReadsChildren reads elements inner := by
  cases h with
  | children hchildren => exact ⟨_, rfl, hchildren⟩
  | text => simp [Node.child?] at hholds

/-- An element is passed over if its body is. -/
theorem passes_elementWith (hnodup : stream.Nodup) {body : List Node → List Token → Prop}
    {element : Element} {read : List Token} (h : ReadsElementWith body element read)
    (hread : read <:+: stream) (hcounted : IsCounted stream element)
    (hbody : ∀ inner, body element.children inner → inner <:+: stream →
      ∀ nesting, Passes nesting nesting inner) (nesting : Nat) : Passes nesting nesting read := by
  obtain ⟨hname, hattributes, hleadingTrivia⟩ := hcounted
  cases h with
  | @selfClosing leading front bracket name attributes tagEnd tag hleading hbracket htag hkind =>
    have hwithin : bracket :: tag <:+: stream := (List.suffix_append _ _).isInfix.trans hread
    obtain ⟨begins, rfl, hbegins⟩ := passes_openTag hnodup hbracket htag hwithin
      (hname _ rfl _ rfl) hattributes nesting
    exact (passes_leading hleading hleadingTrivia nesting).append
      (hbegins.append (passes_closes (Or.inr hkind) nesting))
  | @paired leading front bracket name attributes tagEnd tag children inner closing close hleading
      hbracket htag hkind hinner hclose =>
    have hwithin : bracket :: (tag ++ (inner ++ close)) <:+: stream :=
      (List.suffix_append _ _).isInfix.trans hread
    have htagInfix : bracket :: tag <:+: stream :=
      (List.prefix_append (bracket :: tag) (inner ++ close)).isInfix.trans hwithin
    have hinnerInfix : inner <:+: stream :=
      (List.infix_append (bracket :: tag) inner close).trans (by simpa using hwithin)
    obtain ⟨begins, rfl, hbegins⟩ := passes_openTag hnodup hbracket htag htagInfix
      (hname _ rfl _ rfl) hattributes nesting
    have hend : Passes (nesting + 1) (nesting + 1) [tagEnd] := passes_single (by simp [hkind]) _
    have hwhole := (passes_leading hleading hleadingTrivia nesting).append
      (hbegins.append (hend.append ((hbody inner hinner hinnerInfix _).append
        (passes_closingTag hclose nesting))))
    simpa using hwhole

/-- Elements in a body are passed over if they are counted. -/
theorem passes_body {reads : Element → List Token → Prop} {element : Element} {inner : List Token}
    (h : ReadsBody reads element.children inner) (hinner : inner <:+: stream)
    (hcounted : ∀ depth, 0 < depth → ∀ other ∈ element.atDepth depth, IsCounted stream other)
    (hholds : ∀ depth, ∀ other ∈ element.atDepth depth, other.HoldsElements)
    (hreads : ∀ child read, reads child read → read <:+: stream →
      (∀ depth, ∀ other ∈ child.atDepth depth, IsCounted stream other) →
      (∀ depth, ∀ other ∈ child.atDepth depth, other.HoldsElements) →
      ∀ nesting, Passes nesting nesting read) (nesting : Nat) : Passes nesting nesting inner := by
  obtain ⟨children, hchildren, hbody⟩ := h.exists_children (hholds 0 element List.mem_cons_self)
  have hmem (child : Element) (h : child ∈ children) : .element child ∈ element.children :=
    hchildren ▸ List.mem_map_of_mem h
  have hbelow (child : Element) (h : child ∈ children) (depth : Nat) :
      ∀ other ∈ child.atDepth depth, IsCounted stream other := fun other hother =>
    hcounted _ (Nat.succ_pos depth) other (Element.mem_atDepth_succ (hmem child h) hother)
  refine passes_children hbody (fun child hchild read hread hwithin => ?_) (fun child hchild => ?_)
    nesting
  · exact hreads child read hread (hwithin.trans hinner) (hbelow child hchild) fun depth other hother =>
      hholds _ other (Element.mem_atDepth_succ (hmem child hchild) hother)
  · exact (hbelow child hchild 0 child List.mem_cons_self).leadingTrivia

/-- Elements are passed over, with all that they hold. -/
theorem passes_element (hnodup : stream.Nodup) {levels : Nat} {element : Element}
    {read : List Token} (h : ReadsElement levels element read) (hread : read <:+: stream)
    (hcounted : ∀ depth, ∀ inner ∈ element.atDepth depth, IsCounted stream inner)
    (hholds : ∀ depth, ∀ inner ∈ element.atDepth depth, inner.HoldsElements) (nesting : Nat) :
    Passes nesting nesting read := by
  induction levels generalizing element read nesting with
  | zero =>
    exact passes_elementWith hnodup h hread (hcounted 0 element List.mem_cons_self)
      (fun _ hbody => hbody.elim) nesting
  | succ levels ih =>
    refine passes_elementWith hnodup h hread (hcounted 0 element List.mem_cons_self)
      (fun inner hbody hinner => ?_) nesting
    exact passes_body hbody hinner (fun depth _ => hcounted depth) hholds
      fun child read hchild hwithin hcounted hholds => ih hchild hwithin hcounted hholds

end

/-! ## Elements at the greatest depth -/

section

variable {stream : List Token}

/-- Raw contents end at the closing tag behind what is passed over. -/
theorem rawContents_eq {inner close : List Token} (hinner : Passes 0 0 inner)
    {closing : ClosingTag} (hclose : ReadsClosingTag closing close) (rest : List Token) :
    rawContents 0 (inner ++ (close ++ rest)) = (inner, close ++ rest) := by
  obtain ⟨opening, others, htokens, hopening⟩ := hclose.exists_cons rest
  rw [hinner, htokens, rawContents, if_pos ⟨hopening, rfl⟩, List.append_nil]

/-- A raw body takes what the tags enclose and the closing tag, if the count inside comes back
to zero. -/
theorem rawBody_eq (element : Element) {inner close : List Token} (hinner : Passes 0 0 inner)
    {closing : ClosingTag} (hclose : ReadsClosingTag closing close) (rest : List Token) :
    rawBody element (inner ++ (close ++ rest))
      = ⟨{ element with
          children := contentNode (inner.map fun token => .single [token])
          closingTag := some closing },
        rest, [⟨.nestingTooDeep, element.tokens⟩]⟩ := by
  rw [rawBody, rawContents_eq hinner hclose]
  simp [closeElement_complete _ hclose]

/-- What two tokens enclose, where each token stands once. -/
theorem takeWhile_drop_dropWhile {front inner rest : List Token} {first last : Token}
    (h : (front ++ first :: (inner ++ last :: rest)).Nodup) :
    (((front ++ first :: (inner ++ last :: rest)).dropWhile (· ≠ first)).drop 1).takeWhile
      (· ≠ last) = inner := by
  have hfirst : ∀ token ∈ front, decide (token ≠ first) = true := fun token hmem =>
    decide_eq_true ((List.nodup_append.mp h).2.2 token hmem first List.mem_cons_self)
  have hbehind := (List.nodup_cons.mp (List.nodup_append.mp h).2.1).2
  have hlast : ∀ token ∈ inner, decide (token ≠ last) = true := fun token hmem =>
    decide_eq_true ((List.nodup_append.mp hbehind).2.2 token hmem last List.mem_cons_self)
  rw [List.dropWhile_append_of_pos hfirst, List.dropWhile_cons_of_neg (by simp), List.drop_one,
    List.tail_cons, List.takeWhile_append_of_pos hlast, List.takeWhile_cons_of_neg (by simp),
    List.append_nil]

/-- What an element encloses is found between its own marks, which occur only once in the stream. -/
theorem enclosed_eq (hnodup : stream.Nodup) {element : Element} {tagEnd : Token}
    (htagEnd : element.tagEnd = some [tagEnd]) {closing : ClosingTag}
    (hclosing : element.closingTag = some closing) {close : List Token}
    (hclose : ReadsClosingTag closing close) {front inner rest : List Token}
    (hstream : stream = front ++ tagEnd :: (inner ++ (close ++ rest))) :
    element.enclosed stream = inner := by
  obtain ⟨-, -, -, -, -⟩ := hclose
  rw [Element.enclosed, htagEnd, hclosing, hstream]
  simp only [List.append_assoc, List.cons_append] at hstream ⊢
  exact takeWhile_drop_dropWhile (hstream ▸ hnodup)

end

/-! ## Cut elements -/

/-- The reports on the elements at the given depth that have a body. -/
def tooDeep (depth : Nat) (element : Element) : List Report :=
  ((element.atDepth depth).filter fun inner => inner.closingTag.isSome).map fun inner =>
    ⟨.nestingTooDeep, inner.opened.tokens⟩

/-- Elements are too deep below an element by one level more than below its children. -/
theorem tooDeep_succ (depth : Nat) (element : Element) :
    tooDeep (depth + 1) element
      = (element.children.filterMap Node.child?).flatMap (tooDeep depth) := by
  simp only [tooDeep, Element.atDepth, List.filter_flatMap, List.map_flatMap]
  rfl

/-- The child elements of a body that holds elements only are these elements. -/
theorem filterMap_child?_map_element (children : List Element) :
    (children.map Node.element).filterMap Node.child? = children := by
  rw [List.filterMap_map]
  exact List.filterMap_some

section

variable {stream : List Token}

/-- A tag that closes itself is not cut. -/
theorem cut_of_isNone {element : Element} (hchildren : element.children = [])
    (hclosing : element.closingTag = none) (depth : Nat) :
    element.cut stream depth = element ∧ tooDeep depth element = [] := by
  obtain ⟨leading, bracket, name, attributes, tagEnd, children, closing⟩ := element
  obtain rfl : children = [] := hchildren
  obtain rfl : closing = none := hclosing
  cases depth with
  | zero => simp [Element.cut, Element.enclosed, contentNode, tooDeep, Element.atDepth]
  | succ depth => simp [Element.cut, tooDeep, Element.atDepth]

/-- What an element may hold, when it may hold anything. -/
theorem ReadsElement.exists_lower {levels : Nat} {element : Element} {read : List Token}
    (h : ReadsElement levels element read) :
    ∃ lower, ReadsElementWith (ReadsBody (ReadsElement lower)) element read := by
  cases levels with
  | succ lower => exact ⟨lower, h⟩
  | zero =>
    refine ⟨0, ?_⟩
    cases h with
    | selfClosing hleading hbracket htag hkind => exact .selfClosing hleading hbracket htag hkind
    | paired _ _ _ _ hbody => exact hbody.elim

/-- An element is read with its tags, whatever its body is read as. -/
theorem elementWith_of_body {body : Element → List Token → Parsed Element}
    {reads : List Node → List Token → Prop} {element result : Element} {read rest : List Token}
    {reports : List Report} (h : ReadsElementWith reads element read)
    (hself : element.children = [] → element.closingTag = none → result = element ∧ reports = [])
    (hpaired : ∀ front tagEnd inner closing close, element.tagEnd = some [tagEnd] →
      element.closingTag = some closing → ReadsClosingTag closing close →
      read = front ++ tagEnd :: (inner ++ close) → reads element.children inner →
      body element.opened (inner ++ (close ++ rest)) = ⟨result, rest, reports⟩) :
    Rule.elementWith body (read ++ rest) = some ⟨result, rest, reports⟩ := by
  cases h with
  | @selfClosing leading front bracket name attributes tagEnd tag hleading hbracket htag hkind =>
    obtain ⟨rfl, rfl⟩ := hself rfl rfl
    rw [List.append_assoc, List.cons_append,
      elementWith_selfClosing body hleading hbracket htag hkind]
  | @paired leading front bracket name attributes tagEnd tag children inner closing close hleading
      hbracket htag hkind hinner hclose =>
    obtain ⟨begins, hbegins⟩ := htag.exists_begins
    have hbody := hpaired (front ++ bracket :: begins) tagEnd inner closing close rfl rfl hclose
      (by simp [hbegins]) hinner
    simp only [List.append_assoc, List.cons_append]
    rw [elementWith_paired body hleading hbracket htag hkind]
    exact congrArg some hbody

/-- An element is read as far as it goes down, and each body that is too deep is reported. -/
theorem element_cut (hnodup : stream.Nodup) {depth levels : Nat} {element : Element}
    {read rest : List Token} (h : ReadsElement levels element read) (hread : read ++ rest <:+ stream)
    (hcounted : ∀ deeper, depth < deeper → ∀ inner ∈ element.atDepth deeper, IsCounted stream inner)
    (hholds : ∀ deeper, depth ≤ deeper → ∀ inner ∈ element.atDepth deeper, inner.HoldsElements) :
    Rule.element depth (read ++ rest)
      = some ⟨element.cut stream depth, rest, tooDeep depth element⟩ := by
  induction depth generalizing levels element read rest with
  | zero =>
    obtain ⟨lower, hlower⟩ := h.exists_lower
    refine elementWith_of_body hlower (fun hchildren hclosing => cut_of_isNone hchildren hclosing 0)
      fun front tagEnd inner closing close htagEnd hclosing hclose htokens hbody => ?_
    obtain ⟨before, hstream⟩ := hread
    have hsplit : stream = (before ++ front) ++ tagEnd :: (inner ++ (close ++ rest)) := by
      simp [← hstream, htokens]
    have hinner : inner <:+: stream :=
      ⟨before ++ front ++ [tagEnd], close ++ rest, by simp [hsplit]⟩
    have hpasses := passes_body hbody hinner hcounted (fun depth => hholds depth (Nat.zero_le _))
      (fun child read hchild => passes_element hnodup hchild) 0
    rw [rawBody_eq _ hpasses hclose]
    have henclosed := enclosed_eq hnodup htagEnd hclosing hclose hsplit
    simp [Element.cut, henclosed, tooDeep, Element.atDepth, hclosing, Element.opened]
  | succ depth ih =>
    obtain ⟨lower, hlower⟩ := h.exists_lower
    refine elementWith_of_body hlower (fun hchildren hclosing => cut_of_isNone hchildren hclosing _)
      fun front tagEnd inner closing close htagEnd hclosing hclose htokens hbody => ?_
    have hrule := element_isElementRule depth
    generalize hnodes : element.children = children at hbody
    cases hbody with
    | text hblanks hcontent hbegins =>
      rw [List.append_assoc, nestedBody_text hrule _ hblanks hcontent hbegins hclose]
      simp [Element.cut, Element.opened, hnodes, hclosing, tooDeep_succ, Node.child?]
    | @children elements _ hreads =>
      obtain ⟨opening, others, hopen, hopening⟩ := hclose.exists_cons rest
      have hnoElement : BeginsNoElement (close ++ rest) := by
        rw [hopen]
        exact beginsNoElement_openSlash hopening others
      have hsuffix : inner ++ (close ++ rest) <:+ stream := by
        refine List.IsSuffix.trans ⟨front ++ [tagEnd], ?_⟩ hread
        simp [htokens]
      have hmem (child : Element) (h : child ∈ elements) : .element child ∈ element.children :=
        hnodes ▸ List.mem_map_of_mem h
      obtain ⟨hvalue, hreports, hbehind⟩ := many_eq_of_readsChildren hrule hreads hnoElement
        (fun leading => cut_of_isNone rfl rfl depth) fun child hchild read behind hchildRead htail =>
          ih hchildRead (htail.trans hsuffix)
            (fun deeper hlt other hother => hcounted _ (Nat.succ_lt_succ hlt) other
              (Element.mem_atDepth_succ (hmem child hchild) hother))
            (fun deeper hle other hother => hholds _ (Nat.succ_le_succ hle) other
              (Element.mem_atDepth_succ (hmem child hchild) hother))
      have htooDeep : tooDeep (depth + 1) element = elements.flatMap (tooDeep depth) := by
        rw [tooDeep_succ, hnodes, filterMap_child?_map_element]
      rw [nestedBody_of_many _ hvalue hreports hclose hbehind, htooDeep]
      simp [Element.cut, Element.opened, hnodes, hclosing, Function.comp_def]

/-! ## What an element encloses -/

/-- A child has been read as an element, or is trivia without a tag. -/
theorem ReadsChildren.exists_read {reads : Element → List Token → Prop} {children : List Element}
    {inner : List Token} (h : ReadsChildren reads children inner) {child : Element}
    (hmem : child ∈ children) :
    (∃ leading, child = { leadingTrivia := leading }) ∨ ∃ read, reads child read ∧ read <:+: inner := by
  induction h with
  | nil => simp at hmem
  | @trivia leading front => exact Or.inl ⟨leading, List.mem_singleton.mp hmem⟩
  | @cons first others read rest hfirst _ ih =>
    obtain rfl | hmem := List.mem_cons.mp hmem
    · exact Or.inr ⟨read, hfirst, (List.prefix_append _ _).isInfix⟩
    · refine (ih hmem).imp_right ?_
      rintro ⟨other, hother, hwithin⟩
      exact ⟨other, hother, hwithin.trans (List.suffix_append _ _).isInfix⟩

/-- An element with a closing tag has been read among the tokens of those above it. -/
theorem exists_read_of_mem_atDepth {depth levels : Nat} {root element : Element} {read : List Token}
    (h : ReadsElement levels root read) (hmem : element ∈ root.atDepth depth)
    (hclosing : element.closingTag.isSome = true) :
    ∃ lower inner, ReadsElement lower element inner ∧ inner <:+: read := by
  induction depth generalizing levels root read with
  | zero =>
    obtain rfl := List.mem_singleton.mp hmem
    exact ⟨levels, read, h, List.infix_refl read⟩
  | succ depth ih =>
    obtain ⟨child, hchild, hdeeper⟩ := List.mem_flatMap.mp hmem
    obtain ⟨lower, hlower⟩ := h.exists_lower
    cases hlower with
    | selfClosing => simp at hchild
    | @paired leading front bracket name attributes tagEnd tag children inner closing close _ _ _ _
        hinner _ =>
      cases hinner with
      | text => simp [Node.child?] at hchild
      | children hchildren =>
        rw [filterMap_child?_map_element] at hchild
        obtain ⟨trivia, rfl⟩ | ⟨childRead, hread, hwithin⟩ := hchildren.exists_read hchild
        · -- nothing is below trivia, and they have no closing tag
          cases depth with
          | zero =>
            obtain rfl := List.mem_singleton.mp hdeeper
            simp at hclosing
          | succ depth => simp [Element.atDepth] at hdeeper
        · obtain ⟨lower, deepest, hdeepest, hpart⟩ := ih hread hdeeper
          refine ⟨lower, deepest, hdeepest, (hpart.trans hwithin).trans ?_⟩
          exact ⟨front ++ bracket :: tag, close, by simp⟩

/-- The tokens that an element encloses stand behind its opening tag and in front of its own
closing tag. -/
theorem exists_enclosed (hnodup : stream.Nodup) {levels : Nat} {element : Element}
    {read : List Token} (h : ReadsElement levels element read) (hread : read <:+: stream)
    {closing : ClosingTag} (hclosing : element.closingTag = some closing) :
    ∃ front tagEnd close behind, element.tagEnd = some [tagEnd] ∧ ReadsClosingTag closing close
      ∧ stream = front ++ tagEnd :: (element.enclosed stream ++ (close ++ behind)) := by
  obtain ⟨before, behind, hstream⟩ := hread
  obtain ⟨lower, hlower⟩ := h.exists_lower
  cases hlower with
  | selfClosing => simp at hclosing
  | @paired leading front bracket name attributes tagEnd tag children inner _ close _ _ htag _ _
      hclose =>
    obtain rfl := Option.some.inj hclosing
    obtain ⟨begins, rfl⟩ := htag.exists_begins
    have hsplit : stream = (before ++ (front ++ bracket :: begins))
        ++ tagEnd :: (inner ++ (close ++ behind)) := by
      simp [← hstream]
    refine ⟨before ++ (front ++ bracket :: begins), tagEnd, close, behind, rfl, hclose, ?_⟩
    rwa [enclosed_eq hnodup rfl rfl hclose hsplit]

end

end JobMarkup.Grammar

namespace JobMarkup.SourceText

open JobMarkup.Tree JobMarkup.Grammar

variable {text : SourceText}

/-- A document of any depth, whose tags are counted as they are read, is cut at the greatest depth:
its elements go down to there, each with its own closing tag. An element at that depth keeps the text
between its tags, whatever that is, and is reported if it has a body. Nothing else is reported. -/
theorem compile_nested {levels : Nat} {root : Element} {read : List Token} {trailing : List Node}
    (htokens : text.tokens.tokens = read ++ nodeTokens trailing)
    (hroot : ReadsElement levels root read) (htrailing : IsTrivia trailing)
    (hholds : ∀ depth, maxDepth ≤ depth → ∀ element ∈ root.atDepth depth, element.HoldsElements)
    (hcounted : ∀ depth, maxDepth < depth → ∀ element ∈ root.atDepth depth,
      IsCounted text.tokens.tokens element) :
    text.compile.document = some ⟨root.cut text.tokens.tokens maxDepth, trailing⟩
      ∧ text.compile.grammarDiagnostics
        = ((root.atDepth maxDepth).filter fun element => element.closingTag.isSome).map
          (fun element => ⟨.grammar .nestingTooDeep, text.tokens.spanOf element.opened.tokens⟩)
      ∧ ∀ element ∈ root.atDepth maxDepth, ∀ closing ∈ element.closingTag,
        ∃ front tagEnd close behind, element.tagEnd = some [tagEnd] ∧ ReadsClosingTag closing close
          ∧ text.tokens.tokens = front ++ tagEnd
            :: (element.enclosed text.tokens.tokens ++ (close ++ behind)) := by
  have hsuffix : read ++ nodeTokens trailing <:+ text.tokens.tokens :=
    htokens ▸ List.suffix_refl _
  have hread := element_cut text.nodup_tokens hroot hsuffix hcounted hholds
  have htrivia := trivia_complete htrailing (rfl : Rule.trivium [] = none)
  rw [List.append_nil] at htrivia
  have hdocument : Rule.document text.tokens.tokens
      = some ⟨⟨root.cut text.tokens.tokens maxDepth, trailing⟩, [], tooDeep maxDepth root⟩ := by
    conv_lhs => rw [htokens]
    rw [Rule.document, hread]
    simp [htrivia]
  refine ⟨?_, ?_, fun element hmem closing hclosing => ?_⟩
  · rw [document_compile, readDocument, hdocument]
  · rw [grammarDiagnostics_compile, readDocument, hdocument]
    simp [tooDeep, Reader.diagnose]
  · obtain ⟨lower, inner, hinner, hwithin⟩ :=
      exists_read_of_mem_atDepth hroot hmem (by simp [Option.mem_def.mp hclosing])
    refine exists_enclosed text.nodup_tokens hinner (hwithin.trans ?_) hclosing
    exact (List.prefix_append _ _).isInfix.trans hsuffix.isInfix

/-- Elements within one another, with something in the innermost one. -/
def nested (depth : Nat) (inside : List Char) : SourceText :=
  ⟨.ofNat 0, [(List.replicate depth "<a>".toList).flatten ++ inside
    ++ (List.replicate depth "</a >".toList).flatten]⟩

/-- An element that is read without a report up to the end, with what has been checked of it. -/
theorem exists_readsElement (levels : Nat) (tokens : List Token) (holds : Element → Prop)
    [∀ root, Decidable (holds root)]
    (h : (Rule.element levels tokens).any (fun parsed =>
      parsed.reports.isEmpty && parsed.rest.isEmpty && parsed.value.closingTag.isSome
        && decide (holds parsed.value)) = true) :
    ∃ root, ReadsElement levels root tokens ∧ holds root := by
  simp only [Option.any_eq_true, Bool.and_eq_true, List.isEmpty_iff, decide_eq_true_eq] at h
  obtain ⟨parsed, hparsed, ⟨⟨hreports, hrest⟩, hclosing⟩, hholds⟩ := h
  obtain ⟨read, htokens, hread | ⟨leading, hvalue, -⟩⟩ :=
    (element_isElementRule levels).sound tokens parsed hparsed hreports
  · rw [hrest, List.append_nil] at htokens
    exact ⟨parsed.value, htokens ▸ hread, hholds⟩
  · simp [hvalue] at hclosing

set_option maxRecDepth 20000 in
/-- Two levels below the greatest depth, an element with an attribute and a comment are counted. -/
theorem compile_nested_twoLevels :
    let text := nested 258 "<b x=\"1\"/><!---->".toList
    ∃ root, ReadsElement 300 root text.tokens.tokens
      ∧ (∀ depth, maxDepth ≤ depth → ∀ element ∈ root.atDepth depth, element.HoldsElements)
      ∧ (∀ depth, maxDepth < depth → ∀ element ∈ root.atDepth depth,
        IsCounted text.tokens.tokens element)
      ∧ (root.atDepth (maxDepth + 2)).length = 2
      ∧ text.compile.document = some ⟨root.cut text.tokens.tokens maxDepth, []⟩
      ∧ text.compile.grammarDiagnostics
        = ((root.atDepth maxDepth).filter fun element => element.closingTag.isSome).map
          fun element => ⟨.grammar .nestingTooDeep, text.tokens.spanOf element.opened.tokens⟩ := by
  intro text
  obtain ⟨root, hroot, hbound, htwo, hchecked⟩ :=
    exists_readsElement 300 text.tokens.tokens
      (fun root => (root.atDepth 259).isEmpty = true ∧ (root.atDepth 258).length = 2
        ∧ ∀ depth ∈ List.range 259, maxDepth ≤ depth → ∀ element ∈ root.atDepth depth,
          element.HoldsElements ∧ (maxDepth < depth → IsCounted text.tokens.tokens element))
      (by decide +kernel)
  have hall := Element.forall_atDepth (List.isEmpty_iff.mp hbound) hchecked
  have hholds (depth : Nat) (hdepth : maxDepth ≤ depth) :
      ∀ element ∈ root.atDepth depth, element.HoldsElements := fun element hmem =>
    (hall depth hdepth element hmem).1
  have hcounted (depth : Nat) (hdepth : maxDepth < depth) :
      ∀ element ∈ root.atDepth depth, IsCounted text.tokens.tokens element := fun element hmem =>
    (hall depth hdepth.le element hmem).2 hdepth
  obtain ⟨hdocument, hreports, -⟩ :=
    compile_nested (List.append_nil _).symm hroot .nil hholds hcounted
  exact ⟨root, hroot, hholds, hcounted, htwo, hdocument, hreports⟩

set_option maxRecDepth 20000 in
/-- Documents of any depth need not be cut at their own closing tags: a blank between a bracket and a
name is enough for a tag not to be counted. -/
theorem not_forall_cut :
    ¬∀ (text : SourceText) (levels : Nat) (root : Element),
      ReadsElement levels root text.tokens.tokens →
      (∀ depth, maxDepth ≤ depth → ∀ element ∈ root.atDepth depth, element.HoldsElements) →
      text.compile.document = some ⟨root.cut text.tokens.tokens maxDepth, []⟩ := by
  intro hall
  obtain ⟨text, root, hroot, hbound, hchecked, hdiffers⟩ : ∃ (text : SourceText) (root : Element),
      ReadsElement 300 root text.tokens.tokens ∧ (root.atDepth 258).isEmpty = true
        ∧ (∀ depth ∈ List.range 258, maxDepth ≤ depth → ∀ element ∈ root.atDepth depth,
          element.HoldsElements)
        ∧ (Rule.document text.tokens.tokens).map (fun parsed => parsed.value.root.closingTag)
          ≠ some root.closingTag :=
    ⟨nested 257 "< b></b>".toList, exists_readsElement 300 _ _ (by decide +kernel)⟩
  have hholds := Element.forall_atDepth (List.isEmpty_iff.mp hbound) hchecked
  have hdocument := hall text 300 root hroot hholds
  obtain ⟨rest, reports, hrule, -⟩ := exists_rule_of_document_eq hdocument
  simp [hrule] at hdiffers

end JobMarkup.SourceText
