import JobMarkup.Highlight.Relative
import JobMarkup.Proofs.CoveredSpans
import JobMarkup.Proofs.Edits
import JobMarkup.Proofs.Stages
import Mathlib.Algebra.Group.Nat.Defs
import Mathlib.Data.List.Range

/-!
# The order of highlights

The highlights of a document are those of spans that cover groups of its tokens, in the order of the
tokens, whether the markup is complete or not. A span that is cut into lines gives a highlight for
each line from its first to its last one, which lies in the line and in the span. So highlights stay
on their lines, none is empty, and each of them ends in front of the next one. For such highlights
nothing is lost in the relative form.
-/

namespace JobMarkup

namespace Highlight

open JobMarkup.Tree

/-- The position of the first character. -/
def first (highlight : Highlight) : Position := ⟨highlight.line, highlight.start⟩

/-- The position of the last character. -/
def final (highlight : Highlight) : Position := ⟨highlight.line, highlight.last⟩

/-- The first character of a highlight is not behind its last one. -/
theorem first_le_final (highlight : Highlight) : highlight.first ≤ highlight.final :=
  Or.inr ⟨rfl, Nat.le_add_right _ _⟩

/-! ## Cutting a span into lines -/

/-- The highlight has characters, all of them on its line and in the span. -/
structure LiesIn (text : SourceText) (span : Span) (highlight : Highlight) : Prop where
  length_pos : 0 < highlight.length
  on_line : ∃ length, text.lineLength highlight.line = .ok length ∧ highlight.last < length
  start_le : span.start ≤ highlight.first
  le_stop : highlight.final ≤ span.stop

variable {text : SourceText} {span : Span}

/-- A position of a character lies on a line of the text, in front of its end. -/
theorem lt_lineLength_of_isSome {position : Position}
    (h : (text.charAtPosition position).isSome) :
    ∃ length, text.lineLength position.line = .ok length ∧ position.column < length := by
  rw [SourceText.charAtPosition] at h
  cases hline : text.lines[position.line]? with
  | none => simp [hline] at h
  | some cs =>
    refine ⟨cs.length, by simp [SourceText.lineLength, SourceText.line, hline, Except.map], ?_⟩
    simpa [hline] using h

/-- A line in front of another one is there, and not empty in a text without empty lines. -/
theorem lineLength_pos_of_lt (hlines : [] ∉ text.lines) {line : Nat}
    (h : line < text.lines.length) :
    ∃ length, text.lineLength line = .ok length ∧ 0 < length := by
  have hline : text.lines[line]? = some text.lines[line] := List.getElem?_eq_getElem h
  refine ⟨text.lines[line].length,
    by simp [SourceText.lineLength, SourceText.line, hline, Except.map], ?_⟩
  refine List.length_pos_iff.mpr fun hnil => hlines ?_
  rw [← hnil]
  exact List.getElem_mem h

/-- The highlight of a line of a stretch lies on the line and in the stretch. -/
theorem liesIn_ofLine (hlines : [] ∉ text.lines) (hspan : text.IsStretch span)
    (category : Category) {line : Nat} (hstart : span.start.line ≤ line)
    (hstop : line ≤ span.stop.line) : LiesIn text span (ofLine text category span line) := by
  obtain ⟨hfirstChar, hlastChar⟩ := hspan.isSome_charAtPosition
  obtain ⟨startLength, hstartLength, hstartColumn⟩ := lt_lineLength_of_isSome hfirstChar
  obtain ⟨stopLength, hstopLength, hstopColumn⟩ := lt_lineLength_of_isSome hlastChar
  have hordered := Position.le_def.mp hspan.ordered
  have hbound : line < text.lines.length := by
    rw [SourceText.charAtPosition] at hlastChar
    by_contra hle
    rw [List.getElem?_eq_none (by omega)] at hlastChar
    simp at hlastChar
  obtain ⟨length, hlength, hpos⟩ := lineLength_pos_of_lt hlines hbound
  -- on the first and on the last line the length is the one that bounds the column of the span
  have hstartEq : line = span.start.line → startLength = length := by
    rintro rfl
    exact Except.ok.inj (hstartLength.symm.trans hlength)
  have hstopEq : line = span.stop.line → stopLength = length := by
    rintro rfl
    exact Except.ok.inj (hstopLength.symm.trans hlength)
  have hsome : (text.lineLength line).toOption.getD 0 = length := by
    rw [hlength]
    rfl
  refine ⟨Nat.succ_pos _, ⟨length, hlength, ?_⟩, ?_, ?_⟩
  · simp only [ofLine, last, hsome]
    split <;> split <;> omega
  · simp only [ofLine, first, Position.le_def]
    split <;> omega
  · simp only [ofLine, final, last, Position.le_def, hsome]
    split <;> split <;> omega

/-- Each highlight that a span is cut into has characters, all of them on its line and in the span. -/
theorem liesIn_of_mem_ofSpan (hlines : [] ∉ text.lines) (hspan : text.IsStretch span)
    {category : Category} {highlight : Highlight} (h : highlight ∈ ofSpan text category span) :
    LiesIn text span highlight := by
  obtain ⟨line, hline, rfl⟩ := List.mem_map.mp h
  rw [List.mem_range'_1] at hline
  exact liesIn_ofLine hlines hspan category hline.1 (by omega)

/-- Highlights of different lines of a span follow one another. -/
theorem pairwise_ofSpan (text : SourceText) (category : Category) (span : Span) :
    (ofSpan text category span).Pairwise fun a b => a.final < b.first := by
  rw [ofSpan, List.pairwise_map]
  exact (List.pairwise_lt_range' 1).imp fun hlt => Or.inl hlt

/-! ## Highlights of a tree -/

/-- The highlights are those of spans that cover groups of the tokens in their order. -/
def Paints (text : SourceText) (tokens : List Token) (highlights : List Highlight) : Prop :=
  ∃ parts : List (Category × Span), (Span.CoverGroups (parts.map Prod.snd) tokens)
    ∧ highlights = parts.flatMap fun part => ofSpan text part.1 part.2

namespace Paints

variable {tokens behind : List Token} {highlights others : List Highlight}

/-- Any tokens may be left without a highlight. -/
theorem nil (text : SourceText) (tokens : List Token) : Paints text tokens [] :=
  ⟨[], .nil tokens, rfl⟩

/-- Tokens that are highlighted as a whole give the highlights of the span that covers them. -/
theorem ofTokens (text : SourceText) (category : Category) (tokens : List Token) :
    Paints text tokens (Highlight.ofTokens text category tokens) := by
  refine ⟨(Token.cover tokens).toList.map fun span => (category, span), ?_, ?_⟩
  · simpa [Function.comp_def] using Span.CoverGroups.cover tokens
  · rw [Highlight.ofTokens, List.flatMap_map]

/-- Highlights of two runs of tokens, one after the other, are highlights of both runs in a row. -/
theorem append (h : Paints text tokens highlights) (hothers : Paints text behind others) :
    Paints text (tokens ++ behind) (highlights ++ others) := by
  obtain ⟨parts, hparts, rfl⟩ := h
  obtain ⟨parts', hparts', rfl⟩ := hothers
  refine ⟨parts ++ parts', ?_, List.flatMap_append.symm⟩
  rw [List.map_append]
  exact hparts.append hparts'

/-- Highlights of some tokens are highlights of any tokens among which these are, in order. -/
theorem of_sublist (h : Paints text tokens highlights) (hsub : tokens.Sublist behind) :
    Paints text behind highlights := by
  obtain ⟨parts, hparts, hhighlights⟩ := h
  exact ⟨parts, hparts.of_sublist hsub, hhighlights⟩

/-- The highlights of tokens of a text, in a text without empty lines: each lies in the text, and
each ends in front of those behind it. -/
theorem inOrder (h : Paints text tokens highlights) (hlines : [] ∉ text.lines)
    (hsub : tokens.Sublist text.tokens.tokens) :
    (∀ highlight ∈ highlights, ∃ span, LiesIn text span highlight)
      ∧ highlights.Pairwise fun a b => a.final < b.first := by
  obtain ⟨parts, hparts, rfl⟩ := h
  have hstretch (part : Category × Span) (hmem : part ∈ parts) : text.IsStretch part.2 :=
    ((hparts.coversSome part.2 (List.mem_map_of_mem hmem)).of_sublist hsub).isStretch
  refine ⟨?_, ?_⟩
  · intro highlight hmem
    obtain ⟨part, hpart, hmem⟩ := List.mem_flatMap.mp hmem
    exact ⟨part.2, liesIn_of_mem_ofSpan hlines (hstretch part hpart) hmem⟩
  · rw [List.pairwise_flatMap]
    refine ⟨fun part _ => pairwise_ofSpan text part.1 part.2, ?_⟩
    have hpairwise := List.pairwise_map.mp (hparts.inOrder hsub).pairwise
    refine hpairwise.imp_of_mem fun {before after} hbefore hafter hlt a ha b hb => ?_
    have hfront := liesIn_of_mem_ofSpan hlines (hstretch before hbefore) ha
    have hback := liesIn_of_mem_ofSpan hlines (hstretch after hafter) hb
    exact (hfront.le_stop.trans_lt hlt).trans_le hback.start_le

end Paints

/-- The highlights of an interpolation follow the order of its tokens. -/
theorem paints_ofInterpolation (text : SourceText) (whole : Interpolation) :
    Paints text whole.tokens (ofInterpolation text whole) := by
  rw [Interpolation.tokens_eq]
  exact ((Paints.ofTokens _ _ _).append (.ofTokens _ _ _)).append (.ofTokens _ _ _)

/-- A string that has begun, the nodes of the value, and the closing quote. -/
theorem paints_ofValue (text : SourceText) (closing run : List Token) (nodes : List Node) :
    Paints text (run ++ nodeTokens nodes ++ closing) (ofValue text closing run nodes) := by
  fun_induction ofValue text closing run nodes with
  | case1 run => simpa using Paints.ofTokens text .string (run ++ closing)
  | case2 run whole rest ih =>
    have hall := ((Paints.ofTokens text .string run).append
      (paints_ofInterpolation text whole)).append ih
    simpa using hall
  | case3 run node rest _ ih => simpa using ih

/-- The highlights of an attribute follow the order of its tokens, those of its value included. -/
theorem paints_ofAttribute (text : SourceText) (attr : Attribute) :
    Paints text attr.tokens (ofAttribute text attr) := by
  obtain ⟨name, equal, openQuote, contents, closeQuote⟩ := attr
  have hname := Paints.ofTokens text .attributeName name
  rw [ofAttribute, Attribute.tokens_eq]
  cases openQuote with
  | none =>
    refine (List.append_nil (ofTokens text .attributeName name)).symm ▸ hname.of_sublist ?_
    simp only [List.append_assoc]
    exact List.sublist_append_left _ _
  | some quote =>
    have hvalue := paints_ofValue text (slotTokens closeQuote) quote (contents.getD [])
    have hall := hname.append ((Paints.nil text (slotTokens equal)).append hvalue)
    simpa using hall

/-- The highlights of attributes in a row follow the order of their tokens. -/
theorem paints_ofAttributes (text : SourceText) (attributes : List Attribute) :
    Paints text (attributeTokens attributes) (attributes.flatMap (ofAttribute text)) := by
  induction attributes with
  | nil => exact .nil text []
  | cons attr rest ih => exact (paints_ofAttribute text attr).append ih

mutual

/-- The highlights of a node are those of its tokens, in their order. -/
theorem paints_ofNode (text : SourceText) :
    ∀ node : Node, Paints text node.tokens (ofNode text node)
  | .comment comment => .ofTokens text .comment comment.tokens
  | .closingTag tag => .ofTokens text .element tag.tokens
  | .namespacedSymbol nodes => .ofTokens text .variableName (nodeTokens nodes)
  | .interpolation whole => paints_ofInterpolation text whole
  | .attribute attr => paints_ofAttribute text attr
  | .element element => paints_ofElement text element
  | .document document => paints_ofDocument text document
  | .sequence nodes => paints_ofNodes text nodes
  | .compoundSymbol nodes => paints_ofNodes text nodes
  | .content nodes => paints_ofNodes text nodes
  | .trivia nodes => paints_ofNodes text nodes
  | .single tokens => .nil text tokens
  | .partialSymbol tokens => .nil text tokens

/-- The highlights of nodes in a row follow the order of their tokens, by recursion on the tree. -/
theorem paints_ofNodes (text : SourceText) :
    ∀ nodes : List Node, Paints text (nodeTokens nodes) (ofNodes text nodes)
  | [] => .nil text []
  | node :: rest => (paints_ofNode text node).append (paints_ofNodes text rest)

/-- The highlights of an element follow the order of its tokens, whatever is missing of it. -/
theorem paints_ofElement (text : SourceText) :
    ∀ element : Element, Paints text element.tokens (ofElement text element)
  | ⟨leadingTrivia, _, _, attributes, _, children, _⟩ =>
    (((((((paints_ofNodes text leadingTrivia).append (.ofTokens _ _ _)).append
      (.ofTokens _ _ _)).append (paints_ofAttributes text attributes)).append
        (.ofTokens _ _ _)).append (paints_ofNodes text children)).append (.ofTokens _ _ _))

/-- The highlights of a document follow the order of its tokens. -/
theorem paints_ofDocument (text : SourceText) :
    ∀ document : Document, Paints text document.tokens (ofDocument text document)
  | ⟨root, trailingTrivia⟩ =>
    (paints_ofElement text root).append (paints_ofNodes text trailingTrivia)

end

/-! ## The relative form -/

/-- Reading the relative form of highlights gives them back, if none starts in front of the one
before it and all numbers have 32 bits. -/
theorem decodeFrom_encodeFrom {before : Position} {highlights : List Highlight}
    (hbefore : ∀ highlight ∈ highlights, before ≤ highlight.first)
    (hsorted : highlights.Pairwise fun a b => a.first ≤ b.first)
    (hbound : ∀ highlight ∈ highlights, highlight.line ≤ maxNumber ∧ highlight.start ≤ maxNumber
      ∧ highlight.length ≤ maxNumber) :
    decodeFrom before (encodeFrom before highlights) = some highlights := by
  induction highlights generalizing before with
  | nil => rfl
  | cons highlight rest ih =>
    obtain ⟨hrest, hsortedRest⟩ := List.pairwise_cons.mp hsorted
    obtain ⟨⟨hlineBound, hstartBound, hlengthBound⟩, hboundRest⟩ := List.forall_mem_cons.mp hbound
    have hfirst := Position.le_def.mp (hbefore highlight List.mem_cons_self)
    have hothers : decodeFrom highlight.first (encodeFrom highlight.first rest) = some rest :=
      ih hrest hsortedRest hboundRest
    simp only [first] at hfirst hothers
    have hdown : min (highlight.line - before.line) maxNumber = highlight.line - before.line :=
      Nat.min_eq_left (by omega)
    have hline : before.line + (highlight.line - before.line) = highlight.line := by omega
    have hlength : min highlight.length maxNumber = highlight.length :=
      Nat.min_eq_left hlengthBound
    have hstart : (if 0 < highlight.line - before.line then
          min (if 0 < highlight.line - before.line then highlight.start
            else highlight.start - before.column) maxNumber
        else before.column + min (if 0 < highlight.line - before.line then highlight.start
            else highlight.start - before.column) maxNumber) = highlight.start := by
      split <;> omega
    simp only [encodeFrom, relativeNumbers, List.cons_append, List.nil_append, decodeFrom, hdown,
      hlength, hstart, hline, Category.ofIndex?_index, hothers]
    rfl

end Highlight

namespace SourceText

open Highlight

/-- The highlights of a text are those of tokens of the text, in their order. -/
theorem exists_paints_highlights (text : SourceText) :
    ∃ tokens, tokens.Sublist text.tokens.tokens ∧ Paints text tokens text.compile.highlights := by
  cases hdocument : text.compile.document with
  | none =>
    refine ⟨[], List.nil_sublist _, ?_⟩
    simpa [Compilation.highlights, hdocument] using Paints.nil text []
  | some document =>
    refine ⟨document.tokens, sublist_of_document_eq hdocument, ?_⟩
    simpa [Compilation.highlights, hdocument] using paints_ofDocument text document

/-- The highlights of a text are ordered, disjoint and stay on their lines, whatever has been cut
out of the text and however incomplete the markup is. Each has characters, its line is there, and
its last column lies on the line. Of any two, the later one starts behind the end of the earlier
one, on the same line or on a later line. So an editor that reads the relative form gets back the
same highlights, as long as lines, columns and lengths have 32 bits. -/
theorem highlights_ordered {text : SourceText} (h : text.Reachable) :
    (∀ highlight ∈ text.compile.highlights, 0 < highlight.length
        ∧ ∃ length, text.lineLength highlight.line = .ok length ∧ highlight.last < length)
      ∧ (text.compile.highlights.Pairwise fun a b => a.line < b.line
        ∨ (a.line = b.line ∧ a.start < b.start ∧ a.last < b.start))
      ∧ ((∀ highlight ∈ text.compile.highlights, highlight.line < 2 ^ 32
          ∧ highlight.start < 2 ^ 32 ∧ highlight.length < 2 ^ 32) →
        Highlight.decode (Highlight.encode text.compile.highlights)
          = some text.compile.highlights) := by
  obtain ⟨tokens, hsub, hpaints⟩ := text.exists_paints_highlights
  obtain ⟨hlies, hpairwise⟩ := hpaints.inOrder h.nil_not_mem_lines hsub
  refine ⟨?_, ?_, ?_⟩
  · intro highlight hmem
    obtain ⟨span, hlies⟩ := hlies highlight hmem
    exact ⟨hlies.length_pos, hlies.on_line⟩
  · refine hpairwise.imp fun {a b} hlt => ?_
    have hle := Nat.le_add_right a.start (a.length - 1)
    simp only [final, first, Position.lt_def, last] at hlt ⊢
    omega
  · intro hbound
    have hbefore (highlight : Highlight) : (⟨0, 0⟩ : Position) ≤ highlight.first := by
      simp only [Position.le_def]
      omega
    refine decodeFrom_encodeFrom (fun highlight _ => hbefore highlight)
      (hpairwise.imp fun {a b} hlt => a.first_le_final.trans hlt.le) fun highlight hmem => ?_
    have hnumbers := hbound highlight hmem
    simp only [maxNumber]
    omega

/-- A line feed is cut out of a name, so the name goes over two lines and has a highlight on
each line. -/
theorem highlights_ordered_cut :
    ∃ text, (ofString (.ofNat 0) "<ab\ncd k=\"v\"/>").removeSpan ⟨.ofNat 0, ⟨0, 3⟩, ⟨0, 3⟩⟩ = .ok text
      ∧ (text.compile.highlights.map fun highlight =>
          (highlight.line, highlight.start, highlight.length))
        = [(0, 0, 1), (0, 1, 2), (1, 0, 2), (1, 3, 1), (1, 5, 3), (1, 8, 2)]
      ∧ Highlight.decode (Highlight.encode text.compile.highlights)
        = some text.compile.highlights := by
  have hcut : (ofString (.ofNat 0) "<ab\ncd k=\"v\"/>").removeSpan ⟨.ofNat 0, ⟨0, 3⟩, ⟨0, 3⟩⟩
      = .ok ⟨.ofNat 0, ["<ab".toList, "cd k=\"v\"/>".toList]⟩ := by
    decide +kernel
  obtain ⟨-, -, hread⟩ := highlights_ordered (.removeSpan _ (.ofString _ _) hcut)
  exact ⟨_, hcut, by decide +kernel, hread (by decide +kernel)⟩

end SourceText

end JobMarkup
