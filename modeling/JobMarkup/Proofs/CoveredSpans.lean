import JobMarkup.Proofs.TreeParts

/-!
# Spans that cover tokens of a text

Every span that leaves the pipeline is put together from spans of tokens. A span that covers tokens
of a text runs from a character of the text to a later or the same one, so it extracts characters,
and at least one. Spans that cover groups of tokens in the order of the text follow one another.

Both hold of every text, whatever its lines are.
-/

namespace JobMarkup

namespace SourceText

variable {text : SourceText} {span : Span} {tokens : List Token}

/-- The span addresses characters of the text: it belongs to the document of the text, and
extracting it gives at least one character. -/
def Addresses (text : SourceText) (span : Span) : Prop :=
  span.document = text.document ∧ ∃ cs, text.extract span = .ok cs ∧ cs ≠ []

/-- The span runs from one character of the text to another one that is not in front of it. -/
def IsStretch (text : SourceText) (span : Span) : Prop :=
  ∃ first last, first ≤ last ∧ last < text.length ∧ span = text.spanOf first last

/-- A span between two characters can be extracted, and it holds at least one character. -/
theorem IsStretch.addresses (h : text.IsStretch span) : text.Addresses span := by
  obtain ⟨first, last, hle, hlast, rfl⟩ := h
  refine ⟨rfl, _, text.extract_spanOf hle hlast, ?_⟩
  have hfirst : first < text.chars.length := Nat.lt_of_le_of_lt hle hlast
  simp only [slice, ne_eq, List.take_eq_nil_iff, List.drop_eq_nil_iff]
  omega

/-- The ends of a span between two characters are in the order of reading. -/
theorem IsStretch.ordered (h : text.IsStretch span) : span.Ordered := by
  obtain ⟨first, last, hle, -, rfl⟩ := h
  exact text.locate_mono hle

/-- Both ends of a stretch are characters of the text. -/
theorem IsStretch.isSome_charAtPosition (h : text.IsStretch span) :
    (text.charAtPosition span.start).isSome ∧ (text.charAtPosition span.stop).isSome := by
  obtain ⟨first, last, hle, hlast, rfl⟩ := h
  have hchar (offset : Nat) (h : offset < text.length) :
      (text.charAtPosition (text.locate offset)).isSome := by
    rw [charAtPosition_locate, charAt, List.getElem?_eq_getElem h]
    rfl
  exact ⟨hchar first (Nat.lt_of_le_of_lt hle hlast), hchar last hlast⟩

/-- Tokens of a text, in their order, cover a stretch of it. -/
theorem exists_cover_of_sublist (h : tokens.Sublist text.tokens.tokens) (hne : tokens ≠ []) :
    ∃ span, Token.cover tokens = some span ∧ text.IsStretch span := by
  have hcover := text.cover_of_sublist h hne
  obtain ⟨hpos, -, hhead⟩ := text.of_mem_tokens (h.subset (List.head_mem hne))
  obtain ⟨hlastPos, hend, hlast⟩ := text.of_mem_tokens (h.subset (List.getLast_mem hne))
  rw [hhead, hlast] at hcover
  refine ⟨_, hcover, _, _, ?_, ?_, rfl⟩
  · -- the first token does not start behind the last one
    have horder := text.inOrder_tokens.sublist (h.map Token.span)
    have hle := horder.start_head_le_stop_getLast (by simpa using hne)
    rw [List.head_map, List.getLast_map, hhead, hlast] at hle
    by_contra hlt
    exact absurd (text.locate_strictMono (Nat.lt_of_not_le hlt)) (not_lt.mpr hle)
  · omega

end SourceText

namespace Span

/-- The span covers some of the tokens, in their order. -/
def CoversSome (span : Span) (tokens : List Token) : Prop :=
  ∃ about, about.Sublist tokens ∧ Token.cover about = some span

/-- A span that covers some of the tokens of a part covers some of the tokens of the whole. -/
theorem CoversSome.of_sublist {span : Span} {tokens all : List Token} (h : span.CoversSome tokens)
    (hsub : tokens.Sublist all) : span.CoversSome all := by
  obtain ⟨about, habout, hcover⟩ := h
  exact ⟨about, habout.trans hsub, hcover⟩

/-- A span that covers some tokens of a text is a stretch of it. -/
theorem CoversSome.isStretch {text : SourceText} {span : Span}
    (h : span.CoversSome text.tokens.tokens) : text.IsStretch span := by
  obtain ⟨about, habout, hcover⟩ := h
  have hne : about ≠ [] := by
    rintro rfl
    simp [Token.cover] at hcover
  obtain ⟨whole, hwhole, hstretch⟩ := SourceText.exists_cover_of_sublist habout hne
  rw [hcover, Option.some.injEq] at hwhole
  rwa [hwhole]

/-- The spans cover groups of the tokens, in the order of the tokens. -/
def CoverGroups (spans : List Span) (tokens : List Token) : Prop :=
  ∃ groups : List (List Token), groups.flatten.Sublist tokens
    ∧ spans = groups.filterMap Token.cover

namespace CoverGroups

variable {spans others : List Span} {tokens behind : List Token}

/-- An empty list of spans covers groups of any tokens, namely none at all. -/
theorem nil (tokens : List Token) : CoverGroups [] tokens := ⟨[], List.nil_sublist _, rfl⟩

/-- The span that covers all tokens covers them as one group. -/
theorem cover (tokens : List Token) : CoverGroups (Token.cover tokens).toList tokens := by
  refine ⟨[tokens], by simp, ?_⟩
  cases h : Token.cover tokens <;> simp [h]

/-- Spans for one part of the tokens and spans for the part behind it are spans for both parts in
a row. -/
theorem append (h : CoverGroups spans tokens) (hothers : CoverGroups others behind) :
    CoverGroups (spans ++ others) (tokens ++ behind) := by
  obtain ⟨groups, hgroups, rfl⟩ := h
  obtain ⟨groups', hgroups', rfl⟩ := hothers
  refine ⟨groups ++ groups', ?_, by rw [List.filterMap_append]⟩
  rw [List.flatten_append]
  exact hgroups.append hgroups'

/-- Spans that cover groups of some tokens cover groups of any tokens among which these are, in
order. -/
theorem of_sublist (h : CoverGroups spans tokens) (hsub : tokens.Sublist behind) :
    CoverGroups spans behind := by
  obtain ⟨groups, hgroups, hspans⟩ := h
  exact ⟨groups, hgroups.trans hsub, hspans⟩

variable {text : SourceText}

/-- Spans that cover groups of tokens of a text follow one another. -/
theorem inOrder (h : CoverGroups spans tokens) (hsub : tokens.Sublist text.tokens.tokens) :
    InOrder text.document spans := by
  obtain ⟨groups, hgroups, rfl⟩ := h
  have horder := text.inOrder_tokens.sublist ((hgroups.trans hsub).map Token.span)
  rw [List.map_flatten] at horder
  have hcovers := horder.covers
  rwa [List.filterMap_map] at hcovers

/-- Each of them covers some of the tokens. -/
theorem coversSome (h : CoverGroups spans tokens) : ∀ span ∈ spans, span.CoversSome tokens := by
  obtain ⟨groups, hgroups, rfl⟩ := h
  intro span hmem
  obtain ⟨group, hgroup, hcover⟩ := List.mem_filterMap.mp hmem
  exact ⟨group, (List.sublist_flatten_of_mem hgroup).trans hgroups, hcover⟩

end CoverGroups

end Span

end JobMarkup
