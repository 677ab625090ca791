import JobMarkup.Proofs.Positions
import JobMarkup.Token.Stream
import Mathlib.Data.List.Infix

/-!
# Runs of tokens

The tokens of a text lie in it one behind the other. Any of them, in their order, are covered by the
span from the start of the first to the end of the last one. If none is left out between them, that
span addresses exactly their characters. Both hold of every text, whatever its lines are.
-/

namespace JobMarkup

namespace Span

/-- Spans of one document, each of them ordered, each of them behind those in front of it. -/
structure InOrder (document : DocumentId) (spans : List Span) : Prop where
  document_eq : ∀ span ∈ spans, span.document = document
  ordered : ∀ span ∈ spans, span.Ordered
  pairwise : spans.Pairwise fun a b => a.stop < b.start

/-- Some of the spans in order are in order themselves. -/
theorem InOrder.sublist {document : DocumentId} {spans others : List Span}
    (h : InOrder document spans) (hsub : others.Sublist spans) : InOrder document others :=
  ⟨fun span hspan => h.document_eq span (hsub.subset hspan),
    fun span hspan => h.ordered span (hsub.subset hspan), h.pairwise.sublist hsub⟩

/-- A span in front of spans in order is in order with them. -/
theorem InOrder.cons {document : DocumentId} {first : Span} {spans : List Span}
    (hdocument : first.document = document) (hordered : first.Ordered)
    (hbehind : ∀ span ∈ spans, first.stop < span.start) (h : InOrder document spans) :
    InOrder document (first :: spans) :=
  ⟨List.forall_mem_cons.mpr ⟨hdocument, h.document_eq⟩,
    List.forall_mem_cons.mpr ⟨hordered, h.ordered⟩,
    List.pairwise_cons.mpr ⟨hbehind, h.pairwise⟩⟩

/-- No span starts in front of the first of spans in order. -/
theorem InOrder.start_head_le {document : DocumentId} {spans : List Span}
    (h : InOrder document spans) (hne : spans ≠ []) {span : Span} (hmem : span ∈ spans) :
    (spans.head hne).start ≤ span.start := by
  obtain ⟨first, rest, rfl⟩ := List.exists_cons_of_ne_nil hne
  rcases List.mem_cons.mp hmem with rfl | hmem
  · exact le_refl _
  · have hfirst : first.start ≤ first.stop := h.ordered first List.mem_cons_self
    exact hfirst.trans ((List.pairwise_cons.mp h.pairwise).1 span hmem).le

/-- No span ends behind the last of spans in order. -/
theorem InOrder.le_stop_getLast {document : DocumentId} {spans : List Span}
    (h : InOrder document spans) (hne : spans ≠ []) {span : Span} (hmem : span ∈ spans) :
    span.stop ≤ (spans.getLast hne).stop := by
  obtain ⟨init, last, rfl⟩ := (List.eq_nil_or_concat spans).resolve_left hne
  simp only [List.concat_eq_append] at h hmem ⊢
  rw [List.getLast_append_singleton]
  rcases List.mem_append.mp hmem with hmem | hmem
  · have hlast : last.start ≤ last.stop := h.ordered last (by simp)
    have hlt := (List.pairwise_append.mp h.pairwise).2.2 span hmem last (List.mem_singleton_self _)
    exact hlt.le.trans hlast
  · rw [List.mem_singleton.mp hmem]

/-- The last of spans in order does not end in front of the start of the first. -/
theorem InOrder.start_head_le_stop_getLast {document : DocumentId} {spans : List Span}
    (h : InOrder document spans) (hne : spans ≠ []) :
    (spans.head hne).start ≤ (spans.getLast hne).stop := by
  have hmem := List.getLast_mem hne
  have hlast : (spans.getLast hne).start ≤ (spans.getLast hne).stop := h.ordered _ hmem
  exact (h.start_head_le hne hmem).trans hlast

/-- Spans in order are covered from the start of the first to the end of the last one. -/
theorem cover_of_inOrder {document : DocumentId} {spans : List Span}
    (h : InOrder document spans) (hne : spans ≠ []) :
    cover spans = some ⟨document, (spans.head hne).start, (spans.getLast hne).stop⟩ := by
  obtain ⟨first, rest, rfl⟩ := List.exists_cons_of_ne_nil hne
  induction rest generalizing first with
  | nil =>
    have hdocument := h.document_eq first List.mem_cons_self
    simp [← hdocument]
  | cons next rest ih =>
    obtain ⟨hfirst, hpairwise⟩ := List.pairwise_cons.mp h.pairwise
    have hfirstOrdered : first.start ≤ first.stop := h.ordered first List.mem_cons_self
    have hnextOrdered : next.start ≤ next.stop := h.ordered next (by simp)
    have hlt : first.stop < next.start := hfirst next List.mem_cons_self
    have hdocument := h.document_eq first List.mem_cons_self
    have hnextDocument := h.document_eq next (by simp)
    have hjoin : (first.union next).toOption = some ⟨document, first.start, next.stop⟩ := by
      have hstart : first.start ≤ next.start := hfirstOrdered.trans hlt.le
      have hstop : first.stop ≤ next.stop := hlt.le.trans hnextOrdered
      rw [union, if_pos (hdocument.trans hnextDocument.symm), min_eq_left hstart,
        max_eq_right hstop, hdocument]
      rfl
    -- the joined span takes the place of the first two
    have hjoined : InOrder document (⟨document, first.start, next.stop⟩ :: rest) := by
      have hrest := h.sublist ((List.sublist_cons_self next rest).trans (List.sublist_cons_self _ _))
      have hordered : first.start ≤ next.stop := (hfirstOrdered.trans hlt.le).trans hnextOrdered
      exact .cons rfl hordered (List.pairwise_cons.mp hpairwise).1 hrest
    have hcover : cover (first :: next :: rest)
        = cover (⟨document, first.start, next.stop⟩ :: rest) := by
      simp [cover, hjoin]
    rw [hcover, ih _ hjoined (by simp)]
    cases rest <;> simp

end Span

namespace Lexeme

/-- Every lexeme that is found has characters. -/
theorem chars_ne_nil_of_mem_split {current : Lexeme} {cs : List Char} (h : current.chars ≠ []) :
    ∀ lexeme ∈ current.split cs, lexeme.chars ≠ [] := by
  induction cs generalizing current with
  | nil => simpa [split] using h
  | cons c rest ih =>
    rw [split]
    cases hextend : current.extend? c with
    | some longer => exact ih (by simp [chars_of_extend? hextend])
    | none =>
      intro lexeme hmem
      rcases List.mem_cons.mp hmem with rfl | hmem
      · exact h
      · exact ih (by simp [start]) lexeme hmem

/-- No lexeme of a text is empty, so every token has characters. -/
theorem chars_ne_nil_of_mem_ofChars {cs : List Char} :
    ∀ lexeme ∈ ofChars cs, lexeme.chars ≠ [] := by
  cases cs with
  | nil => simp [ofChars]
  | cons c rest => exact chars_ne_nil_of_mem_split (by simp [start])

end Lexeme

namespace Token

/-- The characters of a token of a text. -/
def chars (text : SourceText) (token : Token) : List Char := text.slice token.offset token.length

/-- A token of a text without its place. -/
def lexeme (text : SourceText) (token : Token) : Lexeme := ⟨token.kind, token.chars text⟩

/-- A token keeps its kind without its place. -/
@[simp] theorem kind_lexeme (text : SourceText) (token : Token) :
    (token.lexeme text).kind = token.kind := rfl

/-- A token keeps its characters without its place. -/
@[simp] theorem chars_lexeme (text : SourceText) (token : Token) :
    (token.lexeme text).chars = token.chars text := rfl

/-- Lexemes in two parts are placed one part behind the characters of the other. -/
theorem place_append (text : SourceText) (offset : Nat) (a b : List Lexeme) :
    place text offset (a ++ b)
      = place text offset a ++ place text (offset + (a.flatMap Lexeme.chars).length) b := by
  induction a generalizing offset with
  | nil => rfl
  | cons lexeme rest ih => simp [place, ih, Nat.add_assoc]

/-- What holds of every placed token: it has characters, lies between the ends of the whole, and
has the span of its characters. -/
theorem of_mem_place {text : SourceText} {offset : Nat} {lexemes : List Lexeme}
    (hne : ∀ lexeme ∈ lexemes, lexeme.chars ≠ []) {token : Token}
    (h : token ∈ place text offset lexemes) :
    0 < token.length ∧ offset ≤ token.offset
      ∧ token.offset + token.length ≤ offset + (lexemes.flatMap Lexeme.chars).length
      ∧ token.span = text.spanOf token.offset (token.offset + token.length - 1) := by
  induction lexemes generalizing offset with
  | nil => simp [place] at h
  | cons lexeme rest ih =>
    have hpos := List.length_pos_iff.mpr (hne lexeme List.mem_cons_self)
    rw [List.flatMap_cons, List.length_append]
    rcases List.mem_cons.mp h with rfl | h
    · exact ⟨hpos, Nat.le_refl _, by dsimp only; omega, rfl⟩
    · obtain ⟨hlength, hle, hend, hspan⟩ :=
        ih (fun other hmem => hne other (List.mem_cons_of_mem _ hmem)) h
      exact ⟨hlength, by omega, by omega, hspan⟩

/-- Each placed token ends no later than those behind it begin. -/
theorem pairwise_place (text : SourceText) (offset : Nat) {lexemes : List Lexeme}
    (hne : ∀ lexeme ∈ lexemes, lexeme.chars ≠ []) :
    (place text offset lexemes).Pairwise fun a b => a.offset + a.length ≤ b.offset := by
  induction lexemes generalizing offset with
  | nil => exact List.Pairwise.nil
  | cons lexeme rest ih =>
    have hrest (other : Lexeme) (hmem : other ∈ rest) : other.chars ≠ [] :=
      hne other (List.mem_cons_of_mem _ hmem)
    exact List.pairwise_cons.mpr ⟨fun token hmem => (of_mem_place hrest hmem).2.1, ih _ hrest⟩

/-- The first placed token begins where the whole begins. -/
theorem start_head_of_place {text : SourceText} {offset : Nat} {lexemes : List Lexeme}
    {tokens : List Token} (h : tokens = place text offset lexemes) (hne : tokens ≠ []) :
    (tokens.head hne).span.start = text.locate offset := by
  subst h
  cases lexemes with
  | nil => exact absurd rfl hne
  | cons lexeme rest => rfl

/-- The last placed token ends where the whole ends. -/
theorem stop_getLast_of_place {text : SourceText} {offset : Nat} {lexemes : List Lexeme}
    {tokens : List Token} (h : tokens = place text offset lexemes) (hne : tokens ≠ []) :
    (tokens.getLast hne).span.stop
      = text.locate (offset + (lexemes.flatMap Lexeme.chars).length - 1) := by
  subst h
  rcases List.eq_nil_or_concat lexemes with rfl | ⟨init, last, rfl⟩
  · exact absurd rfl hne
  · simp [place_append, place, SourceText.spanOf, Nat.add_assoc]

/-- Where the characters of placed lexemes stand in the text, the placed tokens are these
lexemes. -/
theorem map_lexeme_place {text : SourceText} {offset : Nat} {lexemes : List Lexeme}
    (h : lexemes.flatMap Lexeme.chars <+: text.chars.drop offset) :
    (place text offset lexemes).map (lexeme text) = lexemes := by
  induction lexemes generalizing offset with
  | nil => rfl
  | cons lexeme rest ih =>
    obtain ⟨behind, hbehind⟩ := h
    rw [List.flatMap_cons, List.append_assoc] at hbehind
    have hfirst : text.slice offset lexeme.chars.length = lexeme.chars := by
      rw [SourceText.slice, ← hbehind, List.take_left]
    have hrest : rest.flatMap Lexeme.chars <+: text.chars.drop (offset + lexeme.chars.length) := by
      refine ⟨behind, ?_⟩
      rw [← List.drop_drop, ← hbehind, List.drop_left]
    rw [place, List.map_cons, ih hrest]
    simp [Token.lexeme, chars, hfirst]

end Token

namespace SourceText

variable (text : SourceText)

/-- The characters of tokens, one after the other. -/
def charsOf (tokens : List Token) : List Char := tokens.flatMap (Token.chars text)

/-- Without tokens there are no characters. -/
@[simp] theorem charsOf_nil : text.charsOf [] = [] := rfl

/-- Two runs of tokens have the characters of the first and then those of the second. -/
@[simp] theorem charsOf_append (a b : List Token) :
    text.charsOf (a ++ b) = text.charsOf a ++ text.charsOf b :=
  List.flatMap_append

/-- The characters of the first token come in front of those of the others. -/
@[simp] theorem charsOf_cons (token : Token) (rest : List Token) :
    text.charsOf (token :: rest) = token.chars text ++ text.charsOf rest :=
  List.flatMap_cons

/-- The characters of tokens are those of their lexemes, so they are the same elsewhere. -/
theorem charsOf_eq_flatMap_lexeme (tokens : List Token) :
    text.charsOf tokens = (tokens.map (Token.lexeme text)).flatMap Lexeme.chars := by
  rw [List.flatMap_map]
  rfl

/-- The tokens of a text without their places are the lexemes of its characters. -/
theorem map_lexeme_tokens :
    text.tokens.tokens.map (Token.lexeme text) = Lexeme.ofChars text.chars :=
  Token.map_lexeme_place (by simp [Lexeme.flatMap_chars_ofChars])

/-- The characters of the tokens of a text are the text. -/
theorem charsOf_tokens_tokens : text.charsOf text.tokens.tokens = text.chars := by
  rw [charsOf_eq_flatMap_lexeme, map_lexeme_tokens, Lexeme.flatMap_chars_ofChars]

/-- What holds of every token of a text: it has characters, lies in the text and has the span of its
characters. -/
theorem of_mem_tokens {token : Token} (h : token ∈ text.tokens.tokens) :
    0 < token.length ∧ token.offset + token.length ≤ text.length
      ∧ token.span = text.spanOf token.offset (token.offset + token.length - 1) := by
  obtain ⟨hpos, -, hend, hspan⟩ := Token.of_mem_place Lexeme.chars_ne_nil_of_mem_ofChars h
  rw [Lexeme.flatMap_chars_ofChars, Nat.zero_add] at hend
  exact ⟨hpos, hend, hspan⟩

/-- A token of a text has at least one character of it. -/
theorem chars_ne_nil {token : Token} (h : token ∈ text.tokens.tokens) : token.chars text ≠ [] := by
  have hmem := List.mem_map_of_mem (f := Token.lexeme text) h
  rw [map_lexeme_tokens] at hmem
  exact Lexeme.chars_ne_nil_of_mem_ofChars _ hmem

/-- The tokens of a text follow one another. -/
theorem pairwise_tokens :
    text.tokens.tokens.Pairwise fun a b => a.offset + a.length ≤ b.offset :=
  Token.pairwise_place text 0 Lexeme.chars_ne_nil_of_mem_ofChars

/-- The spans of the tokens of a text are in order. -/
theorem inOrder_tokens : Span.InOrder text.document (text.tokens.tokens.map Token.span) := by
  refine ⟨?_, ?_, ?_⟩
  · simp only [List.mem_map, forall_exists_index, and_imp, forall_apply_eq_imp_iff₂]
    intro token h
    rw [(text.of_mem_tokens h).2.2]
    rfl
  · simp only [List.mem_map, forall_exists_index, and_imp, forall_apply_eq_imp_iff₂]
    intro token h
    obtain ⟨hpos, -, hspan⟩ := text.of_mem_tokens h
    rw [hspan]
    exact text.locate_mono (by omega)
  · rw [List.pairwise_map]
    refine text.pairwise_tokens.imp_of_mem fun {a b} ha hb hle => ?_
    obtain ⟨hpos, -, haSpan⟩ := text.of_mem_tokens ha
    obtain ⟨-, -, hbSpan⟩ := text.of_mem_tokens hb
    rw [haSpan, hbSpan]
    exact text.locate_strictMono (by omega)

/-- Any tokens of a text, in their order, are covered from the start of the first to the end of the
last one. -/
theorem cover_of_sublist {tokens : List Token} (h : tokens.Sublist text.tokens.tokens)
    (hne : tokens ≠ []) :
    Token.cover tokens
      = some ⟨text.document, (tokens.head hne).span.start, (tokens.getLast hne).span.stop⟩ := by
  have horder := text.inOrder_tokens.sublist (h.map Token.span)
  rw [Token.cover, Span.cover_of_inOrder horder (by simpa using hne)]
  simp

/-- All tokens of a text are covered from its first to its last character. -/
theorem cover_tokens_tokens (hne : text.tokens.tokens ≠ []) :
    Token.cover text.tokens.tokens = some (text.spanOf 0 (text.length - 1)) := by
  have hplace : text.tokens.tokens = Token.place text 0 (Lexeme.ofChars text.chars) := rfl
  have hlast := Token.stop_getLast_of_place hplace hne
  rw [Lexeme.flatMap_chars_ofChars, Nat.zero_add] at hlast
  rw [text.cover_of_sublist (List.Sublist.refl _) hne, Token.start_head_of_place hplace hne, hlast]
  rfl

/-- Tokens that stand in a text one directly behind the other. -/
def IsRun (tokens : List Token) : Prop := tokens <:+: text.tokens.tokens

/-- A run is the lexemes of a stretch of the text in their place. -/
theorem IsRun.eq_place {text : SourceText} {run : List Token} (h : text.IsRun run) :
    ∃ offset, run = Token.place text offset (run.map (Token.lexeme text))
      ∧ text.charsOf run <+: text.chars.drop offset := by
  obtain ⟨before, behind, htokens⟩ := h
  have hlexemes := congrArg (List.map (Token.lexeme text)) htokens
  rw [map_lexeme_tokens, List.map_append, List.map_append] at hlexemes
  have hplace : text.tokens.tokens = Token.place text 0 (Lexeme.ofChars text.chars) := rfl
  rw [← hlexemes, List.append_assoc, Token.place_append, Token.place_append, ← htokens,
    List.append_assoc] at hplace
  obtain ⟨-, hplace⟩ := List.append_inj hplace (by simp [Token.length_place])
  obtain ⟨hrun, -⟩ := List.append_inj hplace (by simp [Token.length_place])
  refine ⟨_, hrun, text.charsOf behind, ?_⟩
  have hchars := Lexeme.flatMap_chars_ofChars text.chars
  rw [← hlexemes] at hchars
  simp only [List.flatMap_append, ← charsOf_eq_flatMap_lexeme, List.append_assoc] at hchars
  rw [← charsOf_eq_flatMap_lexeme, Nat.zero_add, ← hchars, List.drop_left]

/-- Tokens that stand in a row in a text are tokens of it in their order. -/
theorem IsRun.sublist {text : SourceText} {run : List Token} (h : text.IsRun run) :
    run.Sublist text.tokens.tokens :=
  List.IsInfix.sublist h

/-- A part of a run is a run. -/
theorem IsRun.part {text : SourceText} {run part : List Token} (h : text.IsRun run)
    (hpart : part <:+: run) : text.IsRun part :=
  hpart.trans h

/-- A run is covered by one span, which addresses exactly its characters. -/
theorem IsRun.extract_cover {text : SourceText} {run : List Token} (h : text.IsRun run)
    (hne : run ≠ []) :
    ∃ span, Token.cover run = some span ∧ text.extract span = .ok (text.charsOf run) := by
  obtain ⟨offset, hplace, hchars⟩ := h.eq_place
  obtain ⟨count, hcount⟩ : ∃ count, (text.charsOf run).length = count + 1 := by
    obtain ⟨first, rest, rfl⟩ := List.exists_cons_of_ne_nil hne
    have hfirst := h.sublist.subset List.mem_cons_self
    have hlexeme : first.chars text ≠ [] := text.chars_ne_nil hfirst
    exact Nat.exists_eq_succ_of_ne_zero (by simp [hlexeme])
  have hend : offset + count < text.length := by
    have hle := hchars.length_le
    rw [hcount, List.length_drop] at hle
    exact Nat.add_lt_of_lt_sub' hle
  have hslice : text.slice offset (count + 1) = text.charsOf run := by
    rw [slice, ← hcount]
    exact (List.prefix_iff_eq_take.mp hchars).symm
  refine ⟨text.spanOf offset (offset + count), ?_, ?_⟩
  · have hhead := Token.start_head_of_place hplace hne
    have hlast := Token.stop_getLast_of_place hplace hne
    rw [← charsOf_eq_flatMap_lexeme, hcount] at hlast
    rw [cover_of_sublist text h.sublist hne, hhead, hlast]
    rfl
  · rw [extract_spanOf text (Nat.le_add_right _ _) hend, Nat.add_sub_cancel_left, hslice]

end SourceText

end JobMarkup
