import JobMarkup.Grammar.Reader
import JobMarkup.Proofs.Accounting
import JobMarkup.Proofs.CharacterClasses
import JobMarkup.Proofs.TreeParts

/-!
# What a reader keeps of a text

Whatever a reader is asked for, in whatever order, it moves forward in the tokens of its text. The
node that one request gives holds tokens from the stretch that the reader moves over, in their order,
and every token of the stretch that the node lacks is blank or lies in the span of a diagnostic of
that very request.
-/

namespace JobMarkup

/-- No token of a text is the end of the text. -/
theorem SourceText.kind_ne_endOfText (text : SourceText) {token : Token}
    (h : token ∈ text.tokens.tokens) : token.kind ≠ .endOfText := by
  intro hkind
  have hmem := List.mem_map_of_mem (f := Token.lexeme text) h
  rw [map_lexeme_tokens] at hmem
  have hfits := Lexeme.fits_of_mem_ofChars _ hmem
  rw [Token.kind_lexeme, hkind] at hfits
  exact hfits

namespace Grammar

open JobMarkup.Tree

/-- Every production accounts for all the tokens that it reads. -/
theorem Production.accounts (production : Production) : production.rule.Accounts Node.tokens := by
  cases production with
  | partialSymbol =>
    exact (Rule.partialSymbol_exact.map Node.partialSymbol Node.tokens_partialSymbol).accounts
  | compoundSymbol =>
    exact (Rule.compoundSymbol_exact.map Node.compoundSymbol Node.tokens_compoundSymbol).accounts
  | namespacedSymbol =>
    exact (Rule.namespacedSymbol_exact.map Node.namespacedSymbol
      Node.tokens_namespacedSymbol).accounts
  | interpolation =>
    exact (Rule.interpolation_exact.map Node.interpolation Node.tokens_interpolation).accounts
  | content terminators =>
    exact ((Rule.content_exact terminators).map Node.content Node.tokens_content).accounts
  | «attribute» =>
    exact (Rule.attribute_exact.map Node.attribute Node.tokens_attribute).accounts
  | closingTag => exact Rule.closingTag_accounts.map Node.closingTag Node.tokens_closingTag
  | comment => exact (Rule.comment_exact.map Node.comment Node.tokens_comment).accounts
  | trivia =>
    intro tokens parsed h
    obtain rfl := Option.some.inj h
    refine .of_exact ?_
    rw [Parsed.map, Node.tokens_trivia]
    exact tokens_trivia tokens
  | element => exact (Rule.element_accounts maxDepth).map Node.element Node.tokens_element
  | document => exact Rule.document_accounts.map Node.document Node.tokens_document

/-- A production that declines leaves out blanks only. -/
theorem Production.accounted_restDeclined (production : Production) (tokens : List Token) :
    Accounted [] [] tokens (production.restDeclined tokens) := by
  cases production with
  | element => exact (Accounted.nil (skipBlanks tokens)).behind_blanks
  | document => exact (Accounted.nil (skipBlanks tokens)).behind_blanks
  | _ => exact .nil tokens

namespace Reader

/-- A reader of a stream after any requests in any order. -/
inductive Reachable (stream : TokenStream) : Reader → Prop
  | start : Reachable stream (.ofStream stream)
  | read {reader : Reader} (production : Production) :
      Reachable stream reader → Reachable stream (reader.read production).2

/-- The tokens of the node that a request gives, if it gives one. -/
def keptTokens (node : Option Node) : List Token := (node.map Node.tokens).getD []

/-- One request: what it moves over is accounted for by the node and the reports it gives. -/
theorem read_accounted (reader : Reader) (production : Production) :
    ∃ reports,
      Accounted (keptTokens (reader.read production).1) reports reader.rest
          (reader.read production).2.rest
        ∧ (reader.read production).2.stream = reader.stream
        ∧ (reader.read production).2.diagnostics
          = reader.diagnostics ++ reports.map (diagnose reader.stream) := by
  rw [read]
  split
  · next parsed hparsed =>
    exact ⟨parsed.reports, production.accounts reader.rest parsed hparsed, rfl, rfl⟩
  · exact ⟨[], production.accounted_restDeclined reader.rest, rfl, by simp⟩

/-- A reader never leaves its stream and never goes back. -/
theorem Reachable.suffix {stream : TokenStream} {reader : Reader} (h : Reachable stream reader) :
    reader.stream = stream ∧ reader.rest <:+ stream.tokens := by
  induction h with
  | start => exact ⟨rfl, List.suffix_refl _⟩
  | @read reader production _ ih =>
    obtain ⟨reports, ⟨moved, hmoved, -⟩, hstream, -⟩ := reader.read_accounted production
    exact ⟨hstream.trans ih.1, List.IsSuffix.trans ⟨moved, hmoved.symm⟩ ih.2⟩

/-- The token is blank, or lies in the span of one of the diagnostics that say that tokens were left
out of the tree. -/
def LeftOut (diagnostics : List Diagnostic) (token : Token) : Prop :=
  token.isBlank = true ∨ ∃ diagnostic ∈ diagnostics,
    (diagnostic.problem = .grammar .invalidToken
        ∨ diagnostic.problem = .grammar .invalidElementValue)
      ∧ diagnostic.span.document = token.span.document
      ∧ diagnostic.span.start ≤ token.span.start ∧ token.span.stop ≤ diagnostic.span.stop

/-- An excused token of a text is left out as the diagnostics of the reports say. -/
theorem leftOut_of_excused {text : SourceText} {reports : List Report} {run : List Token}
    (h : Excused reports run) (hsub : run.Sublist text.tokens.tokens) {token : Token}
    (hmem : token ∈ run) : LeftOut (reports.map (diagnose text.tokens)) token := by
  refine h.imp (fun hblank => hblank token hmem) ?_
  rintro ⟨fault, hfault, hreport⟩
  have hcover := text.cover_of_sublist hsub (List.ne_nil_of_mem hmem)
  have horder := text.inOrder_tokens.sublist (hsub.map Token.span)
  have hspans : (run.map Token.span) ≠ [] := by simpa using List.ne_nil_of_mem hmem
  have htoken := List.mem_map_of_mem (f := Token.span) hmem
  refine ⟨_, List.mem_map_of_mem hreport, ?_, ?_⟩
  · exact hfault.imp (congrArg Problem.grammar) (congrArg Problem.grammar)
  · rw [diagnose, TokenStream.spanOf, hcover]
    refine ⟨(horder.document_eq _ htoken).symm, ?_, ?_⟩
    · simpa using horder.start_head_le hspans htoken
    · simpa using horder.le_stop_getLast hspans htoken

/-- Reading loses, doubles and reorders no token. A reader that has answered any requests in any
order is asked for any production. It moves over some tokens behind those passed before. The tokens
of the node that it gives come from there, each behind the one before it, and the end of the text is
none of them. A token moved over that is not in the node is left out as the diagnostics of this
request say. Each node of the tree has the span of its parts, and if it has any token, that runs from
the start of its first to the end of its last token. -/
theorem read_keeps_tokens (text : SourceText) {reader : Reader}
    (h : Reachable text.tokens reader) (production : Production) :
    ∃ passed moved reported,
      text.tokens.tokens = passed ++ reader.rest
      ∧ reader.rest = moved ++ (reader.read production).2.rest
      ∧ (reader.read production).2.diagnostics = reader.diagnostics ++ reported
      ∧ (keptTokens (reader.read production).1).Sublist moved
      ∧ ((keptTokens (reader.read production).1).Pairwise fun a b => a.offset < b.offset)
      ∧ (∀ token ∈ keptTokens (reader.read production).1,
          token.kind ≠ .endOfText ∧ token ≠ text.tokens.endToken)
      ∧ (∀ token ∈ moved, token ∉ keptTokens (reader.read production).1 → LeftOut reported token)
      ∧ ∀ whole ∈ (reader.read production).1, ∀ node : Node, node.Within whole →
          (node.isLeaf = false → node.span = Span.cover (node.parts.filterMap Node.span))
          ∧ ∀ hne : node.tokens ≠ [],
            node.span = some ⟨text.document, (node.tokens.head hne).span.start,
              (node.tokens.getLast hne).span.stop⟩ := by
  obtain ⟨hstream, passed, hpassed⟩ := h.suffix
  obtain ⟨reports, ⟨moved, hmoved, hkept⟩, -, hdiagnostics⟩ := reader.read_accounted production
  have hmovedSub : moved.Sublist text.tokens.tokens := by
    rw [← hpassed, hmoved]
    exact (List.sublist_append_left moved _).trans (List.sublist_append_right passed _)
  have hsub := hkept.sublist.trans hmovedSub
  rw [hstream] at hdiagnostics
  refine ⟨passed, moved, _, hpassed.symm, hmoved, hdiagnostics, hkept.sublist, ?_, ?_, ?_, ?_⟩
  · refine (text.pairwise_tokens.sublist hsub).imp_of_mem fun {a b} ha _ hle => ?_
    have hpos := (text.of_mem_tokens (hsub.subset ha)).1
    omega
  · intro token hmem
    have hkind := text.kind_ne_endOfText (hsub.subset hmem)
    refine ⟨hkind, ?_⟩
    rintro rfl
    exact hkind rfl
  · intro token hmem hnot
    obtain hmem | ⟨run, hrun, hrunSub, hmem⟩ := hkept.mem_or_excused hmem
    · exact absurd hmem hnot
    · exact leftOut_of_excused hrun (hrunSub.trans hmovedSub) hmem
  · intro whole hwhole node hnode
    rw [Option.mem_def] at hwhole
    rw [hwhole] at hsub
    have hnodeSub := hnode.tokens_sublist.trans hsub
    exact ⟨Node.span_eq_cover_parts hnodeSub, Node.span_of_sublist hnodeSub⟩

/-- A request that declines, and then an element with a stray token in its tag. -/
theorem read_keeps_tokens_strayToken :
    let text := SourceText.ofString (.ofNat 0) "<a %/>"
    let reader := ((ofStream text.tokens).read .partialSymbol).2
    reader.rest.length = 5 ∧ (keptTokens (reader.read .element).1).length = 3
      ∧ ∃ moved reported, reader.rest = moved ++ (reader.read .element).2.rest
        ∧ (reader.read .element).2.diagnostics = reader.diagnostics ++ reported
        ∧ ∀ token ∈ moved, token ∉ keptTokens (reader.read .element).1 → LeftOut reported token := by
  intro text reader
  obtain ⟨passed, moved, reported, -, hmoved, hreported, -, -, -, hleftOut, -⟩ :=
    read_keeps_tokens text (.read .partialSymbol .start : Reachable text.tokens reader) .element
  have hlengths : reader.rest.length = 5 ∧ (keptTokens (reader.read .element).1).length = 3 := by
    decide +kernel
  exact ⟨hlengths.1, hlengths.2, moved, reported, hmoved, hreported, hleftOut⟩

end Reader

end Grammar

end JobMarkup
