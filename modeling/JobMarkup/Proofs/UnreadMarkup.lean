import JobMarkup.Proofs.ElementGrammar
import JobMarkup.Proofs.Stages
import JobMarkup.Proofs.TokenRuns

/-!
# What is left unread

A document is a root element and the trivia behind it, and nothing asks for the end of the text
there. So a text may compile without any diagnostic although not all of it has been read: a second
root, text behind the root, or a whole document behind some text may be left. A text without
diagnostics has a part that has been read completely, but for blanks, and a part that has not been
read at all. The latter is empty or begins with what is no trivia and, if nothing has been read in
front of it, no tag either.
-/

namespace JobMarkup

/-- The tokens of the document, in their order; none without a document. -/
def Compilation.treeTokens (compilation : Compilation) : List Token :=
  (compilation.document.map Tree.Document.tokens).getD []

namespace SourceText

open JobMarkup.Grammar

variable (text : SourceText)

/-- No token occurs twice in a text, since each has a place of its own, so tokens that are not in
the tree are told apart. -/
theorem nodup_tokens : text.tokens.tokens.Nodup := by
  refine text.pairwise_tokens.imp_of_mem fun {a b} ha _ hle heq => ?_
  obtain ⟨hpos, -, -⟩ := text.of_mem_tokens ha
  subst heq
  omega

variable {text}

/-- Without a document, nothing but blanks has been read. -/
theorem exists_unread_of_none (hdocument : text.compile.document = none) :
    ∃ read unread, text.tokens.tokens = read ++ unread ∧ AllBlank read
      ∧ BeginsNoElement unread := by
  have hrule : Rule.document text.tokens.tokens = none := by
    rw [document_compile, readDocument] at hdocument
    cases hrule : Rule.document text.tokens.tokens with
    | none => rfl
    | some parsed => simp [hrule] at hdocument
  have hroot : Rule.element maxDepth text.tokens.tokens = none := by
    simpa [Rule.document] using hrule
  exact ⟨_, _, (takeWhile_append_skipBlanks _).symm, allBlank_takeWhile _,
    ((element_isElementRule maxDepth).declines_iff _).mp hroot⟩

/-- A document that is read without a report holds all tokens that have been read, but for blanks,
and no trivia follow. -/
theorem exists_unread_of_some {document : Tree.Document}
    (hdocument : text.compile.document = some document)
    (hgrammar : text.compile.grammarDiagnostics = []) :
    ∃ read unread, text.tokens.tokens = read ++ unread ∧ document.tokens.Sublist read
      ∧ (∀ token ∈ read, token.isBlank = false → token ∈ document.tokens)
      ∧ Rule.trivium unread = none := by
  obtain ⟨rest, reports, hrule, hreports⟩ := exists_rule_of_document_eq hdocument
  obtain rfl : reports = [] := by simpa [hgrammar] using hreports.symm
  obtain ⟨read, htokens, hleaves⟩ := Rule.document_accounts _ _ hrule
  refine ⟨read, rest, htokens, hleaves.sublist, ?_, ?_⟩
  · intro token hmem hblank
    refine (hleaves.mem_or_excused hmem).resolve_right ?_
    rintro ⟨run, hexcused, -, hrun⟩
    rcases hexcused with hblanks | ⟨fault, -, hreport⟩
    · simp [hblanks token hrun] at hblank
    · simp at hreport
  · simp only [Rule.document, Option.map_eq_some_iff, Parsed.mk.injEq] at hrule
    obtain ⟨root, -, -, rfl, hnone⟩ := hrule
    exact (trivia_sound (List.append_eq_nil_iff.mp hnone).2).2

/-- Where nothing is reported on reading, the tokens of the document are those of the part that has
been read, but for blanks. -/
theorem exists_unread (hgrammar : text.compile.grammarDiagnostics = []) :
    ∃ read unread, text.tokens.tokens = read ++ unread ∧ text.compile.treeTokens.Sublist read
      ∧ (∀ token ∈ read, token.isBlank = false → token ∈ text.compile.treeTokens)
      ∧ Rule.trivium unread = none
      ∧ (text.compile.document = none → BeginsNoElement unread) := by
  cases hdocument : text.compile.document with
  | none =>
    obtain ⟨read, unread, htokens, hblank, hbegins⟩ := exists_unread_of_none hdocument
    refine ⟨read, unread, htokens, ?_, fun token hmem hnot => ?_,
      (beginsNoElement_iff.mp hbegins).1, fun _ => hbegins⟩
    · simp [Compilation.treeTokens, hdocument]
    · simp [hblank token hmem] at hnot
  | some document =>
    obtain ⟨read, unread, htokens, hsub, hread, htrivium⟩ :=
      exists_unread_of_some hdocument hgrammar
    have htree : text.compile.treeTokens = document.tokens := by
      simp [Compilation.treeTokens, hdocument]
    exact ⟨read, unread, htokens, htree ▸ hsub, htree ▸ hread, htrivium, by simp⟩

/-- A text without diagnostics has a part that has been read and one that has not been read. All
tokens of the former but blanks are in the document. The latter is left out of it: it does not begin
with trivia and, without a document, with no tag. So the document holds all tokens of the text but
blanks if and only if nothing has been left unread. -/
theorem exists_unread_of_not_hasErrors (hclean : text.compile.hasErrors = false) :
    ∃ read unread, text.tokens.tokens = read ++ unread
      ∧ (∀ token ∈ read, token.isBlank = false → token ∈ text.compile.treeTokens)
      ∧ (∀ token ∈ unread, token ∉ text.compile.treeTokens)
      ∧ Rule.trivium unread = none
      ∧ (text.compile.document = none → BeginsNoElement unread)
      ∧ ((∀ token ∈ text.tokens.tokens, token.isBlank = false → token ∈ text.compile.treeTokens)
        ↔ unread = []) := by
  have hgrammar : text.compile.grammarDiagnostics = [] := by
    simp only [Compilation.hasErrors, Compilation.diagnostics, Bool.not_eq_false',
      List.isEmpty_iff, List.append_eq_nil_iff] at hclean
    exact hclean.1
  obtain ⟨read, unread, htokens, hsub, hread, htrivium, hnone⟩ := exists_unread hgrammar
  have hnodup := text.nodup_tokens
  rw [htokens] at hnodup
  have hunread : ∀ token ∈ unread, token ∉ text.compile.treeTokens := fun token hmem htree =>
    (List.nodup_append.mp hnodup).2.2 token (hsub.subset htree) token hmem rfl
  refine ⟨read, unread, htokens, hread, hunread, htrivium, hnone, ?_, ?_⟩
  · intro hall
    cases unread with
    | nil => rfl
    | cons token rest =>
      -- the first token that is left unread is not blank, so it should be in the document
      have hblank := (Rule.trivium_eq_none_iff.mp htrivium).1
      have hmem : token ∈ text.tokens.tokens := by simp [htokens]
      exact absurd (hall token hmem hblank) (hunread token List.mem_cons_self)
  · rintro rfl
    rwa [htokens, List.append_nil]

/-- A second root is what is left unread behind the first one. -/
theorem exists_unread_of_not_hasErrors_secondRoot :
    (ofString (.ofNat 0) "<a/><b/>").compile.hasErrors = false
      ∧ ∃ read unread, (ofString (.ofNat 0) "<a/><b/>").tokens.tokens = read ++ unread
        ∧ unread ≠ [] ∧ Rule.trivium unread = none := by
  have hclean : (ofString (.ofNat 0) "<a/><b/>").compile.hasErrors = false := by decide +kernel
  have hlost : ∃ token ∈ (ofString (.ofNat 0) "<a/><b/>").tokens.tokens, token.isBlank = false
      ∧ token ∉ (ofString (.ofNat 0) "<a/><b/>").compile.treeTokens := by
    decide +kernel
  obtain ⟨token, hmem, hblank, hnot⟩ := hlost
  obtain ⟨read, unread, htokens, -, -, htrivium, -, hall⟩ := exists_unread_of_not_hasErrors hclean
  refine ⟨hclean, read, unread, htokens, fun hnil => ?_, htrivium⟩
  exact hnot (hall.mpr hnil token hmem hblank)

/-- A root behind some text is left unread without a report. So a text without diagnostics need not
have been read completely. -/
theorem not_forall_mem_treeTokens :
    ¬∀ text : SourceText, text.compile.hasErrors = false →
      ∀ token ∈ text.tokens.tokens, token.isBlank = false → token ∈ text.compile.treeTokens := by
  intro hall
  have hclean : (ofString (.ofNat 0) "x<a/>").compile.hasErrors = false := by decide +kernel
  have hunread : ∃ token ∈ (ofString (.ofNat 0) "x<a/>").tokens.tokens, token.isBlank = false
      ∧ token ∉ (ofString (.ofNat 0) "x<a/>").compile.treeTokens := by
    decide +kernel
  obtain ⟨token, hmem, hblank, hnot⟩ := hunread
  exact hnot (hall _ hclean token hmem hblank)

end SourceText

end JobMarkup
