import JobMarkup.Proofs.PartialBinding
import JobMarkup.Proofs.ReportedTokens

/-!
# Spans of a compilation

Whatever a text holds, every span in its compilation addresses characters of it. Reports of reading
are about tokens, and reports of binding are about nodes, all of which have tokens of their own; so
neither the end nor the start of the text has to stand in for a place that is missing. Each excerpt
in a template holds the characters of its span, so none of them is empty because its span was
refused.
-/

namespace JobMarkup.SourceText

open Grammar Template

variable {text : SourceText}

/-- The diagnostics of reading are placed at tokens of the text. -/
theorem grammarDiagnostics_coversSome :
    ∀ diagnostic ∈ text.compile.grammarDiagnostics,
      diagnostic.span.CoversSome text.tokens.tokens := by
  rw [grammarDiagnostics_compile, readDocument]
  cases hrule : Rule.document text.tokens.tokens with
  | none => simp
  | some parsed =>
    simp only [List.forall_mem_map]
    intro report hmem
    obtain ⟨hne, hsub⟩ := Rule.document_grounds _ parsed hrule report hmem
    obtain ⟨span, hcover, -⟩ := exists_cover_of_sublist hsub hne
    refine ⟨report.about, hsub, ?_⟩
    rw [hcover, Reader.diagnose, TokenStream.spanOf, hcover, Option.getD_some]

/-- The references of a document are placed at tokens of the document. -/
theorem references_coversSome {document : Tree.Document}
    (hdocument : text.compile.document = some document) :
    ∀ span ∈ (Variable.References.empty.addAll
        (Context.bindRoot text document.root).references).spans,
      span.CoversSome text.tokens.tokens := by
  obtain ⟨hfinds, -⟩ := bindRoot_finds hdocument
  intro span hmem
  have hperm := Variable.References.spans_addAll_perm .empty
    (Context.bindRoot text document.root).references
  have hspan := hperm.subset hmem
  rw [hfinds.references_eq, List.map_map] at hspan
  exact (hfinds.groups.coversSome span hspan).of_sublist (sublist_of_document_eq hdocument)

/-- The diagnostics of binding are placed at tokens of the text. -/
theorem bindingDiagnostics_coversSome :
    ∀ diagnostic ∈ text.compile.bindingDiagnostics,
      diagnostic.span.CoversSome text.tokens.tokens := by
  cases hdocument : text.compile.document with
  | none => simp [bindingDiagnostics_compile, hdocument]
  | some document =>
    obtain ⟨hfinds, -⟩ := bindRoot_finds hdocument
    rw [bindingDiagnostics_of_document_eq hdocument]
    refine List.forall_mem_append.mpr ⟨fun diagnostic hmem => ?_, fun diagnostic hmem => ?_⟩
    · exact (hfinds.reports diagnostic hmem).1.of_sublist (sublist_of_document_eq hdocument)
    · cases hkind : DocumentKind.ofRoot (Context.bindRoot text document.root).value with
      | job => simp [hkind, Context.unexpectedSymbols] at hmem
      | generic =>
        rw [hkind, Context.unexpectedSymbols] at hmem
        obtain ⟨span, hspan, rfl⟩ := List.mem_map.mp hmem
        exact references_coversSome hdocument span hspan

/-- Every diagnostic is placed at tokens of the text. -/
theorem diagnostics_coversSome :
    ∀ diagnostic ∈ text.compile.diagnostics, diagnostic.span.CoversSome text.tokens.tokens := by
  rw [Compilation.diagnostics, List.forall_mem_append]
  exact ⟨grammarDiagnostics_coversSome, bindingDiagnostics_coversSome⟩

/-- Every node of a document has a place in the text, but for lists of trivia and for the tokens of
a comment in a row. -/
theorem exists_span_of_within {document : Tree.Document}
    (hdocument : text.compile.document = some document) {node : Tree.Node}
    (hwithin : node.Within (.document document)) (hnode : node.mayBeEmpty = false) :
    ∃ span, node.span = some span ∧ text.Addresses span := by
  obtain ⟨rest, reports, hrule, -⟩ := exists_rule_of_document_eq hdocument
  have hfilled := (Rule.document_yields _ _ hrule).isFilled
  have hsub := hwithin.tokens_sublist.trans (sublist_of_document_eq hdocument)
  obtain ⟨span, hspan, hstretch⟩ := exists_cover_of_sublist hsub (hfilled node hwithin hnode)
  exact ⟨span, hspan, hstretch.addresses⟩

variable (text)

/-- All spans of a compilation address characters of the text, whatever the text is. Every
diagnostic is placed at tokens of the text: what is reported on reading is about at least one token,
and every node that can be reported on binding has a place of its own. In the template, every name,
key, literal and namespace holds the characters of its span, and at least one; the spans of
attributes and references address characters as well. -/
theorem compile_addresses :
    (∀ diagnostic ∈ text.compile.diagnostics, text.Addresses diagnostic.span
        ∧ diagnostic.span.CoversSome text.tokens.tokens)
      ∧ (∀ parsed, Rule.document text.tokens.tokens = some parsed →
        text.compile.grammarDiagnostics = parsed.reports.map (Reader.diagnose text.tokens)
          ∧ ∀ report ∈ parsed.reports, report.about ≠ [])
      ∧ (∀ document, text.compile.document = some document → ∀ node : Tree.Node,
        node.Within (.document document) → node.mayBeEmpty = false →
          ∃ span, node.span = some span ∧ text.Addresses span)
      ∧ (∀ template, text.compile.template = some template →
        (∀ root ∈ template.root, ∀ element ∈ root.elements, element.Quotes text)
          ∧ ∀ span ∈ template.references.spans, text.Addresses span) := by
  refine ⟨?_, ?_, ?_, ?_⟩
  · intro diagnostic hmem
    have hcovers := diagnostics_coversSome diagnostic hmem
    exact ⟨hcovers.isStretch.addresses, hcovers⟩
  · intro parsed hrule
    refine ⟨by rw [grammarDiagnostics_compile, readDocument, hrule], fun report hmem => ?_⟩
    exact (Rule.document_grounds _ parsed hrule report hmem).1
  · exact fun document hdocument node hwithin hnode =>
      exists_span_of_within hdocument hwithin hnode
  · intro template htemplate
    cases hdocument : text.compile.document with
    | none => simp [template_compile, hdocument] at htemplate
    | some document =>
      obtain rfl := Option.some.inj ((template_of_document_eq hdocument).symm.trans htemplate)
      exact ⟨(bindRoot_finds hdocument).2, fun span hmem =>
        (references_coversSome hdocument span hmem).isStretch.addresses⟩

end JobMarkup.SourceText
