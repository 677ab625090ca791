import JobMarkup.Compilation
import JobMarkup.Proofs.Accounting

/-!
# The stages of a compilation

What a compilation holds, stage by stage: the document and the diagnostics of reading come from the
document rule, and the template and the diagnostics of binding are those of the document in a
context in which nothing has been found. The tokens of the document are tokens of the text in their
order.
-/

namespace JobMarkup.SourceText

open JobMarkup.Grammar

variable (text : SourceText)

/-- A compilation is the reading of the tokens and, where that gives a document, the binding
of it. -/
theorem compile_eq :
    text.compile = ⟨text, text.tokens, (readDocument text.tokens).1, (readDocument text.tokens).2,
      (readDocument text.tokens).1.map fun document =>
        ((Template.Context.ofText text).bindDocument document).1,
      ((readDocument text.tokens).1.map fun document =>
        ((Template.Context.ofText text).bindDocument document).2.diagnostics).getD []⟩ := by
  rw [compile]
  rcases readDocument text.tokens with ⟨_ | document, diagnostics⟩ <;> rfl

/-- A compilation keeps the text that it is made from. -/
@[simp] theorem text_compile : text.compile.text = text := by
  rw [compile_eq]

/-- The document of a compilation is the one that is read from the tokens of the text. -/
theorem document_compile : text.compile.document = (readDocument text.tokens).1 := by
  rw [compile_eq]

/-- The diagnostics on grammar are those of reading the tokens of the text. -/
theorem grammarDiagnostics_compile :
    text.compile.grammarDiagnostics = (readDocument text.tokens).2 := by
  rw [compile_eq]

/-- The template of a compilation is its document, bound in a fresh context. -/
theorem template_compile :
    text.compile.template = text.compile.document.map fun document =>
      ((Template.Context.ofText text).bindDocument document).1 := by
  rw [compile_eq]

/-- The diagnostics of binding are those of the document in a fresh context, and none
without one. -/
theorem bindingDiagnostics_compile :
    text.compile.bindingDiagnostics = (text.compile.document.map fun document =>
      ((Template.Context.ofText text).bindDocument document).2.diagnostics).getD [] := by
  rw [compile_eq]

variable {text} {document : Tree.Document}

/-- The document of a text is what the document rule reads, with the reports of the rule. -/
theorem exists_rule_of_document_eq (h : text.compile.document = some document) :
    ∃ rest reports, Rule.document text.tokens.tokens = some ⟨document, rest, reports⟩
      ∧ text.compile.grammarDiagnostics = reports.map (Reader.diagnose text.tokens) := by
  rw [document_compile, readDocument] at h
  rw [grammarDiagnostics_compile, readDocument]
  cases hrule : Rule.document text.tokens.tokens with
  | none => simp [hrule] at h
  | some parsed =>
    simp only [hrule, Option.some.injEq] at h
    exact ⟨parsed.rest, parsed.reports, by rw [← h], rfl⟩

/-- The tokens of the document that is read from a text are tokens of the text in their order. -/
theorem sublist_of_document_eq (h : text.compile.document = some document) :
    document.tokens.Sublist text.tokens.tokens := by
  obtain ⟨rest, reports, hrule, -⟩ := exists_rule_of_document_eq h
  obtain ⟨read, htokens, hleaves⟩ := Rule.document_accounts _ _ hrule
  rw [htokens]
  exact hleaves.sublist.trans (List.sublist_append_left _ _)

/-- The template of a document: its root, the kind that the root tells, and the uses of variables
that have been found in it. -/
theorem template_of_document_eq (h : text.compile.document = some document) :
    text.compile.template = some
      ⟨.ofRoot (Template.Context.bindRoot text document.root).value,
        (Template.Context.bindRoot text document.root).value,
        Variable.References.empty.addAll
          (Template.Context.bindRoot text document.root).references⟩ := by
  rw [template_compile, h]
  rfl

/-- The reports of binding: those found in the root, then those of uses that are not expected. -/
theorem bindingDiagnostics_of_document_eq (h : text.compile.document = some document) :
    text.compile.bindingDiagnostics
      = (Template.Context.bindRoot text document.root).diagnostics
        ++ Template.Context.unexpectedSymbols
          (.ofRoot (Template.Context.bindRoot text document.root).value)
          (Variable.References.empty.addAll
            (Template.Context.bindRoot text document.root).references) := by
  rw [bindingDiagnostics_compile, h]
  rfl

end JobMarkup.SourceText
