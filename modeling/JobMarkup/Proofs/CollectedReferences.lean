import JobMarkup.Proofs.PartialBinding

/-!
# References of a template

The references of a document are collected on the way, while its elements are bound. They are those
of the symbols in the template all the same, for faulty markup as well: symbols of parts that could
not be bound are neither in the template nor among the references. The symbols stand in the order of
the text, so each variable is used at places that follow one another.

Whether references are reported depends on the root alone. Only a root with the name of a job makes
a job document, in which none is reported; in any other document all of them are, behind all other
reports.
-/

namespace JobMarkup

namespace Template

open Variable

/-- The symbols of a document, in the order of the text. -/
def Document.symbols (document : Document) : List Symbol :=
  document.root.toList.flatMap Element.symbols

/-- The spans of the symbols that refer to one variable. -/
def Document.usesOf (document : Document) (identifier : Identifier) : List Span :=
  (document.symbols.filter fun symbol => symbol.identifier = identifier).map Symbol.span

/-- The spans that are kept for a variable are those of its symbols, in their order. -/
theorem spansOf_map_reference (symbols : List Symbol) (identifier : Identifier) :
    References.spansOf (symbols.map Symbol.reference) identifier
      = (symbols.filter fun symbol => symbol.identifier = identifier).map Symbol.span := by
  rw [References.spansOf, List.filter_map, List.map_map]
  rfl

/-- A document is a job document exactly if its root has been bound and has the name of a job,
whatever the case of its letters. -/
theorem ofRoot_eq_job_iff {root : Option Element} :
    DocumentKind.ofRoot root = .job
      ↔ ∃ element, root = some element ∧ equalIgnoringCase element.name.text jobName = true := by
  cases root with
  | none => simp [DocumentKind.ofRoot]
  | some element => simp [DocumentKind.ofRoot]

end Template

namespace SourceText

open Template Variable

variable {text : SourceText}

/-- The references of a document are those of the symbols in its template: each variable is used by
the symbols that refer to it, in the order of the text, and the variables come in the order of their
first use. The document is a job document exactly if its root has been bound and has the name of a
job. No symbol of a job document is reported; in any other document the reports of the symbols, one
for each use, come behind all others. -/
theorem compile_collects {document : Tree.Document}
    (hdocument : text.compile.document = some document) :
    ∃ template, text.compile.template = some template
      ∧ (∀ identifier, template.references.get? identifier
        = if template.usesOf identifier = [] then none else some (template.usesOf identifier))
      ∧ template.references.identifiers = (template.symbols.map Symbol.identifier).eraseDups
      ∧ template.references.spans.Perm (template.symbols.map Symbol.span)
      ∧ (template.symbols.map Symbol.span).Pairwise (fun a b => a.stop < b.start)
      ∧ (template.kind = .job ↔ ∃ root, template.root = some root
        ∧ equalIgnoringCase root.name.text jobName = true)
      ∧ (template.kind = .job → ∀ diagnostic ∈ text.compile.bindingDiagnostics,
        diagnostic.problem ≠ .binding .unexpectedSymbol)
      ∧ (template.kind = .generic → ∃ others,
        text.compile.bindingDiagnostics
            = others ++ template.references.spans.map (⟨.binding .unexpectedSymbol, ·⟩)
          ∧ ∀ diagnostic ∈ others, diagnostic.problem ≠ .binding .unexpectedSymbol) := by
  obtain ⟨hfinds, -⟩ := bindRoot_finds hdocument
  have hdiagnostics := bindingDiagnostics_of_document_eq hdocument
  have horder := hfinds.groups.inOrder (sublist_of_document_eq hdocument)
  have hothers : ∀ diagnostic ∈ (Context.bindRoot text document.root).diagnostics,
      diagnostic.problem ≠ .binding .unexpectedSymbol := by
    intro diagnostic hmem
    obtain ⟨-, fault, hproblem, hfault⟩ := hfinds.reports diagnostic hmem
    simpa [hproblem] using hfault
  refine ⟨_, template_of_document_eq hdocument, ?_, ?_, ?_, horder.pairwise, ofRoot_eq_job_iff,
    ?_, ?_⟩
  · intro identifier
    rw [References.get?_addAll, hfinds.references_eq, spansOf_map_reference]
    rfl
  · rw [References.identifiers_addAll, hfinds.references_eq, List.map_map]
    rfl
  · have hperm := References.spans_addAll_perm .empty
      (Context.bindRoot text document.root).references
    conv_rhs at hperm => rw [hfinds.references_eq, List.map_map]
    exact hperm
  · intro hjob
    have hkind : DocumentKind.ofRoot (Context.bindRoot text document.root).value = .job := hjob
    rw [hdiagnostics, hkind, Context.unexpectedSymbols, List.append_nil]
    exact hothers
  · intro hgeneric
    have hkind : DocumentKind.ofRoot (Context.bindRoot text document.root).value = .generic :=
      hgeneric
    rw [hdiagnostics, hkind]
    exact ⟨_, rfl, hothers⟩

/-- An element whose closing tag has another name, with one variable used twice and with a symbol
that names none. -/
theorem compile_collects_repeated :
    ∃ document template,
      (ofString (.ofNat 0)
          "<a k=\"@\x7bn/x\x7d@@\x7by\x7d@\">@\x7bm/z\x7d@@\x7bn/x\x7d@</b>").compile.document
            = some document
        ∧ (ofString (.ofNat 0)
          "<a k=\"@\x7bn/x\x7d@@\x7by\x7d@\">@\x7bm/z\x7d@@\x7bn/x\x7d@</b>").compile.template
            = some template
        ∧ template.references.identifiers = [⟨"n", "x"⟩, ⟨"m", "z"⟩]
        ∧ template.references.identifiers = (template.symbols.map Symbol.identifier).eraseDups := by
  have hcompiled : (ofString (.ofNat 0)
        "<a k=\"@\x7bn/x\x7d@@\x7by\x7d@\">@\x7bm/z\x7d@@\x7bn/x\x7d@</b>").compile.document.isSome = true
      ∧ (ofString (.ofNat 0)
        "<a k=\"@\x7bn/x\x7d@@\x7by\x7d@\">@\x7bm/z\x7d@@\x7bn/x\x7d@</b>").compile.references.identifiers
          = [⟨"n", "x"⟩, ⟨"m", "z"⟩] := by
    decide +kernel
  obtain ⟨hsome, hidentifiers⟩ := hcompiled
  obtain ⟨document, hdocument⟩ := Option.isSome_iff_exists.mp hsome
  obtain ⟨template, htemplate, -, hvariables, -⟩ := compile_collects hdocument
  refine ⟨document, template, hdocument, htemplate, ?_, hvariables⟩
  simpa [Compilation.references, htemplate] using hidentifiers

end SourceText

end JobMarkup
