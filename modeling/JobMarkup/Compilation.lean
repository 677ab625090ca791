import JobMarkup.Grammar.Reader
import JobMarkup.Highlight.Classification
import JobMarkup.Template.Context
import JobMarkup.Template.Writing

/-!
# Compilation

Compiling a text reads its tokens, the document in them and the template that it stands for, and
keeps all of these with the diagnostics of both steps. There is a template exactly if there is a
document.
-/

namespace JobMarkup

open Variable

/-- A text with everything that is known about it. -/
structure Compilation where
  text : SourceText
  stream : TokenStream
  /-- The markup tree, if the text begins with any markup. -/
  document : Option Tree.Document
  grammarDiagnostics : List Diagnostic
  /-- The template of the document. -/
  template : Option Template.Document
  bindingDiagnostics : List Diagnostic

/-- Read and bind a text. -/
def SourceText.compile (text : SourceText) : Compilation :=
  let stream := text.tokens
  let (document, grammarDiagnostics) := Grammar.readDocument stream
  match document with
  | none => ⟨text, stream, none, grammarDiagnostics, none, []⟩
  | some tree =>
    let (template, context) := (Template.Context.ofText text).bindDocument tree
    ⟨text, stream, some tree, grammarDiagnostics, some template, context.diagnostics⟩

namespace Compilation

/-- All diagnostics, those of reading first. -/
def diagnostics (compilation : Compilation) : List Diagnostic :=
  compilation.grammarDiagnostics ++ compilation.bindingDiagnostics

/-- Anything at all has been reported. -/
def hasErrors (compilation : Compilation) : Bool := !compilation.diagnostics.isEmpty

/-- The uses of variables in the document. -/
def references (compilation : Compilation) : References :=
  (compilation.template.map Template.Document.references).getD .empty

/-- The document with its variables replaced by values; empty without a document. -/
def instantiate (compilation : Compilation) (values : Values) : String :=
  (compilation.template.map fun template => template.instantiate values).getD ""

/-- The highlights of the document. -/
def highlights (compilation : Compilation) : List Highlight :=
  (compilation.document.map (Highlight.ofDocument compilation.text)).getD []

end Compilation

end JobMarkup
