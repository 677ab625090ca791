import JobMarkup.Problem
import JobMarkup.Tree.Tokens
import JobMarkup.Template.Basic

/-!
# Results of binding

Binding a part of a tree gives a value, diagnostics and uses of variables, the latter two in the
order of discovery. Results are put together by appending, so what a part gives does not depend on
what was bound before it.
-/

namespace JobMarkup.Template

open Variable

/-- A value, the diagnostics and the uses of variables found on the way to it. -/
structure Bound (α : Type) where
  value : α
  diagnostics : List Diagnostic := []
  references : List Reference := []

namespace Bound

variable {α β : Type}

/-- Both parts of binding, the second of which depends on the value of the first. -/
def andThen (first : Bound α) (second : α → Bound β) : Bound β :=
  let next := second first.value
  ⟨next.value, first.diagnostics ++ next.diagnostics, first.references ++ next.references⟩

/-- What is recorded comes in the order of binding: first what the first part records, then what the
second does. -/
instance : Monad Bound where
  pure value := ⟨value, [], []⟩
  bind := andThen

/-- A value on its own is bound to itself. -/
@[simp] theorem value_pure (value : α) : (pure value : Bound α).value = value := rfl

/-- A value on its own records no diagnostics. -/
@[simp] theorem diagnostics_pure (value : α) : (pure value : Bound α).diagnostics = [] := rfl

/-- A value on its own records no references. -/
@[simp] theorem references_pure (value : α) : (pure value : Bound α).references = [] := rfl

/-- The value of a sequence is the one that its second part finds. -/
@[simp] theorem value_bind (first : Bound α) (second : α → Bound β) :
    (first >>= second).value = (second first.value).value := rfl

/-- The diagnostics of a sequence are those of its first part and then those of its second. -/
@[simp] theorem diagnostics_bind (first : Bound α) (second : α → Bound β) :
    (first >>= second).diagnostics = first.diagnostics ++ (second first.value).diagnostics := rfl

/-- The references of a sequence are those of its first part and then those of its second. -/
@[simp] theorem references_bind (first : Bound α) (second : α → Bound β) :
    (first >>= second).references = first.references ++ (second first.value).references := rfl

/-- A fault at a span. -/
def faultAt (span : Span) (fault : BindingFault) : Bound Unit := ⟨(), [⟨.binding fault, span⟩], []⟩

/-- A fault about tokens. Without tokens it stands at the start of the text. -/
def faultAbout (text : SourceText) (tokens : List Token) (fault : BindingFault) : Bound Unit :=
  faultAt ((Token.cover tokens).getD (Span.origin text.document)) fault

/-- A value that counts as bound only if it is there; else it is reported as unbound. It is inlined
so that the tokens are listed only where there is a report. -/
@[macro_inline]
def required (text : SourceText) (part : BoundPart) (tokens : List Token)
    (bound : Bound (Option α)) : Bound (Option α) := do
  match ← bound with
  | some value => return some value
  | none =>
    faultAbout text tokens (.unbound part)
    return none

end Bound

end JobMarkup.Template
