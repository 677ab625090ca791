import JobMarkup.Template.Binder

/-!
# What a binder leaves behind

A binder could read all that a context holds. What it does nevertheless depends on nothing but the text:
there is a log, a value with diagnostics and uses of variables, and in any context of the text the
binder gives this value and adds what is in the log. Logs are put together as the binders are.
-/

namespace JobMarkup.Template

open JobMarkup.Tree JobMarkup.Variable

namespace Binder

variable {α β : Type} {text : SourceText}

/-- A sequence is run by running its second part in the context that the first part leaves behind. -/
theorem run_bind (first : Binder α) (next : α → Binder β) (context : Context) :
    (first >>= next).run context = (next (first.run context).1).run (first.run context).2 :=
  rfl

/-- In every context of the text, the binder gives the value of the log and adds the diagnostics and the
uses of variables in it. -/
def Logs (text : SourceText) (binder : Binder α) (log : Bound α) : Prop :=
  ∀ context : Context, context.text = text →
    binder.run context = (log.value, context.record log)

/-- A value on its own leaves nothing behind. -/
theorem Logs.pure (value : α) : Logs text (pure value) (pure value) := by
  intro context _
  change (value, context) = (value, context.record (Pure.pure value))
  simp [Context.record]

/-- A log may be put in the place of an equal one, as the log of a sequence in a simpler form. -/
theorem Logs.of_eq {binder : Binder α} {log log' : Bound α} (h : Logs text binder log)
    (heq : log = log') : Logs text binder log' :=
  heq ▸ h

/-- Two binders one after the other log what the first logs and then what the second logs. -/
theorem Logs.bind {first : Binder α} {next : α → Binder β} {log : Bound α} {following : Bound β}
    (h : Logs text first log) (hnext : Logs text (next log.value) following) :
    Logs text (first >>= next) (log >>= fun _ => following) := by
  intro context htext
  rw [run_bind, h context htext, hnext (context.record log) htext]
  simp [Context.record, References.addAll_append]

/-- A binder whose value is only computed with logs what it logs. -/
theorem Logs.bind_pure {first : Binder α} {log : Bound α} (h : Logs text first log) (f : α → β) :
    Logs text (first >>= fun value => Pure.pure (f value))
      (log >>= fun value => Pure.pure (f value)) :=
  h.bind (.pure (f log.value))

/-- A report leaves one diagnostic behind, at its extent or at the start of the text. -/
theorem logs_report (fault : BindingFault) (extent : Option Span) :
    Logs text (report fault extent)
      (Bound.faultAt (extent.getD (Span.origin text.document)) fault) := by
  intro context htext
  subst htext
  rfl

/-- An excerpt is read from the text and leaves nothing behind. -/
theorem logs_excerpt (span : Span) : Logs text (excerpt span) (pure (.ofSpan text span)) := by
  intro context htext
  subst htext
  exact Logs.pure _ context rfl

/-- The use of a symbol leaves one reference behind and no diagnostic. -/
theorem logs_use (symbol : Symbol) : Logs text (use symbol) ⟨(), [], [symbol.reference]⟩ := by
  intro context _
  change ((), { context with references := context.references.add symbol.reference }) = _
  simp [Context.record, References.addAll]

/-- The reports for uses of variables are the unexpected symbols of the kind of document. -/
theorem logs_reportUses (kind : DocumentKind) (references : References) :
    Logs text (reportUses kind references)
      ⟨(), Context.unexpectedSymbols kind references, []⟩ := by
  cases kind with
  | job => exact .pure ()
  | generic =>
    rw [reportUses, Context.unexpectedSymbols]
    induction references.spans with
    | nil => exact .pure ()
    | cons span rest ih =>
      have hstep : Logs text
          (report .unexpectedSymbol (some span) >>= fun _ =>
            rest.forM fun span => report .unexpectedSymbol (some span)) _ :=
        (logs_report _ _).bind ih
      exact hstep

/-- What a document adds to what its root has left behind: reports of all uses that are known then,
unless it is a job document. -/
theorem run_ofDocument_of_root {document : Tree.Document} {context recorded : Context}
    {root : Option Element}
    (h : (required .element document.root.extent (ofElement document.root)).run context
      = (root, recorded)) :
    (ofDocument document).run context
      = (⟨.ofRoot root, root, recorded.references⟩,
        { recorded with diagnostics := recorded.diagnostics
            ++ Context.unexpectedSymbols (.ofRoot root) recorded.references }) := by
  rw [ofDocument, run_bind, h]
  change (_, ((reportUses (.ofRoot root) recorded.references).run recorded).2) = _
  rw [logs_reportUses _ _ recorded rfl]
  rfl

/-- The binder has a log, which is as stated. -/
def Ensures (text : SourceText) (binder : Binder α) (holds : Bound α → Prop) : Prop :=
  ∃ log, Logs text binder log ∧ holds log

/-- A binder whose log is known ensures all that is true of the log. -/
theorem Logs.ensures {binder : Binder α} {log : Bound α} {holds : Bound α → Prop}
    (h : Logs text binder log) (hlog : holds log) : Ensures text binder holds :=
  ⟨log, h, hlog⟩

/-- A value on its own ensures what is true of the value with an empty log. -/
theorem ensures_pure {value : α} {holds : Bound α → Prop} (h : holds (pure value)) :
    Ensures text (pure value) holds :=
  ⟨_, .pure value, h⟩

/-- A sequence ensures what its second part ensures behind every log that the first part may have. -/
theorem Ensures.bind {first : Binder α} {next : α → Binder β} {holds : Bound α → Prop}
    {after : Bound β → Prop} (h : Ensures text first holds)
    (hnext : ∀ log, holds log →
      Ensures text (next log.value) fun following => after (log >>= fun _ => following)) :
    Ensures text (first >>= next) after := by
  obtain ⟨log, hlog, hholds⟩ := h
  obtain ⟨following, hfollowing, hafter⟩ := hnext log hholds
  exact ⟨_, hlog.bind hfollowing, hafter⟩

/-- Where the log of the first part is known, only what the second part ensures is left to show. -/
theorem Logs.bind_ensures {first : Binder α} {next : α → Binder β} {log : Bound α}
    {after : Bound β → Prop} (h : Logs text first log)
    (hnext : Ensures text (next log.value) fun following => after (log >>= fun _ => following)) :
    Ensures text (first >>= next) after :=
  (h.ensures rfl : Ensures text first (· = log)).bind (by rintro _ rfl; exact hnext)

/-- A binder ensures all that follows from what it ensures. -/
theorem Ensures.mono {binder : Binder α} {holds holds' : Bound α → Prop}
    (h : Ensures text binder holds) (himp : ∀ log, holds log → holds' log) :
    Ensures text binder holds' :=
  h.imp fun log ⟨hlog, hholds⟩ => ⟨hlog, himp log hholds⟩

end Binder

end JobMarkup.Template
