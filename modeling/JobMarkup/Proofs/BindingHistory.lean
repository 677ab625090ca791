import JobMarkup.Proofs.Omissions
import JobMarkup.Proofs.VariableUses

/-!
# The history of a context

Binding only appends to a context: to the diagnostics, to the variables, and to the uses of each of them.
What it appends depends on nothing but the text, unless a document is bound, which knows of all uses
before it. So the nodes of a text can be bound one by one in contexts of their own, and what has been
handed out of a context stays true of it.
-/

namespace JobMarkup

namespace Variable.References

/-- The variables come as before, and so do the uses of each; further ones may stand behind them. -/
structure Extends (old new : References) : Prop where
  identifiers : old.identifiers <+: new.identifiers
  uses : ∀ {identifier : Identifier} {spans : List Span}, old.get? identifier = some spans →
    ∃ others, new.get? identifier = some (spans ++ others)

/-- References extend themselves, as in a history in which nothing happens. -/
theorem Extends.refl (references : References) : references.Extends references :=
  ⟨List.prefix_refl _, fun h => ⟨[], by rw [h, List.append_nil]⟩⟩

/-- References that extend others extend all that those extend, so a history is put together from
its steps. -/
theorem Extends.trans {first second third : References} (h : first.Extends second)
    (h' : second.Extends third) : first.Extends third where
  identifiers := h.identifiers.trans h'.identifiers
  uses hspans := by
    obtain ⟨others, hothers⟩ := h.uses hspans
    obtain ⟨more, hmore⟩ := h'.uses hothers
    exact ⟨others ++ more, by rw [hmore, List.append_assoc]⟩

/-- A use is added behind the others: variables keep their places, and their uses stay in front. -/
theorem extends_add (references : References) (reference : Reference) :
    references.Extends (references.add reference) where
  identifiers := by
    rw [identifiers_add]
    split
    · exact List.prefix_refl _
    · exact List.prefix_append _ _
  uses := by
    intro identifier spans hspans
    rw [get?_add, hspans]
    split
    · exact ⟨[reference.span], rfl⟩
    · exact ⟨[], by rw [List.append_nil]⟩

/-- Any number of uses are added behind those that are there. -/
theorem extends_addAll (references : References) (added : List Reference) :
    references.Extends (references.addAll added) := by
  induction added generalizing references with
  | nil => exact .refl references
  | cons reference rest ih => exact (references.extends_add reference).trans (ih _)

end Variable.References

namespace Template

open JobMarkup.Tree JobMarkup.Variable

/-! ## Contexts -/

namespace Context

/-- The text is the same, and all that has been found before stands in front. -/
structure Extends (old new : Context) : Prop where
  text : new.text = old.text
  diagnostics : old.diagnostics <+: new.diagnostics
  references : old.references.Extends new.references

/-- A context extends itself, as in a history in which nothing happens. -/
theorem Extends.refl (context : Context) : context.Extends context :=
  ⟨rfl, List.prefix_refl _, .refl _⟩

/-- A context that extends another extends all that this one extends, step after step. -/
theorem Extends.trans {first second third : Context} (h : first.Extends second)
    (h' : second.Extends third) : first.Extends third :=
  ⟨h'.text.trans h.text, h.diagnostics.trans h'.diagnostics, h.references.trans h'.references⟩

/-- A context in which something is recorded extends the context as it was before. -/
theorem extends_record {α : Type} (context : Context) (log : Bound α) :
    context.Extends (context.record log) :=
  ⟨rfl, List.prefix_append _ _, References.extends_addAll _ _⟩

end Context

namespace Binder

/-! ## One node -/

/-- Every node but a document has a log. -/
theorem exists_logs_ofNode (text : SourceText) {node : Tree.Node} (h : node.kind ≠ .document) :
    ∃ log, Logs text (ofNode node) log := by
  have hmap {α : Type} {part : Binder α} {holds : Bound α → Prop} (hpart : Ensures text part holds)
      (give : α → Option Node) : ∃ log, Logs text (part >>= fun value => pure (give value)) log :=
    let ⟨_, hlog, _⟩ := hpart
    ⟨_, hlog.bind_pure give⟩
  cases node with
  | document whole => exact absurd rfl h
  | element element => exact hmap (ofElement_ensures element) _
  | «attribute» attr => exact hmap (ofAttribute_ensures attr) _
  | namespacedSymbol nodes => exact hmap (ofSymbol_ensures nodes) _
  | interpolation whole => exact hmap (ofInterpolation_ensures whole) _
  | content nodes => exact hmap (ofValues_ensures none nodes) _
  | _ => exact ⟨_, .pure none⟩

/-- What a node gives and leaves behind in a context of its own. -/
def alone (text : SourceText) (node : Tree.Node) : Option Node × Context :=
  (ofNode node).run (.ofText text)

/-- A node other than a document gives what it gives alone, and it adds what it leaves behind alone. -/
theorem run_ofNode_eq_alone (context : Context) {node : Tree.Node} (h : node.kind ≠ .document) :
    ∃ uses, (alone context.text node).2.references = References.empty.addAll uses
      ∧ (ofNode node).run context
        = ((alone context.text node).1,
          { context with
            diagnostics := context.diagnostics ++ (alone context.text node).2.diagnostics
            references := context.references.addAll uses }) := by
  obtain ⟨log, hlog⟩ := exists_logs_ofNode context.text h
  have halone : alone context.text node = (log.value, (Context.ofText context.text).record log) :=
    hlog _ rfl
  refine ⟨log.references, by rw [halone]; rfl, ?_⟩
  rw [hlog context rfl, halone]
  rfl

/-- A document adds to what its root has added, although it reads all of it. -/
theorem extends_ofDocument (context : Context) (document : Tree.Document) :
    context.Extends ((ofDocument document).run context).2 := by
  obtain ⟨log, hlog, -⟩ := @ensures_required context.text _ _ _ .element document.root.extent
    (ofElement_ensures document.root)
  rw [run_ofDocument_of_root (hlog context rfl)]
  exact (context.extends_record log).trans ⟨rfl, List.prefix_append _ _, .refl _⟩

/-- A context only ever grows. -/
theorem extends_ofNode (context : Context) (node : Tree.Node) :
    context.Extends ((ofNode node).run context).2 := by
  by_cases h : node.kind = .document
  · cases node <;> cases h
    exact extends_ofDocument context _
  · obtain ⟨log, hlog⟩ := exists_logs_ofNode context.text h
    rw [hlog context rfl]
    exact context.extends_record log

/-! ## Nodes in a row -/

/-- Nodes that are no documents are bound together as each is alone. -/
theorem run_mapM_ofNode (context : Context) {nodes : List Tree.Node}
    (h : ∀ node ∈ nodes, node.kind ≠ .document) :
    ((nodes.mapM ofNode).run context).1 = nodes.map (fun node => (alone context.text node).1)
      ∧ ((nodes.mapM ofNode).run context).2.diagnostics
        = context.diagnostics
          ++ nodes.flatMap fun node => (alone context.text node).2.diagnostics := by
  induction nodes generalizing context with
  | nil => exact ⟨rfl, (List.append_nil _).symm⟩
  | cons node rest ih =>
    obtain ⟨hnode, hrest⟩ := List.forall_mem_cons.mp h
    obtain ⟨uses, -, hrun⟩ := run_ofNode_eq_alone context hnode
    have hothers := ih ((ofNode node).run context).2 hrest
    rw [hrun] at hothers
    obtain ⟨hvalues, hdiagnostics⟩ := hothers
    rw [List.mapM_cons, run_bind, run_bind, hrun]
    refine ⟨congrArg _ hvalues, hdiagnostics.trans ?_⟩
    rw [List.flatMap_cons, List.append_assoc]

/-! ## Copies -/

/-- What a context is asked for: to bind a node, or for a copy of what it holds. -/
inductive Request where
  | bind (node : Tree.Node)
  | diagnostics
  | references

/-- What is given to a request. -/
inductive Answer where
  | bound (node : Option Node)
  | diagnostics (copy : List Diagnostic)
  | references (copy : References)

/-- Answer a request. -/
def answer : Request → Binder Answer
  | .bind node => return .bound (← ofNode node)
  | .diagnostics => return .diagnostics (← get).diagnostics
  | .references => return .references (← get).references

/-- Answer requests one after the other. -/
def session (requests : List Request) : Binder (List Answer) := requests.mapM answer

/-- What has been copied stands in front of what the context holds. -/
def Answer.StaysIn (context : Context) : Answer → Prop
  | .bound _ => True
  | .diagnostics copy => copy <+: context.diagnostics
  | .references copy => copy.Extends context.references

/-- A copy that stands in front of what a context holds stands in front of what any later context
holds. -/
theorem Answer.StaysIn.extend {context after : Context} {given : Answer}
    (h : given.StaysIn context) (hextends : context.Extends after) : given.StaysIn after := by
  cases given with
  | bound => trivial
  | diagnostics copy => exact h.trans hextends.diagnostics
  | references copy => exact h.trans hextends.references

/-- One request only extends the context, and its answer stays in front of what is held. -/
theorem answer_extends (context : Context) (request : Request) :
    context.Extends ((answer request).run context).2
      ∧ ((answer request).run context).1.StaysIn ((answer request).run context).2 := by
  cases request with
  | bind node => exact ⟨extends_ofNode context node, trivial⟩
  | diagnostics => exact ⟨.refl context, List.prefix_refl _⟩
  | references => exact ⟨.refl context, .refl _⟩

/-- Requests one after the other only extend the context, and every answer among them stays in front
of what is held in the end. -/
theorem session_extends (context : Context) (requests : List Request) :
    context.Extends ((session requests).run context).2
      ∧ ∀ given ∈ ((session requests).run context).1,
        given.StaysIn ((session requests).run context).2 := by
  induction requests generalizing context with
  | nil => exact ⟨.refl context, nofun⟩
  | cons request rest ih =>
    obtain ⟨hfirst, hgiven⟩ := answer_extends context request
    obtain ⟨hextends, hothers⟩ := ih ((answer request).run context).2
    rw [session, List.mapM_cons]
    refine ⟨hfirst.trans hextends, ?_⟩
    exact List.forall_mem_cons.mpr ⟨hgiven.extend hextends, hothers⟩

/-- Later requests change no answer. -/
theorem session_append (context : Context) (first second : List Request) :
    (session (first ++ second)).run context
      = (((session first).run context).1
          ++ ((session second).run ((session first).run context).2).1,
        ((session second).run ((session first).run context).2).2) := by
  rw [session, List.mapM_append]
  rfl

/-! ## Binding only appends -/

/-- Whatever a context has been used for, a node only adds to it. If it is no document, it gives and adds
what it does in a context of its own, and so do nodes in a row. Copies that were given out before stay as
they are, in front of what the context holds. -/
theorem ofNode_appends (context : Context) (node : Tree.Node) :
    context.Extends ((ofNode node).run context).2
      ∧ (node.kind ≠ .document → ∃ uses,
        (alone context.text node).2.references = References.empty.addAll uses
          ∧ (ofNode node).run context
            = ((alone context.text node).1,
              { context with
                diagnostics := context.diagnostics ++ (alone context.text node).2.diagnostics
                references := context.references.addAll uses }))
      ∧ (∀ nodes : List Tree.Node, (∀ node ∈ nodes, node.kind ≠ .document) →
        ((nodes.mapM ofNode).run context).2.diagnostics
          = context.diagnostics
            ++ nodes.flatMap fun node => (alone context.text node).2.diagnostics)
      ∧ ∀ first second : List Request,
        ((session first).run context).1 <+: ((session (first ++ second)).run context).1
          ∧ ∀ given ∈ ((session first).run context).1,
            given.StaysIn ((session (first ++ second)).run context).2 := by
  refine ⟨extends_ofNode context node, run_ofNode_eq_alone context,
    fun nodes h => (run_mapM_ofNode context h).2, fun first second => ?_⟩
  obtain ⟨-, hgiven⟩ := session_extends context first
  obtain ⟨hextends, -⟩ := session_extends ((session first).run context).2 second
  rw [session_append]
  exact ⟨List.prefix_append _ _, fun given hmem => (hgiven given hmem).extend hextends⟩

/-- The symbol at the start of a text whose namespace and key are one letter each. -/
def shortSymbol : Tree.Node :=
  .namespacedSymbol [.single [letterAt 0],
    .single [⟨.slash, 1, 1, Span.point (.ofNat 0) ⟨0, 1⟩⟩], .single [letterAt 2]]

/-- A symbol that is bound for the second time is a second use of its variable. -/
theorem ofNode_appends_shortSymbol :
    let text := SourceText.ofString (.ofNat 0) "n/k"
    let use : Reference := ⟨⟨"n", "k"⟩, ⟨.ofNat 0, ⟨0, 0⟩, ⟨0, 2⟩⟩⟩
    let context := { Context.ofText text with references := References.empty.add use }
    shortSymbol.kind ≠ .document
      ∧ (∃ uses, (alone text shortSymbol).2.references = References.empty.addAll uses
        ∧ ((ofNode shortSymbol).run context).2.references = context.references.addAll uses)
      ∧ ((ofNode shortSymbol).run context).2.references.get? use.identifier
        = some [use.span, use.span] := by
  intro text use context
  have hkind : shortSymbol.kind ≠ .document := nofun
  obtain ⟨uses, halone, hrun⟩ := (ofNode_appends context shortSymbol).2.1 hkind
  exact ⟨hkind, ⟨uses, halone, by rw [hrun]⟩, by rfl⟩

end Binder

end Template

end JobMarkup
