import JobMarkup.Proofs.Rereading
import JobMarkup.Proofs.VariableUses

/-!
# Writing a template down again

A document that has been compiled without a report can be written down in its canonical text, each
variable as a reference to it. This text is one of the layouts of its outline, so it is compiled to
a template with the same outline again.
-/

namespace JobMarkup

open Variable

namespace Variable

/-- Each variable of a collection with its written form as its value. -/
def References.written (references : References) : Values :=
  .ofList (references.identifiers.map fun identifier => (identifier, Template.reference identifier))

end Variable

namespace SourceText

open Template Grammar

/-- An element without a tag is not bound. -/
theorem bindElement_of_isTriviaOnly (text : SourceText) {element : Tree.Element}
    (h : element.isTriviaOnly = true) : bindElement text element = ⟨none, [], []⟩ := by
  have hnames : boundNames element = none := by simp [boundNames, Tree.Element.form, h]
  cases element
  rw [bindElement, hnames]
  rfl

/-- Trivia without a tag are not bound as a root, so a template with a root has been read from a tag. -/
theorem value_bindRoot_of_isTriviaOnly (text : SourceText) {element : Tree.Element}
    (h : element.isTriviaOnly = true) : (Context.bindRoot text element).value = none := by
  simp [Context.bindRoot, Bound.required, bindElement_of_isTriviaOnly text h]

/-- A document with a bound root has a root with a tag. -/
theorem exists_document_of_root (text : SourceText) {template : Template.Document}
    {root : Template.Element} (htemplate : text.compile.template = some template)
    (hroot : template.root = some root) :
    ∃ document, text.compile.document = some document ∧ document.root.isTriviaOnly = false := by
  rw [compile] at htemplate ⊢
  cases hread : readDocument text.tokens with
  | mk document reports =>
    cases document with
    | none => simp [hread] at htemplate
    | some document =>
      refine ⟨document, by simp, ?_⟩
      by_contra htrivia
      have hvalue := value_bindRoot_of_isTriviaOnly text (by simpa using htrivia)
      simp only [hread, Option.some.injEq] at htemplate
      rw [← htemplate] at hroot
      simp [Context.bindDocument, Context.ofText, hvalue] at hroot

/-- A document that is compiled without a report can be read again from its canonical text. Its root
is named as that of a job, or it has no variables. -/
theorem isRereadable_of_clean {text : SourceText} (hreturn : '\r' ∉ text.chars)
    (hclean : text.compile.diagnostics = []) {template : Template.Document} {root : Template.Element}
    (htemplate : text.compile.template = some template) (hroot : template.root = some root) :
    IsRereadable maxDepth root.outline ∧ template.kind = DocumentKind.ofRoot (some root)
      ∧ template.references = References.empty.addAll (root.symbols.map Symbol.reference)
      ∧ (equalIgnoringCase root.outline.name jobName = true ∨ root.outline.identifiers = [])
      ∧ ∀ identifier ∈ root.outline.identifiers,
        identifier ∈ text.compile.references.identifiers := by
  obtain ⟨document, hdocument, htagged⟩ := text.exists_document_of_root htemplate hroot
  obtain ⟨hgrammar, hbinding⟩ := List.append_eq_nil_iff.mp hclean
  obtain ⟨read, rest, htokens, hreads, hrule⟩ := text.exists_readsDocument hdocument hgrammar htagged
  have hread : text.IsRun read := List.IsPrefix.isInfix ⟨rest, htokens.symm⟩
  have hcompile := text.compile_of_readsDocument hreads hread hrule
  obtain ⟨tokens, helement, hfront⟩ :
      ∃ tokens, ReadsElement maxDepth document.root tokens ∧ tokens <+: read := by
    cases hreads with
    | intro helement _ => exact ⟨_, helement, List.prefix_append _ _⟩
  rw [hcompile] at hbinding htemplate
  obtain ⟨hreports, hunexpected⟩ := List.append_eq_nil_iff.mp hbinding
  obtain rfl := Option.some.inj htemplate
  obtain rfl := Option.some.inj hroot
  have hcorresponds := (@corresponds_of_readsElement text _ _ _ helement).2.symbols_eq
  have hsymbols : (elementOf text document.root).outline.identifiers
      = (referencesOf text document.root.interpolations).map Reference.identifier := by
    rw [← map_identifier_symbols_element, hcorresponds]
    simp [referencesOf, Symbol.reference]
  refine ⟨isRereadable_of_readsElement hreturn helement (hread.part hfront.isInfix) hreports, rfl,
    ?_, ?_, ?_⟩
  · rw [hcorresponds, List.map_map]
    rfl
  · by_cases hjob : equalIgnoringCase (elementOf text document.root).name.text jobName = true
    · exact Or.inl (by rwa [Element.outline_name])
    · have hperm := text.spans_referencesIn_perm document.root
      rw [DocumentKind.ofRoot, if_neg hjob, Context.unexpectedSymbols, List.map_eq_nil_iff]
        at hunexpected
      rw [hunexpected, List.nil_perm, List.map_eq_nil_iff] at hperm
      exact Or.inr (by rw [hsymbols, hperm]; rfl)
  · intro identifier hmem
    rw [hsymbols] at hmem
    rw [Compilation.references, hcompile]
    exact (References.mem_identifiers_addAll identifier .empty _).mpr (Or.inr hmem)

/-- The kind of a document is told by the outline of its root. -/
theorem ofRoot_congr {first second : Template.Element} (h : first.outline = second.outline) :
    DocumentKind.ofRoot (some first) = DocumentKind.ofRoot (some second) := by
  rw [DocumentKind.ofRoot, DocumentKind.ofRoot, ← Element.outline_name, ← Element.outline_name, h]

/-- The uses of variables in an element are told by its outline. -/
theorem uses_symbols_congr {first second : Template.Element} (h : first.outline = second.outline) :
    (References.empty.addAll (first.symbols.map Symbol.reference)).uses
      = (References.empty.addAll (second.symbols.map Symbol.reference)).uses := by
  refine References.uses_addAll_congr ?_ rfl
  have hidentifier : Reference.identifier ∘ Symbol.reference = Symbol.identifier := rfl
  rw [List.map_map, List.map_map, hidentifier, map_identifier_symbols_element,
    map_identifier_symbols_element, h]

/-- A document that is compiled without a report, and has a root, is compiled without a report again
from its instance in which each variable stands for a reference to itself. The template has the same
kind, the same outline and the same variables, each used as often, so all instances are the same, in
particular this one. An instance of a document without variables is its own instance. -/
theorem compile_instantiate_written (document other : DocumentId) (source : String)
    {template : Template.Document} {root : Template.Element}
    (hclean : (ofString document source).compile.diagnostics = [])
    (htemplate : (ofString document source).compile.template = some template)
    (hroot : template.root = some root) :
    let first := (ofString document source).compile
    let written := first.references.written
    let second := (ofString other (first.instantiate written)).compile
    second.diagnostics = []
      ∧ (∃ again rootAgain, second.template = some again ∧ again.root = some rootAgain
        ∧ again.kind = template.kind ∧ rootAgain.outline = root.outline
        ∧ again.references.uses = template.references.uses)
      ∧ second.instantiate written = first.instantiate written
      ∧ (∀ values, second.instantiate values = first.instantiate values)
      ∧ (first.references = .empty → ∀ values,
        (ofString other (first.instantiate values)).compile.instantiate values
          = first.instantiate values) := by
  intro first written second
  have hreturn : '\r' ∉ (ofString document source).chars := by
    rw [chars_ofString]
    exact return_not_mem_normalizeLineEnds _
  obtain ⟨⟨hreadable, hwrites⟩, hkind, hreferences, hjob, hidentifiers⟩ :=
    isRereadable_of_clean hreturn hclean htemplate hroot
  have hwritten : (first.instantiate written).toList = root.outline.render reference := by
    rw [toList_instantiate_compile htemplate hroot]
    exact Outline.render_congr _ fun identifier hmem =>
      Values.get_ofList_map (hidentifiers identifier hmem)
  have hchars : (ofString other (first.instantiate written)).chars = root.outline.render reference := by
    rw [chars_ofString, hwritten, normalizeLineEnds_eq_self hreadable.return_not_mem_render]
  have hdocument : WritesDocument root.outline
      (ofString other (first.instantiate written)).chars := by
    have h := WritesDocument.intro hwrites (.gap isGap_nil)
    rwa [List.append_nil, ← hchars] at h
  obtain ⟨hsecond, again, rootAgain, hagain, hrootAgain, houtline, hkindAgain, hreferencesAgain⟩ :=
    compile_of_writesDocument hreadable hdocument hjob
  have hsame (values : Values) : second.instantiate values = first.instantiate values := by
    rw [← String.toList_inj, toList_instantiate_compile hagain hrootAgain,
      toList_instantiate_compile htemplate hroot, houtline]
  refine ⟨hsecond, ⟨again, rootAgain, hagain, hrootAgain, ?_, houtline, ?_⟩, hsame written, hsame,
    ?_⟩
  · rw [hkind, hkindAgain, ofRoot_congr houtline]
  · rw [hreferences, hreferencesAgain, uses_symbols_congr houtline]
  · intro hnone values
    -- without variables all instances are the canonical text
    have hconstant : first.instantiate values = first.instantiate written := by
      rw [← String.toList_inj, toList_instantiate_compile htemplate hroot,
        toList_instantiate_compile htemplate hroot]
      refine Outline.render_congr _ fun identifier hmem => ?_
      have hempty : (ofString document source).compile.references = .empty := hnone
      have hreferred := hidentifiers identifier hmem
      rw [hempty] at hreferred
      exact absurd hreferred List.not_mem_nil
    rw [hconstant]
    exact (hsame values).trans hconstant

/-- A job with marks in its texts that could be those of tags. -/
theorem compile_instantiate_written_marks :
    (ofString (.ofNat 0) "<job a=\"-- @\x7bn/v\x7d@\" > <! < > </job>").compile.diagnostics = []
      ∧ (ofString (.ofNat 1) ((ofString (.ofNat 0)
          "<job a=\"-- @\x7bn/v\x7d@\" > <! < > </job>").compile.instantiate
            (ofString (.ofNat 0)
              "<job a=\"-- @\x7bn/v\x7d@\" > <! < > </job>").compile.references.written)).compile.diagnostics
        = [] := by
  have hcompiled : (ofString (.ofNat 0)
      "<job a=\"-- @\x7bn/v\x7d@\" > <! < > </job>").compile.diagnostics = []
      ∧ ((ofString (.ofNat 0) "<job a=\"-- @\x7bn/v\x7d@\" > <! < > </job>").compile.template
        >>= Template.Document.root).isSome = true := by
    decide +kernel
  obtain ⟨hclean, hsome⟩ := hcompiled
  obtain ⟨root, hbound⟩ := Option.isSome_iff_exists.mp hsome
  obtain ⟨template, htemplate, hroot⟩ := Option.bind_eq_some_iff.mp hbound
  exact ⟨hclean, (compile_instantiate_written (.ofNat 0) (.ofNat 1) _ hclean htemplate hroot).1⟩

end SourceText

end JobMarkup
