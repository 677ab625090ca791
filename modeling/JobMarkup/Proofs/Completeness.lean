import JobMarkup.Proofs.LineEnds
import JobMarkup.Proofs.WellFormed

/-!
# Well-formed documents

Every layout of a well-formed outline is compiled without a report to a template with this outline,
where texts that stand side by side come out as one. Its instances are the canonical texts of the
outline.
-/

namespace JobMarkup

namespace Template

/-! ## Layouts of joined outlines -/

/-- Attributes are laid out the same way if the texts in their values are joined. -/
theorem WritesAttributes.joined {attributes : List (String × List Piece)} {cs : List Char}
    (h : WritesAttributes attributes cs) : WritesAttributes (attributes.map joinedAttribute) cs := by
  induction h with
  | nil => exact .nil
  | @cons gap attr attributes cs hne hgap _ ih =>
    rw [← renderAttribute_joinedAttribute]
    exact .cons hne hgap ih

/-- An opening tag is laid out the same way if the texts in its attributes are joined. -/
theorem WritesTag.joined {name : String} {attributes : List (String × List Piece)} {tag : List Char}
    (h : WritesTag name attributes tag) : WritesTag name (attributes.map joinedAttribute) tag := by
  obtain ⟨hbefore, hattributes, hbehind⟩ := h
  exact .intro hbefore hattributes.joined hbehind

/-- An element is laid out the same way with joined texts if its body is. -/
theorem WritesElementWith.joined {body : Option (List Piece) → List Outline → List Char → Prop}
    {outline : Outline} {cs : List Char} (h : WritesElementWith body outline cs)
    (hbody : ∀ content children inner, body content children inner →
      body (content.map joinTexts) (joinedAll children) inner) :
    WritesElementWith body outline.joined cs := by
  cases h with
  | selfClosing hleading htag => exact .selfClosing hleading htag.joined
  | paired hleading htag hinner hclose =>
    exact .paired hleading htag.joined (hbody _ _ _ hinner) hclose

/-- Children in a row are laid out the same way with joined texts if each of them is. -/
theorem WritesAll.joined {writes : Outline → List Char → Prop}
    (hwrites : ∀ child cs, writes child cs → writes child.joined cs) {children : List Outline}
    {cs : List Char} (h : WritesAll writes children cs) : WritesAll writes (joinedAll children) cs := by
  induction h with
  | nil => exact .nil
  | cons hchild _ ih => exact .cons (hwrites _ _ hchild) ih

/-- A body is laid out the same way with joined texts, whether it has content or children. -/
theorem WritesBody.joined {writes : Outline → List Char → Prop}
    (hwrites : ∀ child cs, writes child cs → writes child.joined cs)
    {content : Option (List Piece)} {children : List Outline} {inner : List Char}
    (h : WritesBody writes content children inner) :
    WritesBody writes (content.map joinTexts) (joinedAll children) inner := by
  cases h with
  | children hall htrailing => exact .children (hall.joined hwrites) htrailing
  | text hgap =>
    rw [← renderPieces_joinTexts]
    exact .text hgap

/-- A layout of an outline is one of the outline with its texts joined. -/
theorem WritesElement.joined {levels : Nat} {outline : Outline} {cs : List Char}
    (h : WritesElement levels outline cs) : WritesElement levels outline.joined cs := by
  induction levels generalizing outline cs with
  | zero => exact WritesElementWith.joined h fun _ _ _ hinner => absurd hinner id
  | succ levels ih =>
    exact WritesElementWith.joined h fun _ _ _ hinner => hinner.joined fun _ _ hchild => ih hchild

/-- A layout of a document is one of the document with its texts joined, which is the one that
is read. -/
theorem WritesDocument.joined {outline : Outline} {cs : List Char} (h : WritesDocument outline cs) :
    WritesDocument outline.joined cs := by
  obtain ⟨hroot, htrailing⟩ := h
  exact .intro hroot.joined htrailing

/-- Joining texts keeps the name, on which the kind of the document depends. -/
@[simp] theorem Outline.joined_name (outline : Outline) : outline.joined.name = outline.name := by
  cases outline
  rfl

/-! ## Parts of ASCII characters -/

/-- Letters of ASCII can be read as a name. -/
theorem isReadableName_of_isAlpha {name : String} (hne : name.toList ≠ [])
    (h : name.toList.all Char.isAlpha = true) : IsReadableName name :=
  ⟨hne, fun c hc => Character.isLetter_of_isAlpha (List.all_eq_true.mp h c hc)⟩

/-- One letter of ASCII is a partial symbol, the shortest that there is. -/
theorem isPartial_singleton {c : Char} (h : c.isAlpha = true) : IsPartial [c] :=
  .intro (Character.isLetter_of_isAlpha h) .nil

/-- A text is legal by a check of its characters, which can be evaluated. -/
theorem isLegalPiece_text {excluded : List Char} {literal : String} (hne : literal.toList ≠ [])
    (h : (literal.toList.all fun c => isLiteralChar c && c ∉ excluded) = true) :
    IsLegalPiece excluded (.text literal) :=
  .text hne (by simpa using h)

end Template

namespace SourceText

open Template

/-- Any layout of a well-formed outline, named as a job or without variables, is compiled without a
report. The root of the template has the outline with its texts joined, and each instance is the
canonical text of the outline under the same values. -/
theorem compile_of_isWellFormed (document : DocumentId) (source : String) {outline : Outline}
    (hwellFormed : IsWellFormed outline)
    (hjob : equalIgnoringCase outline.name jobName = true ∨ outline.identifiers = [])
    (hlayout : WritesDocument outline source.toList) :
    let compilation := (ofString document source).compile
    compilation.diagnostics = []
      ∧ (∃ template root, compilation.template = some template ∧ template.root = some root
        ∧ root.outline = outline.joined
        ∧ template.kind = if equalIgnoringCase outline.name jobName then .job else .generic)
      ∧ ∀ values, (compilation.instantiate values).toList = outline.render values.get := by
  intro compilation
  have hreadable := hwellFormed.isReadable
  have hwrites : WritesDocument outline.joined (ofString document source).chars := by
    rw [chars_ofString]
    exact hlayout.joined.normalize hreadable
  obtain ⟨hclean, template, root, htemplate, hroot, houtline, hkind, -⟩ :=
    compile_of_writesDocument hreadable hwrites (by
      rwa [Outline.joined_name, Outline.identifiers_joined])
  refine ⟨hclean, ⟨template, root, htemplate, hroot, houtline, ?_⟩, fun values => ?_⟩
  · rw [hkind, DocumentKind.ofRoot, ← Element.outline_name, houtline, Outline.joined_name]
  · rw [toList_instantiate_compile htemplate hroot, houtline, Outline.render_joined]

/-- A job with a carriage return in front of it, whose first child has a comment in front of it, a blank
in front of its content and a variable in it, and whose second child closes itself. -/
theorem compile_of_isWellFormed_job :
    let step : Outline := ⟨"step", [], some [.text "x ", .value ⟨"n", "v"⟩], []⟩
    let outline : Outline :=
      ⟨"Job", [("k", [.text "a-1 ", .value ⟨"n", "v"⟩])], none, [step, ⟨"end", [], none, []⟩]⟩
    let source := "\r< Job k=\"a-1 @\x7bn/v\x7d@\"><!-- - --><step> x @\x7bn/v\x7d@</step>"
      ++ "<end/>\n</Job>"
    equalIgnoringCase outline.name jobName = true
      ∧ (ofString (.ofNat 0) source).compile.diagnostics = []
      ∧ ∀ values, ((ofString (.ofNat 0) source).compile.instantiate values).toList
        = outline.render values.get := by
  intro step outline source
  have hvalue (excluded : List Char) : IsLegalPiece excluded (.value ⟨"n", "v"⟩) :=
    .value ⟨.one (.one (isPartial_singleton (by decide))), .one (isPartial_singleton (by decide))⟩
  have hattribute : IsLegalAttribute ("k", [.text "a-1 ", .value ⟨"n", "v"⟩]) := by
    refine ⟨isPartial_singleton (by decide), ?_⟩
    rw [List.forall_mem_cons, List.forall_mem_singleton]
    exact ⟨isLegalPiece_text (by decide) (by decide +kernel), hvalue _⟩
  have hcontent : IsLegalContent [.text "x ", .value ⟨"n", "v"⟩] := by
    refine ⟨by simp, ?_, fun c hc => ?_⟩
    · rw [List.forall_mem_cons, List.forall_mem_singleton]
      exact ⟨isLegalPiece_text (by decide) (by decide +kernel), hvalue _⟩
    · obtain rfl : 'x' = c := Option.some.inj hc
      decide
  have hstep : IsWellFormed step :=
    .intro (isReadableName_of_isAlpha (by decide) (by decide)) (by simp) (by simp)
      (by simpa using hcontent) (by simp) (by simp)
  have hend : IsWellFormed ⟨"end", [], none, []⟩ :=
    .intro (isReadableName_of_isAlpha (by decide) (by decide)) (by simp) (by simp) (by simp) (by simp)
      (by simp)
  have hwellFormed : IsWellFormed outline :=
    .intro (isReadableName_of_isAlpha (by decide) (by decide)) (by simpa using hattribute) (by simp)
      (by simp) (by simp) (List.forall_mem_cons.mpr ⟨hstep, List.forall_mem_singleton.mpr hend⟩)
  have hspace : IsGap [' '] := isGap_singleton ' ' (by decide)
  have hcomment : WritesTrivia ([] ++ ('<' :: '!' :: '-' :: '-' :: ([' ', '-', ' ']
      ++ ('-' :: '-' :: '>' :: [])))) := .comment isGap_nil ⟨by decide, by decide⟩ (.gap isGap_nil)
  have hwritesStep : WritesElement (Grammar.maxDepth - 1) step _ :=
    WritesElementWith.paired hcomment (.intro isGap_nil .nil isGap_nil) (.text hspace)
      (.intro isGap_nil isGap_nil)
  have hwritesEnd : WritesElement (Grammar.maxDepth - 1) ⟨"end", [], none, []⟩ _ :=
    WritesElementWith.selfClosing (.gap isGap_nil) (.intro isGap_nil .nil isGap_nil)
  have htag : WritesTag "Job" outline.attributes _ :=
    .intro hspace (.cons (by simp) hspace .nil) isGap_nil
  have hroot : WritesElement Grammar.maxDepth outline _ :=
    WritesElementWith.paired (.gap (isGap_singleton '\r' (by decide))) htag
      (.children (.cons hwritesStep (.cons hwritesEnd .nil))
        (.gap (isGap_singleton '\n' (by decide))))
      (.intro isGap_nil isGap_nil)
  have hlayout : WritesDocument outline source.toList := by
    refine (congrArg (WritesDocument outline) ?_).mp (.intro hroot (.gap isGap_nil))
    dsimp only [source]
    decide +kernel
  obtain ⟨hclean, -, hrender⟩ :=
    compile_of_isWellFormed (.ofNat 0) source hwellFormed (Or.inl (by decide)) hlayout
  exact ⟨by decide, hclean, hrender⟩

end SourceText

end JobMarkup
