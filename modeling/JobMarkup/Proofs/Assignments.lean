import JobMarkup.CommandLine.Arguments
import JobMarkup.Proofs.Instances
import JobMarkup.Proofs.RoundTrip
import JobMarkup.Proofs.SymbolTexts

/-!
# Assigning values on the command line

The variables of a document that is read without a report have a namespace and a key, no slash in the
key and no equals sign anywhere. So the written form of each of them is read as this variable again,
in front of an equals sign and any value. Arguments that assign values to such variables, in any
order and in either form, with files between them, are read as just these assignments and files.
-/

namespace JobMarkup

namespace Grammar

open JobMarkup.Tree

/-! ## The interpolations of an element -/

/-- Parts with delimiters between them are parts of which none is missing. -/
theorem IsJoined.hasParts {delimiter : TokenKind} {isPart isPart' : Node → Prop}
    (hpart : ∀ node, isPart node → isPart' node) {nodes : List Node}
    (h : IsJoined delimiter isPart nodes) : HasParts delimiter isPart' nodes := by
  induction h with
  | @one node hnode => exact ⟨node, [], rfl, hpart node hnode, .nil⟩
  | @more node token rest hnode hkind _ ih =>
    obtain ⟨first, others, rfl, hfirst, hothers⟩ := ih
    exact ⟨node, _, rfl, hpart node hnode, .part hkind hfirst hothers⟩

/-- A compound symbol that has been read has the shape that its written form asks for. -/
theorem IsCompoundNode.hasCompoundShape {node : Node} (h : IsCompoundNode node) :
    HasCompoundShape node := by
  obtain ⟨nodes, rfl, hnodes⟩ := h
  exact ⟨nodes, rfl, hnodes.hasParts fun _ hpart => hpart⟩

/-- A namespaced symbol that has been read has the shape that its written form asks for. -/
theorem IsNamespacedSymbol.hasSymbolShape {nodes : List Node} (h : IsNamespacedSymbol nodes) :
    HasSymbolShape nodes :=
  h.1.hasParts fun _ => IsCompoundNode.hasCompoundShape

/-- All of the interpolations have all their parts, and their tokens stand among the given ones. -/
def AreReadIn (tokens : List Token) (interpolations : List Interpolation) : Prop :=
  ∀ whole ∈ interpolations, IsInterpolation whole ∧ whole.tokens <:+: tokens

variable {tokens : List Token}

/-- An empty list of interpolations is read in any tokens. -/
@[simp] theorem areReadIn_nil : AreReadIn tokens [] := by
  simp [AreReadIn]

/-- What is read in some tokens is read in any that have them in a row, as a part is in the whole. -/
theorem AreReadIn.mono {tokens' : List Token} {interpolations : List Interpolation}
    (h : AreReadIn tokens interpolations) (hpart : tokens <:+: tokens') :
    AreReadIn tokens' interpolations :=
  fun whole hmem => ⟨(h whole hmem).1, (h whole hmem).2.trans hpart⟩

/-- Interpolations from two places in the same tokens are read in them together. -/
theorem AreReadIn.append {first second : List Interpolation} (hfirst : AreReadIn tokens first)
    (hsecond : AreReadIn tokens second) : AreReadIn tokens (first ++ second) :=
  List.forall_mem_append.mpr ⟨hfirst, hsecond⟩

/-- The interpolations of content are read in its tokens. -/
theorem areReadIn_value {terminators : List TokenKind} {nodes : List Node}
    (h : ∀ node ∈ nodes, IsContentPiece terminators node) :
    AreReadIn (nodeTokens nodes) (valueInterpolations nodes) := by
  induction nodes with
  | nil => exact areReadIn_nil
  | cons node rest ih =>
    obtain ⟨hnode, hrest⟩ := List.forall_mem_cons.mp h
    rw [nodeTokens_cons]
    have hothers := (ih hrest).mono (List.suffix_append node.tokens _).isInfix
    obtain ⟨token, rfl, -⟩ | ⟨whole, rfl, hwhole⟩ := hnode
    · exact hothers
    · refine List.forall_mem_cons.mpr ⟨⟨hwhole, ?_⟩, hothers⟩
      rw [Node.tokens_interpolation]
      exact (List.prefix_append _ _).isInfix

/-- The interpolations of an attribute are read in its tokens. -/
theorem areReadIn_attribute {attr : Attribute} (h : IsAttribute attr) :
    AreReadIn attr.tokens attr.interpolations := by
  obtain ⟨name, equal, openQuote, contents, closeQuote, rfl, -, -, -, -, hcontents⟩ := h
  cases contents with
  | none => exact areReadIn_nil
  | some nodes =>
    apply (areReadIn_value (hcontents nodes rfl).2).mono
    rw [Attribute.tokens_eq]
    exact List.infix_append _ _ _

/-- The interpolations of all attributes of a tag are read in the tokens of the attributes. -/
theorem areReadIn_attributes {attributes : List Attribute} (h : ReadsAttributes attributes tokens) :
    AreReadIn tokens (attributes.flatMap Attribute.interpolations) := by
  induction h with
  | nil => exact areReadIn_nil
  | @cons blanks attr attributes tokens _ _ hattr _ ih =>
    rw [List.flatMap_cons]
    apply AreReadIn.append
    · exact (areReadIn_attribute hattr).mono (List.infix_append' blanks attr.tokens tokens)
    · exact ih.mono ((List.suffix_append _ _).trans (List.suffix_append _ _)).isInfix

/-- The interpolations of the attributes are read in the tokens of the whole tag. -/
theorem areReadIn_openTag {name tagEnd : Token} {attributes : List Attribute}
    (h : ReadsOpenTag name attributes tagEnd tokens) :
    AreReadIn tokens (attributes.flatMap Attribute.interpolations) := by
  cases h with
  | @intro before _ _ inner behind _ _ _ hattributes _ _ =>
    exact (areReadIn_attributes hattributes).mono
      ⟨before ++ [name], behind ++ [tagEnd], by simp⟩

variable {reads : Element → List Token → Prop}

/-- The interpolations of children in a row are read in their tokens if those of each child are. -/
theorem areReadIn_children
    (hreads : ∀ element tokens, reads element tokens → AreReadIn tokens element.interpolations)
    {children : List Element} (h : ReadsChildren reads children tokens) :
    AreReadIn tokens (childInterpolations (children.map .element)) := by
  induction h with
  | nil => exact areReadIn_nil
  | trivia => exact areReadIn_nil
  | @cons child others first rest hchild _ ih =>
    apply AreReadIn.append
    · exact (hreads child first hchild).mono (List.prefix_append first rest).isInfix
    · exact ih.mono (List.suffix_append first rest).isInfix

/-- The interpolations of a body are read in its tokens, whether it holds content or children. -/
theorem areReadIn_body
    (hreads : ∀ element tokens, reads element tokens → AreReadIn tokens element.interpolations)
    {children : List Node} (h : ReadsBody reads children tokens) :
    AreReadIn tokens (childInterpolations children) := by
  cases h with
  | children hchildren => exact areReadIn_children hreads hchildren
  | @text blanks nodes _ hcontent _ =>
    apply AreReadIn.append _ areReadIn_nil
    exact (areReadIn_value hcontent.2).mono (List.suffix_append blanks _).isInfix

/-- The interpolations of an element are read in its tokens if those of its body are. -/
theorem areReadIn_elementWith {body : List Node → List Token → Prop}
    (hbody : ∀ children tokens, body children tokens →
      AreReadIn tokens (childInterpolations children))
    {element : Element} (h : ReadsElementWith body element tokens) :
    AreReadIn tokens element.interpolations := by
  cases h with
  | @selfClosing leading front bracket name attributes tagEnd tag _ _ htag _ =>
    apply AreReadIn.append _ areReadIn_nil
    exact (areReadIn_openTag htag).mono ⟨front ++ [bracket], [], by simp⟩
  | @paired leading front bracket name attributes tagEnd tag children inner closing close _ _ htag _
      hinner _ =>
    apply AreReadIn.append
    · exact (areReadIn_openTag htag).mono ⟨front ++ [bracket], inner ++ close, by simp⟩
    · exact (hbody children inner hinner).mono ⟨front ++ bracket :: tag, close, by simp⟩

/-- The interpolations of an element that follows the grammar have all their parts. -/
theorem areReadIn_element {levels : Nat} {element : Element}
    (h : ReadsElement levels element tokens) : AreReadIn tokens element.interpolations := by
  induction levels generalizing element tokens with
  | zero => exact areReadIn_elementWith (fun _ _ hbody => absurd hbody id) h
  | succ levels ih =>
    exact areReadIn_elementWith (fun _ _ => areReadIn_body fun _ _ => ih) h

end Grammar

namespace Variable

/-- The variable is read from its written form, and there is no equals sign in this form. -/
structure Identifier.IsAssignable (identifier : Identifier) : Prop where
  parse_toText : Identifier.parse identifier.toText = .ok identifier
  equal_not_mem : '=' ∉ identifier.toText.toList

end Variable

namespace SourceText

open Template Grammar Variable

variable {text : SourceText}

/-- The variable of an interpolation with all its parts. -/
theorem isAssignable_symbolOf {whole : Tree.Interpolation} (h : IsInterpolation whole)
    (hrun : text.IsRun whole.tokens) : (symbolOf text whole).identifier.IsAssignable := by
  obtain ⟨opening, symbol, closing, rfl, -, hsymbol, -⟩ := h
  have hsymbolRun : text.IsRun (Tree.nodeTokens symbol) := by
    apply hrun.part
    rw [Tree.Interpolation.tokens_eq]
    exact List.infix_append _ _ _
  have hequal := hsymbolRun.equal_not_mem hsymbol.hasSymbolShape.kind_mem
  obtain ⟨init, slash, last, rfl, hinit, hslash, hlast⟩ := hsymbol.1.exists_concat hsymbol.2
  have htokens : Tree.nodeTokens (init ++ [.single [slash], last])
      = Tree.nodeTokens init ++ [slash] ++ last.tokens := by simp
  rw [htokens] at hsymbolRun hequal
  have hparse := parse_wording hsymbolRun hslash
    (hinit.nodeTokens_ne_nil fun _ => IsCompoundNode.tokens_ne_nil) hlast.tokens_ne_nil
    hlast.hasCompoundShape.kind_mem
  have hidentifier : (symbolOf text
      ⟨[opening], some (init ++ [.single [slash], last]), some [closing]⟩).identifier
        = Symbol.identifier ⟨excerptOf text (Tree.nodeTokens init), excerptOf text last.tokens⟩ := by
    simp [symbolOf]
  rw [hidentifier]
  have htext := Identifier.toText_of_parse hparse
  constructor
  · rw [htext, hparse]
  · rwa [htext, wording, String.toList_ofList]

/-- A text with a symbol has a template with a root, and the symbol is in it. -/
theorem exists_root_of_mem_symbols {symbol : Symbol} (h : symbol ∈ text.symbols) :
    ∃ template root, text.compile.template = some template ∧ template.root = some root
      ∧ symbol ∈ root.symbols := by
  rw [symbols] at h
  cases htemplate : text.compile.template with
  | none => simp [htemplate] at h
  | some template =>
    cases hroot : template.root with
    | none => simp [htemplate, Document.symbols, hroot] at h
    | some root =>
      have hmem : symbol ∈ root.symbols := by
        simpa [htemplate, Document.symbols, hroot] using h
      exact ⟨template, root, rfl, hroot, hmem⟩

/-- All variables of a text that is read without a report can be assigned a value. -/
theorem isAssignable_of_mem_references (hgrammar : text.compile.grammarDiagnostics = [])
    {identifier : Identifier} (h : identifier ∈ text.compile.references.identifiers) :
    identifier.IsAssignable := by
  rw [text.references_compile, References.mem_identifiers_addAll, List.map_map] at h
  obtain ⟨symbol, hsymbol, rfl⟩ := List.mem_map.mp (h.resolve_left List.not_mem_nil)
  obtain ⟨template, root, htemplate, hroot, hmem⟩ := exists_root_of_mem_symbols hsymbol
  obtain ⟨document, hdocument, htagged⟩ := text.exists_document_of_root htemplate hroot
  obtain ⟨read, rest, htokens, hreads, hrule⟩ := text.exists_readsDocument hdocument hgrammar htagged
  have hread : text.IsRun read := List.IsPrefix.isInfix ⟨rest, htokens.symm⟩
  rw [text.compile_of_readsDocument hreads hread hrule] at htemplate
  obtain rfl := Option.some.inj htemplate
  obtain rfl := Option.some.inj hroot
  cases hreads with
  | @intro root trailing tokens helement _ =>
    rw [(corresponds_of_readsElement helement).2.symbols_eq] at hmem
    obtain ⟨whole, hwhole, rfl⟩ := List.mem_map.mp hmem
    obtain ⟨hinterpolation, hpart⟩ := areReadIn_element helement whole hwhole
    exact isAssignable_symbolOf hinterpolation
      (hread.part (hpart.trans (List.prefix_append tokens _).isInfix))

end SourceText

namespace CommandLine

open Variable

/-! ## Arguments -/

/-- What stands behind the command: a file, or the assignment of a value to a variable, in two
arguments or in one. -/
inductive Entry where
  | file (path : String)
  | separate (identifier : Identifier)
  | joined (identifier : Identifier)

namespace Entry

/-- The file of an entry. -/
def path? : Entry → Option String
  | file path => some path
  | separate _ | joined _ => none

/-- The variable that an entry assigns a value to. -/
def identifier? : Entry → Option Identifier
  | file _ => none
  | separate identifier | joined identifier => some identifier

section Arguments

variable (value : Identifier → String)

/-- The text of an assignment. -/
def assignment (identifier : Identifier) : String :=
  identifier.toText ++ "=" ++ value identifier

/-- The arguments that an entry is given by. -/
def arguments : Entry → List String
  | file path => [path]
  | separate identifier => ["--var", assignment value identifier]
  | joined identifier => ["--var=" ++ assignment value identifier]

end Arguments

/-- The files of an entry cannot be taken for an assignment, and its variables can be assigned a
value. -/
structure IsReadable (entry : Entry) : Prop where
  path : ∀ path ∈ entry.path?, path ≠ "--var" ∧ ¬"--var=".toList <+: path.toList
  identifier : ∀ identifier ∈ entry.identifier?, identifier.IsAssignable

end Entry

variable {value : Identifier → String}

/-- An assignment that is written for a variable is read as one of the value to the variable. -/
theorem parseAssignment_assignment {identifier : Identifier} (h : identifier.IsAssignable) :
    parseAssignment (Entry.assignment value identifier) = .ok (identifier, value identifier) := by
  have hsplit : splitFirst '=' (Entry.assignment value identifier).toList
      = some (identifier.toText.toList, (value identifier).toList) := by
    rw [← splitFirst_append_cons h.equal_not_mem]
    simp [Entry.assignment]
  rw [parseAssignment, hsplit]
  simp [h.parse_toText]

/-- An assignment joined to its option is found behind the mark of the option. -/
theorem joinedAssignment?_append (text : String) : joinedAssignment? ("--var=" ++ text) = some text := by
  have hbehind : behindMark (assignmentMark.toList ++ ['=']) ("--var=" ++ text).toList
      = some text.toList :=
    behindMark_eq_some_iff.mpr (by simp [assignmentMark])
  rw [joinedAssignment?, hbehind, Option.map_some, String.ofList_toList]

/-- An argument that does not begin with the mark holds no joined assignment, so it is a file or
another option. -/
theorem joinedAssignment?_eq_none {argument : String} (h : ¬"--var=".toList <+: argument.toList) :
    joinedAssignment? argument = none := by
  rw [joinedAssignment?, Option.map_eq_none_iff, Option.eq_none_iff_forall_ne_some]
  intro rest hbehind
  exact h ⟨rest, (behindMark_eq_some_iff.mp hbehind).symm⟩

/-- An entry is read in front of the others. -/
theorem parseOptions_entry {entry : Entry} (h : entry.IsReadable) {rest files : List String}
    {assignments : List (Identifier × String)} (hrest : parseOptions rest = .ok (files, assignments)) :
    parseOptions (entry.arguments value ++ rest)
      = .ok (entry.path?.toList ++ files,
        (entry.identifier?.toList.map fun identifier => (identifier, value identifier))
          ++ assignments) := by
  cases entry with
  | file path =>
    obtain ⟨hmark, hjoined⟩ := h.path path rfl
    rw [Entry.arguments, List.singleton_append, parseOptions.eq_def]
    simp only [assignmentMark, if_neg hmark, joinedAssignment?_eq_none hjoined, hrest]
    rfl
  | separate identifier =>
    have hassignment : parseAssignment (Entry.assignment value identifier) = _ :=
      parseAssignment_assignment (h.identifier identifier rfl)
    rw [Entry.arguments, List.cons_append, List.singleton_append, parseOptions.eq_def]
    simp only [assignmentMark, if_true, hassignment, hrest]
    rfl
  | joined identifier =>
    have hassignment : parseAssignment (Entry.assignment value identifier) = _ :=
      parseAssignment_assignment (h.identifier identifier rfl)
    have hne : "--var=" ++ Entry.assignment value identifier ≠ "--var" := by
      simp [← String.toList_inj]
    rw [Entry.arguments, List.singleton_append, parseOptions.eq_def]
    simp only [assignmentMark, if_neg hne, joinedAssignment?_append, hassignment, hrest]
    rfl

/-- Entries are read one by one, in their order. -/
theorem parseOptions_arguments {entries : List Entry} (h : ∀ entry ∈ entries, entry.IsReadable) :
    parseOptions (entries.flatMap (Entry.arguments value))
      = .ok (entries.filterMap Entry.path?,
        (entries.filterMap Entry.identifier?).map fun identifier => (identifier, value identifier)) := by
  induction entries with
  | nil => rfl
  | cons entry rest ih =>
    obtain ⟨hentry, hrest⟩ := List.forall_mem_cons.mp h
    rw [List.flatMap_cons, parseOptions_entry hentry (ih hrest)]
    cases entry <;> rfl

/-- Every variable of a document that is read without a report can be set by arguments. Arguments
that assign each of some of these variables the value that is meant for it, in any order and each in
either form, with files between them that are not taken for assignments, can be followed, and give
all of these files in their order. Under the assignments, each variable that is assigned has the
value that is meant for it, whatever this value is, and no other variable has any. No two of the
variables are written in the same way. -/
theorem parseOptions_references {text : SourceText}
    (hgrammar : text.compile.grammarDiagnostics = []) (value : Identifier → String)
    (entries : List Entry)
    (hpaths : ∀ path ∈ entries.filterMap Entry.path?,
      path ≠ "--var" ∧ ¬"--var=".toList <+: path.toList)
    (hidentifiers : ∀ identifier ∈ entries.filterMap Entry.identifier?,
      identifier ∈ text.compile.references.identifiers) :
    (∃ assignments,
      parseOptions (entries.flatMap (Entry.arguments value))
        = .ok (entries.filterMap Entry.path?, assignments)
        ∧ ∀ identifier, (Values.ofList assignments).get identifier
          = if identifier ∈ entries.filterMap Entry.identifier? then value identifier else "")
      ∧ ∀ first ∈ text.compile.references.identifiers,
        ∀ second ∈ text.compile.references.identifiers,
        first.toText = second.toText → first = second := by
  have hreadable (entry : Entry) (hmem : entry ∈ entries) : entry.IsReadable := by
    constructor
    · intro path hpath
      exact hpaths path (List.mem_filterMap.mpr ⟨entry, hmem, hpath⟩)
    · intro identifier hidentifier
      exact SourceText.isAssignable_of_mem_references hgrammar
        (hidentifiers identifier (List.mem_filterMap.mpr ⟨entry, hmem, hidentifier⟩))
  refine ⟨⟨_, parseOptions_arguments hreadable, fun _ => Values.get_ofList_map_eq⟩, ?_⟩
  intro first hfirst second hsecond htext
  have hparse := (SourceText.isAssignable_of_mem_references hgrammar hfirst).parse_toText
  rw [htext, (SourceText.isAssignable_of_mem_references hgrammar hsecond).parse_toText] at hparse
  exact (Except.ok.inj hparse).symm

/-- Two variables, in both forms and in another order than that of the text, around a file. -/
theorem parseOptions_references_mixed :
    let text := SourceText.ofString (.ofNat 0)
      "<a b=\"@\x7bn.s/v-1\x7d@\"><c>@\x7bm/x/k\x7d@</c></a>"
    text.compile.grammarDiagnostics = []
      ∧ text.compile.references.identifiers = [⟨"n.s", "v-1"⟩, ⟨"m/x", "k"⟩]
      ∧ ∃ assignments,
        parseOptions ["--var=m/x/k=a=/b", "build.job", "--var", "n.s/v-1="]
          = .ok (["build.job"], assignments)
          ∧ (Values.ofList assignments).get ⟨"m/x", "k"⟩ = "a=/b"
          ∧ (Values.ofList assignments).get ⟨"n.s", "v-1"⟩ = "" := by
  intro text
  have hcompiled : text.compile.grammarDiagnostics = []
      ∧ text.compile.references.identifiers = [⟨"n.s", "v-1"⟩, ⟨"m/x", "k"⟩] := by
    decide +kernel
  obtain ⟨hgrammar, hidentifiers⟩ := hcompiled
  obtain ⟨⟨assignments, hparse, hget⟩, -⟩ := parseOptions_references hgrammar
    (fun identifier => if identifier = ⟨"m/x", "k"⟩ then "a=/b" else "")
    [.joined ⟨"m/x", "k"⟩, .file "build.job", .separate ⟨"n.s", "v-1"⟩]
    (by decide) (by rw [hidentifiers]; decide)
  exact ⟨hgrammar, hidentifiers, assignments, hparse, hget _, hget _⟩

end CommandLine

end JobMarkup
