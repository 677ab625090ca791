import JobMarkup.Proofs.BinderLogs
import JobMarkup.Proofs.Extents
import JobMarkup.Proofs.PartialBinding

/-!
# What is left out of a template

Trees that no reader gives can hold anything anywhere: content next to elements, symbols without nodes,
attributes without tokens. Whatever an element of such a tree holds is bound, or it is left out and
there is one report that says so; only comments, trivia and elements without a tag are left out without
one. The outcomes of items in a row are put one after the other, so nothing is reported twice either.
-/

namespace JobMarkup

/-- The fault is that a part of the tree has been left out. -/
def BindingFault.isOmission : BindingFault → Bool
  | .unbound _ | .unexpectedNode _ => true
  | _ => false

/-- The diagnostic says that a part of the tree has been left out. -/
def Diagnostic.isOmission (diagnostic : Diagnostic) : Bool :=
  match diagnostic.problem with
  | .binding fault => fault.isOmission
  | .grammar _ => false

namespace Template

open JobMarkup.Tree

/-! ## Outcomes -/

section

variable (text : SourceText)

/-- The report of a fault at an extent, and at the start of the text without one. -/
def reportAt (fault : BindingFault) (extent : Option Span) : Diagnostic :=
  ⟨.binding fault, extent.getD (Span.point text.document ⟨0, 0⟩)⟩

/-- The symbol has the texts of the namespace and of the key that the nodes stand for. -/
def Symbol.StandsFor (symbol : Symbol) (nodes : List Tree.Node) : Prop :=
  ∃ scope key, Span.cover (nodeExtents (nodes.take (nodes.length - 2))) = some scope
    ∧ nodes.getLast? >>= Tree.Node.extent = some key
    ∧ symbol = ⟨.ofSpan text scope, .ofSpan text key⟩

/-- The attribute has the extent and the name of the one in the tree, which has both its quotes. -/
structure Attribute.StandsFor (bound : Attribute) (attr : Tree.Attribute) : Prop where
  isTerminated : attr.isTerminated = true
  span : attr.extent = some bound.span
  key : ∃ name, Token.cover attr.name = some name ∧ bound.key = .ofSpan text name

/-- Items in a row, each of which gives some results and some reports. -/
inductive Outcomes {α β : Type} (outcome : α → List β → List Diagnostic → Prop) :
    List α → List β → List Diagnostic → Prop
  | nil : Outcomes outcome [] [] []
  | cons {item : α} {rest : List α} {results others : List β} {reports behind : List Diagnostic} :
      outcome item results reports → Outcomes outcome rest others behind →
      Outcomes outcome (item :: rest) (results ++ others) (reports ++ behind)

/-- What becomes of a node of a value: it is part of a literal, it is a symbol, or it is reported. -/
inductive ValueOutcome : Tree.Node → List Symbol → List Diagnostic → Prop
  | literal (tokens : List Token) : ValueOutcome (.single tokens) [] []
  | symbol {whole : Interpolation} {nodes : List Tree.Node} {symbol : Symbol} :
      whole.symbol = some nodes → symbol.StandsFor text nodes →
      ValueOutcome (.interpolation whole) [symbol] []
  | unbound (whole : Interpolation) :
      ValueOutcome (.interpolation whole) [] [reportAt text (.unbound .symbol) whole.extent]
  | unexpected {node : Tree.Node} : node.kind ≠ .single → node.kind ≠ .interpolation →
      ValueOutcome node [] [reportAt text (.unexpectedNode node.kind) node.extent]

/-- What becomes of an attribute: it is bound, with the symbols of its value, or it is reported. Its
value may have been bound all the same. -/
inductive AttributeOutcome : Tree.Attribute → List Attribute → List Diagnostic → Prop
  | bound {attr : Tree.Attribute} {bound : Attribute} {reports : List Diagnostic} :
      bound.StandsFor text attr →
      Outcomes (ValueOutcome text) (attr.contents.getD []) (symbols bound.value) reports →
      AttributeOutcome attr [bound] reports
  | unbound {attr : Tree.Attribute} {reports : List Diagnostic} :
      (reports = [] ∨ ∃ symbols,
        Outcomes (ValueOutcome text) (attr.contents.getD []) symbols reports) →
      AttributeOutcome attr [] (reports ++ [reportAt text (.unbound .attribute) attr.extent])

/-- The node is left out without a report. -/
def IsSilent : Tree.Node → Prop
  | .comment _ | .trivia _ => True
  | .element child => child.isTriviaOnly = true
  | _ => False

/-- The element has the name of the one in the tree. -/
def Element.NamedAs (bound : Element) (element : Tree.Element) : Prop :=
  ∃ name span, element.name = some name ∧ Token.cover name = some span
    ∧ bound.name = .ofSpan text span

mutual

/-- What becomes of what an element holds: of its attributes, and then of its body. -/
inductive ElementOutcome : Tree.Element → Element → List Diagnostic → Prop
  | intro {element : Tree.Element} {bound : Element} {reports behind : List Diagnostic} :
      bound.NamedAs text element →
      Outcomes (AttributeOutcome text) element.attributes bound.attributes reports →
      BodyOutcome element.children bound.content bound.children behind →
      ElementOutcome element bound (reports ++ behind)

/-- What becomes of the children of an element. If the only child is content, its value is bound; if not,
the children are bound one by one. -/
inductive BodyOutcome :
    List Tree.Node → Option (List Value) → List Element → List Diagnostic → Prop
  | content {nodes : List Tree.Node} {values : List Value} {reports : List Diagnostic} :
      Outcomes (ValueOutcome text) nodes (symbols values) reports →
      BodyOutcome [.content nodes] (some values) [] reports
  | children {children : List Tree.Node} {elements : List Element} {reports : List Diagnostic} :
      (∀ nodes, children ≠ [.content nodes]) → Outcomes ChildOutcome children elements reports →
      BodyOutcome children none elements reports

/-- What becomes of a child: it is a bound element, with what becomes of all that it holds, it is left out
without a report, or it is reported. -/
inductive ChildOutcome : Tree.Node → List Element → List Diagnostic → Prop
  | silent {node : Tree.Node} : IsSilent node → ChildOutcome node [] []
  | bound {child : Tree.Element} {bound : Element} {reports : List Diagnostic} :
      child.isTriviaOnly = false → ElementOutcome child bound reports →
      ChildOutcome (.element child) [bound] reports
  | unbound {child : Tree.Element} : child.isTriviaOnly = false →
      ChildOutcome (.element child) [] [reportAt text (.unbound .element) child.extent]
  | unexpected {node : Tree.Node} : ¬IsSilent node → node.kind ≠ .element →
      ChildOutcome node [] [reportAt text (.unexpectedNode node.kind) node.extent]

end

end

/-! ## Omissions in a log -/

namespace Bound

variable {α β : Type}

/-- The diagnostics that say that a part of the tree has been left out. -/
def omissions (log : Bound α) : List Diagnostic := log.diagnostics.filter Diagnostic.isOmission

/-- A value on its own leaves nothing out. -/
@[simp] theorem omissions_pure (value : α) : (pure value : Bound α).omissions = [] := rfl

/-- What is left out in a sequence is what its first part leaves out and then what its second does. -/
@[simp] theorem omissions_bind (log : Bound α) (following : α → Bound β) :
    (log >>= following).omissions = log.omissions ++ (following log.value).omissions := by
  simp [omissions]

/-- A fault counts as an omission if it says that something has been left out. -/
theorem omissions_faultAt (span : Span) (fault : BindingFault) :
    (faultAt span fault).omissions = if fault.isOmission then [⟨.binding fault, span⟩] else [] := by
  cases h : fault.isOmission <;> simp [omissions, faultAt, Diagnostic.isOmission, h]

end Bound

namespace Binder

variable {text : SourceText}

/-- A part that is left out is reported once. -/
theorem ensures_omission (fault : BindingFault) (extent : Option Span)
    (h : fault.isOmission = true) :
    Ensures text (report fault extent) fun log => log.omissions = [reportAt text fault extent] :=
  (logs_report fault extent).ensures (by rw [Bound.omissions_faultAt, if_pos h]; rfl)

/-- A report of another fault says nothing about parts that are left out. -/
theorem ensures_report (fault : BindingFault) (extent : Option Span)
    (h : fault.isOmission = false) :
    Ensures text (report fault extent) fun log => log.omissions = [] :=
  (logs_report fault extent).ensures (by rw [Bound.omissions_faultAt, h]; rfl)

/-- A part that counts as bound only if it is there is reported once if it is not. -/
theorem ensures_required {α : Type} {binder : Binder (Option α)} {holds : Bound (Option α) → Prop}
    (part : BoundPart) (extent : Option Span) (h : Ensures text binder holds) :
    Ensures text (required part extent binder) fun log => ∃ found, holds found
      ∧ log.value = found.value ∧ log.omissions = found.omissions
        ++ (if found.value = none then [reportAt text (.unbound part) extent] else []) := by
  refine h.bind fun found hfound => ?_
  cases hvalue : found.value with
  | none =>
    refine (ensures_omission (.unbound part) extent rfl).bind fun report hreport => ensures_pure ?_
    refine ⟨found, hfound, hvalue.symm, ?_⟩
    rw [Bound.omissions_bind, Bound.omissions_bind, hreport, Bound.omissions_pure, List.append_nil,
      if_pos hvalue]
  | some value =>
    refine ensures_pure ⟨found, hfound, hvalue.symm, ?_⟩
    rw [Bound.omissions_bind, Bound.omissions_pure, hvalue, if_neg nofun]

/-! ## Symbols and values -/

/-- A symbol stands for its nodes, whether or not others are malformed. -/
theorem ofSymbol_ensures (nodes : List Tree.Node) :
    Ensures text (ofSymbol nodes) fun log =>
      log.omissions = [] ∧ ∀ symbol ∈ log.value, symbol.StandsFor text nodes := by
  rw [ofSymbol]
  split
  · refine (ensures_report _ _ rfl).bind fun log hlog => ensures_pure ⟨?_, nofun⟩
    rw [Bound.omissions_bind, hlog, Bound.omissions_pure, List.append_nil]
  split
  · next scope key hscope hkey =>
    refine (logs_excerpt scope).bind_ensures ((logs_excerpt key).bind_ensures ?_)
    refine (logs_use _).bind_ensures (ensures_pure ⟨rfl, ?_⟩)
    simp [Symbol.StandsFor, hscope, hkey]
  · exact ensures_pure ⟨rfl, nofun⟩

/-- An interpolation leaves nothing out by itself, and its symbol stands for the nodes that it has. -/
theorem ofInterpolation_ensures (whole : Interpolation) :
    Ensures text (ofInterpolation whole) fun log => log.omissions = []
      ∧ ∀ symbol ∈ log.value, ∃ nodes, whole.symbol = some nodes
        ∧ symbol.StandsFor text nodes := by
  rw [ofInterpolation]
  split
  · next nodes hnodes =>
    exact (ofSymbol_ensures nodes).mono fun log ⟨hnone, hsymbol⟩ =>
      ⟨hnone, fun symbol hmem => ⟨nodes, hnodes, hsymbol symbol hmem⟩⟩
  · exact ensures_pure ⟨rfl, nofun⟩

/-- A literal is no symbol and no report. -/
theorem ofLiteral_ensures (begun : Option Span) :
    Ensures text (ofLiteral begun) fun log => log.omissions = [] ∧ symbols log.value = [] := by
  cases begun with
  | none => exact ensures_pure ⟨rfl, rfl⟩
  | some span => exact (logs_excerpt span).bind_ensures (ensures_pure ⟨rfl, rfl⟩)

/-- The nodes of a value, one after the other, whether or not a literal has begun. -/
theorem ofValues_ensures (begun : Option Span) (nodes : List Tree.Node) :
    Ensures text (ofValues begun nodes) fun log =>
      Outcomes (ValueOutcome text) nodes (symbols log.value) log.omissions := by
  induction nodes generalizing begun with
  | nil =>
    refine (ofLiteral_ensures begun).mono fun log ⟨hnone, hsymbols⟩ => ?_
    rw [hnone, hsymbols]
    exact .nil
  | cons node rest ih =>
    have hunexpected (hsingle : node.kind ≠ .single) (hinterpolation : node.kind ≠ .interpolation) :
        Ensures text (report (.unexpectedNode node.kind) node.extent >>= fun _ => ofValues begun rest)
          fun log => Outcomes (ValueOutcome text) (node :: rest) (symbols log.value)
            log.omissions := by
      refine (ensures_omission _ _ rfl).bind fun log hlog => (ih begun).mono fun others hothers => ?_
      rw [Bound.omissions_bind, hlog]
      exact .cons (.unexpected hsingle hinterpolation) hothers
    cases node with
    | single tokens => exact (ih _).mono fun log hlog => .cons (.literal tokens) hlog
    | interpolation whole =>
      refine (ofLiteral_ensures begun).bind fun literal ⟨hliteral, hsymbols⟩ => ?_
      refine (ensures_required .symbol whole.extent (ofInterpolation_ensures whole)).bind
        fun log ⟨found, ⟨hnone, hsymbol⟩, hfound, hreports⟩ => ?_
      refine (ih none).bind fun others hothers => ensures_pure ?_
      simp only [Bound.omissions_bind, Bound.omissions_pure, Bound.value_bind, Bound.value_pure,
        symbols_append, hliteral, hsymbols, hfound, hreports, hnone, List.nil_append,
        List.append_nil]
      cases hvalue : found.value with
      | none => exact .cons (.unbound whole) hothers
      | some symbol =>
        obtain ⟨nodes, hnodes, hstands⟩ := hsymbol symbol hvalue
        exact .cons (.symbol hnodes hstands) hothers
    | _ => exact hunexpected nofun nofun

/-! ## Attributes -/

/-- An attribute that is bound comes with what becomes of its value. One that is not may have come as
far as its value. -/
theorem ofAttribute_ensures (attr : Tree.Attribute) :
    Ensures text (ofAttribute attr) fun log =>
      (log.value = none → log.omissions = [] ∨ ∃ symbols,
        Outcomes (ValueOutcome text) (attr.contents.getD []) symbols log.omissions)
      ∧ ∀ bound ∈ log.value, bound.StandsFor text attr
        ∧ Outcomes (ValueOutcome text) (attr.contents.getD []) (symbols bound.value)
          log.omissions := by
  rw [ofAttribute]
  split
  · next hterminated =>
    split
    · exact ensures_pure ⟨fun _ => .inl rfl, nofun⟩
    · next name hname =>
      refine (logs_excerpt name).bind_ensures ((ofValues_ensures none _).bind fun log hlog => ?_)
      refine ensures_pure ?_
      simp only [Bound.omissions_bind, Bound.omissions_pure, Bound.value_bind, Bound.value_pure,
        List.nil_append, List.append_nil]
      refine ⟨fun _ => .inr ⟨_, hlog⟩, fun bound hbound => ?_⟩
      obtain ⟨span, hspan, rfl⟩ := Option.map_eq_some_iff.mp hbound
      exact ⟨⟨hterminated, hspan, name, hname, rfl⟩, hlog⟩
  · exact ensures_pure ⟨fun _ => .inl rfl, nofun⟩

/-- A key that is given twice is reported, and the attribute is bound all the same. -/
theorem checkKey_ensures (keys : List String) (bound : Attribute) :
    Ensures text (checkKey keys bound) fun log => log.omissions = [] := by
  rw [checkKey]
  split
  · exact ensures_report _ _ rfl
  · exact ensures_pure rfl

/-- Each attribute of a tag is bound with what its value gives, or it is reported as left out. -/
theorem ofAttributes_ensures (keys : List String) (attrs : List Tree.Attribute) :
    Ensures text (ofAttributes keys attrs) fun log =>
      Outcomes (AttributeOutcome text) attrs log.value log.omissions := by
  induction attrs generalizing keys with
  | nil => exact ensures_pure .nil
  | cons attr rest ih =>
    refine (ensures_required .attribute attr.extent (ofAttribute_ensures attr)).bind
      fun log ⟨found, ⟨hnone, hsome⟩, hfound, hreports⟩ => ?_
    rw [hfound]
    cases hvalue : found.value with
    | none =>
      refine (ih keys).mono fun others hothers => ?_
      rw [Bound.omissions_bind, hreports, if_pos hvalue]
      exact .cons (.unbound (hnone hvalue)) hothers
    | some bound =>
      obtain ⟨hstands, houtcomes⟩ := hsome bound hvalue
      refine (checkKey_ensures keys bound).bind fun check hcheck => ?_
      refine (ih _).bind fun others hothers => ensures_pure ?_
      simp only [Bound.omissions_bind, Bound.omissions_pure, Bound.value_bind, Bound.value_pure,
        hreports, hvalue, hcheck, reduceCtorEq, if_false, List.nil_append, List.append_nil]
      exact .cons (.bound hstands houtcomes) hothers

/-! ## Elements -/

/-- Another name in the closing tag is reported, and nothing is left out for it. -/
theorem checkClosingName_ensures (name : Excerpt) (closingName : List Token) :
    Ensures text (checkClosingName name closingName) fun log => log.omissions = [] := by
  rw [checkClosingName]
  split
  · exact ensures_pure rfl
  · next span _ =>
    refine (logs_excerpt span).bind_ensures ?_
    split
    · exact ensures_report _ _ rfl
    · exact ensures_pure rfl

/-- The name of an element that can be bound is that of its opening tag. -/
theorem namedAs_of_boundNames {element : Tree.Element} {name closingName : List Token} {span : Span}
    {bound : Element} (hnames : boundNames element = some (name, closingName))
    (hspan : Token.cover name = some span) (h : bound.name = .ofSpan text span) :
    bound.NamedAs text element :=
  ⟨name, span, (slots_of_boundNames hnames).1, hspan, h⟩

mutual

/-- An element that is bound comes with what becomes of all that it holds. -/
theorem ofElement_ensures (element : Tree.Element) :
    Ensures text (ofElement element) fun log =>
      (log.value = none → log.omissions = [])
      ∧ ∀ bound ∈ log.value, ElementOutcome text element bound log.omissions := by
  obtain ⟨leadingTrivia, openBracket, name, attributes, tagEnd, children, closingTag⟩ := element
  rw [ofElement]
  split
  · exact ensures_pure ⟨fun _ => rfl, nofun⟩
  next nameTokens closingName hnames =>
  split
  · exact ensures_pure ⟨fun _ => rfl, nofun⟩
  next span hspan =>
  refine (logs_excerpt span).bind_ensures ((checkClosingName_ensures _ _).bind fun check hcheck => ?_)
  refine (ofAttributes_ensures [] attributes).bind fun attrs hattrs => ?_
  split
  · next nodes =>
    refine (ofValues_ensures none nodes).bind fun content hcontent => ensures_pure ⟨nofun, ?_⟩
    rintro bound ⟨⟩
    simp only [Bound.omissions_bind, Bound.omissions_pure, Bound.value_pure, hcheck,
      List.nil_append, List.append_nil]
    exact .intro (namedAs_of_boundNames hnames hspan rfl) hattrs (.content hcontent)
  · next hcontent =>
    refine (ofChildren_ensures children).bind fun elements helements => ensures_pure ⟨nofun, ?_⟩
    rintro bound ⟨⟩
    simp only [Bound.omissions_bind, Bound.omissions_pure, Bound.value_pure, hcheck,
      List.nil_append, List.append_nil]
    exact .intro (namedAs_of_boundNames hnames hspan rfl) hattrs (.children hcontent helements)

/-- The children of an element, one after the other. -/
theorem ofChildren_ensures (children : List Tree.Node) :
    Ensures text (ofChildren children) fun log =>
      Outcomes (ChildOutcome text) children log.value log.omissions := by
  cases children with
  | nil => exact ensures_pure .nil
  | cons node rest =>
    have hsilent (h : IsSilent node) (hskip : ofChildren (node :: rest) = ofChildren rest) :
        Ensures text (ofChildren (node :: rest)) fun log =>
          Outcomes (ChildOutcome text) (node :: rest) log.value log.omissions := by
      rw [hskip]
      exact (ofChildren_ensures rest).mono fun _ hothers => .cons (ChildOutcome.silent h) hothers
    have hunexpected (h : ¬IsSilent node) (hkind : node.kind ≠ .element) :
        Ensures text (report (.unexpectedNode node.kind) node.extent >>= fun _ => ofChildren rest)
          fun log => Outcomes (ChildOutcome text) (node :: rest) log.value log.omissions := by
      refine (ensures_omission _ _ rfl).bind fun log hlog => ?_
      refine (ofChildren_ensures rest).mono fun others hothers => ?_
      rw [Bound.omissions_bind, hlog]
      exact .cons (.unexpected h hkind) hothers
    cases node with
    | comment _ => exact hsilent trivial rfl
    | trivia _ => exact hsilent trivial rfl
    | element child =>
      cases htrivia : child.isTriviaOnly with
      | true => exact hsilent htrivia (by rw [ofChildren, if_pos htrivia])
      | false =>
        rw [ofChildren, if_neg (by simp [htrivia])]
        refine (ensures_required .element child.extent (ofElement_ensures child)).bind
          fun log ⟨found, ⟨hnone, hsome⟩, hfound, hreports⟩ => ?_
        refine (ofChildren_ensures rest).bind fun others hothers => ensures_pure ?_
        simp only [Bound.omissions_bind, Bound.omissions_pure, Bound.value_bind, Bound.value_pure,
          hfound, hreports, List.append_nil]
        cases hvalue : found.value with
        | none =>
          rw [hnone hvalue]
          exact .cons (.unbound htrivia) hothers
        | some bound =>
          rw [if_neg nofun, List.append_nil]
          exact .cons (.bound htrivia (hsome bound hvalue)) hothers
    | _ => exact hunexpected nofun nofun

end

/-- A node without tokens has no extent, so it is reported at the start of the text. -/
theorem reportAt_of_tokens_eq_nil {node : Tree.Node} (h : node.tokens = []) (fault : BindingFault) :
    reportAt text fault node.extent = ⟨.binding fault, Span.point text.document ⟨0, 0⟩⟩ := by
  have hin : AreIn text.document node.tokens := by
    rw [h]
    exact nofun
  have hnone : node.extent = none := by
    rw [Tree.Node.extent_eq hin, Tree.Node.span, h]
    rfl
  rw [reportAt, hnone, Option.getD_none]

/-- Whatever tree an element is, and whatever has been bound before it: all that it holds is bound with
it or reported once, but for comments, trivia and children without a tag. -/
theorem ofElement_accounts (context : Context) (element : Tree.Element) {bound : Element}
    {after : Context} (h : (ofElement element).run context = (some bound, after)) :
    (∃ reports, after.diagnostics = context.diagnostics ++ reports
      ∧ ElementOutcome context.text element bound (reports.filter Diagnostic.isOmission))
    ∧ ∀ (node : Tree.Node) (fault : BindingFault), node.tokens = [] →
      reportAt context.text fault node.extent
        = ⟨.binding fault, Span.point context.text.document ⟨0, 0⟩⟩ := by
  refine ⟨?_, fun node fault hnil => reportAt_of_tokens_eq_nil hnil fault⟩
  obtain ⟨log, hlog, -, houtcome⟩ := @ofElement_ensures context.text element
  obtain ⟨hvalue, hafter⟩ := Prod.mk.inj (h.symm.trans (hlog context rfl))
  refine ⟨log.diagnostics, by rw [hafter]; rfl, houtcome bound hvalue.symm⟩

/-- A letter at a place of the first line. -/
def letterAt (column : Nat) : Token :=
  ⟨.letters, column, 1, Span.point (.ofNat 0) ⟨0, column⟩⟩

/-- An element that no reader gives. There is a comment in front of content in which a symbol has no
nodes, an element without a name, and an attribute without tokens. -/
def strayElement : Tree.Element where
  openBracket := some []
  name := some [letterAt 0]
  attributes := [{ name := [] }]
  tagEnd := some [⟨.slashClose, 1, 2, ⟨.ofNat 0, ⟨0, 1⟩, ⟨0, 2⟩⟩⟩]
  children := [.comment { opening := [] },
    .content [.interpolation { opening := [], symbol := some [] }],
    .element { openBracket := some [letterAt 3] }]

/-- The three parts of the stray element that are not bound are reported, two of them at the start. -/
theorem ofElement_accounts_stray :
    let text := SourceText.ofString (.ofNat 0) "a/><"
    let reports := [reportAt text (.unbound .attribute) none,
      reportAt text (.unexpectedNode .content) none,
      reportAt text (.unbound .element) (some (Span.point (.ofNat 0) ⟨0, 3⟩))]
    let bound := ⟨.ofSpan text (Span.point (.ofNat 0) ⟨0, 0⟩), [], none, []⟩
    (ofElement strayElement).run (.ofText text)
        = (some bound, { Context.ofText text with diagnostics := reports })
      ∧ ElementOutcome text strayElement bound reports := by
  intro text reports bound
  have hrun : (ofElement strayElement).run (.ofText text)
      = (some bound, { Context.ofText text with diagnostics := reports }) := by
    rfl
  obtain ⟨⟨found, hfound, houtcome⟩, -⟩ := ofElement_accounts _ _ hrun
  obtain rfl : reports = found := hfound
  exact ⟨hrun, houtcome⟩

end Binder

end Template

end JobMarkup
