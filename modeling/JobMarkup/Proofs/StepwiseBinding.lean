import JobMarkup.Proofs.BinderLogs
import JobMarkup.Proofs.Extents
import JobMarkup.Proofs.PartialBinding

/-!
# Binding at once and step by step

Binding step by step gives and leaves behind what results put together do, for trees over tokens of one
document: among them are all trees that are read. The tokens need not be those of the context, nor in
any order.
-/

namespace JobMarkup.Template.Binder

open JobMarkup.Tree JobMarkup.Variable

variable {α β : Type} {text : SourceText} {document : DocumentId}

/-- A binder that only gives a value leaves nothing behind. -/
theorem Logs.pure_bind {first : Binder α} {next : α → Binder β} {value : α} {following : Bound β}
    (h : Logs text first (Pure.pure value)) (hnext : Logs text (next value) following) :
    Logs text (first >>= next) following :=
  h.bind hnext

/-- A part that counts as bound only if it is there. -/
theorem Logs.required {binder : Binder (Option α)} {log : Bound (Option α)} {tokens : List Token}
    {extent : Option Span} (h : Logs text binder log) (hextent : extent = Token.cover tokens)
    (part : BoundPart) :
    Logs text (required part extent binder) (log.required text part tokens) := by
  subst hextent
  refine h.bind ?_
  cases log.value with
  | none => exact (logs_report _ _).bind (.pure none)
  | some value => exact .pure (some value)

/-! ## Symbols and values -/

/-- A symbol that is bound step by step leaves behind what its binding records. -/
theorem logs_ofSymbol {nodes : List Tree.Node} (h : AreIn document (nodeTokens nodes)) :
    Logs text (ofSymbol nodes) (bindSymbol text nodes) := by
  rw [ofSymbol, bindSymbol, (joins_nodes h).cover_eq]
  split
  · next hcount =>
    rw [if_neg (by omega)]
    exact (logs_report _ _).bind (.pure none)
  · next hcount =>
    rw [if_pos (by omega)]
    obtain ⟨slash, last, hnodes⟩ := eq_take_append_of_three_le (show 3 ≤ nodes.length by omega)
    have hparts := h
    rw [hnodes] at hparts
    simp only [nodeTokens_append, nodeTokens_cons, areIn_append] at hparts
    obtain ⟨hscope, -, hlast, -⟩ := hparts
    have hgetLast : nodes.getLast? = some last := by
      rw [hnodes]
      simp
    simp only [(joins_nodes hscope).cover_eq, hgetLast, Option.bind_eq_bind, Option.bind_some,
      Tree.Node.extent_eq hlast]
    cases Token.cover (nodeTokens (nodes.take (nodes.length - 2))) with
    | none => exact .pure none
    | some scope =>
      cases last.span with
      | none => exact .pure none
      | some key =>
        exact (logs_excerpt scope).pure_bind ((logs_excerpt key).pure_bind
          ((logs_use _).bind_pure _))

/-- An interpolation that is bound step by step leaves behind what its binding records. -/
theorem logs_ofInterpolation {whole : Interpolation} (h : AreIn document whole.tokens) :
    Logs text (ofInterpolation whole) (bindInterpolation text whole) := by
  rw [ofInterpolation, bindInterpolation]
  cases hsymbol : whole.symbol with
  | none => exact .pure none
  | some nodes =>
    rw [Interpolation.tokens_eq, hsymbol, areIn_append, areIn_append] at h
    exact logs_ofSymbol h.1.2

/-- A literal is read from the text of the span that covers its tokens, and leaves nothing
behind. -/
theorem logs_ofLiteral (tokens : List Token) :
    Logs text (ofLiteral (Token.cover tokens)) (pure (literalOf text tokens)) := by
  rw [literalOf]
  cases Token.cover tokens with
  | none => exact .pure []
  | some span => exact (logs_excerpt span).pure_bind (.pure _)

/-- A literal that has begun with some tokens and the nodes behind it. -/
theorem logs_ofValues_behind {nodes : List Tree.Node} {literal : List Token}
    (hliteral : AreIn document literal) (h : AreIn document (nodeTokens nodes)) :
    Logs text (ofValues (Token.cover literal) nodes) (bindValues text literal nodes) := by
  induction nodes generalizing literal with
  | nil => exact logs_ofLiteral literal
  | cons node rest ih =>
    rw [nodeTokens_cons, areIn_append] at h
    obtain ⟨hnode, hrest⟩ := h
    have hunexpected : Logs text
        (report (.unexpectedNode node.kind) node.extent >>= fun _ =>
          ofValues (Token.cover literal) rest)
        (Bound.faultAbout text node.tokens (.unexpectedNode node.kind) >>= fun _ =>
          bindValues text literal rest) := by
      rw [Tree.Node.extent_eq hnode]
      exact (logs_report _ _).bind (ih hliteral hrest)
    cases node with
    | single tokens =>
      have hjoined : Span.cover ((Token.cover literal).toList ++ (Token.cover tokens).toList)
          = Token.cover (literal ++ tokens) :=
        ((joins_cover hliteral).append (joins_cover hnode)).cover_eq
      rw [ofValues, bindValues, hjoined]
      exact ih (areIn_append.mpr ⟨hliteral, hnode⟩) hrest
    | interpolation whole =>
      have hsymbol : Logs text (ofInterpolation whole) (bindInterpolation text whole) :=
        logs_ofInterpolation hnode
      exact (logs_ofLiteral literal).pure_bind
        ((hsymbol.required (Interpolation.extent_eq hnode) .symbol).bind
          ((ih (areIn_nil document) hrest).bind_pure _))
    | _ => exact hunexpected

/-- Content that is bound step by step leaves behind what its binding records. -/
theorem logs_ofValues {nodes : List Tree.Node} (h : AreIn document (nodeTokens nodes)) :
    Logs text (ofValues none nodes) (bindValues text [] nodes) :=
  logs_ofValues_behind (areIn_nil document) h

/-! ## Attributes -/

/-- An attribute that is bound step by step leaves behind what its binding records, also if it is
given up. -/
theorem logs_ofAttribute {attr : Tree.Attribute} (h : AreIn document attr.tokens) :
    Logs text (ofAttribute attr) (bindAttribute text attr) := by
  have hcontents : AreIn document (nodeTokens (attr.contents.getD [])) := by
    rw [Attribute.tokens_eq, areIn_append, areIn_append] at h
    exact h.1.2
  rw [ofAttribute, bindAttribute, Attribute.extent_eq h]
  split
  · cases Token.cover attr.name with
    | none => exact .pure none
    | some name =>
      exact (logs_excerpt name).pure_bind ((logs_ofValues hcontents).bind_pure _)
  · exact .pure none

/-- A check of a key leaves one report behind if the key has been given before. -/
theorem logs_checkKey (keys : List String) (bound : Attribute) :
    Logs text (checkKey keys bound)
      (if bound.key.text ∈ keys then Bound.faultAt bound.span .duplicateAttribute
        else pure ()) := by
  rw [checkKey]
  split
  · exact logs_report _ _
  · exact .pure ()

/-- Attributes that are bound step by step leave behind what their binding records. -/
theorem logs_ofAttributes {attributes : List Tree.Attribute}
    (h : AreIn document (attributeTokens attributes)) (keys : List String) :
    Logs text (ofAttributes keys attributes) (bindAttributes text keys attributes) := by
  induction attributes generalizing keys with
  | nil => exact .pure []
  | cons attr rest ih =>
    obtain ⟨hattr, hrest⟩ := areIn_append.mp h
    have hlog : Logs text (ofAttribute attr) (bindAttribute text attr) := logs_ofAttribute hattr
    refine ((hlog.required (Attribute.extent_eq hattr) .attribute).bind ?_).of_eq
      (Bound.bind_congr rfl)
    cases (Bound.required text .attribute attr.tokens (bindAttribute text attr)).value with
    | none => exact ih hrest keys
    | some bound =>
      refine ((logs_checkKey keys bound).bind ((ih hrest _).bind_pure _)).of_eq ?_
      dsimp only
      split <;> rfl

/-! ## Elements -/

/-- A check of a closing name leaves one report behind if the name is another one. -/
theorem logs_checkClosingName (name : Excerpt) (closingName : List Token) :
    Logs text (checkClosingName name closingName)
      (Template.checkClosingName text name closingName) := by
  rw [checkClosingName, Template.checkClosingName]
  cases Token.cover closingName with
  | none => exact .pure ()
  | some span =>
    refine (logs_excerpt span).pure_bind ?_
    by_cases h : name.text = (Excerpt.ofSpan text span).text
    · simp only [h, ne_eq, not_true_eq_false, if_false, if_true]
      exact .pure ()
    · simp only [h, Ne.symm h, ne_eq, not_false_eq_true, if_false, if_true]
      exact logs_report _ _

mutual

/-- An element that is bound step by step leaves behind what its binding records, by recursion on
the tree. -/
theorem logs_ofElement (element : Tree.Element) (h : AreIn document element.tokens) :
    Logs text (ofElement element) (bindElement text element) := by
  obtain ⟨leadingTrivia, openBracket, name, attributes, tagEnd, children, closingTag⟩ := element
  simp only [Element.tokens, areIn_append] at h
  obtain ⟨⟨⟨⟨⟨⟨-, -⟩, -⟩, hattributes⟩, -⟩, hchildren⟩, -⟩ := h
  rw [ofElement, bindElement]
  cases boundNames ⟨leadingTrivia, openBracket, name, attributes, tagEnd, children, closingTag⟩ with
  | none => exact .pure none
  | some names =>
    obtain ⟨nameTokens, closingName⟩ := names
    cases hname : Token.cover nameTokens with
    | none =>
      simp only [hname]
      exact .pure none
    | some span =>
      simp only [hname]
      refine (logs_excerpt span).pure_bind ((logs_checkClosingName _ _).bind
        (((logs_ofAttributes hattributes []).bind ?_).of_eq (Bound.bind_congr rfl)))
      have hbody := (logs_ofChildren children hchildren).bind_pure fun children => some
        (⟨.ofSpan text span, (bindAttributes text [] attributes).value, none, children⟩ : Element)
      rcases children with _ | ⟨node, _ | ⟨next, rest⟩⟩
      · exact hbody
      · cases node with
        | content nodes =>
          simp only [nodeTokens_cons, areIn_append] at hchildren
          exact (logs_ofValues hchildren.1).bind_pure _
        | _ => exact hbody
      · cases node <;> exact hbody

/-- Children that are bound step by step leave behind what their binding records. -/
theorem logs_ofChildren (children : List Tree.Node) (h : AreIn document (nodeTokens children)) :
    Logs text (ofChildren children) (bindChildren text children) := by
  cases children with
  | nil => exact .pure []
  | cons node rest =>
    rw [nodeTokens_cons, areIn_append] at h
    obtain ⟨hnode, hrest⟩ := h
    have hunexpected : Logs text
        (report (.unexpectedNode node.kind) node.extent >>= fun _ => ofChildren rest)
        (Bound.faultAbout text node.tokens (.unexpectedNode node.kind) >>= fun _ =>
          bindChildren text rest) := by
      rw [Tree.Node.extent_eq hnode]
      exact (logs_report _ _).bind (logs_ofChildren rest hrest)
    cases node with
    | comment _ => exact logs_ofChildren rest hrest
    | trivia _ => exact logs_ofChildren rest hrest
    | element child =>
      rw [ofChildren, bindChildren]
      split
      · exact logs_ofChildren rest hrest
      · exact ((logs_ofElement child hnode).required (Element.extent_eq hnode) .element).bind
          ((logs_ofChildren rest hrest).bind_pure _)
    | _ => exact hunexpected

end

/-! ## Documents -/

/-- A document that is bound step by step gives what it gives at once and leaves the same context
behind. -/
theorem run_ofDocument (context : Context) {whole : Tree.Document}
    (h : AreIn document whole.tokens) :
    (ofDocument whole).run context = context.bindDocument whole := by
  obtain ⟨root, trailingTrivia⟩ := whole
  have hroot : AreIn document root.tokens := (areIn_append.mp h).1
  exact run_ofDocument_of_root
    ((logs_ofElement root hroot).required (Element.extent_eq hroot) .element context rfl)

/-- Binding a node step by step in any context gives and leaves behind what binding it at once does. -/
theorem run_ofNode (context : Context) {node : Tree.Node} (h : AreIn document node.tokens) :
    (ofNode node).run context = context.bind node := by
  cases node with
  | document whole =>
    have hrun := run_ofDocument context h
    rw [ofNode, Context.bind]
    simp only [StateT.run_bind, hrun]
    rfl
  | element element => exact ((logs_ofElement element h).bind_pure _) context rfl
  | «attribute» attr => exact ((logs_ofAttribute h).bind_pure _) context rfl
  | namespacedSymbol nodes => exact ((logs_ofSymbol h).bind_pure _) context rfl
  | interpolation whole => exact ((logs_ofInterpolation h).bind_pure _) context rfl
  | content nodes => exact ((logs_ofValues h).bind_pure _) context rfl
  | _ => exact Logs.pure none context rfl

end JobMarkup.Template.Binder
