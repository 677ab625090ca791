import JobMarkup.Proofs.ScannedRules

/-!
# Scanned elements

Attributes, stray tokens and the raw tokens of a body are loops, each of which takes at least one token
in each round. An element agrees with its rule at every depth, by induction on how often it may repeat
itself: child elements are one level deeper, and the levels that are left are fewer.
-/

namespace JobMarkup.Grammar

open JobMarkup.Tree

namespace Scan

variable {text : SourceText} {depth : Nat} {tokens : List Token}

/-! ## Opening tags -/

/-- The name of a tag is scanned up to a blank, the end of the tag or the end of the text, as its
rule reads it. -/
theorem agrees_tagName {first : Token} (hfirst : isTagName first = true) (rest : List Token) :
    Agrees text depth (tagName text.tokens) (first :: rest) (Grammar.tagName (first :: rest)) := by
  have hinside (token : Token) (hkind : token.kind ≠ .endOfText) :
      (!token.kind.isBlank && !token.kind.isTagEnd && token.kind != .endOfText)
        = isTagName token := by
    rw [bne_iff_ne.mpr hkind, Bool.and_true]
    rfl
  have hparsed : Grammar.tagName (first :: rest)
      = ⟨first :: rest.takeWhile isTagName, rest.dropWhile isTagName,
          reportIf ((first :: rest.takeWhile isTagName).map Token.kind != [.letters])
            .invalidElementName (first :: rest.takeWhile isTagName)⟩ := by
    rw [Grammar.tagName, List.takeWhile_cons_of_pos hfirst, List.dropWhile_cons_of_pos hfirst]
  rw [hparsed]
  exact (agrees_takeRun rfl hinside first rest).bind_nil (agrees_reporting _ _ _ _)

/-- A gap is missing exactly where the next token is no blank, so both report the same attributes. -/
theorem isNone_blanks (tokens : List Token) :
    (Rule.blanks.optional tokens).value.isNone = !tokens.head?.any Token.isBlank := by
  cases tokens with
  | nil => rfl
  | cons first rest =>
    cases hblank : first.isBlank with
    | false => simp [Rule.optional, Rule.blanks, hblank]
    | true => simp [Rule.optional, Rule.blanks, hblank, Parsed.map]

/-- The scan of the attributes agrees with the rule, with the blanks on both sides skipped. -/
theorem agrees_attributes (tokens : List Token) :
    Agrees text depth (attributes text.tokens (Rule.blanks.optional tokens).value)
      (skipBlanks tokens)
      ⟨(Rule.spacedAttribute.many tokens).value, skipBlanks (Rule.spacedAttribute.many tokens).rest,
        (Rule.spacedAttribute.many tokens).reports⟩ := by
  apply Agrees.loop _ _ _ (fun others tokens ih => ?_) tokens
  rw [Rule.many_eq Rule.spacedAttribute_consumes]
  refine (agrees_namedAttribute (skipBlanks tokens)).bind_attempt (fun hread => ?_)
    fun first hread => ?_
  · have hrule : Rule.spacedAttribute tokens = none := by
      rw [Rule.spacedAttribute, hread, Option.map_none]
    rw [hrule]
    exact .pure []
  · have hrule : Rule.spacedAttribute tokens = some { first with
        reports := first.reports
          ++ reportIf (!tokens.head?.any Token.isBlank) .missingAttributeSpacing
            first.value.name } := by
      rw [Rule.spacedAttribute, hread, Option.map_some]
    have hlt : (skipBlanks first.rest).length < (skipBlanks tokens).length :=
      (List.dropWhile_suffix _).length_le.trans_lt (Rule.attribute_consumes _ first hread).2
    rw [hrule, isNone_blanks]
    exact ⟨_, (List.append_assoc _ _ _).symm, (agrees_reportWhen _ _ _).bind
      ((agrees_skipBlanks first.rest).bind_nil ((ih first.rest hlt).map (first.value :: ·))) rfl⟩

/-- The tokens that are left out up to the end of a tag. -/
theorem agrees_strays (tokens : List Token) :
    Agrees text depth (strays text.tokens) tokens
      ⟨(), tokens.dropWhile fun token => !token.isTagEnd,
        (tokens.takeWhile fun token => !token.isTagEnd).map
          fun stray => ⟨.invalidToken, [stray]⟩⟩ := by
  apply Agrees.loop _ _ _ (fun others tokens ih => ?_) tokens
  cases tokens with
  | nil => exact .sees (.pure ())
  | cons first rest =>
    refine .of_cons fun hkind => .sees ?_
    rw [kindAt_cons_zero, beq_false_of_ne hkind, Bool.or_false]
    change Agrees text depth (if (!first.isTagEnd) = true then _ else _) _ _
    rw [List.dropWhile_cons, List.takeWhile_cons]
    cases first.isTagEnd with
    | true => exact .pure ()
    | false =>
      have hothers := ih rest (Nat.lt_succ_self _)
      exact (agrees_consume_zero first rest).bind_nil ((agrees_report _ _).bind hothers rfl)

/-- The rest of an opening tag agrees with its rule, from the first token of the name on. -/
theorem agrees_namedTag (element : Element) {first : Token} (hfirst : isTagName first = true)
    (rest : List Token) :
    Agrees text depth (namedTag text.tokens element) (first :: rest)
      (Grammar.namedTag element (first :: rest)) := by
  refine (agrees_tagName hfirst rest).bind ((agrees_skipBlanks _).bind_nil
    ((agrees_attributes _).bind ((agrees_strays _).bind
      ((agrees_token rfl _).bind_nil (agrees_reporting _ _ _ _)) rfl) rfl)) ?_
  simp [Grammar.namedTag]

/-- An opening tag agrees with its rule, also where the name or all that follows is missing. -/
theorem agrees_openTag (leadingTrivia : List Node) (bracket tokens : List Token) :
    Agrees text depth (openTag text.tokens leadingTrivia bracket) tokens
      (Grammar.openTag leadingTrivia bracket tokens) := by
  refine (agrees_skipBlanks tokens).bind_nil ?_
  have hhead := follows_skipBlanks tokens
  rw [Grammar.openTag]
  generalize skipBlanks tokens = behind at hhead ⊢
  cases behind with
  | nil =>
    refine .token rfl (fun _ => .sees ((agrees_report _ _).map fun _ => _)) fun tagEnd htagEnd => ?_
    cases htagEnd
  | cons first rest =>
    refine .of_cons fun hkind => .token rfl (fun htagEnd => .sees ?_) fun tagEnd htagEnd => ?_
    · have hends : first.isTagEnd = false := by
        rw [Token.isTagEnd]
        simpa only [Rule.token, ite_eq_right_iff, reduceCtorEq, imp_false, Bool.not_eq_true]
          using htagEnd
      have hblank : first.isBlank = false := hhead first rfl
      have hname : isTagName first = true := by
        rw [isTagName, hends, hblank]
        rfl
      rw [kindAt_cons_zero, beq_false_of_ne hkind]
      simp only [hends]
      exact agrees_namedTag _ hname rest
    · simp only [Rule.token, Option.ite_none_right_eq_some, Option.some.injEq] at htagEnd
      obtain ⟨hends, rfl⟩ := htagEnd
      rw [← Token.isTagEnd] at hends
      simp only [hends, if_true]
      exact (agrees_report _ _).map fun _ => _

/-! ## Bodies -/

/-- Counting tags looks one token ahead, where the token at the end opens no tag. -/
theorem nestingBehind_eq (text : SourceText) (nesting : Nat) (first : Token)
    (rest : List Token) :
    nestingBehind nesting first [rest[0]?.getD text.endToken]
      = nestingBehind nesting first rest := by
  have hnext : [rest[0]?.getD text.endToken].head?.map Token.kind = some .letters
      ↔ rest.head?.map Token.kind = some .letters := by
    rw [head?_kind_eq_iff (by decide), head?_kind_eq_iff (by decide), kindAt_cons_zero, kindAt_eq]
  rw [nestingBehind, nestingBehind, if_congr hnext rfl rfl]

/-- Raw contents agree with their rule, for any number of open tags. -/
theorem agrees_rawContents (nesting : Nat) (tokens : List Token) :
    Agrees text depth (rawContents text.tokens nesting) tokens
      ⟨(Grammar.rawContents nesting tokens).1, (Grammar.rawContents nesting tokens).2, []⟩ := by
  refine Agrees.loop Prod.fst Prod.snd
    (fun i => ⟨(Grammar.rawContents i.1 i.2).1, (Grammar.rawContents i.1 i.2).2, []⟩)
    (fun others i ih => ?_) (nesting, tokens)
  obtain ⟨nesting, tokens⟩ := i
  cases tokens with
  | nil => exact (agrees_peek 0).bind_nil (.pure [])
  | cons first rest =>
    rw [Grammar.rawContents]
    refine .of_cons fun hkind => (agrees_peek 0).bind_nil ?_
    have hends : (decide (first.kind = .endOfText)
        || (decide (first.kind = .openSlash) && decide (nesting = 0))) = true
        ↔ first.kind = .openSlash ∧ nesting = 0 := by
      simp [hkind]
    refine .ite (fun hopen => ?_) fun hopen => ?_
    · rw [if_pos (hends.mp hopen)]
      exact .pure []
    · rw [if_neg (mt hends.mpr hopen)]
      refine (agrees_peek 1).bind_nil ((agrees_consume_zero first rest).bind_nil ?_)
      change Agrees text depth (do
        return [first] ++ (← others
          (nestingBehind nesting first [rest[0]?.getD text.endToken]))) rest _
      rw [nestingBehind_eq]
      have hothers := ih (nestingBehind nesting first rest, rest) (Nat.lt_succ_self _)
      exact hothers.map ([first] ++ ·)

/-- The closing of an element agrees with its rule. -/
theorem agrees_closeElement (element : Element) (tokens : List Token) :
    Agrees text depth (closeElement text.tokens element) tokens
      (Grammar.closeElement element tokens) :=
  (agrees_closingTag tokens).bind (agrees_reporting _ _ _ _) rfl

/-- A raw body agrees with its rule. -/
theorem agrees_rawBody (element : Element) (tokens : List Token) :
    Agrees text depth (rawBody text.tokens element) tokens (Grammar.rawBody element tokens) :=
  (agrees_report _ _).bind ((agrees_rawContents 0 tokens).bind_nil (agrees_closeElement _ _)) rfl

/-- A body with text agrees with its rule. -/
theorem agrees_textBody (element : Element) (tokens : List Token) :
    Agrees text depth (textBody text.tokens element) tokens (Grammar.textBody element tokens) :=
  (agrees_content elementValueEnds tokens).bind (agrees_closeElement _ _) rfl

/-- Text behind children agrees with its rule if there is any in front of the closing tag. -/
theorem agrees_strayText (element : Element) {first : Token} (hfirst : first.kind ≠ .openSlash)
    (rest : List Token) :
    Agrees text depth (strayText text.tokens element) (first :: rest)
      (Grammar.strayText element (first :: rest)) := by
  have hinside (token : Token) (hkind : token.kind ≠ .endOfText) :
      (token.kind != .openSlash && token.kind != .endOfText) = (token.kind != .openSlash) := by
    rw [bne_iff_ne.mpr hkind, Bool.and_true]
  have hisText : (first.kind != .openSlash) = true := bne_iff_ne.mpr hfirst
  simp only [Grammar.strayText, List.dropWhile_cons, List.takeWhile_cons, hisText, if_true]
  exact (agrees_takeRun rfl hinside first rest).bind_nil
    ((agrees_closingTag _).bind ((agrees_report _ _).map fun _ => _) rfl)

/-- What comes behind the children of an element agrees with its rule. -/
theorem agrees_elementEnd (element : Element) (tokens : List Token) :
    Agrees text depth (elementEnd text.tokens element) tokens (Grammar.elementEnd element tokens) := by
  rw [Grammar.elementEnd]
  refine .ite (fun hempty => ?_) fun hempty => ?_
  · rw [if_pos hempty]
    exact agrees_textBody element tokens
  rw [if_neg hempty]
  cases tokens with
  | nil => exact .sees (agrees_closeElement element [])
  | cons first rest =>
    refine .of_cons fun hkind => .sees ?_
    rw [kindAt_cons_zero, beq_false_of_ne hkind, Bool.or_false]
    refine .ite (fun hslash => ?_) fun hslash => ?_
    · rw [List.head?_cons, Option.all_some, if_pos hslash]
      exact agrees_closeElement element _
    · rw [List.head?_cons, Option.all_some, if_neg hslash]
      exact agrees_strayText element (mt beq_of_eq hslash) rest

/-! ## Elements and documents -/

/-- A scan one level deeper and then another at the level agree with the two rules in turn. -/
theorem agrees_deeper {α β : Type} {scan : Scan α} {next : α → Scan β} {first : Parsed α}
    {parsed : Parsed β} {reports : List Report}
    (hscan : Agrees text (depth + 1) scan tokens first)
    (hnext : Agrees text depth (next first.value) first.rest ⟨parsed.value, parsed.rest, reports⟩)
    (hreports : first.reports ++ reports = parsed.reports) :
    Agrees text depth (do
      modify fun scanner => { scanner with depth := scanner.depth + 1 }
      let found ← scan
      modify fun scanner => { scanner with depth := scanner.depth - 1 }
      next found) tokens parsed := by
  intro h
  obtain ⟨hfirst, hrun⟩ := hscan h
  obtain ⟨hsecond, hrunNext⟩ := hnext (hfirst.trans h)
  refine ⟨hsecond.trans hfirst, fun limit hlimit diagnostics => ?_⟩
  have hnested : (scan >>= fun found => do
      modify fun scanner => { scanner with depth := scanner.depth - 1 }
      next found) limit (.facing text tokens 0 (depth + 1) diagnostics)
      = next first.value limit (.facing text first.rest 0 depth
          (diagnostics ++ first.reports.map (Reader.diagnose text.tokens))) := by
    rw [bind_apply, hrun limit hlimit]
    rfl
  refine hnested.trans ?_
  rw [hrunNext limit hlimit, List.append_assoc, ← List.map_append, hreports]

/-- A choice on the depth agrees where the branch that is taken agrees. -/
theorem agrees_ite_depth {α : Type} {greatest : Nat} {yes no : Scan α} {parsed : Parsed α}
    (hyes : greatest ≤ depth → Agrees text depth yes tokens parsed)
    (hno : ¬greatest ≤ depth → Agrees text depth no tokens parsed) :
    Agrees text depth (do if greatest ≤ (← get).depth then yes else no) tokens parsed :=
  fun h => Agrees.ite hyes hno h

/-- At the greatest depth, the body of an element is raw tokens, whatever child elements would be. -/
theorem agrees_body_of_le (h : maxDepth ≤ depth) (child : Scan (Option Element)) (whole : Element)
    (tokens : List Token) :
    Agrees text depth (body text.tokens child whole) tokens (Grammar.rawBody whole tokens) :=
  agrees_ite_depth (fun _ => agrees_rawBody whole tokens) fun hlt => absurd h hlt

/-- At a lesser depth, the body of an element agrees with its rule if child elements do, one level
deeper. -/
theorem agrees_body_of_lt (h : depth < maxDepth) {child : Scan (Option Element)}
    {rule : Rule Element} (hrule : rule.Consumes)
    (hchild : ∀ tokens, Agrees text (depth + 1) child tokens
      (rule.attempt (skipBlanks tokens) tokens)) (whole : Element) (tokens : List Token) :
    Agrees text depth (body text.tokens child whole) tokens (nestedBody rule whole tokens) :=
  agrees_ite_depth (fun hle => absurd hle (Nat.not_le_of_lt h)) fun _ =>
    agrees_deeper (agrees_many_attempt hrule hchild tokens) (agrees_elementEnd _ _) rfl

/-- An element whose bracket has been read agrees with its rule if its body does. -/
theorem agrees_taggedElement {scanBody : Element → Scan Element}
    {rule : Element → List Token → Parsed Element}
    (hbody : ∀ whole tokens, Agrees text depth (scanBody whole) tokens (rule whole tokens))
    (leadingTrivia : List Node) (bracket tokens : List Token) :
    Agrees text depth (do
      let opened ← openTag text.tokens leadingTrivia bracket
      if hasBody opened then return some (← scanBody opened) else return some opened) tokens
      ((taggedElement rule leadingTrivia bracket tokens).map some) := by
  have hopened : Agrees text depth _ tokens (Grammar.openTag leadingTrivia bracket tokens) :=
    agrees_openTag leadingTrivia bracket tokens
  rw [taggedElement]
  split
  · next hhas =>
    exact hopened.bind (.ite (fun _ => (hbody _ _).map some) fun hnot => absurd hhas hnot) rfl
  · next hhas =>
    exact hopened.bind (.ite (fun hhas' => absurd hhas' hhas) fun _ => .pure _) (List.append_nil _)

/-- An element agrees with its rule if its body does. -/
theorem agrees_elementWith {scanBody : Element → Scan Element}
    {rule : Element → List Token → Parsed Element}
    (hbody : ∀ whole tokens, Agrees text depth (scanBody whole) tokens (rule whole tokens))
    (tokens : List Token) :
    Agrees text depth (elementWith text.tokens scanBody) tokens
      ((Rule.elementWith rule).attempt (skipBlanks tokens) tokens) := by
  have hleading : Agrees text depth _ _ (Grammar.trivia (skipBlanks tokens)) :=
    agrees_trivia (skipBlanks tokens)
  refine (agrees_skipBlanks tokens).bind_nil ?_
  have hopening : Agrees text depth (token text.tokens (· == .openAngle))
      (Grammar.trivia (skipBlanks tokens)).rest ⟨_, _, []⟩ := agrees_token rfl _
  simp only [Rule.attempt, Rule.elementWith]
  cases hbracket : Rule.token (· == .openAngle) (Grammar.trivia (skipBlanks tokens)).rest with
  | some bracket =>
    rw [Rule.optional_of_some hbracket] at hopening
    exact hleading.bind (hopening.bind_nil (agrees_taggedElement hbody _ _ _)) rfl
  | none =>
    rw [Rule.optional_of_none hbracket] at hopening
    cases hempty : (Grammar.trivia (skipBlanks tokens)).value.isEmpty with
    | true =>
      rw [Grammar.trivia, Rule.many_of_nil Rule.trivium_consumes (List.isEmpty_iff.mp hempty)]
        at hleading hopening
      exact hleading.bind_nil (hopening.bind_nil (.pure none))
    | false =>
      refine hleading.bind (hopening.bind_nil ?_) (List.append_nil _)
      simp only [hempty]
      exact .pure _

/-- An element agrees with its rule at each depth. -/
theorem agrees_element {levels : Nat} (hlevels : depth + levels = maxDepth) (tokens : List Token) :
    Agrees text depth (element text.tokens) tokens
      ((Rule.element levels).attempt (skipBlanks tokens) tokens) := by
  refine .loop_of_ample fun times htimes => ?_
  have hle : levels ≤ maxDepth := by omega
  have hlt : levels < times := hle.trans_lt htimes.maxDepth_lt
  clear htimes hle
  induction times generalizing depth levels tokens with
  | zero => exact absurd hlt (Nat.not_lt_zero _)
  | succ times ih =>
    cases levels with
    | zero => exact agrees_elementWith (agrees_body_of_le (Nat.le_of_eq hlevels.symm) _) tokens
    | succ levels =>
      have hdeeper : depth + 1 + levels = maxDepth := by omega
      have hchild (tokens : List Token) := ih hdeeper tokens (Nat.lt_of_succ_lt_succ hlt)
      exact agrees_elementWith
        (agrees_body_of_lt (by omega) (Rule.element_consumes levels) hchild) tokens

/-- A document agrees with its rule; where it declines, the blanks in front have been taken. -/
theorem agrees_document (tokens : List Token) :
    Agrees text 0 (document text.tokens) tokens
      (Rule.document.attempt (skipBlanks tokens) tokens) := by
  refine (agrees_element (Nat.zero_add maxDepth) tokens).bind_attempt (fun hread => ?_)
    fun root hread => ?_
  · rw [Rule.attempt_of_none _ (by rw [Rule.document, hread]; rfl)]
    exact .pure none
  · rw [Rule.attempt_of_some _ (by rw [Rule.document, hread]; rfl)]
    exact ⟨_, rfl, (agrees_trivia root.rest).map fun trailingTrivia =>
      some (⟨root.value, trailingTrivia⟩ : Document)⟩

end Scan

/-- Whatever is asked for, the scan agrees with the rule. -/
theorem Production.agrees_scan (text : SourceText) (production : Production) (tokens : List Token) :
    Scan.Agrees text 0 (production.scan text.tokens) tokens
      (production.rule.attempt (production.restDeclined tokens) tokens) := by
  cases production with
  | partialSymbol => exact (Scan.agrees_partialSymbol tokens).map_attempt _
  | compoundSymbol => exact (Scan.agrees_compoundSymbol tokens).map_attempt _
  | namespacedSymbol => exact (Scan.agrees_namespacedSymbol tokens).map_attempt _
  | interpolation => exact (Scan.agrees_interpolation tokens).map_attempt _
  | content terminators => exact (Scan.agrees_content terminators tokens).map_attempt _
  | «attribute» => exact (Scan.agrees_namedAttribute tokens).map_attempt _
  | closingTag => exact (Scan.agrees_closingTag tokens).map_attempt _
  | comment => exact (Scan.agrees_comment tokens).map_attempt _
  | trivia => exact (Scan.agrees_trivia tokens).map fun nodes => some (Node.trivia nodes)
  | element => exact (Scan.agrees_element (Nat.zero_add maxDepth) tokens).map_attempt _
  | document => exact (Scan.agrees_document tokens).map_attempt _

/-- The document of a text is what a scanner in front of it finds. -/
theorem Scan.document_ends_readDocument (text : SourceText) :
    ∃ after, (Scan.document text.tokens).Ends {} (readDocument text.tokens).1 after
      ∧ after.diagnostics = (readDocument text.tokens).2 := by
  have hstart : Scanner.facing text text.tokens.tokens 0 0 [] = {} := by
    rw [Scanner.facing, Nat.sub_self]
  have hends := (Scan.agrees_document _).ends (List.suffix_refl text.tokens.tokens) []
  rw [hstart] at hends
  rw [readDocument]
  cases hread : Rule.document text.tokens.tokens with
  | none =>
    rw [Rule.attempt_of_none _ hread] at hends
    exact ⟨_, hends, rfl⟩
  | some parsed =>
    rw [Rule.attempt_of_some _ hread] at hends
    exact ⟨_, hends, rfl⟩

end JobMarkup.Grammar
