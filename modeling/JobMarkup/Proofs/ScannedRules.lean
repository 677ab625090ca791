import JobMarkup.Proofs.Scanning
import JobMarkup.Proofs.TagGrammar

/-!
# Scanned symbols, content and trivia

Each scan of a part that holds no elements agrees with its rule, in front of any tokens.
-/

namespace JobMarkup.Grammar

open JobMarkup.Tree

variable {α : Type} {text : SourceText} {depth : Nat} {tokens : List Token}

/-- A repetition that finds nothing takes nothing. -/
theorem Rule.many_of_nil {rule : Rule α} (hrule : rule.Consumes)
    (h : (rule.many tokens).value = []) : rule.many tokens = ⟨[], tokens, []⟩ := by
  rw [Rule.many_eq hrule] at h ⊢
  cases hfirst : rule tokens with
  | none => rfl
  | some first => simp [hfirst] at h

namespace Scan

/-- A single token agrees with its rule, if the end of the text is not accepted as one. -/
theorem agrees_token {accepts : TokenKind → Bool} (hend : accepts .endOfText = false)
    (tokens : List Token) :
    Agrees text depth (token text.tokens accepts) tokens
      ⟨((Rule.token accepts).optional tokens).value, ((Rule.token accepts).optional tokens).rest,
        []⟩ := by
  refine .sees ?_
  cases tokens with
  | nil =>
    rw [kindAt_nil, hend]
    exact .pure none
  | cons first rest =>
    rw [kindAt_cons_zero]
    cases haccepts : accepts first.kind with
    | false =>
      rw [Rule.optional_of_none (by simp [Rule.token, haccepts])]
      exact .pure none
    | true =>
      rw [Rule.optional_of_some (by rw [Rule.token, if_pos haccepts])]
      exact (agrees_consume_zero first rest).map some

/-- What is done next depends on whether there is a token of an accepted kind. -/
theorem Agrees.token {accepts : TokenKind → Bool} {next : Option (List Token) → Scan α}
    {parsed : Parsed α} (hend : accepts .endOfText = false)
    (hnone : Rule.token accepts tokens = none → Agrees text depth (next none) tokens parsed)
    (hsome : ∀ found, Rule.token accepts tokens = some found →
      Agrees text depth (next (some found.value)) found.rest parsed) :
    Agrees text depth (Scan.token text.tokens accepts >>= next) tokens parsed := by
  refine (agrees_token hend tokens).bind_nil ?_
  cases hfound : Rule.token accepts tokens with
  | none =>
    rw [Rule.optional_of_none hfound]
    exact hnone hfound
  | some found =>
    rw [Rule.optional_of_some hfound]
    exact hsome found hfound

/-- A report that is made on a condition, and a value. -/
theorem agrees_reporting (condition : Bool) (fault : GrammarFault) (about : List Token) (value : α) :
    Agrees text depth (do reportWhen text.tokens condition fault about; return value) tokens
      ⟨value, tokens, reportIf condition fault about⟩ :=
  (agrees_reportWhen condition fault about).map fun _ => value

/-! ## Symbols -/

/-- A partial symbol agrees with its rule. -/
theorem agrees_partialSymbol (tokens : List Token) :
    Agrees text depth (partialSymbol text.tokens) tokens (Rule.partialSymbol.optional tokens) := by
  refine .sees ?_
  cases tokens with
  | nil => exact .pure none
  | cons first rest =>
    rw [kindAt_cons_zero]
    refine .ite (fun hletters => ?_) fun hletters => ?_
    · rw [Rule.optional_of_some (by rw [Rule.partialSymbol, if_pos (eq_of_beq hletters)])]
      exact (agrees_takeSymbol first rest).map some
    · rw [Rule.optional_of_none (by rw [Rule.partialSymbol, if_neg (mt beq_of_eq hletters)])]
      exact .pure none

/-- The rule for a delimiter and its part, with the delimiter read first as a scan does it. -/
theorem delimitedPart_eq (delimiter : TokenKind) (missing : GrammarFault) (part : Rule Node)
    (tokens : List Token) :
    Rule.delimitedPart delimiter missing part tokens
      = (Rule.token (· == delimiter) tokens).map fun mark =>
          match part mark.rest with
          | some next => ⟨[.single mark.value, next.value], next.rest, next.reports⟩
          | none => ⟨[.single mark.value], mark.rest, [⟨missing, mark.value⟩]⟩ := by
  cases tokens with
  | nil => rfl
  | cons first rest =>
    by_cases hkind : first.kind = delimiter
    · cases hpart : part rest <;> simp [Rule.delimitedPart, Rule.token, hkind, hpart]
    · simp [Rule.delimitedPart, Rule.token, hkind]

/-- A delimiter with its part agrees with its rule if the part does. -/
theorem agrees_delimitedPart {delimiter : TokenKind} (hend : (.endOfText == delimiter) = false)
    (missing : GrammarFault) {part : Scan (Option Node)} {rule : Rule Node}
    (hpart : ∀ tokens, Agrees text depth part tokens (rule.optional tokens)) (tokens : List Token) :
    Agrees text depth (delimitedPart text.tokens delimiter missing part) tokens
      ((Rule.delimitedPart delimiter missing rule).optional tokens) := by
  refine .token hend (fun hmark => ?_) fun mark hmark => ?_
  · rw [Rule.optional_of_none (by rw [delimitedPart_eq, hmark]; rfl)]
    exact .pure none
  · have hrule := delimitedPart_eq delimiter missing rule tokens
    rw [hmark, Option.map_some] at hrule
    refine (hpart mark.rest).bind_attempt (fun hread => ?_) fun next hread => ?_
    · rw [hread] at hrule
      rw [Rule.optional_of_some hrule]
      exact (agrees_report missing mark.value).bind (.pure _) rfl
    · rw [hread] at hrule
      rw [Rule.optional_of_some hrule]
      exact ⟨_, List.append_nil _, .pure _⟩

/-- Parts with delimiters agree with their rule if each part does. -/
theorem agrees_joined {delimiter : TokenKind} (hend : (.endOfText == delimiter) = false)
    (missing : GrammarFault) {part : Scan (Option Node)} {rule : Rule Node} (hrule : rule.Consumes)
    (hpart : ∀ tokens, Agrees text depth part tokens (rule.optional tokens)) (tokens : List Token) :
    Agrees text depth (joined text.tokens delimiter missing part) tokens
      ((Rule.joined delimiter missing rule).optional tokens) := by
  refine (hpart tokens).bind_attempt (fun hread => ?_) fun first hread => ?_
  · rw [Rule.optional_of_none (by rw [Rule.joined, hread]; rfl)]
    exact .pure none
  · rw [Rule.optional_of_some (by rw [Rule.joined, hread]; rfl)]
    have hothers := agrees_many (Rule.delimitedPart_consumes delimiter missing hrule)
      (agrees_delimitedPart hend missing hpart) first.rest
    exact ⟨_, rfl, hothers.map fun others => some (first.value :: others.flatten)⟩

/-- A compound symbol agrees with its rule. -/
theorem agrees_compoundSymbol (tokens : List Token) :
    Agrees text depth (compoundSymbol text.tokens) tokens (Rule.compoundSymbol.optional tokens) :=
  agrees_joined rfl _ (Rule.partialSymbol_consumes.map _)
    (fun tokens => (agrees_partialSymbol tokens).map_attempt Node.partialSymbol) tokens

/-- A namespaced symbol agrees with its rule, with the report if there is no slash. -/
theorem agrees_namespacedSymbol (tokens : List Token) :
    Agrees text depth (namespacedSymbol text.tokens) tokens
      (Rule.namespacedSymbol.optional tokens) := by
  have hsymbol : Agrees text depth _ tokens ((Rule.joined .slash .incompleteNamespacedSymbol
      (Rule.compoundSymbol.map .compoundSymbol)).optional tokens) :=
    agrees_joined rfl _ (Rule.compoundSymbol_consumes.map _)
      (fun tokens => (agrees_compoundSymbol tokens).map_attempt Node.compoundSymbol) tokens
  refine hsymbol.bind_attempt (fun hread => ?_) fun symbol hread => ?_
  · rw [Rule.optional_of_none (by rw [Rule.namespacedSymbol, hread]; rfl)]
    exact .pure none
  · rw [Rule.optional_of_some (by rw [Rule.namespacedSymbol, hread]; rfl)]
    exact ⟨_, rfl, agrees_reporting _ _ _ _⟩

/-- The rule for an interpolation, with the opening mark read first as a scan does it. -/
theorem interpolation_eq (tokens : List Token) :
    Rule.interpolation tokens
      = (Rule.token (· == .openReference) tokens).map fun opening =>
          let symbol := Rule.namespacedSymbol.optional opening.rest
          let closing := (Rule.token (· == .closeReference)).optional symbol.rest
          let whole : Interpolation := ⟨opening.value, symbol.value, closing.value⟩
          ⟨whole, closing.rest, symbol.reports
            ++ reportIf (!whole.isTerminated) .nonTerminatedInterpolation whole.tokens⟩ := by
  cases tokens with
  | nil => rfl
  | cons first rest =>
    by_cases hkind : first.kind = .openReference
    · simp [Rule.interpolation, Rule.token, hkind]
    · simp [Rule.interpolation, Rule.token, hkind]

/-- An interpolation agrees with its rule, with the report if a part is missing. -/
theorem agrees_interpolation (tokens : List Token) :
    Agrees text depth (interpolation text.tokens) tokens (Rule.interpolation.optional tokens) := by
  refine .token rfl (fun hopening => ?_) fun opening hopening => ?_
  · rw [Rule.optional_of_none (by rw [interpolation_eq, hopening]; rfl)]
    exact .pure none
  · rw [Rule.optional_of_some (by rw [interpolation_eq, hopening]; rfl)]
    exact (agrees_namespacedSymbol opening.rest).bind
      ((agrees_token rfl _).bind_nil (agrees_reporting _ _ _ _)) rfl

/-! ## Content and attributes -/

/-- A piece of content agrees with its rule, whatever tokens end the content. -/
theorem agrees_contentPiece (terminators tokens) :
    Agrees text depth (contentPiece text.tokens terminators) tokens
      ((Rule.contentPiece terminators).optional tokens) := by
  cases tokens with
  | nil =>
    refine .sees ?_
    rw [kindAt_nil, if_pos (by simp)]
    exact .pure none
  | cons first rest =>
    refine .of_cons fun hkind => .sees ?_
    rw [kindAt_cons_zero, beq_false_of_ne hkind, Bool.or_false]
    refine .ite (fun hends => ?_) fun hends => .sees ?_
    · rw [Rule.optional_of_none (by rw [Rule.contentPiece, if_pos (of_decide_eq_true hends)])]
      exact .pure none
    · have hrule : Rule.contentPiece terminators (first :: rest)
          = if first.kind = .openReference then
              Rule.interpolation.map .interpolation (first :: rest)
            else some ⟨.single [first], rest, []⟩ := by
        rw [Rule.contentPiece, if_neg (mt decide_eq_true hends)]
      rw [kindAt_cons_zero]
      refine .ite (fun hopening => ?_) fun hopening => ?_
      · rw [if_pos (eq_of_beq hopening)] at hrule
        rw [Rule.optional, hrule]
        exact (agrees_interpolation _).map_attempt Node.interpolation
      · rw [if_neg (mt beq_of_eq hopening)] at hrule
        rw [Rule.optional_of_some hrule]
        exact (agrees_consume_zero first rest).map fun taken => some (Node.single taken)

/-- Content agrees with its rule, whatever tokens end it. -/
theorem agrees_content (terminators tokens) :
    Agrees text depth (content text.tokens terminators) tokens
      ((Rule.content terminators).optional tokens) := by
  have hrule := Rule.contentPiece_consumes terminators
  have hpieces : Agrees text depth _ tokens ((Rule.contentPiece terminators).many tokens) :=
    agrees_many hrule (agrees_contentPiece terminators) tokens
  have hcontent := hpieces.map fun nodes => if nodes.isEmpty then none else some nodes
  cases hempty : ((Rule.contentPiece terminators).many tokens).value.isEmpty with
  | true =>
    rw [Rule.optional_of_none (by simp [Rule.content, hempty])]
    rw [Rule.many_of_nil hrule (List.isEmpty_iff.mp hempty)] at hcontent
    exact hcontent
  | false =>
    rw [Rule.optional_of_some (by rw [Rule.content, hempty]; rfl), Parsed.map]
    rwa [Parsed.map, hempty] at hcontent

/-- The value of an attribute agrees with its rule. -/
theorem agrees_attributeValue (attr : Attribute) (tokens : List Token) :
    Agrees text depth (attributeValue text.tokens attr) tokens
      (Grammar.attributeValue attr tokens) :=
  (agrees_content attributeValueEnds tokens).bind
    ((agrees_token rfl _).bind_nil (agrees_reporting _ _ _ _)) rfl

/-- What follows an equals sign agrees with its rule. -/
theorem agrees_quotedValue (attr : Attribute) (tokens : List Token) :
    Agrees text depth (quotedValue text.tokens attr) tokens (Grammar.quotedValue attr tokens) := by
  refine .token rfl (fun hquote => ?_) fun quote hquote => ?_
  · rw [Grammar.quotedValue, hquote]
    exact (agrees_report _ _).map fun _ => attr
  · rw [Grammar.quotedValue, hquote]
    exact agrees_attributeValue _ quote.rest

/-- What follows the name of an attribute agrees with its rule. -/
theorem agrees_attributeAssignment (attr : Attribute) (tokens : List Token) :
    Agrees text depth (attributeAssignment text.tokens attr) tokens
      (Grammar.attributeAssignment attr tokens) := by
  refine .token rfl (fun hsign => ?_) fun sign hsign => ?_
  · rw [Grammar.attributeAssignment, hsign]
    exact (agrees_report _ _).map fun _ => attr
  · rw [Grammar.attributeAssignment, hsign]
    exact agrees_quotedValue _ sign.rest

/-- An attribute agrees with its rule. -/
theorem agrees_namedAttribute (tokens : List Token) :
    Agrees text depth (namedAttribute text.tokens) tokens (Rule.attribute.optional tokens) := by
  refine (agrees_partialSymbol tokens).bind_attempt (fun hread => ?_) fun name hread => ?_
  · rw [Rule.optional_of_none (by rw [Rule.attribute, hread]; rfl)]
    exact .pure none
  · rw [Rule.optional_of_some (by rw [Rule.attribute, hread]; rfl), Rule.reports_partialSymbol hread]
    exact ⟨_, List.nil_append _, (agrees_attributeAssignment _ _).map some⟩

/-! ## Comments, trivia and closing tags -/

/-- A run of blanks agrees with its rule. -/
theorem agrees_blanks (tokens : List Token) :
    Agrees text depth (blanks text.tokens) tokens (Rule.blanks.optional tokens) := by
  refine .sees ?_
  cases tokens with
  | nil => exact .pure none
  | cons first rest =>
    rw [kindAt_cons_zero]
    refine .ite (fun hblank => ?_) fun hblank => ?_
    · have hrule : Rule.blanks (first :: rest)
          = some ⟨first :: rest.takeWhile Token.isBlank, rest.dropWhile Token.isBlank, []⟩ := by
        simp [Rule.blanks, skipBlanks, Token.isBlank, hblank]
      rw [Rule.optional_of_some hrule]
      exact (agrees_takeRun rfl (fun _ _ => rfl) first rest).map some
    · rw [Rule.optional_of_none (by simp [Rule.blanks, Token.isBlank, hblank])]
      exact .pure none

/-- Where blanks are optional, the tokens behind them are left without a report. -/
theorem optional_blanks (tokens : List Token) :
    Rule.blanks.optional tokens
      = ⟨(Rule.blanks.optional tokens).value, skipBlanks tokens, []⟩ := by
  cases hrun : (tokens.takeWhile Token.isBlank).isEmpty with
  | false => simp [Rule.optional, Rule.blanks, hrun, Parsed.map]
  | true =>
    have hsplit := List.takeWhile_append_dropWhile (p := Token.isBlank) (l := tokens)
    rw [List.isEmpty_iff.mp hrun, List.nil_append] at hsplit
    simp [Rule.optional, Rule.blanks, hrun, skipBlanks, hsplit]

/-- Blanks in front are left out. -/
theorem agrees_skipBlanks (tokens : List Token) :
    Agrees text depth (blanks text.tokens) tokens
      ⟨(Rule.blanks.optional tokens).value, skipBlanks tokens, []⟩ := by
  rw [← optional_blanks]
  exact agrees_blanks tokens

/-- The kind of the first token, for a kind that is not the end of the text. -/
theorem head?_kind_eq_iff {kind : TokenKind} (hkind : kind ≠ .endOfText) (tokens : List Token) :
    tokens.head?.map Token.kind = some kind ↔ kindAt tokens 0 = kind := by
  cases tokens with
  | nil => simp [hkind.symm]
  | cons first rest => simp

/-- The contents of a comment agree with their rule, up to the marks that end it or the end of
the text. -/
theorem agrees_commentContents (tokens : List Token) :
    Agrees text depth (commentContents text.tokens) tokens
      ⟨(Grammar.commentContents tokens).1, (Grammar.commentContents tokens).2, []⟩ := by
  apply Agrees.loop _ _ _ (fun others tokens ih => ?_) tokens
  cases tokens with
  | nil => exact .sees (.pure [])
  | cons first rest =>
    refine .of_cons fun hkind => .sees ?_
    rw [kindAt_cons_zero, beq_false_of_ne hkind, if_neg Bool.false_ne_true]
    have hends : (first.kind = .doubleHyphen ∧ rest.head?.map Token.kind = some .closeAngle)
        ↔ (first.kind == .doubleHyphen && kindAt rest 0 == .closeAngle) = true := by
      rw [head?_kind_eq_iff (by decide), Bool.and_eq_true_iff, beq_iff_eq, beq_iff_eq]
    refine .sees (.sees (.ite (fun hmarks => ?_) fun hmarks => ?_))
    · rw [Grammar.commentContents, if_pos (hends.mpr hmarks)]
      exact .pure []
    · rw [Grammar.commentContents, if_neg (mt hends.mp hmarks)]
      have hothers := ih rest (Nat.lt_succ_self _)
      exact (agrees_consume_zero first rest).bind_nil (hothers.map ([first] ++ ·))

/-- A comment agrees with its rule, with the report if it has no end. -/
theorem agrees_comment (tokens : List Token) :
    Agrees text depth (comment text.tokens) tokens (Rule.comment.optional tokens) := by
  refine .sees (.sees (.ite (fun hopening => ?_) fun hopening => ?_))
  · match tokens, hopening with
    | [_], hopening => exact absurd (Bool.and_eq_true_iff.mp hopening).2 Bool.false_ne_true
    | bang :: hyphens :: rest, hopening =>
      refine (agrees_consume_one bang hyphens rest).bind_nil
        ((agrees_commentContents rest).bind_nil (.sees ?_))
      have hrule : Rule.comment (bang :: hyphens :: rest) = _ := if_pos (by simpa using hopening)
      obtain hleft | ⟨closing, angle, left, hleft, hclosing, -⟩ := (commentContents_spec rest).2
      · simp only [hleft, List.isEmpty_nil, if_true] at hrule
        rw [Rule.optional_of_some hrule, hleft]
        exact (agrees_report _ _).map fun _ => some _
      · simp only [hleft, List.isEmpty_cons] at hrule
        rw [Rule.optional_of_some hrule, hleft, kindAt_cons_zero, hclosing]
        exact (agrees_consume_one closing angle left).map fun taken => some _
  · have hrule : Rule.comment tokens = none := by
      match tokens, hopening with
      | [], _ | [_], _ => rfl
      | bang :: hyphens :: rest, hopening =>
        rw [Rule.comment, if_neg (by simpa using hopening)]
    rw [Rule.optional_of_none hrule]
    exact .pure none

/-- A comment or a run of blanks agrees with its rule. -/
theorem agrees_trivium (tokens : List Token) :
    Agrees text depth (trivium text.tokens) tokens (Rule.trivium.optional tokens) := by
  refine (agrees_comment tokens).bind_attempt (fun hread => ?_) fun found hread => ?_
  · have hrule : Rule.trivium tokens = Rule.blanks.map .single tokens := by
      rw [Rule.trivium, Rule.orElse, Rule.map, hread, Option.map_none]
    rw [Rule.optional, hrule]
    exact (agrees_blanks tokens).map_attempt Node.single
  · have hrule : Rule.trivium tokens = some (found.map .comment) := by
      rw [Rule.trivium, Rule.orElse, Rule.map, hread, Option.map_some]
    rw [Rule.optional_of_some hrule]
    exact ⟨_, List.append_nil _, .pure _⟩

/-- Trivia agree with their rule, however many there are. -/
theorem agrees_trivia (tokens : List Token) :
    Agrees text depth (trivia text.tokens) tokens (Grammar.trivia tokens) :=
  agrees_many Rule.trivium_consumes agrees_trivium tokens

/-- The rule for a closing tag, with the opening mark read first as a scan does it. -/
theorem closingTag_eq (tokens : List Token) :
    Rule.closingTag tokens = (Rule.token (· == .openSlash) tokens).map fun opening =>
      closingTagName { opening := opening.value } opening.rest := by
  cases tokens with
  | nil => rfl
  | cons first rest =>
    by_cases hkind : first.kind = .openSlash
    · simp [Rule.closingTag, Rule.token, hkind]
    · simp [Rule.closingTag, Rule.token, hkind]

/-- A closing tag agrees with its rule, with the reports on what is missing. -/
theorem agrees_closingTag (tokens : List Token) :
    Agrees text depth (closingTag text.tokens) tokens (Rule.closingTag.optional tokens) := by
  refine .token rfl (fun hopening => ?_) fun opening hopening => ?_
  · rw [Rule.optional_of_none (by rw [closingTag_eq, hopening]; rfl)]
    exact .pure none
  have hrule := closingTag_eq tokens
  rw [hopening, Option.map_some, closingTagName] at hrule
  refine (agrees_skipBlanks _).bind_nil (.token rfl (fun hname => ?_) fun name hname => ?_)
  · rw [hname] at hrule
    rw [Rule.optional_of_some hrule]
    exact (agrees_report _ _).map fun _ => some _
  · rw [hname] at hrule
    rw [Rule.optional_of_some hrule]
    exact (agrees_skipBlanks _).bind_nil
      ((agrees_token rfl _).bind_nil (agrees_reporting _ _ _ _))

end Scan

end JobMarkup.Grammar
