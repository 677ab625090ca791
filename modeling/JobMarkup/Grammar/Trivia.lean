import JobMarkup.Grammar.Rule
import JobMarkup.Tree.Tokens

/-!
# Rules for comments, trivia and closing tags

A comment ends at the first `--` that `>` follows. Trivia are comments and runs of blanks in any
order. A closing tag may hold blanks around its name.
-/

namespace JobMarkup.Grammar

open JobMarkup.Tree

/-- Cut in front of the marks that end a comment, or at the end of the tokens. -/
def commentContents : List Token → List Token × List Token
  | [] => ([], [])
  | token :: rest =>
    if token.kind = .doubleHyphen ∧ rest.head?.map Token.kind = some .closeAngle then
      ([], token :: rest)
    else
      let (contents, left) := commentContents rest
      (token :: contents, left)

/-- The contents of a comment and the marks that end it are all tokens that have not been read. -/
theorem commentContents_append (tokens : List Token) :
    (commentContents tokens).1 ++ (commentContents tokens).2 = tokens := by
  induction tokens with
  | nil => rfl
  | cons token rest ih =>
    rw [commentContents]
    split
    · rfl
    · simp [ih]

/-- A comment. -/
def Rule.comment : Rule Comment
  | bang :: hyphens :: rest =>
    if bang.kind = .openBang ∧ hyphens.kind = .doubleHyphen then
      let (contents, left) := commentContents rest
      if left.isEmpty then
        let whole : Comment := { opening := [bang, hyphens], contents }
        some ⟨whole, [], [⟨.nonTerminatedComment, whole.tokens⟩]⟩
      else
        some ⟨{ opening := [bang, hyphens], contents, closing := some (left.take 2) },
          left.drop 2, []⟩
    else none
  | _ => none

/-- A comment consumes at least the two tokens that open it. -/
theorem Rule.comment_consumes : Rule.comment.Consumes := by
  intro tokens parsed h
  match tokens, h with
  | bang :: hyphens :: rest, h =>
    have hbehind : (commentContents rest).2 <:+ rest := ⟨_, commentContents_append rest⟩
    have hsuffix : parsed.rest <:+ rest := by
      simp only [Rule.comment, Option.ite_none_right_eq_some] at h
      obtain ⟨-, h⟩ := h
      split at h
      · obtain rfl := Option.some.inj h
        exact List.nil_suffix
      · obtain rfl := Option.some.inj h
        exact (List.drop_suffix 2 _).trans hbehind
    exact ⟨hsuffix.trans ((List.suffix_cons hyphens rest).trans (List.suffix_cons bang _)),
      Nat.lt_succ_of_le (Nat.le_succ_of_le hsuffix.length_le)⟩

/-- A comment or a run of blanks. -/
def Rule.trivium : Rule Node := (Rule.comment.map .comment).orElse (Rule.blanks.map .single)

/-- A comment or a run of blanks is consumed, so trivia can be repeated. -/
theorem Rule.trivium_consumes : Rule.trivium.Consumes :=
  (Rule.comment_consumes.map Node.comment).orElse (Rule.blanks_consumes.map Node.single)

/-- Comments and runs of blanks. -/
def trivia : List Token → Parsed (List Node) := Rule.trivium.many

/-- Trivia leave an end of the tokens, which is all of them where there are none. -/
theorem trivia_suffix (tokens : List Token) : (trivia tokens).rest <:+ tokens :=
  Rule.trivium_consumes.suffix_many tokens

/-- The end of a closing tag whose name has been read. -/
def closingTagEnd (tag : ClosingTag) (tokens : List Token) : Parsed ClosingTag :=
  let closing := (Rule.token (· == .closeAngle)).optional (skipBlanks tokens)
  ⟨{ tag with closing := closing.value }, closing.rest,
    reportIf closing.value.isNone .incompleteClosingTag tag.tokens⟩

/-- The name and the end of a closing tag whose opening mark has been read. -/
def closingTagName (tag : ClosingTag) (tokens : List Token) : Parsed ClosingTag :=
  match Rule.token (· == .letters) (skipBlanks tokens) with
  | none => ⟨tag, skipBlanks tokens, [⟨.incompleteClosingTag, tag.tokens⟩]⟩
  | some name => closingTagEnd { tag with name := some name.value } name.rest

/-- A closing tag. -/
def Rule.closingTag : Rule ClosingTag
  | [] => none
  | token :: rest =>
    if token.kind = .openSlash then some (closingTagName { opening := [token] } rest) else none

/-- The end of a closing tag leaves an end of the tokens, also where it is missing. -/
theorem closingTagEnd_suffix (tag : ClosingTag) (tokens : List Token) :
    (closingTagEnd tag tokens).rest <:+ tokens :=
  ((Rule.token_consumes _).suffix_optional _).trans (skipBlanks_suffix tokens)

/-- The name and the end of a closing tag leave an end of the tokens. -/
theorem closingTagName_suffix (tag : ClosingTag) (tokens : List Token) :
    (closingTagName tag tokens).rest <:+ tokens := by
  have hblanks := skipBlanks_suffix tokens
  rw [closingTagName]
  split
  · exact hblanks
  · next name hname =>
    have hread := (Rule.token_consumes _ _ name hname).1
    exact (closingTagEnd_suffix _ _).trans (hread.trans hblanks)

/-- A closing tag consumes at least its opening mark. -/
theorem Rule.closingTag_consumes : Rule.closingTag.Consumes := by
  intro tokens parsed h
  cases tokens with
  | nil => simp [Rule.closingTag] at h
  | cons token rest =>
    simp only [Rule.closingTag, Option.ite_none_right_eq_some, Option.some.injEq] at h
    obtain ⟨-, rfl⟩ := h
    have hsuffix := closingTagName_suffix { opening := [token] } rest
    exact ⟨hsuffix.trans (List.suffix_cons token rest), Nat.lt_succ_of_le hsuffix.length_le⟩

end JobMarkup.Grammar
