import JobMarkup.Problem

/-!
# Grammar rules

A rule reads from the front of a list of tokens. It declines, or it gives a value, the tokens it
has left, and what it has to report. Reports name the tokens that they are about, so a rule needs
to know nothing but the tokens in front of it.

A rule that consumes at least one token whenever it succeeds can be repeated until it declines;
`Rule.many_eq` is the equation of that loop.
-/

namespace JobMarkup.Grammar

/-- A fault and the tokens that it is about. -/
structure Report where
  fault : GrammarFault
  about : List Token
deriving DecidableEq

/-- One report if the condition holds, else none. It is inlined so that the tokens are listed only
where there is a report. -/
@[macro_inline]
def reportIf (condition : Bool) (fault : GrammarFault) (about : List Token) : List Report :=
  if condition then [⟨fault, about⟩] else []

/-- What a rule has read, the tokens it has left, and its reports in the order of discovery. -/
structure Parsed (α : Type) where
  value : α
  rest : List Token
  reports : List Report := []

/-- Change what has been read. -/
def Parsed.map {α β : Type} (f : α → β) (parsed : Parsed α) : Parsed β :=
  ⟨f parsed.value, parsed.rest, parsed.reports⟩

/-- A rule declines or reads something from the front of the tokens. -/
abbrev Rule (α : Type) := List Token → Option (Parsed α)

namespace Rule

variable {α β : Type}

/-- Change what a rule reads. -/
def map (f : α → β) (rule : Rule α) : Rule β := fun tokens => (rule tokens).map (Parsed.map f)

/-- Read nothing where the rule declines. -/
def optional (rule : Rule α) (tokens : List Token) : Parsed (Option α) :=
  match rule tokens with
  | some parsed => parsed.map some
  | none => ⟨none, tokens, []⟩

/-- Use the second rule where the first one declines. -/
def orElse (first second : Rule α) : Rule α := fun tokens =>
  match first tokens with
  | some parsed => some parsed
  | none => second tokens

/-- Use a rule until it declines, at most `bound` times. -/
def atMost (rule : Rule α) : (bound : Nat) → List Token → Parsed (List α)
  | 0, tokens => ⟨[], tokens, []⟩
  | bound + 1, tokens =>
    match rule tokens with
    | none => ⟨[], tokens, []⟩
    | some first =>
      let others := rule.atMost bound first.rest
      ⟨first.value :: others.value, others.rest, first.reports ++ others.reports⟩

/-- Use a rule until it declines. A rule that consumes is used at most once for each token. -/
def many (rule : Rule α) (tokens : List Token) : Parsed (List α) := rule.atMost tokens.length tokens

/-- Whatever the rule reads, it leaves a proper end of the tokens that it found. -/
def Consumes (rule : Rule α) : Prop :=
  ∀ tokens parsed, rule tokens = some parsed →
    parsed.rest <:+ tokens ∧ parsed.rest.length < tokens.length

/-- A rule consumes as much whatever is made of what it reads. -/
theorem Consumes.map {rule : Rule α} (h : rule.Consumes) (f : α → β) : (rule.map f).Consumes := by
  intro tokens parsed hparsed
  simp only [Rule.map, Option.map_eq_some_iff] at hparsed
  obtain ⟨read, hread, rfl⟩ := hparsed
  exact h tokens read hread

/-- A choice consumes tokens if both of its rules do. -/
theorem Consumes.orElse {first second : Rule α} (hfirst : first.Consumes)
    (hsecond : second.Consumes) : (first.orElse second).Consumes := by
  intro tokens parsed hparsed
  rw [Rule.orElse] at hparsed
  split at hparsed
  · next read hread => exact hfirst tokens parsed (hread.trans hparsed)
  · exact hsecond tokens parsed hparsed

/-- An optional part leaves an end of the tokens, which is all of them where the rule declines. -/
theorem Consumes.suffix_optional {rule : Rule α} (h : rule.Consumes) (tokens : List Token) :
    (rule.optional tokens).rest <:+ tokens := by
  rw [optional]
  split
  · next read hread => exact (h tokens read hread).1
  · exact List.suffix_refl tokens

/-- A bounded repetition leaves an end of the tokens. -/
theorem Consumes.suffix_atMost {rule : Rule α} (h : rule.Consumes) (bound : Nat)
    (tokens : List Token) : (rule.atMost bound tokens).rest <:+ tokens := by
  induction bound generalizing tokens with
  | zero => exact List.suffix_refl tokens
  | succ bound ih =>
    rw [atMost]
    split
    · exact List.suffix_refl tokens
    · next first hfirst => exact (ih first.rest).trans (h tokens first hfirst).1

/-- A repetition leaves an end of the tokens, which are all of them if the rule declines at once. -/
theorem Consumes.suffix_many {rule : Rule α} (h : rule.Consumes) (tokens : List Token) :
    (rule.many tokens).rest <:+ tokens :=
  h.suffix_atMost tokens.length tokens

/-- Two bounds that are both large enough for all tokens give the same. -/
theorem atMost_eq_atMost {rule : Rule α} (h : rule.Consumes) (n m : Nat) (tokens : List Token)
    (hn : tokens.length ≤ n) (hm : tokens.length ≤ m) :
    rule.atMost n tokens = rule.atMost m tokens := by
  have declines : rule [] = none := by
    cases hrule : rule [] with
    | none => rfl
    | some read => exact absurd (h [] read hrule).2 (Nat.not_lt_zero _)
  induction n generalizing m tokens with
  | zero =>
    have hnil : tokens = [] := List.length_eq_zero_iff.mp (Nat.le_zero.mp hn)
    subst hnil
    cases m <;> simp [atMost, declines]
  | succ n ih =>
    cases m with
    | zero =>
      have hnil : tokens = [] := List.length_eq_zero_iff.mp (Nat.le_zero.mp hm)
      subst hnil
      simp [atMost, declines]
    | succ m =>
      cases hrule : rule tokens with
      | none => simp [atMost, hrule]
      | some first =>
        have hlt := (h tokens first hrule).2
        simp [atMost, hrule, ih m first.rest (by omega) (by omega)]

/-- The loop that uses a consuming rule until it declines. -/
theorem many_eq {rule : Rule α} (h : rule.Consumes) (tokens : List Token) :
    rule.many tokens =
      match rule tokens with
      | none => ⟨[], tokens, []⟩
      | some first =>
        let others := rule.many first.rest
        ⟨first.value :: others.value, others.rest, first.reports ++ others.reports⟩ := by
  rw [many, atMost_eq_atMost h _ _ tokens (Nat.le_refl _) (Nat.le_succ tokens.length), atMost]
  cases hrule : rule tokens with
  | none => rfl
  | some first =>
    have hle := Nat.le_of_lt (h tokens first hrule).2
    simp [many, atMost_eq_atMost h _ _ first.rest hle (Nat.le_refl _)]

/-- A repetition that has read something has taken at least one token. -/
theorem Consumes.length_rest_many {rule : Rule α} (h : rule.Consumes) {tokens : List Token}
    (hvalue : (rule.many tokens).value ≠ []) :
    (rule.many tokens).rest.length < tokens.length := by
  rw [many_eq h] at hvalue ⊢
  cases hfirst : rule tokens with
  | none => simp [hfirst] at hvalue
  | some first =>
    exact Nat.lt_of_le_of_lt (h.suffix_many first.rest).length_le (h tokens first hfirst).2

end Rule

/-- The tokens behind the blanks and line feeds in front. -/
def skipBlanks (tokens : List Token) : List Token := tokens.dropWhile Token.isBlank

/-- One token of an accepted kind. -/
def Rule.token (accepts : TokenKind → Bool) : Rule (List Token)
  | [] => none
  | first :: rest => if accepts first.kind then some ⟨[first], rest, []⟩ else none

/-- A run of blanks and line feeds. -/
def Rule.blanks : Rule (List Token) := fun tokens =>
  let run := tokens.takeWhile Token.isBlank
  if run.isEmpty then none else some ⟨run, skipBlanks tokens, []⟩

/-- Behind the blanks there is an end of the tokens. -/
theorem skipBlanks_suffix (tokens : List Token) : skipBlanks tokens <:+ tokens :=
  List.dropWhile_suffix _

/-- A single token is consumed, whatever kinds are accepted. -/
theorem Rule.token_consumes (accepts : TokenKind → Bool) : (Rule.token accepts).Consumes := by
  intro tokens parsed h
  cases tokens with
  | nil => simp [Rule.token] at h
  | cons first rest =>
    simp only [Rule.token, Option.ite_none_right_eq_some, Option.some.injEq] at h
    obtain ⟨-, rfl⟩ := h
    exact ⟨List.suffix_cons first rest, Nat.lt_succ_self _⟩

/-- A run of blanks is consumed, since a run that is empty is declined. -/
theorem Rule.blanks_consumes : Rule.blanks.Consumes := by
  intro tokens parsed h
  simp only [Rule.blanks, Option.ite_none_left_eq_some, Option.some.injEq] at h
  obtain ⟨hrun, rfl⟩ := h
  refine ⟨skipBlanks_suffix tokens, ?_⟩
  have hlength := congrArg List.length (List.takeWhile_append_dropWhile (p := Token.isBlank)
    (l := tokens))
  rw [List.length_append] at hlength
  have hpos := List.length_pos_iff.mpr (mt List.isEmpty_iff.mpr hrun)
  simp only [skipBlanks]
  omega

end JobMarkup.Grammar
