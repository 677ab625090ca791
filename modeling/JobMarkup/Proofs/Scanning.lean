import JobMarkup.Grammar.Scanner
import JobMarkup.Proofs.Reading
import Mathlib.Data.List.Infix

/-!
# What a scan finds

A scanner that takes in no token beyond the first faces the tokens with which its text ends. A scan
agrees with what a rule has parsed from these tokens if, within any ample limit, it gives the same
value, faces the tokens that the rule has left, is at the depth at which it was, and has added the
reports.

Agreement is kept by one scan after another and by a choice on the kind of a token. A loop ends before
it reaches an ample limit since each round takes something: a run grows along the tokens that it faces,
and what is repeated consumes.
-/

namespace JobMarkup.Grammar

open JobMarkup.Tree

variable {α β : Type} {text : SourceText} {depth : Nat} {tokens : List Token}

/-- A scanner in front of the tokens with which a text ends, that takes in a number of them beyond
the first. -/
def Scanner.facing (text : SourceText) (tokens : List Token) (reach depth : Nat)
    (diagnostics : List Diagnostic) : Scanner :=
  ⟨⟨text.tokens.tokens.length - tokens.length, reach⟩, depth, diagnostics⟩

/-- The tokens that a scanner faces, and behind them the end of the text. -/
theorem toList_drop (h : tokens <:+ text.tokens.tokens) :
    text.tokens.toList.drop (text.tokens.tokens.length - tokens.length)
      = tokens ++ [text.endToken] := by
  obtain ⟨passed, hpassed⟩ := h
  rw [TokenStream.toList, ← hpassed, List.length_append, Nat.add_sub_cancel, List.append_assoc,
    List.drop_left]
  rfl

/-- A scanner looks ahead at the tokens that it faces; behind them is the end of the text. -/
theorem peek_facing (h : tokens <:+ text.tokens.tokens) (reach ahead depth : Nat)
    (diagnostics : List Diagnostic) :
    (Scanner.facing text tokens reach depth diagnostics).cursor.peek text.tokens.window ahead
      = tokens[reach + ahead]?.getD text.endToken := by
  have hget : text.tokens.toList[text.tokens.tokens.length - tokens.length + (reach + ahead)]?
      = (tokens ++ [text.endToken])[reach + ahead]? := by
    rw [← toList_drop h, List.getElem?_drop]
  simp only [Cursor.peek, Cursor.head, Scanner.facing, TokenStream.window, Nat.add_assoc, hget]
  rw [List.getElem?_append]
  split
  · rfl
  · next hle =>
    rw [List.getElem?_eq_none (Nat.le_of_not_lt hle)]
    cases reach + ahead - tokens.length with
    | zero => rfl
    | succ behind => rfl

/-- A scanner takes the tokens that it faces. -/
theorem consume_facing (h : tokens <:+ text.tokens.tokens) {reach count : Nat}
    (hlt : reach + count < tokens.length) (depth : Nat) (diagnostics : List Diagnostic) :
    (Scanner.facing text tokens reach depth diagnostics).cursor.consume text.tokens.window count
      = (tokens.take (reach + count + 1),
        (Scanner.facing text (tokens.drop (reach + count + 1)) 0 depth diagnostics).cursor) := by
  have hle := h.length_le
  have hfirst : text.tokens.tokens.length - tokens.length
      ≤ text.tokens.tokens.length - tokens.length + reach + count := by omega
  have hlast : text.tokens.tokens.length - tokens.length + reach + count < text.tokens.length := by
    rw [TokenStream.length]
    omega
  have hcount : text.tokens.tokens.length - tokens.length + reach + count
      - (text.tokens.tokens.length - tokens.length) + 1 = reach + count + 1 := by omega
  have hposition : text.tokens.tokens.length - tokens.length + reach + count + 1
      = text.tokens.tokens.length - (tokens.length - (reach + count + 1)) := by omega
  simp only [Cursor.consume, Cursor.head, Scanner.facing, text.tokens.build_window hfirst hlast,
    hcount, hposition, toList_drop h, List.length_drop]
  rw [List.take_append_of_le_length (by omega)]

/-- The kind of the token a number of places behind the first, where the end of the text is behind
the last. -/
def kindAt (tokens : List Token) (index : Nat) : TokenKind :=
  (tokens[index]?.map Token.kind).getD .endOfText

/-- Behind no tokens there is the end of the text. -/
@[simp] theorem kindAt_nil (index : Nat) : kindAt [] index = .endOfText := rfl

/-- The first token has its own kind. -/
@[simp] theorem kindAt_cons_zero (token : Token) (rest : List Token) :
    kindAt (token :: rest) 0 = token.kind := rfl

/-- Further tokens are found behind the first one. -/
@[simp] theorem kindAt_cons_succ (token : Token) (rest : List Token) (index : Nat) :
    kindAt (token :: rest) (index + 1) = kindAt rest index := rfl

/-- Behind some tokens that have been taken, kinds are found by counting on. -/
theorem kindAt_drop (tokens : List Token) (count index : Nat) :
    kindAt (tokens.drop count) index = kindAt tokens (count + index) := by
  rw [kindAt, List.getElem?_drop, kindAt]

/-- The kind that a scan sees is the one that its rule sees, also behind the end. -/
theorem kindAt_eq (tokens : List Token) (index : Nat) :
    (tokens[index]?.getD text.endToken).kind = kindAt tokens index := by
  rw [kindAt]
  cases tokens[index]? with
  | none => rfl
  | some token => rfl

/-- What a rule reads. Where it declines, the tokens left are given. -/
def Rule.attempt (rule : Rule α) (declined tokens : List Token) : Parsed (Option α) :=
  match rule tokens with
  | some parsed => parsed.map some
  | none => ⟨none, declined, []⟩

/-- Where a rule declines, an attempt leaves the given tokens. -/
theorem Rule.attempt_of_none {rule : Rule α} (declined : List Token) (h : rule tokens = none) :
    rule.attempt declined tokens = ⟨none, declined, []⟩ := by rw [Rule.attempt, h]

/-- Where a rule reads, an attempt leaves what it has left. -/
theorem Rule.attempt_of_some {rule : Rule α} {parsed : Parsed α} (declined : List Token)
    (h : rule tokens = some parsed) : rule.attempt declined tokens = parsed.map some := by
  rw [Rule.attempt, h]

/-- An attempt may be made before or after a value is changed. -/
theorem Rule.attempt_map (rule : Rule α) (f : α → β) (declined tokens : List Token) :
    (rule.map f).attempt declined tokens = (rule.attempt declined tokens).map (Option.map f) := by
  rw [Rule.attempt, Rule.attempt, Rule.map]
  cases rule tokens with
  | none => rfl
  | some parsed => rfl

/-- Where a rule declines, nothing is taken. -/
theorem Rule.optional_of_none {rule : Rule α} (h : rule tokens = none) :
    rule.optional tokens = ⟨none, tokens, []⟩ := Rule.attempt_of_none tokens h

/-- Where a rule reads, its value is there. -/
theorem Rule.optional_of_some {rule : Rule α} {parsed : Parsed α} (h : rule tokens = some parsed) :
    rule.optional tokens = parsed.map some := Rule.attempt_of_some tokens h

namespace Scan

/-- The limit is reached neither by a loop that takes a token in each round, nor by elements that hold
one another down to the greatest depth. -/
structure Ample (text : SourceText) (limit : Nat) : Prop where
  length_lt : text.tokens.tokens.length < limit
  maxDepth_lt : maxDepth < limit

/-- A greater limit is ample as well, so what is found within one is found within all that
follow. -/
theorem Ample.mono {limit more : Nat} (h : Ample text limit) (hle : limit ≤ more) :
    Ample text more :=
  ⟨h.length_lt.trans_le hle, h.maxDepth_lt.trans_le hle⟩

/-- There is an ample limit for every text. -/
theorem exists_ample (text : SourceText) : ∃ limit, Ample text limit :=
  ⟨max text.tokens.tokens.length maxDepth + 1, Nat.lt_succ_of_le (Nat.le_max_left _ _),
    Nat.lt_succ_of_le (Nat.le_max_right _ _)⟩

/-- In front of the tokens, and at the depth, the scan agrees with what has been parsed from them. -/
def Agrees (text : SourceText) (depth : Nat) (scan : Scan α) (tokens : List Token)
    (parsed : Parsed α) : Prop :=
  tokens <:+ text.tokens.tokens → parsed.rest <:+ tokens ∧
    ∀ limit, Ample text limit → ∀ diagnostics,
      scan limit (.facing text tokens 0 depth diagnostics)
        = some (parsed.value, .facing text parsed.rest 0 depth
            (diagnostics ++ parsed.reports.map (Reader.diagnose text.tokens)))

/-- A scan that agrees with a rule comes to an end with what the rule has parsed. -/
theorem Agrees.ends {scan : Scan α} {parsed : Parsed α}
    (h : Agrees text depth scan tokens parsed) (hsuffix : tokens <:+ text.tokens.tokens)
    (diagnostics : List Diagnostic) :
    scan.Ends (.facing text tokens 0 depth diagnostics) parsed.value
      (.facing text parsed.rest 0 depth
        (diagnostics ++ parsed.reports.map (Reader.diagnose text.tokens))) :=
  have ⟨bound, hbound⟩ := exists_ample text
  ⟨bound, fun limit hle => (h hsuffix).2 limit (hbound.mono hle) diagnostics⟩

/-- A sequence of scans goes on from the scanner that its first part leaves, within the same
limit. -/
theorem bind_apply (scan : Scan α) (next : α → Scan β) (limit : Nat) (scanner : Scanner) :
    (scan >>= next) limit scanner
      = (scan limit scanner).bind fun found => next found.1 limit found.2 := rfl

/-- A token that a scan faces is not the end of the text. -/
theorem Agrees.of_cons {first : Token} {rest : List Token} {scan : Scan α} {parsed : Parsed α}
    (h : first.kind ≠ .endOfText → Agrees text depth scan (first :: rest) parsed) :
    Agrees text depth scan (first :: rest) parsed := fun hsuffix =>
  h (text.kind_ne_endOfText (hsuffix.subset List.mem_cons_self)) hsuffix

/-- A value on its own agrees with a rule that reads nothing. -/
theorem Agrees.pure (value : α) : Agrees text depth (pure value) tokens ⟨value, tokens, []⟩ := by
  refine fun _ => ⟨List.suffix_refl tokens, fun limit _ diagnostics => ?_⟩
  rw [List.map_nil, List.append_nil]
  rfl

/-- Two scans one after another agree where each of them agrees and the reports add up. -/
theorem Agrees.bind {scan : Scan α} {next : α → Scan β} {first : Parsed α} {parsed : Parsed β}
    {reports : List Report} (hscan : Agrees text depth scan tokens first)
    (hnext : Agrees text depth (next first.value) first.rest ⟨parsed.value, parsed.rest, reports⟩)
    (hreports : first.reports ++ reports = parsed.reports) :
    Agrees text depth (scan >>= next) tokens parsed := by
  intro h
  obtain ⟨hfirst, hrun⟩ := hscan h
  obtain ⟨hsecond, hrunNext⟩ := hnext (hfirst.trans h)
  refine ⟨hsecond.trans hfirst, fun limit hlimit diagnostics => ?_⟩
  rw [bind_apply, hrun limit hlimit, Option.bind_some, hrunNext limit hlimit, List.append_assoc,
    ← List.map_append, hreports]

/-- A scan behind one that reports nothing. -/
theorem Agrees.bind_nil {scan : Scan α} {next : α → Scan β} {value : α} {rest : List Token}
    {second : Parsed β} (hscan : Agrees text depth scan tokens ⟨value, rest, []⟩)
    (hnext : Agrees text depth (next value) rest second) :
    Agrees text depth (scan >>= next) tokens second :=
  hscan.bind hnext rfl

/-- What a scan finds is changed. -/
theorem Agrees.map {scan : Scan α} {parsed : Parsed α} (h : Agrees text depth scan tokens parsed)
    (f : α → β) : Agrees text depth (return f (← scan)) tokens (parsed.map f) :=
  h.bind (.pure (f parsed.value)) (List.append_nil _)

/-- The value that a rule gives is changed. -/
theorem Agrees.map_attempt {scan : Scan (Option α)} {rule : Rule α} {declined : List Token}
    (h : Agrees text depth scan tokens (rule.attempt declined tokens)) (f : α → β) :
    Agrees text depth (return (← scan).map f) tokens ((rule.map f).attempt declined tokens) := by
  rw [Rule.attempt_map]
  exact h.map (Option.map f)

/-- What is scanned next depends on whether the rule declines. -/
theorem Agrees.bind_attempt {scan : Scan (Option α)} {next : Option α → Scan β} {rule : Rule α}
    {declined : List Token} {parsed : Parsed β}
    (hscan : Agrees text depth scan tokens (rule.attempt declined tokens))
    (hnone : rule tokens = none → Agrees text depth (next none) declined parsed)
    (hsome : ∀ first, rule tokens = some first → ∃ reports,
      first.reports ++ reports = parsed.reports
        ∧ Agrees text depth (next (some first.value)) first.rest
          ⟨parsed.value, parsed.rest, reports⟩) :
    Agrees text depth (scan >>= next) tokens parsed := by
  rw [Rule.attempt] at hscan
  cases hread : rule tokens with
  | none =>
    rw [hread] at hscan
    exact hscan.bind_nil (hnone hread)
  | some first =>
    rw [hread] at hscan
    obtain ⟨reports, hreports, hnext⟩ := hsome first hread
    exact hscan.bind hnext hreports

/-- A choice on a condition agrees where the branch that is taken agrees. -/
theorem Agrees.ite {condition : Prop} [Decidable condition] {yes no : Scan α} {parsed : Parsed α}
    (hyes : condition → Agrees text depth yes tokens parsed)
    (hno : ¬condition → Agrees text depth no tokens parsed) :
    Agrees text depth (if condition then yes else no) tokens parsed := by
  split
  · next h => exact hyes h
  · next h => exact hno h

/-- A loop agrees if it does so whenever it may go an ample number of rounds. -/
theorem Agrees.loop_of_ample {step : (β → Scan α) → β → Scan α} {start : β} {parsed : Parsed α}
    (h : ∀ times, Ample text times → Agrees text depth (again step times start) tokens parsed) :
    Agrees text depth (loop step start) tokens parsed := fun hsuffix =>
  have ⟨_, hlimit⟩ := exists_ample text
  ⟨(h _ hlimit hsuffix).1, fun limit hlimit => (h limit hlimit hsuffix).2 limit hlimit⟩

/-- A loop agrees, wherever it starts, if a round does so given that the rounds behind it do, which
face fewer tokens. -/
theorem Agrees.loop {ι : Type} {step : (β → Scan α) → β → Scan α} (start : ι → β)
    (faced : ι → List Token) (parsed : ι → Parsed α)
    (hround : ∀ (next : β → Scan α) (i : ι),
      (∀ j, (faced j).length < (faced i).length →
        Agrees text depth (next (start j)) (faced j) (parsed j)) →
      Agrees text depth (step next (start i)) (faced i) (parsed i)) (i : ι) :
    Agrees text depth (loop step (start i)) (faced i) (parsed i) := by
  refine fun hsuffix => loop_of_ample (fun times hample => ?_) hsuffix
  have htimes : (faced i).length < times := hsuffix.length_le.trans_lt hample.length_lt
  clear hample hsuffix
  induction times generalizing i with
  | zero => exact absurd htimes (Nat.not_lt_zero _)
  | succ times ih =>
    exact hround _ i fun j hlt => ih j (Nat.lt_of_lt_of_le hlt (Nat.le_of_lt_succ htimes))

/-- A look ahead sees the token that a rule would find there, or the end of the text. -/
theorem agrees_peek (ahead : Nat) :
    Agrees text depth (peek text.tokens ahead) tokens
      ⟨tokens[ahead]?.getD text.endToken, tokens, []⟩ := by
  refine fun h => ⟨List.suffix_refl tokens, fun limit _ diagnostics => ?_⟩
  have hpeek := peek_facing h 0 ahead depth diagnostics
  rw [Nat.zero_add] at hpeek
  rw [List.map_nil, List.append_nil, ← hpeek]
  rfl

/-- A scan sees the kind of a token beyond those that it takes in, and stays where it is. -/
theorem sees_facing (h : tokens <:+ text.tokens.tokens) (accepts : TokenKind → Bool)
    (reach ahead limit : Nat) (diagnostics : List Diagnostic) :
    sees text.tokens accepts ahead limit (.facing text tokens reach depth diagnostics)
      = some (accepts (kindAt tokens (reach + ahead)),
          .facing text tokens reach depth diagnostics) := by
  have hpeek := congrArg Token.kind (peek_facing h reach ahead depth diagnostics)
  rw [kindAt_eq] at hpeek
  rw [← hpeek]
  rfl

/-- A look at the kind of a token agrees with a rule that reads nothing. -/
theorem agrees_sees (accepts : TokenKind → Bool) (ahead : Nat) :
    Agrees text depth (sees text.tokens accepts ahead) tokens
      ⟨accepts (kindAt tokens ahead), tokens, []⟩ := by
  refine fun h => ⟨List.suffix_refl tokens, fun limit _ diagnostics => ?_⟩
  rw [sees_facing h, Nat.zero_add, List.map_nil, List.append_nil]

/-- What is done next depends on the kind of a token ahead. -/
theorem Agrees.sees {accepts : TokenKind → Bool} {ahead : Nat} {next : Bool → Scan α}
    {parsed : Parsed α}
    (h : Agrees text depth (next (accepts (kindAt tokens ahead))) tokens parsed) :
    Agrees text depth (Scan.sees text.tokens accepts ahead >>= next) tokens parsed :=
  (agrees_sees accepts ahead).bind_nil h

/-- Consuming moves the cursor and changes nothing else about the scanner. -/
theorem consume_apply (stream : TokenStream) (count limit : Nat) (scanner : Scanner) :
    consume stream count limit scanner
      = some ((scanner.cursor.consume stream.window count).1,
          { scanner with cursor := (scanner.cursor.consume stream.window count).2 }) := rfl

/-- Consuming agrees with a rule that takes as many tokens, if there are so many. -/
theorem agrees_consume {count : Nat} (hlt : count < tokens.length) :
    Agrees text depth (consume text.tokens count) tokens
      ⟨tokens.take (count + 1), tokens.drop (count + 1), []⟩ := by
  refine fun h => ⟨List.drop_suffix _ _, fun limit _ diagnostics => ?_⟩
  have hconsume := consume_facing h ((Nat.zero_add count).trans_lt hlt) depth diagnostics
  rw [Nat.zero_add] at hconsume
  rw [consume_apply, hconsume, List.map_nil, List.append_nil]
  rfl

/-- The first token is taken. -/
theorem agrees_consume_zero (first : Token) (rest : List Token) :
    Agrees text depth (consume text.tokens 0) (first :: rest) ⟨[first], rest, []⟩ :=
  agrees_consume (Nat.succ_pos _)

/-- The first two tokens are taken. -/
theorem agrees_consume_one (first second : Token) (rest : List Token) :
    Agrees text depth (consume text.tokens 1) (first :: second :: rest)
      ⟨[first, second], rest, []⟩ :=
  agrees_consume (Nat.succ_lt_succ (Nat.succ_pos _))

/-- A report is added as a rule reports it, and nothing is taken. -/
theorem agrees_report (fault : GrammarFault) (about : List Token) :
    Agrees text depth (report text.tokens fault about) tokens ⟨(), tokens, [⟨fault, about⟩]⟩ :=
  fun _ => ⟨List.suffix_refl tokens, fun _ _ _ => rfl⟩

/-- A report with a condition is added exactly if the condition holds. -/
theorem agrees_reportWhen (condition : Bool) (fault : GrammarFault) (about : List Token) :
    Agrees text depth (reportWhen text.tokens condition fault about) tokens
      ⟨(), tokens, reportIf condition fault about⟩ := by
  cases condition with
  | true => exact agrees_report fault about
  | false => exact .pure ()

/-! ## Loops -/

/-- What a loop does within a limit, it does whenever it may go more than a number of rounds. -/
theorem loop_apply_of_again {step : (β → Scan α) → β → Scan α} {start : β} {limit count : Nat}
    {scanner : Scanner} {result : Option (α × Scanner)} (hlimit : count < limit)
    (h : ∀ times, count < times → again step times start limit scanner = result) :
    loop step start limit scanner = result :=
  h limit hlimit

/-- A run of accepted tokens grows up to the first that is not accepted. -/
theorem growWhile_facing (h : tokens <:+ text.tokens.tokens) {accepts : TokenKind → Bool}
    {inside : Token → Bool} (hend : accepts .endOfText = false)
    (hinside : ∀ token : Token, token.kind ≠ .endOfText → accepts token.kind = inside token)
    (diagnostics : List Diagnostic) {reach limit : Nat} {left : List Token}
    (hleft : tokens.drop (reach + 1) = left) (hlimit : left.length < limit) :
    growWhile text.tokens accepts limit (.facing text tokens reach depth diagnostics)
      = some ((), .facing text tokens (reach + (left.takeWhile inside).length) depth
          diagnostics) := by
  refine loop_apply_of_again hlimit fun times htimes => ?_
  clear hlimit
  induction times generalizing reach left with
  | zero => exact absurd htimes (Nat.not_lt_zero _)
  | succ times ih =>
    have hkind : kindAt tokens (reach + 1) = kindAt left 0 := by rw [← hleft, kindAt_drop]
    rw [again, bind_apply, sees_facing h, Option.bind_some, hkind]
    cases left with
    | nil =>
      rw [kindAt_nil, hend]
      rfl
    | cons token left =>
      have hmem : token ∈ tokens := List.mem_of_mem_drop (hleft ▸ List.mem_cons_self)
      have haccepts := hinside token (text.kind_ne_endOfText (h.subset hmem))
      rw [kindAt_cons_zero, haccepts, List.takeWhile_cons]
      cases inside token with
      | false => rfl
      | true =>
        have hnext : tokens.drop (reach + 1 + 1) = left := by
          rw [← List.drop_drop, hleft, List.drop_one, List.tail_cons]
        have hrest := ih hnext (Nat.lt_of_succ_lt_succ htimes)
        rw [Nat.add_assoc, Nat.add_comm 1] at hrest
        exact hrest

/-- Whether a token continues a symbol is told by its kind and that of the token behind it. -/
theorem continuesSymbol_eq (token : Token) (rest : List Token) :
    continuesSymbol token rest = (token.kind.isAlphanumeric
      || token.kind == .hyphen && (kindAt rest 0).isAlphanumeric) := by
  cases rest with
  | nil => rfl
  | cons next rest => rfl

/-- The tail of a symbol is one token longer with a token that continues it. -/
theorem length_symbolTail_cons {token : Token} {rest : List Token}
    (h : continuesSymbol token rest = true) :
    (symbolTail (token :: rest)).1.length = (symbolTail rest).1.length + 1 := by
  rw [symbolTail, if_pos h, List.length_cons]

/-- A partial symbol grows up to the first token that does not continue it. -/
theorem growSymbol_facing (h : tokens <:+ text.tokens.tokens) (diagnostics : List Diagnostic)
    {reach limit : Nat} {left : List Token} (hleft : tokens.drop (reach + 1) = left)
    (hlimit : left.length < limit) :
    growSymbol text.tokens limit (.facing text tokens reach depth diagnostics)
      = some ((), .facing text tokens (reach + (symbolTail left).1.length) depth diagnostics) := by
  refine loop_apply_of_again hlimit fun times htimes => ?_
  clear hlimit
  induction times generalizing reach left with
  | zero => exact absurd htimes (Nat.not_lt_zero _)
  | succ times ih =>
    -- A hyphen is taken together with the token behind it, so a round may be over two tokens.
    have hkind (ahead : Nat) : kindAt tokens (reach + (ahead + 1)) = kindAt left ahead := by
      rw [← hleft, kindAt_drop, Nat.add_right_comm, Nat.add_assoc]
    have hdrop (count : Nat) : tokens.drop (reach + count + 1) = left.drop count := by
      rw [← hleft, List.drop_drop, Nat.add_right_comm]
    rw [again, bind_apply, sees_facing h, Option.bind_some, hkind]
    cases halphanumeric : (kindAt left 0).isAlphanumeric with
    | true =>
      cases left with
      | nil => cases halphanumeric
      | cons token rest =>
        have hcontinues : continuesSymbol token rest = true := by
          rw [continuesSymbol_eq, ← kindAt_cons_zero token rest, halphanumeric, Bool.true_or]
        rw [length_symbolTail_cons hcontinues, Nat.add_comm _ 1, ← Nat.add_assoc]
        exact ih (hdrop 1) (Nat.lt_of_succ_lt_succ htimes)
    | false =>
      rw [if_neg Bool.false_ne_true, bind_apply, sees_facing h, Option.bind_some, bind_apply,
        sees_facing h, Option.bind_some, hkind, hkind]
      cases left with
      | nil => rfl
      | cons token rest =>
        have hcontinues : continuesSymbol token rest
            = (token.kind == .hyphen && (kindAt rest 0).isAlphanumeric) := by
          rw [continuesSymbol_eq, ← kindAt_cons_zero token rest, halphanumeric, Bool.false_or]
        rw [kindAt_cons_zero, kindAt_cons_succ, ← hcontinues]
        cases hhyphen : continuesSymbol token rest with
        | false =>
          rw [symbolTail, hhyphen]
          rfl
        | true =>
          rw [hcontinues, Bool.and_eq_true_iff] at hhyphen
          cases rest with
          | nil => cases hhyphen.2
          | cons next rest =>
            have hnext : continuesSymbol next rest = true := by
              rw [continuesSymbol_eq, ← kindAt_cons_zero next rest, hhyphen.2, Bool.true_or]
            have hboth := hcontinues.trans (Bool.and_eq_true_iff.mpr hhyphen)
            rw [length_symbolTail_cons hboth, length_symbolTail_cons hnext, Nat.add_assoc,
              Nat.add_comm _ 2, ← Nat.add_assoc]
            exact ih (hdrop 2) (Nat.lt_of_succ_lt (Nat.lt_of_succ_lt_succ htimes))

/-- What a scan lets the cursor take in is taken. -/
theorem agrees_grown {grown : Scan Unit} {first : Token} {rest run left : List Token}
    (hrest : run ++ left = rest)
    (h : first :: rest <:+ text.tokens.tokens → ∀ limit, rest.length < limit → ∀ diagnostics,
      grown limit (.facing text (first :: rest) 0 depth diagnostics)
        = some ((), .facing text (first :: rest) run.length depth diagnostics)) :
    Agrees text depth (do grown; consume text.tokens 0) (first :: rest)
      ⟨first :: run, left, []⟩ := by
  subst hrest
  intro hsuffix
  refine ⟨(List.suffix_append run left).trans (List.suffix_cons first _),
    fun limit hlimit diagnostics => ?_⟩
  have hlt : run.length + 0 < (first :: (run ++ left)).length := by
    simp only [List.length_cons, List.length_append]
    omega
  have hconsume := consume_facing hsuffix hlt depth diagnostics
  have hrounds : (run ++ left).length < limit :=
    (Nat.lt_of_succ_le hsuffix.length_le).trans hlimit.length_lt
  rw [bind_apply, h hsuffix limit hrounds, Option.bind_some, consume_apply, hconsume]
  simp [Scanner.facing]

/-- A run is taken up to the first token that is not accepted, or to the end of the text. -/
theorem agrees_takeRun {accepts : TokenKind → Bool} {inside : Token → Bool}
    (hend : accepts .endOfText = false)
    (hinside : ∀ token : Token, token.kind ≠ .endOfText → accepts token.kind = inside token)
    (first : Token) (rest : List Token) :
    Agrees text depth (takeRun text.tokens accepts) (first :: rest)
      ⟨first :: rest.takeWhile inside, rest.dropWhile inside, []⟩ := by
  refine agrees_grown List.takeWhile_append_dropWhile fun hsuffix limit hlimit diagnostics => ?_
  rw [growWhile_facing hsuffix hend hinside diagnostics List.drop_one hlimit, Nat.zero_add,
    List.tail_cons]

/-- A partial symbol is taken up to where nothing continues it, as its rule reads it. -/
theorem agrees_takeSymbol (first : Token) (rest : List Token) :
    Agrees text depth (takeSymbol text.tokens) (first :: rest)
      ⟨first :: (symbolTail rest).1, (symbolTail rest).2, []⟩ := by
  refine agrees_grown (symbolTail_append rest) fun hsuffix limit hlimit diagnostics => ?_
  rw [growSymbol_facing hsuffix diagnostics List.drop_one hlimit, Nat.zero_add, List.tail_cons]

/-- Values are found one after another as a rule that consumes is used until it declines. Where it
declines, something may be left out. -/
theorem agrees_many_attempt {scan : Scan (Option α)} {rule : Rule α}
    {declined : List Token → List Token} (hrule : rule.Consumes)
    (h : ∀ tokens, Agrees text depth scan tokens (rule.attempt (declined tokens) tokens))
    (tokens : List Token) :
    Agrees text depth (many scan) tokens
      ⟨(rule.many tokens).value, declined (rule.many tokens).rest, (rule.many tokens).reports⟩ := by
  apply Agrees.loop _ _ _ (fun others tokens ih => ?_) tokens
  rw [Rule.many_eq hrule]
  refine (h tokens).bind_attempt (fun hfirst => ?_) fun first hfirst => ?_
  · rw [hfirst]
    exact .pure []
  · rw [hfirst]
    exact ⟨_, rfl, (ih first.rest (hrule tokens first hfirst).2).map (first.value :: ·)⟩

/-- A scan that is repeated agrees with its rule repeated, since each round consumes tokens. -/
theorem agrees_many {scan : Scan (Option α)} {rule : Rule α} (hrule : rule.Consumes)
    (h : ∀ tokens, Agrees text depth scan tokens (rule.optional tokens)) (tokens : List Token) :
    Agrees text depth (many scan) tokens (rule.many tokens) :=
  agrees_many_attempt hrule h tokens

end Scan

end JobMarkup.Grammar
