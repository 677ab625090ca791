import JobMarkup.Proofs.Progress
import JobMarkup.Proofs.SymbolTexts
import JobMarkup.Proofs.SymbolWords

/-!
# The grammar of symbols and their reports

A symbol is read without a report exactly if its tokens are a word for symbols, and of such a word that
nothing goes on with all tokens are read. Whatever is read of a symbol, the reports about it can be told
from its tokens: one about each delimiter that no letters follow, and one about the whole if there is no
slash in it.
-/

namespace JobMarkup.Grammar

open JobMarkup.Tree

/-! ## Reports -/

/-- What is reported about a delimiter that no part follows. -/
def delimiterFault? : TokenKind → Option GrammarFault
  | .period => some .incompleteCompoundSymbol
  | .slash => some .incompleteNamespacedSymbol
  | _ => none

/-- The reports about the delimiters that no letters follow, one about each of them. -/
def danglingReports : List Token → List Report
  | [] => []
  | token :: rest =>
    if rest.head?.any (·.kind == .letters) then danglingReports rest
    else (delimiterFault? token.kind).toList.map (⟨·, [token]⟩) ++ danglingReports rest

/-- The reports about a symbol that has been read: those about its delimiters, and one about the
whole if there is no slash in it. -/
def symbolReports (tokens : List Token) : List Report :=
  danglingReports tokens ++ reportIf (tokens.all (·.kind != .slash)) .missingNamespace tokens

/-- The first of the tokens is a run of letters. -/
def StartsWithLetters (tokens : List Token) : Prop := tokens.head?.map Token.kind = some .letters

/-- Tokens among which there is no delimiter have no dangling one. -/
theorem danglingReports_of_forall {tokens : List Token}
    (h : ∀ token ∈ tokens, delimiterFault? token.kind = none) : danglingReports tokens = [] := by
  induction tokens with
  | nil => rfl
  | cons token rest ih =>
    obtain ⟨htoken, hrest⟩ := List.forall_mem_cons.mp h
    simp [danglingReports, htoken, ih hrest]

/-- What is reported about delimiters depends on what follows only if letters do. -/
theorem danglingReports_append (first : List Token) {rest : List Token}
    (hrest : Follows (· ≠ .letters) rest) :
    danglingReports (first ++ rest) = danglingReports first ++ danglingReports rest := by
  induction first with
  | nil => rfl
  | cons token others ih =>
    cases others with
    | nil =>
      have hnone : rest.head?.any (·.kind == .letters) = false := by
        cases rest with
        | nil => rfl
        | cons next rest => simpa using hrest
      simp [danglingReports, hnone]
    | cons next others =>
      rw [List.cons_append, danglingReports, ih, danglingReports.eq_2 token]
      by_cases hnext : next.kind = .letters <;> simp [hnext]

/-- A token in front of letters does not dangle, even if it is a delimiter. -/
theorem StartsWithLetters.danglingReports_cons {tokens : List Token} (h : StartsWithLetters tokens)
    (token : Token) : danglingReports (token :: tokens) = danglingReports tokens := by
  obtain ⟨first, hfirst, hkind⟩ := Option.map_eq_some_iff.mp h
  simp [danglingReports, hfirst, hkind]

/-- The node of a partial symbol starts with letters. -/
theorem IsPartialNode.startsWithLetters {node : Node} (h : IsPartialNode node) :
    StartsWithLetters node.tokens := by
  obtain ⟨tokens, rfl, htokens⟩ := h
  cases tokens with
  | nil => exact absurd htokens id
  | cons token tail => simp [StartsWithLetters, htokens.1]

/-- The node of a compound symbol starts with the letters of its first part. -/
theorem HasCompoundShape.startsWithLetters {node : Node} (h : HasCompoundShape node) :
    StartsWithLetters node.tokens := by
  obtain ⟨_, rfl, first, rest, rfl, hfirst, -⟩ := h
  obtain ⟨token, htoken, hkind⟩ := Option.map_eq_some_iff.mp hfirst.startsWithLetters
  simp [StartsWithLetters, htoken, hkind]

/-- A symbol of a single part has no slash in it. -/
theorem HasSymbolShape.length_eq_one {nodes : List Node} (h : HasSymbolShape nodes) :
    (nodes.length == 1) = (nodeTokens nodes).all (·.kind != .slash) := by
  obtain ⟨first, rest, rfl, hfirst, hrest⟩ := h
  cases hrest with
  | nil =>
    refine (List.all_eq_true.mpr fun token hmem => ?_).symm
    have hkind := hfirst.kind_mem token (by simpa using hmem)
    exact bne_iff_ne.mpr fun hslash => absurd hkind (by simp [hslash, compoundKinds])
  | missing hkind _ => simp [hkind]
  | part hkind _ _ => simp [hkind]

namespace Rule

variable {α β : Type}

/-- What the rule reports is what is reported about the delimiters in the tokens that it takes. -/
def ReportsDangling (rule : Rule α) (tokensOf : α → List Token) : Prop :=
  ∀ tokens parsed, rule tokens = some parsed →
    parsed.reports = danglingReports (tokensOf parsed.value)

/-- What is made of its value does not change what a rule reports about its tokens. -/
theorem ReportsDangling.map {rule : Rule α} {tokensOf : α → List Token}
    {tokensOf' : β → List Token} (h : rule.ReportsDangling tokensOf) (f : α → β)
    (hf : ∀ value, tokensOf' (f value) = tokensOf value) :
    (rule.map f).ReportsDangling tokensOf' := by
  intro tokens parsed hparsed
  simp only [Rule.map, Option.map_eq_some_iff] at hparsed
  obtain ⟨read, hread, rfl⟩ := hparsed
  exact (h tokens read hread).trans (congrArg danglingReports (hf read.value)).symm

/-- What a repetition reports, if its rule takes no letters first. -/
theorem ReportsDangling.many {rule : Rule (List Node)} (h : rule.ReportsDangling nodeTokens)
    (hstarts : rule.Yields fun nodes => Follows (· ≠ .letters) (nodeTokens nodes))
    (tokens : List Token) :
    Follows (· ≠ .letters) (nodeTokens (rule.many tokens).value.flatten)
      ∧ (rule.many tokens).reports
        = danglingReports (nodeTokens (rule.many tokens).value.flatten) := by
  rw [Rule.many]
  generalize tokens.length = bound
  induction bound generalizing tokens with
  | zero => exact ⟨follows_nil, rfl⟩
  | succ bound ih =>
    rw [atMost]
    split
    · exact ⟨follows_nil, rfl⟩
    · next first hfirst =>
      obtain ⟨hothers, hreports⟩ := ih first.rest
      have hvalue := hstarts tokens first hfirst
      simp only [List.flatten_cons, nodeTokens_append]
      refine ⟨hvalue.append hothers, ?_⟩
      rw [danglingReports_append _ hothers, h tokens first hfirst, hreports]

/-- A partial symbol reports nothing, and there is no delimiter among its tokens. -/
theorem partialSymbol_reportsDangling : partialSymbol.ReportsDangling id := by
  intro tokens parsed h
  rw [reports_partialSymbol h]
  refine (danglingReports_of_forall fun token hmem => ?_).symm
  have hkind := kind_mem_of_isPartialSymbol (partialSymbol_yields tokens parsed h) token hmem
  simp only [List.mem_cons, List.not_mem_nil, or_false] at hkind
  rcases hkind with hkind | hkind | hkind <;> rw [hkind] <;> rfl

variable {delimiter : TokenKind} {missing : GrammarFault} {part : Rule Node} {isPart : Node → Prop}

/-- A delimiter is reported if its part is missing, which is where no letters follow it. -/
theorem delimitedPart_reportsDangling (hfault : delimiterFault? delimiter = some missing)
    (hpart : part.ReportsDangling Node.tokens)
    (hletters : part.Yields fun node => StartsWithLetters node.tokens) :
    (delimitedPart delimiter missing part).ReportsDangling nodeTokens := by
  intro tokens parsed h
  obtain ⟨token, rest, rfl, hkind, ⟨next, hnext, rfl⟩ | ⟨-, rfl⟩⟩ := delimitedPart_eq_some h
  · simp [(hletters rest next hnext).danglingReports_cons, hpart rest next hnext]
  · simp [danglingReports, hkind, hfault]

/-- A delimiter with its part does not start with letters, so what stands in front of it is not
continued by letters. -/
theorem delimitedPart_follows (hdelimiter : delimiter ≠ .letters) :
    (delimitedPart delimiter missing part).Yields fun nodes =>
      Follows (· ≠ .letters) (nodeTokens nodes) := by
  intro tokens parsed h
  obtain ⟨token, rest, rfl, hkind, ⟨next, -, rfl⟩ | ⟨-, rfl⟩⟩ := delimitedPart_eq_some h
  · simpa [hkind] using hdelimiter
  · simpa [hkind] using hdelimiter

/-- Joined parts report the delimiters among their tokens that no letters follow, and
nothing else. -/
theorem joined_reportsDangling (hfault : delimiterFault? delimiter = some missing)
    (hpart : part.ReportsDangling Node.tokens)
    (hletters : part.Yields fun node => StartsWithLetters node.tokens) :
    (joined delimiter missing part).ReportsDangling nodeTokens := by
  have hdelimiter : delimiter ≠ .letters := by
    rintro rfl
    simp [delimiterFault?] at hfault
  intro tokens parsed h
  simp only [joined, Option.map_eq_some_iff] at h
  obtain ⟨first, hfirst, rfl⟩ := h
  obtain ⟨hstarts, hothers⟩ := (delimitedPart_reportsDangling hfault hpart hletters).many
    (delimitedPart_follows hdelimiter) first.rest
  rw [nodeTokens_cons, danglingReports_append _ hstarts, hpart tokens first hfirst, hothers]

/-- A compound symbol reports its periods that no letters follow. -/
theorem compoundSymbol_reportsDangling : compoundSymbol.ReportsDangling nodeTokens :=
  joined_reportsDangling rfl
    (partialSymbol_reportsDangling.map Node.partialSymbol Node.tokens_partialSymbol)
    (partialSymbol_yields.map Node.partialSymbol fun tokens h =>
      IsPartialNode.startsWithLetters ⟨tokens, rfl, h⟩)

/-- The reports about a symbol can be told from its tokens. -/
theorem reports_namespacedSymbol {tokens : List Token} {parsed : Parsed (List Node)}
    (h : namespacedSymbol tokens = some parsed) :
    parsed.reports = symbolReports (nodeTokens parsed.value) := by
  have hshape : HasSymbolShape parsed.value := namespacedSymbol_yields tokens parsed h
  simp only [namespacedSymbol, Option.map_eq_some_iff] at h
  obtain ⟨symbol, hsymbol, rfl⟩ := h
  have hparts := joined_reportsDangling rfl
    (compoundSymbol_reportsDangling.map Node.compoundSymbol Node.tokens_compoundSymbol)
    (compoundSymbol_yields.map Node.compoundSymbol fun nodes h =>
      HasCompoundShape.startsWithLetters ⟨nodes, rfl, h⟩) tokens symbol hsymbol
  rw [symbolReports, ← hshape.length_eq_one, ← hparts]

/-- A symbol is read without a report if its tokens are a word for symbols. -/
theorem symbolReports_eq_nil_iff {tokens : List Token} {parsed : Parsed (List Node)}
    (h : namespacedSymbol tokens = some parsed) :
    symbolReports (nodeTokens parsed.value) = [] ↔ Spells symbolWord (nodeTokens parsed.value) := by
  constructor
  · intro hreports
    rw [← reports_namespacedSymbol h] at hreports
    exact (exists_isNamespacedSymbol_iff _).mp
      ⟨parsed.value, namespacedSymbol_sound tokens parsed h hreports, rfl⟩
  · intro hword
    -- the same tokens are read alone, and the reports depend on nothing but them
    obtain ⟨nodes, hnodes, htokens⟩ := (exists_isNamespacedSymbol_iff _).mpr hword
    have hends : EndsSymbol [] := ⟨⟨trivial, follows_nil⟩, follows_nil⟩
    have halone := namespacedSymbol_complete nodes hnodes [] hends
    rw [← htokens]
    exact (reports_namespacedSymbol halone).symm

end Rule

/-! ## What ends a symbol -/

/-- Behind the tail of a partial symbol, nothing continues it. -/
theorem endsPartial_symbolTail (tokens : List Token) : EndsPartial (symbolTail tokens).2 := by
  induction tokens with
  | nil => exact trivial
  | cons token rest ih =>
    rw [symbolTail]
    split
    · exact ih
    · next h => exact Bool.eq_false_of_not_eq_true h

/-- No letters follow where a partial symbol ends. -/
theorem EndsPartial.follows {tokens : List Token} (h : EndsPartial tokens) :
    Follows (· ≠ .letters) tokens := by
  cases tokens with
  | nil => exact follows_nil
  | cons token rest =>
    refine follows_cons.mpr fun hkind => ?_
    have hends : continuesSymbol token rest = false := h
    simp [continuesSymbol, hkind, TokenKind.isAlphanumeric] at hends

namespace Rule

variable {α β : Type}

/-- The rule declines exactly where there are no letters, and leaves none in front of what follows. -/
structure TakesLetters (rule : Rule α) : Prop where
  eq_none_iff : ∀ tokens, rule tokens = none ↔ Follows (· ≠ .letters) tokens
  follows : ∀ tokens parsed, rule tokens = some parsed → Follows (· ≠ .letters) parsed.rest

/-- What is made of its value does not change where a rule declines and stops. -/
theorem TakesLetters.map {rule : Rule α} (h : rule.TakesLetters) (f : α → β) :
    (rule.map f).TakesLetters := by
  refine ⟨fun tokens => ?_, fun tokens parsed hparsed => ?_⟩
  · rw [Rule.map, Option.map_eq_none_iff, h.eq_none_iff]
  · simp only [Rule.map, Option.map_eq_some_iff] at hparsed
    obtain ⟨read, hread, rfl⟩ := hparsed
    exact h.follows tokens read hread

/-- A partial symbol is declined exactly where there are no letters, and it leaves none
behind it. -/
theorem partialSymbol_takesLetters : partialSymbol.TakesLetters := by
  refine ⟨fun tokens => ?_, fun tokens parsed h => ?_⟩
  · cases tokens with
    | nil => simp [partialSymbol, follows_nil]
    | cons token rest => simp [partialSymbol]
  · obtain ⟨token, rest, rfl, -, rfl⟩ := partialSymbol_eq_some h
    exact (endsPartial_symbolTail rest).follows

variable {delimiter : TokenKind} {missing : GrammarFault} {part : Rule Node}

/-- Behind a delimiter and its part there are no letters, also if the part is missing. -/
theorem TakesLetters.follows_delimitedPart (h : part.TakesLetters) {tokens : List Token}
    {parsed : Parsed (List Node)}
    (hparsed : delimitedPart delimiter missing part tokens = some parsed) :
    Follows (· ≠ .letters) parsed.rest := by
  obtain ⟨token, rest, rfl, -, ⟨next, hnext, rfl⟩ | ⟨hnone, rfl⟩⟩ := delimitedPart_eq_some hparsed
  · exact h.follows rest next hnext
  · exact (h.eq_none_iff rest).mp hnone

/-- What follows every single reading of a rule follows a repetition of it. -/
theorem follows_many {rule : Rule α} {property : TokenKind → Prop}
    (h : ∀ tokens parsed, rule tokens = some parsed → Follows property parsed.rest)
    {tokens : List Token} (htokens : Follows property tokens) :
    Follows property (rule.many tokens).rest := by
  rw [Rule.many]
  generalize tokens.length = bound
  induction bound generalizing tokens with
  | zero => exact htokens
  | succ bound ih =>
    rw [atMost]
    split
    · exact htokens
    · next first hfirst => exact ih (h tokens first hfirst)

/-- Joined parts are declined exactly where their first part is, and leave no letters
behind them. -/
theorem TakesLetters.joined (h : part.TakesLetters) :
    (joined delimiter missing part).TakesLetters := by
  refine ⟨fun tokens => ?_, fun tokens parsed hparsed => ?_⟩
  · rw [Rule.joined, Option.map_eq_none_iff, h.eq_none_iff]
  · simp only [Rule.joined, Option.map_eq_some_iff] at hparsed
    obtain ⟨first, hfirst, rfl⟩ := hparsed
    exact follows_many (fun _ _ => h.follows_delimitedPart) (h.follows tokens first hfirst)

/-- A namespaced symbol is declined exactly where there are no letters, and it leaves none
behind it. -/
theorem namespacedSymbol_takesLetters : namespacedSymbol.TakesLetters := by
  have hcompound : compoundSymbol.TakesLetters :=
    (partialSymbol_takesLetters.map Node.partialSymbol).joined
  obtain ⟨hnone, hfollows⟩ := @TakesLetters.joined .slash .incompleteNamespacedSymbol _
    (hcompound.map Node.compoundSymbol)
  refine ⟨fun tokens => ?_, fun tokens parsed h => ?_⟩
  · rw [namespacedSymbol, Option.map_eq_none_iff, hnone]
  · simp only [namespacedSymbol, Option.map_eq_some_iff] at h
    obtain ⟨symbol, hsymbol, rfl⟩ := h
    exact hfollows tokens symbol hsymbol

/-- No delimiter follows parts with delimiters between them. -/
theorem follows_joined (hpart : part.Consumes) {tokens : List Token} {parsed : Parsed (List Node)}
    (h : joined delimiter missing part tokens = some parsed) :
    Follows (· ≠ delimiter) parsed.rest := by
  simp only [joined, Option.map_eq_some_iff] at h
  obtain ⟨first, hfirst, rfl⟩ := h
  have hnone := (delimitedPart_consumes delimiter missing hpart).many_declines first.rest
  intro token hmem hkind
  obtain ⟨rest, hrest⟩ := List.head?_eq_some_iff.mp hmem
  rw [hrest, delimitedPart, if_pos hkind] at hnone
  split at hnone <;> simp at hnone

/-- Behind a namespaced symbol there are neither letters nor a slash. -/
theorem follows_namespacedSymbol {tokens : List Token} {parsed : Parsed (List Node)}
    (h : namespacedSymbol tokens = some parsed) :
    Follows (fun kind => kind ≠ .letters ∧ kind ≠ .slash) parsed.rest := by
  have hletters := namespacedSymbol_takesLetters.follows tokens parsed h
  simp only [namespacedSymbol, Option.map_eq_some_iff] at h
  obtain ⟨symbol, hsymbol, rfl⟩ := h
  have hslash := follows_joined (compoundSymbol_consumes.map Node.compoundSymbol) hsymbol
  exact fun token hmem => ⟨hletters token hmem, hslash token hmem⟩

end Rule

/-- What a symbol goes on with. -/
def symbolContinuations : List (List TokenKind) :=
  [[.letters], [.digits], [.period], [.slash], [.hyphen, .letters], [.hyphen, .digits]]

/-- A symbol ends in front of tokens that begin with nothing that it goes on with. -/
theorem endsSymbol_of_forall {rest : List Token}
    (h : ∀ kinds ∈ symbolContinuations, ¬kinds <+: rest.map Token.kind) : EndsSymbol rest := by
  cases rest with
  | nil => exact ⟨⟨trivial, follows_nil⟩, follows_nil⟩
  | cons token rest =>
    simp only [symbolContinuations, List.forall_mem_cons, List.map_cons, List.cons_prefix_cons,
      List.nil_prefix, and_true] at h
    obtain ⟨hletters, hdigits, hperiod, hslash, hhyphenLetters, hhyphenDigits, -⟩ := h
    have hpartial : continuesSymbol token rest = false := by
      refine Bool.eq_false_iff.mpr fun hcontinues => ?_
      rw [continuesSymbol, Bool.or_eq_true, Bool.and_eq_true, beq_iff_eq, isAlphanumeric_iff]
        at hcontinues
      obtain (hkind | hkind) | ⟨hhyphen, hnext⟩ := hcontinues
      · exact hletters hkind.symm
      · exact hdigits hkind.symm
      · cases rest with
        | nil => simp at hnext
        | cons next rest =>
          rw [List.head?_cons, Option.any_some, isAlphanumeric_iff] at hnext
          obtain hkind | hkind := hnext
          · exact hhyphenLetters (by simp [hhyphen, hkind])
          · exact hhyphenDigits (by simp [hhyphen, hkind])
    exact ⟨⟨hpartial, follows_cons.mpr (Ne.symm hperiod)⟩, follows_cons.mpr (Ne.symm hslash)⟩

/-- A word for symbols is read where nothing behind it goes on with it. -/
theorem Rule.namespacedSymbol_of_spells {word behind : List Token} (hword : Spells symbolWord word)
    (hbehind : ∀ kinds ∈ symbolContinuations, ¬kinds <+: behind.map Token.kind) :
    ∃ nodes, nodeTokens nodes = word
      ∧ namespacedSymbol (word ++ behind) = some ⟨nodes, behind, []⟩ := by
  obtain ⟨nodes, hnodes, rfl⟩ := (exists_isNamespacedSymbol_iff word).mpr hword
  exact ⟨nodes, rfl, namespacedSymbol_complete nodes hnodes behind (endsSymbol_of_forall hbehind)⟩

/-! ## Partial symbols -/

/-- The name is a partial symbol in the tokens, and the longest one where it begins. -/
def IsLongestPartial (tokens name : List Token) : Prop :=
  ∃ before behind, tokens = before ++ name ++ behind
    ∧ Spells partialWord name
    ∧ StartsWithLetters name
    ∧ (∀ last ∈ name.getLast?, last.kind ≠ .hyphen)
    ∧ ∀ longer, longer <+: name ++ behind → Spells partialWord longer → longer <+: name

/-- What continues a partial symbol does not end in a hyphen. -/
theorem IsSymbolTail.getLast?_ne_hyphen {tokens : List Token} (h : IsSymbolTail tokens) :
    ∀ last ∈ tokens.getLast?, last.kind ≠ .hyphen := by
  induction tokens with
  | nil => simp
  | cons token rest ih =>
    cases rest with
    | nil =>
      obtain ⟨hcontinues, -⟩ := h
      intro last hlast hkind
      obtain rfl : token = last := by simpa using hlast
      simp [continuesSymbol, hkind, TokenKind.isAlphanumeric] at hcontinues
    | cons next rest =>
      rw [List.getLast?_cons_cons]
      exact ih h.2

/-- A partial symbol does not end in a hyphen. -/
theorem IsPartialSymbol.getLast?_ne_hyphen {tokens : List Token} (h : IsPartialSymbol tokens) :
    ∀ last ∈ tokens.getLast?, last.kind ≠ .hyphen := by
  cases tokens with
  | nil => simp
  | cons token rest =>
    cases rest with
    | nil =>
      rintro _ ⟨⟩
      simp [h.1]
    | cons next rest =>
      rw [List.getLast?_cons_cons]
      exact h.2.getLast?_ne_hyphen

/-- A partial symbol that is read is the longest one. -/
theorem Rule.partialSymbol_longest {tokens longer : List Token} {parsed : Parsed (List Token)}
    (h : partialSymbol tokens = some parsed) (hbegins : longer <+: tokens)
    (hlonger : IsPartialSymbol longer) : longer <+: parsed.value := by
  obtain ⟨behind, rfl⟩ := hbegins
  cases longer with
  | nil => exact absurd hlonger id
  | cons token tail =>
    rw [List.cons_append, partialSymbol, if_pos hlonger.1,
      symbolTail_append_of_isSymbolTail hlonger.2] at h
    obtain rfl := Option.some.inj h
    exact List.prefix_append (token :: tail) _

/-- A partial symbol that has been read is the longest one at its place. -/
theorem Rule.ReadsIn.isLongestPartial {tokens name : List Token}
    (h : Rule.partialSymbol.ReadsIn tokens name) : IsLongestPartial tokens name := by
  obtain ⟨front, parsed, ⟨before, hbefore⟩, hparsed, rfl⟩ := h
  have hexact : parsed.value ++ parsed.rest = front := Rule.partialSymbol_exact front parsed hparsed
  have hname := Rule.partialSymbol_yields front parsed hparsed
  refine ⟨before, parsed.rest, by rw [List.append_assoc, hexact, hbefore],
    isPartialSymbol_iff.mp hname, IsPartialNode.startsWithLetters ⟨_, rfl, hname⟩,
    hname.getLast?_ne_hyphen, fun longer hbegins hlonger => ?_⟩
  rw [hexact] at hbegins
  exact Rule.partialSymbol_longest hparsed hbegins (isPartialSymbol_iff.mpr hlonger)

/-- Every partial symbol within a namespaced symbol is the longest one at its place. -/
theorem Rule.isLongestPartial_of_within {tokens name : List Token} {parsed : Parsed (List Node)}
    (h : namespacedSymbol tokens = some parsed)
    (hname : (Node.partialSymbol name).Within (.namespacedSymbol parsed.value)) :
    IsLongestPartial tokens name := by
  have hwhole : (Node.namespacedSymbol parsed.value).ReadIn tokens :=
    ⟨tokens, parsed, List.suffix_refl tokens, h, rfl⟩
  exact Rule.ReadsIn.isLongestPartial (hwhole.within hname)

/-! ## Scanned symbols -/

namespace Scan

variable {text : SourceText} {position : Nat}

/-- Behind some of the tokens that follow a position, a scanner stands as many places further on. -/
theorem facing_behind (hposition : position ≤ text.tokens.tokens.length) {consumed rest : List Token}
    (h : text.tokens.tokens.drop position = consumed ++ rest) (depth : Nat)
    (diagnostics : List Diagnostic) :
    Scanner.facing text rest 0 depth diagnostics
      = ⟨.moveTo (position + consumed.length), depth, diagnostics⟩ := by
  have hlength := congrArg List.length h
  rw [List.length_drop, List.length_append] at hlength
  have hplace : text.tokens.tokens.length - rest.length = position + consumed.length := by omega
  rw [Scanner.facing, hplace]
  rfl

/-- The token that a scanner stands at is a run of letters unless the rest begins otherwise. -/
theorem peek_kind_ne_letters_iff (h : position ≤ text.tokens.tokens.length) (depth : Nat)
    (diagnostics : List Diagnostic) :
    ((Cursor.moveTo position).peek text.tokens.window 0).kind ≠ .letters
      ↔ Follows (· ≠ .letters) (text.tokens.tokens.drop position) := by
  have hpeek := peek_facing (List.drop_suffix position text.tokens.tokens) 0 0 depth diagnostics
  rw [facing_behind h (List.nil_append _).symm, List.length_nil, Nat.add_zero] at hpeek
  rw [hpeek]
  cases text.tokens.tokens.drop position with
  | nil => simp [follows_nil, SourceText.endToken]
  | cons token rest => simp

/-- Symbols are taken by their grammar. A scanner at any position of a text, the end included, scans a
symbol and comes to an end. It declines exactly if it does not stand at letters, and stays as it was.
Otherwise it takes the tokens from its position on up to some other, and no letters and no slash
follow. The reports about the tokens taken are added to the diagnostics, and there are none exactly if
the tokens are a word for symbols. Each partial symbol taken begins with letters and does not end in a
hyphen, and no partial symbol that begins at the same place is longer. Conversely, if a word for
symbols lies ahead and nothing behind it goes on with it, exactly the word is taken, and nothing is
reported. -/
theorem namespacedSymbol_by_grammar (h : position ≤ text.tokens.tokens.length) (depth : Nat)
    (diagnostics : List Diagnostic) :
    let ahead := text.tokens.tokens.drop position
    let scanner : Scanner := ⟨.moveTo position, depth, diagnostics⟩
    ∃ found after, (namespacedSymbol text.tokens).Ends scanner found after
      ∧ (found = none ↔ (scanner.cursor.peek text.tokens.window 0).kind ≠ .letters)
      ∧ (found = none → after = scanner)
      ∧ (∀ nodes, found = some nodes → ∃ consumed rest,
          nodeTokens nodes = consumed ∧ ahead = consumed ++ rest
            ∧ after = ⟨.moveTo (position + consumed.length), depth,
                diagnostics ++ (symbolReports consumed).map (Reader.diagnose text.tokens)⟩
            ∧ (after.diagnostics = diagnostics ↔ Spells symbolWord consumed)
            ∧ Follows (fun kind => kind ≠ .letters ∧ kind ≠ .slash) rest
            ∧ ∀ name, (Node.partialSymbol name).Within (.namespacedSymbol nodes) →
                IsLongestPartial ahead name)
      ∧ ∀ word behind, ahead = word ++ behind → Spells symbolWord word →
          (∀ kinds ∈ symbolContinuations, ¬kinds <+: behind.map Token.kind) →
          ∃ nodes, found = some nodes ∧ nodeTokens nodes = word
            ∧ after = ⟨.moveTo (position + word.length), depth, diagnostics⟩ := by
  intro ahead scanner
  have hscan : Agrees text depth _ ahead _ := agrees_namespacedSymbol ahead
  have hends := hscan.ends (List.drop_suffix position _) diagnostics
  have hletters := (Rule.namespacedSymbol_takesLetters.eq_none_iff ahead).trans
    (peek_kind_ne_letters_iff h depth diagnostics).symm
  rw [facing_behind h (List.nil_append _).symm] at hends
  cases hread : Rule.namespacedSymbol ahead with
  | none =>
    rw [Rule.optional_of_none hread, List.map_nil, List.append_nil,
      facing_behind h (List.nil_append _).symm] at hends
    refine ⟨none, scanner, hends, iff_of_true rfl (hletters.mp hread), fun _ => rfl,
      fun nodes hnone => absurd hnone.symm (Option.some_ne_none nodes), ?_⟩
    intro word behind heq hword hbehind
    obtain ⟨nodes, -, hsome⟩ := Rule.namespacedSymbol_of_spells hword hbehind
    simp [← heq, hread] at hsome
  | some parsed =>
    have hexact : nodeTokens parsed.value ++ parsed.rest = ahead :=
      Rule.namespacedSymbol_exact ahead parsed hread
    have hreports := Rule.reports_namespacedSymbol hread
    rw [Rule.optional_of_some hread, Parsed.map, facing_behind h hexact.symm] at hends
    have hsome : some parsed.value ≠ none := Option.some_ne_none _
    refine ⟨_, _, hends, iff_of_false hsome fun hne => ?_, fun hnone => absurd hnone hsome, ?_, ?_⟩
    · simp [hletters.mpr hne] at hread
    · intro nodes hnodes
      obtain rfl := Option.some.inj hnodes
      refine ⟨_, parsed.rest, rfl, hexact.symm, by rw [hreports], ?_,
        Rule.follows_namespacedSymbol hread, fun name hname => ?_⟩
      · rw [← Rule.symbolReports_eq_nil_iff hread, hreports, List.append_right_eq_self,
          List.map_eq_nil_iff]
      · exact Rule.isLongestPartial_of_within hread hname
    · intro word behind heq hword hbehind
      obtain ⟨nodes, rfl, hsame⟩ := Rule.namespacedSymbol_of_spells hword hbehind
      rw [← heq, hread] at hsame
      obtain rfl := Option.some.inj hsame
      exact ⟨nodes, rfl, rfl, by simp⟩

/-- A hyphen that neither letters nor digits follow does not belong to the symbol in front of it. -/
theorem namespacedSymbol_by_grammar_strayHyphen :
    let text := SourceText.ofString (.ofNat 0) " a/b.c-1->"
    ∃ nodes, (namespacedSymbol text.tokens).Ends ⟨.moveTo 1, 0, []⟩ (some nodes) ⟨.moveTo 8, 0, []⟩
      ∧ nodeTokens nodes = (text.tokens.tokens.drop 1).take 7 := by
  intro text
  have hkinds : (text.tokens.tokens.drop 1).map Token.kind
      = [.letters, .slash, .letters, .period, .letters, .hyphen, .digits, .hyphen, .closeAngle] := by
    decide +kernel
  have hword : Spells symbolWord ((text.tokens.tokens.drop 1).take 7) := by
    rw [Spells, List.map_take, hkinds, ← RegularExpression.rmatch_iff_matches']
    decide +kernel
  obtain ⟨_, _, hends, -, -, -, htaken⟩ :=
    @namespacedSymbol_by_grammar text 1 (by decide +kernel) 0 []
  obtain ⟨nodes, rfl, hnodes, rfl⟩ := htaken _ _ (List.take_append_drop 7 _).symm hword (by
    rw [List.map_drop, hkinds]
    decide)
  have hlength : ((text.tokens.tokens.drop 1).take 7).length = 7 := by decide +kernel
  rw [hlength] at hends
  exact ⟨nodes, hends, hnodes⟩

end Scan

end JobMarkup.Grammar
