import JobMarkup.Proofs.ExactRules
import Mathlib.Data.List.TakeWhile

/-!
# The grammar of symbols, content and attributes

The rules for symbols, content and attributes report nothing exactly for the values of a grammar,
which is given here by predicates. Each rule is sound, in that a value without reports satisfies its
predicate, and complete, in that the tokens of a value that does are read as that value, whatever
tokens follow, as long as the first of these does not belong to the value.
-/

namespace JobMarkup.Grammar

open JobMarkup.Tree

variable {α β : Type}

/-- The first token of those that follow, if there is one, is of a kind with the given property. -/
def Follows (property : TokenKind → Prop) (rest : List Token) : Prop :=
  ∀ token ∈ rest.head?, property token.kind

/-- A condition on what follows may be weakened, so a rule that asks for less can be used in its
place. -/
theorem Follows.imp {p q : TokenKind → Prop} {rest : List Token} (h : Follows p rest)
    (himp : ∀ kind, p kind → q kind) : Follows q rest :=
  fun token hmem => himp token.kind (h token hmem)

/-- Where nothing follows, every condition on what follows is met. -/
theorem follows_nil {p : TokenKind → Prop} : Follows p [] := by
  simp [Follows]

/-- A condition on what follows is one on the first token. -/
@[simp] theorem follows_cons {p : TokenKind → Prop} {token : Token} {rest : List Token} :
    Follows p (token :: rest) ↔ p token.kind := by
  simp [Follows]

/-- If a condition is met by what follows directly and by what comes behind it, it is met by both in
a row, whether or not the former is empty. -/
theorem Follows.append {p : TokenKind → Prop} {a b : List Token} (ha : Follows p a)
    (hb : Follows p b) : Follows p (a ++ b) := by
  cases a with
  | nil => exact hb
  | cons token rest => exact ha

/-- A condition on all that follows is met by any front of it. -/
theorem Follows.of_append {p : TokenKind → Prop} {a b : List Token} (h : Follows p (a ++ b)) :
    Follows p a := by
  cases a with
  | nil => exact follows_nil
  | cons token rest => exact h

namespace Rule

/-- What the rule reads without a report satisfies the predicate. -/
def Sound (rule : Rule α) (holds : α → Prop) : Prop :=
  ∀ tokens parsed, rule tokens = some parsed → parsed.reports = [] → holds parsed.value

/-- The rule reads what satisfies the predicate, if nothing that follows belongs to it. -/
def Complete (rule : Rule α) (tokensOf : α → List Token) (holds : α → Prop)
    (ends : TokenKind → Prop) : Prop :=
  ∀ value, holds value → ∀ rest, Follows ends rest →
    rule (tokensOf value ++ rest) = some ⟨value, rest, []⟩

/-- The rule reads what satisfies the predicate, if the tokens that follow end it. -/
def CompleteBefore (rule : Rule α) (tokensOf : α → List Token) (holds : α → Prop)
    (ends : List Token → Prop) : Prop :=
  ∀ value, holds value → ∀ rest, ends rest → rule (tokensOf value ++ rest) = some ⟨value, rest, []⟩

/-- A rule that is complete stays so for the values that are made of what it reads. -/
theorem CompleteBefore.map {rule : Rule α} {tokensOf : α → List Token} {holds : α → Prop}
    {ends : List Token → Prop} (h : rule.CompleteBefore tokensOf holds ends) (f : α → β)
    {tokensOf' : β → List Token} (hf : ∀ value, tokensOf' (f value) = tokensOf value) :
    (rule.map f).CompleteBefore tokensOf' (fun value => ∃ read, value = f read ∧ holds read)
      ends := by
  rintro _ ⟨read, rfl, hread⟩ rest hrest
  rw [hf, Rule.map, h read hread rest hrest]
  rfl

/-- A rule that is sound stays so for the values that are made of what it reads. -/
theorem Sound.map {rule : Rule α} {holds : α → Prop} (h : rule.Sound holds) (f : α → β)
    {holds' : β → Prop} (hf : ∀ value, holds value → holds' (f value)) :
    (rule.map f).Sound holds' := by
  intro tokens parsed hparsed hreports
  simp only [Rule.map, Option.map_eq_some_iff] at hparsed
  obtain ⟨read, hread, rfl⟩ := hparsed
  exact hf _ (h tokens read hread hreports)

/-- A repetition ends where its rule declines. -/
theorem Consumes.many_declines {rule : Rule α} (h : rule.Consumes) (tokens : List Token) :
    rule (rule.many tokens).rest = none := by
  generalize hlength : tokens.length = length
  induction length using Nat.strong_induction_on generalizing tokens with
  | _ length ih =>
    rw [many_eq h]
    split
    · next hnone => exact hnone
    · next first hfirst =>
      have hlt := (h tokens first hfirst).2
      exact ih _ (hlength ▸ hlt) first.rest rfl

/-- Every value of a repetition without reports satisfies the predicate of the rule. -/
theorem Sound.many {rule : Rule α} {holds : α → Prop} (h : rule.Sound holds) {tokens : List Token}
    (hreports : (rule.many tokens).reports = []) : ∀ value ∈ (rule.many tokens).value, holds value := by
  revert hreports
  rw [Rule.many]
  generalize tokens.length = bound
  induction bound generalizing tokens with
  | zero => simp [atMost]
  | succ bound ih =>
    rw [atMost]
    split
    · simp
    · next first hfirst =>
      intro hreports
      obtain ⟨hfirstReports, hothers⟩ := List.append_eq_nil_iff.mp hreports
      intro value hmem
      rcases List.mem_cons.mp hmem with rfl | hmem
      · exact h tokens first hfirst hfirstReports
      · exact ih hothers value hmem

/-- The rule reads the values one after the other, without a report, and then declines. -/
inductive ReadsMany (rule : Rule α) : List α → (tokens rest : List Token) → Prop
  | nil {rest} : rule rest = none → ReadsMany rule [] rest rest
  | cons {value others tokens middle rest} : rule tokens = some ⟨value, middle, []⟩ →
      ReadsMany rule others middle rest → ReadsMany rule (value :: others) tokens rest

/-- A repetition gives all the values that can be read one after the other, and no reports. -/
theorem ReadsMany.many_eq {rule : Rule α} (hrule : rule.Consumes) {values : List α}
    {tokens rest : List Token} (h : ReadsMany rule values tokens rest) :
    rule.many tokens = ⟨values, rest, []⟩ := by
  induction h with
  | nil hnone => rw [Rule.many_eq hrule, hnone]
  | cons hfirst _ ih =>
    rw [Rule.many_eq hrule, hfirst]
    simp [ih]

/-- A rule without conditions on what follows reads any number of values, where it declines
behind them. -/
theorem Complete.readsMany {rule : Rule α} {tokensOf : α → List Token} {holds : α → Prop}
    (h : rule.Complete tokensOf holds fun _ => True) {values : List α}
    (hvalues : ∀ value ∈ values, holds value) {rest : List Token} (hrest : rule rest = none) :
    ReadsMany rule values (values.flatMap tokensOf ++ rest) rest := by
  induction values with
  | nil => exact .nil hrest
  | cons value others ih =>
    rw [List.flatMap_cons, List.append_assoc]
    refine .cons (h value (hvalues value List.mem_cons_self) _ fun _ _ => trivial) ?_
    exact ih fun other hmem => hvalues other (List.mem_cons_of_mem _ hmem)

/-- A token that the rule accepts is read. -/
theorem optional_token (accepts : TokenKind → Bool) {token : Token} (h : accepts token.kind = true)
    (rest : List Token) :
    (Rule.token accepts).optional (token :: rest) = ⟨some [token], rest, []⟩ := by
  simp [optional, Rule.token, h, Parsed.map]

/-- What has been read for a mark is one token that the rule accepts. -/
theorem token_eq_some {accepts : TokenKind → Bool} {tokens : List Token}
    {parsed : Parsed (List Token)} (h : Rule.token accepts tokens = some parsed) :
    ∃ token, accepts token.kind = true ∧ parsed.value = [token] := by
  cases tokens with
  | nil => simp [Rule.token] at h
  | cons token rest =>
    simp only [Rule.token, Option.ite_none_right_eq_some, Option.some.injEq] at h
    obtain ⟨haccepts, rfl⟩ := h
    exact ⟨token, haccepts, rfl⟩

/-- What has been read for a slot is one token that the rule accepts. -/
theorem optional_token_eq_some {accepts : TokenKind → Bool} {tokens slot : List Token}
    (h : ((Rule.token accepts).optional tokens).value = some slot) :
    ∃ token rest, tokens = token :: rest ∧ accepts token.kind = true ∧ slot = [token]
      ∧ ((Rule.token accepts).optional tokens).rest = rest := by
  cases tokens with
  | nil => simp [optional, Rule.token] at h
  | cons token rest =>
    by_cases haccepts : accepts token.kind = true
    · rw [optional_token accepts haccepts] at h ⊢
      exact ⟨token, rest, rfl, haccepts, (Option.some.inj h).symm, rfl⟩
    · simp [optional, Rule.token, haccepts] at h

end Rule

/-- There is no report exactly if the condition for it fails, so the absence of reports can be split
into facts. -/
theorem reportIf_eq_nil_iff {condition : Bool} {fault : GrammarFault} {about : List Token} :
    reportIf condition fault about = [] ↔ condition = false := by
  cases condition <;> simp [reportIf]

/-! ## Partial symbols -/

/-- Tokens all of which belong to a partial symbol that has begun in front of them. -/
def IsSymbolTail : List Token → Prop
  | [] => True
  | token :: rest => continuesSymbol token rest = true ∧ IsSymbolTail rest

/-- The tokens of a partial symbol. -/
def IsPartialSymbol : List Token → Prop
  | [] => False
  | token :: rest => token.kind = .letters ∧ IsSymbolTail rest

/-- A partial symbol ends in front of the tokens. -/
def EndsPartial : List Token → Prop
  | [] => True
  | token :: rest => continuesSymbol token rest = false

/-- What is taken as the tail of a partial symbol belongs to one. -/
theorem isSymbolTail_symbolTail (tokens : List Token) : IsSymbolTail (symbolTail tokens).1 := by
  induction tokens with
  | nil => exact trivial
  | cons token rest ih =>
    rw [symbolTail]
    split
    · next h =>
      refine ⟨?_, ih⟩
      -- what a hyphen needs behind it is the first token of the tail
      cases rest with
      | nil => exact h
      | cons next rest =>
        simp only [continuesSymbol, List.head?_cons, Option.any_some, Bool.or_eq_true,
          Bool.and_eq_true, beq_iff_eq] at h ⊢
        rcases h with hkind | hhyphen
        · exact Or.inl hkind
        · have hcontinues : continuesSymbol next rest = true := by simp [continuesSymbol, hhyphen]
          exact Or.inr ⟨hhyphen.1, by simp [symbolTail, hcontinues, hhyphen]⟩
    · exact trivial

/-- What belongs to a partial symbol does so whatever follows. -/
theorem symbolTail_append_of_isSymbolTail {tail : List Token} (h : IsSymbolTail tail)
    (rest : List Token) :
    symbolTail (tail ++ rest) = (tail ++ (symbolTail rest).1, (symbolTail rest).2) := by
  induction tail with
  | nil => rfl
  | cons token tail ih =>
    obtain ⟨hcontinues, htail⟩ := h
    have hstill : continuesSymbol token (tail ++ rest) = true := by
      cases tail with
      | nil =>
        simp only [continuesSymbol, List.head?_nil, Option.any_none, Bool.and_false,
          Bool.or_false] at hcontinues
        simp [continuesSymbol, hcontinues]
      | cons next tail => exact hcontinues
    simp [symbolTail, hstill, ih htail]

/-- Nothing is taken behind a partial symbol that has ended. -/
theorem EndsPartial.symbolTail_eq {rest : List Token} (h : EndsPartial rest) :
    symbolTail rest = ([], rest) := by
  cases rest with
  | nil => rfl
  | cons token rest =>
    have hends : continuesSymbol token rest = false := h
    simp [symbolTail, hends]

namespace Rule

/-- What is read as a partial symbol is one, since it is declined unless it begins with letters. -/
theorem partialSymbol_sound : partialSymbol.Sound IsPartialSymbol := by
  intro tokens parsed h _
  obtain ⟨token, rest, rfl, hkind, rfl⟩ := partialSymbol_eq_some h
  exact ⟨hkind, isSymbolTail_symbolTail rest⟩

/-- Every partial symbol is read as a whole in front of tokens that do not go on with it. -/
theorem partialSymbol_complete : partialSymbol.CompleteBefore id IsPartialSymbol EndsPartial := by
  intro value hvalue rest hrest
  cases value with
  | nil => exact absurd hvalue id
  | cons token tail =>
    obtain ⟨hkind, htail⟩ := hvalue
    simp [partialSymbol, hkind, symbolTail_append_of_isSymbolTail htail, hrest.symbolTail_eq]

end Rule

/-! ## Parts with delimiters -/

/-- Parts with delimiters between them, as nodes in a row. -/
inductive IsJoined (delimiter : TokenKind) (isPart : Node → Prop) : List Node → Prop
  | one {node} : isPart node → IsJoined delimiter isPart [node]
  | more {node token rest} : isPart node → token.kind = delimiter →
      IsJoined delimiter isPart rest → IsJoined delimiter isPart (node :: .single [token] :: rest)

/-- Nodes that stand behind the first part: a delimiter and a part. -/
def IsDelimited (delimiter : TokenKind) (isPart : Node → Prop) (nodes : List Node) : Prop :=
  ∃ token node, nodes = [.single [token], node] ∧ token.kind = delimiter ∧ isPart node

/-- A first part and groups of a delimiter and a part each are parts with delimiters between them. -/
theorem isJoined_flatten {delimiter : TokenKind} {isPart : Node → Prop} {first : Node}
    (hfirst : isPart first) {groups : List (List Node)}
    (hgroups : ∀ group ∈ groups, IsDelimited delimiter isPart group) :
    IsJoined delimiter isPart (first :: groups.flatten) := by
  induction groups generalizing first with
  | nil => exact .one hfirst
  | cons group rest ih =>
    obtain ⟨token, node, rfl, hkind, hnode⟩ := hgroups group List.mem_cons_self
    exact .more hfirst hkind (ih hnode fun other hmem => hgroups other (List.mem_cons_of_mem _ hmem))

/-- Every row of parts is a first part and groups of a delimiter and a part. -/
theorem IsJoined.exists_groups {delimiter : TokenKind} {isPart : Node → Prop} {nodes : List Node}
    (h : IsJoined delimiter isPart nodes) :
    ∃ (first : Node) (groups : List (List Node)), nodes = first :: groups.flatten ∧ isPart first
      ∧ ∀ group ∈ groups, IsDelimited delimiter isPart group := by
  induction h with
  | @one node hnode => exact ⟨node, [], rfl, hnode, by simp⟩
  | @more node token rest hnode hkind _ ih =>
    obtain ⟨next, groups, rfl, hnext, hgroups⟩ := ih
    refine ⟨node, [.single [token], next] :: groups, rfl, hnode, ?_⟩
    intro group hmem
    rcases List.mem_cons.mp hmem with rfl | hmem
    · exact ⟨token, next, rfl, hkind, hnext⟩
    · exact hgroups group hmem

/-- Parts and the delimiters between them are odd in number. -/
theorem IsJoined.length_odd {delimiter : TokenKind} {isPart : Node → Prop} {nodes : List Node}
    (h : IsJoined delimiter isPart nodes) : nodes.length % 2 = 1 := by
  induction h with
  | one _ => rfl
  | more _ _ _ ih =>
    simp only [List.length_cons]
    omega

/-- Joined parts stay joined with one more part behind a delimiter. -/
theorem IsJoined.concat {delimiter : TokenKind} {isPart : Node → Prop} {nodes : List Node}
    (h : IsJoined delimiter isPart nodes) {token : Token} (htoken : token.kind = delimiter)
    {node : Node} (hnode : isPart node) :
    IsJoined delimiter isPart (nodes ++ [.single [token], node]) := by
  induction h with
  | one hfirst => exact .more hfirst htoken (.one hnode)
  | more hfirst hkind _ ih => exact .more hfirst hkind ih

/-- Several parts are parts, a delimiter and one more part. -/
theorem IsJoined.exists_concat {delimiter : TokenKind} {isPart : Node → Prop} {nodes : List Node}
    (h : IsJoined delimiter isPart nodes) (hlength : nodes.length ≠ 1) :
    ∃ init token last, nodes = init ++ [.single [token], last] ∧ IsJoined delimiter isPart init
      ∧ token.kind = delimiter ∧ isPart last := by
  induction h with
  | one _ => simp at hlength
  | @more node token rest hnode hkind hrest ih =>
    cases hrest with
    | @one last hlast => exact ⟨[node], token, last, rfl, .one hnode, hkind, hlast⟩
    | more hnext hkind' hrest =>
      obtain ⟨init, token', last, hnodes, hinit, hdelimiter, hlast⟩ := ih (by simp)
      rw [hnodes]
      exact ⟨node :: .single [token] :: init, token', last, rfl, .more hnode hkind hinit,
        hdelimiter, hlast⟩

namespace Rule

variable {delimiter : TokenKind} (missing : GrammarFault) {part : Rule Node}
  {isPart : Node → Prop} {ends : List Token → Prop}

/-- A delimiter without a report has its part behind it. -/
theorem delimitedPart_sound (hpart : part.Sound isPart) :
    (delimitedPart delimiter missing part).Sound (IsDelimited delimiter isPart) := by
  intro tokens parsed h hreports
  obtain ⟨token, rest, rfl, hkind, ⟨next, hnext, rfl⟩ | ⟨-, rfl⟩⟩ := delimitedPart_eq_some h
  · exact ⟨token, next.value, rfl, hkind, hpart rest next hnext hreports⟩
  · simp at hreports

/-- Parts that are joined without a report have a delimiter between any two of them, and no
delimiter without a part. -/
theorem joined_sound (hpart : part.Sound isPart) :
    (joined delimiter missing part).Sound (IsJoined delimiter isPart) := by
  intro tokens parsed h hreports
  simp only [joined, Option.map_eq_some_iff] at h
  obtain ⟨first, hfirst, rfl⟩ := h
  obtain ⟨hfirstReports, hothers⟩ := List.append_eq_nil_iff.mp hreports
  exact isJoined_flatten (hpart tokens first hfirst hfirstReports)
    ((delimitedPart_sound missing hpart).many hothers)

/-- Groups of a delimiter and a part are read, where neither a delimiter nor anything that belongs to
a part follows. -/
theorem readsMany_delimitedPart (hpart : part.CompleteBefore Node.tokens isPart ends)
    (hdelimiter : ∀ token rest, token.kind = delimiter → ends (token :: rest))
    {groups : List (List Node)} (hgroups : ∀ group ∈ groups, IsDelimited delimiter isPart group)
    {rest : List Token} (hrest : ends rest) (hother : Follows (· ≠ delimiter) rest) :
    ends (nodeTokens groups.flatten ++ rest)
      ∧ ReadsMany (delimitedPart delimiter missing part) groups
        (nodeTokens groups.flatten ++ rest) rest := by
  induction groups with
  | nil =>
    refine ⟨hrest, .nil ?_⟩
    cases rest with
    | nil => rfl
    | cons token rest => simp [delimitedPart, follows_cons.mp hother]
  | cons group groups ih =>
    obtain ⟨token, node, rfl, hkind, hnode⟩ := hgroups group List.mem_cons_self
    obtain ⟨hends, hothers⟩ := ih fun other hmem => hgroups other (List.mem_cons_of_mem _ hmem)
    simp only [List.flatten_cons, List.cons_append, List.nil_append, nodeTokens_cons,
      Node.tokens_single, List.append_assoc]
    refine ⟨hdelimiter token _ hkind, .cons ?_ hothers⟩
    simp [delimitedPart, hkind, hpart node hnode _ hends]

/-- Parts with delimiters are read up to the last one, if no further delimiter follows. -/
theorem joined_complete (hconsumes : part.Consumes)
    (hpart : part.CompleteBefore Node.tokens isPart ends)
    (hdelimiter : ∀ token rest, token.kind = delimiter → ends (token :: rest)) :
    (joined delimiter missing part).CompleteBefore nodeTokens (IsJoined delimiter isPart)
      fun rest => ends rest ∧ Follows (· ≠ delimiter) rest := by
  rintro nodes hnodes rest ⟨hrest, hother⟩
  obtain ⟨first, groups, rfl, hfirst, hgroups⟩ := hnodes.exists_groups
  obtain ⟨hends, hothers⟩ :=
    readsMany_delimitedPart missing hpart hdelimiter hgroups hrest hother
  have hmany := hothers.many_eq (delimitedPart_consumes delimiter missing hconsumes)
  simp [joined, hpart first hfirst _ hends, hmany]

end Rule

/-! ## Symbols and interpolations -/

/-- The node of a partial symbol. -/
def IsPartialNode (node : Node) : Prop :=
  ∃ tokens, node = .partialSymbol tokens ∧ IsPartialSymbol tokens

/-- The nodes of a compound symbol. -/
def IsCompoundSymbol : List Node → Prop := IsJoined .period IsPartialNode

/-- The node of a compound symbol. -/
def IsCompoundNode (node : Node) : Prop :=
  ∃ nodes, node = .compoundSymbol nodes ∧ IsCompoundSymbol nodes

/-- The nodes of a symbol with a namespace and a key. -/
def IsNamespacedSymbol (nodes : List Node) : Prop :=
  IsJoined .slash IsCompoundNode nodes ∧ nodes.length ≠ 1

/-- An interpolation with all its parts. -/
def IsInterpolation (whole : Interpolation) : Prop :=
  ∃ opening symbol closing, whole = ⟨[opening], some symbol, some [closing]⟩
    ∧ opening.kind = .openReference ∧ IsNamespacedSymbol symbol ∧ closing.kind = .closeReference

/-- Parts that have tokens, with delimiters between them, have tokens. -/
theorem IsJoined.nodeTokens_ne_nil {delimiter : TokenKind} {isPart : Node → Prop}
    {nodes : List Node} (h : IsJoined delimiter isPart nodes)
    (hpart : ∀ node, isPart node → node.tokens ≠ []) : nodeTokens nodes ≠ [] := by
  cases h with
  | one hnode => simp [hpart _ hnode]
  | more hnode _ _ => simp

/-- A partial symbol has tokens, so it cannot be mistaken for nothing. -/
theorem IsPartialNode.tokens_ne_nil {node : Node} (h : IsPartialNode node) : node.tokens ≠ [] := by
  obtain ⟨tokens, rfl, htokens⟩ := h
  cases tokens with
  | nil => exact absurd htokens id
  | cons token tail => simp

/-- A compound symbol has the tokens of its first part. -/
theorem IsCompoundNode.tokens_ne_nil {node : Node} (h : IsCompoundNode node) :
    node.tokens ≠ [] := by
  obtain ⟨nodes, rfl, hnodes⟩ := h
  rw [Node.tokens_compoundSymbol]
  exact hnodes.nodeTokens_ne_nil fun _ => IsPartialNode.tokens_ne_nil

/-- A compound symbol ends in front of the tokens. -/
def EndsCompound (rest : List Token) : Prop := EndsPartial rest ∧ Follows (· ≠ .period) rest

/-- A namespaced symbol ends in front of the tokens. -/
def EndsSymbol (rest : List Token) : Prop := EndsCompound rest ∧ Follows (· ≠ .slash) rest

/-- A token that is neither alphanumeric nor a hyphen nor a period ends a compound symbol. -/
theorem endsCompound_of_kind {token : Token} {rest : List Token}
    (h : token.kind.isAlphanumeric = false) (hhyphen : token.kind ≠ .hyphen)
    (hperiod : token.kind ≠ .period) : EndsCompound (token :: rest) :=
  ⟨by simp [EndsPartial, continuesSymbol, h, hhyphen], follows_cons.mpr hperiod⟩

namespace Rule

/-- A compound symbol without a report has a partial symbol on both sides of every period. -/
theorem compoundSymbol_sound : compoundSymbol.Sound IsCompoundSymbol :=
  joined_sound _ (partialSymbol_sound.map Node.partialSymbol fun tokens h => ⟨tokens, rfl, h⟩)

/-- Every compound symbol is read as a whole in front of tokens that do not go on with it. -/
theorem compoundSymbol_complete :
    compoundSymbol.CompleteBefore nodeTokens IsCompoundSymbol EndsCompound := by
  refine joined_complete _ (partialSymbol_consumes.map Node.partialSymbol)
    (partialSymbol_complete.map Node.partialSymbol Node.tokens_partialSymbol) ?_
  intro token rest hkind
  simp [EndsPartial, continuesSymbol, hkind, TokenKind.isAlphanumeric]

/-- A namespaced symbol without a report has at least two parts with slashes between them. -/
theorem namespacedSymbol_sound : namespacedSymbol.Sound IsNamespacedSymbol := by
  intro tokens parsed h hreports
  simp only [namespacedSymbol, Option.map_eq_some_iff] at h
  obtain ⟨symbol, hsymbol, rfl⟩ := h
  obtain ⟨hsymbolReports, hnamespace⟩ := List.append_eq_nil_iff.mp hreports
  have hpart : (compoundSymbol.map .compoundSymbol).Sound IsCompoundNode :=
    compoundSymbol_sound.map Node.compoundSymbol fun nodes h => ⟨nodes, rfl, h⟩
  refine ⟨joined_sound _ hpart tokens symbol hsymbol hsymbolReports, ?_⟩
  simpa [reportIf_eq_nil_iff] using hnamespace

/-- Every namespaced symbol is read as a whole in front of tokens that do not go on with it. -/
theorem namespacedSymbol_complete :
    namespacedSymbol.CompleteBefore nodeTokens IsNamespacedSymbol EndsSymbol := by
  rintro nodes ⟨hnodes, hlength⟩ rest hrest
  have hread := joined_complete .incompleteNamespacedSymbol
    (compoundSymbol_consumes.map Node.compoundSymbol)
    (compoundSymbol_complete.map Node.compoundSymbol Node.tokens_compoundSymbol)
    (fun token rest hkind => endsCompound_of_kind (by simp [hkind, TokenKind.isAlphanumeric])
      (by simp [hkind]) (by simp [hkind]))
    nodes hnodes rest hrest
  have hreport : reportIf (nodes.length == 1) .missingNamespace (nodeTokens nodes) = [] := by
    simpa [reportIf_eq_nil_iff] using hlength
  simp [namespacedSymbol, hread, hreport]

/-- An interpolation without a report has a symbol without a report and its closing mark. -/
theorem interpolation_sound : interpolation.Sound IsInterpolation := by
  intro tokens parsed h hreports
  cases tokens with
  | nil => simp [interpolation] at h
  | cons token rest =>
    simp only [interpolation, Option.ite_none_right_eq_some, Option.some.injEq] at h
    obtain ⟨hkind, rfl⟩ := h
    obtain ⟨hsymbolReports, hterminated⟩ := List.append_eq_nil_iff.mp hreports
    rw [reportIf_eq_nil_iff, Interpolation.isTerminated, Bool.not_eq_false', Bool.and_eq_true,
      Option.isSome_iff_exists, Option.isSome_iff_exists] at hterminated
    obtain ⟨⟨symbol, hsymbol⟩, slot, hslot⟩ := hterminated
    dsimp only at hsymbol hslot
    obtain ⟨closing, behind, -, hclosing, rfl, -⟩ := optional_token_eq_some hslot
    refine ⟨token, symbol, closing, by rw [hsymbol, hslot], hkind, ?_, by simpa using hclosing⟩
    rw [Rule.optional] at hsymbol hsymbolReports
    split at hsymbol
    · next parsed hparsed =>
      obtain rfl := Option.some.inj hsymbol
      have hparsedReports : parsed.reports = [] := by
        simpa [hparsed, Parsed.map] using hsymbolReports
      exact namespacedSymbol_sound rest parsed hparsed hparsedReports
    · simp at hsymbol

/-- Every interpolation is read as a whole, whatever follows its closing mark. -/
theorem interpolation_complete :
    interpolation.Complete Interpolation.tokens IsInterpolation fun _ => True := by
  rintro whole ⟨opening, symbol, closing, rfl, hopening, hsymbol, hclosing⟩ rest -
  have hends : EndsSymbol (closing :: rest) :=
    ⟨endsCompound_of_kind (by simp [hclosing, TokenKind.isAlphanumeric]) (by simp [hclosing])
      (by simp [hclosing]), follows_cons.mpr (by simp [hclosing])⟩
  have hread := namespacedSymbol_complete symbol hsymbol _ hends
  have hoptional : namespacedSymbol.optional (nodeTokens symbol ++ closing :: rest)
      = ⟨some symbol, closing :: rest, []⟩ := by
    simp [optional, hread, Parsed.map]
  have hslot := optional_token (· == .closeReference) (by simpa using hclosing) rest
  simp [interpolation, Interpolation.tokens_eq, hopening, hoptional, hslot,
    Interpolation.isTerminated, reportIf]

end Rule

/-! ## Content and attributes -/

/-- A piece of content that holds no token of the given kinds outside of its interpolations. -/
def IsContentPiece (terminators : List TokenKind) (node : Node) : Prop :=
  (∃ token, node = .single [token] ∧ token.kind ∉ terminators ∧ token.kind ≠ .openReference)
    ∨ ∃ whole, node = .interpolation whole ∧ IsInterpolation whole

/-- The nodes of content in front of tokens of the given kinds. -/
def IsContent (terminators : List TokenKind) (nodes : List Node) : Prop :=
  nodes ≠ [] ∧ ∀ node ∈ nodes, IsContentPiece terminators node

/-- An attribute with all its parts. -/
def IsAttribute (attr : Attribute) : Prop :=
  ∃ name equal openQuote contents closeQuote,
    attr = ⟨name, some [equal], some [openQuote], contents, some [closeQuote]⟩
      ∧ IsPartialSymbol name ∧ equal.kind = .equal ∧ openQuote.kind = .quote
      ∧ closeQuote.kind = .quote ∧ ∀ nodes ∈ contents, IsContent attributeValueEnds nodes

/-- A piece of content has tokens, so content can be taken apart piece by piece. -/
theorem IsContentPiece.tokens_ne_nil {terminators : List TokenKind} {node : Node}
    (h : IsContentPiece terminators node) : node.tokens ≠ [] := by
  obtain ⟨token, rfl, -⟩ | ⟨whole, rfl, opening, symbol, closing, rfl, -⟩ := h
  · simp
  · simp [Interpolation.tokens_eq]

/-- Content has the tokens of its first piece. -/
theorem IsContent.nodeTokens_ne_nil {terminators : List TokenKind} {nodes : List Node}
    (h : IsContent terminators nodes) : nodeTokens nodes ≠ [] := by
  obtain ⟨node, rest, rfl⟩ := List.exists_cons_of_ne_nil h.1
  have hnode := (h.2 node List.mem_cons_self).tokens_ne_nil
  simp [hnode]

namespace Rule

/-- A piece of content without a report is a token that ends nothing, or a complete interpolation. -/
theorem contentPiece_sound (terminators : List TokenKind) :
    (contentPiece terminators).Sound (IsContentPiece terminators) := by
  intro tokens parsed h hreports
  obtain h | ⟨token, rest, rfl, hends, hreference, rfl⟩ := contentPiece_eq_some h
  · exact interpolation_sound.map Node.interpolation (fun whole h => Or.inr ⟨whole, rfl, h⟩) tokens
      parsed h hreports
  · exact Or.inl ⟨token, rfl, hends, hreference⟩

/-- A piece of content is read whatever follows it. -/
theorem contentPiece_complete {terminators : List TokenKind} (h : .openReference ∉ terminators) :
    (contentPiece terminators).Complete Node.tokens (IsContentPiece terminators)
      fun _ => True := by
  rintro node (⟨token, rfl, hends, hreference⟩ | ⟨whole, rfl, hwhole⟩) rest hrest
  · simp [contentPiece, hends, hreference]
  · have hread := interpolation_complete whole hwhole rest hrest
    obtain ⟨opening, symbol, closing, rfl, hopening, -, -⟩ := hwhole
    simp only [Node.tokens_interpolation, Interpolation.tokens_eq, Option.getD_some,
      slotTokens_some, List.append_assoc, List.cons_append, List.nil_append] at hread ⊢
    simp [contentPiece, hopening, h, Rule.map, hread, Parsed.map]

/-- Content without a report is not empty, and all its pieces are without a report. -/
theorem content_sound (terminators : List TokenKind) :
    (content terminators).Sound (IsContent terminators) := by
  intro tokens parsed h hreports
  simp only [content, Option.ite_none_left_eq_some, Option.some.injEq] at h
  obtain ⟨hsome, rfl⟩ := h
  exact ⟨mt List.isEmpty_iff.mpr hsome, (contentPiece_sound terminators).many hreports⟩

/-- Content is read up to the end of the tokens or to a token that ends it. -/
theorem content_complete {terminators : List TokenKind} (h : .openReference ∉ terminators) :
    (content terminators).Complete nodeTokens (IsContent terminators) (· ∈ terminators) := by
  rintro nodes ⟨hne, hnodes⟩ rest hrest
  have hdeclines : contentPiece terminators rest = none := by
    cases rest with
    | nil => rfl
    | cons token rest => simp [contentPiece, follows_cons.mp hrest]
  have hmany := ((contentPiece_complete h).readsMany hnodes hdeclines).many_eq
    (contentPiece_consumes terminators)
  rw [← nodeTokens_eq_flatMap] at hmany
  simp [content, hmany, hne]

/-- Without any content in front of a token that ends it, none is read. -/
theorem content_declines {terminators : List TokenKind} {token : Token} {rest : List Token}
    (h : token.kind ∈ terminators) : content terminators (token :: rest) = none := by
  have hdeclines : contentPiece terminators (token :: rest) = none := by simp [contentPiece, h]
  simp [content, Rule.many_eq (contentPiece_consumes terminators), hdeclines]

end Rule

/-- What has been read for nodes that may be missing satisfies the predicate of the rule. -/
theorem Rule.Sound.optional {rule : Rule α} {holds : α → Prop} (h : rule.Sound holds)
    {tokens : List Token} (hreports : (rule.optional tokens).reports = []) :
    ∀ value ∈ (rule.optional tokens).value, holds value := by
  rw [Rule.optional] at hreports ⊢
  split at hreports
  · next parsed hparsed =>
    rintro value hvalue
    obtain rfl := Option.some.inj hvalue
    exact h tokens parsed hparsed hreports
  · simp

/-- The name of an attribute has at least the letters with which it begins. -/
theorem IsAttribute.name_ne_nil {attr : Attribute} (h : IsAttribute attr) : attr.name ≠ [] := by
  obtain ⟨name, equal, openQuote, contents, closeQuote, rfl, hname, -⟩ := h
  rintro rfl
  exact hname

/-- The name of an attribute stands among its tokens. -/
theorem IsAttribute.name_infix {attr : Attribute} (_ : IsAttribute attr) :
    attr.name <:+: attr.tokens := by
  rw [Attribute.tokens_eq]
  simp only [List.append_assoc]
  exact (List.prefix_append _ _).isInfix

/-- An attribute has the tokens of its name. -/
theorem IsAttribute.tokens_ne_nil {attr : Attribute} (h : IsAttribute attr) : attr.tokens ≠ [] :=
  fun hnil => h.name_ne_nil (List.infix_nil.mp (hnil ▸ h.name_infix))

namespace Rule

/-- An attribute without a report has an equals sign and both quotes. -/
theorem attribute_sound : Rule.attribute.Sound IsAttribute := by
  intro tokens parsed h hreports
  simp only [Rule.attribute, Option.map_eq_some_iff] at h
  obtain ⟨name, hname, rfl⟩ := h
  have hsymbol := partialSymbol_sound tokens name hname (reports_partialSymbol hname)
  rw [attributeAssignment] at hreports ⊢
  split at hreports
  · simp at hreports
  next sign hsign =>
  rw [quotedValue] at hreports ⊢
  split at hreports
  · simp at hreports
  next quote hquote =>
  rw [attributeValue] at hreports ⊢
  obtain ⟨hcontents, hclose⟩ := List.append_eq_nil_iff.mp hreports
  rw [reportIf_eq_nil_iff, Option.isNone_eq_false_iff, Option.isSome_iff_exists] at hclose
  obtain ⟨slot, hslot⟩ := hclose
  obtain ⟨closeQuote, -, -, hcloseQuote, rfl, -⟩ := optional_token_eq_some hslot
  obtain ⟨equal, hequal, hsignValue⟩ := token_eq_some hsign
  obtain ⟨openQuote, hopenQuote, hquoteValue⟩ := token_eq_some hquote
  refine ⟨name.value, equal, openQuote, _, closeQuote, ?_, hsymbol, by simpa using hequal,
    by simpa using hopenQuote, by simpa using hcloseQuote,
    (content_sound attributeValueEnds).optional hcontents⟩
  rw [hsignValue, hquoteValue, hslot]

/-- An attribute ends with its quote, so it is read whatever follows. -/
theorem attribute_complete :
    Rule.attribute.Complete Attribute.tokens IsAttribute fun _ => True := by
  rintro attr ⟨name, equal, openQuote, contents, closeQuote, rfl, hname, hequal, hopenQuote,
    hcloseQuote, hcontents⟩ rest -
  have hquote := optional_token (· == .quote) (by simpa using hcloseQuote) rest
  have hends : closeQuote.kind ∈ attributeValueEnds := by simp [hcloseQuote, attributeValueEnds]
  have hvalue : (Rule.content attributeValueEnds).optional
      (nodeTokens (contents.getD []) ++ closeQuote :: rest)
        = ⟨contents, closeQuote :: rest, []⟩ := by
    cases contents with
    | none => simp [optional, content_declines hends]
    | some nodes =>
      have hread := content_complete (by decide) nodes (hcontents nodes rfl) _
        (follows_cons.mpr hends : Follows _ (closeQuote :: rest))
      simp [optional, hread, Parsed.map]
  have hnameEnds : EndsPartial
      (equal :: openQuote :: (nodeTokens (contents.getD []) ++ closeQuote :: rest)) := by
    simp [EndsPartial, continuesSymbol, hequal, TokenKind.isAlphanumeric]
  have hread := partialSymbol_complete name hname _ hnameEnds
  simp only [id] at hread
  simp only [Attribute.tokens_eq, slotTokens_some, List.append_assoc, List.cons_append,
    List.nil_append]
  simp [Rule.attribute, hread, attributeAssignment, Rule.token, hequal, quotedValue, hopenQuote,
    attributeValue, hvalue, hquote, reportIf]

end Rule

end JobMarkup.Grammar
