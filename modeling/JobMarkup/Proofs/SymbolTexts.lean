import JobMarkup.Proofs.PartialBinding
import JobMarkup.Proofs.ReadNodes
import JobMarkup.Proofs.Reading
import JobMarkup.Proofs.Rereading

/-!
# Symbols and the written form of variables

A symbol is bound by counting its nodes, and the written form of a variable is read by its last
slash. The two agree on all symbols that end in a part, whatever parts are missing in front of it:
the last node is then the key, no slash is in it, and all in front of the slash before it is the
namespace. They disagree on symbols that end in a slash. If such a symbol has an odd number of nodes,
it is bound with the slash as its key, although its text has no key.
-/

namespace JobMarkup.Grammar

open JobMarkup.Tree

/-! ## The end of a symbol -/

variable {delimiter : TokenKind} {isPart : Node → Prop} {nodes : List Node}

/-- Delimiters and their parts end in a delimiter or in a part behind one, if there are any. -/
theorem FollowParts.eq_nil_or_concat (h : FollowParts delimiter isPart nodes) :
    nodes = [] ∨ ∃ before token, token.kind = delimiter
      ∧ (nodes = before ++ [.single [token]]
        ∨ ∃ part, isPart part ∧ nodes = before ++ [.single [token], part]) := by
  induction h with
  | nil => exact Or.inl rfl
  | @missing token rest hkind _ ih =>
    right
    obtain rfl | ⟨before, last, hlast, rfl | ⟨part, hpart, rfl⟩⟩ := ih
    · exact ⟨[], token, hkind, Or.inl rfl⟩
    · exact ⟨.single [token] :: before, last, hlast, Or.inl rfl⟩
    · exact ⟨.single [token] :: before, last, hlast, Or.inr ⟨part, hpart, rfl⟩⟩
  | @part token node rest hkind hnode _ ih =>
    right
    obtain rfl | ⟨before, last, hlast, rfl | ⟨part, hpart, rfl⟩⟩ := ih
    · exact ⟨[], token, hkind, Or.inr ⟨node, hnode, rfl⟩⟩
    · exact ⟨.single [token] :: node :: before, last, hlast, Or.inl rfl⟩
    · exact ⟨.single [token] :: node :: before, last, hlast, Or.inr ⟨part, hpart, rfl⟩⟩

/-- Nodes that are more than one part end in a delimiter, or in a delimiter and a part. -/
theorem HasParts.exists_concat (h : HasParts delimiter isPart nodes) (hlength : nodes.length ≠ 1) :
    ∃ first before token, isPart first ∧ token.kind = delimiter
      ∧ (nodes = first :: before ++ [.single [token]]
        ∨ ∃ part, isPart part ∧ nodes = first :: before ++ [.single [token], part]) := by
  obtain ⟨first, rest, rfl, hfirst, hrest⟩ := h
  obtain rfl | ⟨before, token, hkind, rfl | ⟨part, hpart, rfl⟩⟩ := hrest.eq_nil_or_concat
  · exact absurd rfl hlength
  · exact ⟨first, before, token, hfirst, hkind, Or.inl rfl⟩
  · exact ⟨first, before, token, hfirst, hkind, Or.inr ⟨part, hpart, rfl⟩⟩

/-- What holds of delimiters and of the tokens of parts holds of all tokens. -/
theorem HasParts.forall_tokens (h : HasParts delimiter isPart nodes) (holds : Token → Prop)
    (hdelimiter : ∀ token, token.kind = delimiter → holds token)
    (hpart : ∀ node, isPart node → ∀ token ∈ node.tokens, holds token) :
    ∀ token ∈ nodeTokens nodes, holds token := by
  obtain ⟨first, rest, rfl, hfirst, hrest⟩ := h
  rw [nodeTokens_cons, List.forall_mem_append]
  refine ⟨hpart first hfirst, ?_⟩
  induction hrest with
  | nil => simp
  | missing hkind _ ih =>
    rw [nodeTokens_cons, List.forall_mem_append]
    exact ⟨by simpa using hdelimiter _ hkind, ih⟩
  | part hkind hnode _ ih =>
    rw [nodeTokens_cons, nodeTokens_cons, List.forall_mem_append, List.forall_mem_append]
    exact ⟨by simpa using hdelimiter _ hkind, hpart _ hnode, ih⟩

/-! ## The tokens of a symbol -/

/-- The kinds of the tokens of a compound symbol. -/
def compoundKinds : List TokenKind := [.letters, .digits, .hyphen, .period]

/-- The tokens of a partial symbol are letters, digits and hyphens. -/
theorem kind_mem_of_isPartialSymbol {tokens : List Token} (h : IsPartialSymbol tokens) :
    ∀ token ∈ tokens, token.kind ∈ [TokenKind.letters, .digits, .hyphen] := by
  have htail (tokens : List Token) (h : IsSymbolTail tokens) :
      ∀ token ∈ tokens, token.kind ∈ [TokenKind.letters, .digits, .hyphen] := by
    induction tokens with
    | nil => simp
    | cons token rest ih =>
      obtain ⟨hcontinues, hrest⟩ := h
      refine List.forall_mem_cons.mpr ⟨?_, ih hrest⟩
      rw [continuesSymbol] at hcontinues
      cases hkind : token.kind <;> simp_all [TokenKind.isAlphanumeric]
  cases tokens with
  | nil => simp
  | cons token rest =>
    exact List.forall_mem_cons.mpr ⟨by simp [h.1], htail rest h.2⟩

/-- A compound symbol consists of letters, digits, hyphens and periods. -/
theorem HasCompoundShape.kind_mem {node : Node} (h : HasCompoundShape node) :
    ∀ token ∈ node.tokens, token.kind ∈ compoundKinds := by
  obtain ⟨nodes, rfl, hnodes⟩ := h
  apply hnodes.forall_tokens fun token => token.kind ∈ compoundKinds
  · intro token hkind
    simp [hkind, compoundKinds]
  · rintro node ⟨tokens, rfl, htokens⟩ token hmem
    have hkind := kind_mem_of_isPartialSymbol htokens token hmem
    simp only [List.mem_cons, List.not_mem_nil, or_false] at hkind
    rcases hkind with hkind | hkind | hkind <;> simp [hkind, compoundKinds]

/-- A namespaced symbol consists of compound symbols and slashes. -/
theorem HasSymbolShape.kind_mem (h : HasSymbolShape nodes) :
    ∀ token ∈ nodeTokens nodes, token.kind ∈ .slash :: compoundKinds := by
  apply HasParts.forall_tokens h fun token => token.kind ∈ .slash :: compoundKinds
  · intro token hkind
    simp [hkind]
  · intro node hnode token hmem
    exact List.mem_cons_of_mem _ (hnode.kind_mem token hmem)

/-- A compound symbol has the tokens of its first part. -/
theorem HasCompoundShape.tokens_ne_nil {node : Node} (h : HasCompoundShape node) :
    node.tokens ≠ [] := by
  obtain ⟨nodes, rfl, hnodes⟩ := h
  exact HasCompoundShape.isFilled ⟨nodes, rfl, hnodes⟩ _ (.refl _) rfl

end JobMarkup.Grammar

namespace JobMarkup.SourceText

open JobMarkup.Tree JobMarkup.Grammar JobMarkup.Character

variable {text : SourceText} {tokens : List Token}

/-- A mark in the characters of a symbol, other than a hyphen or a period, is a slash. -/
theorem IsRun.mark_of_mem_charsOf (h : text.IsRun tokens)
    (hkinds : ∀ token ∈ tokens, token.kind ∈ .slash :: compoundKinds) {c : Char}
    (hmark : c ∈ marks) (hc : c ∉ ['-', '.']) (hmem : c ∈ text.charsOf tokens) :
    c = '/' ∧ ∃ token ∈ tokens, token.kind = .slash := by
  obtain ⟨token, htoken, hchar⟩ := List.mem_flatMap.mp hmem
  have hfits := h.fits htoken
  have hclass := class_of_mem_marks hmark
  have hkind := hkinds token htoken
  simp only [compoundKinds, List.mem_cons, List.not_mem_nil, or_false] at hkind hc
  rcases hkind with hkind | hkind | hkind | hkind | hkind <;>
    simp only [hkind, Lexeme.Fits] at hfits
  · exact ⟨by simpa [hfits] using hchar, token, htoken, hkind⟩
  · exact absurd (hfits c hchar) (by simp [hclass])
  · exact absurd (hfits c hchar) (by simp [hclass])
  · exact absurd (by simpa [hfits] using hchar) (not_or.mp hc).1
  · exact absurd (by simpa [hfits] using hchar) (not_or.mp hc).2

/-- No slash is in the characters of a compound symbol. -/
theorem IsRun.slash_not_mem (h : text.IsRun tokens)
    (hkinds : ∀ token ∈ tokens, token.kind ∈ compoundKinds) : '/' ∉ text.charsOf tokens := by
  intro hmem
  obtain ⟨-, token, htoken, hkind⟩ := h.mark_of_mem_charsOf
    (fun token htoken => List.mem_cons_of_mem _ (hkinds token htoken)) (by decide) (by decide) hmem
  exact absurd (hkinds token htoken) (by simp [hkind, compoundKinds])

/-- No equals sign is in the characters of a symbol. -/
theorem IsRun.equal_not_mem (h : text.IsRun tokens)
    (hkinds : ∀ token ∈ tokens, token.kind ∈ .slash :: compoundKinds) :
    '=' ∉ text.charsOf tokens := by
  intro hmem
  obtain ⟨heq, -⟩ := h.mark_of_mem_charsOf hkinds (by decide) (by decide) hmem
  exact absurd heq (by decide)

/-- Tokens of a text have characters, so their text is not empty. -/
theorem IsRun.charsOf_ne_nil (h : text.IsRun tokens) (hne : tokens ≠ []) :
    text.charsOf tokens ≠ [] := by
  obtain ⟨first, rest, rfl⟩ := List.exists_cons_of_ne_nil hne
  simp [text.chars_ne_nil (h.sublist.subset List.mem_cons_self)]

/-- A slash has a slash as its only character. -/
theorem IsRun.charsOf_slash {token : Token} (h : text.IsRun [token]) (hkind : token.kind = .slash) :
    text.charsOf [token] = ['/'] := by
  have hfits := h.fits (List.mem_singleton_self token)
  rw [hkind] at hfits
  simpa [Lexeme.Fits] using hfits

/-- Leaving out tokens between the first and the last of a run does not change what it covers. -/
theorem IsRun.cover_append {first middle last : List Token}
    (h : text.IsRun (first ++ middle ++ last)) (hfirst : first ≠ []) (hlast : last ≠ []) :
    Token.cover (first ++ last) = Token.cover (first ++ middle ++ last) := by
  have hsub : (first ++ last).Sublist (first ++ middle ++ last) :=
    (List.sublist_append_left first middle).append_right last
  rw [text.cover_of_sublist h.sublist (by simp [hfirst]),
    text.cover_of_sublist (hsub.trans h.sublist) (by simp [hfirst])]
  simp [hfirst, hlast]

end JobMarkup.SourceText

namespace JobMarkup.Template

open JobMarkup.Tree JobMarkup.Grammar JobMarkup.Variable

variable {text : SourceText} {nodes : List Tree.Node}

/-! ## The binding of a symbol -/

/-- A symbol spans all tokens from the first of its namespace to the last of its key. -/
theorem span_of_excerpts {init middle last : List Token}
    (hrun : text.IsRun (init ++ middle ++ last)) (hinit : init ≠ []) (hlast : last ≠ []) :
    Token.cover (init ++ middle ++ last)
      = some (Symbol.span ⟨excerptOf text init, excerptOf text last⟩) := by
  have hsub : (init ++ last).Sublist (init ++ middle ++ last) :=
    (List.sublist_append_left init middle).append_right last
  obtain ⟨scope, hscope⟩ := exists_cover (hrun.part ⟨[], middle ++ last, by simp⟩) hinit
  obtain ⟨key, hkey⟩ := exists_cover (hrun.part (List.suffix_append _ last).isInfix) hlast
  rw [← hrun.cover_append hinit hlast, cover_append_eq_span (hsub.trans hrun.sublist) hscope hkey,
    ofSpan_of_cover hscope, ofSpan_of_cover hkey]

/-- The text names the variable that the symbol refers to, unless it ends in a slash. In that case it
names no variable, and the slash has been taken for the key. -/
def Symbol.NamedBy (symbol : Symbol) (written : String) : Prop :=
  if written.toList.getLast? = some '/' then
    symbol.key.text = "/" ∧ Identifier.parse written = .error (.emptyKey written)
  else
    symbol.key.text ≠ "" ∧ '/' ∉ symbol.key.text.toList
      ∧ Identifier.parse written = .ok symbol.identifier

/-- A text with a key behind its last slash names the variable of this key. -/
theorem parse_wording {init key : List Token} {slash : Token}
    (hrun : text.IsRun (init ++ [slash] ++ key)) (hslash : slash.kind = .slash) (hinit : init ≠ [])
    (hkey : key ≠ []) (hkinds : ∀ token ∈ key, token.kind ∈ compoundKinds) :
    Identifier.parse (text.wording (init ++ [slash] ++ key))
      = .ok (Symbol.identifier ⟨excerptOf text init, excerptOf text key⟩) := by
  have hinitRun : text.IsRun init := hrun.part ⟨[], [slash] ++ key, by simp⟩
  have hkeyRun : text.IsRun key := hrun.part (List.suffix_append _ key).isInfix
  have hmark := (hrun.part (List.infix_append init [slash] key)).charsOf_slash hslash
  have hchars : text.charsOf (init ++ [slash] ++ key)
      = text.charsOf init ++ '/' :: text.charsOf key := by
    rw [SourceText.charsOf_append, SourceText.charsOf_append, hmark]
    simp
  rw [SourceText.wording, hchars, Identifier.parse_of_append (hinitRun.charsOf_ne_nil hinit)
    (hkeyRun.charsOf_ne_nil hkey) (hkeyRun.slash_not_mem hkinds), Symbol.identifier,
    text_excerptOf hinitRun hinit, text_excerptOf hkeyRun hkey]
  rfl

/-- A symbol with a key behind its last slash is named by its text. -/
theorem namedBy_key {init key : List Token} {slash : Token}
    (hrun : text.IsRun (init ++ [slash] ++ key)) (hslash : slash.kind = .slash) (hinit : init ≠ [])
    (hkey : key ≠ []) (hkinds : ∀ token ∈ key, token.kind ∈ compoundKinds) :
    Symbol.NamedBy ⟨excerptOf text init, excerptOf text key⟩
      (text.wording (init ++ [slash] ++ key)) := by
  have hkeyRun : text.IsRun key := hrun.part (List.suffix_append _ key).isInfix
  have hne := hkeyRun.charsOf_ne_nil hkey
  have hnone := hkeyRun.slash_not_mem hkinds
  have hend : (text.charsOf (init ++ [slash] ++ key)).getLast? ≠ some '/' := by
    rw [SourceText.charsOf_append, List.getLast?_append_of_ne_nil _ hne]
    exact fun hlast => hnone (List.mem_of_getLast? hlast)
  rw [Symbol.NamedBy, if_neg (by rwa [SourceText.wording, String.toList_ofList]),
    parse_wording hrun hslash hinit hkey hkinds, text_excerptOf hkeyRun hkey, SourceText.wording,
    String.toList_ofList]
  exact ⟨by simpa using hne, hnone, rfl⟩

/-- A symbol that ends in a slash is named by its text, with the slash as its key. -/
theorem namedBy_slash {init middle : List Token} {slash : Token}
    (hrun : text.IsRun (init ++ middle ++ [slash])) (hslash : slash.kind = .slash)
    (hinit : init ≠ []) :
    Symbol.NamedBy ⟨excerptOf text init, excerptOf text [slash]⟩
      (text.wording (init ++ middle ++ [slash])) := by
  have hslashRun : text.IsRun [slash] := hrun.part (List.suffix_append _ [slash]).isInfix
  have hfront : text.IsRun (init ++ middle) := hrun.part (List.prefix_append _ [slash]).isInfix
  have hne := hfront.charsOf_ne_nil (by simp [hinit])
  have hmark := hslashRun.charsOf_slash hslash
  have hchars : text.charsOf (init ++ middle ++ [slash])
      = text.charsOf (init ++ middle) ++ ['/'] := by
    rw [SourceText.charsOf_append, hmark]
  rw [Symbol.NamedBy, SourceText.wording, String.toList_ofList, hchars, if_pos (by simp),
    Identifier.parse_of_slash_end hne, text_excerptOf hslashRun (List.cons_ne_nil _ _),
    SourceText.wording, hmark]
  exact ⟨rfl, rfl⟩

/-- Nodes in odd number, the last one of which names the key. -/
theorem bindSymbol_of_namedBy {init : List Tree.Node} {middle last : Tree.Node}
    (hodd : init.length % 2 = 1) (hrun : text.IsRun (nodeTokens (init ++ [middle, last])))
    (hinit : nodeTokens init ≠ []) (hlast : last.tokens ≠ [])
    (hnamed : Symbol.NamedBy ⟨excerptOf text (nodeTokens init), excerptOf text last.tokens⟩
      (text.wording (nodeTokens init ++ middle.tokens ++ last.tokens))) {span : Span}
    (hspan : Token.cover (nodeTokens (init ++ [middle, last])) = some span) :
    ∃ symbol, bindSymbol text (init ++ [middle, last]) = ⟨some symbol, [], [symbol.reference]⟩
      ∧ symbol.span = span
      ∧ symbol.NamedBy (text.wording (nodeTokens (init ++ [middle, last]))) := by
  have htokens : nodeTokens (init ++ [middle, last])
      = nodeTokens init ++ middle.tokens ++ last.tokens := by simp
  refine ⟨_, bindSymbol_concat hodd hrun hinit hlast, ?_, by rwa [htokens]⟩
  rw [htokens] at hrun hspan
  exact Option.some.inj ((span_of_excerpts hrun hinit hlast).symm.trans hspan)

/-- The nodes of a symbol that is read are counted. If there are an odd number of them and at least
three, they are bound to a symbol; else the symbol is reported and nothing is found. -/
theorem bindSymbol_of_shape (hshape : HasSymbolShape nodes)
    (hrun : text.IsRun (nodeTokens nodes)) :
    ∃ span, Token.cover (nodeTokens nodes) = some span
      ∧ text.extract span = .ok (text.wording (nodeTokens nodes)).toList
      ∧ if nodes.length % 2 = 1 ∧ 3 ≤ nodes.length then
          ∃ symbol, bindSymbol text nodes = ⟨some symbol, [], [symbol.reference]⟩
            ∧ symbol.span = span ∧ symbol.NamedBy (text.wording (nodeTokens nodes))
        else bindSymbol text nodes = ⟨none, [⟨.binding .malformedSymbol, span⟩], []⟩ := by
  have hne : nodeTokens nodes ≠ [] := hshape.isFilled _ (.refl _) rfl
  obtain ⟨span, hcover, hextract⟩ := hrun.extract_cover hne
  refine ⟨span, hcover, by rwa [SourceText.wording, String.toList_ofList], ?_⟩
  split
  · next hlength =>
    obtain ⟨first, before, slash, hfirst, hslash, rfl | ⟨key, hkey, rfl⟩⟩ :=
      HasParts.exists_concat hshape (by omega)
    · -- the node in front of the slash at the end belongs to neither part of the symbol
      have hbefore : before ≠ [] := by
        rintro rfl
        simp at hlength
      obtain ⟨inner, middle, rfl⟩ : ∃ inner middle, before = inner ++ [middle] :=
        ⟨_, _, (List.dropLast_append_getLast hbefore).symm⟩
      have hinit : nodeTokens (first :: inner) ≠ [] := by simp [hfirst.tokens_ne_nil]
      have hnodes : first :: (inner ++ [middle]) ++ [.single [slash]]
          = first :: inner ++ [middle, .single [slash]] := by simp
      rw [hnodes] at hlength hrun hcover ⊢
      apply bindSymbol_of_namedBy _ hrun hinit (List.cons_ne_nil _ _) _ hcover
      · simp only [List.length_append, List.length_cons, List.length_nil] at hlength ⊢
        omega
      · exact namedBy_slash (by simpa using hrun) hslash hinit
    · have hinit : nodeTokens (first :: before) ≠ [] := by simp [hfirst.tokens_ne_nil]
      apply bindSymbol_of_namedBy _ hrun hinit hkey.tokens_ne_nil _ hcover
      · simp only [List.length_append, List.length_cons, List.length_nil] at hlength ⊢
        omega
      · exact namedBy_key (by simpa using hrun) hslash hinit hkey.tokens_ne_nil hkey.kind_mem
  · next hlength =>
    rw [bindSymbol, if_neg hlength, Bound.faultAbout, hcover]
    rfl

end JobMarkup.Template

namespace JobMarkup.Grammar.Reader

open JobMarkup.Template JobMarkup.Variable

/-- The tokens of a symbol that a reader of a text gives stand in the text one behind the other. -/
theorem isRun_of_namespacedSymbol {text : SourceText} {reader : Reader}
    (hreader : Reachable text.tokens reader) {production : Production} {whole : Tree.Node}
    (hwhole : (reader.read production).1 = some whole) {nodes : List Tree.Node}
    (hnode : (Tree.Node.namespacedSymbol nodes).Within whole) :
    HasSymbolShape nodes ∧ text.IsRun (Tree.nodeTokens nodes) := by
  have hread : Rule.namespacedSymbol.ReadsIn reader.rest nodes := (Reader.readIn hwhole).within hnode
  exact ⟨hread.holds Rule.namespacedSymbol_yields,
    (hread.isInfix Rule.namespacedSymbol_exact).trans hreader.suffix.2.isInfix⟩

/-- A reader of a text gives a tree with a symbol somewhere in it, complete or not. Binding it in a
context of the text finds one of two things. An even number of nodes or a single one is reported as
malformed at the span of the symbol, and the references stay as they are. Otherwise there is no
report, and the variable of the symbol is used at this span. If the text of the span does not end in
a slash, it is the written form of this variable, and the key is there and has no slash in it. If it
ends in a slash, it is the written form of no variable, and the key is the slash. -/
theorem bind_namespacedSymbol {text : SourceText} {reader : Reader}
    (hreader : Reachable text.tokens reader) {production : Production} {whole : Tree.Node}
    (hwhole : (reader.read production).1 = some whole) {nodes : List Tree.Node}
    (hnode : (Tree.Node.namespacedSymbol nodes).Within whole) {context : Context}
    (hcontext : context.text = text) :
    ∃ span written, (Tree.Node.namespacedSymbol nodes).span = some span
      ∧ text.extract span = .ok written.toList
      ∧ if nodes.length % 2 = 1 ∧ 3 ≤ nodes.length then
          ∃ symbol, symbol.span = span
            ∧ context.bind (.namespacedSymbol nodes)
              = (some (.symbol symbol),
                { context with references := context.references.add ⟨symbol.identifier, span⟩ })
            ∧ if written.toList.getLast? = some '/' then
                symbol.key.text = "/" ∧ Identifier.parse written = .error (.emptyKey written)
              else
                symbol.key.text ≠ "" ∧ '/' ∉ symbol.key.text.toList
                  ∧ Identifier.parse written = .ok symbol.identifier
        else
          context.bind (.namespacedSymbol nodes)
            = (none, { context with
                diagnostics := context.diagnostics ++ [⟨.binding .malformedSymbol, span⟩] }) := by
  obtain ⟨hshape, hrun⟩ := isRun_of_namespacedSymbol hreader hwhole hnode
  obtain ⟨span, hcover, hextract, hbound⟩ := bindSymbol_of_shape hshape hrun
  subst hcontext
  refine ⟨span, _, hcover, hextract, ?_⟩
  split
  · next hlength =>
    rw [if_pos hlength] at hbound
    obtain ⟨symbol, hsymbol, rfl, hnamed⟩ := hbound
    refine ⟨symbol, rfl, ?_, hnamed⟩
    simp [Context.bind, Context.bindPart, hsymbol, Context.record]
    rfl
  · next hlength =>
    rw [if_neg hlength] at hbound
    simp [Context.bind, Context.bindPart, hbound, Context.record]

/-- A symbol in which two parts are missing. -/
theorem bind_namespacedSymbol_missing :
    let text := SourceText.ofString (.ofNat 0) "a//b//c"
    ∃ nodes symbol written, ((Reader.ofStream text.tokens).read .namespacedSymbol).1
        = some (.namespacedSymbol nodes)
      ∧ ((Context.ofText text).bind (.namespacedSymbol nodes)).1 = some (.symbol symbol)
      ∧ text.extract symbol.span = .ok written.toList
      ∧ Identifier.parse written = .ok symbol.identifier := by
  intro text
  have hcount : (Rule.namespacedSymbol text.tokens.tokens).map (fun parsed =>
      (parsed.value.length, (text.extract (text.tokens.spanOf (Tree.nodeTokens parsed.value))).toOption))
        = some (7, some "a//b//c".toList) := by
    decide +kernel
  obtain ⟨parsed, hparsed, hcount⟩ := Option.map_eq_some_iff.mp hcount
  obtain ⟨hlength, hchars⟩ := Prod.mk.inj hcount
  have hwhole : ((Reader.ofStream text.tokens).read .namespacedSymbol).1
      = some (.namespacedSymbol parsed.value) := by
    simp [read, Production.rule, Reader.ofStream, Rule.map, hparsed, Parsed.map]
  obtain ⟨span, written, hspan, hextract, hbound⟩ := bind_namespacedSymbol .start hwhole (.refl _)
    (rfl : (Context.ofText text).text = text)
  have hcover : text.tokens.spanOf (Tree.nodeTokens parsed.value) = span := by
    have hcover : Token.cover (Tree.nodeTokens parsed.value) = some span := hspan
    rw [TokenStream.spanOf, hcover]
    rfl
  rw [hcover, hextract] at hchars
  obtain rfl : written = "a//b//c" := String.toList_injective (Option.some.inj hchars)
  rw [if_pos (by omega)] at hbound
  obtain ⟨symbol, rfl, hbind, hnamed⟩ := hbound
  rw [if_neg (by decide)] at hnamed
  exact ⟨parsed.value, symbol, _, hwhole, by rw [hbind], hextract, hnamed.2.2⟩

/-- Not every symbol that is bound has the written form of its variable as its text: the second slash
of `a//` becomes the key. -/
theorem not_forall_parse_eq_identifier :
    ¬∀ (text : SourceText) (reader : Reader) (production : Production) (whole : Tree.Node)
      (nodes : List Tree.Node) (symbol : Symbol), Reachable text.tokens reader →
      (reader.read production).1 = some whole → (Tree.Node.namespacedSymbol nodes).Within whole →
      (bindSymbol text nodes).value = some symbol →
      ∃ written : String, text.extract symbol.span = .ok written.toList
        ∧ Identifier.parse written = .ok symbol.identifier := by
  intro h
  have hbound : (Rule.namespacedSymbol (SourceText.ofString (.ofNat 0) "a//").tokens.tokens).map
      (fun parsed => (bindSymbol (SourceText.ofString (.ofNat 0) "a//") parsed.value).value.map
        fun symbol =>
          ((SourceText.ofString (.ofNat 0) "a//").extract symbol.span).toOption)
      = some (some (some "a//".toList)) := by
    decide +kernel
  obtain ⟨parsed, hparsed, hbound⟩ := Option.map_eq_some_iff.mp hbound
  obtain ⟨symbol, hsymbol, hchars⟩ := Option.map_eq_some_iff.mp hbound
  obtain ⟨written, hextract, hparse⟩ := h _ (.ofStream _) .namespacedSymbol _ parsed.value symbol
    .start (by simp [read, Production.rule, Reader.ofStream, Rule.map, hparsed, Parsed.map])
    (.refl _) hsymbol
  rw [hextract] at hchars
  obtain rfl : written = "a//" := String.toList_injective (Option.some.inj hchars)
  exact absurd hparse (by
    have hkey : Identifier.parse "a//" = .error (.emptyKey "a//") := by decide +kernel
    rw [hkey]
    simp)

end JobMarkup.Grammar.Reader
