import JobMarkup.Proofs.ScannedElements

/-!
# Progress of a scanner

A scanner may be asked for any productions in any order. Each scan comes to an end, and where the
scanner stands then is where a reader stands that has been asked for the same. What a scan changes
follows from what its rule consumes: it moves forward if it finds something, and it neither moves nor
reports if it does not, but for the blanks in front of an element.
-/

namespace JobMarkup.Grammar

open JobMarkup.Tree

namespace Scanner

/-- A scanner of a stream after any scans in any order. -/
inductive Reachable (stream : TokenStream) : Scanner → Prop
  | start : Reachable stream {}
  | scan {scanner after : Scanner} {node : Option Node} (production : Production) :
      Reachable stream scanner → (production.scan stream).Ends scanner node after →
        Reachable stream after

end Scanner

namespace Reader

/-- The scanner that stands where a reader stands. -/
def scanner (reader : Reader) : Scanner where
  cursor := .moveTo (reader.stream.tokens.length - reader.rest.length)
  diagnostics := reader.diagnostics

/-- A scan comes to an end, with what a reader reads. -/
theorem Reachable.scan_ends {text : SourceText} {reader : Reader}
    (h : Reachable text.tokens reader) (production : Production) :
    (production.scan text.tokens).Ends reader.scanner (reader.read production).1
      (reader.read production).2.scanner := by
  obtain ⟨stream, rest, diagnostics⟩ := reader
  obtain ⟨rfl, hsuffix⟩ : stream = text.tokens ∧ rest <:+ _ := h.suffix
  have hends := (production.agrees_scan text rest).ends hsuffix diagnostics
  rw [Reader.read]
  cases hread : production.rule rest with
  | none =>
    rw [Rule.attempt_of_none _ hread, List.map_nil, List.append_nil] at hends
    exact hends
  | some parsed =>
    rw [Rule.attempt_of_some _ hread] at hends
    exact hends

end Reader

/-- A scanner stands where some reader stands. -/
theorem Scanner.Reachable.exists_reader {text : SourceText} {scanner : Scanner}
    (h : Scanner.Reachable text.tokens scanner) :
    ∃ reader, Reader.Reachable text.tokens reader ∧ reader.scanner = scanner := by
  induction h with
  | start =>
    refine ⟨_, .start, ?_⟩
    rw [Reader.scanner, Reader.ofStream, Nat.sub_self]
    rfl
  | scan production _ hscan ih =>
    obtain ⟨reader, hreader, rfl⟩ := ih
    exact ⟨_, .read production hreader, ((hreader.scan_ends production).unique hscan).2⟩

/-- Every production but trivia takes at least one token when it gives a node. -/
theorem Production.rule_consumes {production : Production} (h : production ≠ .trivia) :
    production.rule.Consumes := by
  cases production with
  | partialSymbol => exact Rule.partialSymbol_consumes.map _
  | compoundSymbol => exact Rule.compoundSymbol_consumes.map _
  | namespacedSymbol => exact Rule.namespacedSymbol_consumes.map _
  | interpolation => exact Rule.interpolation_consumes.map _
  | content terminators => exact (Rule.content_consumes terminators).map _
  | «attribute» => exact Rule.attribute_consumes.map _
  | closingTag => exact Rule.closingTag_consumes.map _
  | comment => exact Rule.comment_consumes.map _
  | trivia => exact absurd rfl h
  | element => exact (Rule.element_consumes maxDepth).map _
  | document => exact Rule.document_consumes.map _

/-- The production has found something: it has given a node, for trivia one that is not empty. -/
def Production.Finds (production : Production) (node : Option Node) : Prop :=
  if production = .trivia then ∃ nodes, nodes ≠ [] ∧ node = some (.trivia nodes)
  else node.isSome = true

namespace Reader

/-- Where something is found, at least one token is taken. -/
theorem length_rest_of_finds (reader : Reader) {production : Production}
    (h : production.Finds (reader.read production).1) :
    (reader.read production).2.rest.length < reader.rest.length := by
  by_cases htrivia : production = .trivia
  · subst htrivia
    obtain ⟨nodes, hne, hnode⟩ : ∃ nodes, nodes ≠ [] ∧ _ = some (Node.trivia nodes) := h
    obtain rfl : (trivia reader.rest).value = nodes := by
      simpa [read, Production.rule, Parsed.map] using hnode
    exact Rule.trivium_consumes.length_rest_many hne
  · rw [Production.Finds, if_neg htrivia, read] at h
    rw [read]
    cases hread : production.rule reader.rest with
    | none => simp [hread] at h
    | some parsed => exact (Production.rule_consumes htrivia _ parsed hread).2

/-- Where nothing is found, nothing is reported: the production has declined, or there are no
trivia. -/
theorem read_of_not_finds (reader : Reader) {production : Production}
    (h : ¬production.Finds (reader.read production).1) :
    (reader.read production).2
      = { reader with rest := production.restDeclined reader.rest } := by
  by_cases htrivia : production = .trivia
  · subst htrivia
    have hempty : (trivia reader.rest).value = [] :=
      Classical.byContradiction fun hne => h ⟨_, hne, rfl⟩
    have hread : trivia reader.rest = ⟨[], reader.rest, []⟩ :=
      Rule.many_of_nil Rule.trivium_consumes hempty
    simp [read, Production.rule, Production.restDeclined, Parsed.map, hread]
  · rw [Production.Finds, if_neg htrivia, read] at h
    rw [read]
    cases hread : production.rule reader.rest with
    | none => rfl
    | some parsed => simp [hread] at h

end Reader

/-- What is left out where a production declines: blanks, and these only in front of an element. -/
theorem Production.exists_blanks_restDeclined (production : Production) (tokens : List Token) :
    ∃ blanks, (∀ token ∈ blanks, token.isBlank = true)
      ∧ tokens = blanks ++ production.restDeclined tokens
      ∧ (production ≠ .element → production ≠ .document → blanks = []) := by
  have hskip : tokens = tokens.takeWhile Token.isBlank ++ skipBlanks tokens :=
    (List.takeWhile_append_dropWhile).symm
  cases production with
  | element => exact ⟨_, fun _ => List.mem_takeWhile_imp, hskip, fun h => absurd rfl h⟩
  | document => exact ⟨_, fun _ => List.mem_takeWhile_imp, hskip, fun _ h => absurd rfl h⟩
  | _ => exact ⟨[], nofun, rfl, fun _ _ => rfl⟩

/-- Every production keeps its contract. A scanner that has been asked for any productions in any
order is asked for any production. The scan comes to an end. Then the cursor takes in no token beyond
the one that it stands at, the depth is what it was, the cursor has not passed the end of the text,
and the diagnostics begin with those from before. If something has been found, the cursor has moved
forward. If nothing has been found, there is no new diagnostic, and the cursor has moved over blanks
at most, and has not moved at all unless an element or a document was asked for. -/
theorem Production.scan_progress (text : SourceText) {scanner : Scanner}
    (h : Scanner.Reachable text.tokens scanner) (production : Production) :
    ∃ node after, (production.scan text.tokens).Ends scanner node after
      ∧ after.cursor.reach = 0
      ∧ after.depth = scanner.depth
      ∧ after.cursor.position ≤ text.tokens.tokens.length
      ∧ scanner.diagnostics <+: after.diagnostics
      ∧ (production.Finds node → scanner.cursor.position < after.cursor.position)
      ∧ (¬production.Finds node →
          after.diagnostics = scanner.diagnostics
          ∧ ∃ blanks, (∀ token ∈ blanks, token.isBlank = true)
            ∧ blanks <+: text.tokens.tokens.drop scanner.cursor.position
            ∧ after.cursor.position = scanner.cursor.position + blanks.length
            ∧ (production ≠ .element → production ≠ .document → blanks = [])) := by
  obtain ⟨reader, hreader, rfl⟩ := h.exists_reader
  have hafter : Reader.Reachable text.tokens (reader.read production).2 := .read production hreader
  obtain ⟨hstream, hsuffix⟩ := hreader.suffix
  obtain ⟨hstreamAfter, -⟩ := hafter.suffix
  have hle := hsuffix.length_le
  obtain ⟨reports, -, -, hdiagnostics⟩ := reader.read_accounted production
  refine ⟨_, _, hreader.scan_ends production, rfl, rfl, ?_, ?_, fun hfinds => ?_,
    fun hnot => ?_⟩
  · rw [Reader.scanner, hstreamAfter]
    exact Nat.sub_le _ _
  · exact ⟨_, hdiagnostics.symm⟩
  · have hlt := reader.length_rest_of_finds hfinds
    simp only [Reader.scanner, Cursor.moveTo, hstream, hstreamAfter]
    omega
  · obtain ⟨blanks, hblanks, hrest, hnone⟩ := production.exists_blanks_restDeclined reader.rest
    rw [reader.read_of_not_finds hnot]
    refine ⟨rfl, blanks, hblanks, ?_, ?_, hnone⟩
    · have hdrop : text.tokens.tokens.drop
          (text.tokens.tokens.length - reader.rest.length) = reader.rest :=
        (List.suffix_iff_eq_drop.mp hsuffix).symm
      rw [Reader.scanner, hstream, Cursor.moveTo, hdrop]
      exact ⟨_, hrest.symm⟩
    · have hlength := congrArg List.length hrest
      rw [List.length_append] at hlength
      simp only [Reader.scanner, Cursor.moveTo, hstream]
      omega

/-- An element that declines behind blanks, and then a symbol that is found. -/
theorem Production.scan_progress_behindBlanks :
    let text := SourceText.ofString (.ofNat 0) "  x"
    ∃ behind, Scanner.Reachable text.tokens behind ∧ behind.cursor.position = 1
      ∧ ∃ node after, (Production.partialSymbol.scan text.tokens).Ends behind node after
        ∧ Production.partialSymbol.Finds node
        ∧ behind.cursor.position < after.cursor.position := by
  intro text
  let reader := ((Reader.ofStream text.tokens).read .element).2
  have hreader : Reader.Reachable text.tokens reader := .read .element .start
  have hbehind : Scanner.Reachable text.tokens reader.scanner :=
    .scan .element .start (Reader.Reachable.start.scan_ends .element)
  have hposition : reader.scanner.cursor.position = 1 := by decide +kernel
  have hsome : (reader.read .partialSymbol).1.isSome = true := by decide +kernel
  obtain ⟨node, after, hscan, -, -, -, -, hmoved, -⟩ :=
    Production.scan_progress text hbehind .partialSymbol
  have hfinds : Production.partialSymbol.Finds node := by
    rw [(hscan.unique (hreader.scan_ends .partialSymbol)).1]
    exact hsome
  exact ⟨_, hbehind, hposition, node, after, hscan, hfinds, hmoved hfinds⟩

end JobMarkup.Grammar
