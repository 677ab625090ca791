import JobMarkup.Proofs.DocumentNames
import JobMarkup.Proofs.LineModel
import JobMarkup.SourceText.Loader
import Mathlib.Logic.Equiv.Basic

/-!
# Styles of line ends

A line can end in a line feed, in a carriage return, or in a return and a feed. Loading a text is the
same as replacing first every return and feed, then every other return by a feed, and cutting the
result behind its feeds. It does so in one pass.

Two contents are loaded to the same lines if and only if they are the same up to the style of their
line ends. So they compile to the same under one name, and to the same but for the name in the spans
under two.
-/

namespace JobMarkup.SourceText

/-- Replace every occurrence of a pattern, from left to right, having passed over all but `passing`
characters of the last occurrence. -/
def replaceFrom (pattern replacement : List Char) : (passing : Nat) → List Char → List Char
  | _, [] => []
  | passing + 1, _ :: rest => replaceFrom pattern replacement passing rest
  | 0, c :: rest =>
    if pattern.isPrefixOf (c :: rest) then
      replacement ++ replaceFrom pattern replacement (pattern.length - 1) rest
    else c :: replaceFrom pattern replacement 0 rest

/-- Replace every occurrence of a pattern that is not empty. -/
def replaceAll (pattern replacement : List Char) : List Char → List Char :=
  replaceFrom pattern replacement 0

/-- The styles of line ends. -/
inductive LineEnd where
  | feed
  | carriageReturn
  | returnAndFeed
deriving DecidableEq

/-- The characters of a line end. -/
def LineEnd.chars : LineEnd → List Char
  | feed => ['\n']
  | carriageReturn => ['\r']
  | returnAndFeed => ['\r', '\n']

/-- The line end can stand in front of the characters. A return and a feed behind it are one
line end. -/
def LineEnd.StandsBefore : LineEnd → List Char → Prop
  | carriageReturn, rest => rest.head? ≠ some '\n'
  | feed, _ | returnAndFeed, _ => True

/-- Two contents have the same characters in their lines. Their line ends may have any style. -/
inductive SameUpToLineEnds : List Char → List Char → Prop
  | nil : SameUpToLineEnds [] []
  | char {c : Char} {first second : List Char} : c ≠ '\r' → c ≠ '\n' →
      SameUpToLineEnds first second → SameUpToLineEnds (c :: first) (c :: second)
  | lineEnd (one other : LineEnd) {first second : List Char} :
      one.StandsBefore first → other.StandsBefore second → SameUpToLineEnds first second →
        SameUpToLineEnds (one.chars ++ first) (other.chars ++ second)

/-- A carriage return that no line feed follows, as the cases of a loop tell it. -/
theorem standsBefore_carriageReturn {rest : List Char}
    (h : ∀ behind, rest = '\n' :: behind → False) : LineEnd.carriageReturn.StandsBefore rest := by
  rintro hhead
  obtain ⟨behind, rfl⟩ := List.head?_eq_some_iff.mp hhead
  exact h behind rfl

/-! ## Loading in one pass -/

/-- What a loader gives are its lines, and the lines of all characters behind them. -/
theorem load_eq (loader : Loader) (cs : List Char) (h : '\n' ∉ loader.begun) :
    loader.load cs = loader.lines ++ splitLines (loader.begun ++ normalizeLineEnds cs) := by
  -- all three line ends do the same to the loader; they differ in what they leave ahead
  have hended (loader : Loader) (h : '\n' ∉ loader.begun) (rest : List Char) :
      loader.endLine.lines ++ splitLines (loader.endLine.begun ++ rest)
        = loader.lines ++ splitLines (loader.begun ++ '\n' :: rest) := by
    rw [splitLines_append_newline h]
    simp [Loader.endLine]
  fun_induction Loader.load loader cs with
  | case1 loader =>
    rw [Loader.finish, normalizeLineEnds, List.append_nil]
    split
    · next hempty => simp [List.isEmpty_iff.mp hempty, splitLines]
    · next hbegun =>
      rw [splitLines_of_newline_not_mem (mt List.isEmpty_iff.mpr hbegun) h]
  | case2 loader rest ih =>
    rw [ih (by simp [Loader.endLine]), hended loader h, normalizeLineEnds_cons (by decide)]
  | case3 loader rest ih =>
    rw [ih (by simp [Loader.endLine]), hended loader h, normalizeLineEnds]
  | case4 loader rest hfeed ih =>
    rw [ih (by simp [Loader.endLine]), hended loader h,
      normalizeLineEnds_return (standsBefore_carriageReturn hfeed)]
  | case5 loader c rest hfeed _ hreturn ih =>
    have hbegun : '\n' ∉ (loader.push c).begun := by
      simpa [Loader.push, h] using fun heq => hfeed heq.symm
    rw [ih hbegun, normalizeLineEnds_cons (fun heq => hreturn heq)]
    simp [Loader.push]

/-! ## Replacing line ends -/

/-- Where the pattern does not begin, the first character stays and the replacing goes on behind it. -/
theorem replaceAll_cons {pattern replacement : List Char} {c : Char} {rest : List Char}
    (h : ¬ pattern <+: c :: rest) :
    replaceAll pattern replacement (c :: rest) = c :: replaceAll pattern replacement rest := by
  rw [replaceAll, replaceFrom, if_neg (mt List.isPrefixOf_iff_prefix.mp h)]

/-- Each carriage return is replaced on its own. -/
theorem replaceAll_return (replacement rest : List Char) :
    replaceAll ['\r'] replacement ('\r' :: rest) = replacement ++ replaceAll ['\r'] replacement rest :=
  rfl

/-- A return and the feed behind it are replaced together, and the replacing goes on behind both. -/
theorem replaceAll_returnAndFeed (replacement rest : List Char) :
    replaceAll ['\r', '\n'] replacement ('\r' :: '\n' :: rest)
      = replacement ++ replaceAll ['\r', '\n'] replacement rest :=
  rfl

/-- Making line ends alike in one pass is the same as two replacements one after the other. -/
theorem normalizeLineEnds_eq_replaceAll (cs : List Char) :
    normalizeLineEnds cs = replaceAll ['\r'] ['\n'] (replaceAll ['\r', '\n'] ['\n'] cs) := by
  fun_induction normalizeLineEnds cs with
  | case1 => rfl
  | case2 rest ih =>
    rw [replaceAll_returnAndFeed, List.singleton_append, replaceAll_cons (by simp), ih]
  | case3 rest hfeed ih =>
    have hpattern : ¬ ['\r', '\n'] <+: '\r' :: rest := by
      rintro ⟨behind, heq⟩
      exact hfeed behind (List.cons.inj heq).2.symm
    rw [replaceAll_cons hpattern, replaceAll_return, List.singleton_append, ih]
  | case4 c rest _ hreturn ih =>
    have hc : '\r' ≠ c := fun heq => hreturn heq.symm
    rw [replaceAll_cons (by simp [hc]), replaceAll_cons (by simp [hc]), ih]

/-! ## The number of lines -/

/-- There are as many lines as line feeds, and one more if characters stand behind the last one. -/
theorem length_splitLines (cs : List Char) :
    (splitLines cs).length
      = cs.count '\n' + if cs ≠ [] ∧ cs.getLast? ≠ some '\n' then 1 else 0 := by
  fun_induction splitLines cs with
  | case1 => rfl
  | case2 rest ih =>
    cases rest with
    | nil => rfl
    | cons d rest =>
      rw [List.length_cons, ih, List.count_cons_self, List.getLast?_cons_cons]
      simp only [ne_eq, reduceCtorEq, not_false_eq_true, true_and]
      omega
  | case3 c rest hc hnil ih =>
    have hrest : rest = [] := by rw [← flatten_splitLines rest, hnil, List.flatten_nil]
    have hc : c ≠ '\n' := fun heq => hc heq
    simp [hrest, hc]
  | case4 c rest hc line lines hlines ih =>
    have hc : c ≠ '\n' := fun heq => hc heq
    cases rest with
    | nil => simp [splitLines] at hlines
    | cons d rest =>
      rw [hlines] at ih
      rw [List.length_cons, ← List.length_cons (a := line), ih, List.count_cons_of_ne hc,
        List.getLast?_cons_cons]
      simp only [ne_eq, reduceCtorEq, not_false_eq_true, true_and]

/-! ## Contents that are the same up to their line ends -/

/-- A line end of any style becomes one line feed, if it is not the front of a longer one. -/
theorem normalizeLineEnds_lineEnd {style : LineEnd} {rest : List Char}
    (h : style.StandsBefore rest) :
    normalizeLineEnds (style.chars ++ rest) = '\n' :: normalizeLineEnds rest := by
  cases style with
  | feed => exact normalizeLineEnds_cons (by decide) rest
  | carriageReturn => exact normalizeLineEnds_return h
  | returnAndFeed => rfl

/-- What normalized contents begin with is a character that was there, or one of the line ends. -/
theorem exists_of_normalizeLineEnds_eq_cons {cs rest : List Char} {c : Char}
    (h : normalizeLineEnds cs = c :: rest) :
    ∃ behind, normalizeLineEnds behind = rest
      ∧ (c ≠ '\n' ∧ cs = c :: behind
        ∨ c = '\n' ∧ ∃ style : LineEnd, cs = style.chars ++ behind ∧ style.StandsBefore behind) := by
  fun_cases normalizeLineEnds cs with
  | case1 => simp [normalizeLineEnds] at h
  | case2 behind =>
    rw [normalizeLineEnds] at h
    obtain ⟨rfl, hrest⟩ := List.cons.inj h
    exact ⟨behind, hrest, Or.inr ⟨rfl, .returnAndFeed, rfl, trivial⟩⟩
  | case3 behind hfeed =>
    have hstands := standsBefore_carriageReturn hfeed
    rw [normalizeLineEnds_return hstands] at h
    obtain ⟨rfl, hrest⟩ := List.cons.inj h
    exact ⟨behind, hrest, Or.inr ⟨rfl, .carriageReturn, rfl, hstands⟩⟩
  | case4 d behind _ hreturn =>
    rw [normalizeLineEnds_cons (fun heq => hreturn heq)] at h
    obtain ⟨rfl, hrest⟩ := List.cons.inj h
    refine ⟨behind, hrest, ?_⟩
    by_cases hfeed : d = '\n'
    · exact Or.inr ⟨hfeed, .feed, by rw [hfeed]; rfl, trivial⟩
    · exact Or.inl ⟨hfeed, rfl⟩

/-- Contents are the same up to their line ends if and only if making these alike gives the same. -/
theorem sameUpToLineEnds_iff {first second : List Char} :
    SameUpToLineEnds first second ↔ normalizeLineEnds first = normalizeLineEnds second := by
  constructor
  · intro h
    induction h with
    | nil => rfl
    | char hreturn _ _ ih => rw [normalizeLineEnds_cons hreturn, normalizeLineEnds_cons hreturn, ih]
    | lineEnd one other hone hother _ ih =>
      rw [normalizeLineEnds_lineEnd hone, normalizeLineEnds_lineEnd hother, ih]
  · intro h
    generalize hcs : normalizeLineEnds first = cs at h
    induction cs generalizing first second with
    | nil =>
      have hnil {contents : List Char} (h : normalizeLineEnds contents = []) : contents = [] := by
        by_contra hne
        exact normalizeLineEnds_ne_nil hne h
      rw [hnil hcs, hnil h.symm]
      exact .nil
    | cons c rest ih =>
      have hreturn : c ≠ '\r' := by
        rintro rfl
        exact return_not_mem_normalizeLineEnds first (hcs ▸ List.mem_cons_self)
      -- one and the same character begins both, so either both have a line end there or none has
      obtain ⟨a, ha, ⟨hfeed, rfl⟩ | ⟨rfl, one, rfl, hone⟩⟩ :=
        exists_of_normalizeLineEnds_eq_cons hcs <;>
        obtain ⟨b, hb, ⟨hfeed', rfl⟩ | ⟨hfeed', other, rfl, hother⟩⟩ :=
          exists_of_normalizeLineEnds_eq_cons h.symm
      · exact .char hreturn hfeed (ih ha hb.symm)
      · exact absurd hfeed' hfeed
      · exact absurd rfl hfeed'
      · exact .lineEnd one other hone hother (ih ha hb.symm)

/-! ## Texts -/

/-- Loading two contents under one name gives one text if and only if they are the same up to their
line ends. -/
theorem ofString_eq_iff (document : DocumentId) {first second : String} :
    ofString document first = ofString document second
      ↔ SameUpToLineEnds first.toList second.toList := by
  rw [sameUpToLineEnds_iff]
  constructor
  · intro h
    rw [← chars_ofString document first, h, chars_ofString]
  · intro h
    rw [ofString, ofString, h]

/-- Loading the contents of a loaded text gives its lines once more. -/
theorem lines_ofString_contents (document other : DocumentId) (written : String) :
    (ofString other (ofString document written).contents).lines
      = (ofString document written).lines := by
  have hchars : normalizeLineEnds (ofString document written).chars
      = normalizeLineEnds written.toList := by
    rw [chars_ofString, normalizeLineEnds_eq_self (return_not_mem_normalizeLineEnds _)]
  rw [ofString, contents, String.toList_ofList, hchars, ofString]

/-- A text has a line for each line feed, and one more if something stands behind the last of them. -/
theorem lineCount_ofString (document : DocumentId) (written : String) :
    (ofString document written).lineCount = (ofString document written).chars.count '\n'
      + if (ofString document written).chars ≠ []
          ∧ (ofString document written).chars.getLast? ≠ some '\n' then 1 else 0 := by
  rw [chars_ofString]
  exact length_splitLines _

/-- A text under any other name is the text renamed. -/
theorem exists_rename (document other : DocumentId) (written : String) :
    ∃ r : DocumentId → DocumentId, r.Injective
      ∧ ofString other written = (ofString document written).rename r :=
  ⟨Equiv.swap document other, (Equiv.swap document other).injective, by
    simp only [ofString, rename, Equiv.swap_apply_left]⟩

/-- Loading writes every line end as one line feed, in one pass as in two replacements, and cuts
behind the line feeds; a second time it changes nothing. Contents that are the same up to their line
ends compile to the same under one name, and under two names to the same but for the names in the
spans, so they are written and highlighted alike. -/
theorem ofString_normalizes (document : DocumentId) (written : String) :
    let text := ofString document written
    Loader.load {} written.toList = text.lines
      ∧ text.lines.flatten
        = replaceAll ['\r'] ['\n'] (replaceAll ['\r', '\n'] ['\n'] written.toList)
      ∧ (∀ line ∈ text.lines, line ≠ [] ∧ '\n' ∉ line.dropLast)
      ∧ (∀ line ∈ text.lines.dropLast, line.getLast? = some '\n')
      ∧ text.lineCount = text.chars.count '\n'
        + (if text.chars ≠ [] ∧ text.chars.getLast? ≠ some '\n' then 1 else 0)
      ∧ (∀ other, (ofString other text.contents).lines = text.lines)
      ∧ ∀ rewritten : String,
        (SameUpToLineEnds written.toList rewritten.toList
          ↔ (ofString document rewritten).lines = text.lines)
        ∧ (SameUpToLineEnds written.toList rewritten.toList →
          (ofString document rewritten).compile = text.compile
          ∧ (∀ r : DocumentId → DocumentId, r.Injective →
            (ofString (r document) rewritten).compile = text.compile.rename r)
          ∧ ∀ other,
            (∀ values, (ofString other rewritten).compile.instantiate values
              = text.compile.instantiate values)
            ∧ (ofString other rewritten).compile.highlights = text.compile.highlights) := by
  have hcanonical := areCanonical_splitLines (normalizeLineEnds written.toList)
  have hload := load_eq {} written.toList (by simp)
  refine ⟨hload, ?_, hcanonical.isLine, hcanonical.isEnded, lineCount_ofString document written,
    fun other => lines_ofString_contents document other written,
    fun rewritten => ⟨?_, fun hsame => ?_⟩⟩
  · exact (chars_ofString document written).trans (normalizeLineEnds_eq_replaceAll _)
  · rw [← ofString_eq_iff document, eq_comm]
    exact ⟨congrArg lines, fun hlines => congrArg (SourceText.mk document) hlines⟩
  · have htext := (ofString_eq_iff document).mpr hsame
    refine ⟨by rw [htext], fun r hr => ?_, fun other => ?_⟩
    · rw [← compile_rename hr, htext]
      rfl
    · obtain ⟨r, hr, hother⟩ := exists_rename document other rewritten
      rw [hother, compile_rename hr, ← htext]
      exact ⟨fun values => Compilation.instantiate_rename _ values,
        Compilation.highlights_rename hr _⟩

/-- Two texts of a document with all styles of line ends, mixed in two ways. -/
theorem ofString_normalizes_mixedStyles :
    SameUpToLineEnds "<job>\r\r\n <a/>\n\r</job>\r".toList "<job>\n\r <a/>\r\n\n</job>\r\n".toList
      ∧ (ofString (.ofNat 0) "<job>\n\r <a/>\r\n\n</job>\r\n").compile
        = (ofString (.ofNat 0) "<job>\r\r\n <a/>\n\r</job>\r").compile
      ∧ (ofString (.ofNat 1) "<job>\n\r <a/>\r\n\n</job>\r\n").compile.highlights
        = (ofString (.ofNat 0) "<job>\r\r\n <a/>\n\r</job>\r").compile.highlights := by
  have hsame : SameUpToLineEnds "<job>\r\r\n <a/>\n\r</job>\r".toList
      "<job>\n\r <a/>\r\n\n</job>\r\n".toList := sameUpToLineEnds_iff.mpr (by decide +kernel)
  obtain ⟨-, -, -, -, -, -, hrewritten⟩ :=
    ofString_normalizes (.ofNat 0) "<job>\r\r\n <a/>\n\r</job>\r"
  obtain ⟨hcompile, -, hother⟩ :=
    (hrewritten "<job>\n\r <a/>\r\n\n</job>\r\n").2 hsame
  exact ⟨hsame, hcompile, (hother (.ofNat 1)).2⟩

end JobMarkup.SourceText
