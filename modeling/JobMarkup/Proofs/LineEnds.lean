import JobMarkup.Proofs.LayoutReading

/-!
# Line ends

Reading a text makes its line ends alike. Names, keys and values that can be read have no carriage
returns, so only the blanks and comments of a layout change, and what comes out is a layout of the
same outline.
-/

namespace JobMarkup

open Character

namespace SourceText

/-- The line ends of two texts are made alike one by one, unless one line end lies across the
border. -/
theorem normalizeLineEnds_append {a b : List Char}
    (h : a.getLast? ≠ some '\r' ∨ b.head? ≠ some '\n') :
    normalizeLineEnds (a ++ b) = normalizeLineEnds a ++ normalizeLineEnds b := by
  fun_induction normalizeLineEnds a with
  | case1 => rfl
  | case2 rest ih =>
    have hrest : rest.getLast? ≠ some '\r' ∨ b.head? ≠ some '\n' := by
      refine h.imp_left fun hlast hrest => hlast ?_
      simp [List.getLast?_cons, hrest]
    rw [List.cons_append, List.cons_append, normalizeLineEnds, ih hrest]
    rfl
  | case3 rest hnewline ih =>
    -- the line end is complete, so no line feed may follow from behind the border
    have hhead : (rest ++ b).head? ≠ some '\n' := by
      cases rest with
      | nil => simpa using h
      | cons d rest =>
        rintro heq
        obtain rfl : d = '\n' := by simpa using heq
        exact hnewline rest rfl
    have hrest : rest.getLast? ≠ some '\r' ∨ b.head? ≠ some '\n' := by
      refine h.imp_left fun hlast hrest => hlast ?_
      simp [List.getLast?_cons, hrest]
    rw [List.cons_append, normalizeLineEnds_return hhead, ih hrest]
    rfl
  | case4 c rest _ hreturn ih =>
    have hrest : rest.getLast? ≠ some '\r' ∨ b.head? ≠ some '\n' := by
      refine h.imp_left fun hlast hrest => hlast ?_
      simp [List.getLast?_cons, hrest]
    rw [List.cons_append, normalizeLineEnds_cons (fun heq => hreturn heq), ih hrest]
    rfl

/-- All characters but line feeds have been there before. -/
theorem eq_or_mem_of_mem_normalizeLineEnds {c : Char} {cs : List Char}
    (h : c ∈ normalizeLineEnds cs) : c = '\n' ∨ c ∈ cs := by
  fun_induction normalizeLineEnds cs with
  | case1 => simp at h
  | case2 rest ih =>
    rcases List.mem_cons.mp h with rfl | hmem
    · exact Or.inl rfl
    · exact (ih hmem).imp_right fun hrest => by simp [hrest]
  | case3 rest _ ih =>
    rcases List.mem_cons.mp h with rfl | hmem
    · exact Or.inl rfl
    · exact (ih hmem).imp_right (List.mem_cons_of_mem _)
  | case4 d rest _ _ ih =>
    rcases List.mem_cons.mp h with rfl | hmem
    · exact Or.inr List.mem_cons_self
    · exact (ih hmem).imp_right (List.mem_cons_of_mem _)

/-- Replacing line ends brings in no character but the line feed. -/
theorem not_mem_normalizeLineEnds {c : Char} (hc : c ≠ '\n') {cs : List Char} (h : c ∉ cs) :
    c ∉ normalizeLineEnds cs :=
  fun hmem => (eq_or_mem_of_mem_normalizeLineEnds hmem).elim hc h

/-- A text without line feeds has been there before if it is there afterwards. -/
theorem isPrefix_of_isPrefix_normalizeLineEnds {part cs : List Char} (hpart : '\n' ∉ part)
    (h : part <+: normalizeLineEnds cs) : part <+: cs := by
  induction part generalizing cs with
  | nil => exact List.nil_prefix
  | cons d part ih =>
    rw [List.mem_cons, not_or] at hpart
    fun_cases normalizeLineEnds cs with
    | case1 => simp [normalizeLineEnds] at h
    | case2 rest =>
      rw [normalizeLineEnds, List.cons_prefix_cons] at h
      exact absurd h.1.symm hpart.1
    | case3 rest hnewline =>
      rw [normalizeLineEnds, List.cons_prefix_cons] at h
      · exact absurd h.1.symm hpart.1
      · exact hnewline
    | case4 c rest hpair hreturn =>
      rw [normalizeLineEnds_cons fun heq => hreturn heq, List.cons_prefix_cons] at h
      exact List.cons_prefix_cons.mpr ⟨h.1, ih hpart.2 h.2⟩

/-- A part without line feeds is found in the replaced characters only if it stands in the
given ones. -/
theorem isInfix_of_isInfix_normalizeLineEnds {part cs : List Char} (hpart : '\n' ∉ part)
    (h : part <:+: normalizeLineEnds cs) : part <:+: cs := by
  have hfront {rest : List Char} (hnewline : part <+: '\n' :: rest) : part = [] := by
    cases part with
    | nil => rfl
    | cons d part =>
      rw [List.mem_cons, not_or] at hpart
      exact absurd (List.cons_prefix_cons.mp hnewline).1.symm hpart.1
  fun_induction normalizeLineEnds cs with
  | case1 => exact h
  | case2 rest ih =>
    rcases List.infix_cons_iff.mp h with h | h
    · exact hfront h ▸ List.nil_infix
    · exact (ih h).trans (List.IsSuffix.isInfix ⟨['\r', '\n'], rfl⟩)
  | case3 rest _ ih =>
    rcases List.infix_cons_iff.mp h with h | h
    · exact hfront h ▸ List.nil_infix
    · exact (ih h).trans (List.suffix_cons _ _).isInfix
  | case4 c rest _ hreturn ih =>
    rcases List.infix_cons_iff.mp h with h | h
    · rw [← normalizeLineEnds_cons fun heq => hreturn heq] at h
      exact (isPrefix_of_isPrefix_normalizeLineEnds hpart h).isInfix
    · exact (ih h).trans (List.suffix_cons _ _).isInfix

/-- The last character is that of the text if it is no line feed. -/
theorem getLast?_of_getLast?_normalizeLineEnds {c : Char} (hc : c ≠ '\n') {cs : List Char}
    (h : (normalizeLineEnds cs).getLast? = some c) : cs.getLast? = some c := by
  fun_induction normalizeLineEnds cs with
  | case1 => exact h
  | case2 rest ih =>
    have hrest : (normalizeLineEnds rest).getLast? = some c := by grind
    simp [List.getLast?_cons, ih hrest]
  | case3 rest _ ih =>
    have hrest : (normalizeLineEnds rest).getLast? = some c := by grind
    simp [List.getLast?_cons, ih hrest]
  | case4 d rest _ _ ih =>
    by_cases hnil : rest = []
    · simpa [hnil, normalizeLineEnds] using h
    · have hne := normalizeLineEnds_ne_nil hnil
      rw [← List.singleton_append, List.getLast?_append_of_ne_nil _ hne] at h
      rw [← List.singleton_append, List.getLast?_append_of_ne_nil _ hnil]
      exact ih h

/-- Where a text with line ends made alike is cut at another character, the text itself can be cut. -/
theorem exists_split_of_normalizeLineEnds {c : Char} (hc : c ≠ '\n') {cs before behind : List Char}
    (h : normalizeLineEnds cs = before ++ c :: behind) :
    ∃ first rest, cs = first ++ c :: rest ∧ normalizeLineEnds first = before
      ∧ normalizeLineEnds rest = behind := by
  fun_induction normalizeLineEnds cs generalizing before with
  | case1 => simp at h
  | case2 cs ih =>
    obtain ⟨-, hcons⟩ | ⟨before, rfl, hrest⟩ := List.cons_eq_append_iff.mp h
    · exact absurd (List.cons.inj hcons).1 hc
    · obtain ⟨first, rest, rfl, rfl, hbehind⟩ := ih hrest
      exact ⟨_ :: _ :: first, rest, rfl, rfl, hbehind⟩
  | case3 cs hnewline ih =>
    obtain ⟨-, hcons⟩ | ⟨before, rfl, hrest⟩ := List.cons_eq_append_iff.mp h
    · exact absurd (List.cons.inj hcons).1 hc
    · obtain ⟨first, rest, rfl, rfl, hbehind⟩ := ih hrest
      refine ⟨_ :: first, rest, rfl, normalizeLineEnds_return fun hhead => ?_, hbehind⟩
      obtain ⟨tail, rfl⟩ := List.head?_eq_some_iff.mp hhead
      exact hnewline _ rfl
  | case4 d cs _ hreturn ih =>
    obtain ⟨rfl, hcons⟩ | ⟨before, rfl, hrest⟩ := List.cons_eq_append_iff.mp h
    · obtain ⟨rfl, rfl⟩ := List.cons.inj hcons
      exact ⟨[], cs, rfl, rfl, rfl⟩
    · obtain ⟨first, rest, rfl, rfl, hbehind⟩ := ih hrest
      exact ⟨d :: first, rest, rfl, normalizeLineEnds_cons (fun heq => hreturn heq) first, hbehind⟩

end SourceText

namespace Template

open SourceText

/-- The line ends of a gap are blanks in any style, so it stays a gap. -/
theorem IsGap.normalize {gap : List Char} (h : IsGap gap) : IsGap (normalizeLineEnds gap) := by
  intro c hc
  rcases eq_or_mem_of_mem_normalizeLineEnds hc with rfl | hmem
  · decide
  · exact h c hmem

/-- The marks that end a comment do not come about by replacing line ends. -/
theorem IsCommentText.normalize {inner : List Char} (h : IsCommentText inner) :
    IsCommentText (normalizeLineEnds inner) := by
  refine ⟨fun hinfix => h.not_infix ?_, fun hlast => h.getLast?_ne ?_⟩
  · exact isInfix_of_isInfix_normalizeLineEnds (by decide) hinfix
  · exact getLast?_of_getLast?_normalizeLineEnds (by decide) hlast

/-- Trivia stay trivia, gap by gap and comment by comment. -/
theorem WritesTrivia.normalize {cs : List Char} (h : WritesTrivia cs) :
    WritesTrivia (normalizeLineEnds cs) := by
  induction h with
  | gap hgap => exact .gap hgap.normalize
  | @comment gap inner rest hgap hinner _ ih =>
    rw [normalizeLineEnds_append (Or.inr (by simp)), normalizeLineEnds_cons (by decide),
      normalizeLineEnds_cons (by decide), normalizeLineEnds_cons (by decide),
      normalizeLineEnds_cons (by decide), normalizeLineEnds_append (Or.inr (by simp)),
      normalizeLineEnds_cons (by decide), normalizeLineEnds_cons (by decide),
      normalizeLineEnds_cons (by decide)]
    exact .comment hgap.normalize hinner.normalize ih

/-- An attribute ends with its closing quote, so no line end goes on behind it. -/
theorem renderAttribute_getLast? (attr : String × List Piece) :
    (renderAttribute reference attr).getLast? = some '"' := by
  have hsplit : renderAttribute reference attr
      = (attr.1.toList ++ '=' :: '"' :: renderPieces reference attr.2) ++ ['"'] := by
    simp [renderAttribute]
  rw [hsplit, List.getLast?_concat]

/-- No line end lies across the end of attributes. -/
theorem WritesAttributes.getLast?_ne {attributes : List (String × List Piece)} {cs : List Char}
    (h : WritesAttributes attributes cs) : cs.getLast? ≠ some '\r' := by
  induction h with
  | nil => simp
  | @cons gap attr attributes cs _ _ _ ih =>
    have hattr := renderAttribute_getLast? attr
    cases cs with
    | nil => simp [hattr]
    | cons c rest =>
      rwa [← List.append_assoc, List.getLast?_append_of_ne_nil _ (List.cons_ne_nil c rest)]

/-- Characters without a carriage return do not end with one, so they can be replaced apart from
what follows. -/
theorem getLast?_ne_of_not_mem {cs : List Char} (h : '\r' ∉ cs) : cs.getLast? ≠ some '\r' :=
  fun hlast => h (List.mem_of_getLast? hlast)

/-- A letter is no line feed, so it does not complete a line end in front of it. -/
theorem ne_newline_of_isLetter {c : Char} (h : isLetter c = true) : c ≠ '\n' := by
  rintro rfl
  simp [class_of_mem_marks (by decide : '\n' ∈ marks)] at h

/-- Attributes that can be read are laid out the same way with line feeds in the gaps between them. -/
theorem WritesAttributes.normalize {attributes : List (String × List Piece)} {cs : List Char}
    (h : WritesAttributes attributes cs)
    (hreadable : ∀ attr ∈ attributes, IsReadableAttribute attr) :
    WritesAttributes attributes (normalizeLineEnds cs) := by
  induction h with
  | nil => exact .nil
  | @cons gap attr attributes cs hne hgap _ ih =>
    rw [List.forall_mem_cons] at hreadable
    have hreturn := hreadable.1.noReturn
    have hhead : (renderAttribute reference attr ++ cs).head? ≠ some '\n' := by
      obtain ⟨c, key, hkey, hc⟩ := head?_of_spellsPartial hreadable.1.key
      simpa [renderAttribute, hkey] using ne_newline_of_isLetter hc
    rw [normalizeLineEnds_append (Or.inr hhead),
      normalizeLineEnds_append (Or.inl (getLast?_ne_of_not_mem hreturn)),
      normalizeLineEnds_eq_self hreturn]
    exact .cons (normalizeLineEnds_ne_nil hne) hgap.normalize (ih hreadable.2)

/-- A name that can be read begins with no line feed. -/
theorem IsReadableName.head?_ne {name : String} (h : IsReadableName name) (rest : List Char) :
    (name.toList ++ rest).head? ≠ some '\n' := fun hhead =>
  ne_newline_of_isLetter (h.head? rest '\n' hhead) rfl

/-- A name that can be read has no carriage return, so replacing line ends keeps it. -/
theorem IsReadableName.return_not_mem {name : String} (h : IsReadableName name) :
    '\r' ∉ name.toList := by
  intro hmem
  have hletter := h.letters _ hmem
  simp [not_isLetter_of_isBlank (by decide : isBlank '\r' = true)] at hletter

/-- A name keeps its characters, whatever follows it. -/
theorem IsReadableName.normalizeLineEnds_append {name : String} (h : IsReadableName name)
    (rest : List Char) :
    normalizeLineEnds (name.toList ++ rest) = name.toList ++ normalizeLineEnds rest := by
  rw [SourceText.normalizeLineEnds_append (Or.inl (getLast?_ne_of_not_mem h.return_not_mem)),
    normalizeLineEnds_eq_self h.return_not_mem]

/-- A tag is laid out the same way with line feeds in its gaps. -/
theorem WritesTag.normalize {name : String} {attributes : List (String × List Piece)}
    {tag : List Char} (h : WritesTag name attributes tag) (hname : IsReadableName name)
    (hattributes : ∀ attr ∈ attributes, IsReadableAttribute attr) :
    WritesTag name attributes (normalizeLineEnds tag) := by
  obtain ⟨hbefore, hwrites, hbehind⟩ := h
  rw [normalizeLineEnds_append (Or.inr (hname.head?_ne _)), hname.normalizeLineEnds_append,
    normalizeLineEnds_append (Or.inl hwrites.getLast?_ne)]
  exact .intro hbefore.normalize (hwrites.normalize hattributes) hbehind.normalize

/-- A closing tag is laid out the same way with line feeds around its name. -/
theorem WritesClosingTag.normalize {name : String} {cs : List Char} (h : WritesClosingTag name cs)
    (hname : IsReadableName name) : WritesClosingTag name (normalizeLineEnds cs) := by
  obtain ⟨hbefore, hbehind⟩ := h
  rw [normalizeLineEnds_cons (by decide), normalizeLineEnds_cons (by decide),
    normalizeLineEnds_append (Or.inr (hname.head?_ne _)), hname.normalizeLineEnds_append,
    normalizeLineEnds_append (Or.inr (by simp)), normalizeLineEnds_cons (by decide)]
  exact .intro hbefore.normalize hbehind.normalize

/-- A layout of an element ends with the bracket of its last tag. -/
theorem WritesElementWith.getLast? {body : Option (List Piece) → List Outline → List Char → Prop}
    {outline : Outline} {cs : List Char} (h : WritesElementWith body outline cs) :
    cs.getLast? = some '>' := by
  cases h with
  | @selfClosing leading name attributes tag _ _ =>
    have hsplit : leading ++ '<' :: (tag ++ ['/', '>']) = (leading ++ '<' :: (tag ++ ['/'])) ++ ['>'] := by
      simp
    rw [hsplit, List.getLast?_concat]
  | @paired leading name attributes tag content children inner close _ _ _ hclose =>
    obtain ⟨before, hclose⟩ : ∃ before, close = before ++ ['>'] := by
      obtain ⟨-, -⟩ := hclose
      rename_i before behind
      exact ⟨'<' :: '/' :: (before ++ (name.toList ++ behind)), by simp⟩
    have hsplit : leading ++ '<' :: (tag ++ '>' :: (inner ++ close))
        = (leading ++ '<' :: (tag ++ '>' :: (inner ++ before))) ++ ['>'] := by
      simp [hclose]
    rw [hsplit, List.getLast?_concat]

/-- An element ends with its last mark, so no line end goes on behind it. -/
theorem WritesElement.getLast?_ne {levels : Nat} {outline : Outline} {cs : List Char}
    (h : WritesElement levels outline cs) : cs.getLast? ≠ some '\r' := by
  have hlast : cs.getLast? = some '>' := by
    cases levels with
    | zero => exact WritesElementWith.getLast? h
    | succ levels => exact WritesElementWith.getLast? h
  rw [hlast]
  decide

/-- Elements in a row end with the last mark of the last one, or there are none. -/
theorem WritesAll.getLast?_ne {levels : Nat} {children : List Outline} {cs : List Char}
    (h : WritesAll (WritesElement levels) children cs) : cs.getLast? ≠ some '\r' := by
  induction h with
  | nil => simp
  | @cons child others first rest hchild _ ih =>
    cases rest with
    | nil => simpa using hchild.getLast?_ne
    | cons c rest => rwa [List.getLast?_append_of_ne_nil _ (List.cons_ne_nil c rest)]

/-- Elements in a row are laid out the same way with line feeds if each of them is. -/
theorem WritesAll.normalize {levels : Nat} {children : List Outline} {cs : List Char}
    (h : WritesAll (WritesElement levels) children cs)
    (hchildren : ∀ child ∈ children, ∀ cs, WritesElement levels child cs →
      WritesElement levels child (normalizeLineEnds cs)) :
    WritesAll (WritesElement levels) children (normalizeLineEnds cs) := by
  induction h with
  | nil => exact .nil
  | @cons child others first rest hchild _ ih =>
    rw [List.forall_mem_cons] at hchildren
    rw [normalizeLineEnds_append (Or.inl hchild.getLast?_ne)]
    exact .cons (hchildren.1 first hchild) (ih hchildren.2)

/-- A body is laid out the same way with line feeds, since content that can be read has no carriage
returns. -/
theorem WritesBody.normalize {levels : Nat} {content : Option (List Piece)}
    {children : List Outline} {inner : List Char}
    (h : WritesBody (WritesElement levels) content children inner)
    (hcontent : ∀ pieces ∈ content, IsReadableContent pieces)
    (hchildren : ∀ child ∈ children, ∀ cs, WritesElement levels child cs →
      WritesElement levels child (normalizeLineEnds cs)) :
    WritesBody (WritesElement levels) content children (normalizeLineEnds inner) := by
  cases h with
  | children hall htrailing =>
    rw [normalizeLineEnds_append (Or.inl hall.getLast?_ne)]
    exact .children (hall.normalize hchildren) htrailing.normalize
  | @text gap pieces hgap =>
    obtain ⟨-, -, hbegins, hreturn⟩ := hcontent pieces rfl
    have hhead : (renderPieces reference pieces).head? ≠ some '\n' := by
      intro hhead
      have hblank := head?_of_beginsText hbegins '\n' hhead
      exact absurd hblank (by decide)
    rw [normalizeLineEnds_append (Or.inr hhead), normalizeLineEnds_eq_self hreturn]
    exact .text hgap.normalize

/-- An element is laid out the same way with line feeds if its body is. -/
theorem WritesElementWith.normalize
    {body : Option (List Piece) → List Outline → List Char → Prop} {outline : Outline}
    {cs : List Char} (h : WritesElementWith body outline cs) (hreadable : IsReadable outline)
    (hbody : ∀ inner, body outline.content outline.children inner →
      body outline.content outline.children (normalizeLineEnds inner)) :
    WritesElementWith body outline (normalizeLineEnds cs) := by
  obtain ⟨hname, hattributes, -, -, -⟩ := hreadable
  cases h with
  | selfClosing hleading htag =>
    rw [normalizeLineEnds_append (Or.inr (by simp)), normalizeLineEnds_cons (by decide),
      normalizeLineEnds_append (Or.inr (by simp)), normalizeLineEnds_cons (by decide),
      normalizeLineEnds_cons (by decide)]
    exact .selfClosing hleading.normalize (htag.normalize hname hattributes)
  | @paired leading name attributes tag content children inner close hleading htag hinner hclose =>
    have hhead : close.head? ≠ some '\n' := by
      cases hclose
      simp
    rw [normalizeLineEnds_append (Or.inr (by simp)), normalizeLineEnds_cons (by decide),
      normalizeLineEnds_append (Or.inr (by simp)), normalizeLineEnds_cons (by decide),
      normalizeLineEnds_append (Or.inr hhead)]
    exact .paired hleading.normalize (htag.normalize hname hattributes) (hbody inner hinner)
      (hclose.normalize hname)

/-- A layout of an element stays one when its line ends are made alike. -/
theorem WritesElement.normalize {levels : Nat} {outline : Outline} {cs : List Char}
    (h : WritesElement levels outline cs) (hreadable : IsReadable outline) :
    WritesElement levels outline (normalizeLineEnds cs) := by
  induction levels generalizing outline cs with
  | zero =>
    refine WritesElementWith.normalize h hreadable fun inner hinner => ?_
    exact absurd hinner id
  | succ levels ih =>
    refine WritesElementWith.normalize h hreadable fun inner hinner => ?_
    obtain ⟨-, -, -, hcontent, hchildren⟩ := hreadable
    exact hinner.normalize hcontent fun child hmem cs hchild => ih hchild (hchildren child hmem)

/-- A document is laid out the same way with line feeds, so it can be loaded before it is read. -/
theorem WritesDocument.normalize {outline : Outline} {cs : List Char}
    (h : WritesDocument outline cs) (hreadable : IsReadable outline) :
    WritesDocument outline (normalizeLineEnds cs) := by
  obtain ⟨hroot, htrailing⟩ := h
  rw [normalizeLineEnds_append (Or.inl hroot.getLast?_ne)]
  exact .intro (hroot.normalize hreadable) htrailing.normalize

/-! ## Canonical texts -/

/-- Elements without carriage returns have none as they are written in a row. -/
theorem return_not_mem_renderAll {children : List Outline}
    (h : ∀ child ∈ children, '\r' ∉ child.render reference) :
    '\r' ∉ renderAll reference children := by
  induction children with
  | nil => simp [renderAll]
  | cons child rest ih =>
    rw [renderAll, List.mem_append, not_or]
    exact ⟨h child List.mem_cons_self, ih fun other hmem => h other (List.mem_cons_of_mem _ hmem)⟩

/-- The canonical text of an outline that can be read has no carriage return. -/
theorem IsReadable.return_not_mem_render {outline : Outline} (h : IsReadable outline) :
    '\r' ∉ outline.render reference := by
  induction h with
  | @intro name attributes content children hname hattributes _ hcontent _ ih =>
    have hnameReturn := hname.return_not_mem
    have hattributesReturn : '\r' ∉ renderAttributes reference attributes := by
      rw [renderAttributes, List.mem_flatMap]
      rintro ⟨attr, hattr, hmem⟩
      exact (hattributes attr hattr).noReturn (by simpa using hmem)
    have hchildrenReturn := return_not_mem_renderAll ih
    cases content with
    | some pieces =>
      have hcontentReturn := (hcontent pieces rfl).noReturn
      simp [Outline.render, closingChars, hnameReturn, hattributesReturn, hcontentReturn]
    | none =>
      cases children with
      | nil => simp [Outline.render, hnameReturn, hattributesReturn]
      | cons child rest =>
        rw [renderAll, List.mem_append, not_or] at hchildrenReturn
        simp [Outline.render, closingChars, hnameReturn, hattributesReturn, hchildrenReturn]

end Template

end JobMarkup
