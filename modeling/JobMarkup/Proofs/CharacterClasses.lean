import JobMarkup.Proofs.Borders
import Mathlib.Data.List.TakeWhile

/-!
# Classes of characters

Punctuation marks are neither letters nor blanks nor numeric, and blanks are neither letters nor
numeric. So the kind that a character begins, and whether it extends the lexeme in front of it, can
be told from its class.
-/

namespace JobMarkup

namespace Character

/-- The code points of the blank characters one by one. -/
def blankCodes : List Nat :=
  [0x9, 0xA, 0xB, 0xC, 0xD, 0x20, 0x85, 0xA0, 0x1680, 0x2000, 0x2001, 0x2002, 0x2003, 0x2004, 0x2005,
    0x2006, 0x2007, 0x2008, 0x2009, 0x200A, 0x2028, 0x2029, 0x202F, 0x205F, 0x3000]

/-- A blank character is one of those in the list, so a fact about all of them can be checked one
by one. -/
theorem mem_blankCodes {c : Char} (h : isBlank c = true) : c.toNat ∈ blankCodes := by
  simp only [isBlank, blankRanges, inRanges, Bool.and_eq_true, Bool.or_eq_true, decide_eq_true_eq,
    Bool.or_false] at h
  simp only [blankCodes, List.mem_cons, List.not_mem_nil, or_false]
  omega

/-- A blank is neither a letter nor numeric. -/
theorem not_isLetter_of_isBlank {c : Char} (h : isBlank c = true) :
    isLetter c = false ∧ isNumeric c = false := by
  have hall : ∀ n ∈ blankCodes,
      inRanges letterRanges n = false ∧ inRanges numericRanges n = false := by
    decide +kernel
  exact hall c.toNat (mem_blankCodes h)

/-- The punctuation marks of ASCII and the line feed. -/
def marks : List Char :=
  ['<', '/', '>', '.', ',', '=', '"', '@', '-', '\n'] ++ Lexeme.specialMarks

/-- A mark is neither a letter nor numeric nor a blank within a line. -/
theorem class_of_mem_marks {c : Char} (h : c ∈ marks) :
    isLetter c = false ∧ isNumeric c = false ∧ isInlineBlank c = false := by
  have hall : (marks.all fun c => !isLetter c && !isNumeric c && !isInlineBlank c) = true := by
    decide +kernel
  simpa [and_assoc] using List.all_eq_true.mp hall c h

/-- No mark is a blank, but for the line feed. -/
theorem not_isBlank_of_mem_marks {c : Char} (h : c ∈ marks) (hne : c ≠ '\n') :
    isBlank c = false := by
  have hinline := (class_of_mem_marks h).2.2
  simpa [isInlineBlank, hne] using hinline

/-- The blanks within a line are all blanks but the line feed. -/
theorem isInlineBlank_iff {c : Char} : isInlineBlank c = true ↔ isBlank c = true ∧ c ≠ '\n' := by
  rw [isInlineBlank, Bool.and_eq_true, bne_iff_ne, and_comm]

end Character

namespace Lexeme

open Character

/-- A character that is no mark begins a run. -/
theorem startKind_of_not_mem_marks {c : Char} (h : c ∉ marks) : startKind c = runKind c := by
  unfold startKind
  split <;> simp_all [marks]

/-- A letter begins a run of letters. -/
theorem startKind_of_isLetter {c : Char} (h : isLetter c = true) : startKind c = .letters := by
  have hmark : c ∉ marks := fun hmem => by simp [class_of_mem_marks hmem] at h
  rw [startKind_of_not_mem_marks hmark, runKind, if_pos h]

/-- A blank within a line begins a run of blanks. -/
theorem startKind_of_isInlineBlank {c : Char} (h : isInlineBlank c = true) :
    startKind c = .blank := by
  have hmark : c ∉ marks := fun hmem => by simp [class_of_mem_marks hmem] at h
  have hletter := (not_isLetter_of_isBlank (isInlineBlank_iff.mp h).1).1
  simp [startKind_of_not_mem_marks hmark, runKind, hletter, h]

/-- A numeric character begins a run of letters or of numeric characters. -/
theorem startKind_of_isNumeric {c : Char} (h : isNumeric c = true) :
    startKind c = .letters ∨ startKind c = .digits := by
  have hmark : c ∉ marks := fun hmem => by simp [class_of_mem_marks hmem] at h
  have hblank : isInlineBlank c = false := by
    by_contra hblank
    have hnumeric := (not_isLetter_of_isBlank (isInlineBlank_iff.mp (by simpa using hblank)).1).2
    simp [h] at hnumeric
  rw [startKind_of_not_mem_marks hmark, runKind]
  split
  · exact Or.inl rfl
  · simp [hblank]

/-- A blank begins a lexeme of blanks or is a line feed. -/
theorem isBlank_startKind {c : Char} (h : isBlank c = true) : (startKind c).isBlank = true := by
  by_cases hnewline : c = '\n'
  · subst hnewline
    rfl
  · rw [startKind_of_isInlineBlank (isInlineBlank_iff.mpr ⟨h, hnewline⟩)]
    rfl

/-! ## Which characters extend which lexemes -/

/-- The kinds of lexemes that no character extends. -/
def isClosed : TokenKind → Bool
  | .openAngle | .slash | .atSign | .special | .hyphen | .letters | .blank | .digits => false
  | _ => true

/-- No character extends a lexeme whose kind is closed. -/
theorem extend?_of_isClosed {lexeme : Lexeme} (h : isClosed lexeme.kind = true) (c : Char) :
    lexeme.extend? c = none := by
  obtain ⟨kind, cs⟩ := lexeme
  cases kind <;> simp_all [isClosed, extend?, extendedKind?]

/-- The marks that extend no lexeme. -/
def isFresh (c : Char) : Bool := c ∈ marks && c ∉ ['/', '!', '>', '\x7b', '@', '-']

/-- A mark that is not the second one of any pair extends no lexeme. -/
theorem extend?_of_isFresh {c : Char} (h : isFresh c = true) (lexeme : Lexeme) :
    lexeme.extend? c = none := by
  simp only [isFresh, Bool.and_eq_true, decide_eq_true_eq, List.mem_cons, List.not_mem_nil,
    or_false, not_or] at h
  obtain ⟨hmark, hslash, hbang, hangle, hbrace, hat, hhyphen⟩ := h
  obtain ⟨hletter, hnumeric, hblank⟩ := class_of_mem_marks hmark
  obtain ⟨kind, cs⟩ := lexeme
  cases kind <;> simp_all [extend?, extendedKind?]

/-- A character that is no mark extends runs only. -/
theorem extend?_of_not_mem_marks {c : Char} (h : c ∉ marks) {lexeme : Lexeme}
    (hletters : lexeme.kind = .letters → isLetter c = false)
    (hblank : lexeme.kind = .blank → isInlineBlank c = false)
    (hdigits : lexeme.kind = .digits → isNumeric c = false) : lexeme.extend? c = none := by
  obtain ⟨kind, cs⟩ := lexeme
  simp only [marks, specialMarks, List.cons_append, List.nil_append, List.mem_cons,
    List.not_mem_nil, or_false, not_or] at h
  cases kind <;> simp_all [extend?, extendedKind?]

/-- A letter extends letters and numeric characters only. -/
theorem extend?_of_isLetter {c : Char} (h : isLetter c = true) {lexeme : Lexeme}
    (hkind : lexeme.kind.isAlphanumeric = false) : lexeme.extend? c = none := by
  have hmark : c ∉ marks := fun hmem => by simp [class_of_mem_marks hmem] at h
  refine extend?_of_not_mem_marks hmark ?_ (fun _ => ?_) ?_
  · intro hletters
    simp [hletters, TokenKind.isAlphanumeric] at hkind
  · by_contra hblank
    have hletter := (not_isLetter_of_isBlank (isInlineBlank_iff.mp (by simpa using hblank)).1).1
    simp [h] at hletter
  · intro hdigits
    simp [hdigits, TokenKind.isAlphanumeric] at hkind

/-- Letters and numeric characters keep their kind when they are extended. -/
theorem kind_of_extend? {lexeme longer : Lexeme} {c : Char}
    (hkind : lexeme.kind.isAlphanumeric = true) (h : lexeme.extend? c = some longer) :
    longer.kind = lexeme.kind := by
  obtain ⟨kind, cs⟩ := lexeme
  simp only [extend?, Option.map_eq_some_iff] at h
  obtain ⟨longerKind, hextended, rfl⟩ := h
  cases kind with
  | letters | digits =>
    simp only [extendedKind?, Option.ite_none_right_eq_some, Option.some.injEq] at hextended
    exact hextended.2.symm
  | _ => simp [TokenKind.isAlphanumeric] at hkind

/-- A hyphen does not extend letters and numeric characters. -/
theorem extend?_hyphen {lexeme : Lexeme} (hkind : lexeme.kind.isAlphanumeric = true) :
    lexeme.extend? '-' = none := by
  have hclass := class_of_mem_marks (by decide : '-' ∈ marks)
  obtain ⟨kind, cs⟩ := lexeme
  cases kind with
  | letters | digits => simp [extend?, extendedKind?, hclass]
  | _ => simp [TokenKind.isAlphanumeric] at hkind

/-- A blank extends blanks only. -/
theorem extend?_of_isBlank {c : Char} (h : isBlank c = true) {lexeme : Lexeme}
    (hkind : lexeme.kind ≠ .blank) : lexeme.extend? c = none := by
  by_cases hnewline : c = '\n'
  · subst hnewline
    exact extend?_of_isFresh rfl lexeme
  · have hmark : c ∉ marks := by
      intro hmem
      have hinline := isInlineBlank_iff.mpr ⟨h, hnewline⟩
      simp [class_of_mem_marks hmem] at hinline
    exact extend?_of_not_mem_marks hmark (fun _ => (not_isLetter_of_isBlank h).1)
      (fun hblank => absurd hblank hkind) (fun _ => (not_isLetter_of_isBlank h).2)

/-! ## Texts of one class -/

/-- What holds of the kind of each character alone, and goes over to longer lexemes, holds of all
lexemes of a text. -/
theorem forall_mem_split {p : Lexeme → Prop} {cs : List Char} (hstart : ∀ c ∈ cs, p (start c))
    (hextend : ∀ lexeme longer, ∀ c ∈ cs, p lexeme → lexeme.extend? c = some longer → p longer)
    {current : Lexeme} (hcurrent : p current) : ∀ lexeme ∈ current.split cs, p lexeme := by
  induction cs generalizing current with
  | nil => simpa [split] using hcurrent
  | cons c rest ih =>
    have ihRest {current : Lexeme} (h : p current) := ih
      (fun d hd => hstart d (List.mem_cons_of_mem _ hd))
      (fun lexeme longer d hd => hextend lexeme longer d (List.mem_cons_of_mem _ hd)) h
    rw [split]
    cases h : current.extend? c with
    | some longer => exact ihRest (hextend current longer c List.mem_cons_self hcurrent h)
    | none =>
      intro lexeme hmem
      rcases List.mem_cons.mp hmem with rfl | hmem
      · exact hcurrent
      · exact ihRest (hstart c List.mem_cons_self) lexeme hmem

/-- What is true of each character on its own, and stays true as lexemes are extended, is true of
all lexemes of a text. -/
theorem forall_mem_ofChars {p : Lexeme → Prop} {cs : List Char} (hstart : ∀ c ∈ cs, p (start c))
    (hextend : ∀ lexeme longer, ∀ c ∈ cs, p lexeme → lexeme.extend? c = some longer → p longer) :
    ∀ lexeme ∈ ofChars cs, p lexeme := by
  cases cs with
  | nil => simp [ofChars]
  | cons c rest =>
    exact forall_mem_split (fun d hd => hstart d (List.mem_cons_of_mem _ hd))
      (fun lexeme longer d hd => hextend lexeme longer d (List.mem_cons_of_mem _ hd))
      (hstart c List.mem_cons_self)

/-- The character has none of the classes. -/
def isUnknown (c : Char) : Bool := c ∉ marks && !isLetter c && !isNumeric c && !isBlank c

/-- What characters a lexeme of a kind has. -/
def Fits : TokenKind → List Char → Prop
  | .endOfText, _ => False
  | .openSlash, cs => cs = ['<', '/']
  | .openBang, cs => cs = ['<', '!']
  | .openAngle, cs => cs = ['<']
  | .slashClose, cs => cs = ['/', '>']
  | .slash, cs => cs = ['/']
  | .closeAngle, cs => cs = ['>']
  | .period, cs => cs = ['.']
  | .comma, cs => cs = [',']
  | .equal, cs => cs = ['=']
  | .quote, cs => cs = ['"']
  | .openReference, cs => cs = ['@', '\x7b']
  | .closeReference, cs => cs = ['\x7d', '@']
  | .atSign, cs => cs = ['@']
  | .doubleHyphen, cs => cs = ['-', '-']
  | .hyphen, cs => cs = ['-']
  | .special, cs => ∃ c ∈ specialMarks, cs = [c]
  | .newline, cs => cs = ['\n']
  | .letters, cs => ∀ c ∈ cs, isLetter c = true
  | .digits, cs => ∀ c ∈ cs, isNumeric c = true
  | .blank, cs => ∀ c ∈ cs, isInlineBlank c = true
  | .unknown, cs => ∃ c, isUnknown c = true ∧ cs = [c]

/-- The marks without a kind of their own begin special lexemes. -/
theorem startKind_of_mem_specialMarks {c : Char} (h : c ∈ specialMarks) :
    startKind c = .special := by
  simp only [specialMarks, List.mem_cons, List.not_mem_nil, or_false] at h
  rcases h with rfl | rfl | rfl | rfl | rfl | rfl | rfl | rfl | rfl | rfl | rfl | rfl | rfl | rfl
    | rfl | rfl | rfl | rfl | rfl | rfl | rfl | rfl | rfl <;> rfl

/-- A lexeme of one character has a character that its kind allows. -/
theorem fits_start (c : Char) : Fits (startKind c) [c] := by
  by_cases hmark : c ∈ marks
  · by_cases hspecial : c ∈ specialMarks
    · rw [startKind_of_mem_specialMarks hspecial]
      exact ⟨c, hspecial, rfl⟩
    · have hothers : c ∈ ['<', '/', '>', '.', ',', '=', '"', '@', '-', '\n'] :=
        (List.mem_append.mp hmark).resolve_right hspecial
      simp only [List.mem_cons, List.not_mem_nil, or_false] at hothers
      rcases hothers with rfl | rfl | rfl | rfl | rfl | rfl | rfl | rfl | rfl | rfl <;> rfl
  · rw [startKind_of_not_mem_marks hmark, runKind]
    split_ifs with hletter hblank hnumeric
    · simpa [Fits] using hletter
    · simpa [Fits] using hblank
    · simpa [Fits] using hnumeric
    · refine ⟨c, ?_, rfl⟩
      have hnewline : c ≠ '\n' := fun heq => hmark (by simp [heq, marks])
      have hany : ¬isBlank c = true := fun hany => hblank (isInlineBlank_iff.mpr ⟨hany, hnewline⟩)
      simp [isUnknown, hmark, hletter, hnumeric, hany]

/-- A lexeme that is extended still has characters that its new kind allows. -/
theorem fits_extend {lexeme longer : Lexeme} {c : Char} (h : Fits lexeme.kind lexeme.chars)
    (hextend : lexeme.extend? c = some longer) : Fits longer.kind longer.chars := by
  obtain ⟨kind, cs⟩ := lexeme
  simp only [extend?, Option.map_eq_some_iff] at hextend
  obtain ⟨longerKind, hkind, rfl⟩ := hextend
  cases kind <;> simp_all [extendedKind?, Fits] <;> grind [Fits]

/-- The kind of a lexeme tells its characters. -/
theorem fits_of_mem_ofChars {cs : List Char} :
    ∀ lexeme ∈ ofChars cs, Fits lexeme.kind lexeme.chars :=
  forall_mem_ofChars (fun c _ => fits_start c) fun _ _ _ _ h hextend => fits_extend h hextend

/-- The characters of a lexeme are those of its text. -/
theorem mem_of_mem_chars {cs : List Char} {lexeme : Lexeme} (h : lexeme ∈ ofChars cs) {c : Char}
    (hc : c ∈ lexeme.chars) : c ∈ cs := by
  rw [← flatMap_chars_ofChars cs]
  exact List.mem_flatMap_of_mem h hc

/-- A blank lexeme has blank characters only. -/
theorem Fits.allBlank {kind : TokenKind} {cs : List Char} (h : Fits kind cs)
    (hkind : kind.isBlank = true) : ∀ c ∈ cs, isBlank c = true := by
  cases kind with
  | blank => exact fun c hc => (isInlineBlank_iff.mp (h c hc)).1
  | newline =>
    simp only [Fits] at h
    subst h
    rw [List.forall_mem_singleton]
    rfl
  | _ => simp [TokenKind.isBlank] at hkind

/-- A lexeme that is not blank has no blank characters. -/
theorem Fits.not_isBlank {kind : TokenKind} {cs : List Char} (h : Fits kind cs)
    (hkind : kind.isBlank = false) : ∀ c ∈ cs, isBlank c = false := by
  have hexcluded (c : Char) (hc : isLetter c = true ∨ isNumeric c = true) : isBlank c = false := by
    by_contra hblank
    have hclass := not_isLetter_of_isBlank (by simpa using hblank : isBlank c = true)
    simp [hclass] at hc
  cases kind with
  | letters => exact fun c hc => hexcluded c (Or.inl (h c hc))
  | digits => exact fun c hc => hexcluded c (Or.inr (h c hc))
  | blank | newline => simp [TokenKind.isBlank] at hkind
  | endOfText => exact absurd h id
  | unknown =>
    obtain ⟨c, hunknown, rfl⟩ := h
    simp only [isUnknown, Bool.and_eq_true, Bool.not_eq_true'] at hunknown
    simpa using hunknown.2
  | special =>
    obtain ⟨c, hspecial, rfl⟩ := h
    have hne : c ≠ '\n' := by
      rintro rfl
      exact absurd hspecial (by decide)
    have hmark : c ∈ marks := List.mem_append_right _ hspecial
    simpa using not_isBlank_of_mem_marks hmark hne
  | _ =>
    simp only [Fits] at h
    subst h
    simp [isBlank, inRanges, blankRanges]

/-- The lexemes of blanks are blank. -/
theorem isBlank_of_mem_ofChars {cs : List Char} (h : ∀ c ∈ cs, isBlank c = true) :
    ∀ lexeme ∈ ofChars cs, lexeme.kind.isBlank = true := by
  refine forall_mem_ofChars (fun c hc => isBlank_startKind (h c hc)) ?_
  intro lexeme longer c hc hblank hextend
  have hkind : lexeme.kind = .blank := by
    by_contra hne
    simp [extend?_of_isBlank (h c hc) hne] at hextend
  obtain ⟨kind, cs⟩ := lexeme
  simp only at hkind
  subst hkind
  simp only [extend?, extendedKind?, Option.map_eq_some_iff, Option.ite_none_right_eq_some,
    Option.some.injEq] at hextend
  obtain ⟨kind, ⟨-, rfl⟩, rfl⟩ := hextend
  rfl

/-! ## Runs -/

/-- The characters that go on with a run of a kind. -/
def runClass : TokenKind → Char → Bool
  | .letters => isLetter
  | .blank => isInlineBlank
  | .digits => isNumeric
  | _ => fun _ => false

/-- The kind is one of those whose lexemes are runs. -/
def IsRunKind (kind : TokenKind) : Prop := kind = .letters ∨ kind = .blank ∨ kind = .digits

/-- A run is extended by the characters of its class and by no others, and it keeps its kind. -/
theorem extend?_run {kind : TokenKind} (h : IsRunKind kind) (begun : List Char) (c : Char) :
    extend? ⟨kind, begun⟩ c = if runClass kind c then some ⟨kind, begun ++ [c]⟩ else none := by
  by_cases hc : runClass kind c = true <;> obtain rfl | rfl | rfl := h <;>
    simp_all [extend?, extendedKind?, runClass]

/-- A run goes on up to the first character that is not of its class. -/
theorem split_run {kind : TokenKind} (h : IsRunKind kind) (begun rest : List Char) :
    split ⟨kind, begun⟩ rest
      = ⟨kind, begun ++ rest.takeWhile (runClass kind)⟩
        :: ofChars (rest.dropWhile (runClass kind)) := by
  induction rest generalizing begun with
  | nil => simp [split, ofChars]
  | cons c rest ih =>
    rw [split, extend?_run h]
    by_cases hc : runClass kind c = true
    · simp [hc, ih]
    · simp [hc, ofChars]

/-- Characters of one class are one lexeme if the first of them begins a run of the class. -/
theorem ofChars_run {kind : TokenKind} (h : IsRunKind kind) {c : Char} {cs : List Char}
    (hstart : startKind c = kind) (hcs : ∀ d ∈ cs, runClass kind d = true) :
    ofChars (c :: cs) = [⟨kind, c :: cs⟩] := by
  rw [ofChars, start, hstart, split_run h, List.takeWhile_eq_self_iff.mpr hcs,
    List.dropWhile_eq_nil_iff.mpr hcs]
  rfl

/-- A run of letters is one lexeme. -/
theorem ofChars_letters {cs : List Char} (hne : cs ≠ []) (h : ∀ c ∈ cs, isLetter c = true) :
    ofChars cs = [⟨.letters, cs⟩] := by
  obtain ⟨c, rest, rfl⟩ := List.exists_cons_of_ne_nil hne
  exact ofChars_run (Or.inl rfl) (startKind_of_isLetter (h c List.mem_cons_self))
    fun d hd => h d (List.mem_cons_of_mem _ hd)

/-! ## Borders -/

/-- A border is in front of a mark that extends no lexeme. -/
theorem Border.of_isFresh {a b : List Char} {c : Char} (h : isFresh c = true) : Border a (c :: b) := by
  intro lexeme _ d hd
  obtain rfl : c = d := by simpa using hd
  exact extend?_of_isFresh h lexeme

/-- A border is behind a lexeme that no character extends. -/
theorem Border.of_isClosed {a b : List Char}
    (h : ∀ lexeme ∈ (ofChars a).getLast?, isClosed lexeme.kind = true) : Border a b :=
  fun lexeme hlexeme c _ => extend?_of_isClosed (h lexeme hlexeme) c

/-- A hyphen extends a hyphen only. -/
theorem Border.hyphen {a b : List Char} (h : a.getLast? ≠ some '-') : Border a ('-' :: b) := by
  intro lexeme hlexeme c hc
  obtain rfl : '-' = c := by simpa using hc
  have hlast := getLast?_chars_of_mem_getLast?_ofChars hlexeme
  have hfits := fits_of_mem_ofChars lexeme (List.mem_of_getLast? hlexeme)
  have hclass := class_of_mem_marks (by decide : '-' ∈ marks)
  have hkind : lexeme.kind ≠ .hyphen := by
    intro hkind
    rw [hkind, Fits] at hfits
    rw [hfits] at hlast
    exact h hlast.symm
  obtain ⟨kind, cs⟩ := lexeme
  cases kind <;> simp_all [extend?, extendedKind?]

/-- A border is behind blanks, unless more blanks follow. -/
theorem Border.of_blanks {a b : List Char} (ha : ∀ c ∈ a, isBlank c = true)
    (hb : ∀ c ∈ b.head?, isBlank c = false) : Border a b := by
  intro lexeme hlexeme c hc
  have hkind := isBlank_of_mem_ofChars ha lexeme (List.mem_of_getLast? hlexeme)
  have hinline : isInlineBlank c = false := by simp [isInlineBlank, hb c hc]
  obtain ⟨kind, cs⟩ := lexeme
  cases kind <;> simp_all [TokenKind.isBlank, extend?, extendedKind?]

/-- A border is behind letters, unless more letters follow. -/
theorem Border.of_letters {a b : List Char} (hne : a ≠ []) (ha : ∀ c ∈ a, isLetter c = true)
    (hb : ∀ c ∈ b.head?, isLetter c = false) : Border a b := by
  intro lexeme hlexeme c hc
  rw [ofChars_letters hne ha] at hlexeme
  obtain rfl : ⟨.letters, a⟩ = lexeme := by simpa using hlexeme
  simp [extend?, extendedKind?, hb c hc]

/-- A border is behind an opening angle bracket, unless a slash or an exclamation mark follows. -/
theorem Border.of_openAngle {b : List Char} (h : ∀ c ∈ b.head?, c ≠ '/' ∧ c ≠ '!') :
    Border ['<'] b := by
  intro lexeme hlexeme c hc
  obtain rfl : start '<' = lexeme := by simpa [ofChars, split] using hlexeme
  simp [start, startKind, extend?, extendedKind?, h c hc]

/-- A slash extends an opening angle bracket only. -/
theorem Border.slash {a b : List Char} (h : '<' ∉ a) : Border a ('/' :: b) := by
  intro lexeme hlexeme c hc
  obtain rfl : '/' = c := by simpa using hc
  have hmem := List.mem_of_getLast? hlexeme
  have hfits := fits_of_mem_ofChars lexeme hmem
  have hclass := class_of_mem_marks (by decide : '/' ∈ marks)
  have hangle : lexeme.kind ≠ .openAngle := by
    intro hkind
    rw [hkind, Fits] at hfits
    exact h (mem_of_mem_chars hmem (by simp [hfits]))
  obtain ⟨kind, cs⟩ := lexeme
  cases kind <;> simp_all [extend?, extendedKind?]

/-- An at sign extends a closing brace only. -/
theorem Border.atSign {a b : List Char} (h : '\x7d' ∉ a) : Border a ('@' :: b) := by
  intro lexeme hlexeme c hc
  obtain rfl : '@' = c := by simpa using hc
  have hmem := List.mem_of_getLast? hlexeme
  have hclass := class_of_mem_marks (by decide : '@' ∈ marks)
  have hbrace : lexeme.chars ≠ ['\x7d'] := fun hchars => h (mem_of_mem_chars hmem (by simp [hchars]))
  obtain ⟨kind, cs⟩ := lexeme
  cases kind <;> simp_all [extend?, extendedKind?]

end Lexeme

end JobMarkup
