import JobMarkup.Token.Lexeme
import Mathlib.Data.List.Chain

/-!
# Borders between lexemes

A lexeme ends where the next character does not extend it. So a list of lexemes is found again in
its own characters exactly if each lexeme is found alone and none is extended by the first character
of the one behind it. Lists with this property can be cut apart anywhere, and be put together where
the border is one.
-/

namespace JobMarkup

namespace Lexeme

/-- The lexeme is found in its own characters. -/
def Solid (lexeme : Lexeme) : Prop := ofChars lexeme.chars = [lexeme]

/-- The first character of the second lexeme does not extend the first lexeme. -/
def Apart (first second : Lexeme) : Prop := ∀ c ∈ second.chars.head?, first.extend? c = none

/-- Lexemes that are found in their own characters. -/
structure IsCut (lexemes : List Lexeme) : Prop where
  solid : ∀ lexeme ∈ lexemes, Solid lexeme
  chain : lexemes.IsChain Apart

/-- Cutting characters always gives a lexeme, since the one that has begun is kept. -/
theorem split_ne_nil (current : Lexeme) (cs : List Char) : current.split cs ≠ [] := by
  induction cs generalizing current with
  | nil => simp [split]
  | cons c rest ih =>
    rw [split]
    cases current.extend? c with
    | some longer => exact ih longer
    | none => simp

/-- A text that is not empty is cut into at least one lexeme. -/
theorem ofChars_ne_nil {cs : List Char} (h : cs ≠ []) : ofChars cs ≠ [] := by
  obtain ⟨c, rest, rfl⟩ := List.exists_cons_of_ne_nil h
  exact split_ne_nil _ _

/-- The first lexeme that is found begins with what has begun. -/
theorem exists_split_eq_cons (current : Lexeme) (cs : List Char) :
    ∃ first rest, current.split cs = first :: rest ∧ current.chars <+: first.chars := by
  induction cs generalizing current with
  | nil => exact ⟨current, [], rfl, List.prefix_refl _⟩
  | cons c rest ih =>
    rw [split]
    cases h : current.extend? c with
    | none => exact ⟨current, _, rfl, List.prefix_refl _⟩
    | some longer =>
      obtain ⟨first, others, hsplit, hfront⟩ := ih longer
      rw [chars_of_extend? h] at hfront
      exact ⟨first, others, hsplit, (List.prefix_append _ _).trans hfront⟩

/-- Where one lexeme is found so far, cutting goes on with it. -/
theorem split_append {current lexeme : Lexeme} {cs : List Char}
    (h : current.split cs = [lexeme]) (rest : List Char) :
    current.split (cs ++ rest) = lexeme.split rest := by
  induction cs generalizing current with
  | nil =>
    rw [split, List.cons.injEq] at h
    rw [h.1, List.nil_append]
  | cons c cs ih =>
    rw [List.cons_append, split]
    rw [split] at h
    cases hextend : current.extend? c with
    | some longer =>
      rw [hextend] at h
      exact ih h
    | none =>
      simp only [hextend, List.cons.injEq] at h
      exact absurd h.2 (split_ne_nil _ _)

/-- A lexeme ends in front of a character that does not extend it. -/
theorem split_of_not_extend {lexeme : Lexeme} {rest : List Char}
    (h : ∀ c ∈ rest.head?, lexeme.extend? c = none) : lexeme.split rest = lexeme :: ofChars rest := by
  cases rest with
  | nil => rfl
  | cons c rest => simp [split, h c rfl, ofChars]

/-- A lexeme that is found in its own characters has some. -/
theorem Solid.chars_ne_nil {lexeme : Lexeme} (h : lexeme.Solid) : lexeme.chars ≠ [] := by
  intro hnil
  rw [Solid, hnil] at h
  exact absurd h (by simp [ofChars])

/-- A solid lexeme is found in front of what does not extend it. -/
theorem Solid.ofChars_append {lexeme : Lexeme} (h : lexeme.Solid) {rest : List Char}
    (hrest : ∀ c ∈ rest.head?, lexeme.extend? c = none) :
    ofChars (lexeme.chars ++ rest) = lexeme :: ofChars rest := by
  obtain ⟨c, cs, hchars⟩ := List.exists_cons_of_ne_nil h.chars_ne_nil
  rw [Solid, hchars] at h
  rw [hchars, List.cons_append, ofChars, split_append h, split_of_not_extend hrest]

/-- One more character that extends a solid lexeme makes a solid lexeme. -/
theorem Solid.extend {lexeme longer : Lexeme} {c : Char} (h : lexeme.Solid)
    (hextend : lexeme.extend? c = some longer) : longer.Solid := by
  obtain ⟨first, cs, hchars⟩ := List.exists_cons_of_ne_nil h.chars_ne_nil
  rw [Solid, hchars] at h
  rw [Solid, chars_of_extend? hextend, hchars, List.cons_append, ofChars, split_append h, split,
    hextend]
  rfl

/-- A single character is found as the lexeme that it begins. -/
theorem solid_start (c : Char) : (start c).Solid := rfl

/-- Every lexeme that is found is solid, and its border to the next one is one. -/
theorem isCut_split {current : Lexeme} (h : current.Solid) (cs : List Char) :
    IsCut (current.split cs) := by
  induction cs generalizing current with
  | nil => exact ⟨by simpa [split] using h, List.isChain_singleton _⟩
  | cons c rest ih =>
    rw [split]
    cases hextend : current.extend? c with
    | some longer => exact ih (h.extend hextend)
    | none =>
      obtain ⟨hsolid, hchain⟩ := ih (solid_start c)
      obtain ⟨first, others, hsplit, behind, hbehind⟩ := exists_split_eq_cons (start c) rest
      refine ⟨?_, ?_⟩
      · intro lexeme hmem
        rcases List.mem_cons.mp hmem with rfl | hmem
        · exact h
        · exact hsolid lexeme hmem
      · rw [hsplit] at hchain ⊢
        refine List.isChain_cons_cons.mpr ⟨?_, hchain⟩
        intro d hd
        rw [← hbehind] at hd
        obtain rfl : c = d := by simpa [start] using hd
        exact hextend

/-- The lexemes of any text are found in their own characters, and none of them goes on into the
next one. -/
theorem isCut_ofChars (cs : List Char) : IsCut (ofChars cs) := by
  cases cs with
  | nil => exact ⟨by simp [ofChars], List.isChain_nil⟩
  | cons c rest => exact isCut_split (solid_start c) rest

/-- Lexemes that are found in their own characters are all that is found there. -/
theorem IsCut.ofChars_flatMap {lexemes : List Lexeme} (h : IsCut lexemes) :
    ofChars (lexemes.flatMap chars) = lexemes := by
  induction lexemes with
  | nil => rfl
  | cons lexeme rest ih =>
    obtain ⟨hsolid, hchain⟩ := h
    have hrest := ih ⟨fun other hmem => hsolid other (List.mem_cons_of_mem _ hmem), hchain.tail⟩
    rw [List.flatMap_cons, (hsolid lexeme List.mem_cons_self).ofChars_append, hrest]
    intro c hc
    cases rest with
    | nil => simp at hc
    | cons next rest =>
      have hnext := (hsolid next (by simp)).chars_ne_nil
      refine (List.isChain_cons_cons.mp hchain).1 c ?_
      rw [List.flatMap_cons, List.head?_append_of_ne_nil _ hnext] at hc
      exact hc

/-- Lexemes in a row among lexemes of a text are those of their own characters. -/
theorem IsCut.part {lexemes part : List Lexeme} (h : IsCut lexemes) (hpart : part <:+: lexemes) :
    IsCut part :=
  ⟨fun lexeme hmem => h.solid lexeme (hpart.subset hmem), h.chain.infix hpart⟩

/-- The first lexeme of a text begins as the text does. -/
theorem head?_chars_of_mem_head?_ofChars {lexeme : Lexeme} {cs : List Char}
    (h : lexeme ∈ (ofChars cs).head?) : lexeme.chars.head? = cs.head? := by
  obtain ⟨rest, hrest⟩ := List.head?_eq_some_iff.mp h
  have hsolid := (isCut_ofChars cs).solid lexeme (List.mem_of_mem_head? h)
  have hchars := flatMap_chars_ofChars cs
  rw [hrest, List.flatMap_cons] at hchars
  rw [← hchars, List.head?_append_of_ne_nil _ hsolid.chars_ne_nil]

/-- The last lexeme of a text ends as the text does. -/
theorem getLast?_chars_of_mem_getLast?_ofChars {lexeme : Lexeme} {cs : List Char}
    (h : lexeme ∈ (ofChars cs).getLast?) : lexeme.chars.getLast? = cs.getLast? := by
  obtain ⟨before, hbefore⟩ := List.getLast?_eq_some_iff.mp h
  have hsolid := (isCut_ofChars cs).solid lexeme (List.mem_of_getLast? h)
  have hchars := flatMap_chars_ofChars cs
  rw [hbefore, List.flatMap_append, List.flatMap_singleton] at hchars
  rw [← hchars, List.getLast?_append_of_ne_nil _ hsolid.chars_ne_nil]

/-- No lexeme goes on from the first text into the second. -/
def Border (a b : List Char) : Prop :=
  ∀ lexeme ∈ (ofChars a).getLast?, ∀ c ∈ b.head?, lexeme.extend? c = none

/-- Two texts with a border between them are cut one after the other. -/
theorem ofChars_append {a b : List Char} (h : Border a b) :
    ofChars (a ++ b) = ofChars a ++ ofChars b := by
  have hcut : IsCut (ofChars a ++ ofChars b) := by
    obtain ⟨hsolid, hchain⟩ := isCut_ofChars a
    obtain ⟨hsolid', hchain'⟩ := isCut_ofChars b
    refine ⟨?_, List.isChain_append.mpr ⟨hchain, hchain', ?_⟩⟩
    · intro lexeme hmem
      rcases List.mem_append.mp hmem with hmem | hmem
      · exact hsolid lexeme hmem
      · exact hsolid' lexeme hmem
    · intro lexeme hlexeme next hnext c hc
      rw [head?_chars_of_mem_head?_ofChars hnext] at hc
      exact h lexeme hlexeme c hc
  have hchars := hcut.ofChars_flatMap
  rwa [List.flatMap_append, flatMap_chars_ofChars, flatMap_chars_ofChars] at hchars

end Lexeme

end JobMarkup
