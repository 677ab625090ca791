import JobMarkup.Variable.Identifier
import Mathlib.Data.Set.Function

/-!
# Which texts are written identifiers

A text names a variable if and only if it has a slash, and its last slash is neither its first nor its
last character. What is in front of this slash is the namespace, which may hold slashes of its own
and end in one. An identifier is read back from its written form exactly if its namespace and its key
are there and no slash is in the key. So reading and writing are inverse to each other between the
texts that name a variable and these identifiers.
-/

namespace JobMarkup.Variable

/-- Behind the last separator there is none. -/
theorem not_mem_of_splitLast {separator : Char} {cs before behind : List Char}
    (h : splitLast separator cs = some (before, behind)) : separator ∉ behind := by
  induction cs generalizing before with
  | nil => simp [splitLast] at h
  | cons c rest ih =>
    rw [splitLast] at h
    cases hrest : splitLast separator rest with
    | none =>
      by_cases hc : c = separator
      · obtain ⟨-, rfl⟩ : before = [] ∧ rest = behind := by simpa [hrest, hc, eq_comm] using h
        exact splitLast_eq_none_iff.mp hrest
      · simp [hrest, hc] at h
    | some pair =>
      obtain ⟨-, rfl⟩ : c :: pair.1 = before ∧ pair.2 = behind := by simpa [hrest] using h
      exact ih hrest

/-- A list is cut where the separator stands the last time. -/
theorem splitLast_eq_some_iff {separator : Char} {cs before behind : List Char} :
    splitLast separator cs = some (before, behind)
      ↔ cs = before ++ separator :: behind ∧ separator ∉ behind := by
  constructor
  · exact fun h => ⟨eq_append_of_splitLast h, not_mem_of_splitLast h⟩
  · rintro ⟨rfl, hbehind⟩
    exact splitLast_append_cons hbehind before

namespace Identifier

/-! ## The last slash -/

/-- The last slash of a text stands at an index. -/
def IsLastSlash (text : String) (index : Nat) : Prop :=
  text.toList[index]? = some '/' ∧ ∀ later, index < later → text.toList[later]? ≠ some '/'

variable {text : String} {identifier : Identifier}

/-- The last slash stands between what is in front of it and what is behind it. -/
theorem isLastSlash_iff {index : Nat} :
    IsLastSlash text index ↔ ∃ before behind, text.toList = before ++ '/' :: behind
      ∧ '/' ∉ behind ∧ before.length = index := by
  constructor
  · rintro ⟨hslash, hlater⟩
    obtain ⟨hlt, hchar⟩ := List.getElem?_eq_some_iff.mp hslash
    refine ⟨text.toList.take index, text.toList.drop (index + 1), ?_, fun hmem => ?_, ?_⟩
    · rw [← hchar, ← List.drop_eq_getElem_cons hlt, List.take_append_drop]
    · obtain ⟨offset, hoffset⟩ := List.mem_iff_getElem?.mp hmem
      rw [List.getElem?_drop] at hoffset
      exact hlater _ (by omega) hoffset
    · exact List.length_take_of_le (Nat.le_of_lt hlt)
  · rintro ⟨before, behind, htext, hbehind, rfl⟩
    rw [IsLastSlash, htext]
    refine ⟨by simp, fun later hlater hslash => hbehind ?_⟩
    obtain ⟨offset, rfl⟩ := Nat.exists_eq_add_of_lt hlater
    have hoffset : before.length + offset + 1 - before.length = offset + 1 := by omega
    rw [List.getElem?_append_right (by omega), hoffset, List.getElem?_cons_succ] at hslash
    exact List.mem_of_getElem? hslash

/-- A text with a slash has a last one. -/
theorem exists_isLastSlash (h : '/' ∈ text.toList) : ∃ index, IsLastSlash text index := by
  cases hsplit : splitLast '/' text.toList with
  | none => exact absurd h (splitLast_eq_none_iff.mp hsplit)
  | some pair =>
    obtain ⟨htext, hbehind⟩ := splitLast_eq_some_iff.mp hsplit
    exact ⟨pair.1.length, isLastSlash_iff.mpr ⟨pair.1, pair.2, htext, hbehind, rfl⟩⟩

/-- The last slash is a slash of the text. -/
theorem IsLastSlash.mem {index : Nat} (h : IsLastSlash text index) : '/' ∈ text.toList :=
  List.mem_of_getElem? h.1

/-- The last slash stands in the text. -/
theorem IsLastSlash.lt_length {index : Nat} (h : IsLastSlash text index) : index < text.length := by
  rw [← String.length_toList]
  exact (List.getElem?_eq_some_iff.mp h.1).1

/-- There is only one last slash, so a text is read in one way. -/
theorem IsLastSlash.unique {a b : Nat} (ha : IsLastSlash text a) (hb : IsLastSlash text b) : b = a := by
  by_contra hne
  rcases Nat.lt_or_gt_of_ne hne with hlt | hlt
  · exact hb.2 a hlt ha.1
  · exact ha.2 b hlt hb.1

/-- What is said of a last slash is said of the one there is. -/
theorem IsLastSlash.exists_and_iff {index : Nat} (h : IsLastSlash text index) {p : Nat → Prop} :
    (∃ other, IsLastSlash text other ∧ p other) ↔ p index := by
  constructor
  · rintro ⟨other, hother, hp⟩
    rwa [← h.unique hother]
  · exact fun hp => ⟨index, h, hp⟩

/-! ## Reading -/

/-- A text without a slash has no namespace, so it names no variable. -/
theorem parse_of_slash_not_mem (h : '/' ∉ text.toList) :
    parse text = .error (.missingNamespace text) := by
  rw [parse, splitLast_eq_none_iff.mpr h]

/-- A text with a slash is read by where the last one stands. -/
theorem parse_of_isLastSlash {index : Nat} (h : IsLastSlash text index) :
    parse text = if index = 0 then .error (.missingNamespace text)
      else if index + 1 = text.length then .error (.emptyKey text)
      else .ok ⟨String.ofList (text.toList.take index), String.ofList (text.toList.drop (index + 1))⟩ := by
  obtain ⟨before, behind, htext, hbehind, rfl⟩ := isLastSlash_iff.mp h
  have hlength : text.length = before.length + 1 + behind.length := by
    rw [← String.length_toList, htext, List.length_append, List.length_cons]
    omega
  have hfirst : before.isEmpty = true ↔ before.length = 0 := by
    rw [List.isEmpty_iff, List.length_eq_zero_iff]
  have hlast : behind.isEmpty = true ↔ before.length + 1 = text.length := by
    rw [List.isEmpty_iff, ← List.length_eq_zero_iff, hlength]
    omega
  rw [parse, splitLast_eq_some_iff.mpr ⟨htext, hbehind⟩, htext, List.take_left,
    List.drop_length_add_append]
  simp only [hfirst, hlast, List.drop_one, List.tail_cons]

/-- An identifier is read from a text exactly if its last slash is neither at its front nor at
its end. -/
theorem exists_parse_eq_ok_iff :
    (∃ identifier, parse text = .ok identifier)
      ↔ ∃ index, IsLastSlash text index ∧ 0 < index ∧ index + 1 < text.length := by
  by_cases hmem : '/' ∈ text.toList
  · obtain ⟨index, hindex⟩ := exists_isLastSlash hmem
    have hlt := hindex.lt_length
    rw [hindex.exists_and_iff, parse_of_isLastSlash hindex]
    split
    · next hfirst => simp [hfirst]
    · split
      · next hend => simp [hend]
      · next hfirst hend => exact iff_of_true ⟨_, rfl⟩ ⟨by omega, by omega⟩
  · rw [parse_of_slash_not_mem hmem]
    exact iff_of_false (by simp) fun ⟨_, hindex, _⟩ => hmem hindex.mem

/-- Why no identifier is read from a text, by where its last slash stands. -/
theorem parse_eq_error_iff {cause : IdentifierError} :
    parse text = .error cause
      ↔ (cause = .missingNamespace text ∧ ('/' ∉ text.toList ∨ IsLastSlash text 0))
        ∨ (cause = .emptyKey text
          ∧ ∃ index, IsLastSlash text index ∧ 0 < index ∧ index + 1 = text.length) := by
  by_cases hmem : '/' ∈ text.toList
  · obtain ⟨index, hindex⟩ := exists_isLastSlash hmem
    have hfront : IsLastSlash text 0 ↔ index = 0 :=
      ⟨fun h => h.unique hindex, fun h => h ▸ hindex⟩
    rw [hindex.exists_and_iff, parse_of_isLastSlash hindex, hfront]
    split
    · next hfirst => simp [hfirst, hmem, eq_comm]
    · next hfirst =>
      have hpos : 0 < index := by omega
      split
      · next hend => simp [hfirst, hmem, hend, hpos, eq_comm]
      · next hend => simp [hfirst, hmem, hend]
  · rw [parse_of_slash_not_mem hmem]
    have hnone : ¬ ∃ index, IsLastSlash text index ∧ 0 < index ∧ index + 1 = text.length :=
      fun ⟨_, hindex, _⟩ => hmem hindex.mem
    simp [hmem, hnone, eq_comm]

/-! ## Identifiers that can be written -/

/-- The namespace and the key are there, and the key has no slash. -/
structure IsLegal (identifier : Identifier) : Prop where
  scope_ne : identifier.scope ≠ ""
  key_ne : identifier.key ≠ ""
  slash_not_mem : '/' ∉ identifier.key.toList

/-- What is read from a text is legal. -/
theorem isLegal_of_parse (h : parse text = .ok identifier) : identifier.IsLegal := by
  rw [parse] at h
  split at h
  · simp at h
  · next before behind hsplit =>
    by_cases hbefore : before = []
    · simp [hbefore] at h
    · by_cases hbehind : behind = []
      · simp [hbefore, hbehind] at h
      · obtain rfl : ⟨String.ofList before, String.ofList behind⟩ = identifier := by
          simpa [hbefore, hbehind] using h
        exact ⟨by simpa using hbefore, by simpa using hbehind,
          by simpa using not_mem_of_splitLast hsplit⟩

/-- An identifier is read from a text exactly if it is legal and the text is its written form. -/
theorem parse_eq_ok_iff :
    parse text = .ok identifier ↔ identifier.IsLegal ∧ identifier.toText = text := by
  refine ⟨fun h => ⟨isLegal_of_parse h, toText_of_parse h⟩, ?_⟩
  rintro ⟨⟨hscope, hkey, hslash⟩, rfl⟩
  have hread := parse_of_append (mt String.toList_eq_nil_iff.mp hscope)
    (mt String.toList_eq_nil_iff.mp hkey) hslash
  have htext : String.ofList (identifier.scope.toList ++ '/' :: identifier.key.toList)
      = identifier.toText := by
    rw [← String.toList_inj]
    simp [toText]
  rwa [htext, String.ofList_toList, String.ofList_toList] at hread

/-- A text names a variable if and only if it has a slash and the last one is neither its first nor its
last character. The identifier then has the text as its written form, its namespace and its key are
there, and the key has no slash. Of the other texts those without a slash, and those whose last slash
is their first character, have no namespace, also if they have no key either; the others have an empty
key. An identifier is read back from its written form if and only if its namespace and its key are
there and the key has no slash, so no two such identifiers have one written form. -/
theorem parse_inverse_toText :
    (∀ text, (∃ identifier, parse text = .ok identifier)
        ↔ ∃ index, IsLastSlash text index ∧ 0 < index ∧ index + 1 < text.length)
      ∧ (∀ text identifier, parse text = .ok identifier → identifier.toText = text
        ∧ '/' ∉ identifier.key.toList ∧ identifier.scope ≠ "" ∧ identifier.key ≠ "")
      ∧ (∀ text cause, parse text = .error cause
        ↔ (cause = .missingNamespace text ∧ ('/' ∉ text.toList ∨ IsLastSlash text 0))
          ∨ (cause = .emptyKey text
            ∧ ∃ index, IsLastSlash text index ∧ 0 < index ∧ index + 1 = text.length))
      ∧ (∀ identifier : Identifier, parse identifier.toText = .ok identifier
        ↔ identifier.scope ≠ "" ∧ identifier.key ≠ "" ∧ '/' ∉ identifier.key.toList)
      ∧ Set.InjOn toText {identifier | identifier.IsLegal} := by
  refine ⟨fun text => exists_parse_eq_ok_iff, fun text identifier h => ?_,
    fun text cause => parse_eq_error_iff, fun identifier => ?_, fun a ha b hb htext => ?_⟩
  · have hlegal := isLegal_of_parse h
    exact ⟨toText_of_parse h, hlegal.slash_not_mem, hlegal.scope_ne, hlegal.key_ne⟩
  · rw [parse_eq_ok_iff]
    exact ⟨fun h => ⟨h.1.scope_ne, h.1.key_ne, h.1.slash_not_mem⟩,
      fun ⟨hscope, hkey, hslash⟩ => ⟨⟨hscope, hkey, hslash⟩, rfl⟩⟩
  · have hread := parse_eq_ok_iff.mpr ⟨ha, htext⟩
    rw [parse_eq_ok_iff.mpr ⟨hb, rfl⟩] at hread
    exact (Except.ok.inj hread).symm

/-- A namespace that ends in a slash, and a text of two slashes. -/
theorem parse_inverse_toText_slashes :
    parse "a//b" = .ok ⟨"a/", "b"⟩ ∧ (⟨"a/", "b"⟩ : Identifier).toText = "a//b"
      ∧ parse (⟨"a/", "b"⟩ : Identifier).toText = .ok ⟨"a/", "b"⟩
      ∧ parse "//" = .error (.emptyKey "//") := by
  obtain ⟨-, hread, herror, hwritten, -⟩ := parse_inverse_toText
  have hok : parse "a//b" = .ok ⟨"a/", "b"⟩ := by decide +kernel
  refine ⟨hok, (hread _ _ hok).1, (hwritten _).mpr (by simp),
    (herror _ _).mpr (Or.inr ⟨rfl, 1, ⟨by decide, fun later hlater => ?_⟩, by decide, by decide⟩)⟩
  rw [List.getElem?_eq_none]
  · simp
  · exact hlater

end Identifier

end JobMarkup.Variable
