/-!
# Variable identifiers

A variable is named by a namespace and a key. The written form has a slash between them; the
namespace may hold slashes of its own, so a written form is read by its last slash.
-/

namespace JobMarkup.Variable

/-- The name of a variable. -/
structure Identifier where
  /-- The namespace. -/
  scope : String
  key : String
deriving DecidableEq

/-- Why a text names no variable. -/
inductive IdentifierError where
  | missingNamespace (text : String)
  | emptyKey (text : String)
deriving DecidableEq

/-- The wording of an identifier error. -/
def IdentifierError.message : IdentifierError → String
  | missingNamespace text => s!"variable '{text}' has no namespace; expected namespace/key"
  | emptyKey text => s!"variable '{text}' has an empty key"

/-- The characters before and behind the last occurrence of a separator. -/
def splitLast (separator : Char) : List Char → Option (List Char × List Char)
  | [] => none
  | c :: rest =>
    match splitLast separator rest with
    | some (before, behind) => some (c :: before, behind)
    | none => if c = separator then some ([], rest) else none

/-- A list has no last occurrence of a separator if it has none at all. -/
theorem splitLast_eq_none_iff {separator : Char} {cs : List Char} :
    splitLast separator cs = none ↔ separator ∉ cs := by
  induction cs with
  | nil => simp [splitLast]
  | cons c rest ih =>
    rw [splitLast]
    cases h : splitLast separator rest with
    | none =>
      have hrest := ih.mp h
      by_cases hc : c = separator
      · simp [hc]
      · simp [hc, hrest, Ne.symm hc]
    | some pair =>
      have hrest : separator ∈ rest := by
        by_cases hmem : separator ∈ rest
        · exact hmem
        · simp [ih.mpr hmem] at h
      simp [hrest]

/-- What is before and behind the last separator is all but this separator. -/
theorem eq_append_of_splitLast {separator : Char} {cs before behind : List Char}
    (h : splitLast separator cs = some (before, behind)) : cs = before ++ separator :: behind := by
  induction cs generalizing before with
  | nil => simp [splitLast] at h
  | cons c rest ih =>
    rw [splitLast] at h
    split at h
    · next hsplit =>
      simp only [Option.some.injEq, Prod.mk.injEq] at h
      obtain ⟨rfl, rfl⟩ := h
      rw [ih hsplit, List.cons_append]
    · split at h
      · next hc =>
        simp only [Option.some.injEq, Prod.mk.injEq] at h
        obtain ⟨rfl, rfl⟩ := h
        rw [hc, List.nil_append]
      · simp at h

/-- A separator with none behind it is the last one. -/
theorem splitLast_append_cons {separator : Char} {behind : List Char} (h : separator ∉ behind)
    (before : List Char) :
    splitLast separator (before ++ separator :: behind) = some (before, behind) := by
  induction before with
  | nil => simp [splitLast, splitLast_eq_none_iff.mpr h]
  | cons c rest ih => rw [List.cons_append, splitLast, ih]

namespace Identifier

/-- The written form of an identifier. -/
def toText (identifier : Identifier) : String := identifier.scope ++ "/" ++ identifier.key

/-- The identifier with the given written form. -/
def parse (text : String) : Except IdentifierError Identifier :=
  match splitLast '/' text.toList with
  | none => .error (.missingNamespace text)
  | some (scope, key) =>
    if scope.isEmpty then .error (.missingNamespace text)
    else if key.isEmpty then .error (.emptyKey text)
    else .ok ⟨String.ofList scope, String.ofList key⟩

/-- An identifier has the text that it is read from as its written form. -/
theorem toText_of_parse {text : String} {identifier : Identifier}
    (h : parse text = .ok identifier) : identifier.toText = text := by
  rw [parse] at h
  split at h
  · simp at h
  next scope key hsplit =>
  have hidentifier : ⟨String.ofList scope, String.ofList key⟩ = identifier := by
    by_cases hscope : scope = []
    · simp [hscope] at h
    · by_cases hkey : key = []
      · simp [hscope, hkey] at h
      · simpa [hscope, hkey] using h
  rw [← hidentifier, ← String.toList_inj, eq_append_of_splitLast hsplit]
  simp [toText]

/-- A namespace and a key that are there, with no slash in the key, are read from the slash
between them. -/
theorem parse_of_append {scope key : List Char} (hscope : scope ≠ []) (hkey : key ≠ [])
    (hslash : '/' ∉ key) :
    parse (String.ofList (scope ++ '/' :: key))
      = .ok ⟨String.ofList scope, String.ofList key⟩ := by
  simp [parse, splitLast_append_cons hslash, hscope, hkey]

/-- A text that ends in a slash has no key. -/
theorem parse_of_slash_end {scope : List Char} (hscope : scope ≠ []) :
    parse (String.ofList (scope ++ ['/']))
      = .error (.emptyKey (String.ofList (scope ++ ['/']))) := by
  simp [parse, splitLast_append_cons (List.not_mem_nil : '/' ∉ []), hscope]

/-- The order of identifiers: by namespace, then by key, each by code points. -/
def precedes (a b : Identifier) : Bool :=
  decide (a.scope < b.scope) || (a.scope == b.scope && !decide (b.key < a.key))

/-- Identifiers in order, repeated ones kept. -/
def sort (identifiers : List Identifier) : List Identifier := identifiers.mergeSort precedes

end Identifier

end JobMarkup.Variable
