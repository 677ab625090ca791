import JobMarkup.Variable.Identifier

/-!
# Variable values

Values are assigned to variables one by one, a later assignment replacing an earlier one. A
variable without a value counts as empty.
-/

namespace JobMarkup.Variable

/-- An assignment of values to variables. -/
structure Values where
  entries : List (Identifier × String) := []

namespace Values

/-- No values. -/
def empty : Values := {}

/-- Replace the value of a variable, or add one behind all others. -/
def setIn (identifier : Identifier) (value : String) :
    List (Identifier × String) → List (Identifier × String)
  | [] => [(identifier, value)]
  | (other, old) :: rest =>
    if other = identifier then (identifier, value) :: rest
    else (other, old) :: setIn identifier value rest

/-- Assign a value. -/
def set (values : Values) (identifier : Identifier) (value : String) : Values :=
  ⟨setIn identifier value values.entries⟩

/-- Assign values one after the other. -/
def ofList (pairs : List (Identifier × String)) : Values :=
  pairs.foldl (fun values pair => values.set pair.1 pair.2) empty

/-- The value of a variable, empty if it has none. -/
def get (values : Values) (identifier : Identifier) : String :=
  (values.entries.lookup identifier).getD ""

/-- The number of variables that have a value. -/
def size (values : Values) : Nat := values.entries.length

/-- A value that is set is found under its own identifier, and the values of the others stay. -/
theorem lookup_setIn (entries : List (Identifier × String)) (identifier other : Identifier)
    (value : String) :
    (setIn identifier value entries).lookup other =
      if other = identifier then some value else entries.lookup other := by
  induction entries with
  | nil =>
    by_cases h : other = identifier
    · simp [setIn, h]
    · have hne : (other == identifier) = false := by simpa using h
      simp [setIn, List.lookup_cons, h, hne]
  | cons entry rest ih =>
    obtain ⟨first, old⟩ := entry
    by_cases hfirst : first = identifier
    · by_cases h : other = identifier
      · simp [setIn, hfirst, h]
      · have hne : (other == identifier) = false := by simpa using h
        simp [setIn, List.lookup_cons, hfirst, h, hne]
    · rw [setIn, if_neg hfirst]
      by_cases hother : other = first
      · simp [hother, hfirst]
      · have hne : (other == first) = false := by simpa using hother
        simp [List.lookup_cons, hne, ih]

/-- The last assignment to a variable is its value. -/
theorem get_set (values : Values) (identifier other : Identifier) (value : String) :
    (values.set identifier value).get other =
      if other = identifier then value else values.get other := by
  rw [get, set, lookup_setIn]
  split <;> simp [get]

end Values

end JobMarkup.Variable
