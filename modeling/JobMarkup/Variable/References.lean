import JobMarkup.Span
import JobMarkup.Variable.Identifier

/-!
# Variable references

A reference is one use of a variable in a document. References are collected by variable: the
variables in the order of their first use, and for each of them its uses in order. Two collections
are the same if every variable has the same uses in both.
-/

namespace JobMarkup.Variable

/-- One use of a variable. -/
structure Reference where
  identifier : Identifier
  span : Span
deriving DecidableEq

/-- The uses of variables, by variable. -/
structure References where
  entries : List (Identifier × List Span) := []
deriving DecidableEq

namespace References

/-- No uses. -/
def empty : References := {}

/-- Add a use to its variable, or a variable with its first use behind all others. -/
def addTo (reference : Reference) : List (Identifier × List Span) → List (Identifier × List Span)
  | [] => [(reference.identifier, [reference.span])]
  | (identifier, spans) :: rest =>
    if identifier = reference.identifier then (identifier, spans ++ [reference.span]) :: rest
    else (identifier, spans) :: addTo reference rest

/-- Add one use. -/
def add (references : References) (reference : Reference) : References :=
  ⟨addTo reference references.entries⟩

/-- Add uses one after the other. -/
def addAll (references : References) (added : List Reference) : References :=
  added.foldl add references

/-- The variables, in the order of their first use. -/
def identifiers (references : References) : List Identifier := references.entries.map Prod.fst

/-- All uses, grouped by variable. -/
def spans (references : References) : List Span := references.entries.flatMap Prod.snd

/-- The uses of one variable, if it has any. -/
def get? (references : References) (identifier : Identifier) : Option (List Span) :=
  references.entries.lookup identifier

/-- The number of variables. -/
def size (references : References) : Nat := references.entries.length

/-- Every variable has the same uses in both collections, in whatever order the variables come. -/
def same (a b : References) : Bool :=
  a.size == b.size &&
    a.entries.all (fun entry => b.get? entry.1 == some entry.2)

/-- Without uses to add, the references stay as they are. -/
@[simp] theorem addAll_nil (references : References) : references.addAll [] = references := rfl

/-- Two lists of uses are added one after the other as their concatenation is added at once. -/
theorem addAll_append (references : References) (first second : List Reference) :
    references.addAll (first ++ second) = (references.addAll first).addAll second := by
  simp [addAll]

end References

end JobMarkup.Variable
