/-!
# Highlights

A highlight is a run of characters on one line and the category that an editor shows it in.
-/

namespace JobMarkup

/-- The categories of highlights. -/
inductive Category where
  | comment
  | element
  | variableName
  | attributeName
  | string
  | interpolationMark
deriving DecidableEq

namespace Category

/-- All categories, in the order of their numbers. -/
def all : List Category :=
  [comment, element, variableName, attributeName, string, interpolationMark]

/-- The number of a category. -/
def index : Category → Nat
  | comment => 0
  | element => 1
  | variableName => 2
  | attributeName => 3
  | string => 4
  | interpolationMark => 5

/-- The name of a category. -/
def name : Category → String
  | comment => "comment"
  | element => "element"
  | variableName => "variableValue"
  | attributeName => "attribute"
  | string => "string"
  | interpolationMark => "variableInterpolation"

/-- The names of all categories, in the order of their numbers. -/
def legend : List String := all.map name

/-- The category with the given name. -/
def ofName? (text : String) : Option Category := all.find? (fun category => category.name == text)

/-- The category with the given number. -/
def ofIndex? (n : Nat) : Option Category := all[n]?

/-- A category is found again from its index in the legend, so different categories have different
indices. -/
theorem ofIndex?_index (category : Category) : ofIndex? category.index = some category := by
  cases category <;> rfl

/-- A category is found again from its name, so different categories have different names. -/
theorem ofName?_name (category : Category) : ofName? category.name = some category := by
  cases category <;> rfl

end Category

/-- A run of characters on one line, and its category. -/
structure Highlight where
  category : Category
  line : Nat
  start : Nat
  length : Nat
deriving DecidableEq

/-- The column of the last character. -/
def Highlight.last (highlight : Highlight) : Nat := highlight.start + (highlight.length - 1)

end JobMarkup
