import JobMarkup.Template.Basic
import JobMarkup.Variable.Values

/-!
# Writing a template

A template is written to a text that grows: names, keys and literals as they are, and for a symbol
the value of its variable. What has been written is not looked at again. The layout of the source is
not kept: there is one space before each attribute and nothing between tags, and a tag without
content and children closes itself.
-/

namespace JobMarkup.Template

open Variable

/-- Write the value of the variable that a symbol refers to. -/
def Symbol.write (values : Values) (out : String) (symbol : Symbol) : String :=
  out ++ values.get symbol.identifier

/-- Write a piece of a value. -/
def Value.write (values : Values) (out : String) : Value → String
  | literal excerpt => out ++ excerpt.text
  | symbol reference => reference.write values out

/-- Write a value piece by piece. -/
def writeValue (values : Values) (out : String) (pieces : List Value) : String :=
  pieces.foldl (Value.write values) out

/-- Write an attribute: the key and the value in quotes. -/
def Attribute.write (values : Values) (out : String) (attr : Attribute) : String :=
  (writeValue values (out ++ attr.key.text ++ "=\"") attr.value).push '"'

/-- Write an opening tag up to its end: the name, and the attributes with a space before each. -/
def writeTag (values : Values) (out name : String) (attributes : List Attribute) : String :=
  attributes.foldl (fun out attr => attr.write values (out.push ' ')) (out.push '<' ++ name)

/-- Write a closing tag. -/
def writeClosingTag (out name : String) : String := (out ++ "</" ++ name).push '>'

mutual

/-- Write an element. If it has content, its children do not count. -/
def Element.write (values : Values) (out : String) : Element → String
  | ⟨name, attributes, some content, _⟩ =>
    writeClosingTag
      (writeValue values ((writeTag values out name.text attributes).push '>') content) name.text
  | ⟨name, attributes, none, child :: children⟩ =>
    writeClosingTag
      (writeElements values
        (child.write values ((writeTag values out name.text attributes).push '>')) children)
      name.text
  | ⟨name, attributes, none, []⟩ => writeTag values out name.text attributes ++ "/>"

/-- Write elements one after the other. -/
def writeElements (values : Values) (out : String) : List Element → String
  | [] => out
  | element :: rest => writeElements values (element.write values out) rest

end

/-- Write a document; nothing without a root. -/
def Document.write (values : Values) (out : String) (document : Document) : String :=
  match document.root with
  | some root => root.write values out
  | none => out

/-- Write a part of a template. -/
def Node.write (values : Values) (out : String) : Node → String
  | .excerpt taken => out ++ taken.text
  | .symbol reference => reference.write values out
  | .attribute attr => attr.write values out
  | .element root => root.write values out
  | .values pieces => writeValue values out pieces
  | .document whole => whole.write values out

/-- A document with its variables replaced by values. -/
def Document.instantiate (document : Document) (values : Values) : String := document.write values ""

/-- A part of a template with its variables replaced by values. -/
def Node.instantiate (node : Node) (values : Values) : String := node.write values ""

end JobMarkup.Template
