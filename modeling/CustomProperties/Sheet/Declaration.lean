import CustomProperties.Text.Blank
import CustomProperties.Sheet.Token

/-!
Declarations: a name and a value. The value is what the author wrote, without the blanks around
it and without the mark that makes it important; a declaration remembers that text and its offset,
so that a changed value can be put into its place.
-/

namespace CustomProperties

structure Declaration where
  name : Text
  value : Text
  authored : Text
  important : Bool
  position : Position
  start : Nat
deriving DecidableEq, Repr

namespace Declaration

def stop (d : Declaration) : Nat := d.start + d.authored.length

/-- Names that start with two dashes are those of custom properties. -/
def isVariable (d : Declaration) : Bool := ['-', '-'].isPrefixOf d.name

def modified (d : Declaration) : Bool := d.value != d.authored

def assign (d : Declaration) (value : Text) : Declaration := { d with value }

/-- Case does not count, and neither do the dots of an i. -/
def sameLetter (letter c : Char) : Bool :=
  c.toLower == letter || (letter == 'i' && (c == 'İ' || c == 'ı'))

def dropWord : Text → Text → Option Text
  | [], rest => some rest
  | _ :: _, [] => none
  | letter :: letters, c :: rest => if sameLetter letter c then dropWord letters rest else none

/-- The value within a trimmed text, and whether it is marked as important: the word comes last,
an exclamation mark before it, and blanks may stand before either. -/
def splitImportant (body : Text) : Text × Bool :=
  match dropWord "important".toList.reverse body.reverse with
  | none => (body, false)
  | some rest =>
      match rest.dropWhile isBlank with
      | '!' :: rest => ((rest.dropWhile isBlank).reverse, true)
      | _ => (body, false)

/-- The declaration that a property and the value behind it make. The text of the value starts
with its colon. -/
def ofTokens (property value : Token) : Declaration :=
  let text := value.text.drop 1
  let body := splitImportant (Text.trim text)
  { name := property.text
    value := body.1
    authored := body.1
    important := body.2
    position := property.start
    start := value.start.offset + 1 + Text.indent text }

end Declaration

end CustomProperties
