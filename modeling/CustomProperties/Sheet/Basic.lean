import CustomProperties.Sheet.Cursor
import CustomProperties.Sheet.Node
import CustomProperties.Text.Order

/-!
Stylesheets: the text they were read from and the tree read from it. Written back, a stylesheet is
its text with the changed values put in place of the ones the author wrote, and all else kept.
-/

namespace CustomProperties

structure Stylesheet where
  source : Text
  nodes : List Node
deriving Repr

namespace Stylesheet

def parse (source : Text) : Except ParseError Stylesheet :=
  (Token.all source).map fun tokens => ⟨source, (Forests.ofTokens tokens).front⟩

def declarations (s : Stylesheet) : List Declaration := Node.walk [s.nodes]

def modified (s : Stylesheet) : Bool := s.declarations.any Declaration.modified

/-- Put values in place: `source` is the text from the offset `here` on, and the declarations stand
in the order of their offsets. -/
def splice (source : Text) (here : Nat) : List Declaration → Text
  | [] => source
  | d :: ds =>
      source.take (d.start - here) ++ d.value ++ splice (source.drop (d.stop - here)) d.stop ds

def changed (s : Stylesheet) : List Declaration :=
  sorted (fun d e => d.start ≤ e.start) (s.declarations.filter Declaration.modified)

/-- The text of a stylesheet with the changed values in place. -/
def toCss (s : Stylesheet) : Text := splice s.source 0 s.changed

def assign (s : Stylesheet) (index : Nat) (value : Text) : Stylesheet :=
  let change (i : Nat) (d : Declaration) := (if i = index then d.assign value else d, i + 1)
  { s with nodes := (Node.updateAll change 0 s.nodes).1 }

end Stylesheet

end CustomProperties
