import CustomProperties.Text.Quoted
import CustomProperties.Sheet.Token

/-!
Why a text is not a stylesheet, and how that is told. Every error has a position: that of the
token or character at fault, or of the last token when the text ends within a block.
-/

namespace CustomProperties

structure Excerpt where
  before : Text
  behind : Text
deriving DecidableEq, Repr

inductive ParseError where
  /-- The text ends within a block. -/
  | unclosed (last : Token)
  /-- A token stands where none of its kind can, with `depth` blocks open. -/
  | unexpected (found : Token) (depth : Nat) (last : Option Token)
  /-- No token starts with the character. -/
  | unreadable (char : Char) (start : Position) (excerpt : Excerpt) (last : Option Token)
deriving DecidableEq, Repr

namespace Excerpt

def reach : Nat := 40

def around (source : Text) (offset : Nat) : Excerpt :=
  let before := (source.take offset).drop (offset - reach)
  { before := (before.reverse.takeWhile (· != '\n')).reverse
    behind := ((source.drop offset).take reach).takeWhile (· != '\n') }

/-- The width and the column behind a text whose tabs move to the next multiple of eight. A
carriage return goes back to the first column and still counts as one character. -/
def caret : Text → Nat × Nat → Nat
  | [], (width, _) => width
  | c :: rest, (width, column) =>
      if c = '\t' then
        let gap := 8 - column % 8
        caret rest (width + gap, column + gap)
      else if c = '\r' then caret rest (width + 1, 0)
      else caret rest (width + 1, column + 1)

def render (e : Excerpt) : Text :=
  e.before ++ e.behind ++ '\n' :: List.replicate (caret e.before (0, 0)) ' ' ++ ['^', '\n']

end Excerpt

def Token.render (t : Token) : String :=
  "Token('" ++ t.kind.label ++ "', " ++ String.ofList (Text.quoted t.text) ++ ")"

namespace ParseError

def position : ParseError → Position
  | unclosed last => last.start
  | unexpected found _ _ => found.start
  | unreadable _ start _ _ => start

/-- The line of an error, which is told only if it counts from one. -/
def line? (e : ParseError) : Option Nat := Option.guard (0 < ·) e.position.line

def column? (e : ParseError) : Option Nat := Option.guard (0 < ·) e.position.column

/-- The kinds that can start an item, by their names in order, with the closing brace and the end
of the text where they can stand. -/
def expected (closing ending : Bool) : List String :=
  (if ending then ["$END"] else []) ++
    [Kind.label .statement, Kind.label .prelude, Kind.label .property] ++
    (if closing then [Kind.label .closeBrace] else []) ++ [Kind.label .semicolon]

def expectedLines (names : List String) : String :=
  "Expected one of: \n" ++ String.join (names.map fun name => "\t* " ++ name ++ "\n")

def unexpectedLine (shown : String) (start : Position) : String :=
  "Unexpected token " ++ shown ++ " at line " ++ toString start.line ++ ", column " ++
    toString start.column ++ ".\n"

/-- The token before an unexpected one. Before a closing brace it is told only when there is
none. -/
def previousLine (found : Token) (last : Option Token) : String :=
  match last with
  | none => "Previous tokens: [None]\n"
  | some token =>
      if found.kind = .closeBrace then "" else "Previous tokens: [" ++ token.render ++ "]\n"

def message : ParseError → String
  | unclosed last =>
      unexpectedLine "Token('$END', '')" last.start ++ expectedLines (expected true false)
  | unexpected found depth last =>
      unexpectedLine found.render found.start ++
        expectedLines (expected (depth != 0) (depth == 0)) ++ previousLine found last
  | unreadable char start excerpt last =>
      "No terminal matches '" ++ char.toString ++ "' in the current parser context, at line " ++
        toString start.line ++ " col " ++ toString start.column ++ "\n\n" ++
        String.ofList excerpt.render ++
        match last with
        | none => expectedLines (expected false false)
        | some token =>
            expectedLines
              (if token.kind = .property then [Kind.label .value] else expected true false) ++
              "\nPrevious tokens: " ++ token.render ++ "\n"

end ParseError

end CustomProperties
