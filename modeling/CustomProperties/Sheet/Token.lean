import CustomProperties.Text.Position

/-!
The tokens of a stylesheet: only the block structure is read. What stands before a brace, a
statement without a block, and a value each are one token.
-/

namespace CustomProperties

inductive Kind where
  | prelude
  | openBrace
  | closeBrace
  | semicolon
  | property
  | value
  | statement
deriving DecidableEq, Repr

def Kind.label : Kind → String
  | .prelude => "PRELUDE"
  | .openBrace => "LBRACE"
  | .closeBrace => "RBRACE"
  | .semicolon => "SEMICOLON"
  | .property => "PROPERTY"
  | .value => "DECL_VALUE"
  | .statement => "AT_STATEMENT"

structure Token where
  kind : Kind
  text : Text
  start : Position
deriving DecidableEq, Repr

def Token.stop (t : Token) : Position := t.start.advance t.text

end CustomProperties
