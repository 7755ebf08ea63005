import CustomProperties.Text.Basic

/-!
Line ends. A text read from a file ends its lines by line feeds alone: a carriage return
with a line feed behind it, and a carriage return that stands alone, each become one.
-/

namespace CustomProperties.Text

def unifyLineEnds : Text → Text
  | [] => []
  | '\r' :: '\n' :: rest => '\n' :: unifyLineEnds rest
  | c :: rest => (if c = '\r' then '\n' else c) :: unifyLineEnds rest

end CustomProperties.Text
