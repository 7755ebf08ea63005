import CustomProperties.Text.Basic

/-!
Blank characters and the trimming of texts. Blank are the separators of every kind, the
line and paragraph separators and the control characters that move the caret; the zero
width space and the byte order mark are not.
-/

namespace CustomProperties

def isBlank (c : Char) : Bool :=
  let n := c.toNat
  (9 ≤ n && n ≤ 13) || (28 ≤ n && n ≤ 32) || n == 0x85 || n == 0xA0 || n == 0x1680 ||
    (0x2000 ≤ n && n ≤ 0x200A) || n == 0x2028 || n == 0x2029 || n == 0x202F ||
    n == 0x205F || n == 0x3000

namespace Text

def trimLeft (t : Text) : Text := t.dropWhile isBlank

def trimRight (t : Text) : Text := (t.reverse.dropWhile isBlank).reverse

def trim (t : Text) : Text := trimRight (trimLeft t)

theorem trimRight_append (t : Text) :
    t.trimRight ++ (t.reverse.takeWhile isBlank).reverse = t := by
  rw [trimRight, ← List.reverse_append, List.takeWhile_append_dropWhile, List.reverse_reverse]

/-- True of a text without any character that shows. -/
def blank (t : Text) : Bool := t.all isBlank

def indent (t : Text) : Nat := (t.takeWhile isBlank).length

end Text

end CustomProperties
