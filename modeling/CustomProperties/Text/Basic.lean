/-!
A text is a list of characters, so offsets and lengths count code points. A cut divides a
text in two: what a recogniser took from the front, and what it left.
-/

namespace CustomProperties

abbrev Text := List Char

instance : LawfulBEq Text := inferInstanceAs (LawfulBEq (List Char))

structure Cut where
  taken : Text
  rest : Text
deriving DecidableEq, Repr

namespace Cut

def whole (c : Cut) : Text := c.taken ++ c.rest

/-- The cut of a longer text that takes `front` as well. -/
def extend (front : Text) (c : Cut) : Cut := ⟨front ++ c.taken, c.rest⟩

@[simp] theorem taken_extend (front : Text) (c : Cut) :
    (c.extend front).taken = front ++ c.taken := rfl

@[simp] theorem rest_extend (front : Text) (c : Cut) : (c.extend front).rest = c.rest := rfl

@[simp] theorem whole_extend (front : Text) (c : Cut) :
    (c.extend front).whole = front ++ c.whole := by
  simp [whole, extend]

theorem whole_extend_taken {c d : Cut} (h : d.whole = c.rest) :
    (d.extend c.taken).whole = c.whole := by
  rw [whole_extend, h, whole]

@[simp] theorem whole_mk (taken rest : Text) : (Cut.mk taken rest).whole = taken ++ rest := rfl

end Cut

end CustomProperties
