import CustomProperties.Text.Basic

/-!
Texts in order, and lists sorted by a comparison. Sorting inserts one element after the other, from
the back: an element goes in front of those that it may stand before, so that equal ones keep their
places.
-/

namespace CustomProperties

def Text.isBefore : Text → Text → Bool
  | _, [] => false
  | [], _ :: _ => true
  | a :: s, b :: t => a.toNat < b.toNat || (a.toNat == b.toNat && isBefore s t)

/-- A list with one more element, in front of the first one that it may stand before. -/
def insertSorted (goesFirst : α → α → Bool) (x : α) : List α → List α
  | [] => [x]
  | y :: rest =>
      if goesFirst x y then x :: y :: rest else y :: insertSorted goesFirst x rest

def sorted (goesFirst : α → α → Bool) (l : List α) : List α := l.foldr (insertSorted goesFirst) []

theorem sorted_of_pairwise {goesFirst : α → α → Bool} {l : List α}
    (h : l.Pairwise fun x y => goesFirst x y) : sorted goesFirst l = l := by
  induction h with
  | nil => rfl
  | @cons x rest first _ ih =>
      rw [sorted, List.foldr_cons, ← sorted, ih]
      cases rest with
      | nil => rfl
      | cons y rest => rw [insertSorted, if_pos (first y (List.mem_cons_self ..))]

end CustomProperties
