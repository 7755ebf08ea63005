import CustomProperties.Text.Order

/-!
How alike two texts are. They share their longest common block and what the parts before it and the
parts behind it share in turn. Of equally long blocks the one counts that stands first in the first
text, and then the one that stands first in the second.
-/

namespace CustomProperties.Text

/-- A block that two texts have in common: where it starts in each of them, and its length. -/
structure Block where
  first : Nat
  second : Nat
  length : Nat
deriving DecidableEq, Repr

def sharedFront : Text → Text → Nat
  | a :: s, b :: t => if a = b then sharedFront s t + 1 else 0
  | _, _ => 0

/-- The longest block that a text starts with and another one has anywhere. -/
def frontBlock (s : Text) : Text → Block
  | [] => ⟨0, 0, 0⟩
  | b :: t =>
      let later := frontBlock s t
      if sharedFront s (b :: t) < later.length then { later with second := later.second + 1 }
      else ⟨0, 0, sharedFront s (b :: t)⟩

def longestBlock : Text → Text → Block
  | [], _ => ⟨0, 0, 0⟩
  | a :: s, t =>
      let here := frontBlock (a :: s) t
      let later := longestBlock s t
      if here.length < later.length then { later with first := later.first + 1 } else here

theorem sharedFront_le (s t : Text) : sharedFront s t ≤ s.length := by
  fun_induction sharedFront s t with
  | case1 => simpa
  | case2 => simp
  | case3 => simp

theorem frontBlock_le (s t : Text) :
    (frontBlock s t).first = 0 ∧ (frontBlock s t).length ≤ s.length := by
  induction t with
  | nil => simp [frontBlock]
  | cons b t ih =>
      rw [frontBlock]
      split
      · exact ih
      · exact ⟨rfl, sharedFront_le s (b :: t)⟩

theorem longestBlock_le (s t : Text) :
    (longestBlock s t).first + (longestBlock s t).length ≤ s.length := by
  induction s with
  | nil => simp [longestBlock]
  | cons a s ih =>
      rw [longestBlock]
      split
      · simp only [List.length_cons]
        omega
      · have := frontBlock_le (a :: s) t
        omega

def shared (s t : Text) : Nat :=
  match _h : longestBlock s t with
  | ⟨_, _, 0⟩ => 0
  | ⟨i, j, n + 1⟩ =>
      shared (s.take i) (t.take j) + (n + 1) +
        shared (s.drop (i + (n + 1))) (t.drop (j + (n + 1)))
termination_by s.length
decreasing_by all_goals
  have within := longestBlock_le s t
  rw [_h] at within
  simp only [List.length_take, List.length_drop] at within ⊢
  omega

/-- True of texts that share at least three fifths of their characters. -/
def isClose (s t : Text) : Bool := 3 * (s.length + t.length) ≤ 10 * shared s t

/-- True when `s` is at least as close to a text as `t` is; of equally close texts the greater one
goes first. -/
def isCloser (word s t : Text) : Bool :=
  let left := shared s word * (t.length + word.length)
  let right := shared t word * (s.length + word.length)
  right < left || (left == right && !isBefore s t)

def closest (word : Text) (texts : List Text) : List Text :=
  (sorted (isCloser word) (texts.filter (isClose · word))).take 3

end CustomProperties.Text
