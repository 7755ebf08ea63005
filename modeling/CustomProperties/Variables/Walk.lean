import CustomProperties.Text.Basic

/-!
The walk over a graph that finds the names on its cycles. It goes depth first, and keeps the names
that are open on a trail, each with the steps that are still to be taken from it. A name is
numbered when it is first seen, and it stays on a stack until its component is complete, which is
all the names that lead to it and that it leads to. An open name knows the lowest number that was
found on the stack behind it. When that is its own number, then the stack down to the name is a
component. The names of a component lie on a cycle if they are several, or if the one name leads to
itself.
-/

namespace CustomProperties

abbrev Graph := List (Text × List Text)

namespace Graph

def names (g : Graph) : List Text := g.map Prod.fst

def next (g : Graph) (name : Text) : List Text := (g.lookup name).getD []

end Graph

/-- A name on the trail of a walk. -/
structure OpenName where
  name : Text
  number : Nat
  low : Nat
  pending : List Text
deriving DecidableEq, Repr

structure Walk where
  seen : List Text
  stack : List (Text × Nat)
  trail : List OpenName
  cyclic : List Text
deriving DecidableEq, Repr

namespace Walk

def empty : Walk := ⟨[], [], [], []⟩

def enter (w : Walk) (name : Text) (next : List Text) : Walk :=
  { w with
    seen := name :: w.seen
    stack := (name, w.seen.length) :: w.stack
    trail := ⟨name, w.seen.length, w.seen.length, next⟩ :: w.trail }

/-- Take the step from the last open name `o` to `child`; the steps `pending` stay to be taken. -/
def follow (g : Graph) (w : Walk) (o : OpenName) (child : Text) (pending : List Text)
    (trail : List OpenName) : Walk :=
  if child ∈ w.seen then
    match w.stack.lookup child with
    | some number => { w with trail := { o with low := min o.low number, pending } :: trail }
    | none => { w with trail := { o with pending } :: trail }
  else
    match g.lookup child with
    | some next => { w with trail := { o with pending } :: trail }.enter child next
    | none => { w with trail := { o with pending } :: trail }

def popThrough (name : Text) : List (Text × Nat) → List Text × List (Text × Nat)
  | [] => ([], [])
  | entry :: stack =>
      if entry.1 = name then ([name], stack)
      else
        let (component, stack) := popThrough name stack
        (entry.1 :: component, stack)

/-- Let the last open name know of a number behind it. -/
def tellFirst (number : Nat) : List OpenName → List OpenName
  | [] => []
  | o :: trail => { o with low := min o.low number } :: trail

def leave (g : Graph) (w : Walk) (o : OpenName) (trail : List OpenName) : Walk :=
  let w := { w with trail := tellFirst o.low trail }
  if o.low = o.number then
    let (component, stack) := popThrough o.name w.stack
    if 1 < component.length ∨ o.name ∈ g.next o.name then
      { w with stack, cyclic := component ++ w.cyclic }
    else { w with stack }
  else w

def step (g : Graph) (w : Walk) : Walk :=
  match w.trail with
  | [] => w
  | o :: trail =>
      match o.pending with
      | child :: pending => w.follow g o child pending trail
      | [] => w.leave g o trail

/-- The steps that may still be taken from the names that were not seen, counting two more for
each such name. -/
def unseenWeight (seen : List Text) : Graph → Nat
  | [] => 0
  | entry :: g => (if entry.1 ∈ seen then 0 else entry.2.length + 2) + unseenWeight seen g

def trailWeight : List OpenName → Nat
  | [] => 0
  | o :: trail => o.pending.length + 1 + trailWeight trail

def weight (g : Graph) (w : Walk) : Nat := unseenWeight w.seen g + trailWeight w.trail

theorem trailWeight_tellFirst (number : Nat) (trail : List OpenName) :
    trailWeight (tellFirst number trail) = trailWeight trail := by
  cases trail <;> rfl

theorem unseenWeight_cons_le (seen : List Text) (name : Text) (g : Graph) :
    unseenWeight (name :: seen) g ≤ unseenWeight seen g := by
  induction g with
  | nil => simp [unseenWeight]
  | cons entry g ih =>
      by_cases hn : entry.1 = name
      · simp only [unseenWeight, hn, List.mem_cons, true_or, if_true]
        omega
      · simp only [unseenWeight, hn, List.mem_cons, false_or]
        omega

/-- A name that is entered is paid for by what it no longer counts. -/
theorem unseenWeight_enter {seen next : List Text} {name : Text} {g : Graph}
    (fresh : name ∉ seen) (known : g.lookup name = some next) :
    unseenWeight (name :: seen) g + (next.length + 2) ≤ unseenWeight seen g := by
  induction g with
  | nil => simp at known
  | cons entry g ih =>
      obtain ⟨key, steps⟩ := entry
      by_cases hn : key = name
      · subst hn
        have same : steps = next := by simpa using known
        have := unseenWeight_cons_le seen key g
        simp only [unseenWeight, same, fresh, List.mem_cons, true_or, if_true, if_false]
        omega
      · have known' : g.lookup name = some next := by
          simpa [List.lookup_cons, beq_eq_false_iff_ne.2 (Ne.symm hn)] using known
        have := ih known'
        simp only [unseenWeight, hn, List.mem_cons, false_or]
        omega

theorem weight_follow_lt (g : Graph) (w : Walk) (o : OpenName) (child : Text)
    (pending : List Text) (trail : List OpenName) :
    (w.follow g o child pending trail).weight g <
      unseenWeight w.seen g + (pending.length + 2 + trailWeight trail) := by
  unfold follow
  split
  · split <;> simp only [weight, trailWeight] <;> omega
  · rename_i fresh
    split
    · rename_i next known
      have := unseenWeight_enter fresh known
      simp only [weight, enter, trailWeight]
      omega
    · simp only [weight, trailWeight]
      omega

theorem weight_leave (g : Graph) (w : Walk) (o : OpenName) (trail : List OpenName) :
    (w.leave g o trail).weight g = unseenWeight w.seen g + trailWeight trail := by
  unfold leave
  split
  · dsimp only
    split <;> simp only [weight, trailWeight_tellFirst]
  · simp only [weight, trailWeight_tellFirst]

theorem weight_step_lt {g : Graph} {w : Walk} (h : w.trail ≠ []) :
    (w.step g).weight g < w.weight g := by
  unfold step
  split
  · contradiction
  · rename_i o trail ht
    split
    · rename_i child pending hp
      have := weight_follow_lt g w o child pending trail
      simp only [weight, ht, trailWeight, hp, List.length_cons] at this ⊢
      omega
    · rw [weight_leave]
      simp only [weight, ht, trailWeight]
      omega

def run (g : Graph) (w : Walk) : Walk := if w.trail = [] then w else (w.step g).run g
termination_by w.weight g
decreasing_by exact weight_step_lt ‹_›

def visit (g : Graph) (w : Walk) (root : Text) : Walk :=
  if root ∈ w.seen then w else (w.enter root (g.next root)).run g

end Walk

namespace Graph

def walk (g : Graph) : Walk := g.names.foldl (Walk.visit g) .empty

def circular (g : Graph) : List Text :=
  let cyclic := g.walk.cyclic
  g.names.filter (· ∈ cyclic)

end Graph

end CustomProperties
