import CustomProperties.Proofs.Sheet.Reading

/-!
The walk turn by turn. In each turn the innermost level either gives its next node, whose children
then come first, or is left because nothing is in it any more. What was taken so far and what is
pending still spell the nodes of the forest in document order, whenever one looks; and each turn makes
the weight of what is pending less by one, so that the walk ends.
-/

namespace CustomProperties.Node

def declaration? : Node → Option Declaration
  | .declaration d => some d
  | _ => none

def levels : Node → List (List Node)
  | .block _ _ children => [children]
  | _ => []

/-- One turn of the walk over the pending levels, the innermost first: the node that is taken, if any,
and the levels that are pending then. -/
def turn : List (List Node) → Option Node × List (List Node)
  | [] => (none, [])
  | [] :: pending => (none, pending)
  | (node :: siblings) :: pending => (some node, node.levels ++ siblings :: pending)

def turns : Nat → List (List Node) → List Node × List (List Node)
  | 0, pending => ([], pending)
  | n + 1, pending =>
      let later := turns n (turn pending).2
      ((turn pending).1.toList ++ later.1, later.2)

section Step

variable {pending : List (List Node)}

theorem preorder_eq (node : Node) : preorder node = node :: node.levels.flatMap preorderAll := by
  cases node with
  | declaration d => rfl
  | block prelude position children => simp [preorder, levels]
  | statement text position => rfl

theorem weight_eq (node : Node) : node.weight = weightPending node.levels + 1 := by
  cases node with
  | declaration d => rfl
  | block prelude position children => rfl
  | statement text position => rfl

theorem weightPending_append (inner pending : List (List Node)) :
    weightPending (inner ++ pending) = weightPending inner + weightPending pending := by
  induction inner with
  | nil => simp [weightPending]
  | cons level inner ih =>
      rw [List.cons_append, weightPending, weightPending, ih]
      omega

theorem weightPending_eq_zero_iff : weightPending pending = 0 ↔ pending = [] := by
  cases pending with
  | nil => simp [weightPending]
  | cons level pending => simp [weightPending]

theorem preorder_turn (pending : List (List Node)) :
    (turn pending).1.toList ++ (turn pending).2.flatMap preorderAll =
      pending.flatMap preorderAll := by
  match pending with
  | [] => rfl
  | [] :: pending => rfl
  | (node :: siblings) :: pending =>
      simp only [turn, Option.toList_some, List.flatMap_append, List.flatMap_cons, preorderAll,
        preorder_eq node]
      simp

theorem weightPending_turn (pending : List (List Node)) :
    weightPending (turn pending).2 = weightPending pending - 1 := by
  match pending with
  | [] => rfl
  | [] :: pending =>
      simp only [turn, weightPending, weightAll]
      omega
  | (node :: siblings) :: pending =>
      simp only [turn, weightPending_append, weightPending, weightAll, weight_eq node]
      omega

theorem walk_turn (pending : List (List Node)) :
    walk pending = (turn pending).1.toList.filterMap declaration? ++ walk (turn pending).2 := by
  match pending with
  | [] => simp [walk, turn]
  | [] :: pending => simp [walk, turn]
  | (.declaration d :: siblings) :: pending => simp [walk, turn, levels, declaration?]
  | (.block prelude position children :: siblings) :: pending =>
      simp [walk, turn, levels, declaration?]
  | (.statement text position :: siblings) :: pending => simp [walk, turn, levels, declaration?]

end Step

section Run

variable (n : Nat) (pending : List (List Node))

/-- What some turns take comes first of what was pending, each node once. -/
theorem preorder_turns :
    (turns n pending).1 ++ (turns n pending).2.flatMap preorderAll =
      pending.flatMap preorderAll := by
  induction n generalizing pending with
  | zero => rfl
  | succ n ih => rw [turns, List.append_assoc, ih, preorder_turn]

theorem weightPending_turns :
    weightPending (turns n pending).2 = weightPending pending - n := by
  induction n generalizing pending with
  | zero => rfl
  | succ n ih =>
      rw [turns, ih, weightPending_turn]
      omega

theorem walk_turns :
    walk pending = (turns n pending).1.filterMap declaration? ++ walk (turns n pending).2 := by
  induction n generalizing pending with
  | zero => rfl
  | succ n ih => rw [turns, List.filterMap_append, List.append_assoc, ← ih, ← walk_turn]

theorem turns_eq_nil_iff : (turns n pending).2 = [] ↔ weightPending pending ≤ n := by
  rw [← weightPending_eq_zero_iff, weightPending_turns]
  omega

end Run

mutual

theorem flatten_eq_filterMap (node : Node) :
    flatten node = (preorder node).filterMap declaration? := by
  cases node with
  | declaration d => rfl
  | block prelude position children => exact flattenAll_eq_filterMap children
  | statement text position => rfl

theorem flattenAll_eq_filterMap (nodes : List Node) :
    flattenAll nodes = (preorderAll nodes).filterMap declaration? := by
  cases nodes with
  | nil => rfl
  | cons node nodes =>
      rw [flattenAll, preorderAll, List.filterMap_append, flatten_eq_filterMap node,
        flattenAll_eq_filterMap nodes]

end

/-- The walk over a forest gives the declarations of its flattening. It takes every node of the forest
once, in document order, and has given the declarations among those that were taken whenever one looks;
it is over behind as many turns as the forest has weight, and not before. -/
theorem walk_forest (nodes : List Node) :
    walk [nodes] = flattenAll nodes ∧
      turns (weightPending [nodes]) [nodes] = (preorderAll nodes, []) ∧
      (∀ n, (turns n [nodes]).2 = [] ↔ weightPending [nodes] ≤ n) ∧
      ∀ n, walk [nodes] =
        (turns n [nodes]).1.filterMap declaration? ++ walk (turns n [nodes]).2 := by
  have ended : (turns (weightPending [nodes]) [nodes]).2 = [] :=
    (turns_eq_nil_iff _ _).2 (Nat.le_refl _)
  have taken : (turns (weightPending [nodes]) [nodes]).1 = preorderAll nodes := by
    have all := preorder_turns (weightPending [nodes]) [nodes]
    rwa [ended, List.flatMap_nil, List.append_nil, List.flatMap_singleton] at all
  refine ⟨?_, Prod.ext taken ended, fun n => turns_eq_nil_iff n [nodes], fun n => walk_turns n [nodes]⟩
  rw [walk_turns (weightPending [nodes]), ended, taken, flattenAll_eq_filterMap, walk, List.append_nil]

end CustomProperties.Node
