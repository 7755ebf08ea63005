import CustomProperties.Sheet.Node

/-!
The walk over a tree, which keeps the levels that are still to come, meets the declarations in the
order in which they stand. Changing the declarations of a tree changes them in that order.
-/

namespace CustomProperties.Node

theorem walk_eq_flatMap (pending : List (List Node)) :
    walk pending = pending.flatMap flattenAll := by
  fun_induction walk pending with
  | case1 => rfl
  | case2 pending ih => simpa [flattenAll] using ih
  | case3 d siblings pending ih => simp [flattenAll, flatten, ih]
  | case4 prelude position children siblings pending ih => simp [flattenAll, flatten, ih]
  | case5 text position siblings pending ih => simpa [flattenAll, flatten] using ih

section Thread

variable {σ : Type} (f : σ → Declaration → Declaration × σ)

/-- Change declarations from left to right, handing a state along. -/
def thread (s : σ) : List Declaration → List Declaration × σ
  | [] => ([], s)
  | d :: ds =>
      let (d, s) := f s d
      let (ds, s) := thread s ds
      (d :: ds, s)

theorem thread_append (s : σ) (ds es : List Declaration) :
    thread f s (ds ++ es) =
      ((thread f s ds).1 ++ (thread f (thread f s ds).2 es).1,
        (thread f (thread f s ds).2 es).2) := by
  induction ds generalizing s with
  | nil => rfl
  | cons d ds ih => simp [thread, ih]

mutual

theorem flatten_update (s : σ) (node : Node) :
    (flatten (update f s node).1, (update f s node).2) = thread f s (flatten node) := by
  cases node with
  | declaration d => rfl
  | block prelude position children => exact flattenAll_updateAll s children
  | statement text position => rfl

theorem flattenAll_updateAll (s : σ) (nodes : List Node) :
    (flattenAll (updateAll f s nodes).1, (updateAll f s nodes).2) =
      thread f s (flattenAll nodes) := by
  cases nodes with
  | nil => rfl
  | cons node nodes =>
      have first := flatten_update s node
      have later := flattenAll_updateAll (update f s node).2 nodes
      rw [Prod.mk.injEq] at first later
      simp only [updateAll, flattenAll, thread_append, ← first.1, ← first.2, ← later.1, ← later.2]

end

end Thread

end CustomProperties.Node
