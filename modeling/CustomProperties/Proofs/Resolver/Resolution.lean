import Mathlib.Logic.Relation
import CustomProperties.Proofs.Graph.Circular

/-!
The resolution of the variables of a table, when some of them are taken for circular and the others
do not lead back to themselves: the value with every reference in it replaced by the resolution of
its name. It is a function of the table and of the circular names alone.
-/

namespace CustomProperties

open Relation

namespace Dissection

theorem replace_congr {f g : Reference → Text} {d : Dissection}
    (h : ∀ r ∈ d.references.map Prod.fst, f r = g r) : d.replace f = d.replace g := by
  rw [replace]
  congr 1
  refine List.flatMap_congr fun entry he => ?_
  show f entry.1 ++ entry.2 = g entry.1 ++ entry.2
  rw [h entry.1 (List.mem_map_of_mem he)]

end Dissection

namespace Variables

variable {v : Variables} {circular : List Text}

/-- The value of a variable needs those of the variables it leads to, circular ones left out. -/
def Needs (v : Variables) (circular : List Text) (a b : Text) : Prop :=
  v.LeadsTo a b ∧ a ∉ circular ∧ b ∉ circular

instance (v : Variables) (circular : List Text) (a b : Text) :
    Decidable (v.Needs circular a b) :=
  inferInstanceAs (Decidable (_ ∧ _))

/-- No variable needs its own value, whatever lies between. -/
def Grounded (v : Variables) (circular : List Text) : Prop :=
  ∀ n, ¬TransGen (v.Needs circular) n n

theorem LeadsTo.known_left {a b : Text} (h : v.LeadsTo a b) : a ∈ v.names := by
  obtain ⟨value, hv, -, -⟩ := h
  exact mem_names_of_get? hv

theorem grounded_circular (v : Variables) : v.Grounded v.circular := by
  intro n cycle
  obtain ⟨b, first, -⟩ := TransGen.head'_iff.1 cycle
  have cycle' : TransGen v.LeadsTo n n := TransGen.mono (fun _ _ h => h.1) _ _ cycle
  exact first.2.1 (mem_circular_iff.2 ⟨first.1.known_left, cycle'⟩)

/-- A name is accessible when all names of a path lead to it: what comes behind it is not on the
path, and there are fewer such names with every step. -/
theorem Grounded.acc (grounded : v.Grounded circular) (k : Nat) :
    ∀ (path : List Text) (n : Text), (Pursuit.beyond v path).length ≤ k →
      (∀ p ∈ path, TransGen (v.Needs circular) p n) → Acc (fun b a => v.Needs circular a b) n := by
  induction k with
  | zero =>
      intro path n room above
      refine ⟨n, fun m needs => ?_⟩
      have := Pursuit.length_beyond_cons_lt needs.1.known_left fun on => grounded n (above n on)
      omega
  | succ k ih =>
      intro path n room above
      refine ⟨n, fun m needs => ih (n :: path) m ?_ ?_⟩
      · have := Pursuit.length_beyond_cons_lt needs.1.known_left fun on => grounded n (above n on)
        omega
      · intro p hp
        rcases List.mem_cons.1 hp with rfl | hp
        · exact .single needs
        · exact (above p hp).tail needs

theorem Grounded.wellFounded (grounded : v.Grounded circular) :
    WellFounded fun b a => v.Needs circular a b :=
  ⟨fun n => grounded.acc _ [] n (Nat.le_refl _) (by simp)⟩

/-- The value of a variable with every reference replaced, or nothing when the variable is circular
or has no value. -/
def resolution (v : Variables) (circular : List Text) (grounded : v.Grounded circular) (n : Text) :
    Option Text :=
  if n ∈ circular then none
  else
    (v.get? n).map fun value => (dissect value).replace fun r =>
      r.substitute <|
        if _needed : v.Needs circular n r.name then resolution v circular grounded r.name else none
termination_by grounded.wellFounded.wrap n
decreasing_by exact _needed

theorem resolution_of_circular (grounded : v.Grounded circular) {n : Text} (h : n ∈ circular) :
    v.resolution circular grounded n = none := by
  rw [resolution, if_pos h]

theorem resolution_of_unknown (grounded : v.Grounded circular) {n : Text} (h : n ∉ v.names) :
    v.resolution circular grounded n = none := by
  rw [resolution, get?_eq_none_iff.2 h]
  simp

theorem resolution_eq (grounded : v.Grounded circular) (n : Text) :
    v.resolution circular grounded n =
      if n ∈ circular then none
      else (v.get? n).map fun value => (dissect value).replace fun r =>
        r.substitute (v.resolution circular grounded r.name) := by
  rw [resolution]
  split
  · rfl
  · rename_i straight
    refine Option.map_congr fun value hv => Dissection.replace_congr fun r hr => ?_
    split
    · rfl
    · rename_i idle
      by_cases hc : r.name ∈ circular
      · rw [resolution_of_circular grounded hc]
      · have unknown : r.name ∉ v.names := fun known =>
          idle ⟨⟨value, hv, List.mem_map_of_mem hr, known⟩, straight, hc⟩
        rw [resolution_of_unknown grounded unknown]

end Variables

end CustomProperties
