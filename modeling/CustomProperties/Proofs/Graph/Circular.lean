import Mathlib.Logic.Function.Iterate
import CustomProperties.Proofs.Graph.Step
import CustomProperties.Run.Apply

/-!
The walk over a graph finds exactly the names that lie on a cycle. Each of its steps keeps the walk
sound, and a walk with no open name has an empty stack, so that every name it has seen is in a
component that is complete.
-/

namespace CustomProperties

open Relation

namespace Walk

variable {g : Graph} {w : Walk}

theorem run_ends (g : Graph) (w : Walk) :
    (w.run g).trail = [] ∧ ∃ k, w.run g = (step g)^[k] w := by
  fun_induction run g w with
  | case1 w ended => exact ⟨ended, 0, rfl⟩
  | case2 w _ ih =>
      obtain ⟨ended, k, hk⟩ := ih
      exact ⟨ended, k + 1, hk⟩

theorem Sound.run (h : Sound g w) : Sound g (w.run g) := by
  obtain ⟨-, k, hk⟩ := run_ends g w
  rw [hk]
  clear hk
  induction k generalizing w with
  | zero => exact h
  | succ k ih => exact ih h.step

theorem seen_step (g : Graph) (w : Walk) : w.seen ⊆ (w.step g).seen := by
  rw [step]
  split
  · exact fun x hx => hx
  · split
    · rw [follow]
      split
      · split <;> exact fun x hx => hx
      · split
        · exact fun x hx => List.mem_cons_of_mem _ hx
        · exact fun x hx => hx
    · rw [leave]
      split
      · dsimp only
        split <;> exact fun x hx => hx
      · exact fun x hx => hx

theorem seen_run (g : Graph) (w : Walk) : w.seen ⊆ (w.run g).seen := by
  fun_induction Walk.run g w with
  | case1 => exact fun x hx => hx
  | case2 w _ ih => exact fun x hx => ih (seen_step g w hx)

/-- Visiting a name from an idle walk makes the walk idle again and leaves the name seen. -/
theorem Sound.visit (h : Sound g w) (idle : w.trail = []) {root : Text} (known : root ∈ g.names) :
    Sound g (w.visit g root) ∧ (w.visit g root).trail = [] ∧ root ∈ (w.visit g root).seen := by
  rw [Walk.visit]
  split
  · rename_i seen
    exact ⟨h, idle, seen⟩
  · rename_i fresh
    have entered := h.enter fresh known (by simp [idle])
    exact ⟨entered.run, (run_ends g _).1, seen_run g _ (List.mem_cons_self ..)⟩

theorem seen_visit (g : Graph) (w : Walk) (root : Text) : w.seen ⊆ (w.visit g root).seen := by
  rw [visit]
  split
  · exact fun x hx => hx
  · exact fun x hx => seen_run g _ (List.mem_cons_of_mem _ hx)

theorem Sound.foldl_visit {roots : List Text} (h : Sound g w) (idle : w.trail = [])
    (known : ∀ root ∈ roots, root ∈ g.names) :
    Sound g (roots.foldl (Walk.visit g) w) ∧ (roots.foldl (Walk.visit g) w).trail = [] ∧
      ∀ x, x ∈ w.seen ∨ x ∈ roots → x ∈ (roots.foldl (Walk.visit g) w).seen := by
  induction roots generalizing w with
  | nil => exact ⟨h, idle, fun x hx => by simpa using hx⟩
  | cons root roots ih =>
      obtain ⟨sound, idle', seen⟩ := h.visit idle (known root (by simp))
      obtain ⟨sound', idle'', all⟩ := ih sound idle' fun r hr => known r (by simp [hr])
      refine ⟨sound', idle'', fun x hx => all x ?_⟩
      rcases hx with hx | hx
      · exact .inl (seen_visit g w root hx)
      · rcases List.mem_cons.1 hx with rfl | hx
        · exact .inl seen
        · exact .inr hx

theorem Sound.done_of_idle (h : Sound g w) (idle : w.trail = []) {x : Text} (seen : x ∈ w.seen) :
    w.Done x := by
  refine ⟨seen, fun n hn => ?_⟩
  obtain ⟨o, ho, -⟩ := h.up _ hn
  simp [idle] at ho

end Walk

namespace Graph

/-- The walk from all names of a graph has seen every one of them. -/
theorem sound_walk (g : Graph) :
    Walk.Sound g g.walk ∧ g.walk.trail = [] ∧ ∀ n ∈ g.names, n ∈ g.walk.seen := by
  obtain ⟨sound, idle, seen⟩ := (Walk.sound_empty g).foldl_visit rfl fun _ hr => hr
  exact ⟨sound, idle, fun n hn => seen n (.inr hn)⟩

theorem mem_circular_iff {g : Graph} {n : Text} :
    n ∈ g.circular ↔ n ∈ g.names ∧ TransGen g.Step n n := by
  obtain ⟨sound, idle, seen⟩ := g.sound_walk
  simp only [circular, List.mem_filter, decide_eq_true_eq]
  rw [sound.cyclic_iff]
  constructor
  · rintro ⟨known, -, cycle⟩
    exact ⟨known, cycle⟩
  · rintro ⟨known, cycle⟩
    exact ⟨known, sound.done_of_idle idle (seen n known), cycle⟩

end Graph

namespace Variables

variable {v : Variables}

theorem names_graph (v : Variables) : v.graph.names = v.names := by
  simp [graph, Graph.names, names]

theorem next_graph (v : Variables) (a : Text) :
    v.graph.next a = ((v.get? a).map fun value =>
      (referencedNames value).filter v.contains).getD [] := by
  simp only [Graph.next, graph, get?]
  induction v.entries with
  | nil => rfl
  | cons entry entries ih =>
      obtain ⟨name, value⟩ := entry
      by_cases h : a = name
      · simp [h]
      · have h' : (a == name) = false := beq_eq_false_iff_ne.2 h
        simpa [List.lookup_cons, h'] using ih

theorem step_graph_iff {a b : Text} : v.graph.Step a b ↔ v.LeadsTo a b := by
  simp only [Graph.Step, names_graph, next_graph, LeadsTo]
  cases v.get? a with
  | none => simp
  | some value =>
      simp only [Option.map_some, Option.getD_some, List.mem_filter, Option.some.injEq]
      constructor
      · rintro ⟨⟨refers, -⟩, known⟩
        exact ⟨value, rfl, refers, known⟩
      · rintro ⟨_, rfl, refers, known⟩
        exact ⟨⟨refers, get?_isSome_iff.2 known⟩, known⟩

theorem mem_circular_iff {n : Text} : n ∈ v.circular ↔ n ∈ v.names ∧ TransGen v.LeadsTo n n := by
  have step : v.graph.Step = v.LeadsTo := by
    funext a b
    exact propext step_graph_iff
  rw [circular, Graph.mem_circular_iff, names_graph, step]

theorem circular_sublist (v : Variables) : v.circular.Sublist v.names := by
  rw [← names_graph]
  exact List.filter_sublist

theorem diagnostics_ofCircular (source : Option String) (names : List Text) :
    Event.diagnostics source (Event.ofCircular names) = names.map fun n =>
      { rule := "circular-reference"
        severity := .warning
        message := "Circular reference detected for variable " ++ String.ofList n
        source := source
        word := some (String.ofList n)
        line := none
        column := none } := by
  unfold Event.ofCircular Event.diagnostics
  rw [List.filterMap_append, List.filterMap_map]
  have quiet : (if names = [] then [] else [Event.foundCircular names.length]).filterMap
      (Event.diagnostic? source) = [] := by
    split <;> rfl
  rw [quiet, List.nil_append, ← List.filterMap_eq_map]
  exact List.filterMap_congr fun n _ => rfl

/-- The circular variables are exactly those that a way of one step or more leads back to. They are
found by a walk that always ends, and each of them is told once, in the order of the table. -/
theorem circular_exact (v : Variables) :
    (∀ n, n ∈ v.circular ↔ n ∈ v.names ∧ TransGen v.LeadsTo n n) ∧
    (∀ w : Walk, (w.run v.graph).trail = [] ∧ ∃ k, w.run v.graph = (Walk.step v.graph)^[k] w) ∧
    v.circular.Sublist v.names ∧ v.circular.Nodup ∧
    ∀ source, Event.diagnostics source (Event.ofCircular v.circular) = v.circular.map fun n =>
      { rule := "circular-reference"
        severity := .warning
        message := "Circular reference detected for variable " ++ String.ofList n
        source := source
        word := some (String.ofList n)
        line := none
        column := none } :=
  ⟨fun _ => mem_circular_iff, Walk.run_ends v.graph, v.circular_sublist,
    v.circular_sublist.nodup v.nodup, fun source => diagnostics_ofCircular source v.circular⟩

end Variables

end CustomProperties
