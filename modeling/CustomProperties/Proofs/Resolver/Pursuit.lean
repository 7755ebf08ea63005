import Mathlib.Logic.Function.Iterate
import CustomProperties.Proofs.Resolver.Resolution

/-!
Working off errands. Whatever names count as circular, the work ends, no value that is known is
lost, and every errand leaves its name with a value. If the circular names leave the table
grounded, then no errand meets a name of its own path, and the values are those of the resolution.
-/

namespace CustomProperties

open Relation

variable {v : Variables} {circular : List Text}

namespace Errand

variable {e : Errand v} {f : Findings}

theorem needs_of_refers {n : Text} (refers : n ∈ referencedNames e.value) (known : n ∈ v.names)
    (straight : e.name ∉ circular) (clear : n ∉ circular) : v.Needs circular e.name n :=
  ⟨⟨e.value, Variables.get?_eq_some_value e.known, refers, known⟩, straight, clear⟩

theorem needs_of_missing {first : Errand v} (h : first ∈ e.missing circular f)
    (straight : e.name ∉ circular) :
    v.Needs circular e.name first.name ∧ first.path = e.branch := by
  obtain ⟨n, refers, made⟩ := List.mem_filterMap.1 h
  split at made
  · rename_i needed
    obtain rfl := Option.some.inj made
    exact ⟨needs_of_refers refers needed.1 straight needed.2.1, rfl⟩
  · simp at made

/-- When nothing is missing, what a value refers to and has a value itself is known, unless it is circular
or on the branch. -/
theorem settled_of_done (done : e.missing circular f = []) {n : Text}
    (refers : n ∈ referencedNames e.value) (known : n ∈ v.names) (straight : n ∉ circular)
    (clear : n ∉ e.branch) : (f.value? n).isSome := by
  by_contra unknown
  have missing : (⟨n, e.branch, known, clear⟩ : Errand v) ∈ e.missing circular f :=
    List.mem_filterMap.2 ⟨n, refers, by simpa [known, straight, clear] using unknown⟩
  simp [done] at missing

end Errand

namespace Pursuit

variable {p : Pursuit v}

/-- All that a step can do. -/
theorem step_cases (circular : List Text) (p : Pursuit v) :
    (p.errands = [] ∧ p.step circular = p) ∨
    ∃ e errands, p.errands = e :: errands ∧
      ((p.findings.value? e.name).isSome ∧ p.step circular = ⟨errands, p.findings⟩ ∨
      p.findings.value? e.name = none ∧ e.missing circular p.findings = [] ∧
        p.step circular = ⟨errands, e.conclude circular p.findings⟩ ∨
      p.findings.value? e.name = none ∧ ∃ first more,
        e.missing circular p.findings = first :: more ∧
        p.step circular = ⟨first :: (more ++ e :: errands), p.findings⟩) := by
  obtain ⟨errands, f⟩ := p
  cases errands with
  | nil => exact .inl ⟨rfl, rfl⟩
  | cons e errands =>
      refine .inr ⟨e, errands, rfl, ?_⟩
      by_cases settled : (f.value? e.name).isSome
      · exact .inl ⟨settled, step_settled settled⟩
      · have unknown : f.value? e.name = none := by simpa using settled
        cases hm : e.missing circular f with
        | nil => exact .inr (.inl ⟨unknown, rfl, step_conclude unknown hm⟩)
        | cons first more =>
            exact .inr (.inr ⟨unknown, first, more, rfl, step_missing unknown hm⟩)

theorem value?_step {n s : Text} (h : p.findings.value? n = some s) :
    (p.step circular).findings.value? n = some s := by
  rcases step_cases circular p with ⟨-, hs⟩ | ⟨e, errands, -, hs⟩
  · rwa [hs]
  rcases hs with ⟨-, hs⟩ | ⟨unknown, -, hs⟩ | ⟨-, first, more, -, hs⟩
  · rwa [hs]
  · have other : n ≠ e.name := by
      rintro rfl
      simp [h] at unknown
    rw [hs, Errand.value?_conclude_of_ne other, h]
  · rwa [hs]

theorem settled_step {e : Errand v} (h : e ∈ p.errands) :
    e ∈ (p.step circular).errands ∨ ((p.step circular).findings.value? e.name).isSome := by
  rcases step_cases circular p with ⟨he, -⟩ | ⟨e', errands, he, hs⟩
  · simp [he] at h
  rw [he] at h
  rcases hs with ⟨settled, hs⟩ | ⟨unknown, -, hs⟩ | ⟨-, first, more, -, hs⟩ <;> rw [hs]
  · rcases List.mem_cons.1 h with rfl | h
    · exact .inr settled
    · exact .inl h
  · rcases List.mem_cons.1 h with rfl | h
    · exact .inr (e.value?_conclude_self circular _)
    · exact .inl h
  · exact .inl (List.mem_cons_of_mem _ (List.mem_append_right _ h))

theorem run_ends (circular : List Text) (p : Pursuit v) :
    (p.run circular).errands = [] ∧ ∃ k, p.run circular = (step circular)^[k] p := by
  fun_induction run circular p with
  | case1 p ended => exact ⟨ended, 0, rfl⟩
  | case2 p _ ih =>
      obtain ⟨ended, k, hk⟩ := ih
      exact ⟨ended, k + 1, hk⟩

theorem value?_run {n s : Text} (h : p.findings.value? n = some s) :
    (p.run circular).findings.value? n = some s := by
  fun_induction run circular p with
  | case1 => exact h
  | case2 p _ ih => exact ih (value?_step h)

theorem settled_run {e : Errand v} (h : e ∈ p.errands) :
    ((p.run circular).findings.value? e.name).isSome := by
  fun_induction run circular p with
  | case1 p ended => simp [ended] at h
  | case2 p _ ih =>
      rcases settled_step h with later | settled
      · exact ih later
      · obtain ⟨s, hs⟩ := Option.isSome_iff_exists.1 settled
        rw [value?_run hs]
        rfl

/-- The values are those of the resolution, and the path of every errand leads to its name. -/
structure Faithful (grounded : v.Grounded circular) (p : Pursuit v) : Prop where
  values : ∀ n s, p.findings.value? n = some s → v.resolution circular grounded n = some s
  straight : ∀ e ∈ p.errands, e.name ∉ circular
  above : ∀ e ∈ p.errands, ∀ n ∈ e.path, TransGen (v.Needs circular) n e.name

/-- What is blocked for an errand is circular: its own path never stands in the way. -/
theorem blocked_iff {grounded : v.Grounded circular} (h : Faithful grounded p) {e : Errand v}
    (he : e ∈ p.errands) {n : Text} (refers : n ∈ referencedNames e.value) :
    n ∈ circular ∨ n ∈ e.branch ↔ n ∈ circular := by
  refine or_iff_left_of_imp fun on => ?_
  by_contra straight
  have known : n ∈ v.names := by
    rcases List.mem_cons.1 on with rfl | on
    · exact e.known
    · obtain ⟨b, first, -⟩ := TransGen.head'_iff.1 (h.above e he n on)
      exact first.1.known_left
  have needs : v.Needs circular e.name n :=
    Errand.needs_of_refers refers known (h.straight e he) straight
  -- A name of the path that is referred to closes a cycle, which the table does not have.
  rcases List.mem_cons.1 on with rfl | on
  · exact grounded _ (.single needs)
  · exact grounded _ ((h.above e he n on).tail needs)

theorem Faithful.conclude {grounded : v.Grounded circular} (h : Faithful grounded p)
    {e : Errand v} (he : e ∈ p.errands) (done : e.missing circular p.findings = []) :
    (e.conclude circular p.findings).value? e.name = v.resolution circular grounded e.name := by
  rw [Variables.resolution_eq, if_neg (h.straight e he), Variables.get?_eq_some_value e.known]
  simp only [Errand.conclude, Findings.value?_record, if_true, Option.map_some]
  refine congrArg some (Dissection.replace_congr fun r hr => congrArg r.substitute ?_)
  have refers : r.name ∈ referencedNames e.value := List.mem_map_of_mem hr
  have blocked := blocked_iff h he refers
  by_cases hc : r.name ∈ circular
  · simp [hc, Variables.resolution_of_circular grounded hc]
  · have clear : r.name ∉ e.branch := fun on => hc (blocked.1 (.inr on))
    simp only [hc, clear, decide_false, Bool.or_false, Bool.false_eq_true, if_false]
    cases hv : p.findings.value? r.name with
    | some s => exact (h.values _ _ hv).symm
    | none =>
        -- Nothing is missing, so a reference without a value is to a name that is unknown.
        refine (Variables.resolution_of_unknown grounded fun known => ?_).symm
        simpa [hv] using Errand.settled_of_done done refers known hc clear

theorem Faithful.step {grounded : v.Grounded circular} (h : Faithful grounded p) :
    Faithful grounded (p.step circular) := by
  rcases step_cases circular p with ⟨-, hs⟩ | ⟨e, errands, he, hs⟩
  · rwa [hs]
  have here : e ∈ p.errands := by simp [he]
  have later : ∀ f ∈ errands, f ∈ p.errands := fun f hf => by simp [he, hf]
  rcases hs with ⟨-, hs⟩ | ⟨-, done, hs⟩ | ⟨-, first, more, missing, hs⟩ <;> rw [hs]
  · exact ⟨h.values, fun f hf => h.straight f (later f hf), fun f hf => h.above f (later f hf)⟩
  · refine ⟨fun n s hn => ?_, fun f hf => h.straight f (later f hf),
      fun f hf => h.above f (later f hf)⟩
    by_cases same : n = e.name
    · rw [same, h.conclude here done] at hn
      rw [same, hn]
    · exact h.values n s (Errand.value?_conclude_of_ne same ▸ hn)
  · have fresh : ∀ f ∈ first :: more, f.name ∉ circular ∧
        ∀ n ∈ f.path, TransGen (v.Needs circular) n f.name := by
      intro f hf
      obtain ⟨needs, onward⟩ := Errand.needs_of_missing (missing ▸ hf) (h.straight e here)
      refine ⟨needs.2.2, fun m hm => ?_⟩
      rw [onward] at hm
      rcases List.mem_cons.1 hm with rfl | hm
      · exact .single needs
      · exact (h.above e here m hm).tail needs
    have all : ∀ f ∈ first :: (more ++ e :: errands), f ∈ first :: more ∨ f ∈ p.errands := by
      intro f hf
      rw [he]
      simpa only [List.mem_cons, List.mem_append, or_assoc] using hf
    exact ⟨h.values, fun f hf => (all f hf).elim (fun hf => (fresh f hf).1) (h.straight f),
      fun f hf => (all f hf).elim (fun hf => (fresh f hf).2) (h.above f)⟩

theorem Faithful.run {grounded : v.Grounded circular} (h : Faithful grounded p) :
    Faithful grounded (p.run circular) := by
  fun_induction Pursuit.run circular p with
  | case1 => exact h
  | case2 p _ ih => exact ih h.step

end Pursuit

end CustomProperties
