import CustomProperties.Proofs.Resolver.Memory

/-!
The work of a resolution on a plain stack of names. Each turn looks up the name on top, in the table and
among the values that are known, and a name that the table does not have would let the turn fail. Whatever
names count as circular, none does: the turns are the steps of a pursuit, whose errands are for names of
the table, and so they come to an end, with a value for the name that was asked for.
-/

namespace CustomProperties

open Relation

/-- A name on the stack, with the names whose values are being found out above it. -/
abbrev Frame := Text × List Text

/-- The stack, its top first, with what was found out so far. -/
structure Work where
  frames : List Frame
  findings : Findings

namespace Findings

/-- What a value waits for: the names it refers to that have a value to be found out, each with the
branch that it is on. -/
def awaited (f : Findings) (v : Variables) (circular branch : List Text) (value : Text) :
    List Frame :=
  ((referencedNames value).filter fun n =>
    n ∈ v.names ∧ n ∉ circular ∧ n ∉ branch ∧ f.value? n = none).map fun n => (n, branch)

def conclude (f : Findings) (circular branch : List Text) (name value : Text) : Findings :=
  let blocked (n : Text) : Bool := n ∈ circular || n ∈ branch
  let result := (dissect value).replace fun r =>
    r.substitute (if blocked r.name then none else f.value? r.name)
  (((referencedNames value).filter blocked).foldl meet f).record name result

end Findings

namespace Work

/-- One turn of the work, which needs a frame, and a value in the table for the name that is looked up. -/
def turn? (v : Variables) (circular : List Text) (w : Work) : Option Work :=
  match w.frames with
  | [] => none
  | (name, path) :: frames =>
      if (w.findings.value? name).isSome then some { w with frames }
      else
        (v.get? name).map fun value =>
          match w.findings.awaited v circular (name :: path) value with
          | [] => ⟨frames, w.findings.conclude circular (name :: path) name value⟩
          | awaited => { w with frames := awaited ++ (name, path) :: frames }

def Turn (v : Variables) (circular : List Text) (w w' : Work) : Prop :=
  w.turn? v circular = some w'

section Turns

variable {v : Variables} {circular : List Text} {f : Findings} {name value : Text}
  {path : List Text} {frames : List Frame}

theorem turn_settled (settled : (f.value? name).isSome) :
    Turn v circular ⟨(name, path) :: frames, f⟩ ⟨frames, f⟩ :=
  if_pos settled

theorem turn_conclude (unknown : f.value? name = none) (found : v.get? name = some value)
    (done : f.awaited v circular (name :: path) value = []) :
    Turn v circular ⟨(name, path) :: frames, f⟩
      ⟨frames, f.conclude circular (name :: path) name value⟩ := by
  simp [Turn, turn?, unknown, found, done]

theorem turn_await {first : Frame} {more : List Frame} (unknown : f.value? name = none)
    (found : v.get? name = some value)
    (awaited : f.awaited v circular (name :: path) value = first :: more) :
    Turn v circular ⟨(name, path) :: frames, f⟩ ⟨first :: (more ++ (name, path) :: frames), f⟩ := by
  simp [Turn, turn?, unknown, found, awaited]

end Turns

end Work

variable {v : Variables} {circular : List Text}

namespace Errand

def frame (e : Errand v) : Frame := (e.name, e.path)

theorem frames_missing (e : Errand v) (f : Findings) :
    (e.missing circular f).map frame = f.awaited v circular e.branch e.value := by
  rw [missing, List.map_filterMap, Findings.awaited, ← List.filterMap_eq_map', List.filterMap_filter]
  refine List.filterMap_congr fun n _ => ?_
  by_cases needed : n ∈ v.names ∧ n ∉ circular ∧ n ∉ e.branch ∧ f.value? n = none
  · simp [needed, frame]
  · simp [needed]

theorem conclude_eq (e : Errand v) (f : Findings) :
    e.conclude circular f = f.conclude circular e.branch e.name e.value := by
  rw [conclude, Findings.conclude, referencedNames, references, List.map_map]
  rfl

end Errand

namespace Pursuit

variable {p : Pursuit v}

def work (p : Pursuit v) : Work := ⟨p.errands.map Errand.frame, p.findings⟩

/-- As long as an errand is left, the turn does not fail, and does what a step does. -/
theorem turn_step (left : p.errands ≠ []) : p.work.Turn v circular (p.step circular).work := by
  rcases step_cases circular p with ⟨ended, -⟩ | ⟨e, errands, he, hs⟩
  · exact absurd ended left
  have here : p.work = ⟨(e.name, e.path) :: errands.map Errand.frame, p.findings⟩ := by
    rw [work, he]
    rfl
  have found : v.get? e.name = some e.value := Variables.get?_eq_some_value e.known
  have awaited : (e.missing circular p.findings).map Errand.frame = _ :=
    e.frames_missing p.findings
  rcases hs with ⟨settled, hs⟩ | ⟨unknown, done, hs⟩ | ⟨unknown, first, more, missing, hs⟩
  · rw [here, hs]
    exact Work.turn_settled settled
  · rw [here, hs, e.conclude_eq]
    exact Work.turn_conclude unknown found (by rw [← Errand.branch, ← awaited, done, List.map_nil])
  · rw [missing, List.map_cons] at awaited
    rw [here, hs, work, List.map_cons, List.map_append, List.map_cons]
    exact Work.turn_await unknown found awaited.symm

theorem turns_run (p : Pursuit v) :
    ReflTransGen (Work.Turn v circular) p.work ⟨[], (p.run circular).findings⟩ := by
  fun_induction run circular p with
  | case1 p ended =>
    rw [work, ended]
    exact .refl
  | case2 p left ih => exact .head (turn_step left) ih

end Pursuit

namespace Resolver

theorem later_after (r : Resolver) (calls : List Call) : Later r (r.after calls) :=
  invariant_after (P := Later r) (fun s n h => h.trans (later_resolve s n)) (.refl r) calls

theorem turns_resolve {r : Resolver} {n : Text} (straight : n ∉ r.circular)
    (known : n ∈ r.table.names) :
    ReflTransGen (Work.Turn r.table r.circular) ⟨[(n, [])], r.findings⟩
      ⟨[], (r.resolve n).2.findings⟩ := by
  cases hv : r.findings.value? n with
  | some value =>
      rw [resolve_of_value? straight known hv]
      exact .single (Work.turn_settled (by rw [hv]; rfl))
  | none =>
      rw [resolve_of_fresh straight known hv]
      exact (r.pursuit n known).turns_run

/-- A resolver may be given any names for the circular ones: all of them, too few, wrong ones, or names
that have no value. Whatever was asked before, a name has an answer exactly when it has a value and is not
among the names given. The turns for it come to an end without a name being looked up that is not there,
and then the answer is known. An answer that was given is given again, whatever is asked in between. -/
theorem resolve_ends (v : Variables) (circular : List Text) (calls : List Call) (n : Text) :
    let r := (ofCircular v circular).after calls
    ((r.resolve n).1.isSome ↔ n ∈ v.names ∧ n ∉ circular) ∧
    (n ∈ v.names ∧ n ∉ circular →
      ReflTransGen (Work.Turn v circular) ⟨[(n, [])], r.findings⟩
          ⟨[], (r.resolve n).2.findings⟩ ∧
        ∃ answer, (r.resolve n).2.findings.value? n = some answer ∧
          (r.resolve n).1 = some answer) ∧
    ∀ answer, (r.resolve n).1 = some answer →
      ∀ more, (((r.resolve n).2.after more).resolve n).1 = some answer := by
  intro r
  obtain ⟨table, names, -⟩ := later_after (ofCircular v circular) calls
  have answered : (r.resolve n).1.isSome ↔ n ∈ v.names ∧ n ∉ circular := by
    rw [resolve_isSome_iff, and_comm, table, names]
    rfl
  refine ⟨answered, fun asked => ?_, fun answer given more => ?_⟩
  · have turns := turns_resolve (r := r) (n := n) (names ▸ asked.2) (table ▸ asked.1)
    rw [table, names] at turns
    obtain ⟨answer, given⟩ := Option.isSome_iff_exists.1 (answered.2 asked)
    exact ⟨turns, answer, value?_resolve given, given⟩
  · rw [(later_after _ more).resolve_eq, given]

def loops : Variables :=
  .ofList
    [("--a".toList, "1 var(--b, 2)".toList), ("--b".toList, "var(--a) var(--c, 3)".toList),
      ("--c".toList, "var( --c )".toList), ("--d".toList, "var(--c) var(--u, 4)".toList)]

/-- None of them is given; given are one that is not on a way to itself and a name without a value. -/
theorem resolve_ends_loops :
    let r := (ofCircular loops ["--d".toList, "--u".toList]).after
      [.resolve "--b".toList, .resolve "--u".toList, .supply [] "var(--d)".toList]
    (r.resolve "--a".toList).1 = some "1 2".toList ∧
    (r.resolve "--d".toList).1 = none ∧
    (((r.resolve "--a".toList).2.after [.resolveAll]).resolve "--a".toList).1 =
      some "1 2".toList := by
  intro r
  have given : (r.resolve "--a".toList).1 = some "1 2".toList := by
    decide +kernel
  obtain ⟨-, -, again⟩ := resolve_ends loops ["--d".toList, "--u".toList]
    [.resolve "--b".toList, .resolve "--u".toList, .supply [] "var(--d)".toList] "--a".toList
  exact ⟨given, by decide +kernel, again _ given [.resolveAll]⟩

end Resolver

end CustomProperties
