import CustomProperties.Proofs.Sheet.Span

/-!
Assigning values to the declarations of a stylesheet. Whatever was assigned before, a stylesheet is
written back as its text in which the span of each declaration holds the last value that was assigned
to it.
-/

namespace CustomProperties

/-- The text `out` is the text `source`, from the offset `here` on, in which the span of each
declaration holds the value of the declaration. All characters around the spans are kept. -/
inductive Spliced : Nat → Text → List Declaration → Text → Prop
  | last {here : Nat} (source : Text) : Spliced here source [] source
  | span {here : Nat} {d : Declaration} {ds : List Declaration} (gap : Text) {back out : Text} :
      d.start = here + gap.length → Spliced d.stop back ds out →
      Spliced here (gap ++ d.authored ++ back) (d :: ds) (gap ++ d.value ++ out)

theorem Spliced.of_fit {source : Text} {here : Nat} {ds : List Declaration}
    (fit : Edit.Fit source here (ds.map Declaration.edit)) :
    Spliced here source ds (Edit.apply source here (ds.map Declaration.edit)) := by
  induction ds generalizing source here with
  | nil => exact .last source
  | cons d ds ih =>
      obtain ⟨gap, back, rfl, start, fit⟩ := fit
      rw [List.map_cons, Edit.apply_cons start]
      exact .span gap start (ih fit)

namespace Node

theorem thread_assign (index first : Nat) (value : Text) (ds : List Declaration) :
    (thread (fun (i : Nat) (d : Declaration) =>
        (if i = index then d.assign value else d, i + 1)) first ds).1 =
      ds.mapIdx fun i d => if first + i = index then d.assign value else d := by
  induction ds generalizing first with
  | nil => rfl
  | cons d ds ih =>
      rw [thread, List.mapIdx_cons]
      simp only [ih, Nat.add_zero, Nat.add_assoc, Nat.add_comm 1]

end Node

namespace Stylesheet

variable {source : Text} {s : Stylesheet}

theorem declarations_assign (s : Stylesheet) (index : Nat) (value : Text) :
    (s.assign index value).declarations =
      s.declarations.mapIdx fun i d => if i = index then d.assign value else d := by
  have threaded := congrArg Prod.fst (Node.flattenAll_updateAll
    (fun (i : Nat) (d : Declaration) => (if i = index then d.assign value else d, i + 1)) 0 s.nodes)
  rw [Node.thread_assign] at threaded
  simp only [Nat.zero_add] at threaded
  rw [declarations_eq_flattenAll, declarations_eq_flattenAll, ← threaded]
  rfl

def assignAll (s : Stylesheet) (steps : List (Nat × Text)) : Stylesheet :=
  steps.foldl (fun s step => s.assign step.1 step.2) s

/-- The value of a declaration with an index after some steps: the last one that was assigned to it,
or else the one that its author wrote. -/
def valueAfter (steps : List (Nat × Text)) (index : Nat) (d : Declaration) : Text :=
  (steps.reverse.lookup index).getD d.authored

theorem source_assignAll (s : Stylesheet) (steps : List (Nat × Text)) :
    (s.assignAll steps).source = s.source := by
  induction steps generalizing s with
  | nil => rfl
  | cons step steps ih => exact ih (s.assign step.1 step.2)

theorem valueAfter_append (steps : List (Nat × Text)) (index : Nat) (value : Text) (i : Nat)
    (d : Declaration) :
    valueAfter (steps ++ [(index, value)]) i d =
      if i = index then value else valueAfter steps i d := by
  rw [valueAfter, List.reverse_append, List.reverse_singleton, List.singleton_append,
    List.lookup_cons]
  by_cases same : i = index
  · rw [if_pos same, beq_iff_eq.2 same]
    rfl
  · rw [if_neg same, beq_false_of_ne same]
    rfl

theorem declarations_assignAll (fresh : ∀ d ∈ s.declarations, d.value = d.authored)
    (steps : List (Nat × Text)) :
    (s.assignAll steps).declarations =
      s.declarations.mapIdx fun i d => d.assign (valueAfter steps i d) := by
  induction steps using List.reverseRecOn with
  | nil =>
      refine (List.ext_getElem? fun i => ?_)
      rw [List.getElem?_mapIdx]
      cases hd : s.declarations[i]? with
      | none => simpa [assignAll] using hd
      | some d =>
          have unchanged : d.assign d.authored = d := by
            rw [← fresh d (List.mem_of_getElem? hd)]
            rfl
          simpa [assignAll, valueAfter, unchanged] using hd
  | append_singleton steps step ih =>
      obtain ⟨index, value⟩ := step
      have last : s.assignAll (steps ++ [(index, value)]) =
          (s.assignAll steps).assign index value := by
        rw [assignAll, List.foldl_append]
        rfl
      rw [last, declarations_assign, ih, List.mapIdx_mapIdx]
      refine congrArg (s.declarations.mapIdx ·) (funext fun i => funext fun d => ?_)
      rw [valueAfter_append]
      by_cases same : i = index
      · simp [same, Declaration.assign]
      · simp [same]

theorem fit_assignAll (parsed : parse source = .ok s) (steps : List (Nat × Text)) :
    Edit.Fit source 0 ((s.assignAll steps).declarations.map Declaration.edit) := by
  obtain ⟨-, fresh, fit⟩ := of_parse parsed
  have indexed : s.declarations.map Declaration.edit =
      s.declarations.zipIdx.map fun pair => pair.1.edit := by
    conv => lhs; rw [← List.zipIdx_map_fst 0 s.declarations, List.map_map]
    rfl
  rw [indexed] at fit
  rw [declarations_assignAll fresh, List.mapIdx_eq_zipIdx_map, List.map_map]
  exact Edit.Fit.renew (f := fun pair => pair.1.edit) (fun _ => rfl) (fun _ => rfl) fit

theorem toCss_assignAll_eq_apply (parsed : parse source = .ok s) (steps : List (Nat × Text)) :
    (s.assignAll steps).toCss =
      Edit.apply source 0 ((s.assignAll steps).declarations.map Declaration.edit) := by
  obtain ⟨same, -, -⟩ := of_parse parsed
  have fit := fit_assignAll parsed steps
  have source_eq : (s.assignAll steps).source = source := (source_assignAll s steps).trans same
  rw [← source_eq] at fit ⊢
  exact toCss_eq_apply fit

theorem modified_assignAll (parsed : parse source = .ok s) (steps : List (Nat × Text)) :
    (s.assignAll steps).modified = true ↔
      ∃ i d, s.declarations[i]? = some d ∧ valueAfter steps i d ≠ d.value := by
  obtain ⟨-, fresh, -⟩ := of_parse parsed
  rw [modified, declarations_assignAll fresh, List.any_eq_true]
  constructor
  · rintro ⟨e, he, changed⟩
    obtain ⟨i, hi, rfl⟩ := List.mem_mapIdx.1 he
    refine ⟨i, s.declarations[i], List.getElem?_eq_getElem hi, ?_⟩
    rw [fresh _ (List.getElem_mem hi)]
    simpa [Declaration.modified, Declaration.assign] using changed
  · rintro ⟨i, d, hd, changed⟩
    obtain ⟨hi, rfl⟩ := List.getElem?_eq_some_iff.1 hd
    refine ⟨_, List.mem_mapIdx.2 ⟨i, hi, rfl⟩, ?_⟩
    rw [fresh _ (List.getElem_mem hi)] at changed
    simpa [Declaration.modified, Declaration.assign] using changed

/-- Written back after any steps, a stylesheet is its text in which the span of each declaration holds
the last value assigned to the declaration, and only these values matter. The stylesheet counts as
modified when one of them differs from what its author wrote; if none does the text comes back. -/
theorem toCss_assignAll (parsed : parse source = .ok s) (steps : List (Nat × Text)) :
    (s.assignAll steps).declarations =
        s.declarations.mapIdx (fun i d => d.assign (valueAfter steps i d)) ∧
      Spliced 0 source (s.assignAll steps).declarations (s.assignAll steps).toCss ∧
      (∀ others : List (Nat × Text),
        (∀ i d, s.declarations[i]? = some d → valueAfter others i d = valueAfter steps i d) →
        (s.assignAll others).toCss = (s.assignAll steps).toCss) ∧
      ((s.assignAll steps).modified = true ↔
        ∃ i d, s.declarations[i]? = some d ∧ valueAfter steps i d ≠ d.value) ∧
      ((∀ i d, s.declarations[i]? = some d → valueAfter steps i d = d.value) →
        (s.assignAll steps).toCss = source) := by
  obtain ⟨-, fresh, -⟩ := of_parse parsed
  have by_values : ∀ others : List (Nat × Text),
      (∀ i d, s.declarations[i]? = some d → valueAfter others i d = valueAfter steps i d) →
      (s.assignAll others).toCss = (s.assignAll steps).toCss := by
    intro others same
    have declarations_eq : (s.assignAll others).declarations = (s.assignAll steps).declarations := by
      rw [declarations_assignAll fresh, declarations_assignAll fresh]
      refine List.ext_getElem? fun i => ?_
      rw [List.getElem?_mapIdx, List.getElem?_mapIdx]
      cases hd : s.declarations[i]? with
      | none => rfl
      | some d => rw [Option.map_some, Option.map_some, same i d hd]
    rw [toCss_assignAll_eq_apply parsed, toCss_assignAll_eq_apply parsed, declarations_eq]
  refine ⟨declarations_assignAll fresh steps, ?_, by_values, modified_assignAll parsed steps, ?_⟩
  · rw [toCss_assignAll_eq_apply parsed]
    exact .of_fit (fit_assignAll parsed steps)
  · intro back
    -- No step at all leaves the same values, and a stylesheet that was read is written back as it was.
    rw [← by_values [] fun i d hd => ?_]
    · exact toCss_of_parse parsed
    · rw [back i d hd]
      exact (fresh d (List.mem_of_getElem? hd)).symm

def sparse : Text := "a\x7bb:;c:1 !important;d \x7be:\x7d\x7d".toList

theorem toCss_assignAll_sparse :
    let steps := [(2, "5".toList), (0, "xy".toList), (1, []), (2, [])]
    ∃ s, parse sparse = .ok s ∧
      Spliced 0 sparse (s.assignAll steps).declarations (s.assignAll steps).toCss ∧
      (s.assignAll steps).toCss = "a\x7bb:xy;c: !important;d \x7be:\x7d\x7d".toList ∧
      (s.assignAll [(1, []), (2, []), (0, "xy".toList)]).toCss = (s.assignAll steps).toCss ∧
      (s.assignAll steps).modified = true := by
  intro steps
  have read : (parse sparse).toOption.map (fun s =>
      ((s.assignAll steps).toCss, s.declarations.map Declaration.value)) =
        some ("a\x7bb:xy;c: !important;d \x7be:\x7d\x7d".toList, [[], ['1'], []]) := by
    decide +kernel
  obtain ⟨s, parsed, found⟩ := Option.map_eq_some_iff.1 read
  obtain ⟨css, values⟩ := Prod.mk.inj found
  obtain ⟨-, spliced, by_values, modified_iff, -⟩ := toCss_assignAll (ok_of_toOption parsed) steps
  refine ⟨s, ok_of_toOption parsed, spliced, css, by_values _ fun i d _ => ?_, modified_iff.2 ?_⟩
  · match i with
    | 0 | 1 | 2 | i + 3 => simp [steps, valueAfter, List.lookup_cons]
  · have second : (s.declarations.map Declaration.value)[1]? = some ['1'] := by rw [values]; rfl
    rw [List.getElem?_map] at second
    obtain ⟨d, hd, value⟩ := Option.map_eq_some_iff.1 second
    exact ⟨1, d, hd, by simp [steps, valueAfter, List.lookup_cons, value]⟩

end Stylesheet

end CustomProperties
