import CustomProperties.Proofs.Resolver.Supply
import CustomProperties.Proofs.Value.Rewriting

/-!
Supplying the references of a value, and reading the new value. When the computed values are closed
the new value has the same references in the same places, each with its computed value as the
fallback or as its author wrote it; and supplying it again changes nothing.
-/

namespace CustomProperties

namespace Reference

/-- A reference with an answer for its name as its fallback, or as it was if the answer is empty or
missing. -/
def withAnswer (ref : Reference) : Option Text → Reference
  | some (c :: value) => ⟨ref.keyword, ref.name, some (' ' :: c :: value)⟩
  | _ => ref

variable {ref : Reference} {answer : Option Text}

theorem withAnswer_cases (ref : Reference) (answer : Option Text) :
    (∃ c value, answer = some (c :: value) ∧
      ref.withAnswer answer = ⟨ref.keyword, ref.name, some (' ' :: c :: value)⟩) ∨
    ref.withAnswer answer = ref ∧ ∀ other : Reference, other.supplied answer = other.text := by
  match answer with
  | some (c :: value) => exact .inl ⟨c, value, rfl, rfl⟩
  | some [] => exact .inr ⟨rfl, fun _ => rfl⟩
  | none => exact .inr ⟨rfl, fun _ => rfl⟩

theorem text_withAnswer : (ref.withAnswer answer).text = ref.supplied answer := by
  rcases ref.withAnswer_cases answer with ⟨c, value, rfl, same⟩ | ⟨same, supplied⟩
  · simp [same, text, joinArgument, supplied, withFallback]
  · rw [same, supplied]

theorem name_withAnswer : (ref.withAnswer answer).name = ref.name := by
  rcases ref.withAnswer_cases answer with ⟨c, value, rfl, same⟩ | ⟨same, -⟩
  · rw [same]
    exact Text.trim_trim _
  · rw [same]

theorem supplied_withAnswer :
    (ref.withAnswer answer).supplied answer = (ref.withAnswer answer).text := by
  rcases ref.withAnswer_cases answer with ⟨c, value, rfl, same⟩ | ⟨same, supplied⟩
  · rw [text_withAnswer]
    show Reference.withFallback _ _ = Reference.withFallback _ _
    rw [withFallback, name_withAnswer, same]
    rfl
  · rw [same, supplied]

/-- The name of a whole reference may stand before a comma. -/
theorem Whole.name_closed (h : ref.Whole) :
    ref.name.Closed ∧ (splitArgument 0 ref.name).2 = none := by
  have argument := depthAfter_splitArgument h.closed
  rw [h.split] at argument
  exact depthAfter_trim argument.1 argument.2

theorem Whole.withAnswer (h : ref.Whole) (closed : ∀ value, answer = some value → value.Closed) :
    (ref.withAnswer answer).Whole ∧ (ref.withAnswer answer).keyword = ref.keyword := by
  have name : (ref.withAnswer answer).name = ref.name := name_withAnswer
  rcases ref.withAnswer_cases answer with ⟨c, value, rfl, same⟩ | ⟨same, -⟩
  · have value_closed : Text.Closed (c :: value) := closed _ rfl
    obtain ⟨name_closed, undivided⟩ := h.name_closed
    have comma : startsLiteral (',' :: ' ' :: c :: value) = false := by
      simp [startsLiteral_cons, isQuote]
    have space : startsLiteral (' ' :: c :: value) = false := by simp [startsLiteral_cons, isQuote]
    rw [same] at name ⊢
    refine ⟨⟨h.keyword, ?_, ?_, ?_⟩, rfl⟩
    · show depthAfter 0 (ref.name ++ ',' :: ' ' :: c :: value) = some 0
      rw [depthAfter_append name_closed (by simp), depthAfter_cons comma, if_neg (by simp)]
      show depthAfter 0 (' ' :: c :: value) = some 0
      rw [depthAfter_cons space, if_neg (by simp)]
      exact value_closed
    · show splitArgument 0 (ref.name ++ ',' :: ' ' :: c :: value) = _
      rw [splitArgument_append name_closed (by simp), undivided]
      simp [splitArgument_comma]
    · rw [isCustom, name]
      exact h.custom
  · rw [same]
    exact ⟨h, rfl⟩

end Reference

section Value

variable {answer : Text → Option Text} {value : Text}

theorem suppliedValue_eq_render (answer : Text → Option Text) (value : Text) :
    suppliedValue answer value =
      ((dissect value).map fun ref => ref.withAnswer (answer ref.name)).render := by
  simp [suppliedValue, Dissection.replace, Dissection.render, Dissection.map, List.flatMap_map,
    Reference.text_withAnswer]

theorem changesValue_congr {answer' : Text → Option Text}
    (same : ∀ n ∈ referencedNames value, answer n = answer' n) :
    changesValue answer value = changesValue answer' value := by
  have each : ∀ ref ∈ references value, (ref.supplied (answer ref.name) != ref.text) =
      (ref.supplied (answer' ref.name) != ref.text) := fun ref hr => by
    rw [same ref.name (List.mem_map_of_mem hr)]
  rw [changesValue, changesValue, Bool.eq_iff_iff, List.any_eq_true, List.any_eq_true]
  exact exists_congr fun ref => and_congr_right fun hr => by rw [each ref hr]

section Closed

variable (closed : ∀ ref ∈ references value, ∀ s, answer ref.name = some s → s.Closed)

include closed

theorem dissect_suppliedValue :
    dissect (suppliedValue answer value) =
      (dissect value).map fun ref => ref.withAnswer (answer ref.name) := by
  have fits : (dissect value).Fits fun ref => ref.withAnswer (answer ref.name) := fun pair hp =>
    (whole_of_dissectFrom none value pair hp).withAnswer
      (closed pair.1 (List.mem_map_of_mem hp))
  rw [suppliedValue_eq_render]
  exact dissectFrom_render_map none value fits

theorem references_suppliedValue :
    references (suppliedValue answer value) =
      (references value).map fun ref => ref.withAnswer (answer ref.name) := by
  rw [references, dissect_suppliedValue closed, references, Dissection.map, List.map_map,
    List.map_map]
  rfl

theorem names_suppliedValue :
    referencedNames (suppliedValue answer value) = referencedNames value := by
  rw [referencedNames, references_suppliedValue closed, referencedNames, List.map_map]
  exact List.map_congr_left fun ref _ => Reference.name_withAnswer

theorem changesValue_iff :
    changesValue answer value ↔ suppliedValue answer value ≠ value := by
  constructor
  · intro changes same
    have read := references_suppliedValue closed
    rw [same] at read
    obtain ⟨ref, hr, changed⟩ := List.any_eq_true.1 changes
    have same_refs := List.map_inj_left.1 ((List.map_id (references value)).trans read)
    rw [← Reference.text_withAnswer, ← same_refs ref hr] at changed
    simp at changed
  · intro other
    cases changes : changesValue answer value with
    | true => rfl
    | false => exact absurd (suppliedValue_of_unchanged changes) other

theorem changesValue_suppliedValue :
    changesValue answer (suppliedValue answer value) = false := by
  rw [changesValue, references_suppliedValue closed, List.any_map, List.any_eq_false]
  intro ref _
  simp only [Function.comp_apply, Reference.name_withAnswer, Reference.supplied_withAnswer]
  simp

end Closed

end Value

namespace Resolver

variable {r s s' : Resolver} {kept : List Text}

/-- All resolvers that come after the supply of references agree on the names of these. -/
theorem Later.answer_congr {refs : List (Reference × Text)}
    (later : Later (r.supplyReferences kept refs).2 s)
    (later' : Later (r.supplyReferences kept refs).2 s') :
    ∀ pair ∈ refs, s.answer kept pair.1.name = s'.answer kept pair.1.name := by
  induction refs generalizing r with
  | nil => simp
  | cons pair refs ih =>
      have first := Later.supplyReferences kept refs (r.supplyReference kept pair.1).2
      refine List.forall_mem_cons.2 ⟨?_, ih later later'⟩
      rw [(first.trans later).answer_eq, (first.trans later').answer_eq]

/-- Supplying a value and reading what it became. Let `s` be the resolver behind that, which answers
again as it answered on the way, and let its answers be closed texts. Then the new value divides as
the old one does, into the same texts around references to the same names; a reference has the
answer for its name as its fallback when there is one that is not empty, and stays as it was
otherwise. The value is said to have changed when it is another one, and supplied once more it stays
the same. -/
theorem dissect_supplyValue (r : Resolver) (kept : List Text) (value : Text)
    (closed : ∀ ref ∈ references value, ref.name ∉ kept →
      ∀ answer ∈ ((r.supplyValue kept value).2.resolve ref.name).1, answer.Closed) :
    let new := (r.supplyValue kept value).1.1
    let s := (r.supplyValue kept value).2
    dissect new = (dissect value).map (fun ref =>
        if ref.name ∈ kept then ref else ref.withAnswer (s.resolve ref.name).1) ∧
      referencedNames new = referencedNames value ∧
      ((r.supplyValue kept value).1.2 = true ↔ new ≠ value) ∧
      (s.supplyValue kept new).1 = (new, false) := by
  intro new s
  have closed' : ∀ ref ∈ references value, ∀ a, s.answer kept ref.name = some a → a.Closed := by
    intro ref hr a ha
    by_cases hk : ref.name ∈ kept
    · rw [answer_kept hk] at ha
      simp at ha
    · rw [answer_asked hk] at ha
      exact closed ref hr hk a ha
  have supplied := supplyValue_fst (Later.refl s)
  have new_eq : new = suppliedValue (s.answer kept) value := congrArg Prod.fst supplied
  have names := names_suppliedValue closed'
  rw [← new_eq] at names
  refine ⟨?_, names, ?_, ?_⟩
  · rw [new_eq, dissect_suppliedValue closed']
    refine congrArg (Dissection.map · (dissect value)) (funext fun ref => ?_)
    by_cases hk : ref.name ∈ kept
    · rw [answer_kept hk, if_pos hk]
      rfl
    · rw [answer_asked hk, if_neg hk]
  · rw [supplied, new_eq]
    exact changesValue_iff closed'
  · let s' := (s.supplyValue kept new).2
    -- The new value refers to the old names, and their answers are remembered.
    have same : ∀ n ∈ referencedNames new, s'.answer kept n = s.answer kept n := by
      rw [names]
      intro n hn
      obtain ⟨ref, hr, rfl⟩ := List.mem_map.1 hn
      obtain ⟨pair, hp, rfl⟩ := List.mem_map.1 hr
      exact Later.answer_congr (Later.supplyReferences kept _ s) (Later.refl s) pair hp
    have unchanged : changesValue (s'.answer kept) new = false := by
      rw [changesValue_congr same, new_eq]
      exact changesValue_suppliedValue closed'
    rw [supplyValue_fst (Later.refl s'), unchanged, suppliedValue_of_unchanged unchanged]

/-- Values with a comma, a parenthesis in a string and a comment. -/
def palette : Variables :=
  .ofList
    [("--a".toList, "f(1, 2) /* ) */".toList), ("--b".toList, "\")\" var(--a)".toList),
      ("--c".toList, "var(--c)".toList), ("--d".toList, [])]

theorem dissect_supplyValue_palette :
    let value := "var( x, VAR( --a ,9) var(--b)) var(--c, 1) var(--d)/**/var(--e".toList
    let r := ofCircular palette palette.circular
    let new := (r.supplyValue palette.circular value).1.1
    let s := (r.supplyValue palette.circular value).2
    new = ("var( x, VAR(--a, f(1, 2) /* ) */) var(--b, \")\" f(1, 2) /* ) */)) " ++
      "var(--c, 1) var(--d)/**/var(--e").toList ∧
    dissect new = (dissect value).map (fun ref =>
      if ref.name ∈ palette.circular then ref else ref.withAnswer (s.resolve ref.name).1) ∧
    (s.supplyValue palette.circular new).1 = (new, false) := by
  intro value r new s
  obtain ⟨read, -, -, again⟩ := dissect_supplyValue r palette.circular value (by decide +kernel)
  exact ⟨by decide +kernel, read, again⟩

end Resolver

end CustomProperties
