import CustomProperties.Proofs.Resolver.Resupply

/-!
Answers that are laid over one another. A value that is supplied with closed answers still has its own
references and no others, so that supplying it once more is the same as supplying it at once, each
reference with the last answer that there is for it.
-/

namespace CustomProperties

/-- The answers of `later`, and those of `earlier` where these are missing or empty. -/
def overlay (earlier later : Text → Option Text) (n : Text) : Option Text :=
  match later n with
  | some (c :: value) => some (c :: value)
  | _ => earlier n

/-- The last of some answers that is not empty, or the first if there is none. -/
def overlayAll : List (Text → Option Text) → Text → Option Text
  | [] => fun _ => none
  | earlier :: later => overlay earlier (overlayAll later)

variable {earlier later : Text → Option Text} {value : Text}

theorem overlay_cases (earlier later : Text → Option Text) (n : Text) :
    (∃ c value, later n = some (c :: value) ∧ overlay earlier later n = some (c :: value)) ∨
    (later n).getD [] = [] ∧ overlay earlier later n = earlier n := by
  rw [overlay]
  match later n with
  | some (c :: value) => exact .inl ⟨c, value, rfl, rfl⟩
  | some [] => exact .inr ⟨rfl, rfl⟩
  | none => exact .inr ⟨rfl, rfl⟩

@[simp] theorem overlay_self (answers : Text → Option Text) : overlay answers answers = answers := by
  funext n
  rcases overlay_cases answers answers n with ⟨c, value, given, same⟩ | ⟨-, same⟩
  · rw [same, given]
  · exact same

theorem overlay_closed {n : Text} {answer : Text} (first : ∀ s, earlier n = some s → s.Closed)
    (last : ∀ s, later n = some s → s.Closed) (given : overlay earlier later n = some answer) :
    answer.Closed := by
  rcases overlay_cases earlier later n with ⟨c, value, there, same⟩ | ⟨-, same⟩
  · exact last answer (there.trans (same.symm.trans given))
  · exact first answer (same.symm.trans given)

theorem Reference.withAnswer_withAnswer (ref : Reference) (earlier later : Text → Option Text) :
    (ref.withAnswer (earlier ref.name)).withAnswer (later ref.name) =
      ref.withAnswer (overlay earlier later ref.name) := by
  rcases overlay_cases earlier later ref.name with ⟨c, value, there, same⟩ | ⟨none_there, same⟩
  · rw [same, there]
    have keyword : (ref.withAnswer (earlier ref.name)).keyword = ref.keyword := by
      rcases ref.withAnswer_cases (earlier ref.name) with ⟨_, _, -, given⟩ | ⟨given, -⟩ <;> rw [given]
    show Reference.mk _ _ _ = Reference.mk _ _ _
    rw [keyword, Reference.name_withAnswer]
  · rw [same]
    rcases (ref.withAnswer (earlier ref.name)).withAnswer_cases (later ref.name) with
      ⟨c, value, there, -⟩ | ⟨unchanged, -⟩
    · simp [there] at none_there
    · exact unchanged

theorem Dissection.map_map (f g : Reference → Reference) (d : Dissection) :
    (d.map f).map g = d.map (g ∘ f) := by
  rw [map, map, map, List.map_map]
  rfl

theorem suppliedValue_suppliedValue
    (closed : ∀ ref ∈ references value, ∀ s, earlier ref.name = some s → s.Closed) :
    suppliedValue later (suppliedValue earlier value) =
      suppliedValue (overlay earlier later) value := by
  rw [suppliedValue_eq_render, dissect_suppliedValue closed, Dissection.map_map,
    suppliedValue_eq_render]
  have each : ((fun ref : Reference => ref.withAnswer (later ref.name)) ∘
      fun ref : Reference => ref.withAnswer (earlier ref.name)) =
        fun ref : Reference => ref.withAnswer (overlay earlier later ref.name) := by
    funext ref
    rw [← ref.withAnswer_withAnswer earlier later, Function.comp_apply, Reference.name_withAnswer]
  rw [each]

end CustomProperties
