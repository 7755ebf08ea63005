import CustomProperties.Proofs.Resolver.Resupply

/-!
The value that is one call for a name and nothing else. Where the name is read back from it, the value is
one reference without a fallback, and all that can become of it is the name with another value behind it.
-/

namespace CustomProperties

def callOf (name : Text) : Text := ['v', 'a', 'r', '('] ++ name ++ [')']

/-- A call for a name with a fallback. -/
def callWith (name value : Text) : Text :=
  ['v', 'a', 'r', '('] ++ name ++ [',', ' '] ++ value ++ [')']

variable {name : Text}

theorem callWith_inj {value other : Text} : callWith name value = callWith name other ↔ value = other := by
  simp [callWith]

theorem callWith_ne_callOf (name value : Text) : callWith name value ≠ callOf name := by
  intro same
  have lengths := congrArg List.length same
  simp only [callWith, callOf, List.length_append, List.length_cons] at lengths
  omega

namespace Text

theorem length_trim_le (t : Text) : (trim t).length ≤ t.length := by
  obtain ⟨front, back, whole, -⟩ := indent_append_trim t
  have lengths := congrArg List.length whole
  simp only [List.length_append] at lengths
  omega

end Text

theorem dissect_callOf (reads : referencedNames (callOf name) = [name]) :
    dissect (callOf name) = ⟨[], [(⟨['v', 'a', 'r'], name, none⟩, [])]⟩ := by
  have whole : ∀ pair ∈ (dissect (callOf name)).references, pair.1.Whole :=
    whole_of_dissectFrom none (callOf name)
  have rendered := render_dissect (callOf name)
  rw [referencedNames, references, List.map_map] at reads
  generalize dissect (callOf name) = d at whole rendered reads
  obtain ⟨before, refs⟩ := d
  obtain ⟨⟨⟨keyword, argument, fallback⟩, behind⟩, rfl⟩ : ∃ pair, refs = [pair] :=
    List.length_eq_one_iff.1 (by simpa using congrArg List.length reads)
  have named : Text.trim argument = name := (List.cons.inj reads).1
  have letters : keyword.length = 3 := (whole _ (List.mem_singleton.2 rfl)).keyword.length
  have together : before ++ (keyword ++ '(' :: joinArgument argument fallback ++ [')'] ++ behind) =
      callOf name := by
    simpa [Dissection.render, Dissection.replace, Reference.text] using rendered
  -- The argument is no shorter than the name, so that there is no room for anything else.
  have room : name.length ≤ argument.length := named ▸ Text.length_trim_le argument
  have lengths := congrArg List.length together
  simp only [callOf, List.length_append, List.length_cons, List.length_nil] at lengths
  cases fallback with
  | some text =>
      simp only [joinArgument, List.length_append, List.length_cons] at lengths
      omega
  | none =>
      simp only [joinArgument] at lengths together
      obtain rfl : before = [] := List.eq_nil_of_length_eq_zero (by omega)
      obtain rfl : behind = [] := List.eq_nil_of_length_eq_zero (by omega)
      rw [List.nil_append, List.append_nil, callOf] at together
      obtain ⟨front, -⟩ := List.append_inj' together rfl
      obtain ⟨rfl, rest⟩ : keyword = ['v', 'a', 'r'] ∧ '(' :: argument = '(' :: name :=
        List.append_inj front letters
      rw [(List.cons.inj rest).2]

/-- What becomes of a call: it is given the value that its name has, unless that is empty. -/
theorem suppliedValue_callOf (reads : referencedNames (callOf name) = [name])
    (resolution : Text → Option Text) :
    suppliedValue resolution (callOf name) =
      if (resolution name).getD [] = [] then callOf name
      else callWith name ((resolution name).getD []) := by
  have trimmed : Text.trim name = name := by
    have named : (dissect (callOf name)).references.map (fun pair => pair.1.name) = [name] := by
      rwa [referencedNames, references, List.map_map] at reads
    rw [dissect_callOf reads] at named
    exact (List.cons.inj named).1
  have same : (⟨['v', 'a', 'r'], name, none⟩ : Reference).name = name := trimmed
  rw [suppliedValue, dissect_callOf reads]
  simp only [Dissection.replace, List.flatMap_cons, List.flatMap_nil, List.nil_append,
    List.append_nil, same]
  rcases resolution name with _ | _ | ⟨c, value⟩
  · rfl
  · rfl
  · simp [Reference.supplied, Reference.withFallback, same, callWith]

end CustomProperties
