import CustomProperties.Value.Reference
import CustomProperties.Variables.Basic
import CustomProperties.Variables.Walk

/-!
The graph of the references between variables. A variable leads to the variables that its value
refers to, fallbacks and names without a value left out. It is circular when a way of one step or
more leads from it back to it.
-/

namespace CustomProperties

namespace Variables

def graph (v : Variables) : Graph :=
  v.entries.map fun (name, value) => (name, (referencedNames value).filter v.contains)

/-- A variable leads to the variables with a value that its own value refers to. -/
def LeadsTo (v : Variables) (a b : Text) : Prop :=
  ∃ value, v.get? a = some value ∧ b ∈ referencedNames value ∧ b ∈ v.names

instance (v : Variables) (a b : Text) : Decidable (v.LeadsTo a b) :=
  decidable_of_iff ((v.get? a).any (b ∈ referencedNames ·) ∧ b ∈ v.names) <| by
    simp only [Option.any_eq_true, decide_eq_true_eq, LeadsTo]
    constructor
    · rintro ⟨⟨value, same, refers⟩, known⟩
      exact ⟨value, same, refers, known⟩
    · rintro ⟨value, same, refers, known⟩
      exact ⟨⟨value, same, refers⟩, known⟩

def circular (v : Variables) : List Text := v.graph.circular

end Variables

end CustomProperties
