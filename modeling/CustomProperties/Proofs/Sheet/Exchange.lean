import CustomProperties.Proofs.Sheet.Span

/-!
Stylesheets whose values are exchanged. Each declaration gets a new value in place of its own, and all
else stays: the nodes, their order and their positions. In the text of a stylesheet that was read the new
values stand where the old ones stood.
-/

namespace CustomProperties

namespace Node

mutual

/-- A node in which `g` tells the new value of each declaration from its value. -/
def mapValues (g : Text → Text) : Node → Node
  | .declaration d => .declaration (d.assign (g d.value))
  | .block prelude position children => .block prelude position (mapValuesAll g children)
  | .statement text position => .statement text position

def mapValuesAll (g : Text → Text) : List Node → List Node
  | [] => []
  | node :: nodes => mapValues g node :: mapValuesAll g nodes

end

section Update

variable {σ : Type} {f : σ → Declaration → Declaration × σ} {g : Text → Text} {P : σ → Prop}

mutual

/-- A change of declarations that exchanges each value, whatever state it hands along. -/
theorem update_eq_mapValues
    (step : ∀ s d, P s → (f s d).1 = d.assign (g d.value) ∧ P (f s d).2) (node : Node) {s : σ}
    (h : P s) : (update f s node).1 = mapValues g node ∧ P (update f s node).2 := by
  cases node with
  | declaration d =>
      obtain ⟨assigned, later⟩ := step s d h
      exact ⟨congrArg Node.declaration assigned, later⟩
  | block prelude position children =>
      obtain ⟨same, later⟩ := updateAll_eq_mapValuesAll step children h
      exact ⟨congrArg (Node.block prelude position) same, later⟩
  | statement text position => exact ⟨rfl, h⟩

theorem updateAll_eq_mapValuesAll
    (step : ∀ s d, P s → (f s d).1 = d.assign (g d.value) ∧ P (f s d).2) (nodes : List Node)
    {s : σ} (h : P s) :
    (updateAll f s nodes).1 = mapValuesAll g nodes ∧ P (updateAll f s nodes).2 := by
  cases nodes with
  | nil => exact ⟨rfl, h⟩
  | cons node nodes =>
      obtain ⟨first, next⟩ := update_eq_mapValues step node h
      obtain ⟨later, last⟩ := updateAll_eq_mapValuesAll step nodes next
      exact ⟨congrArg₂ List.cons first later, last⟩

end

end Update

variable (f g : Text → Text)

mutual

theorem mapValues_id (node : Node) : mapValues id node = node := by
  cases node with
  | declaration d => rfl
  | block prelude position children =>
      exact congrArg (Node.block prelude position) (mapValuesAll_id children)
  | statement text position => rfl

theorem mapValuesAll_id (nodes : List Node) : mapValuesAll id nodes = nodes := by
  cases nodes with
  | nil => rfl
  | cons node nodes => exact congrArg₂ List.cons (mapValues_id node) (mapValuesAll_id nodes)

end

mutual

theorem mapValues_mapValues (node : Node) :
    mapValues g (mapValues f node) = mapValues (g ∘ f) node := by
  cases node with
  | declaration d => rfl
  | block prelude position children =>
      exact congrArg (Node.block prelude position) (mapValuesAll_mapValuesAll children)
  | statement text position => rfl

theorem mapValuesAll_mapValuesAll (nodes : List Node) :
    mapValuesAll g (mapValuesAll f nodes) = mapValuesAll (g ∘ f) nodes := by
  cases nodes with
  | nil => rfl
  | cons node nodes =>
      exact congrArg₂ List.cons (mapValues_mapValues node) (mapValuesAll_mapValuesAll nodes)

end

mutual

theorem flatten_mapValues (node : Node) :
    flatten (mapValues g node) = (flatten node).map fun d => d.assign (g d.value) := by
  cases node with
  | declaration d => rfl
  | block prelude position children => exact flattenAll_mapValuesAll children
  | statement text position => rfl

theorem flattenAll_mapValuesAll (nodes : List Node) :
    flattenAll (mapValuesAll g nodes) = (flattenAll nodes).map fun d => d.assign (g d.value) := by
  cases nodes with
  | nil => rfl
  | cons node nodes =>
      rw [mapValuesAll, flattenAll, flatten_mapValues node, flattenAll_mapValuesAll nodes, flattenAll,
        List.map_append]

end

end Node

namespace Stylesheet

/-- A stylesheet in which `g` tells the new value of each declaration from its value. -/
def mapValues (g : Text → Text) (s : Stylesheet) : Stylesheet :=
  { s with nodes := Node.mapValuesAll g s.nodes }

variable {source : Text} {s : Stylesheet} (f g : Text → Text)

theorem mapValues_id (s : Stylesheet) : s.mapValues id = s := by
  rw [mapValues, Node.mapValuesAll_id]

theorem mapValues_mapValues (s : Stylesheet) :
    (s.mapValues f).mapValues g = s.mapValues (g ∘ f) := by
  rw [mapValues, mapValues, mapValues, Node.mapValuesAll_mapValuesAll]

theorem declarations_mapValues (s : Stylesheet) :
    (s.mapValues g).declarations = s.declarations.map fun d => d.assign (g d.value) := by
  rw [declarations_eq_flattenAll, declarations_eq_flattenAll, mapValues,
    Node.flattenAll_mapValuesAll]

theorem toCss_mapValues (parsed : parse source = .ok s) :
    (s.mapValues g).toCss =
      Edit.apply source 0 (s.declarations.map fun d => (d.assign (g d.value)).edit) := by
  obtain ⟨same, -, fit⟩ := of_parse parsed
  have source_eq : (s.mapValues g).source = source := same
  have fit' : Edit.Fit (s.mapValues g).source 0
      ((s.mapValues g).declarations.map Declaration.edit) := by
    rw [declarations_mapValues, List.map_map, source_eq]
    exact Edit.Fit.renew (f := Declaration.edit) (fun _ => rfl) (fun _ => rfl) fit
  rw [toCss_eq_apply fit', declarations_mapValues, List.map_map, source_eq]
  rfl

end Stylesheet

end CustomProperties
