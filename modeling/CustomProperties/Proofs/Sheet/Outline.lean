import CustomProperties.Proofs.Sheet.Exchange

/-!
What a stylesheet says apart from where it stands: how its blocks are nested and what is written in
them, without positions and without the text it was read from.
-/

namespace CustomProperties

inductive Outline where
  | declaration (name value : Text) (important : Bool)
  | block (prelude : Text) (children : List Outline)
  | statement (text : Text)
deriving Repr

namespace Outline

mutual

def values : Outline → List Text
  | .declaration _ value _ => [value]
  | .block _ children => valuesAll children
  | .statement _ => []

def valuesAll : List Outline → List Text
  | [] => []
  | outline :: outlines => values outline ++ valuesAll outlines

end

end Outline

namespace Node

mutual

def outline (g : Text → Text) : Node → Outline
  | .declaration d => .declaration d.name (g d.value) d.important
  | .block prelude _ children => .block prelude (outlineAll g children)
  | .statement text _ => .statement text

def outlineAll (g : Text → Text) : List Node → List Outline
  | [] => []
  | node :: nodes => outline g node :: outlineAll g nodes

end

mutual

theorem values_outline (g : Text → Text) (node : Node) :
    (outline g node).values = (flatten node).map fun d => g d.value := by
  cases node with
  | declaration d => rfl
  | block prelude position children => exact valuesAll_outlineAll g children
  | statement text position => rfl

theorem valuesAll_outlineAll (g : Text → Text) (nodes : List Node) :
    Outline.valuesAll (outlineAll g nodes) = (flattenAll nodes).map fun d => g d.value := by
  cases nodes with
  | nil => rfl
  | cons node nodes =>
      rw [outlineAll, Outline.valuesAll, values_outline g node, valuesAll_outlineAll g nodes, flattenAll,
        List.map_append]

end

mutual

/-- What is written before the braces and semicolons of a node that are not those of declarations. -/
def heads : Node → List Text
  | .declaration _ => []
  | .block prelude _ children => prelude :: headsAll children
  | .statement text _ => [text]

def headsAll : List Node → List Text
  | [] => []
  | node :: nodes => heads node ++ headsAll nodes

end

mutual

theorem heads_eq (node : Node) : heads node = (preorder node).flatMap fun n => heads n.bare := by
  cases node with
  | declaration d => rfl
  | block prelude position children =>
      exact congrArg (List.cons prelude) (headsAll_eq children)
  | statement text position => rfl

/-- What is written before braces and semicolons, node by node. -/
theorem headsAll_eq (nodes : List Node) :
    headsAll nodes = (preorderAll nodes).flatMap fun n => heads n.bare := by
  cases nodes with
  | nil => rfl
  | cons node nodes =>
      rw [headsAll, preorderAll, List.flatMap_append, heads_eq node, headsAll_eq nodes]

end

mutual

theorem outline_mapValues (g : Text → Text) (node : Node) :
    outline id (mapValues g node) = outline g node := by
  cases node with
  | declaration d => rfl
  | block prelude position children =>
      exact congrArg (Outline.block prelude) (outlineAll_mapValuesAll g children)
  | statement text position => rfl

theorem outlineAll_mapValuesAll (g : Text → Text) (nodes : List Node) :
    outlineAll id (mapValuesAll g nodes) = outlineAll g nodes := by
  cases nodes with
  | nil => rfl
  | cons node nodes =>
      exact congrArg₂ List.cons (outline_mapValues g node) (outlineAll_mapValuesAll g nodes)

end

end Node

/-- The outlines of what some tokens make, of the front and of what stands behind each brace that
closes nothing. -/
def Forests.outlines (g : Text → Text) (f : Forests) : List (List Outline) :=
  (f.front :: f.behind).map (Node.outlineAll g)

namespace Forests

variable {g : Text → Text} {t t' v v' : Token} {ts ts' : List Token}

theorem outlineAll_headD (g : Text → Text) (behind : List (List Node)) :
    Node.outlineAll g (behind.headD []) = (behind.map (Node.outlineAll g)).headD [] := by
  cases behind <;> rfl

/-- A token that starts no declaration adds the same to the outlines of what comes behind it. -/
theorem outlines_cons (kind : t'.kind = t.kind) (text : t'.text = t.text)
    (other : t.kind ≠ .property)
    (later : (ofTokens ts').outlines id = (ofTokens ts).outlines g) :
    (ofTokens (t' :: ts')).outlines id = (ofTokens (t :: ts)).outlines g := by
  obtain ⟨front, behind⟩ := List.cons.inj later
  rw [ofTokens, ofTokens, kind]
  cases hk : t.kind with
  | property => exact absurd hk other
  | prelude =>
      simp only [outlines, enclose, List.map_cons, Node.outlineAll, Node.outline, text, front,
        outlineAll_headD, List.map_tail, behind]
  | statement =>
      simp only [outlines, push, List.map_cons, Node.outlineAll, Node.outline, text, front, behind]
  | closeBrace => simp only [outlines, List.map_cons, Node.outlineAll, front, behind]
  | openBrace => exact later
  | semicolon => exact later
  | value => exact later

theorem ofTokens_property (property : t.kind = .property) (hv : v.kind = .value) (ts : List Token) :
    ofTokens (t :: v :: ts) = (ofTokens ts).push (.declaration (.ofTokens t v)) := by
  have later : ofTokens (v :: ts) = ofTokens ts := by rw [ofTokens, hv]
  rw [ofTokens, later, property]
  rfl

theorem outlines_declaration (kind : t'.kind = .property) (property : t.kind = .property)
    (text : t'.text = t.text) (hv' : v'.kind = .value) (hv : v.kind = .value)
    (value : (Declaration.ofTokens t' v').value = g (Declaration.ofTokens t v).value)
    (important : (Declaration.ofTokens t' v').important = (Declaration.ofTokens t v).important)
    (later : (ofTokens ts').outlines id = (ofTokens ts).outlines g) :
    (ofTokens (t' :: v' :: ts')).outlines id = (ofTokens (t :: v :: ts)).outlines g := by
  obtain ⟨front, behind⟩ := List.cons.inj later
  have name : (Declaration.ofTokens t' v').name = (Declaration.ofTokens t v).name := text
  rw [ofTokens_property kind hv', ofTokens_property property hv]
  simp only [outlines, push, List.map_cons, Node.outlineAll, Node.outline, id, name, value, important,
    front, behind]

theorem mem_heads (h : t ∈ ts) (kind : t.kind = .prelude ∨ t.kind = .statement) :
    Text.trimRight t.text ∈ ((ofTokens ts).front :: (ofTokens ts).behind).flatMap Node.headsAll := by
  have heads : ((ofTokens ts).front :: (ofTokens ts).behind).flatMap Node.headsAll =
      (Token.nodes ts).flatMap Node.heads := by
    rw [← preorder_ofTokens, List.flatMap_map, List.flatMap_assoc]
    exact List.flatMap_congr fun nodes _ => Node.headsAll_eq nodes
  rw [heads, List.mem_flatMap]
  rcases kind with kind | kind
  · exact ⟨.block (Text.trimRight t.text) t.start [],
      Token.mem_nodes h fun next => by simp [Token.node?, kind], List.mem_cons_self ..⟩
  · exact ⟨.statement (Text.trimRight t.text) t.start,
      Token.mem_nodes h fun next => by simp [Token.node?, kind], List.mem_cons_self ..⟩

end Forests

def Stylesheet.outline (s : Stylesheet) : List Outline := Node.outlineAll id s.nodes

end CustomProperties
