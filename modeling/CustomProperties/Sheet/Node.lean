import CustomProperties.Sheet.Declaration

/-!
The tree of a stylesheet. A node is a declaration, a block with its children, or a statement
without a block. The declarations of a tree are walked in document order; the walk keeps a list of
the siblings that are still to come at every open level.
-/

namespace CustomProperties

inductive Node where
  | declaration (d : Declaration)
  | block (prelude : Text) (position : Position) (children : List Node)
  | statement (text : Text) (position : Position)
deriving Repr

namespace Node

mutual

/-- The steps that a walk takes for a node. -/
def weight : Node → Nat
  | .declaration _ => 1
  | .block _ _ children => weightAll children + 2
  | .statement _ _ => 1

def weightAll : List Node → Nat
  | [] => 0
  | node :: nodes => weight node + weightAll nodes

end

def weightPending : List (List Node) → Nat
  | [] => 0
  | level :: pending => weightAll level + 1 + weightPending pending

/-- The declarations of the pending levels, the innermost level first. -/
def walk : List (List Node) → List Declaration
  | [] => []
  | [] :: pending => walk pending
  | (.declaration d :: siblings) :: pending => d :: walk (siblings :: pending)
  | (.block _ _ children :: siblings) :: pending => walk (children :: siblings :: pending)
  | (.statement _ _ :: siblings) :: pending => walk (siblings :: pending)
termination_by pending => weightPending pending
decreasing_by all_goals
  simp only [weightPending, weightAll, weight]
  omega

mutual

/-- The declarations of a node, those of a block being those of its children. -/
def flatten : Node → List Declaration
  | .declaration d => [d]
  | .block _ _ children => flattenAll children
  | .statement _ _ => []

def flattenAll : List Node → List Declaration
  | [] => []
  | node :: nodes => flatten node ++ flattenAll nodes

end

mutual

def update {σ : Type} (f : σ → Declaration → Declaration × σ) (s : σ) : Node → Node × σ
  | .declaration d =>
      let (d, s) := f s d
      (.declaration d, s)
  | .block prelude position children =>
      let (children, s) := updateAll f s children
      (.block prelude position children, s)
  | .statement text position => (.statement text position, s)

def updateAll {σ : Type} (f : σ → Declaration → Declaration × σ) (s : σ) :
    List Node → List Node × σ
  | [] => ([], s)
  | node :: nodes =>
      let (node, s) := update f s node
      let (nodes, s) := updateAll f s nodes
      (node :: nodes, s)

end

end Node

/-- The nodes that some tokens make: those up to the first closing brace that has no opening brace
among the tokens, and those behind each such brace. -/
structure Forests where
  front : List Node
  behind : List (List Node)

namespace Forests

def push (node : Node) (f : Forests) : Forests := { f with front := node :: f.front }

def enclose (prelude : Token) (f : Forests) : Forests :=
  let block := Node.block (Text.trimRight prelude.text) prelude.start f.front
  ⟨block :: f.behind.headD [], f.behind.tail⟩

/-- A property needs the value behind it; the other tokens that carry no text of their own only
set items apart. -/
def ofTokens : List Token → Forests
  | [] => ⟨[], []⟩
  | token :: rest =>
      let f := ofTokens rest
      match token.kind, rest.head? with
      | .property, some value => f.push (.declaration (.ofTokens token value))
      | .prelude, _ => f.enclose token
      | .statement, _ => f.push (.statement (Text.trimRight token.text) token.start)
      | .closeBrace, _ => ⟨[], f.front :: f.behind⟩
      | _, _ => f

end Forests

end CustomProperties
