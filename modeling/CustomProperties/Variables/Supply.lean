import CustomProperties.Variables.Resolver
import CustomProperties.Sheet.Basic

/-!
Supplying fallbacks: every reference to a variable with a computed value gets that value as its
fallback, in place of the one its author may have given. References to the names that are to be
kept, to circular and unknown variables and to variables with an empty value stay as they are, and
so does the text between references.
-/

namespace CustomProperties

/-- A reference with a value as its fallback. The function keeps the author's spelling. -/
def Reference.withFallback (r : Reference) (value : Text) : Text :=
  r.keyword ++ '(' :: r.name ++ ',' :: ' ' :: value ++ [')']

namespace Resolver

def supplyReference (r : Resolver) (kept : List Text) (ref : Reference) : Text × Resolver :=
  if ref.name ∈ kept then (ref.text, r)
  else
    match r.resolve ref.name with
    | (some (c :: value), r) => (ref.withFallback (c :: value), r)
    | (_, r) => (ref.text, r)

def supplyReferences (r : Resolver) (kept : List Text) :
    List (Reference × Text) → (Text × Bool) × Resolver
  | [] => (([], false), r)
  | (ref, behind) :: rest =>
      let (text, r) := r.supplyReference kept ref
      let ((tail, changed), r) := supplyReferences r kept rest
      ((text ++ behind ++ tail, text != ref.text || changed), r)

def supplyValue (r : Resolver) (kept : List Text) (value : Text) : (Text × Bool) × Resolver :=
  let d := dissect value
  let ((tail, changed), r) := r.supplyReferences kept d.references
  (if changed then (d.before ++ tail, true) else (value, false), r)

def supplyDeclaration (kept : List Text) (s : Resolver × Nat) (d : Declaration) :
    Declaration × Resolver × Nat :=
  match s.1.supplyValue kept d.value with
  | ((value, true), r) => (d.assign value, r, s.2 + 1)
  | ((_, false), r) => (d, r, s.2)

end Resolver

/-- A stylesheet supplied with fallbacks, how many declarations changed, and the resolver with all
that it found out. -/
structure Supplied where
  sheet : Stylesheet
  count : Nat
  resolver : Resolver

def Stylesheet.supply (s : Stylesheet) (r : Resolver) (kept : List Text) : Supplied :=
  let (nodes, r, count) := Node.updateAll (Resolver.supplyDeclaration kept) (r, 0) s.nodes
  ⟨{ s with nodes }, count, r⟩

/-- The variables that a stylesheet declares at any depth; of equal names the last one counts. -/
def Stylesheet.customProperties (s : Stylesheet) : Variables :=
  .ofList ((s.declarations.filter Declaration.isVariable).map fun d => (d.name, d.value))

end CustomProperties
