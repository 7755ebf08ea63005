import CustomProperties.Variables.Pursuit

/-!
Resolution: the value of a variable with every reference in it replaced. A reference to a variable
that has a value of its own becomes that value; one to a circular or unknown variable becomes the
fallback that its author gave, and stays as it is without one.

A resolver belongs to a table of variables and to the names that count as circular, and it hands
what it has found out from one resolution to the next.
-/

namespace CustomProperties

structure Resolver where
  table : Variables
  circular : List Text
  findings : Findings

namespace Resolver

def ofCircular (table : Variables) (circular : List Text) : Resolver :=
  ⟨table, circular, .empty⟩

def ofVariables (table : Variables) : Resolver := ofCircular table table.circular

def isCircular (r : Resolver) (name : Text) : Bool := name ∈ r.circular

/-- The value of a variable with every reference replaced, or nothing when the variable is circular
or has no value. -/
def resolve (r : Resolver) (name : Text) : Option Text × Resolver :=
  if r.isCircular name then (none, { r with findings := r.findings.meet name })
  else if known : name ∈ r.table.names then
    match r.findings.value? name with
    | some value => (some value, r)
    | none =>
        let errand : Errand r.table := ⟨name, [], known, by simp⟩
        let findings := (Pursuit.run r.circular ⟨[errand], r.findings⟩).findings
        (findings.value? name, { r with findings })
  else (none, r)

def resolveAll (r : Resolver) : List (Text × Option Text) × Resolver :=
  go r r.table.names
where
  go (r : Resolver) : List Text → List (Text × Option Text) × Resolver
    | [] => ([], r)
    | name :: names =>
        let (value, r) := r.resolve name
        let (values, r) := go r names
        ((name, value) :: values, r)

end Resolver

end CustomProperties
