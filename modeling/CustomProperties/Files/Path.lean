/-!
Paths as they are written. A path is taken apart at its slashes; empty components and single dots
do not count, two dots do. Exactly two slashes at the front are kept as a root of their own, any
other number is as good as one.
-/

namespace CustomProperties

structure Path where
  root : String
  parts : List String
deriving DecidableEq, Repr

namespace Path

def between : List Char → List (List Char)
  | [] => [[]]
  | c :: rest =>
      let texts := between rest
      if c = '/' then [] :: texts else (c :: texts.headD []) :: texts.tail

/-- The components of a text: what stands between its slashes, empty texts and single dots left
out. -/
def components (s : String) : List String :=
  ((between s.toList).filter fun part => part != [] && part != ['.']).map String.ofList

def rootOf (s : String) : String :=
  match (s.toList.takeWhile (· == '/')).length with
  | 0 => ""
  | 2 => "//"
  | _ => "/"

def ofString (s : String) : Path := ⟨rootOf s, components s⟩

def toString (p : Path) : String :=
  if p.root = "" ∧ p.parts = [] then "." else p.root ++ "/".intercalate p.parts

def isAbsolute (p : Path) : Bool := p.root != ""

def parent (p : Path) : Path := { p with parts := p.parts.dropLast }

def under (p base : Path) : Path :=
  if p.isAbsolute then p else ⟨base.root, base.parts ++ p.parts⟩

/-- A zero character cannot stand in the name of a file. -/
def hasNul (p : Path) : Bool := p.parts.any fun part => part.toList.contains (Char.ofNat 0)

end Path

end CustomProperties
