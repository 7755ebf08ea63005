import CustomProperties.Source.Merge

/-!
One run over a stylesheet: the variables of the sources are merged, the circular ones among them
found, and the references of the stylesheet supplied with fallbacks. Without sources, or when the
sources have no variables, the stylesheet stays as it is and nothing more happens.
-/

namespace CustomProperties

def Event.ofCircular (names : List Text) : List Event :=
  (if names = [] then [] else [.foundCircular names.length]) ++ names.map Event.circular

def Stylesheet.applyVariables (s : Stylesheet) (sources : Nat) (v : Variables) :
    Stylesheet × List Event :=
  let circular := v.circular
  let supplied := s.supply (.ofCircular v circular) circular
  (supplied.sheet,
    Event.ofCircular circular ++ supplied.resolver.findings.met.map Event.skipped ++
      [.supplied supplied.count, .applied sources v.size supplied.count])

def baseOf (path : Option String) : Option String :=
  match path with
  | none => none
  | some path => if path.isEmpty then none else some (Path.ofString path).parent.toString

/-- Supply a stylesheet with fallbacks from what is given for its sources. That need not be paths, even
if it was looked through before. -/
def Stylesheet.applySources (s : Stylesheet) (path : Option String) (l : Loader) (t : FileTree)
    (fallbacks : List Setting) : Step Stylesheet :=
  if fallbacks.isEmpty then ⟨.ok s, [], l⟩
  else
    let merged := l.mergeSetting t (.tuple fallbacks) (baseOf path)
    match merged.outcome with
    | .error fault => ⟨.error fault, merged.events, merged.loader⟩
    | .ok v =>
        if v.entries = [] then ⟨.ok s, merged.events, merged.loader⟩
        else
          let (s, events) := s.applyVariables fallbacks.length v
          ⟨.ok s, merged.events ++ events, merged.loader⟩

end CustomProperties
