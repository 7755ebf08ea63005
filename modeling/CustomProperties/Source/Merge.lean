import CustomProperties.Run.Event
import CustomProperties.Variables.Supply

/-!
Merging the variables of several sources. The sources are loaded in the order given, and the values
of a later one win. A source that cannot be loaded is told of and left out.
-/

namespace CustomProperties

/-- The outcome of a step that may meet a path no system takes: what it came to, the events up to
there, and the loader as it is then. -/
structure Step (α : Type) where
  outcome : Except PathFault α
  events : List Event
  loader : Loader

def Loader.mergeInto (l : Loader) (t : FileTree) (base : Option String) (merged : Variables) :
    List String → Step Variables
  | [] => ⟨.ok merged, [], l⟩
  | source :: sources =>
      match l.load t source base with
      | (.error fault, l) => ⟨.error fault, [], l⟩
      | (.ok (.error failure), l) =>
          let rest := l.mergeInto t base merged sources
          { rest with events := .unusable source failure :: rest.events }
      | (.ok (.ok loaded), l) =>
          let path := loaded.version.path
          let found := loaded.sheet.customProperties
          let rest := l.mergeInto t base (merged.merge found) sources
          { rest with
            events :=
              (if loaded.reused then .reused path else .parsed path) ::
                .extracted found.size source :: rest.events }

def Loader.merge (l : Loader) (t : FileTree) (sources : List String) (base : Option String) :
    Step Variables :=
  l.mergeInto t base .empty sources

/-- The texts that come before the first name of bytes, and whether there is one. -/
def SourceName.leading : List SourceName → List String × Bool
  | [] => ([], false)
  | .bytes _ :: _ => ([], true)
  | .text s :: names =>
      let (texts, stopped) := leading names
      (s :: texts, stopped)

/-- Merge the variables of named sources. One that is named by bytes has no path, so that the merge
ends there. -/
def Loader.mergeNamed (l : Loader) (t : FileTree) (names : List SourceName) (base : Option String) :
    Step Variables :=
  let (sources, stopped) := SourceName.leading names
  let step := l.merge t sources base
  if stopped then { step with outcome := step.outcome.bind fun _ => .error .bytesName } else step

def Loader.mergeSetting (l : Loader) (t : FileTree) (setting : Setting) (base : Option String) :
    Step Variables :=
  let (names, complaints) := setting.sources
  let step := l.mergeNamed t names base
  { step with events := complaints.map Event.complaint ++ step.events }

end CustomProperties
