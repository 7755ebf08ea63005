import CustomProperties.Run.Apply

/-!
Processing a text or a file under the options of a host. The text has to be a stylesheet and the
options a table, or not given; whatever else is wrong is told as a warning.
-/

namespace CustomProperties

inductive RunError where
  | malformed (cause : ParseError)
  | notATable (kind : String)
  | badPath (fault : PathFault)
  | unreadable (path : String) (cause : ReadError)
deriving DecidableEq, Repr

/-- A run: the stylesheet it came to or why it failed, its events, and the loader behind it. -/
structure Run where
  outcome : Except RunError Stylesheet
  events : List Event
  loader : Loader

def RunError.message : RunError → String
  | .malformed cause => cause.message
  | .notATable kind => "'" ++ kind ++ "' object has no attribute 'get'"
  | .badPath fault => fault.message
  | .unreadable path cause => cause.message path

def Loader.process (l : Loader) (t : FileTree) (css : Text) (options : Setting)
    (path : Option String) : Run :=
  match Stylesheet.parse css with
  | .error e => ⟨.error (.malformed e), [], l⟩
  | .ok sheet =>
      match options.fallbacks with
      | .error kind => ⟨.error (.notATable kind), [], l⟩
      | .ok fallbacks =>
          let (names, complaints) := fallbacks.sources
          let step := sheet.applySources path l t (names.map SourceName.setting)
          ⟨step.outcome.mapError .badPath, complaints.map Event.complaint ++ step.events,
            step.loader⟩

def Loader.processFile (l : Loader) (t : FileTree) (path : String) (options : Setting) : Run :=
  let p := Path.ofString path
  if p.hasNul then ⟨.error (.badPath .zeroCharacter), [], l⟩
  else
    match t.readText p with
    | .error e => ⟨.error (.unreadable p.toString e), [], l⟩
    | .ok css => l.process t css options (some path)

end CustomProperties
