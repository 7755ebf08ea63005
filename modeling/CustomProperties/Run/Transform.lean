import CustomProperties.Run.Apply

/-!
Transforms. A transform supplies stylesheets with fallbacks from sources of its own, which it loads
with a loader that it may share with others. Transforms are applied one behind the other, each to the
stylesheet that the one before it has left.
-/

namespace CustomProperties

/-- What a transform is given for its sources, and the number of the loader that loads them. -/
structure Transform where
  fallbacks : List Setting
  loader : Nat

/-- What transforms come to: the stylesheet, unless they met a path that no system takes, the events up
to there, and the loaders as they are then. -/
structure Chain where
  outcome : Except PathFault Stylesheet
  events : List Event
  loaders : Nat → Loader

namespace Transform

def ofNames (names : List SourceName) (loader : Nat) : Transform := ⟨names.map SourceName.setting, loader⟩

def apply (a : Transform) (s : Stylesheet) (path : Option String) (t : FileTree)
    (loaders : Nat → Loader) : Chain :=
  let step := s.applySources path (loaders a.loader) t a.fallbacks
  ⟨step.outcome, step.events, fun n => if n = a.loader then step.loader else loaders n⟩

end Transform

def Stylesheet.applyTransforms (s : Stylesheet) (path : Option String) (t : FileTree)
    (loaders : Nat → Loader) : List Transform → Chain
  | [] => ⟨.ok s, [], loaders⟩
  | a :: transforms =>
      let first := a.apply s path t loaders
      match first.outcome with
      | .error _ => first
      | .ok s =>
          let rest := s.applyTransforms path t first.loaders transforms
          { rest with events := first.events ++ rest.events }

end CustomProperties
