import CustomProperties.Diagnostic.Basic
import CustomProperties.Source.Loader
import CustomProperties.Source.Setting

/-!
The events of a run, in the order in which they happen. Some of them are told to the user as
warnings; some are only noted down for those who want to follow a run; a circular variable that is
skipped is both noted and told.
-/

namespace CustomProperties

inductive Event where
  | complaint (c : Complaint)
  | unusable (source : String) (failure : LoadFailure)
  | parsed (path : String)
  | reused (path : String)
  | extracted (count : Nat) (source : String)
  | foundCircular (count : Nat)
  | circular (name : Text)
  | skipped (name : Text)
  | supplied (count : Nat)
  | applied (sources names declarations : Nat)
deriving DecidableEq, Repr

structure Note where
  channel : String
  message : String
deriving DecidableEq, Repr

namespace Event

def variableWarning (message : String) (name : Text) : Diagnostic :=
  { rule := "circular-reference"
    severity := .warning
    message := message ++ String.ofList name
    source := none
    word := some (String.ofList name)
    line := none
    column := none }

/-- What the user is told, the source of the run aside. -/
def told? : Event → Option Diagnostic
  | complaint c =>
      some
        { rule := "invalid-config"
          severity := .warning
          message := c.message
          source := none
          word := none
          line := none
          column := none }
  | unusable source failure =>
      some
        { rule := "source-load"
          severity := .warning
          message := "Error processing fallback file " ++ source ++ ": " ++ failure.message
          source := some source
          word := some source
          line := failure.position.map fun p => (p.line : Int)
          column := failure.position.map fun p => (p.column : Int) }
  | circular name => some (variableWarning "Circular reference detected for variable " name)
  | skipped name =>
      some (variableWarning "Cannot compute a fallback for circular variable " name)
  | _ => none

def note? : Event → Option Note
  | parsed path => some ⟨"var_fallback.engine.loader", "Parsed " ++ path⟩
  | reused path => some ⟨"var_fallback.engine.loader", "Using cached parse of " ++ path⟩
  | extracted count source =>
      some ⟨"var_fallback.engine.merger",
        "Found " ++ toString count ++ " variable(s) in " ++ source⟩
  | foundCircular count =>
      some ⟨"var_fallback.engine.cycles",
        "Found " ++ toString count ++ " circular variable(s)"⟩
  | skipped name =>
      some ⟨"var_fallback.engine.resolver",
        "Skipping circular variable " ++ String.ofList name⟩
  | supplied count =>
      some ⟨"var_fallback.engine.rewriter", "Rewrote " ++ toString count ++ " declaration(s)"⟩
  | applied sources names declarations =>
      some ⟨"var_fallback.transforms.fallback",
        "Applied fallbacks from " ++ toString sources ++ " source(s): " ++ toString names ++
          " variable(s), " ++ toString declarations ++ " declaration(s) rewritten"⟩
  | _ => none

/-- The diagnostic of an event in a run on a stylesheet that is called `source`. -/
def diagnostic? (source : Option String) (e : Event) : Option Diagnostic :=
  e.told?.map fun d => { d with source := d.source.or source }

def diagnostics (source : Option String) (events : List Event) : List Diagnostic :=
  events.filterMap (diagnostic? source)

end Event

end CustomProperties
