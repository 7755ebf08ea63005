/-!
Diagnostics: what a user is told about a run. A diagnostic that names its source is shown with it,
and with the line and column where they are known.
-/

namespace CustomProperties

inductive Severity where
  | error
  | warning
  | info
deriving DecidableEq, Repr

namespace Severity

def label : Severity → String
  | error => "ERROR"
  | warning => "WARNING"
  | info => "INFO"

def ofLabel? (s : String) : Option Severity :=
  [error, warning, info].find? fun severity => severity.label == s

end Severity

structure Diagnostic where
  rule : String
  severity : Severity
  message : String
  source : Option String
  word : Option String
  line : Option Int
  column : Option Int
deriving DecidableEq, Repr

namespace Diagnostic

def isWarning (d : Diagnostic) : Bool := d.severity == .warning

/-- Where the trouble is: nowhere for an unknown source and for one without a name, and without
the column when the line is not known. -/
def location (d : Diagnostic) : String :=
  match d.source with
  | none => ""
  | some source =>
      if source.isEmpty then ""
      else
        let place :=
          match d.line, d.column with
          | none, _ => ""
          | some line, none => ":" ++ toString line
          | some line, some column => ":" ++ toString line ++ ":" ++ toString column
        " [" ++ source ++ place ++ "]"

def render (d : Diagnostic) : String :=
  d.severity.label ++ d.location ++ ": " ++ d.message

end Diagnostic

end CustomProperties
