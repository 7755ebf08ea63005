import CustomProperties.Diagnostic.Basic

/-!
A sink collects diagnostics and hands each one to the listeners that have subscribed by then. A
warning that names no source gets that of the sink.
-/

namespace CustomProperties

/-- A sink with listeners of a kind, and what each of them has heard, in order. -/
structure Sink (listener : Type) where
  source : Option String
  diagnostics : List Diagnostic
  listeners : List listener
  heard : List (listener × Diagnostic)

namespace Sink

variable {listener : Type}

def ofSource (source : Option String) : Sink listener := ⟨source, [], [], []⟩

def subscribe (s : Sink listener) (l : listener) : Sink listener :=
  { s with listeners := s.listeners ++ [l] }

def report (s : Sink listener) (d : Diagnostic) : Sink listener :=
  { s with
    diagnostics := s.diagnostics ++ [d]
    heard := s.heard ++ s.listeners.map (·, d) }

def asWarning (s : Sink listener) (d : Diagnostic) : Diagnostic :=
  { d with severity := .warning, source := d.source.or s.source }

def warn (s : Sink listener) (d : Diagnostic) : Sink listener := s.report (s.asWarning d)

def warnings (s : Sink listener) : List Diagnostic := s.diagnostics.filter Diagnostic.isWarning

def byRule (s : Sink listener) (rule : String) : List Diagnostic :=
  s.diagnostics.filter (·.rule == rule)

end Sink

end CustomProperties
