import CustomProperties.Diagnostic.Sink
import CustomProperties.Proofs.Graph.Circular
import CustomProperties.Proofs.Resolver.Warning
import CustomProperties.Proofs.Run.Effect
import CustomProperties.Proofs.Source.Fixed
import CustomProperties.Proofs.Source.Precedence
import CustomProperties.Run.Transform

/-!
What a user is told of a run. First comes what is wrong with the options, then each source that does not
load, then each circular variable of the merged table, and then the circular variables that a fallback
could not be computed for, each of these once. Nothing else is told: not of a source that loads, of a
variable that is not there or of one that is not circular. The options are read twice, though, and a path
that is named by bytes is no path to the second reader, which tells of it before the sources are loaded.
-/

namespace CustomProperties

namespace Diagnostic

def ofComplaint (source : Option String) (c : Complaint) : Diagnostic :=
  { rule := "invalid-config"
    severity := .warning
    message := c.message
    source := source
    word := none
    line := none
    column := none }

def ofFailure (failed : String × LoadFailure) : Diagnostic :=
  { rule := "source-load"
    severity := .warning
    message := "Error processing fallback file " ++ failed.1 ++ ": " ++ failed.2.message
    source := some failed.1
    word := some failed.1
    line := failed.2.position.map fun p => (p.line : Int)
    column := failed.2.position.map fun p => (p.column : Int) }

def ofCircular (source : Option String) (name : Text) : Diagnostic :=
  { rule := "circular-reference"
    severity := .warning
    message := "Circular reference detected for variable " ++ String.ofList name
    source := source
    word := some (String.ofList name)
    line := none
    column := none }

def ofSkipped (source : Option String) (name : Text) : Diagnostic :=
  { ofCircular source name with
    message := "Cannot compute a fallback for circular variable " ++ String.ofList name }

end Diagnostic

namespace Sink

variable {listener : Type}

def tell (sink : Sink listener) (events : List Event) : Sink listener :=
  (events.filterMap Event.told?).foldl warn sink

theorem severity_of_told? {e : Event} {d : Diagnostic} (told : e.told? = some d) :
    d.severity = .warning := by
  cases e <;> simp only [Event.told?, Option.some.injEq, reduceCtorEq] at told <;> subst told <;> rfl

theorem diagnostics_tell (sink : Sink listener) (events : List Event) :
    (sink.tell events).diagnostics = sink.diagnostics ++ Event.diagnostics sink.source events := by
  induction events generalizing sink with
  | nil => exact (List.append_nil _).symm
  | cons e events ih =>
      rw [tell, Event.diagnostics, List.filterMap_cons, List.filterMap_cons, Event.diagnostic?]
      cases told : e.told? with
      | none => exact ih sink
      | some d =>
          have warned : sink.asWarning d = { d with source := d.source.or sink.source } := by
            rw [asWarning, ← severity_of_told? told]
          refine (ih (sink.warn d)).trans ?_
          show (sink.diagnostics ++ [sink.asWarning d]) ++ _ = _
          rw [warned, List.append_assoc]
          rfl

end Sink

variable {l : Loader} {t : FileTree} {css : Text} {options : Setting} {path : Option String}
  {sheet out : Stylesheet} {v : Variables}

/-- The names that a run meets while it supplies a stylesheet. -/
def Stylesheet.skipped (s : Stylesheet) (v : Variables) : List Text :=
  (s.supply (.ofCircular v v.circular) v.circular).resolver.findings.met

theorem Stylesheet.sparing_skipped (s : Stylesheet) (v : Variables) :
    (s.skipped v).Nodup ∧ ∀ n ∈ s.skipped v, n ∈ v.circular := by
  have sparing := Resolver.invariant_supply (P := Resolver.Sparing v.grounded_circular)
    (fun _ n h => h.resolve n) v.circular s (Resolver.sparing_ofCircular v.grounded_circular)
  exact ⟨sparing.findings.once, sparing.findings.circular⟩

theorem Event.diagnostics_map {α : Type} {source : Option String} {f : α → Event}
    {g : α → Diagnostic} (told : ∀ a, (f a).diagnostic? source = some (g a)) (as : List α) :
    Event.diagnostics source (as.map f) = as.map g := by
  rw [diagnostics, List.filterMap_map, ← List.filterMap_eq_map]
  exact List.filterMap_congr fun a _ => told a

theorem Stylesheet.diagnostics_applied (s : Stylesheet) (sources : Nat) (v : Variables)
    (source : Option String) :
    Event.diagnostics source (s.applied sources v).2 =
      v.circular.map (Diagnostic.ofCircular source) ++
        (if v.entries = [] then [] else s.skipped v).map (Diagnostic.ofSkipped source) := by
  rw [applied]
  split
  · rename_i empty
    have none_there : v.circular = [] := by
      refine List.sublist_nil.1 (v.circular_sublist.trans ?_)
      rw [Variables.names, empty, List.map_nil]
    rw [none_there]
    rfl
  · rw [applyVariables, Event.diagnostics_append, Event.diagnostics_append,
      Variables.diagnostics_ofCircular,
      Event.diagnostics_map (g := Diagnostic.ofSkipped source) fun _ => rfl]
    exact List.append_nil _

/-- What a new sink is told by the events of a run. -/
structure Loader.Tells (l : Loader) (t : FileTree) (path : Option String) (sheet : Stylesheet)
    (fallbacks : Setting) (v : Variables) (skipped : List Text) (events : List Event) : Prop where
  /-- All that is told, part by part. -/
  told : ∀ {listener : Type} (source : Option String),
    ((Sink.ofSource source : Sink listener).tell events).diagnostics =
      fallbacks.complaints.map (Diagnostic.ofComplaint source) ++
        fallbacks.lapses.map (Diagnostic.ofComplaint source) ++
        (l.failures t (baseOf path) fallbacks.paths).map Diagnostic.ofFailure ++
        v.circular.map (Diagnostic.ofCircular source) ++
        skipped.map (Diagnostic.ofSkipped source)
  /-- The second reader tells of nothing unless some path is named by bytes. -/
  lapses : fallbacks.lapses = [] ↔ ∀ b, .entry (.bytes b) ∉ fallbacks.items?.getD []
  /-- Every path of the list is attempted, also one that stands there again. -/
  attempted : (l.attempts t (baseOf path) fallbacks.paths).map Prod.fst = fallbacks.paths
  /-- A source that does not load fails in each of its places, whatever stands before it. -/
  failing : t.Rooted → l.failures t (baseOf path) fallbacks.paths =
    fallbacks.paths.filterMap fun source =>
      (l.attempt t source (baseOf path)).failure?.map fun failure => (source, failure)
  /-- The circular variables stand in the order of the table. -/
  circular : v.circular.Sublist v.names
  skipped_circular : ∀ n ∈ skipped, n ∈ v.circular
  skipped_once : skipped.Nodup
  /-- The second reader is the transform of the names that the first one has kept. -/
  again : events = fallbacks.complaints.map Event.complaint ++
    (sheet.applyTransforms path t (fun _ => l) [.ofNames fallbacks.kept 0]).events

/-- A run is a chain of one transform, behind the complaints about the options. -/
theorem Loader.process_eq_chain {fallbacks : Setting} (parsed : Stylesheet.parse css = .ok sheet)
    (given : options.fallbacks = .ok fallbacks) :
    let chain := sheet.applyTransforms path t (fun _ => l) [.ofNames fallbacks.kept 0]
    l.process t css options path =
      ⟨chain.outcome.mapError .badPath, fallbacks.complaints.map Event.complaint ++ chain.events,
        chain.loaders 0⟩ := by
  rw [process, parsed]
  simp only [given, Setting.sources_eq, Stylesheet.applyTransforms, Transform.apply, Transform.ofNames]
  cases (sheet.applySources path l t (fallbacks.kept.map SourceName.setting)).outcome with
  | error fault => rfl
  | ok out => simp

/-- What is told of a run that returns. -/
theorem Loader.tells_of_returned (l : Loader) (t : FileTree)
    (parsed : Stylesheet.parse css = .ok sheet)
    (returned : (l.process t css options path).outcome = .ok out) :
    ∃ fallbacks v skipped, options.fallbacks = .ok fallbacks ∧
      l.configured t options path = some v ∧
      l.Tells t path sheet fallbacks v skipped (l.process t css options path).events := by
  obtain ⟨v, merged, -⟩ := Loader.of_process parsed returned
  cases given : options.fallbacks with
  | error kind => simp [configured, given] at merged
  | ok fallbacks =>
      have outcome : (l.merge t fallbacks.paths (baseOf path)).outcome = .ok v := by
        simp only [configured, given] at merged
        exact ok_of_toOption merged
      have free := (merge_eq_ok_iff.1 outcome).1
      have events : (l.process t css options path).events =
          (fallbacks.complaints ++ fallbacks.lapses).map Event.complaint ++
            (l.merge t fallbacks.paths (baseOf path)).events ++
              (sheet.applied fallbacks.kept.length v).2 := by
        simp only [process_of_given l t path parsed given, outcome]
      obtain ⟨once, circular⟩ := sheet.sparing_skipped v
      refine ⟨fallbacks, v, if v.entries = [] then [] else sheet.skipped v, rfl, merged, ?_⟩
      constructor
      case told =>
        intro listener source
        rw [Sink.diagnostics_tell, events, Event.diagnostics_append, Event.diagnostics_append,
          Event.diagnostics_map (g := Diagnostic.ofComplaint source) fun _ => rfl,
          diagnostics_merge, Event.diagnostics_map (g := Diagnostic.ofFailure) fun _ => rfl,
          Stylesheet.diagnostics_applied]
        simp only [Sink.ofSource, List.nil_append, List.map_append, List.append_assoc]
      case lapses => exact Setting.lapses_eq_nil_iff
      case attempted => exact (attempts_of_fault?_eq_none free).1
      case failing =>
        intro rooted
        rw [failures, (Grown.refl t l).attempts_eq_map rooted.versioned free, List.filterMap_map]
        rfl
      case circular => exact v.circular_sublist
      case skipped_circular =>
        split
        · simp
        · exact circular
      case skipped_once =>
        split
        · exact List.nodup_nil
        · exact once
      case again => rw [process_eq_chain parsed given]

/-- Two variables that lead to each other, and one that refers to one of them. -/
def knot : FileTree :=
  ⟨[(["w"], .directory), (["w", "theme.css"],
    .file ":root\x7b--a:var(--b);--b:var(--a);--c:var(--a) var(--u);--k:1px\x7d".toUTF8 0)], ["w"]⟩

def knotOptions : Setting :=
  .table [("fallbacks", .list [.text "none.css", .integer, .entry (.text "./theme.css"),
    .entry (.bytes "./theme.css".toUTF8), .flag true, .text "none.css"])]

def knotted : Text := "a\x7bb:var(--c) var(--a) var(--k);c:var(--c) var(--z)\x7d".toList

theorem Loader.tells_of_returned_knot :
    knot.Rooted ∧ ∃ sheet out fallbacks v skipped, Stylesheet.parse knotted = .ok sheet ∧
      (Loader.empty.process knot knotted knotOptions none).outcome = .ok out ∧
      knotOptions.fallbacks = .ok fallbacks ∧
      Loader.empty.configured knot knotOptions none = some v ∧
      Loader.empty.Tells knot none sheet fallbacks v skipped
        (Loader.empty.process knot knotted knotOptions none).events ∧
      (Event.diagnostics none (Loader.empty.process knot knotted knotOptions none).events).map
          Diagnostic.message =
        ["Ignoring fallback entry 1: expected a file path, got int",
          "Ignoring fallback entry 4: expected a file path, got bool",
          "Ignoring fallback entry 2: expected a file path, got bytes",
          "Error processing fallback file none.css: cannot access /w/none.css: " ++
            "No such file or directory",
          "Error processing fallback file none.css: cannot access /w/none.css: " ++
            "No such file or directory",
          "Circular reference detected for variable --a",
          "Circular reference detected for variable --b",
          "Cannot compute a fallback for circular variable --a"] := by
  have rooted : knot.Rooted := by decide
  have parses : (Stylesheet.parse knotted).toOption.map Stylesheet.source = some knotted := by
    decide +kernel
  have returns : (Loader.empty.process knot knotted knotOptions none).outcome.toOption.map
      Stylesheet.toCss =
        some ("a\x7bb:var(--c, var(--a) var(--u)) var(--a) var(--k, 1px);" ++
          "c:var(--c, var(--a) var(--u)) var(--z)\x7d").toList := by
    decide +kernel
  obtain ⟨sheet, parsed, -⟩ := Option.map_eq_some_iff.1 parses
  obtain ⟨out, returned, -⟩ := Option.map_eq_some_iff.1 returns
  obtain ⟨fallbacks, v, skipped, given, merged, tells⟩ :=
    Loader.tells_of_returned .empty knot (ok_of_toOption parsed) (ok_of_toOption returned)
  exact ⟨rooted, sheet, out, fallbacks, v, skipped, ok_of_toOption parsed, ok_of_toOption returned,
    given, merged, tells, by decide +kernel⟩

/-- Only the first of two items is no path. Both are told of, each by a reader that calls it entry 0. -/
theorem Loader.tells_of_entry :
    let items : List Setting := [.integer, .entry (.bytes "./theme.css".toUTF8)]
    let run := Loader.empty.process shelf page (.table [("fallbacks", .list items)]) none
    items.map (fun item => item.name?.isSome) = [false, true] ∧
      run.outcome.toOption.map Stylesheet.toCss = some page ∧
      (Event.diagnostics none run.events).map Diagnostic.message =
        ["Ignoring fallback entry 0: expected a file path, got int",
          "Ignoring fallback entry 0: expected a file path, got bytes"] := by
  refine ⟨by decide, by decide +kernel, by decide +kernel⟩

end CustomProperties
