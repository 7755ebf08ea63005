import CustomProperties.Proofs.Sheet.Span
import CustomProperties.Proofs.Source.Fault
import CustomProperties.Proofs.Source.Setting
import CustomProperties.Run.Process

/-!
When a run returns. The text has to be a stylesheet and the options a table or not given; beyond that
only a source without a path lets nothing of the run through. Whatever else may be wrong with a source,
the run tells of it and goes on with the others.
-/

namespace CustomProperties

/-- What some variables make of a stylesheet, and the events of that. -/
def Stylesheet.applied (s : Stylesheet) (sources : Nat) (v : Variables) : Stylesheet × List Event :=
  if v.entries = [] then (s, []) else s.applyVariables sources v

def Loader.loadable (l : Loader) (t : FileTree) (base : Option String) (sources : List String) :
    Variables :=
  .mergeAll ((l.sheets t base sources).map Stylesheet.customProperties)

/-- A run on a stylesheet that lets no source come in its way. -/
structure Loader.Returns (l : Loader) (t : FileTree) (sheet : Stylesheet) (fallbacks : Setting)
    (path : Option String) (run : Run) : Prop where
  /-- Each source is attempted, and comes to a stylesheet or to a failure. -/
  attempted : (l.attempts t (baseOf path) fallbacks.paths).map Prod.fst = fallbacks.paths ∧
    ∀ attempt ∈ l.attempts t (baseOf path) fallbacks.paths,
      (∃ s, attempt.2.sheet? = some s) ∨ ∃ failure, attempt.2.failure? = some failure
  /-- The stylesheets are what the variables are taken from. -/
  outcome : run.outcome =
    .ok (sheet.applied fallbacks.kept.length (l.loadable t (baseOf path) fallbacks.paths)).1
  /-- What is wrong with the options is told first, then each failure, in the order of the sources. -/
  diagnostics : Event.diagnostics path run.events =
    Event.diagnostics path ((fallbacks.complaints ++ fallbacks.lapses).map Event.complaint ++
      (l.failures t (baseOf path) fallbacks.paths).map
          (fun failed => Event.unusable failed.1 failed.2) ++
        (sheet.applied fallbacks.kept.length (l.loadable t (baseOf path) fallbacks.paths)).2)

section Runs

variable {l : Loader} {t : FileTree} {css : Text} {options fallbacks : Setting}
  {path : Option String} {sheet : Stylesheet}

theorem Event.diagnostics_append (source : Option String) (front back : List Event) :
    Event.diagnostics source (front ++ back) =
      Event.diagnostics source front ++ Event.diagnostics source back :=
  List.filterMap_append

theorem Loader.diagnostics_merge (l : Loader) (t : FileTree) (sources : List String)
    (base source : Option String) :
    Event.diagnostics source (l.merge t sources base).events =
      Event.diagnostics source
        ((l.failures t base sources).map fun failed => Event.unusable failed.1 failed.2) := by
  rw [Event.diagnostics_eq, Event.diagnostics_eq, merge, told_mergeInto, List.filterMap_map]
  rfl

/-- Names that were read from a setting are merged as far as they are texts, and the others are
complained about in front of that. -/
theorem Stylesheet.applySources_names (s : Stylesheet) (path : Option String) (l : Loader)
    (t : FileTree) (names : List SourceName) :
    s.applySources path l t (names.map SourceName.setting) =
      let merged := l.merge t (names.filterMap SourceName.text?) (baseOf path)
      let told := (SourceName.lapses names).map Event.complaint ++ merged.events
      match merged.outcome with
      | .error fault => ⟨.error fault, told, merged.loader⟩
      | .ok v =>
          ⟨.ok (s.applied names.length v).1, told ++ (s.applied names.length v).2, merged.loader⟩ := by
  cases names with
  | nil => rfl
  | cons name names =>
      rw [applySources, Loader.mergeSetting_again, List.length_map]
      simp only [List.map_cons, List.isEmpty_cons, Bool.false_eq_true, if_false]
      cases (l.merge t ((name :: names).filterMap SourceName.text?) (baseOf path)).outcome with
      | error fault => rfl
      | ok v =>
          dsimp only
          rw [applied]
          split
          · rw [List.append_nil]
          · rfl

theorem Loader.process_of_given (l : Loader) (t : FileTree) (path : Option String)
    (parsed : Stylesheet.parse css = .ok sheet) (given : options.fallbacks = .ok fallbacks) :
    l.process t css options path =
      let merged := l.merge t fallbacks.paths (baseOf path)
      let told := (fallbacks.complaints ++ fallbacks.lapses).map Event.complaint ++ merged.events
      match merged.outcome with
      | .error fault => ⟨.error (.badPath fault), told, merged.loader⟩
      | .ok v =>
          let applied := sheet.applied fallbacks.kept.length v
          ⟨.ok applied.1, told ++ applied.2, merged.loader⟩ := by
  rw [process, parsed]
  simp only [given, Setting.sources_eq, Stylesheet.applySources_names, Setting.paths, Setting.lapses,
    List.map_append, List.append_assoc]
  cases (l.merge t (fallbacks.kept.filterMap SourceName.text?) (baseOf path)).outcome with
  | error fault => rfl
  | ok v => rfl

theorem Loader.outcome_merge_of_free {base : Option String} {sources : List String}
    (free : l.fault? t base sources = none) :
    (l.merge t sources base).outcome = .ok (l.loadable t base sources) := by
  rw [merge, outcome_mergeInto, free, Variables.empty_merge]
  rfl

theorem Loader.process_of_fault {fault : PathFault} (parsed : Stylesheet.parse css = .ok sheet)
    (given : options.fallbacks = .ok fallbacks)
    (stopped : l.fault? t (baseOf path) fallbacks.paths = some fault) :
    (l.process t css options path).outcome = .error (.badPath fault) := by
  have outcome : (l.merge t fallbacks.paths (baseOf path)).outcome = .error fault := by
    rw [merge, outcome_mergeInto, stopped]
  simp only [process_of_given l t path parsed given, outcome]

/-- A run returns unless one of its sources has no path, whatever the options say and whatever stands
in the files: a source that does not load is told of, and the others count. A source that has no path
lets the run fail, though. -/
theorem Loader.process_of_clean (l : Loader) (parsed : Stylesheet.parse css = .ok sheet)
    (given : options.fallbacks = .ok fallbacks) (clean : t.Clean) :
    ((∀ source ∈ fallbacks.paths, t.Takes (baseOf path) source) →
      l.Returns t sheet fallbacks path (l.process t css options path)) ∧
    ((∃ source ∈ fallbacks.paths, ¬t.Takes (baseOf path) source) →
      ∃ fault, (l.process t css options path).outcome = .error (.badPath fault)) := by
  have free : l.fault? t (baseOf path) fallbacks.paths = none ↔ _ := fault?_eq_none_iff clean
  constructor
  · intro takes
    have free := free.2 takes
    simp only [process_of_given l t path parsed given, outcome_merge_of_free free]
    constructor
    case attempted => exact attempts_of_fault?_eq_none free
    case outcome => rfl
    case diagnostics =>
      simp only [Event.diagnostics_append, diagnostics_merge, List.append_assoc]
  · rintro ⟨source, among, refused⟩
    cases stopped : l.fault? t (baseOf path) fallbacks.paths with
    | none => exact absurd (free.1 stopped source among) refused
    | some fault => exact ⟨fault, process_of_fault parsed given stopped⟩

def rubble : FileTree :=
  ⟨[(["w"], .directory), (["w", "ok.css"], .file ":root\x7b--k:1px\x7d".toUTF8 0),
    (["w", "bad.css"], .file "k\x7d".toUTF8 0), (["w", "raw.css"], .file ⟨#[255]⟩ 0),
    (["w", "kept"], .directory), (["w", "link.css"], .link "ok.css"), (["w", "lost.css"], .link "no")],
    ["w"]⟩

def rubbleOptions : Setting :=
  .table [("fallbacks", .list [.text "none.css", .text "kept", .text "raw.css", .integer,
    .text "bad.css", .text "ok.css/x", .text "lost.css", .text "link.css"])]

def use : Text := "a\x7bb:var(--k)\x7d".toList

theorem Loader.process_of_clean_rubble :
    ∃ sheet fallbacks, Stylesheet.parse use = .ok sheet ∧
      rubbleOptions.fallbacks = .ok fallbacks ∧ rubble.Clean ∧
      Loader.empty.Returns rubble sheet fallbacks none
        (Loader.empty.process rubble use rubbleOptions none) ∧
      (Loader.empty.process rubble use rubbleOptions none).outcome.toOption.map Stylesheet.toCss =
        some "a\x7bb:var(--k, 1px)\x7d".toList := by
  have parses : (Stylesheet.parse use).toOption.map Stylesheet.source = some use := by decide +kernel
  obtain ⟨sheet, parsed, -⟩ := Option.map_eq_some_iff.1 parses
  have parsed := ok_of_toOption parsed
  have clean : rubble.Clean := by
    constructor
    case current => decide
    case targets =>
      intro target link
      have named : target = "ok.css" ∨ target = "no" := by
        simpa [FileTree.inhabitants, rubble, Entry.directory] using link
      rcases named with rfl | rfl <;> decide
  have takes : ∀ source ∈ (Setting.list [.text "none.css", .text "kept", .text "raw.css", .integer,
      .text "bad.css", .text "ok.css/x", .text "lost.css", .text "link.css"]).paths,
      rubble.Takes (baseOf none) source :=
    (fault?_eq_none_iff clean (l := .empty)).1 (by decide +kernel)
  exact ⟨sheet, _, parsed, rfl, clean, (process_of_clean .empty parsed rfl clean).1 takes,
    by decide +kernel⟩

def ring : FileTree := ⟨[(["w"], .directory), (["w", "a"], .link "b"), (["w", "b"], .link "a")], ["w"]⟩

/-- A source with a zero character lets the run fail, and so does a link that leads back to itself. -/
theorem process_without_path :
    (Loader.empty.process rubble use
        (.table [("fallbacks", .list [.text "a\x00b.css", .text "ok.css"])]) none).outcome =
      .error (.badPath .zeroCharacter) ∧
    (Loader.empty.process ring use (.table [("fallbacks", .list [.text "a"])]) none).outcome =
      .error (.badPath (.linkLoop "/w/a")) := by
  have parses : (Stylesheet.parse use).toOption.map Stylesheet.source = some use := by decide +kernel
  obtain ⟨sheet, parsed, -⟩ := Option.map_eq_some_iff.1 parses
  have parsed := ok_of_toOption parsed
  exact ⟨Loader.process_of_fault parsed rfl (by decide +kernel),
    Loader.process_of_fault parsed rfl (by decide +kernel)⟩

end Runs

end CustomProperties
