import CustomProperties.Proofs.Variables.Merge
import CustomProperties.Source.Merge

/-!
Loading sources one behind the other. Each source of a list is one attempt: it comes to a stylesheet,
to a failure, or to a path that no system takes, which ends the attempts. What a merge does is told by
the attempts alone: it returns unless one of them meets such a path, its table is that of the
stylesheets in their order, and it tells of the failures and of nothing else.
-/

namespace CustomProperties

def FileTree.Holds (t : FileTree) (v : Version) (content : Option ByteArray) : Prop :=
  ∃ source base path entry, Loader.locate t source base = .ok path ∧ t.find path = .ok entry ∧
    v = ⟨path.toString, entry.modified, entry.size⟩ ∧ content = entry.content?

/-- What loading a source comes to, whether the stylesheet was kept or not. -/
abbrev Attempt := Except PathFault (Except LoadFailure (Version × Stylesheet))

namespace Attempt

def sheet? : Attempt → Option Stylesheet
  | .ok (.ok (_, sheet)) => some sheet
  | _ => none

def failure? : Attempt → Option LoadFailure
  | .ok (.error failure) => some failure
  | _ => none

def fault? : Attempt → Option PathFault
  | .error fault => some fault
  | _ => none

end Attempt

theorem Event.diagnostics_eq (source : Option String) (events : List Event) :
    Event.diagnostics source events =
      (events.filterMap Event.told?).map fun d => { d with source := d.source.or source } := by
  rw [List.map_filterMap]
  rfl

namespace Loader

def readContent (path : String) (content : Option ByteArray) : Except LoadFailure Stylesheet :=
  match content with
  | none => .error (.unreadable path (.system .isDirectory))
  | some bytes =>
      match Utf8.decode bytes with
      | .error fault => .error (.unreadable path (.encoding fault))
      | .ok text => (Stylesheet.parse (Text.unifyLineEnds text)).mapError (.malformed path)

def attempt (l : Loader) (t : FileTree) (source : String) (base : Option String) : Attempt :=
  (l.load t source base).1.map (Except.map fun loaded => (loaded.version, loaded.sheet))

/-- The attempts to load some sources, each by the loader that the attempts before it leave, up to
the first path that no system takes. -/
def attempts (l : Loader) (t : FileTree) (base : Option String) :
    List String → List (String × Attempt)
  | [] => []
  | source :: sources =>
      (source, l.attempt t source base) ::
        if (l.attempt t source base).fault?.isSome then []
        else (l.load t source base).2.attempts t base sources

def sheets (l : Loader) (t : FileTree) (base : Option String) (sources : List String) :
    List Stylesheet :=
  (l.attempts t base sources).filterMap fun attempt => attempt.2.sheet?

def failures (l : Loader) (t : FileTree) (base : Option String) (sources : List String) :
    List (String × LoadFailure) :=
  (l.attempts t base sources).filterMap fun attempt =>
    attempt.2.failure?.map fun failure => (attempt.1, failure)

/-- The path that no system takes, if there is one. -/
def fault? (l : Loader) (t : FileTree) (base : Option String) (sources : List String) :
    Option PathFault :=
  (l.attempts t base sources).findSome? fun attempt => attempt.2.fault?

variable {l : Loader} {t : FileTree} {base : Option String} {source : String}
  {sources : List String}

theorem readSheet_of_find {path : Path} {entry : Entry} (found : t.find path = .ok entry) :
    readSheet t path = readContent path.toString entry.content? := by
  rw [readSheet, FileTree.readText, FileTree.read, found]
  cases entry with
  | file content modified =>
      simp only [Entry.content?, readContent]
      cases Utf8.decode content <;> rfl
  | folder modified size => rfl
  | link target => rfl

/-- What loading a source comes to, with any loader: a path that no system takes, or that leads to
nothing, or one that leads to some content under a version. In the last case the content is read
unless the loader has kept a stylesheet for the version. -/
theorem load_cases (t : FileTree) (source : String) (base : Option String) :
    (∃ fault, ∀ l : Loader, l.load t source base = (.error fault, l)) ∨
    (∃ failure, ∀ l : Loader, l.load t source base = (.ok (.error failure), l)) ∨
    ∃ v content, t.Holds v content ∧ ∀ l : Loader, l.load t source base =
      match l.kept? v, readContent v.path content with
      | some sheet, _ => (.ok (.ok ⟨v, sheet, true⟩), l)
      | none, .error failure => (.ok (.error failure), l)
      | none, .ok sheet => (.ok (.ok ⟨v, sheet, false⟩), l.keep v sheet) := by
  cases located : locate t source base with
  | error fault => exact .inl ⟨fault, fun l => by rw [load, located]⟩
  | ok path =>
      by_cases nul : path.hasNul = true
      · exact .inl ⟨.zeroCharacter, fun l => by simp only [load, located, nul, if_true]⟩
      · cases found : t.find path with
        | error e =>
            refine .inr (.inl ⟨.inaccessible path.toString e, fun l => ?_⟩)
            simp only [load, located, nul, loadPath, found]
            rfl
        | ok entry =>
            refine .inr (.inr ⟨_, _, ⟨source, base, path, entry, located, found, rfl, rfl⟩,
              fun l => ?_⟩)
            rw [← readSheet_of_find found]
            simp only [load, located, nul, loadPath, found]
            cases l.kept? ⟨path.toString, entry.modified, entry.size⟩ with
            | some sheet => rfl
            | none => cases readSheet t path <;> rfl

theorem load_of_not_loaded (h : (l.attempt t source base).sheet? = none) :
    (l.load t source base).2 = l := by
  rw [attempt] at h
  rcases load_cases t source base with ⟨fault, loads⟩ | ⟨failure, loads⟩ | ⟨v, content, -, loads⟩
  · rw [loads]
  · rw [loads]
  · rw [loads] at h ⊢
    split
    · rfl
    · rfl
    · rename_i missed read
      simp [missed, read, Except.map, Attempt.sheet?] at h

section Merging

variable {merged : Variables}

/-- Merging returns unless a path is met that no system takes, and its table is that of the
stylesheets behind the one that was there. -/
theorem outcome_mergeInto (l : Loader) (t : FileTree) (base : Option String) (merged : Variables)
    (sources : List String) :
    (l.mergeInto t base merged sources).outcome =
      match l.fault? t base sources with
      | some fault => .error fault
      | none =>
          .ok (merged.merge (.mergeAll ((l.sheets t base sources).map Stylesheet.customProperties))) := by
  induction sources generalizing l merged with
  | nil => rfl
  | cons source sources ih =>
      rw [mergeInto, sheets, fault?, attempts, attempt, List.findSome?_cons, List.filterMap_cons]
      rcases l.load t source base with ⟨_ | _ | loaded, l'⟩
      · rfl
      · exact ih l' merged
      · refine (ih l' (merged.merge loaded.sheet.customProperties)).trans ?_
        rw [Variables.merge_assoc, ← Variables.mergeAll_cons]
        rfl

/-- Of the sources, a merge tells which ones do not load and why, and nothing else. -/
theorem told_mergeInto (l : Loader) (t : FileTree) (base : Option String) (merged : Variables)
    (sources : List String) :
    (l.mergeInto t base merged sources).events.filterMap Event.told? =
      (l.failures t base sources).filterMap fun failed =>
        (Event.unusable failed.1 failed.2).told? := by
  induction sources generalizing l merged with
  | nil => rfl
  | cons source sources ih =>
      rw [mergeInto, failures, attempts, attempt, List.filterMap_cons]
      rcases l.load t source base with ⟨_ | failure | ⟨v, sheet, _ | _⟩, l'⟩
      · rfl
      · have rest := ih l' merged
        simp only [Except.map, Attempt.failure?, Option.map_some, List.filterMap_cons, Event.told?,
          Attempt.fault?, Option.isSome_none, Bool.false_eq_true, if_false] at rest ⊢
        rw [rest]
        rfl
      · exact ih l' (merged.merge sheet.customProperties)
      · exact ih l' (merged.merge sheet.customProperties)

/-- What comes behind the sources that have returned is merged as by itself, with their table and
their loader to start from. -/
theorem mergeInto_append {v : Variables} (first : (l.mergeInto t base merged sources).outcome = .ok v)
    (more : List String) :
    l.mergeInto t base merged (sources ++ more) =
      let rest := (l.mergeInto t base merged sources).loader.mergeInto t base v more
      { rest with events := (l.mergeInto t base merged sources).events ++ rest.events } := by
  induction sources generalizing l merged with
  | nil =>
      obtain rfl := Except.ok.inj first
      rfl
  | cons source sources ih =>
      rw [List.cons_append, mergeInto, mergeInto]
      rw [mergeInto] at first
      rcases found : l.load t source base with ⟨_ | _ | loaded, l'⟩
      · simp [found] at first
      · simp only [found] at first ⊢
        rw [ih first]
        rfl
      · simp only [found] at first ⊢
        rw [ih first]
        rfl

theorem mergeInto_append_error {fault : PathFault}
    (first : (l.mergeInto t base merged sources).outcome = .error fault) (more : List String) :
    (l.mergeInto t base merged (sources ++ more)).outcome = .error fault := by
  induction sources generalizing l merged with
  | nil => simp [mergeInto] at first
  | cons source sources ih =>
      rw [List.cons_append, mergeInto]
      rw [mergeInto] at first
      rcases found : l.load t source base with ⟨_ | _ | loaded, l'⟩
      · simp only [found] at first ⊢
        exact first
      · simp only [found] at first ⊢
        exact ih first
      · simp only [found] at first ⊢
        exact ih first

end Merging

end Loader

end CustomProperties
