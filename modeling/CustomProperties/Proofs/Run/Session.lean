import CustomProperties.Proofs.Sheet.Span
import CustomProperties.Proofs.Source.Cache
import CustomProperties.Proofs.Run.Return

/-!
One loader over a time in which files come and go. Whatever is loaded and run, and in whatever order,
is seen to be the same as with a new loader each time, as long as no two contents ever stand under one
version. What a run notes down for those who follow it is another matter: it says which sources were
read again.
-/

namespace CustomProperties

inductive Action where
  /-- Files are written, removed or changed in another way. -/
  | change (f : FileTree → FileTree)
  | clear
  | load (source : String) (base : Option String)
  | process (css : Text) (options : Setting) (path : Option String)
  | processFile (path : String) (options : Setting)

/-- What is seen of an action. -/
inductive Answer where
  | nothing
  | loaded (attempt : Attempt)
  | ran (outcome : Except RunError Stylesheet) (diagnostics : List Diagnostic)

def Answer.css? : Answer → Option Text
  | ran (.ok s) _ => some s.toCss
  | _ => none

namespace Action

def files (t : FileTree) : Action → FileTree
  | change f => f t
  | _ => t

/-- What is seen of an action that a loader takes part in, and the loader behind it. -/
def perform (t : FileTree) (l : Loader) : Action → Answer × Loader
  | change _ => (.nothing, l)
  | clear => (.nothing, .empty)
  | load source base => (.loaded (l.attempt t source base), (l.load t source base).2)
  | process css options path =>
      let run := l.process t css options path
      (.ran run.outcome (Event.diagnostics path run.events), run.loader)
  | processFile path options =>
      let run := l.processFile t path options
      (.ran run.outcome (Event.diagnostics (some path) run.events), run.loader)

def answers (t : FileTree) (l : Loader) : List Action → List Answer
  | [] => []
  | a :: actions => (a.perform t l).1 :: answers (a.files t) (a.perform t l).2 actions

def plainAnswers (t : FileTree) : List Action → List Answer
  | [] => []
  | a :: actions => (a.perform t .empty).1 :: plainAnswers (a.files t) actions

def trees (t : FileTree) : List Action → List FileTree
  | [] => [t]
  | a :: actions => t :: trees (a.files t) actions

end Action

section Runs

variable {l : Loader} {trees : List FileTree} {t : FileTree}

/-- What two loaders come to is the same but for what is noted down, and the first stays sound. -/
structure Loader.Sound.Keeps (trees : List FileTree) {α : Type} (a b : Step α) : Prop where
  outcome : a.outcome = b.outcome
  told : a.events.filterMap Event.told? = b.events.filterMap Event.told?
  sound : a.loader.Sound trees

theorem Loader.Sound.merge (sound : l.Sound trees) (versioned : FileTree.Versioned trees)
    (ht : t ∈ trees) (sources : List String) (base : Option String) :
    Keeps trees (l.merge t sources base) (Loader.empty.merge t sources base) := by
  have same := sound.attempts_eq sound_empty versioned ht base sources
  constructor
  case outcome =>
    rw [Loader.merge, Loader.merge, outcome_mergeInto, outcome_mergeInto, fault?, fault?, sheets,
      sheets, same]
  case told =>
    rw [Loader.merge, Loader.merge, told_mergeInto, told_mergeInto, failures, failures, same]
  case sound => exact sound.mergeInto ht base _ sources

theorem Loader.Sound.process (sound : l.Sound trees) (versioned : FileTree.Versioned trees)
    (ht : t ∈ trees) (css : Text) (options : Setting) (path : Option String) :
    (l.process t css options path).outcome = (Loader.empty.process t css options path).outcome ∧
      Event.diagnostics path (l.process t css options path).events =
        Event.diagnostics path (Loader.empty.process t css options path).events ∧
      (l.process t css options path).loader.Sound trees := by
  cases parsed : Stylesheet.parse css with
  | error e =>
      rw [Loader.process, Loader.process, parsed]
      exact ⟨rfl, rfl, sound⟩
  | ok sheet =>
      cases given : options.fallbacks with
      | error kind =>
          simp only [Loader.process, parsed, given, true_and]
          exact sound
      | ok fallbacks =>
          obtain ⟨outcome, told, after⟩ := sound.merge versioned ht fallbacks.paths (baseOf path)
          simp only [process_of_given l t path parsed given, process_of_given .empty t path parsed given,
            ← outcome, Event.diagnostics_eq]
          cases (l.merge t fallbacks.paths (baseOf path)).outcome with
          | error fault => exact ⟨rfl, by simp only [List.filterMap_append, told], after⟩
          | ok v => exact ⟨rfl, by simp only [List.filterMap_append, told], after⟩

theorem Loader.Sound.processFile (sound : l.Sound trees) (versioned : FileTree.Versioned trees)
    (ht : t ∈ trees) (path : String) (options : Setting) :
    (l.processFile t path options).outcome = (Loader.empty.processFile t path options).outcome ∧
      Event.diagnostics (some path) (l.processFile t path options).events =
        Event.diagnostics (some path) (Loader.empty.processFile t path options).events ∧
      (l.processFile t path options).loader.Sound trees := by
  rw [Loader.processFile, Loader.processFile]
  split
  · exact ⟨rfl, rfl, sound⟩
  · split
    · exact ⟨rfl, rfl, sound⟩
    · exact sound.process versioned ht ..

theorem Loader.Sound.perform (sound : l.Sound trees) (versioned : FileTree.Versioned trees)
    (ht : t ∈ trees) (a : Action) :
    (a.perform t l).1 = (a.perform t .empty).1 ∧ (a.perform t l).2.Sound trees := by
  cases a with
  | change f => exact ⟨rfl, sound⟩
  | clear => exact ⟨rfl, sound_empty⟩
  | load source base =>
      exact ⟨congrArg Answer.loaded (sound.attempt_eq versioned ht source base),
        sound.load ht source base⟩
  | process css options path =>
      obtain ⟨outcome, diagnostics, after⟩ := sound.process versioned ht css options path
      exact ⟨congrArg₂ Answer.ran outcome diagnostics, after⟩
  | processFile path options =>
      obtain ⟨outcome, diagnostics, after⟩ := sound.processFile versioned ht path options
      exact ⟨congrArg₂ Answer.ran outcome diagnostics, after⟩

end Runs

namespace Action

theorem mem_trees (t : FileTree) (actions : List Action) : t ∈ trees t actions := by
  cases actions <;> exact List.mem_cons_self ..

theorem answers_of_sound {all : List FileTree} (versioned : FileTree.Versioned all)
    {t : FileTree} {l : Loader} {actions : List Action} (within : trees t actions ⊆ all)
    (sound : l.Sound all) : answers t l actions = plainAnswers t actions := by
  induction actions generalizing t l with
  | nil => rfl
  | cons a actions ih =>
      obtain ⟨same, after⟩ := sound.perform versioned (within (mem_trees t _)) a
      rw [answers, plainAnswers, same,
        ih (fun _ later => within (List.mem_cons_of_mem _ later)) after]

/-- The loader that actions share is not seen. What is loaded and what is run is the same as with a new
loader each time, and what does not load leaves the loader as it was. -/
theorem answers_eq_plainAnswers (t : FileTree) (actions : List Action)
    (versioned : FileTree.Versioned (trees t actions)) :
    answers t .empty actions = plainAnswers t actions ∧
      ∀ (l : Loader) (t : FileTree) source base, (l.attempt t source base).sheet? = none →
        (l.load t source base).2 = l :=
  ⟨answers_of_sound versioned (List.Subset.refl _) Loader.sound_empty,
    fun _ _ _ _ => Loader.load_of_not_loaded⟩

def write (name content : String) (modified : Int) : Action :=
  .change fun t => (t.write (.ofString name) content.toUTF8 modified).toOption.getD t

def remove (name : String) : Action := .change fun t => t.erase (t.canonical (.ofString name)).parts

/-- A stylesheet is edited, broken, brought back as it was, and removed. -/
def repairs : List Action :=
  let run := process "a\x7bb:var(--k)\x7d".toList (.table [("fallbacks", .list [.text "a.css"])]) none
  [write "a.css" ":root\x7b--k:1\x7d" 1, load "a.css" none, run,
    write "a.css" ":root\x7b--k:2\x7d" 2, run, write "a.css" "k\x7d" 3, load "a.css" none, run,
    write "a.css" ":root\x7b--k:1\x7d" 1, load "../w/./a.css" (some "/w"), run, remove "a.css", run,
    clear, run]

def bench : FileTree := ⟨[(["w"], .directory)], ["w"]⟩

def seen : List String :=
  ["a\x7bb:var(--k, 1)\x7d", "a\x7bb:var(--k, 2)\x7d", "a\x7bb:var(--k)\x7d",
    "a\x7bb:var(--k, 1)\x7d", "a\x7bb:var(--k)\x7d", "a\x7bb:var(--k)\x7d"]

theorem answers_eq_plainAnswers_repairs :
    FileTree.Versioned (trees bench repairs) ∧
      answers bench .empty repairs = plainAnswers bench repairs ∧
      (answers bench .empty repairs).filterMap Answer.css? = seen.map String.toList := by
  have stamps : ∀ t ∈ trees bench repairs, ∀ t' ∈ trees bench repairs, ∀ e ∈ t.inhabitants,
      ∀ e' ∈ t'.inhabitants, e.modified = e'.modified → e.size = e'.size →
        e.content? = e'.content? := by
    decide +kernel
  have versioned := FileTree.versioned_of_stamps stamps
  have written : (answers bench .empty repairs).filterMap Answer.css? = seen.map String.toList := by
    decide +kernel
  exact ⟨versioned, (answers_eq_plainAnswers bench repairs versioned).1, written⟩

end Action

end CustomProperties
