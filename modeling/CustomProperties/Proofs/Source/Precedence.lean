import CustomProperties.Proofs.Source.Attempt
import CustomProperties.Proofs.Sheet.Span

/-!
Which declaration of a variable counts when several sources declare it. The sources are merged as if
their declarations stood one behind the other: a name stands where it is declared first, and its value
is the one that is declared last. A source that does not load makes no difference to that, and neither
does it in which parts the sources are merged.
-/

namespace CustomProperties

namespace Stylesheet

variable {s : Stylesheet} {name : Text}

def declaredNames (s : Stylesheet) : List Text :=
  (s.declarations.filter Declaration.isVariable).map Declaration.name

/-- The value of the last declaration of a variable in document order. -/
def lastValue? (s : Stylesheet) (name : Text) : Option Text :=
  (s.declarations.reverse.find? fun d => d.isVariable && d.name == name).map Declaration.value

theorem names_customProperties (s : Stylesheet) :
    s.customProperties.names = s.declaredNames.eraseDups := by
  rw [customProperties, Variables.ofList, Variables.names_insertAll, List.map_map]
  rfl

theorem lookup_declared (ds : List Declaration) (name : Text) :
    (ds.map fun d => (d.name, d.value)).lookup name =
      (ds.find? fun d => d.name == name).map Declaration.value := by
  induction ds with
  | nil => rfl
  | cons d ds ih =>
      rw [List.map_cons, lookup_cons_eq, List.find?_cons, ih]
      by_cases same : d.name = name
      · simp [same]
      · rw [if_neg (Ne.symm same), beq_false_of_ne same]

theorem get?_customProperties (s : Stylesheet) (name : Text) :
    s.customProperties.get? name = s.lastValue? name := by
  rw [customProperties, Variables.ofList, Variables.get?_insertAll, ← List.map_reverse,
    ← List.filter_reverse, lookup_declared, List.find?_filter, lastValue?]
  simp only [Bool.decide_and, Bool.decide_eq_true]
  exact Option.or_none

theorem mem_declaredNames : name ∈ s.declaredNames ↔
    ∃ d ∈ s.declarations, d.isVariable ∧ d.name = name := by
  simp [declaredNames, and_assoc]

end Stylesheet

/-- How the variables of some sources come together. -/
structure Loader.Merges (l : Loader) (t : FileTree) (base : Option String) (sources : List String)
    (v : Variables) : Prop where
  /-- The table is that of the stylesheets of the sources that load, merged in their order. -/
  merged : v = .mergeAll ((l.sheets t base sources).map Stylesheet.customProperties)
  /-- Its names are those that one of these stylesheets declares at any depth. -/
  declared : ∀ name, name ∈ v.names ↔
    ∃ s ∈ l.sheets t base sources, ∃ d ∈ s.declarations, d.isVariable ∧ d.name = name
  /-- The value of a name is that of the last declaration in the last stylesheet that declares it. -/
  last : ∀ name, v.get? name =
    (l.sheets t base sources).reverse.findSome? fun s => s.lastValue? name
  /-- The names stand in the order in which they first come in these stylesheets. -/
  order : v.names = ((l.sheets t base sources).flatMap Stylesheet.declaredNames).eraseDups
  /-- Without a source that does not load the table is the same, and of the events only that one is
  missing that tells of the source. -/
  without : ∀ front source back failure, sources = front ++ source :: back →
    ((l.merge t front base).loader.load t source base).1 = .ok (.error failure) →
    (l.merge t (front ++ back) base).outcome = .ok v ∧
      ∃ before behind, (l.merge t sources base).events = before ++ .unusable source failure :: behind ∧
        (l.merge t (front ++ back) base).events = before ++ behind
  /-- The sources may be merged in two parts, and the tables of the parts after that. -/
  parts : ∀ front back, sources = front ++ back →
    ∃ v₁ v₂, (l.merge t front base).outcome = .ok v₁ ∧
      ((l.merge t front base).loader.merge t back base).outcome = .ok v₂ ∧ v = v₁.merge v₂

namespace Loader

variable {l : Loader} {t : FileTree} {base : Option String} {sources front back : List String}
  {source : String} {failure : LoadFailure} {v : Variables}

theorem mergeInto_eq_ok_iff {merged : Variables} :
    (l.mergeInto t base merged sources).outcome = .ok v ↔
      l.fault? t base sources = none ∧
        v = merged.merge (.mergeAll ((l.sheets t base sources).map Stylesheet.customProperties)) := by
  rw [outcome_mergeInto]
  cases l.fault? t base sources with
  | none => simp [eq_comm]
  | some fault => simp

theorem merge_eq_ok_iff : (l.merge t sources base).outcome = .ok v ↔
    l.fault? t base sources = none ∧
      v = .mergeAll ((l.sheets t base sources).map Stylesheet.customProperties) := by
  rw [merge, mergeInto_eq_ok_iff, Variables.empty_merge]

theorem merge_front (returned : (l.merge t (front ++ back) base).outcome = .ok v) :
    ∃ v₁, (l.merge t front base).outcome = .ok v₁ := by
  cases first : (l.merge t front base).outcome with
  | ok v₁ => exact ⟨v₁, rfl⟩
  | error fault =>
      have stopped := mergeInto_append_error first back
      rw [← merge, returned] at stopped
      simp at stopped

theorem merge_append {v₁ : Variables} (first : (l.merge t front base).outcome = .ok v₁)
    (back : List String) :
    l.merge t (front ++ back) base =
      let rest := (l.merge t front base).loader.mergeInto t base v₁ back
      { rest with events := (l.merge t front base).events ++ rest.events } :=
  mergeInto_append first back

theorem mergeInto_cons_of_failure {merged : Variables}
    (failed : (l.load t source base).1 = .ok (.error failure)) :
    l.mergeInto t base merged (source :: sources) =
      { l.mergeInto t base merged sources with
        events := .unusable source failure :: (l.mergeInto t base merged sources).events } := by
  have kept : (l.load t source base).2 = l :=
    load_of_not_loaded (by rw [attempt, failed]; rfl)
  rw [mergeInto]
  rcases found : l.load t source base with ⟨outcome, l'⟩
  rw [found] at failed kept
  obtain rfl : outcome = .ok (.error failure) := failed
  obtain rfl : l' = l := kept
  rfl

/-- What sources come to when they are merged: names in the order of their first declarations, with
the values of their last ones, whatever does not load and in whatever parts. -/
theorem merges_of_returned (returned : (l.merge t sources base).outcome = .ok v) :
    l.Merges t base sources v := by
  have merged := (merge_eq_ok_iff.1 returned).2
  have order : v.names = ((l.sheets t base sources).flatMap Stylesheet.declaredNames).eraseDups := by
    rw [merged, Variables.names_mergeAll, List.flatMap_map]
    simp only [Stylesheet.names_customProperties]
    exact eraseDups_flatMap ..
  constructor
  case merged => exact merged
  case last =>
    intro name
    rw [merged, Variables.get?_mergeAll, ← List.map_reverse, List.findSome?_map]
    simp only [Function.comp_def, Stylesheet.get?_customProperties]
  case order => exact order
  case declared =>
    intro name
    rw [order, List.mem_eraseDups, List.mem_flatMap]
    simp only [Stylesheet.mem_declaredNames]
  case without =>
    rintro front source back failure rfl failed
    obtain ⟨v₁, first⟩ := merge_front returned
    have whole := merge_append first (source :: back)
    have fewer := merge_append first back
    rw [mergeInto_cons_of_failure failed] at whole
    rw [whole] at returned ⊢
    rw [fewer]
    exact ⟨returned, _, _, rfl, rfl⟩
  case parts =>
    rintro front back rfl
    obtain ⟨v₁, first⟩ := merge_front returned
    rw [merge_append first, mergeInto_eq_ok_iff] at returned
    obtain ⟨clean, rfl⟩ := returned
    exact ⟨v₁, _, first, merge_eq_ok_iff.2 ⟨clean, rfl⟩, rfl⟩

/-- Two stylesheets that declare variables at several depths, and some of them twice. -/
def layers : FileTree :=
  ⟨[(["w"], .directory), (["w", "base.css"], .file ":root\x7b--a:1;--b:2\x7d".toUTF8 0),
    (["w", "theme.css"], .file "@media x\x7bp\x7b--c:4;--b:3\x7d--b:5;--a:\x7d".toUTF8 0)], ["w"]⟩

theorem merges_of_returned_layers :
    ∃ v, (Loader.empty.merge layers ["base.css", "none.css", "theme.css"] none).outcome = .ok v ∧
      v.entries = [("--a".toList, []), ("--b".toList, "5".toList), ("--c".toList, "4".toList)] ∧
      Loader.empty.Merges layers none ["base.css", "none.css", "theme.css"] v := by
  have merges : (Loader.empty.merge layers ["base.css", "none.css", "theme.css"]
      none).outcome.toOption.map Variables.entries =
        some [("--a".toList, []), ("--b".toList, "5".toList), ("--c".toList, "4".toList)] := by
    decide +kernel
  obtain ⟨v, returned, entries⟩ := Option.map_eq_some_iff.1 merges
  exact ⟨v, ok_of_toOption returned, entries, merges_of_returned (ok_of_toOption returned)⟩

end Loader

end CustomProperties
