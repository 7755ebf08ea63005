import CustomProperties.Cli.Run
import CustomProperties.Proofs.Resolver.Call
import CustomProperties.Proofs.Run.Again
import CustomProperties.Proofs.Run.Compose
import CustomProperties.Proofs.Text.Control

/-!
The lines in which a command tells of the variables, against what a run makes of calls for them. Both merge
the same table when their base directories are the same path, and both go by the computed values of that
table. They differ on empty values alone: a line points to a computed value that is empty, and a run leaves
the call as it is.
-/

namespace CustomProperties

section Base

variable {l : Loader} {t : FileTree} {base other : Option String}

theorem Loader.locate_base (same : Path.ofString (base.getD "") = Path.ofString (other.getD ""))
    (source : String) : locate t source base = locate t source other := by
  rw [locate, locate, same]

theorem Loader.mergeInto_base (same : Path.ofString (base.getD "") = Path.ofString (other.getD ""))
    (merged : Variables) (sources : List String) :
    l.mergeInto t base merged sources = l.mergeInto t other merged sources := by
  induction sources generalizing l merged with
  | nil => rfl
  | cons source sources ih =>
      rw [mergeInto, mergeInto, load, load, locate_base same]
      simp only [ih]

theorem Loader.merge_base (same : Path.ofString (base.getD "") = Path.ofString (other.getD ""))
    (sources : List String) : l.merge t sources base = l.merge t sources other :=
  mergeInto_base same .empty sources

end Base

theorem Loader.declarations_process {l : Loader} {t : FileTree} {css : Text} {options : Setting}
    {path : Option String} {sheet : Stylesheet} {v : Variables}
    (parsed : Stylesheet.parse css = .ok sheet) (merged : l.configured t options path = some v) :
    ∃ out, (l.process t css options path).outcome = .ok out ∧
      out.declarations = sheet.declarations.map fun d => d.assign (suppliedValue v.computed d.value) := by
  refine ⟨_, process_of_configured parsed merged, ?_⟩
  rw [← Stylesheet.declarations_mapValues]
  split
  · rename_i empty
    rw [sheet.mapValues_of_empty empty]
  · rw [Stylesheet.supply_eq_mapValues (Resolver.faithful_ofCircular v.grounded_circular)]
    rfl

theorem Variables.full_of_circular {v : Variables} {name raw : Text} (circular : name ∈ v.circular)
    (there : v.get? name = some raw) : raw ≠ [] := by
  rintro rfl
  obtain ⟨-, cycle⟩ := mem_circular_iff.1 circular
  obtain ⟨b, ⟨value, found, refers, -⟩, -⟩ := Relation.TransGen.head'_iff.1 cycle
  obtain rfl := Option.some.inj (there.symm.trans found)
  simp [referencedNames, references, dissect, dissectFrom] at refers

namespace Cli

def lineFront (name raw : Text) : Text := ' ' :: ' ' :: name ++ ':' :: ' ' :: raw

/-- The line that tells of a variable of a table. -/
def lineOf (v : Variables) (name raw : Text) : Text :=
  variableLine v.circular name raw (v.computed name)

theorem lines_of_faithful {v : Variables} {circular : List Text} {grounded : v.Grounded circular}
    {r : Resolver} (faithful : r.Faithful grounded) (entries : List (Text × Text)) :
    variableLines r entries = entries.flatMap fun (name, raw) =>
      variableLine circular name raw (v.resolution circular grounded name) ++ ['\n'] := by
  induction entries generalizing r with
  | nil => rfl
  | cons entry entries ih =>
      obtain ⟨name, raw⟩ := entry
      rw [variableLines, List.flatMap_cons]
      have given : ∃ after, (if r.isCircular name then (none, r) else r.resolve name) =
          (v.resolution circular grounded name, after) ∧ after.Faithful grounded := by
        split
        · rename_i marked
          have among : name ∈ circular := faithful.same_circular ▸ of_decide_eq_true marked
          exact ⟨r, by rw [Variables.resolution_of_circular grounded among], faithful⟩
        · exact ⟨_, Prod.ext (faithful.resolve name).1 rfl, (faithful.resolve name).2⟩
      obtain ⟨after, given, later⟩ := given
      rw [given]
      dsimp only
      rw [ih later, faithful.same_circular, List.append_assoc]
      rfl

/-- What the line of a variable says of `written`, which a run makes of the call for its name. This is
the line before it is printed, which takes control sequences out of it. -/
structure Foretells (v : Variables) (name raw line written : Text) : Prop where
  circular : line = lineFront name raw ++ "  (circular)".toList ↔
    name ∈ v.circular ∧ written = callOf name
  computed : ∀ value ≠ [], line = lineFront name raw ++ "  -> ".toList ++ value ↔
    written = callWith name value ∧ value ≠ raw
  /-- The arrow points to nothing where a variable comes to nothing and is not empty itself. -/
  hollow : line = lineFront name raw ++ "  -> ".toList ↔
    name ∉ v.circular ∧ raw ≠ [] ∧ written = callOf name
  bare : line = lineFront name raw ↔
    written = callWith name raw ∨ raw = [] ∧ written = callOf name

theorem foretells_lineOf {v : Variables} {name raw : Text} (there : v.get? name = some raw)
    (reads : referencedNames (callOf name) = [name]) :
    Foretells v name raw (lineOf v name raw) (suppliedValue v.computed (callOf name)) := by
  rw [suppliedValue_callOf reads]
  by_cases circular : name ∈ v.circular
  · have line : lineOf v name raw = lineFront name raw ++ "  (circular)".toList := if_pos circular
    have unknown : v.computed name = none :=
      Variables.resolution_of_circular v.grounded_circular circular
    have full : raw ≠ [] := Variables.full_of_circular circular there
    rw [line, unknown]
    constructor
    case circular => simp [circular]
    case computed => simp [callWith_ne_callOf, Ne.symm]
    case hollow => simp [circular]
    case bare => simp [full, callWith_ne_callOf, Ne.symm]
  · obtain ⟨value, known⟩ : ∃ value, v.computed name = some value := by
      rw [Variables.computed, Variables.resolution_eq, if_neg circular, there]
      exact ⟨_, rfl⟩
    have line : lineOf v name raw =
        if value = raw then lineFront name raw else lineFront name raw ++ "  -> ".toList ++ value := by
      rw [lineOf, known]
      exact if_neg circular
    rw [line, known, Option.getD_some]
    by_cases same : value = raw
    · subst same
      rw [if_pos rfl]
      by_cases empty : value = []
      · rw [if_pos empty]
        constructor
        case circular => simp [circular]
        case computed => simp [callWith_ne_callOf, Ne.symm]
        case hollow => simp [empty]
        case bare => simp [empty]
      · rw [if_neg empty]
        constructor
        case circular => simp [circular]
        case computed =>
          intro other _
          simpa [callWith_inj] using Eq.symm
        case hollow => simp [callWith_ne_callOf]
        case bare => simp
    · rw [if_neg same]
      by_cases empty : value = []
      · have full : raw ≠ [] := empty ▸ Ne.symm same
        rw [if_pos empty]
        constructor
        case circular => simp [circular]
        case computed => simp [empty, callWith_ne_callOf, Ne.symm]
        case hollow => simp [circular, empty, full]
        case bare => simp [callWith_ne_callOf, Ne.symm, full]
      · rw [if_neg empty]
        constructor
        case circular => simp [circular]
        case computed =>
          intro other _
          simpa [callWith_inj] using fun here : value = other => here ▸ same
        case hollow => simp [empty, callWith_ne_callOf]
        case bare => simp [callWith_inj, callWith_ne_callOf, same]

theorem out_inspect {t : FileTree} {call : InspectCall} {v : Variables}
    (merged : (Loader.empty.merge t call.fallbacks call.base).outcome = .ok v) :
    ∃ head tail, (inspect t call).out =
      String.ofList (head ++ '\n' :: (v.entries.flatMap fun entry =>
        (lineOf v entry.1 entry.2).withoutControls ++ ['\n']) ++ tail) := by
  have faithful := Resolver.faithful_ofCircular v.grounded_circular
  have lines : variableLines (.ofCircular v v.circular) v.entries =
      (v.entries.map fun entry => lineOf v entry.1 entry.2).flatMap (· ++ ['\n']) := by
    rw [lines_of_faithful faithful, List.flatMap_map]
    rfl
  -- The lines stand behind an empty one.
  have page (front behind : Text) :
      Text.withoutControls (front ++ "\n\n".toList ++
          variableLines (.ofCircular v v.circular) v.entries ++ behind) =
        Text.withoutControls (front ++ ['\n']) ++ '\n' :: (v.entries.flatMap fun entry =>
          (lineOf v entry.1 entry.2).withoutControls ++ ['\n']) ++ behind.withoutControls := by
    have apart : front ++ "\n\n".toList ++ variableLines (.ofCircular v v.circular) v.entries ++
        behind = (front ++ ['\n']) ++ '\n' :: ((v.entries.map fun entry =>
          lineOf v entry.1 entry.2).flatMap (· ++ ['\n']) ++ behind) := by
      rw [lines]
      simp
    rw [apart, Text.withoutControls_newline, Text.withoutControls_lines, List.flatMap_map]
    simp
  rw [inspect, merged]
  simp only [printed, String.ofList_inj, String.toList_append, String.toList_ofList]
  exact ⟨_, _, page _ _⟩

/-- What is shown of some sources, and what a run makes of calls for their variables. When the variables
are shown, the run returns if its text is a stylesheet, and each line tells what comes of a call for its
name alone: it marks the circular variables, whose calls are left as they are, it points to the value that
is written into the call, and it shows the raw value where that is what is written. Beyond that it points
to nothing where a variable that is not empty comes to nothing. Lines are printed without their control
sequences, so that a line that holds one is not printed as it is told of here. -/
theorem inspect_agrees {t : FileTree} {sources : List String} {base path : Option String}
    {css : Text} {sheet : Stylesheet} (ran : (inspect t ⟨sources, base⟩).crash = none)
    (based : Path.ofString ((baseOf path).getD "") = Path.ofString (base.getD ""))
    (parsed : Stylesheet.parse css = .ok sheet) :
    ∃ v out, (Loader.empty.merge t sources base).outcome = .ok v ∧
      (Loader.empty.process t css (.table [("fallbacks", .list (sources.map .text))]) path).outcome =
        .ok out ∧
      (∃ head tail, (inspect t ⟨sources, base⟩).out =
        String.ofList (head ++ '\n' :: (v.entries.flatMap fun entry =>
          (lineOf v entry.1 entry.2).withoutControls ++ ['\n']) ++ tail)) ∧
      ∀ entry ∈ v.entries, referencedNames (callOf entry.1) = [entry.1] →
        ∀ (i : Nat) (d : Declaration), sheet.declarations[i]? = some d →
          d.value = callOf entry.1 → ∃ d' : Declaration, out.declarations[i]? = some d' ∧
            Foretells v entry.1 entry.2 (lineOf v entry.1 entry.2) d'.value := by
  obtain ⟨v, merged⟩ : ∃ v, (Loader.empty.merge t sources base).outcome = .ok v := by
    rw [inspect] at ran
    split at ran
    · simp [Outcome.crashed] at ran
    · rename_i v merged
      exact ⟨v, merged⟩
  have configured : Loader.empty.configured t
      (.table [("fallbacks", .list (sources.map .text))]) path = some v := by
    show (Loader.empty.merge t (Setting.list (sources.map .text)).paths
      (baseOf path)).outcome.toOption = some v
    rw [Setting.paths_texts, Loader.merge_base based, merged]
    rfl
  obtain ⟨out, returned, declarations⟩ := Loader.declarations_process parsed configured
  refine ⟨v, out, merged, returned, out_inspect merged, ?_⟩
  rintro ⟨name, raw⟩ there reads i d stands value
  refine ⟨d.assign (suppliedValue v.computed d.value), ?_, ?_⟩
  · rw [declarations, List.getElem?_map, stands]
    rfl
  · show Foretells v name raw _ (suppliedValue v.computed d.value)
    rw [value]
    exact foretells_lineOf (Variables.get?_eq_some_iff.2 there) reads

/-- A directory with a stylesheet whose variables come to values of all kinds. -/
def drawer : FileTree :=
  shelfOf ":root\x7b--a:1 var(--b);--b:2;--c:var(--c);--n:\x7d"

def drawerUses : Text := "p\x7ba:var(--a);b:var(--b);c:var(--c);n:var(--n)\x7d".toList

theorem inspect_agrees_drawer :
    (inspect drawer ⟨["theme.css"], some "/w"⟩).out =
      "Sources:   1\nVariables: 4\nCircular:  1\n\n" ++
        "  --a: 1 var(--b)  -> 1 2\n  --b: 2\n  --c: var(--c)  (circular)\n  --n: \n\n" ∧
    ∃ v out, (Loader.empty.process drawer drawerUses shelfOptions (some "/w/in.css")).outcome =
        .ok out ∧
      out.toCss = "p\x7ba:var(--a, 1 2);b:var(--b, 2);c:var(--c);n:var(--n)\x7d".toList ∧
      ∃ d ∈ out.declarations, Foretells v "--a".toList "1 var(--b)".toList
        "  --a: 1 var(--b)  -> 1 2".toList d.value := by
  have ran : (inspect drawer ⟨["theme.css"], some "/w"⟩).crash = none := by decide +kernel
  have based : Path.ofString ((baseOf (some "/w/in.css")).getD "") =
      Path.ofString ((some "/w").getD "") := by
    decide +kernel
  have parses : (Stylesheet.parse drawerUses).toOption.map
      (fun sheet => sheet.declarations[0]?.map Declaration.value) =
        some (some (callOf "--a".toList)) := by
    decide +kernel
  obtain ⟨sheet, parsed, first⟩ := Option.map_eq_some_iff.1 parses
  obtain ⟨d, stands, value⟩ := Option.map_eq_some_iff.1 first
  obtain ⟨v, out, merged, returned, -, foretold⟩ :=
    inspect_agrees ran based (ok_of_toOption parsed)
  have shown : (Loader.empty.merge drawer ["theme.css"] (some "/w")).outcome.toOption.map
      (fun v => (decide (("--a".toList, "1 var(--b)".toList) ∈ v.entries),
        variableLine v.circular "--a".toList "1 var(--b)".toList
          ((Resolver.ofCircular v v.circular).answer v.circular "--a".toList))) =
      some (true, "  --a: 1 var(--b)  -> 1 2".toList) := by
    decide +kernel
  rw [merged] at shown
  obtain ⟨there, line⟩ := Prod.mk.inj (Option.some.inj shown)
  rw [← Variables.computed_eq] at line
  have returns : (Loader.empty.process drawer drawerUses shelfOptions (some "/w/in.css")).outcome =
      .ok out := returned
  have css : (Loader.empty.process drawer drawerUses shelfOptions
      (some "/w/in.css")).outcome.toOption.map Stylesheet.toCss =
        some "p\x7ba:var(--a, 1 2);b:var(--b, 2);c:var(--c);n:var(--n)\x7d".toList := by
    decide +kernel
  rw [returns] at css
  obtain ⟨d', stands', foretells⟩ :=
    foretold _ (of_decide_eq_true there) (by decide +kernel) 0 d stands value
  refine ⟨by decide +kernel, v, out, returns, Option.some.inj css, d',
    List.mem_of_getElem? stands', ?_⟩
  rw [← line]
  exact foretells

/-- A line points to nothing, and the call is left as it is: the value of the variable is empty when its
reference is replaced. -/
theorem inspect_hollow :
    (run (shelfOf ":root\x7b--e:;--x:var(--e)\x7d") ["inspect", "-f", "theme.css"]).out =
      "Sources:   1\nVariables: 2\nCircular:  0\n\n  --e: \n  --x: var(--e)  -> \n" ∧
    (Loader.empty.process (shelfOf ":root\x7b--e:;--x:var(--e)\x7d") "a\x7bb:var(--x)\x7d".toList
        shelfOptions none).outcome.toOption.map Stylesheet.toCss =
      some "a\x7bb:var(--x)\x7d".toList ∧
    "var(--x)".toList ≠ callWith "--x".toList [] :=
  ⟨by decide +kernel, by decide +kernel, by decide⟩

end Cli

end CustomProperties
