import CustomProperties.Proofs.Resolver.Sheet
import CustomProperties.Proofs.Run.Return

/-!
What a run does to a text. It edits the references within the values of declarations: one edit for
each reference whose name has a computed value that is not empty, and no other. What the computed
values are depends on the sources alone; the text that is processed has no say in them.
-/

namespace CustomProperties

/-- The edit that supplies a reference at the offset `start`, if `resolution` has a value for it
that is not empty. -/
def Reference.edit? (resolution : Text → Option Text) (start : Nat) (ref : Reference) :
    Option Edit :=
  match resolution ref.name with
  | some (c :: value) => some ⟨start, ref.text, ref.withFallback (c :: value)⟩
  | _ => none

def valueEdits (resolution : Text → Option Text) (start : Nat) (value : Text) : List Edit :=
  (locatedReferences value).filterMap fun (offset, ref) => ref.edit? resolution (start + offset)

def Stylesheet.edits (s : Stylesheet) (resolution : Text → Option Text) : List Edit :=
  s.declarations.flatMap fun d => valueEdits resolution d.start d.value

/-- The variables that a run merges from the sources of its options. -/
def Loader.configured (l : Loader) (t : FileTree) (options : Setting) (path : Option String) :
    Option Variables :=
  match options.fallbacks with
  | .error _ => none
  | .ok fallbacks => (l.merge t fallbacks.paths (baseOf path)).outcome.toOption

/-- The computed value of a name: its resolution when the circular variables count as such. -/
def Variables.computed (v : Variables) : Text → Option Text :=
  v.resolution v.circular v.grounded_circular

theorem Variables.computed_eq (v : Variables) :
    v.computed = (Resolver.ofCircular v v.circular).answer v.circular :=
  (Resolver.faithful_ofCircular v.grounded_circular).answer_eq.symm

theorem Variables.computed_of_empty {v : Variables} (empty : v.entries = []) :
    v.computed = fun _ => none :=
  funext fun n => resolution_of_unknown _ (by simp [names, empty])

variable {resolution : Text → Option Text}

theorem Reference.edit?_cases (resolution : Text → Option Text) (start : Nat) (ref : Reference) :
    (∃ c value, resolution ref.name = some (c :: value) ∧
      ref.edit? resolution start = some ⟨start, ref.text, ref.withFallback (c :: value)⟩) ∨
    (resolution ref.name).getD [] = [] ∧ ref.edit? resolution start = none ∧
      ref.supplied (resolution ref.name) = ref.text := by
  rw [edit?]
  generalize resolution ref.name = answer
  match answer with
  | some (c :: value) => exact .inl ⟨c, value, rfl, rfl⟩
  | some [] => exact .inr ⟨rfl, rfl, rfl⟩
  | none => exact .inr ⟨rfl, rfl, rfl⟩

/-- The edits of references that stand one after the other, the first of them at the offset `offset`
of a value. -/
theorem edits_locate (resolution : Text → Option Text) (start offset : Nat)
    (refs : List (Reference × Text)) :
    let edits := (locate offset refs).filterMap fun pair =>
      pair.2.edit? resolution (start + pair.1)
    Edit.Fit (refs.flatMap fun pair => pair.1.text ++ pair.2) (start + offset) edits ∧
      Edit.apply (refs.flatMap fun pair => pair.1.text ++ pair.2) (start + offset) edits =
        refs.flatMap fun pair => pair.1.supplied (resolution pair.1.name) ++ pair.2 := by
  induction refs generalizing offset with
  | nil => exact ⟨trivial, rfl⟩
  | cons pair refs ih =>
      obtain ⟨ref, behind⟩ := pair
      obtain ⟨fit, applied⟩ := ih (offset + ref.text.length + behind.length)
      simp only [locate, List.flatMap_cons, List.filterMap_cons]
      rcases ref.edit?_cases resolution (start + offset) with
        ⟨c, answer, hv, made⟩ | ⟨-, none_made, same⟩
      · have front : start + (offset + ref.text.length + behind.length) =
            (Edit.mk (start + offset) ref.text (ref.withFallback (c :: answer))).stop +
              behind.length := by
          simp only [Edit.stop]
          omega
        rw [front] at fit applied
        rw [made, hv, List.append_assoc, List.append_assoc]
        refine ⟨Edit.Fit.cons rfl fit.prepend, ?_⟩
        refine (Edit.apply_front rfl).trans (congrArg _ ?_)
        rw [Edit.apply_prepend fit, applied]
      · have front : start + (offset + ref.text.length + behind.length) =
            start + offset + (ref.text ++ behind).length := by
          rw [List.length_append]
          omega
        rw [front] at fit applied
        rw [none_made, same]
        exact ⟨fit.prepend, by rw [Edit.apply_prepend fit, applied]⟩

theorem fit_valueEdits (resolution : Text → Option Text) (start : Nat) (value : Text) :
    Edit.Fit value start (valueEdits resolution start value) ∧
      Edit.apply value start (valueEdits resolution start value) =
        suppliedValue resolution value := by
  obtain ⟨fit, applied⟩ :=
    edits_locate resolution start (dissect value).before.length (dissect value).references
  have whole : value = (dissect value).before ++
      (dissect value).references.flatMap fun pair => pair.1.text ++ pair.2 :=
    (render_dissect value).symm
  have fit' := fit.prepend
  have applied' := Edit.apply_prepend fit
  rw [← whole] at fit' applied'
  exact ⟨fit', by rw [valueEdits, locatedReferences, applied', applied]; rfl⟩

namespace Stylesheet

variable {s : Stylesheet} {source : Text}

/-- The edits of a stylesheet make of its text what it is once each value is supplied. -/
theorem fit_edits (parsed : parse source = .ok s) :
    Edit.Fit source 0 (s.edits resolution) ∧
      Edit.apply source 0 (s.edits resolution) =
        Edit.apply source 0 (s.declarations.map fun d =>
          (d.assign (suppliedValue resolution d.value)).edit) := by
  obtain ⟨-, fresh, fit⟩ := of_parse parsed
  let parts (e : Edit) : List Edit := valueEdits resolution e.start e.old
  have within : ∀ e ∈ s.declarations.map Declaration.edit, Edit.Fit e.old e.start (parts e) :=
    fun e _ => (fit_valueEdits resolution e.start e.old).1
  have refined : (s.declarations.map Declaration.edit).flatMap parts = s.edits resolution := by
    rw [List.flatMap_map, edits]
    refine List.flatMap_congr fun d hd => ?_
    rw [fresh d hd]
    rfl
  have refit := fit.refine within
  have applied := Edit.apply_refine fit within
  rw [refined] at refit applied
  refine ⟨refit, applied.trans ?_⟩
  rw [List.map_map]
  refine congrArg _ (List.map_congr_left fun d hd => ?_)
  have applied' := (fit_valueEdits resolution d.start d.authored).2
  show Edit.mk d.start d.authored
    (Edit.apply d.authored d.start (valueEdits resolution d.start d.authored)) = _
  rw [applied', Declaration.edit, Declaration.assign, fresh d hd]

theorem supply_eq_mapValues {v : Variables} {circular : List Text} {grounded : v.Grounded circular}
    {r : Resolver} (faithful : r.Faithful grounded) (s : Stylesheet) :
    (s.supply r circular).sheet =
      s.mapValues (suppliedValue (v.resolution circular grounded)) := by
  rw [(supply_eq_of_faithful faithful faithful circular s).1, faithful.answer_eq]

theorem toCss_mapValues_supplied (parsed : parse source = .ok s) :
    (s.mapValues (suppliedValue resolution)).toCss = Edit.apply source 0 (s.edits resolution) := by
  rw [toCss_mapValues _ parsed, (fit_edits parsed).2]

theorem toCss_supply (parsed : parse source = .ok s) {v : Variables} {circular : List Text}
    {grounded : v.Grounded circular} {r : Resolver} (faithful : r.Faithful grounded) :
    (s.supply r circular).sheet.toCss =
      Edit.apply source 0 (s.edits (v.resolution circular grounded)) := by
  rw [supply_eq_mapValues faithful, toCss_mapValues_supplied parsed]

theorem edits_eq_nil (none_there : ∀ d ∈ s.declarations, ∀ ref ∈ references d.value,
    (resolution ref.name).getD [] = []) : s.edits resolution = [] := by
  refine List.flatMap_eq_nil_iff.2 fun d hd => List.filterMap_eq_nil_iff.2 fun pair hp => ?_
  have empty := none_there d hd pair.2 (mem_of_mem_locate hp)
  rcases pair.2.edit?_cases resolution (d.start + pair.1) with ⟨c, value, hv, -⟩ | ⟨-, none_made, -⟩
  · simp [hv] at empty
  · exact none_made

end Stylesheet

theorem Loader.of_process {l : Loader} {t : FileTree} {css : Text} {options : Setting}
    {path : Option String} {sheet out : Stylesheet} (parsed : Stylesheet.parse css = .ok sheet)
    (returned : (l.process t css options path).outcome = .ok out) :
    ∃ v, l.configured t options path = some v ∧
      (v.entries = [] ∧ out = sheet ∨
        out = (sheet.supply (.ofCircular v v.circular) v.circular).sheet) := by
  rw [configured]
  cases given : options.fallbacks with
  | error kind => simp [process, parsed, given] at returned
  | ok fallbacks =>
      simp only [process_of_given l t path parsed given] at returned
      cases merged : (l.merge t fallbacks.paths (baseOf path)).outcome with
      | error fault => simp [merged] at returned
      | ok v =>
          refine ⟨v, by simp [merged, Except.toOption], ?_⟩
          simp only [merged, Stylesheet.applied] at returned
          split at returned
          · rename_i empty
            exact .inl ⟨empty, (Except.ok.inj returned).symm⟩
          · exact .inr (Except.ok.inj returned).symm

/-- What a run makes of a text: the text with each reference supplied whose name has a computed
value that is not empty, and all other text in its order. The variables are those of the configured
sources, whatever the text declares itself. -/
theorem Loader.toCss_process (l : Loader) (t : FileTree) {css : Text} {options : Setting}
    {path : Option String} {sheet out : Stylesheet} (parsed : Stylesheet.parse css = .ok sheet)
    (returned : (l.process t css options path).outcome = .ok out) :
    ∃ v, l.configured t options path = some v ∧
      Edit.Fit css 0 (sheet.edits v.computed) ∧
      out.toCss = Edit.apply css 0 (sheet.edits v.computed) ∧
      ((∀ d ∈ sheet.declarations, ∀ ref ∈ references d.value,
        (v.computed ref.name).getD [] = []) → out.toCss = css) := by
  obtain ⟨v, merged, outcome⟩ := Loader.of_process parsed returned
  have applied : out.toCss = Edit.apply css 0 (sheet.edits v.computed) := by
    rcases outcome with ⟨empty, rfl⟩ | rfl
    -- Without variables no name has a value, so that there are no edits either.
    · have unknown : ∀ n, v.computed n = none := fun n =>
        Variables.resolution_of_unknown _ (by simp [Variables.names, empty])
      rw [Stylesheet.edits_eq_nil fun d _ ref _ => by rw [unknown]; rfl]
      exact Stylesheet.toCss_of_parse parsed
    · exact Stylesheet.toCss_supply parsed (Resolver.faithful_ofCircular v.grounded_circular)
  refine ⟨v, merged, (Stylesheet.fit_edits parsed).1, applied, fun none_there => ?_⟩
  rw [applied, Stylesheet.edits_eq_nil none_there]
  rfl

def shelf : FileTree :=
  ⟨[(["w"], .directory), (["w", "theme.css"], .file ":root \x7b --k: 1px; --e:; \x7d".toUTF8 0)],
    ["w"]⟩

def shelfOptions : Setting := .table [("fallbacks", .list [.text "theme.css"])]

/-- A text that declares one of the variables of the sources itself. -/
def page : Text := "a \x7b --k: 9; width: calc(VAR( --k ,2) + var(--e, 3)) \x7d".toList

theorem toCss_process_page :
    ∃ sheet out v, Stylesheet.parse page = .ok sheet ∧
      (Loader.empty.process shelf page shelfOptions none).outcome = .ok out ∧
      Loader.empty.configured shelf shelfOptions none = some v ∧
      out.toCss = Edit.apply page 0 (sheet.edits v.computed) ∧
      out.toCss = "a \x7b --k: 9; width: calc(VAR(--k, 1px) + var(--e, 3)) \x7d".toList := by
  have parses : (Stylesheet.parse page).toOption.map Stylesheet.source = some page := by
    decide +kernel
  have returns : (Loader.empty.process shelf page shelfOptions none).outcome.toOption.map
      Stylesheet.toCss =
        some "a \x7b --k: 9; width: calc(VAR(--k, 1px) + var(--e, 3)) \x7d".toList := by
    decide +kernel
  obtain ⟨sheet, parsed, -⟩ := Option.map_eq_some_iff.1 parses
  obtain ⟨out, returned, css⟩ := Option.map_eq_some_iff.1 returns
  obtain ⟨v, merged, -, applied, -⟩ :=
    Loader.toCss_process .empty shelf (ok_of_toOption parsed) (ok_of_toOption returned)
  exact ⟨sheet, out, v, ok_of_toOption parsed, ok_of_toOption returned, merged, applied, css⟩

end CustomProperties
