import CustomProperties.Proofs.Resolver.Firm
import CustomProperties.Proofs.Run.Effect
import CustomProperties.Proofs.Sheet.Renewal

/-!
Reading what a run has written. A stylesheet whose values are firm, as are the computed values that
they are supplied with, is read again as the tree that the run came to, and running again over it
changes nothing. Values that are not firm may be read in another way: the value of another file can
hold a parenthesis or a quote within a comment, or a parenthesis that a backslash stands before.
-/

namespace CustomProperties

namespace Stylesheet

/-- What lets a stylesheet bear the computed values that are put into it: nothing that is read in it
or put into it depends on what comes behind. -/
structure Bears (s : Stylesheet) (resolution : Text → Option Text) : Prop where
  heads : ∀ text ∈ Node.headsAll s.nodes, text.Steady
  at_signs : ∀ d ∈ s.declarations, d.name.head? ≠ some '@'
  quotes : ∀ d ∈ s.declarations, ∀ c ∈ d.name, isQuote c = false
  values : ∀ d ∈ s.declarations, d.value.Firm
  answers : ∀ d ∈ s.declarations, ∀ ref ∈ references d.value, ∀ answer,
    resolution ref.name = some answer → answer.Firm ∧ ';' ∉ ref.name

instance (s : Stylesheet) (resolution : Text → Option Text) : Decidable (s.Bears resolution) :=
  decidable_of_iff
    ((∀ text ∈ Node.headsAll s.nodes, text.Steady) ∧
      (∀ d ∈ s.declarations, d.name.head? ≠ some '@') ∧
      (∀ d ∈ s.declarations, d.name.all fun c => !isQuote c) ∧
      (∀ d ∈ s.declarations, d.value.Firm) ∧
      ∀ d ∈ s.declarations, ∀ ref ∈ references d.value, ∀ answer ∈ resolution ref.name,
        answer.Firm ∧ ';' ∉ ref.name)
    ⟨fun ⟨heads, at_signs, quotes, values, answers⟩ =>
      ⟨heads, at_signs, fun d hd => by simpa using quotes d hd, values, answers⟩,
      fun h => ⟨h.heads, h.at_signs, fun d hd => by simpa using h.quotes d hd, h.values, h.answers⟩⟩

variable {source : Text} {s : Stylesheet} {resolution : Text → Option Text}

theorem Bears.closed (bears : s.Bears resolution) {d : Declaration} (hd : d ∈ s.declarations) :
    ∀ ref ∈ references d.value, ∀ answer, resolution ref.name = some answer → answer.Closed :=
  fun ref hr answer h => (bears.answers d hd ref hr answer h).1.closed

/-- The values that a run supplies may take the places of the old ones. -/
theorem Bears.renewable (parsed : parse source = .ok s) (bears : s.Bears resolution) :
    ∀ d ∈ s.declarations, d.Renewable (suppliedValue resolution d.value) := by
  intro d hd
  have placed := (spans_of_parse parsed).1 d hd
  have head := head?_suppliedValue (bears.closed hd)
  have tail := suppliedValue_tail resolution d.value
  constructor
  case at_sign => exact bears.at_signs d hd
  case quotes => exact bears.quotes d hd
  case firm => exact firm_suppliedValue (bears.values d hd) (bears.answers d hd)
  case trimmed =>
    refine Text.trim_eq_self_iff.2 ⟨Text.trimLeft_eq_self_iff.2 fun c first => ?_,
      Text.trimRight_eq_self_iff.2 fun c last => ?_⟩
    · exact placed.first_shows c (head ▸ first)
    · refine placed.last_shows c ?_
      rcases tail with same | ⟨front, front', back, old, new⟩
      · rwa [same] at last
      · rw [new, List.getLast?_append_of_ne_nil _ (by simp)] at last
        rw [old, List.getLast?_append_of_ne_nil _ (by simp), last]
  case unmarked =>
    intro plain before mark marked new_mark
    have unmarked := placed.unmarked plain
    rcases tail with same | ⟨front, front', back, old, new⟩
    · exact unmarked before mark marked (same ▸ new_mark)
    -- The mark holds no parenthesis, so that it stands behind the last reference.
    · rw [new] at new_mark
      rcases List.append_eq_append_iff.1 new_mark with ⟨more, -, behind⟩ | ⟨more, -, within⟩
      · exact unmarked (front ++ more) mark marked (by rw [old, behind, List.append_assoc])
      · have plain_mark := plain_of_mark marked ')' (by simp [within])
        exact absurd plain_mark (by decide)

theorem outline_supply {v : Variables} {circular : List Text} {grounded : v.Grounded circular}
    {r : Resolver} (faithful : r.Faithful grounded) (s : Stylesheet) :
    (s.supply r circular).sheet.outline =
      Node.outlineAll (suppliedValue (v.resolution circular grounded)) s.nodes := by
  rw [supply_eq_mapValues faithful]
  exact Node.outlineAll_mapValuesAll ..

theorem supply_idle {v : Variables} {circular : List Text} {grounded : v.Grounded circular}
    {r : Resolver} (faithful : r.Faithful grounded)
    (supplied : ∀ d ∈ s.declarations,
      suppliedValue (v.resolution circular grounded) d.value = d.value) :
    (s.supply r circular).sheet.toCss = s.toCss ∧
      (s.supply r circular).sheet.modified = s.modified := by
  have idle : (s.supply r circular).sheet.declarations = s.declarations := by
    rw [supply_eq_mapValues faithful, declarations_mapValues]
    refine (List.map_congr_left fun d hd => ?_).trans (List.map_id _)
    rw [supplied d hd]
    rfl
  have source : (s.supply r circular).sheet.source = s.source := rfl
  constructor
  · rw [toCss, toCss, changed, changed, idle, source]
  · rw [modified, modified, idle]

end Stylesheet

section Runs

variable {l : Loader} {t : FileTree} {css : Text} {options : Setting} {path : Option String}
  {sheet out : Stylesheet} {v : Variables}

theorem Loader.outline_process (parsed : Stylesheet.parse css = .ok sheet)
    (returned : (l.process t css options path).outcome = .ok out)
    (merged : l.configured t options path = some v) :
    out.outline = Node.outlineAll (suppliedValue v.computed) sheet.nodes ∧
      out.toCss = Edit.apply css 0
        (sheet.declarations.map (Declaration.renewal (suppliedValue v.computed))) := by
  obtain ⟨v', merged', outcome⟩ := Loader.of_process parsed returned
  obtain rfl := Option.some.inj (merged.symm.trans merged')
  rcases outcome with ⟨empty, rfl⟩ | rfl
  · obtain ⟨same, -, fit⟩ := Stylesheet.of_parse parsed
    rw [Variables.computed_of_empty empty, suppliedValue_none]
    refine ⟨rfl, ?_⟩
    rw [← same] at fit ⊢
    exact Stylesheet.toCss_eq_apply fit
  · have faithful := Resolver.faithful_ofCircular v.grounded_circular
    exact ⟨Stylesheet.outline_supply faithful sheet,
      (Stylesheet.toCss_supply parsed faithful).trans (Stylesheet.fit_edits parsed).2⟩

theorem Loader.process_of_configured (parsed : Stylesheet.parse css = .ok sheet)
    (merged : l.configured t options path = some v) :
    (l.process t css options path).outcome = .ok (if v.entries = [] then sheet
      else (sheet.supply (.ofCircular v v.circular) v.circular).sheet) := by
  rw [configured] at merged
  cases given : options.fallbacks with
  | error kind => simp [given] at merged
  | ok fallbacks =>
      simp only [given] at merged
      simp only [process_of_given l t path parsed given, ok_of_toOption merged, Stylesheet.applied]
      split <;> rfl

def shelfOf (content : String) : FileTree :=
  ⟨[(["w"], .directory), (["w", "theme.css"], .file content.toUTF8 0)], ["w"]⟩

/-- Values with parentheses in a string, with a semicolon in parentheses and in a comment. -/
def gaps : FileTree := shelfOf ":root \x7b --gap: f(\"(\", (1; 2)) /* ; */; --k: var(--gap)/2 \x7d"

def card : Text :=
  ("@media (width > 1px) \x7b a:hover \x7b --k: 9; width: calc(VAR( --k ,2)) ! important \x7d \x7d " ++
    "@import \"x\";").toList

def cardSupplied : Text :=
  ("@media (width > 1px) \x7b a:hover \x7b --k: 9; " ++
    "width: calc(VAR(--k, f(\"(\", (1; 2)) /* ; *//2)) ! important \x7d \x7d @import \"x\";").toList

theorem run_card :
    ∃ sheet out v, Stylesheet.parse card = .ok sheet ∧
      (Loader.empty.process gaps card shelfOptions none).outcome = .ok out ∧
      Loader.empty.configured gaps shelfOptions none = some v ∧ sheet.Bears v.computed ∧
      out.toCss = cardSupplied := by
  have evaluates : ((Stylesheet.parse card).toOption.bind fun sheet =>
      (Loader.empty.process gaps card shelfOptions none).outcome.toOption.bind fun out =>
        (Loader.empty.configured gaps shelfOptions none).map fun v =>
          (decide (sheet.Bears ((Resolver.ofCircular v v.circular).answer v.circular)),
            out.toCss)) =
      some (true, cardSupplied) := by
    decide +kernel
  obtain ⟨sheet, parsed, evaluates⟩ := Option.bind_eq_some_iff.1 evaluates
  obtain ⟨out, returned, evaluates⟩ := Option.bind_eq_some_iff.1 evaluates
  obtain ⟨v, merged, evaluates⟩ := Option.map_eq_some_iff.1 evaluates
  obtain ⟨bears, css⟩ := Prod.mk.inj evaluates
  exact ⟨sheet, out, v, ok_of_toOption parsed, ok_of_toOption returned, merged,
    v.computed_eq ▸ of_decide_eq_true bears, css⟩

/-- What a run has written is read again as the tree that the run came to. -/
theorem Loader.parse_process (parsed : Stylesheet.parse css = .ok sheet)
    (returned : (l.process t css options path).outcome = .ok out)
    (merged : l.configured t options path = some v) (bears : sheet.Bears v.computed) :
    ∃ again, Stylesheet.parse out.toCss = .ok again ∧ again.outline = out.outline := by
  obtain ⟨outline, written⟩ := Loader.outline_process parsed returned merged
  obtain ⟨again, read, same⟩ :=
    Stylesheet.parse_renewal parsed bears.heads (bears.renewable parsed)
  exact ⟨again, written ▸ read, same.trans outline.symm⟩

theorem parse_process_card :
    ∃ sheet out v again, Stylesheet.parse card = .ok sheet ∧
      (Loader.empty.process gaps card shelfOptions none).outcome = .ok out ∧
      Loader.empty.configured gaps shelfOptions none = some v ∧ sheet.Bears v.computed ∧
      out.toCss = cardSupplied ∧ Stylesheet.parse cardSupplied = .ok again ∧
      again.outline = out.outline := by
  obtain ⟨sheet, out, v, parsed, returned, merged, bears, css⟩ := run_card
  obtain ⟨again, read, same⟩ := Loader.parse_process parsed returned merged bears
  exact ⟨sheet, out, v, again, parsed, returned, merged, bears, css, css ▸ read, same⟩

/-- The reader of values takes parentheses in a comment that stands in parentheses for ones that
count, so that the first of them may end the value of the call. What is behind it is then no
stylesheet. -/
theorem parse_process_comment :
    ∃ out e, (Loader.empty.process (shelfOf ":root\x7b--gap:8px/*1) dense; 2) wide*/\x7d")
        "a\x7bmargin:var(--gap)\x7d".toList shelfOptions none).outcome = .ok out ∧
      out.toCss = "a\x7bmargin:var(--gap, 8px/*1) dense; 2) wide*/)\x7d".toList ∧
      Stylesheet.parse out.toCss = .error e := by
  have evaluates : (Loader.empty.process (shelfOf ":root\x7b--gap:8px/*1) dense; 2) wide*/\x7d")
      "a\x7bmargin:var(--gap)\x7d".toList shelfOptions none).outcome.toOption.map
        Stylesheet.toCss =
      some "a\x7bmargin:var(--gap, 8px/*1) dense; 2) wide*/)\x7d".toList := by
    decide +kernel
  have rejected : (Stylesheet.parse
      "a\x7bmargin:var(--gap, 8px/*1) dense; 2) wide*/)\x7d".toList).toOption.isNone := by
    decide +kernel
  obtain ⟨out, returned, css⟩ := Option.map_eq_some_iff.1 evaluates
  rw [← css] at rejected
  cases parsed : Stylesheet.parse out.toCss with
  | error e => exact ⟨out, e, ok_of_toOption returned, css, parsed⟩
  | ok sheet => simp [parsed, Except.toOption] at rejected

/-- A run over what a run has written, with the same variables, changes nothing. -/
theorem Loader.process_again {l' : Loader} (parsed : Stylesheet.parse css = .ok sheet)
    (returned : (l.process t css options path).outcome = .ok out)
    (merged : l.configured t options path = some v)
    (merged' : l'.configured t options path = some v) (bears : sheet.Bears v.computed) :
    ∃ again, (l'.process t out.toCss options path).outcome = .ok again ∧
      again.toCss = out.toCss ∧ again.modified = false := by
  obtain ⟨-, written⟩ := Loader.outline_process parsed returned merged
  obtain ⟨sheet', read, outline⟩ :=
    Stylesheet.parse_renewal parsed bears.heads (bears.renewable parsed)
  rw [← written] at read
  -- Every value that was read again was supplied before.
  have supplied : ∀ d ∈ sheet'.declarations, suppliedValue v.computed d.value = d.value := by
    have values := congrArg Outline.valuesAll outline
    rw [Stylesheet.outline, Node.valuesAll_outlineAll, Node.valuesAll_outlineAll,
      ← Stylesheet.declarations_eq_flattenAll, ← Stylesheet.declarations_eq_flattenAll] at values
    intro d hd
    obtain ⟨origin, ho, same⟩ := List.mem_map.1 (values ▸ List.mem_map_of_mem hd)
    rw [show d.value = suppliedValue v.computed origin.value from same.symm]
    exact suppliedValue_of_unchanged (changesValue_suppliedValue (bears.closed ho))
  have unmodified : sheet'.toCss = out.toCss ∧ sheet'.modified = false := by
    obtain ⟨-, fresh, -⟩ := Stylesheet.of_parse read
    refine ⟨Stylesheet.toCss_of_parse read, List.any_eq_false.2 fun d hd => ?_⟩
    simp [Declaration.modified, fresh d hd]
  refine ⟨_, Loader.process_of_configured read merged', ?_⟩
  split
  · exact unmodified
  · obtain ⟨css_eq, modified_eq⟩ :=
      Stylesheet.supply_idle (Resolver.faithful_ofCircular v.grounded_circular) supplied
    rw [css_eq, modified_eq]
    exact unmodified

theorem process_again_card :
    ∃ sheet out v again, Stylesheet.parse card = .ok sheet ∧
      (Loader.empty.process gaps card shelfOptions none).outcome = .ok out ∧
      Loader.empty.configured gaps shelfOptions none = some v ∧ sheet.Bears v.computed ∧
      out.toCss = cardSupplied ∧
      (Loader.empty.process gaps cardSupplied shelfOptions none).outcome = .ok again ∧
      again.toCss = cardSupplied ∧ again.modified = false := by
  obtain ⟨sheet, out, v, parsed, returned, merged, bears, css⟩ := run_card
  obtain ⟨again, read, same, unmodified⟩ :=
    Loader.process_again parsed returned merged merged bears
  exact ⟨sheet, out, v, again, parsed, returned, merged, bears, css, css ▸ read, css ▸ same,
    unmodified⟩

/-- A parenthesis ends the call that its value is put into also when a backslash stands before it,
so that each further run puts the value before one parenthesis more. -/
theorem process_again_escaped :
    ∃ out again, (Loader.empty.process (shelfOf ":root\x7b--x:\\)\x7d")
        "a\x7bb:var(--x)\x7d".toList shelfOptions none).outcome = .ok out ∧
      out.toCss = "a\x7bb:var(--x, \\))\x7d".toList ∧
      (Loader.empty.process (shelfOf ":root\x7b--x:\\)\x7d") out.toCss shelfOptions none).outcome =
        .ok again ∧
      again.toCss = "a\x7bb:var(--x, \\)))\x7d".toList ∧ again.modified = true := by
  have first : (Loader.empty.process (shelfOf ":root\x7b--x:\\)\x7d")
      "a\x7bb:var(--x)\x7d".toList shelfOptions none).outcome.toOption.map Stylesheet.toCss =
      some "a\x7bb:var(--x, \\))\x7d".toList := by
    decide +kernel
  have second : (Loader.empty.process (shelfOf ":root\x7b--x:\\)\x7d")
      "a\x7bb:var(--x, \\))\x7d".toList shelfOptions none).outcome.toOption.map
        (fun again => (again.toCss, again.modified)) =
      some ("a\x7bb:var(--x, \\)))\x7d".toList, true) := by
    decide +kernel
  obtain ⟨out, returned, css⟩ := Option.map_eq_some_iff.1 first
  obtain ⟨again, returned', result⟩ := Option.map_eq_some_iff.1 second
  obtain ⟨css', modified⟩ := Prod.mk.inj result
  rw [← css] at returned'
  exact ⟨out, again, ok_of_toOption returned, css, ok_of_toOption returned', css', modified⟩

end Runs

end CustomProperties
