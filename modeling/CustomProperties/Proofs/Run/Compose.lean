import CustomProperties.Proofs.Resolver.Overlay
import CustomProperties.Proofs.Run.Effect
import CustomProperties.Proofs.Sheet.Exchange
import CustomProperties.Proofs.Source.Fixed
import CustomProperties.Run.Transform

/-!
Transforms one behind the other. Each supplies the stylesheet that the one before it has left. As long as
the computed values are closed it meets the references that were there at the beginning and no others,
so that the whole chain supplies each of them once, with the last computed value that there is for it.
-/

namespace CustomProperties

def Transform.merge (a : Transform) (path : Option String) (t : FileTree) (loaders : Nat → Loader) :
    Step Variables :=
  (loaders a.loader).mergeSetting t (.tuple a.fallbacks) (baseOf path)

/-- All computed values are closed. -/
def Variables.Sealed (v : Variables) : Prop :=
  ∀ n value, v.computed n = some value → value.Closed

variable {s : Stylesheet} {path : Option String} {t : FileTree} {loaders loaders' : Nat → Loader}
  {a b : Transform} {v : Variables}

theorem Stylesheet.mapValues_of_empty (s : Stylesheet) (empty : v.entries = []) :
    s.mapValues (suppliedValue v.computed) = s := by
  rw [Variables.computed_of_empty empty, suppliedValue_none, mapValues_id]

theorem Loader.mergeSetting_eq (l : Loader) (t : FileTree) (setting : Setting)
    (base : Option String) :
    let leading := SourceName.leading setting.kept
    let merged := l.merge t leading.1 base
    (l.mergeSetting t setting base).loader = merged.loader ∧
      (l.mergeSetting t setting base).outcome =
        if leading.2 then merged.outcome.bind fun _ => .error .bytesName else merged.outcome := by
  rw [mergeSetting, Setting.sources_eq]
  dsimp only
  rw [mergeNamed]
  obtain ⟨sources, stopped⟩ := SourceName.leading setting.kept
  cases stopped with
  | true => exact ⟨rfl, rfl⟩
  | false => exact ⟨rfl, rfl⟩

theorem Loader.grown_mergeSetting (l : Loader) (t : FileTree) (setting : Setting)
    (base : Option String) : l.Grown t (l.mergeSetting t setting base).loader := by
  rw [(l.mergeSetting_eq t setting base).1]
  exact grown_mergeInto l t base .empty _

/-- What one transform does: it exchanges the values, and its loader keeps what it has read. -/
theorem Transform.apply_of_merged (s : Stylesheet)
    (merged : (a.merge path t loaders).outcome = .ok v) :
    (a.apply s path t loaders).outcome = .ok (s.mapValues (suppliedValue v.computed)) ∧
      ∀ n, (loaders n).Grown t ((a.apply s path t loaders).loaders n) := by
  have applied : (s.applySources path (loaders a.loader) t a.fallbacks).outcome =
        .ok (s.mapValues (suppliedValue v.computed)) ∧
      (loaders a.loader).Grown t (s.applySources path (loaders a.loader) t a.fallbacks).loader := by
    rw [Stylesheet.applySources]
    cases none_given : a.fallbacks.isEmpty with
    | true =>
        -- Without sources there are no variables.
        rw [merge, List.isEmpty_iff.1 none_given] at merged
        obtain rfl : Variables.empty = v := Except.ok.inj merged
        exact ⟨congrArg Except.ok (s.mapValues_of_empty rfl).symm, .refl t _⟩
    | false =>
        have grown := (loaders a.loader).grown_mergeSetting t (.tuple a.fallbacks) (baseOf path)
        rw [merge] at merged
        simp only [Bool.false_eq_true, if_false, merged]
        split
        · rename_i empty
          exact ⟨congrArg Except.ok (s.mapValues_of_empty empty).symm, grown⟩
        · have faithful := Resolver.faithful_ofCircular v.grounded_circular
          exact ⟨congrArg Except.ok (Stylesheet.supply_eq_mapValues faithful s), grown⟩
  refine ⟨applied.1, fun n => ?_⟩
  rw [apply]
  dsimp only
  split
  · rename_i same
    exact same ▸ applied.2
  · exact .refl t _

theorem Transform.outcome_merge (versioned : FileTree.Versioned [t])
    (grown : ∀ n, (loaders n).Grown t (loaders' n)) (a : Transform) (path : Option String) :
    (a.merge path t loaders').outcome = (a.merge path t loaders).outcome := by
  rw [merge, merge, (Loader.mergeSetting_eq ..).2, (Loader.mergeSetting_eq ..).2,
    (grown a.loader).merge_eq versioned]

theorem suppliedValue_comp {v : Variables} (closed : v.Sealed) (later : Text → Option Text) :
    suppliedValue later ∘ suppliedValue v.computed = suppliedValue (overlay v.computed later) :=
  funext fun _ => suppliedValue_suppliedValue fun ref _ => closed ref.name

theorem Stylesheet.applyTransforms_of_merged (versioned : FileTree.Versioned [t])
    {transforms : List Transform} {tables : List Variables}
    (merged : List.Forall₂ (fun a v => (a.merge path t loaders).outcome = .ok v) transforms tables)
    (closed : ∀ v ∈ tables, v.Sealed) (s : Stylesheet) :
    (s.applyTransforms path t loaders transforms).outcome =
      .ok (s.mapValues (suppliedValue (overlayAll (tables.map Variables.computed)))) := by
  induction transforms generalizing tables loaders s with
  | nil =>
      cases merged
      show Except.ok s = .ok (s.mapValues (suppliedValue fun _ => none))
      rw [suppliedValue_none, mapValues_id]
  | cons a transforms ih =>
      cases merged with
      | @cons _ v _ tables first others =>
          obtain ⟨outcome, grown⟩ := Transform.apply_of_merged s first
          obtain ⟨sealed, later⟩ := List.forall_mem_cons.1 closed
          have again : List.Forall₂ (fun b w =>
              (b.merge path t (a.apply s path t loaders).loaders).outcome = .ok w) transforms tables :=
            others.imp fun b w merged => (Transform.outcome_merge versioned grown b path).trans merged
          rw [applyTransforms, outcome]
          show ((s.mapValues (suppliedValue v.computed)).applyTransforms path t
            (a.apply s path t loaders).loaders transforms).outcome = _
          rw [ih again later, mapValues_mapValues, suppliedValue_comp sealed]
          rfl

/-- Two transforms in a chain, in a tree that stays as it is. A reference of the stylesheet has the
computed value of the second one as its fallback when there is one that is not empty, and else that of
the first one; without either it stays as it was, and so does all else. A transform that is applied again
changes nothing more. -/
theorem Stylesheet.applyTransforms_pair {source : Text} {va vb : Variables} (rooted : t.Rooted)
    (parsed : parse source = .ok s)
    (merged_first : (a.merge path t loaders).outcome = .ok va) (sealed_first : va.Sealed)
    (merged_second : (b.merge path t loaders).outcome = .ok vb) (sealed_second : vb.Sealed) :
    let answers := overlay va.computed vb.computed
    ∃ out, (s.applyTransforms path t loaders [a, b]).outcome = .ok out ∧
      out = s.mapValues (suppliedValue answers) ∧
      (∀ d ∈ s.declarations, dissect (suppliedValue answers d.value) =
        (dissect d.value).map fun ref => ref.withAnswer (answers ref.name)) ∧
      out.toCss = Edit.apply source 0 (s.edits answers) ∧
      (s.applyTransforms path t loaders [a, a]).outcome =
        (s.applyTransforms path t loaders [a]).outcome := by
  intro answers
  have pair {c : Transform} {vc : Variables} (merged : (c.merge path t loaders).outcome = .ok vc)
      (closed : vc.Sealed) : (s.applyTransforms path t loaders [a, c]).outcome =
        .ok (s.mapValues (suppliedValue (overlay va.computed vc.computed))) :=
    applyTransforms_of_merged rooted.versioned (.cons merged_first (.cons merged .nil))
      (by simp [sealed_first, closed]) s
  have once : (s.applyTransforms path t loaders [a]).outcome =
      .ok (s.mapValues (suppliedValue va.computed)) :=
    applyTransforms_of_merged rooted.versioned (.cons merged_first .nil) (by simp [sealed_first]) s
  refine ⟨_, pair merged_second sealed_second, rfl, fun d _ => dissect_suppliedValue ?_, ?_, ?_⟩
  · exact fun ref _ answer given =>
      overlay_closed (sealed_first ref.name) (sealed_second ref.name) given
  · exact toCss_mapValues_supplied parsed
  · rw [pair merged_first sealed_first, once, overlay_self]

theorem Variables.sealed_of_answers
    (closed : ∀ n ∈ v.names, ∀ value ∈ (Resolver.ofCircular v v.circular).answer v.circular n,
      value.Closed) : v.Sealed := by
  intro n value given
  by_cases known : n ∈ v.names
  · exact closed n known value (v.computed_eq ▸ given)
  · simp [computed, resolution_of_unknown _ known] at given

/-- Two stylesheets that share some names. Each has a circular one and an empty or a missing one where the
other has a value, and a value of the first one refers to a variable that only the second one has. -/
def closet : FileTree :=
  ⟨[(["w"], .directory),
    (["w", "a.css"], .file ":root\x7b--x:f(1, var(--q));--y:2;--z:var(--z);--e:\")\"\x7d".toUTF8 0),
    (["w", "b.css"], .file ":root\x7b--x:;--y:var(--y);--z:g(\"(\", 3);--q:5\x7d".toUTF8 0)], ["w"]⟩

def garment : Text :=
  ("a\x7bb:var( --x ,9) VAR(--y) var(--z, 8)/**/var(--e);" ++
    "c:f(var(--x, var(--y)), var(--u, 7))\x7d").toList

theorem Stylesheet.applyTransforms_pair_closet :
    closet.Rooted ∧ ∃ sheet out va vb, Stylesheet.parse garment = .ok sheet ∧
      (Transform.merge ⟨[.text "a.css"], 0⟩ none closet fun _ => .empty).outcome = .ok va ∧
      (Transform.merge ⟨[.text "b.css", .integer], 0⟩ none closet fun _ => .empty).outcome = .ok vb ∧
      va.Sealed ∧ vb.Sealed ∧
      (sheet.applyTransforms none closet (fun _ => .empty)
        [⟨[.text "a.css"], 0⟩, ⟨[.text "b.css", .integer], 0⟩]).outcome = .ok out ∧
      out.toCss = Edit.apply garment 0 (sheet.edits (overlay va.computed vb.computed)) ∧
      out.toCss = ("a\x7bb:var(--x, f(1, var(--q))) VAR(--y, 2) var(--z, g(\"(\", 3))/**/" ++
        "var(--e, \")\");c:f(var(--x, f(1, var(--q))), var(--u, 7))\x7d").toList := by
  have rooted : closet.Rooted := by decide
  have chains : ((Stylesheet.parse garment).toOption.bind fun sheet =>
      (sheet.applyTransforms none closet (fun _ => .empty)
        [⟨[.text "a.css"], 0⟩, ⟨[.text "b.css", .integer], 0⟩]).outcome.toOption.map toCss) =
      some ("a\x7bb:var(--x, f(1, var(--q))) VAR(--y, 2) var(--z, g(\"(\", 3))/**/" ++
        "var(--e, \")\");c:f(var(--x, f(1, var(--q))), var(--u, 7))\x7d").toList := by
    decide +kernel
  have merges (a : Transform)
      (evaluates : (a.merge none closet fun _ => .empty).outcome.toOption.map (fun v =>
        decide (∀ n ∈ v.names, ∀ value ∈ (Resolver.ofCircular v v.circular).answer v.circular n,
          value.Closed)) = some true) :
      ∃ v, (a.merge none closet fun _ => .empty).outcome = .ok v ∧ v.Sealed := by
    obtain ⟨v, merged, closed⟩ := Option.map_eq_some_iff.1 evaluates
    exact ⟨v, ok_of_toOption merged, v.sealed_of_answers (of_decide_eq_true closed)⟩
  obtain ⟨va, merged_first, sealed_first⟩ := merges ⟨[.text "a.css"], 0⟩ (by decide +kernel)
  obtain ⟨vb, merged_second, sealed_second⟩ :=
    merges ⟨[.text "b.css", .integer], 0⟩ (by decide +kernel)
  obtain ⟨sheet, parsed, chains⟩ := Option.bind_eq_some_iff.1 chains
  obtain ⟨out', returned', css⟩ := Option.map_eq_some_iff.1 chains
  obtain ⟨out, returned, -, -, applied, -⟩ := applyTransforms_pair rooted (ok_of_toOption parsed)
    merged_first sealed_first merged_second sealed_second
  obtain rfl := Except.ok.inj (returned.symm.trans (ok_of_toOption returned'))
  exact ⟨rooted, sheet, out, va, vb, ok_of_toOption parsed, merged_first, merged_second, sealed_first,
    sealed_second, returned, applied, css⟩

end CustomProperties
