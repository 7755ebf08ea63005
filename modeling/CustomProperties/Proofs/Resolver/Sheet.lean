import CustomProperties.Proofs.Resolver.Resupply
import CustomProperties.Proofs.Sheet.Exchange

/-!
Supplying a stylesheet. One resolver serves all declarations, and what it has found out for one of
them it brings to the next. For a grounded table that makes no difference: each declaration
becomes what a new resolver makes of it alone, and nothing but the values is touched.
-/

namespace CustomProperties

namespace Node

variable {σ : Type} {f : σ → Declaration → Declaration × σ} {P : σ → Prop} {m : σ → Nat}
  {p : Declaration → Bool}

/-- A measure that each step raises for the declarations with a property comes to their number. -/
theorem measure_thread
    (step : ∀ s d, P s → P (f s d).2 ∧ m (f s d).2 = m s + if p d then 1 else 0)
    (ds : List Declaration) {s : σ} (h : P s) :
    m (thread f s ds).2 = m s + ds.countP p := by
  induction ds generalizing s with
  | nil => rfl
  | cons d ds ih =>
      obtain ⟨later, raised⟩ := step s d h
      show m (thread f (f s d).2 ds).2 = _
      rw [ih later, raised, List.countP_cons]
      omega

end Node

namespace Stylesheet

open Resolver

variable {source : Text} {s : Stylesheet} {v : Variables} {circular : List Text}
  {grounded : v.Grounded circular} {r fresh : Resolver}

theorem supply_eq_of_faithful (h : r.Faithful grounded) (h' : fresh.Faithful grounded)
    (kept : List Text) (s : Stylesheet) :
    (s.supply r kept).sheet = s.mapValues (suppliedValue (fresh.answer kept)) ∧
      (s.supply r kept).count =
        s.declarations.countP fun d => changesValue (fresh.answer kept) d.value := by
  have step (state : Resolver × Nat) (d : Declaration) (h : state.1.Faithful grounded) :=
    h.supplyDeclaration h' kept state.2 d
  constructor
  · have nodes := (Node.updateAll_eq_mapValuesAll
      (P := fun state : Resolver × Nat => state.1.Faithful grounded)
      (fun state d h => ⟨(step state d h).1, (step state d h).2.1⟩) s.nodes (s := (r, 0)) h).1
    exact congrArg (fun nodes => { s with nodes }) nodes
  · have count := Node.measure_thread (m := Prod.snd)
      (P := fun state : Resolver × Nat => state.1.Faithful grounded)
      (fun state d h => (step state d h).2) (Node.flattenAll s.nodes) (s := (r, 0)) h
    rw [← Node.flattenAll_updateAll] at count
    rw [declarations_eq_flattenAll]
    exact count.trans (Nat.zero_add _)

theorem toCss_mapValues_of_same (parsed : parse source = .ok s) {g : Text → Text}
    (same : ∀ d ∈ s.declarations, g d.value = d.value) : (s.mapValues g).toCss = source := by
  have unchanged : (s.declarations.map fun d => (d.assign (g d.value)).edit) =
      s.declarations.map fun d => (d.assign (id d.value)).edit :=
    List.map_congr_left fun d hd => by rw [same d hd, id]
  rw [toCss_mapValues g parsed, unchanged, ← toCss_mapValues id parsed, mapValues_id,
    toCss_of_parse parsed]

/-- Supplying a stylesheet works on each declaration by itself. Whatever the resolver was asked
before, and whatever it finds out on the way, a declaration gets the value that a new resolver
makes of its old one; nodes, names, importance and places stay. If no declaration is counted the
text is the one that was read, and if all resolved values are closed, those are counted whose
value is another one now. -/
theorem supply_declarationwise (parsed : parse source = .ok s) (grounded : v.Grounded circular)
    (calls : List Call) (kept : List Text) :
    let fresh := ofCircular v circular
    let supplied := s.supply (fresh.after calls) kept
    supplied.sheet = s.mapValues (fun value => (fresh.supplyValue kept value).1.1) ∧
      supplied.sheet.declarations =
        s.declarations.map (fun d => { d with value := (fresh.supplyValue kept d.value).1.1 }) ∧
      (supplied.count = 0 → supplied.sheet.toCss = source) ∧
      ((∀ n, ∀ value ∈ (fresh.resolve n).1, value.Closed) →
        supplied.count = (supplied.sheet.declarations.filter Declaration.modified).length) := by
  intro fresh supplied
  have faithful : fresh.Faithful grounded := faithful_ofCircular grounded
  have alone : (fun value => (fresh.supplyValue kept value).1.1) =
      suppliedValue (fresh.answer kept) :=
    funext fun value => congrArg Prod.fst (faithful.supplyValue_fst faithful kept value)
  obtain ⟨sheet, count⟩ := supply_eq_of_faithful (faithful.after calls) faithful kept s
  have declarations := congrArg Stylesheet.declarations sheet
  rw [declarations_mapValues] at declarations
  refine ⟨alone ▸ sheet, ?_, fun none_counted => ?_, fun closed => ?_⟩
  · rw [declarations]
    exact List.map_congr_left fun d _ => by rw [← alone]; rfl
  · rw [sheet]
    rw [count, List.countP_eq_zero] at none_counted
    exact toCss_mapValues_of_same parsed fun d hd =>
      suppliedValue_of_unchanged (Bool.eq_false_iff.2 (none_counted d hd))
  · have closed' : ∀ n answer, fresh.answer kept n = some answer → answer.Closed := by
      intro n answer given
      by_cases hk : n ∈ kept
      · rw [answer_kept hk] at given
        simp at given
      · rw [answer_asked hk] at given
        exact closed n answer given
    obtain ⟨-, as_read, -⟩ := of_parse parsed
    rw [count, declarations, ← List.countP_eq_length_filter, List.countP_map]
    refine List.countP_congr fun d hd => ?_
    rw [changesValue_iff fun ref _ => closed' ref.name]
    simp [Declaration.modified, Declaration.assign, as_read d hd]

theorem supply_declarationwise_rack :
    let sheet : Text := (":root\x7b--a:var(--b)\x7dp\x7bq:f(var(--a), var( --c ,2));r:1\x7d" ++
      "p\x7bs:VAR(--b, 1px 2px) !important\x7d").toList
    let v : Variables := .ofList
      [("--a".toList, "var(--b) \")\"".toList), ("--b".toList, "1px".toList),
        ("--c".toList, "var(--c)".toList)]
    let fresh := ofCircular v v.circular
    ∃ s, parse sheet = .ok s ∧
      let supplied := s.supply (fresh.after [.resolveAll]) v.circular
      supplied.sheet.declarations.map (fun d => String.ofList d.value) =
        ["var(--b, 1px)", "f(var(--a, 1px \")\"), var( --c ,2))", "1", "VAR(--b, 1px)"] ∧
      supplied.sheet.declarations = s.declarations.map (fun d =>
        { d with value := (fresh.supplyValue v.circular d.value).1.1 }) ∧
      (supplied.sheet.declarations.filter Declaration.modified).length = 3 ∧
      supplied.count = 3 := by
  intro sheet v fresh
  have evaluates : (parse sheet).toOption.map (fun s =>
      let declarations := (s.supply (fresh.after [.resolveAll]) v.circular).sheet.declarations
      (declarations.map (fun d => String.ofList d.value),
        (declarations.filter Declaration.modified).length)) =
      some (["var(--b, 1px)", "f(var(--a, 1px \")\"), var( --c ,2))", "1", "VAR(--b, 1px)"], 3) := by
    decide +kernel
  obtain ⟨s, parsed, found⟩ := Option.map_eq_some_iff.1 evaluates
  obtain ⟨values, modified⟩ := Prod.mk.inj found
  have closed : ∀ n, ∀ value ∈ (fresh.resolve n).1, value.Closed := by
    intro n value given
    have known : n ∈ v.names := (resolve_isSome_iff.1 (Option.isSome_of_eq_some given)).2
    have all : ∀ n ∈ v.names, ∀ value ∈ (fresh.resolve n).1, value.Closed := by decide +kernel
    exact all n known value given
  obtain ⟨-, each, -, count⟩ := supply_declarationwise (ok_of_toOption parsed)
    v.grounded_circular [.resolveAll] v.circular
  exact ⟨s, ok_of_toOption parsed, values, each, modified, (count closed).trans modified⟩

end Stylesheet

end CustomProperties
