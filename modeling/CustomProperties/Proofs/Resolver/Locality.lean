import CustomProperties.Proofs.Resolver.Supply

/-!
What a variable depends on. A name reaches another one when references lead from it there, through
variables that have a value. Tables that agree on all that a name reaches may differ in everything
else, in the order of their variables too: whether the name is circular and what it resolves to is
the same in both.
-/

namespace CustomProperties

open Relation

namespace Variables

variable {v w : Variables} {n : Text}

/-- The value of a variable refers to a name, which may have no value of its own. -/
def RefersTo (v : Variables) (a b : Text) : Prop :=
  ∃ value, v.get? a = some value ∧ b ∈ referencedNames value

abbrev Reaches (v : Variables) : Text → Text → Prop := ReflTransGen v.RefersTo

/-- Two tables give the same value, or none, to every name that `n` reaches. -/
def AgreeFrom (v w : Variables) (n : Text) : Prop := ∀ m, v.Reaches n m → v.get? m = w.get? m

/-- A list of names that no reference leaves has all that each of its names reaches. -/
theorem agreeFrom_of_closed (names : List Text) (here : n ∈ names)
    (closed : ∀ a ∈ names, ∀ b ∈ ((v.get? a).map referencedNames).getD [], b ∈ names)
    (same : ∀ a ∈ names, v.get? a = w.get? a) : v.AgreeFrom w n := by
  intro m way
  refine same m ?_
  induction way with
  | refl => exact here
  | tail _ step ih =>
      obtain ⟨value, hv, refers⟩ := step
      exact closed _ ih _ (by rwa [hv])

namespace AgreeFrom

theorem get?_eq (h : v.AgreeFrom w n) : v.get? n = w.get? n := h n .refl

theorem mem_names_iff (h : v.AgreeFrom w n) : n ∈ v.names ↔ n ∈ w.names := by
  rw [← get?_isSome_iff, ← get?_isSome_iff, h.get?_eq]

theorem refersTo_iff (h : v.AgreeFrom w n) (b : Text) : v.RefersTo n b ↔ w.RefersTo n b := by
  rw [RefersTo, RefersTo, h.get?_eq]

theorem reached (h : v.AgreeFrom w n) {m : Text} (way : v.Reaches n m) : v.AgreeFrom w m :=
  fun k onward => h k (way.trans onward)

theorem leadsTo_iff (h : v.AgreeFrom w n) (b : Text) : v.LeadsTo n b ↔ w.LeadsTo n b := by
  have split : ∀ u : Variables, u.LeadsTo n b ↔ u.RefersTo n b ∧ b ∈ u.names := fun u =>
    ⟨fun ⟨value, hv, refers, known⟩ => ⟨⟨value, hv, refers⟩, known⟩,
      fun ⟨⟨value, hv, refers⟩, known⟩ => ⟨value, hv, refers, known⟩⟩
  rw [split, split, h.refersTo_iff]
  refine and_congr_right fun refers => ?_
  exact (h.reached (.single ((h.refersTo_iff b).2 refers))).mem_names_iff

theorem symm (h : v.AgreeFrom w n) : w.AgreeFrom v n := by
  intro m way
  have back : v.Reaches n m := by
    induction way with
    | refl => exact .refl
    | tail _ step ih => exact ih.tail (((h.reached ih).refersTo_iff _).2 step)
  exact (h m back).symm

theorem transGen (h : v.AgreeFrom w n) {m : Text} (way : TransGen v.LeadsTo n m) :
    v.Reaches n m ∧ TransGen w.LeadsTo n m := by
  have reaches {a b : Text} (step : v.LeadsTo a b) : v.RefersTo a b := by
    obtain ⟨value, hv, refers, -⟩ := step
    exact ⟨value, hv, refers⟩
  induction way with
  | single step => exact ⟨.single (reaches step), .single ((h.leadsTo_iff _).1 step)⟩
  | tail _ step ih =>
      obtain ⟨within, way⟩ := ih
      exact ⟨within.tail (reaches step), way.tail (((h.reached within).leadsTo_iff _).1 step)⟩

theorem circular_iff (h : v.AgreeFrom w n) : n ∈ v.circular ↔ n ∈ w.circular := by
  rw [mem_circular_iff, mem_circular_iff, h.mem_names_iff]
  exact and_congr_right fun _ => ⟨fun cycle => (h.transGen cycle).2,
    fun cycle => (h.symm.transGen cycle).2⟩

/-- Resolution depends on what a name reaches. The induction is along the needs of the first table. -/
theorem resolution_eq (h : v.AgreeFrom w n) :
    v.resolution v.circular v.grounded_circular n =
      w.resolution w.circular w.grounded_circular n := by
  induction n using v.grounded_circular.wellFounded.induction with
  | _ n ih =>
      by_cases straight : n ∈ v.circular
      · rw [resolution_of_circular _ straight, resolution_of_circular _ (h.circular_iff.1 straight)]
      rw [Variables.resolution_eq, Variables.resolution_eq w.grounded_circular, ← h.get?_eq,
        if_neg straight, if_neg (mt h.circular_iff.2 straight)]
      refine Option.map_congr fun value hv => Dissection.replace_congr fun ref hr => ?_
      refine congrArg ref.substitute ?_
      have refers : ref.name ∈ referencedNames value := List.mem_map_of_mem hr
      have there := h.reached (.single ⟨value, hv, refers⟩)
      -- What the value refers to is circular, unknown or needed, and that in both tables.
      by_cases circular : ref.name ∈ v.circular
      · rw [resolution_of_circular _ circular,
          resolution_of_circular _ (there.circular_iff.1 circular)]
      by_cases known : ref.name ∈ v.names
      · exact ih ref.name ⟨⟨value, hv, refers, known⟩, straight, circular⟩ there
      · rw [resolution_of_unknown _ known,
          resolution_of_unknown _ (mt there.mem_names_iff.2 known)]

end AgreeFrom

end Variables

namespace Resolver

variable {v w : Variables} {n : Text}

/-- What a name resolves to depends on the variables that it reaches alone. With tables that agree on
these, it is circular in both or in none, it resolves to the same value, whatever was asked before, and
a reference to it is supplied with the same fallback. -/
theorem resolve_local (agree : v.AgreeFrom w n) :
    (n ∈ v.circular ↔ n ∈ w.circular) ∧
    (∀ calls calls', (((ofVariables v).after calls).resolve n).1 =
      (((ofVariables w).after calls').resolve n).1) ∧
    ∀ ref : Reference, ref.name = n → ((ofVariables v).supplyReference v.circular ref).1 =
      ((ofVariables w).supplyReference w.circular ref).1 := by
  have faithful : ∀ u : Variables, (ofVariables u).Faithful u.grounded_circular :=
    fun u => faithful_ofCircular u.grounded_circular
  have same := agree.resolution_eq
  refine ⟨agree.circular_iff, fun calls calls' => ?_, fun ref named => ?_⟩
  · rw [(((faithful v).after calls).resolve n).1, (((faithful w).after calls').resolve n).1, same]
  · rw [supplyReference_fst, supplyReference_fst, (faithful v).answer_eq, (faithful w).answer_eq,
      named, same]

def grove : Variables :=
  .ofList
    [("--a".toList, "var(--b) var(--c, 1)".toList), ("--b".toList, "2 VAR(--none, 3)".toList),
      ("--c".toList, "var(--c)".toList), ("--d".toList, "var(--a)".toList),
      ("--e".toList, "var(--f)".toList), ("--f".toList, "var(--e)".toList)]

/-- The same variable in another order, with one of the others gone, one new and one redefined. -/
def regrown : Variables :=
  .ofList
    [("--e".toList, "5".toList), ("--c".toList, "var(--c)".toList), ("--g".toList, "var(--e)".toList),
      ("--f".toList, "var(--a)".toList), ("--b".toList, "2 VAR(--none, 3)".toList),
      ("--a".toList, "var(--b) var(--c, 1)".toList)]

theorem resolve_local_grove :
    grove.AgreeFrom regrown "--a".toList ∧
    ((ofVariables grove).resolve "--a".toList).1 = some "2 3 1".toList ∧
    ((ofVariables regrown).resolve "--a".toList).1 = some "2 3 1".toList ∧
    "--e".toList ∈ grove.circular ∧ "--e".toList ∉ regrown.circular := by
  have agree : grove.AgreeFrom regrown "--a".toList :=
    Variables.agreeFrom_of_closed ["--a".toList, "--b".toList, "--c".toList, "--none".toList]
      (by simp) (by decide +kernel) (by decide +kernel)
  have here : ((ofVariables grove).resolve "--a".toList).1 = some "2 3 1".toList := by
    decide +kernel
  have there : ((ofVariables regrown).resolve "--a".toList).1 = some "2 3 1".toList :=
    ((resolve_local agree).2.1 [] []).symm.trans here
  exact ⟨agree, here, there, by decide +kernel⟩

end Resolver

end CustomProperties
