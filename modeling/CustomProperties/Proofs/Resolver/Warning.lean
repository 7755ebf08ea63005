import CustomProperties.Proofs.Resolver.Memory
import CustomProperties.Proofs.Sheet.Walk

/-!
The circular names that a resolver meets. As long as no errand meets a name of its own path, which is so
when the circular names leave the table grounded, only circular names are met, and each of them is noted
once, however often it is met and by whatever calls.
-/

namespace CustomProperties

/-- The names that were met are circular, and each was noted once. -/
structure Findings.Sparing (circular : List Text) (f : Findings) : Prop where
  once : f.met.Nodup
  circular : ∀ n ∈ f.met, n ∈ circular

variable {v : Variables} {circular : List Text} {grounded : v.Grounded circular}

namespace Findings

variable {f : Findings}

theorem sparing_empty : Findings.empty.Sparing circular := ⟨List.nodup_nil, by simp [empty]⟩

theorem Sparing.meet (h : f.Sparing circular) {n : Text} (hn : n ∈ circular) :
    (f.meet n).Sparing circular := by
  rw [Findings.meet]
  split
  · exact h
  · rename_i fresh
    constructor
    case once => exact h.once.append (List.nodup_singleton n) (by simpa using fresh)
    case circular =>
      intro m hm
      rcases List.mem_append.1 hm with hm | hm
      · exact h.circular m hm
      · exact List.eq_of_mem_singleton hm ▸ hn

theorem Sparing.foldl_meet (h : f.Sparing circular) {names : List Text}
    (within : ∀ n ∈ names, n ∈ circular) : (names.foldl Findings.meet f).Sparing circular :=
  List.foldlRecOn names _ (motive := fun f : Findings => f.Sparing circular) h
    fun _ sparing n hn => sparing.meet (within n hn)

end Findings

namespace Pursuit

variable {p : Pursuit v}

theorem sparing_step (faithful : Faithful grounded p) (h : p.findings.Sparing circular) :
    (p.step circular).findings.Sparing circular := by
  rcases step_cases circular p with ⟨-, hs⟩ | ⟨e, errands, he, hs⟩
  · rwa [hs]
  rcases hs with ⟨-, hs⟩ | ⟨-, -, hs⟩ | ⟨-, first, more, -, hs⟩
  · rwa [hs]
  · rw [hs]
    have met : ∀ n ∈ ((dissect e.value).references.map fun pair => pair.1.name).filter
        (fun n => n ∈ circular || n ∈ e.branch), n ∈ circular := by
      intro n hn
      obtain ⟨there, blocked⟩ := List.mem_filter.1 hn
      have refers : n ∈ referencedNames e.value := by
        rwa [referencedNames, references, List.map_map]
      exact (blocked_iff faithful (by simp [he]) refers).1 (by simpa using blocked)
    exact ⟨(h.foldl_meet met).once, (h.foldl_meet met).circular⟩
  · rwa [hs]

theorem sparing_run (faithful : Faithful grounded p) (h : p.findings.Sparing circular) :
    (p.run circular).findings.Sparing circular := by
  fun_induction Pursuit.run circular p with
  | case1 => exact h
  | case2 p _ ih => exact ih faithful.step (sparing_step faithful h)

end Pursuit

namespace Resolver

variable {r : Resolver}

structure Sparing (grounded : v.Grounded circular) (r : Resolver) : Prop where
  faithful : Faithful grounded r
  findings : r.findings.Sparing circular

theorem sparing_ofCircular (grounded : v.Grounded circular) :
    Sparing grounded (ofCircular v circular) :=
  ⟨faithful_ofCircular grounded, Findings.sparing_empty⟩

theorem Sparing.resolve (h : Sparing grounded r) (n : Text) : Sparing grounded (r.resolve n).2 := by
  refine ⟨(h.faithful.resolve n).2, ?_⟩
  obtain ⟨table, names, findings⟩ := r
  obtain ⟨⟨rfl, rfl, values⟩, sparing⟩ := h
  by_cases hc : n ∈ names
  · rw [resolve_of_circular hc]
    exact sparing.meet hc
  by_cases hk : n ∈ table.names
  · cases hv : findings.value? n with
    | some value =>
        rw [resolve_of_value? hc hk hv]
        exact sparing
    | none =>
        have start : Pursuit.Faithful grounded (pursuit ⟨table, names, findings⟩ n hk) :=
          ⟨values, by simp [pursuit, hc], by simp [pursuit]⟩
        rw [resolve_of_fresh hc hk hv]
        exact Pursuit.sparing_run start sparing
  · rw [resolve_of_unknown hc hk]
    exact sparing

section Invariant

variable {P : Resolver → Prop} (resolve : ∀ r n, P r → P (r.resolve n).2)

include resolve

theorem invariant_supply (kept : List Text) (s : Stylesheet) (h : P r) :
    P (s.supply r kept).resolver := by
  have declaration (state : Resolver × Nat) (d : Declaration) (hp : P state.1) :
      P (supplyDeclaration kept state d).2.1 := by
    have value : P (state.1.supplyValue kept d.value).2 :=
      invariant_supplyReferences resolve kept _ hp
    rw [supplyDeclaration]
    generalize state.1.supplyValue kept d.value = given at value
    obtain ⟨⟨_, _ | _⟩, _⟩ := given <;> exact value
  have all (ds : List Declaration) (state : Resolver × Nat) (hp : P state.1) :
      P (Node.thread (supplyDeclaration kept) state ds).2.1 := by
    induction ds generalizing state with
    | nil => exact hp
    | cons d ds ih => exact ih _ (declaration state d hp)
  have threaded := Node.flattenAll_updateAll (supplyDeclaration kept) (r, 0) s.nodes
  have whole := all (Node.flattenAll s.nodes) (r, 0) h
  rw [← threaded] at whole
  exact whole

end Invariant

end Resolver

end CustomProperties
