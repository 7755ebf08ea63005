import CustomProperties.Proofs.Resolver.Pursuit
import CustomProperties.Variables.Supply

/-!
What a resolver remembers from one call to the next. A value, once given, is given again on every
later call. When the circular names leave the table grounded, every answer is the resolution of the
name, whatever was asked before.
-/

namespace CustomProperties

namespace Resolver

variable {r s : Resolver}

theorem resolve_of_circular {n : Text} (h : n ∈ r.circular) :
    r.resolve n = (none, { r with findings := r.findings.meet n }) := by
  simp [resolve, isCircular, h]

theorem resolve_of_unknown {n : Text} (straight : n ∉ r.circular) (h : n ∉ r.table.names) :
    r.resolve n = (none, r) := by
  simp [resolve, isCircular, straight, h]

theorem resolve_of_value? {n value : Text} (straight : n ∉ r.circular) (known : n ∈ r.table.names)
    (h : r.findings.value? n = some value) : r.resolve n = (some value, r) := by
  simp [resolve, isCircular, straight, known, h]

def pursuit (r : Resolver) (n : Text) (known : n ∈ r.table.names) : Pursuit r.table :=
  ⟨[⟨n, [], known, List.not_mem_nil⟩], r.findings⟩

theorem resolve_of_fresh {n : Text} (straight : n ∉ r.circular) (known : n ∈ r.table.names)
    (h : r.findings.value? n = none) :
    r.resolve n = (((r.pursuit n known).run r.circular).findings.value? n,
      { r with findings := ((r.pursuit n known).run r.circular).findings }) := by
  simp [resolve, isCircular, straight, known, h, pursuit]

/-- What `s` knows when it comes after `r`: no value of `r` is lost. -/
structure Later (r s : Resolver) : Prop where
  table : s.table = r.table
  circular : s.circular = r.circular
  values : ∀ n value, r.findings.value? n = some value → s.findings.value? n = some value

theorem Later.refl (r : Resolver) : Later r r := ⟨rfl, rfl, fun _ _ h => h⟩

theorem Later.trans {t : Resolver} (h : Later r s) (h' : Later s t) : Later r t :=
  ⟨h'.table.trans h.table, h'.circular.trans h.circular,
    fun n value hn => h'.values n value (h.values n value hn)⟩

theorem later_resolve (r : Resolver) (n : Text) : Later r (r.resolve n).2 := by
  by_cases hc : n ∈ r.circular
  · rw [resolve_of_circular hc]
    exact ⟨rfl, rfl, fun m value hm => by simpa using hm⟩
  by_cases hk : n ∈ r.table.names
  · cases hv : r.findings.value? n with
    | some value =>
        rw [resolve_of_value? hc hk hv]
        exact .refl r
    | none =>
        rw [resolve_of_fresh hc hk hv]
        exact ⟨rfl, rfl, fun m value hm => Pursuit.value?_run (p := r.pursuit n hk) hm⟩
  · rw [resolve_of_unknown hc hk]
    exact .refl r

/-- A resolver has a value for exactly the names of its table that it does not take for
circular. -/
theorem resolve_isSome_iff {n : Text} :
    (r.resolve n).1.isSome ↔ n ∉ r.circular ∧ n ∈ r.table.names := by
  by_cases hc : n ∈ r.circular
  · simp [resolve_of_circular hc, hc]
  by_cases hk : n ∈ r.table.names
  · cases hv : r.findings.value? n with
    | some value => simp [resolve_of_value? hc hk hv, hc, hk]
    | none =>
        have settled : (((r.pursuit n hk).run r.circular).findings.value? n).isSome :=
          Pursuit.settled_run (p := r.pursuit n hk) (List.mem_cons_self ..)
        simpa [resolve_of_fresh hc hk hv, hc, hk] using settled
  · simp [resolve_of_unknown hc hk, hk]

theorem value?_resolve {n value : Text} (h : (r.resolve n).1 = some value) :
    (r.resolve n).2.findings.value? n = some value := by
  obtain ⟨hc, hk⟩ := resolve_isSome_iff.1 (Option.isSome_of_eq_some h)
  cases hv : r.findings.value? n with
  | some s =>
      rw [resolve_of_value? hc hk hv] at h ⊢
      exact hv.trans h
  | none =>
      rw [resolve_of_fresh hc hk hv] at h ⊢
      exact h

theorem Later.resolve_eq {n : Text} (h : Later (r.resolve n).2 s) :
    (s.resolve n).1 = (r.resolve n).1 := by
  have before := later_resolve r n
  cases hv : (r.resolve n).1 with
  | none =>
      -- Without an answer the name is circular or unknown, whatever is remembered.
      have unanswered : ¬(r.resolve n).1.isSome := by simp [hv]
      rw [resolve_isSome_iff, ← before.table, ← before.circular, ← h.table, ← h.circular,
        ← resolve_isSome_iff] at unanswered
      simpa using unanswered
  | some value =>
      obtain ⟨hc, hk⟩ := resolve_isSome_iff.1 (Option.isSome_of_eq_some hv)
      rw [← before.circular, ← h.circular] at hc
      rw [← before.table, ← h.table] at hk
      rw [resolve_of_value? hc hk (h.values _ _ (value?_resolve hv))]

inductive Call where
  | resolve (name : Text)
  | resolveAll
  | supply (kept : List Text) (value : Text)
deriving DecidableEq, Repr

def perform (r : Resolver) : Call → Resolver
  | .resolve name => (r.resolve name).2
  | .resolveAll => r.resolveAll.2
  | .supply kept value => (r.supplyValue kept value).2

def after (r : Resolver) (calls : List Call) : Resolver := calls.foldl perform r

theorem supplyReference_snd (r : Resolver) (kept : List Text) (ref : Reference) :
    (r.supplyReference kept ref).2 =
      if ref.name ∈ kept then r else (r.resolve ref.name).2 := by
  rw [supplyReference]
  split
  · rfl
  · split <;> rename_i h <;> rw [h]

section Invariant

variable {P : Resolver → Prop} (resolve : ∀ r n, P r → P (r.resolve n).2)

include resolve

theorem invariant_resolveAll (h : P r) : P r.resolveAll.2 := by
  have all : ∀ (names : List Text) (r : Resolver), P r → P (resolveAll.go r names).2 := by
    intro names
    induction names with
    | nil => exact fun r h => h
    | cons name names ih => exact fun r h => ih _ (resolve r name h)
  exact all _ r h

theorem invariant_supplyReferences (kept : List Text) (refs : List (Reference × Text)) (h : P r) :
    P (r.supplyReferences kept refs).2 := by
  induction refs generalizing r with
  | nil => exact h
  | cons ref refs ih =>
      have first : P (r.supplyReference kept ref.1).2 := by
        rw [supplyReference_snd]
        split
        · exact h
        · exact resolve r _ h
      exact ih first

/-- What every resolution keeps, every call keeps. -/
theorem invariant_after (h : P r) (calls : List Call) : P (r.after calls) := by
  induction calls generalizing r with
  | nil => exact h
  | cons call calls ih =>
      refine ih ?_
      cases call with
      | resolve name => exact resolve r name h
      | resolveAll => exact invariant_resolveAll resolve h
      | supply kept value => exact invariant_supplyReferences resolve kept _ h

end Invariant

/-- A resolver for a grounded table whose values are those of the resolution. -/
structure Faithful {v : Variables} {circular : List Text} (grounded : v.Grounded circular)
    (r : Resolver) : Prop where
  same_table : r.table = v
  same_circular : r.circular = circular
  values : ∀ n value, r.findings.value? n = some value →
    v.resolution circular grounded n = some value

variable {v : Variables} {circular : List Text} {grounded : v.Grounded circular}

theorem faithful_ofCircular (grounded : v.Grounded circular) :
    Faithful grounded (.ofCircular v circular) :=
  ⟨rfl, rfl, by simp [ofCircular, Findings.empty, Findings.value?]⟩

theorem Faithful.resolve (h : Faithful grounded r) (n : Text) :
    (r.resolve n).1 = v.resolution circular grounded n ∧ Faithful grounded (r.resolve n).2 := by
  obtain ⟨table, names, findings⟩ := r
  obtain ⟨rfl, rfl, values⟩ := h
  by_cases hc : n ∈ names
  · rw [resolve_of_circular hc, Variables.resolution_of_circular grounded hc]
    exact ⟨rfl, rfl, rfl, by simpa using values⟩
  by_cases hk : n ∈ table.names
  · cases hv : findings.value? n with
    | some value =>
        rw [resolve_of_value? hc hk hv]
        exact ⟨(values _ _ hv).symm, rfl, rfl, values⟩
    | none =>
        have start : Pursuit.Faithful grounded (pursuit ⟨table, names, findings⟩ n hk) :=
          ⟨values, by simp [pursuit, hc], by simp [pursuit]⟩
        have answer := (resolve_isSome_iff (r := ⟨table, names, findings⟩)).2 ⟨hc, hk⟩
        rw [resolve_of_fresh hc hk hv] at answer ⊢
        obtain ⟨value, found⟩ := Option.isSome_iff_exists.1 answer
        have faithful := start.run
        refine ⟨?_, rfl, rfl, faithful.values⟩
        rw [found, faithful.values _ _ found]
  · rw [resolve_of_unknown hc hk, Variables.resolution_of_unknown grounded hk]
    exact ⟨rfl, rfl, rfl, values⟩

theorem Faithful.after (h : Faithful grounded r) (calls : List Call) :
    Faithful grounded (r.after calls) :=
  invariant_after (P := Faithful grounded) (fun _ n h => (h.resolve n).2) h calls

/-- Whatever was asked before, a resolver answers with the resolution of the name. That is nothing
for a circular name and for one without a value, and else the value with every outermost reference
replaced: by the resolution of its name if there is one, else by the author's own fallback, and
else by itself. The circular variables of a table leave it grounded. -/
theorem resolve_after (v : Variables) (circular : List Text) (grounded : v.Grounded circular)
    (calls : List Call) (n : Text) :
    (((ofCircular v circular).after calls).resolve n).1 = v.resolution circular grounded n ∧
    (v.resolution circular grounded n =
      if n ∈ circular then none
      else (v.get? n).map fun value => (dissect value).replace fun r =>
        match v.resolution circular grounded r.name with
        | some resolved => resolved
        | none => r.ownFallback?.getD r.text) ∧
    v.Grounded v.circular := by
  refine ⟨(((faithful_ofCircular grounded).after calls).resolve n).1, ?_, v.grounded_circular⟩
  have each : ∀ r : Reference, r.substitute (v.resolution circular grounded r.name) =
      match v.resolution circular grounded r.name with
      | some resolved => resolved
      | none => r.ownFallback?.getD r.text := by
    intro r
    cases v.resolution circular grounded r.name <;> rfl
  rw [Variables.resolution_eq]
  simp only [each]

/-- Two variables share a third, two more lead to each other, and one value is empty. -/
def diamond : Variables :=
  .ofList
    [("--a".toList, "var(--b) / var(--c, 1)".toList), ("--b".toList, "2 var(--d)".toList),
      ("--c".toList, "VAR( --d , 3 )".toList), ("--d".toList, []),
      ("--e".toList, "var(--f, x)".toList), ("--f".toList, "var(--e)".toList)]

theorem resolve_after_diamond :
    diamond.Grounded diamond.circular ∧
    let r := (ofCircular diamond diamond.circular).after
      [.resolve "--c".toList, .supply [] "var(--a) var(--e)".toList, .resolveAll]
    (r.resolve "--a".toList).1 = some "2  / ".toList ∧
    (r.resolve "--a".toList).1 =
      diamond.resolution diamond.circular diamond.grounded_circular "--a".toList :=
  ⟨diamond.grounded_circular, by decide +kernel,
    (resolve_after diamond diamond.circular diamond.grounded_circular
      [.resolve "--c".toList, .supply [] "var(--a) var(--e)".toList, .resolveAll]
      "--a".toList).1⟩

end Resolver

end CustomProperties
