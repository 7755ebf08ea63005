import CustomProperties.Proofs.Resolver.Locality
import CustomProperties.Proofs.Resolver.Warning
import CustomProperties.Run.Event

/-!
Which circular names a resolver meets. It meets those that it is asked for, and those that the values
refer to which it needs for its answers. A value is computed once and then remembered, and its references
are met on that occasion; so what was met is told at any time by the names that were asked for, in whatever
order and however often.
-/

namespace CustomProperties

open Relation

variable {v : Variables} {circular asked : List Text} {grounded : v.Grounded circular}

namespace Variables

variable {a n : Text}

/-- Where needs lead to a straight name with a value, they come from such a name. -/
theorem straight_of_needs (way : ReflTransGen (v.Needs circular) a n) (known : n ∈ v.names)
    (straight : n ∉ circular) : a ∈ v.names ∧ a ∉ circular := by
  rcases way.cases_head with rfl | ⟨b, first, -⟩
  · exact ⟨known, straight⟩
  · exact ⟨first.1.known_left, first.2.1⟩

theorem Grounded.mono {names : List Text} (grounded : v.Grounded circular)
    (more : circular ⊆ names) : v.Grounded names := by
  intro n cycle
  refine grounded n (TransGen.mono (fun a b needs => ?_) _ _ cycle)
  exact ⟨needs.1, fun h => needs.2.1 (more h), fun h => needs.2.2 (more h)⟩

end Variables

namespace Findings

variable {f : Findings} {n : Text}

theorem mem_met_meet {w : Text} : w ∈ (f.meet n).met ↔ w ∈ f.met ∨ w = n := by
  rw [meet]
  split
  · rename_i there
    exact ⟨.inl, fun h => h.elim id fun same => same ▸ there⟩
  · simp

theorem mem_met_foldl {w : Text} (names : List Text) :
    w ∈ (names.foldl meet f).met ↔ w ∈ f.met ∨ w ∈ names := by
  induction names generalizing f with
  | nil => simp
  | cons n names ih => rw [List.foldl_cons, ih, mem_met_meet, List.mem_cons, or_assoc]

/-- What was found out when the names `asked` were asked for. -/
structure Accounts (v : Variables) (circular asked : List Text) (f : Findings) : Prop where
  /-- A value was needed for a name that was asked for. -/
  needed : ∀ n, (f.value? n).isSome →
    n ∈ v.names ∧ n ∉ circular ∧ ∃ a ∈ asked, ReflTransGen (v.Needs circular) a n
  /-- A value is there together with those that it needs. -/
  whole : ∀ n b, (f.value? n).isSome → v.Needs circular n b → (f.value? b).isSome
  met : ∀ w, w ∈ f.met ↔ w ∈ circular ∧ (w ∈ asked ∨ ∃ n, (f.value? n).isSome ∧ v.RefersTo n w)

theorem accounts_empty : Findings.empty.Accounts v circular [] := by
  constructor
  case needed => simp [empty, value?]
  case whole => simp [empty, value?]
  case met => simp [empty, value?]

theorem Accounts.ask (h : f.Accounts v circular asked) (straight : n ∉ circular) :
    f.Accounts v circular (asked ++ [n]) := by
  constructor
  case needed =>
    intro m hm
    obtain ⟨known, other, a, ha, way⟩ := h.needed m hm
    exact ⟨known, other, a, List.mem_append_left _ ha, way⟩
  case whole => exact h.whole
  case met =>
    intro w
    rw [h.met, List.mem_append, List.mem_singleton]
    refine and_congr_right fun hw => or_congr_left ?_
    exact (or_iff_left fun same : w = n => straight (same ▸ hw)).symm

theorem Accounts.meet (h : f.Accounts v circular asked) (hn : n ∈ circular) :
    (f.meet n).Accounts v circular (asked ++ [n]) := by
  constructor
  case needed =>
    intro m hm
    rw [value?_meet] at hm
    obtain ⟨known, other, a, ha, way⟩ := h.needed m hm
    exact ⟨known, other, a, List.mem_append_left _ ha, way⟩
  case whole => simpa only [value?_meet] using h.whole
  case met =>
    intro w
    simp only [mem_met_meet, h.met, value?_meet, List.mem_append, List.mem_singleton]
    constructor
    · rintro (⟨hw, asked | refers⟩ | rfl)
      · exact ⟨hw, .inl (.inl asked)⟩
      · exact ⟨hw, .inr refers⟩
      · exact ⟨hn, .inl (.inr rfl)⟩
    · rintro ⟨hw, (asked | same) | refers⟩
      · exact .inl ⟨hw, .inl asked⟩
      · exact .inr same
      · exact .inl ⟨hw, .inr refers⟩

/-- Once all that was asked for is answered, the names with a value are those that are needed. -/
theorem Accounts.settled_iff (h : f.Accounts v circular asked)
    (answered : ∀ a ∈ asked, a ∈ v.names → a ∉ circular → (f.value? a).isSome) :
    (f.value? n).isSome ↔
      n ∈ v.names ∧ n ∉ circular ∧ ∃ a ∈ asked, ReflTransGen (v.Needs circular) a n := by
  constructor
  · exact h.needed n
  · rintro ⟨known, straight, a, ha, way⟩
    have begins : (f.value? a).isSome := by
      have first := Variables.straight_of_needs way known straight
      exact answered a ha first.1 first.2
    clear known straight
    induction way with
    | refl => exact begins
    | tail _ needs ih => exact h.whole _ _ ih needs

end Findings

namespace Errand

variable {e : Errand v} {f : Findings}

theorem refersTo_iff {w : Text} : v.RefersTo e.name w ↔ w ∈ referencedNames e.value := by
  have found : v.get? e.name = some e.value := Variables.get?_eq_some_value e.known
  simp [Variables.RefersTo, found]

theorem settled_conclude {n : Text} :
    ((e.conclude circular f).value? n).isSome ↔ n = e.name ∨ (f.value? n).isSome := by
  by_cases same : n = e.name
  · simp [same, value?_conclude_self]
  · simp [same, value?_conclude_of_ne same]

theorem mem_met_conclude {w : Text} : w ∈ (e.conclude circular f).met ↔
    w ∈ f.met ∨ w ∈ referencedNames e.value ∧ (w ∈ circular ∨ w ∈ e.branch) := by
  have met : (e.conclude circular f).met = (((referencedNames e.value).filter fun n =>
      n ∈ circular || n ∈ e.branch).foldl Findings.meet f).met := by
    rw [referencedNames, references, List.map_map]
    rfl
  rw [met, Findings.mem_met_foldl]
  simp

end Errand

namespace Pursuit

variable {p : Pursuit v}

/-- A pursuit for names that were asked for. -/
structure Accounts (circular asked : List Text) (p : Pursuit v) : Prop where
  findings : p.findings.Accounts v circular asked
  needed : ∀ e ∈ p.errands, ∃ a ∈ asked, ReflTransGen (v.Needs circular) a e.name

theorem Accounts.conclude (faithful : Faithful grounded p) (h : p.Accounts circular asked)
    {e : Errand v} (he : e ∈ p.errands) (done : e.missing circular p.findings = []) :
    (e.conclude circular p.findings).Accounts v circular asked := by
  constructor
  case needed =>
    intro n hn
    rcases Errand.settled_conclude.1 hn with rfl | hn
    · exact ⟨e.known, faithful.straight e he, h.needed e he⟩
    · exact h.findings.needed n hn
  case whole =>
    intro n b hn needs
    refine Errand.settled_conclude.2 (.inr ?_)
    rcases Errand.settled_conclude.1 hn with rfl | hn
    · obtain ⟨⟨value, found, refers, known⟩, -, straight⟩ := needs
      have here : b ∈ referencedNames e.value := Errand.refersTo_iff.1 ⟨value, found, refers⟩
      refine Errand.settled_of_done done here known straight fun on => ?_
      exact straight ((blocked_iff faithful he here).1 (.inr on))
    · exact h.findings.whole n b hn needs
  case met =>
    intro w
    rw [Errand.mem_met_conclude, h.findings.met]
    simp only [Errand.settled_conclude]
    constructor
    · rintro (⟨hw, asked | ⟨n, hn, refers⟩⟩ | ⟨refers, blocked⟩)
      · exact ⟨hw, .inl asked⟩
      · exact ⟨hw, .inr ⟨n, .inr hn, refers⟩⟩
      · exact ⟨(blocked_iff faithful he refers).1 blocked,
          .inr ⟨e.name, .inl rfl, Errand.refersTo_iff.2 refers⟩⟩
    · rintro ⟨hw, asked | ⟨n, rfl | hn, refers⟩⟩
      · exact .inl ⟨hw, .inl asked⟩
      · exact .inr ⟨Errand.refersTo_iff.1 refers, .inl hw⟩
      · exact .inl ⟨hw, .inr ⟨n, hn, refers⟩⟩

theorem Accounts.step (faithful : Faithful grounded p) (h : p.Accounts circular asked) :
    (p.step circular).Accounts circular asked := by
  rcases step_cases circular p with ⟨-, hs⟩ | ⟨e, errands, he, hs⟩
  · rwa [hs]
  have here : e ∈ p.errands := by simp [he]
  have later : ∀ d ∈ errands, ∃ a ∈ asked, ReflTransGen (v.Needs circular) a d.name :=
    fun d hd => h.needed d (by simp [he, hd])
  rcases hs with ⟨-, hs⟩ | ⟨-, done, hs⟩ | ⟨-, first, more, missing, hs⟩ <;> rw [hs]
  · exact ⟨h.findings, later⟩
  · exact ⟨h.conclude faithful here done, later⟩
  · refine ⟨h.findings, fun d hd => ?_⟩
    have all : d ∈ first :: more ∨ d ∈ p.errands := by
      rw [he]
      simpa only [List.mem_cons, List.mem_append, or_assoc] using hd
    rcases all with fresh | there
    · obtain ⟨a, ha, way⟩ := h.needed e here
      have needs := Errand.needs_of_missing (missing ▸ fresh) (faithful.straight e here)
      exact ⟨a, ha, way.tail needs.1⟩
    · exact h.needed d there

theorem Accounts.run (faithful : Faithful grounded p) (h : p.Accounts circular asked) :
    (p.run circular).Accounts circular asked := by
  fun_induction Pursuit.run circular p with
  | case1 => exact h
  | case2 p _ ih => exact ih faithful.step (h.step faithful)

end Pursuit

namespace Resolver

variable {r : Resolver}

/-- A sparing resolver that was asked for some names and nothing else. -/
structure Accounts (grounded : v.Grounded circular) (asked : List Text) (r : Resolver) : Prop where
  sparing : Sparing grounded r
  findings : r.findings.Accounts v circular asked
  answered : ∀ a ∈ asked, a ∈ v.names → a ∉ circular → (r.findings.value? a).isSome

theorem Accounts.resolve (h : Accounts grounded asked r) (n : Text) :
    Accounts grounded (asked ++ [n]) (r.resolve n).2 := by
  have sparing := h.sparing.resolve n
  have answered : ∀ a ∈ asked ++ [n], a ∈ v.names → a ∉ circular →
      ((r.resolve n).2.findings.value? a).isSome := by
    intro a ha known straight
    rcases List.mem_append.1 ha with ha | ha
    · obtain ⟨value, hv⟩ := Option.isSome_iff_exists.1 (h.answered a ha known straight)
      rw [(later_resolve r n).values a value hv]
      rfl
    · obtain rfl := List.eq_of_mem_singleton ha
      have same := h.sparing.faithful
      obtain ⟨value, given⟩ := Option.isSome_iff_exists.1
        (resolve_isSome_iff.2 ⟨same.same_circular ▸ straight, same.same_table ▸ known⟩)
      rw [value?_resolve given]
      rfl
  refine ⟨sparing, ?_, answered⟩
  obtain ⟨table, names, findings⟩ := r
  obtain ⟨⟨⟨rfl, rfl, values⟩, -⟩, accounts, -⟩ := h
  by_cases hc : n ∈ names
  · rw [resolve_of_circular hc]
    exact accounts.meet hc
  by_cases hk : n ∈ table.names
  · cases hv : findings.value? n with
    | some value =>
        rw [resolve_of_value? hc hk hv]
        exact accounts.ask hc
    | none =>
        have start : Pursuit.Faithful grounded (pursuit ⟨table, names, findings⟩ n hk) :=
          ⟨values, by simp [pursuit, hc], by simp [pursuit]⟩
        have first : (pursuit ⟨table, names, findings⟩ n hk).Accounts names (asked ++ [n]) := by
          refine ⟨accounts.ask hc, fun e he => ?_⟩
          obtain rfl := List.eq_of_mem_singleton he
          exact ⟨n, List.mem_append_right _ (List.mem_singleton.2 rfl), .refl⟩
        rw [resolve_of_fresh hc hk hv]
        exact (first.run start).findings
  · rw [resolve_of_unknown hc hk]
    exact accounts.ask hc

theorem Accounts.after (h : Accounts grounded asked r) (names : List Text) :
    Accounts grounded (asked ++ names) (r.after (names.map .resolve)) := by
  induction names generalizing asked r with
  | nil => rwa [List.append_nil]
  | cons n names ih =>
      rw [← List.singleton_append, ← List.append_assoc]
      exact ih (h.resolve n)

theorem accounts_ofCircular (grounded : v.Grounded circular) :
    Accounts grounded [] (ofCircular v circular) :=
  ⟨sparing_ofCircular grounded, Findings.accounts_empty, by simp⟩

/-- What a resolver warns of when it is asked for some names, and the circular names leave the table
grounded. It warns of a name once. It warns of the circular names among those asked for, and of those that
a value refers to which is needed for one of the others, and of no more, in whatever order it is asked. -/
theorem warned_iff (grounded : v.Grounded circular) (asked : List Text) (source : Option String) :
    let met := ((ofCircular v circular).after (asked.map .resolve)).findings.met
    let words := (Event.diagnostics source (met.map .skipped)).map Diagnostic.word
    words.Nodup ∧
    ∀ word, word ∈ words ↔ ∃ w ∈ circular, word = some (String.ofList w) ∧
      (w ∈ asked ∨ ∃ a ∈ asked, a ∉ circular ∧ ∃ n ∈ v.names, n ∉ circular ∧
        ReflTransGen (v.Needs circular) a n ∧ v.RefersTo n w) := by
  intro met words
  have accounts : Accounts grounded asked ((ofCircular v circular).after (asked.map .resolve)) :=
    (accounts_ofCircular grounded).after asked
  have told : words = met.map fun n => some (String.ofList n) := by
    show (Event.diagnostics source (met.map .skipped)).map Diagnostic.word = _
    rw [Event.diagnostics, List.filterMap_map, List.map_filterMap, ← List.filterMap_eq_map']
    rfl
  have met_iff (w : Text) : w ∈ met ↔ w ∈ circular ∧ (w ∈ asked ∨ ∃ a ∈ asked, a ∉ circular ∧
      ∃ n ∈ v.names, n ∉ circular ∧ ReflTransGen (v.Needs circular) a n ∧ v.RefersTo n w) := by
    rw [accounts.findings.met]
    refine and_congr_right fun _ => or_congr_right ?_
    constructor
    · rintro ⟨n, hn, refers⟩
      obtain ⟨known, straight, a, ha, way⟩ :=
        (accounts.findings.settled_iff accounts.answered).1 hn
      have first := Variables.straight_of_needs way known straight
      exact ⟨a, ha, first.2, n, known, straight, way, refers⟩
    · rintro ⟨a, ha, -, n, known, straight, way, refers⟩
      exact ⟨n, (accounts.findings.settled_iff accounts.answered).2
        ⟨known, straight, a, ha, way⟩, refers⟩
  rw [told]
  constructor
  · exact accounts.sparing.findings.once.map fun a b same =>
      String.ofList_injective (Option.some.inj same)
  · intro word
    rw [List.mem_map]
    constructor
    · rintro ⟨w, hw, rfl⟩
      obtain ⟨circular, why⟩ := (met_iff w).1 hw
      exact ⟨w, circular, rfl, why⟩
    · rintro ⟨w, hw, rfl, why⟩
      exact ⟨w, (met_iff w).2 ⟨hw, why⟩, rfl⟩

/-- A value that needs two others, each of which refers to a circular name. -/
def thicket : Variables :=
  .ofList
    [("--a".toList, "var(--b) var(--c, var(--x))".toList), ("--b".toList, "var(--k)".toList),
      ("--c".toList, "1 var(--u) var(--b)".toList), ("--k".toList, "var(--k)".toList),
      ("--x".toList, "var(--x)".toList)]

/-- A name without a value may be taken for circular. What stands in a fallback is not met. -/
theorem warned_iff_thicket :
    let circular := "--u".toList :: thicket.circular
    let asked := ["--c", "--a", "--u", "--a", "--none"].map String.toList
    let met := ((ofCircular thicket circular).after (asked.map .resolve)).findings.met
    let words := (Event.diagnostics none (met.map .skipped)).map Diagnostic.word
    thicket.Grounded circular ∧ words.Nodup ∧ some "--k" ∈ words ∧
      words = [some "--k", some "--u"] := by
  intro circular asked met words
  have grounded : thicket.Grounded circular :=
    thicket.grounded_circular.mono (List.subset_cons_self _ _)
  obtain ⟨once, whence⟩ := warned_iff grounded asked none
  have needs : thicket.Needs circular "--c".toList "--b".toList := by decide +kernel
  have refers : thicket.RefersTo "--b".toList "--k".toList :=
    ⟨"var(--k)".toList, by decide +kernel, by decide +kernel⟩
  have met : some "--k" ∈ words :=
    (whence _).2 ⟨"--k".toList, by decide +kernel, by decide, .inr ⟨"--c".toList, by decide,
      by decide +kernel, "--b".toList, by decide +kernel, by decide +kernel, .single needs, refers⟩⟩
  exact ⟨grounded, once, met, by decide +kernel⟩

end Resolver

end CustomProperties
