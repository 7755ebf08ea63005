import CustomProperties.Variables.Graph

/-!
The work of resolution: finding out the values of variables from a list of errands. The first
errand is done when all the values that its name needs are there; else errands for the missing ones
are put in front of it. Values that were computed are remembered, and so are the circular names
that were met, each once and in the order in which they were met.

The names that count as circular are given. Should they not be all, then a name that is met again
while its own value is being computed is taken for circular too, so that the work always ends.
-/

namespace CustomProperties

/-- What resolution has found out: values, and the circular names met. -/
structure Findings where
  values : List (Text × Text)
  met : List Text
deriving Repr

namespace Findings

def empty : Findings := ⟨[], []⟩

def value? (f : Findings) (name : Text) : Option Text := f.values.lookup name

def meet (f : Findings) (name : Text) : Findings :=
  if name ∈ f.met then f else { f with met := f.met ++ [name] }

def record (f : Findings) (name value : Text) : Findings :=
  { f with values := (name, value) :: f.values }

@[simp] theorem value?_meet (f : Findings) (name n : Text) :
    (f.meet name).value? n = f.value? n := by
  unfold meet
  split <;> rfl

@[simp] theorem value?_foldl_meet (f : Findings) (names : List Text) (n : Text) :
    (names.foldl meet f).value? n = f.value? n := by
  induction names generalizing f with
  | nil => rfl
  | cons name names ih => rw [List.foldl_cons, ih, value?_meet]

theorem value?_record (f : Findings) (name value n : Text) :
    (f.record name value).value? n = if n = name then some value else f.value? n := by
  by_cases h : n = name
  · simp [record, value?, h]
  · simp [record, value?, List.lookup_cons, beq_eq_false_iff_ne.2 h, h]

end Findings

/-- What a reference becomes when `resolved` is the value of its name, if it has one. -/
def Reference.substitute (r : Reference) (resolved : Option Text) : Text :=
  (resolved.or r.ownFallback?).getD r.text

/-- A name whose value is to be found out, while the values of the names of `path` are. -/
structure Errand (v : Variables) where
  name : Text
  path : List Text
  known : name ∈ v.names
  fresh : name ∉ path

namespace Errand

variable {v : Variables}

def value (e : Errand v) : Text := v.value e.name e.known

def branch (e : Errand v) : List Text := e.name :: e.path

def missing (circular : List Text) (f : Findings) (e : Errand v) : List (Errand v) :=
  (referencedNames e.value).filterMap fun n =>
    if h : n ∈ v.names ∧ n ∉ circular ∧ n ∉ e.branch ∧ f.value? n = none then
      some ⟨n, e.branch, h.1, h.2.2.1⟩
    else none

def conclude (circular : List Text) (f : Findings) (e : Errand v) : Findings :=
  let d := dissect e.value
  let blocked (n : Text) : Bool := n ∈ circular || n ∈ e.branch
  let met := (d.references.map fun (r, _) => r.name).filter blocked
  let result := d.replace fun r =>
    r.substitute (if blocked r.name then none else f.value? r.name)
  (met.foldl Findings.meet f).record e.name result

theorem value?_conclude_self (circular : List Text) (f : Findings) (e : Errand v) :
    ((e.conclude circular f).value? e.name).isSome := by
  simp [conclude, Findings.value?_record]

theorem value?_conclude_of_ne {circular : List Text} {f : Findings} {e : Errand v} {n : Text}
    (h : n ≠ e.name) : (e.conclude circular f).value? n = f.value? n := by
  simp [conclude, Findings.value?_record, h]

end Errand

structure Pursuit (v : Variables) where
  errands : List (Errand v)
  findings : Findings

namespace Pursuit

variable {v : Variables}

def step (circular : List Text) (p : Pursuit v) : Pursuit v :=
  match p.errands with
  | [] => p
  | e :: errands =>
      if (p.findings.value? e.name).isSome then { p with errands }
      else
        match e.missing circular p.findings with
        | [] => ⟨errands, e.conclude circular p.findings⟩
        | first :: more => { p with errands := first :: (more ++ e :: errands) }

theorem step_settled {circular : List Text} {e : Errand v} {errands : List (Errand v)}
    {f : Findings} (h : (f.value? e.name).isSome) :
    step circular ⟨e :: errands, f⟩ = ⟨errands, f⟩ := by
  simp [step, h]

theorem step_conclude {circular : List Text} {e : Errand v} {errands : List (Errand v)}
    {f : Findings} (h : f.value? e.name = none) (done : e.missing circular f = []) :
    step circular ⟨e :: errands, f⟩ = ⟨errands, e.conclude circular f⟩ := by
  simp [step, h, done]

theorem step_missing {circular : List Text} {e first : Errand v} {errands more : List (Errand v)}
    {f : Findings} (h : f.value? e.name = none) (hm : e.missing circular f = first :: more) :
    step circular ⟨e :: errands, f⟩ = ⟨first :: (more ++ e :: errands), f⟩ := by
  simp [step, h, hm]

/-- How many references all values together hold. -/
def breadth (v : Variables) : Nat :=
  (v.entries.map fun entry => referencedNames entry.2).flatten.length

def unsettled (v : Variables) (f : Findings) : List Text :=
  v.names.filter fun n => f.value? n = none

/-- The names that may still come behind a path. -/
def beyond (v : Variables) (path : List Text) : List Text := v.names.filter (· ∉ path)

/-- What the list of errands adds to the bound on the steps. An errand whose value is there only
has to be dropped, but then the path of the next one may be shorter. -/
def load (f : Findings) : List (Errand v) → Nat
  | [] => 0
  | e :: errands =>
      errands.length + 1 +
        if (f.value? e.name).isSome then (breadth v + 1) * v.names.length
        else (breadth v + 1) * (beyond v e.path).length

/-- A bound on the steps that a pursuit still takes. -/
def weight (p : Pursuit v) : Nat :=
  load p.findings p.errands +
    (breadth v + 1) * v.names.length * (unsettled v p.findings).length

theorem load_cons_settled {f : Findings} {e : Errand v} (h : (f.value? e.name).isSome)
    (errands : List (Errand v)) :
    load f (e :: errands) = errands.length + 1 + (breadth v + 1) * v.names.length := by
  simp [load, h]

theorem load_cons_unsettled {f : Findings} {e : Errand v} (h : f.value? e.name = none)
    (errands : List (Errand v)) :
    load f (e :: errands) = errands.length + 1 + (breadth v + 1) * (beyond v e.path).length := by
  simp [load, h]

theorem load_le (f : Findings) (errands : List (Errand v)) :
    load f errands ≤ errands.length + (breadth v + 1) * v.names.length := by
  cases errands with
  | nil => simp [load]
  | cons e errands =>
      have := Nat.mul_le_mul_left (breadth v + 1)
        (List.length_filter_le (fun n => decide (n ∉ e.path)) v.names)
      simp only [load, beyond, List.length_cons]
      split <;> omega

theorem length_beyond_cons_lt {name : Text} {path : List Text} (known : name ∈ v.names)
    (fresh : name ∉ path) : (beyond v (name :: path)).length < (beyond v path).length := by
  have fewer : beyond v (name :: path) = (beyond v path).filter (· ≠ name) := by
    rw [beyond, beyond, List.filter_filter]
    exact List.filter_congr fun a _ => by simp [not_or]
  rw [fewer]
  exact List.length_filter_lt_length_iff_exists.2 ⟨name, by simp [beyond, known, fresh], by simp⟩

theorem length_missing_le (circular : List Text) (f : Findings) (e : Errand v) :
    (e.missing circular f).length ≤ breadth v := by
  have here : referencedNames e.value ∈ v.entries.map fun entry => referencedNames entry.2 :=
    List.mem_map.2 ⟨_, Variables.mem_entries_value e.known, rfl⟩
  calc (e.missing circular f).length
      ≤ (referencedNames e.value).length := List.length_filterMap_le ..
    _ ≤ breadth v := (List.sublist_flatten_of_mem here).length_le

theorem length_unsettled_conclude_lt (circular : List Text) {f : Findings} {e : Errand v}
    (h : f.value? e.name = none) :
    (unsettled v (e.conclude circular f)).length < (unsettled v f).length := by
  have fewer : unsettled v (e.conclude circular f) = (unsettled v f).filter (· ≠ e.name) := by
    rw [unsettled, unsettled, List.filter_filter]
    refine List.filter_congr fun n _ => ?_
    by_cases hn : n = e.name
    · subst hn
      have := e.value?_conclude_self circular f
      simp [Option.isSome_iff_ne_none.1 this]
    · simp [hn, Errand.value?_conclude_of_ne hn]
  rw [fewer]
  exact List.length_filter_lt_length_iff_exists.2
    ⟨e.name, by simp [unsettled, e.known, h], by simp⟩

theorem missing_value? {circular : List Text} {f : Findings} {e first : Errand v}
    {more : List (Errand v)} (h : e.missing circular f = first :: more) :
    f.value? first.name = none ∧ first.path = e.branch := by
  have mem : first ∈ e.missing circular f := by simp [h]
  obtain ⟨n, _, made⟩ := List.mem_filterMap.1 mem
  split at made
  · rename_i needed
    obtain rfl := Option.some.inj made
    exact ⟨needed.2.2.2, rfl⟩
  · simp at made

theorem weight_step_lt {circular : List Text} {p : Pursuit v} (h : p.errands ≠ []) :
    (p.step circular).weight < p.weight := by
  obtain ⟨errands, f⟩ := p
  cases errands with
  | nil => contradiction
  | cons e errands =>
      by_cases settled : (f.value? e.name).isSome
      · have := load_le f errands
        rw [step_settled settled]
        simp only [weight, load_cons_settled settled]
        omega
      · have unknown : f.value? e.name = none := by simpa using settled
        cases hm : e.missing circular f with
        | nil =>
            have fewer := length_unsettled_conclude_lt circular unknown
            have paid := Nat.mul_le_mul_left ((breadth v + 1) * v.names.length) fewer
            have := load_le (e.conclude circular f) errands
            rw [step_conclude unknown hm]
            simp only [weight, load_cons_unsettled unknown, Nat.mul_succ] at paid ⊢
            omega
        | cons first more =>
            obtain ⟨fresh, path⟩ := missing_value? hm
            have few := length_missing_le circular f e
            have paid := Nat.mul_le_mul_left (breadth v + 1) (length_beyond_cons_lt e.known e.fresh)
            rw [hm, List.length_cons] at few
            rw [Nat.mul_succ] at paid
            rw [step_missing unknown hm]
            simp only [weight, load_cons_unsettled unknown, load_cons_unsettled fresh, path,
              Errand.branch, List.length_append, List.length_cons]
            omega

def run (circular : List Text) (p : Pursuit v) : Pursuit v :=
  if p.errands = [] then p else (p.step circular).run circular
termination_by p.weight
decreasing_by exact weight_step_lt ‹_›

end Pursuit

end CustomProperties
