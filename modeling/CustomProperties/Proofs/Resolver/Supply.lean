import CustomProperties.Proofs.Resolver.Memory
import CustomProperties.Proofs.Value.Dissection

/-!
Supplying the references of a value. What becomes of a reference depends on the answer for its name
alone, and a resolver gives that answer again later on. So the new value can be told from the
answers of any resolver that comes after.
-/

namespace CustomProperties

/-- What a reference becomes when `resolved` is the value of its name, if it has one. -/
def Reference.supplied (ref : Reference) : Option Text → Text
  | some (c :: value) => ref.withFallback (c :: value)
  | _ => ref.text

def suppliedValue (answer : Text → Option Text) (value : Text) : Text :=
  (dissect value).replace fun ref => ref.supplied (answer ref.name)

/-- True if an answer changes a reference of the value. -/
def changesValue (answer : Text → Option Text) (value : Text) : Bool :=
  (references value).any fun ref => ref.supplied (answer ref.name) != ref.text

theorem suppliedValue_of_unchanged {answer : Text → Option Text} {value : Text}
    (h : changesValue answer value = false) : suppliedValue answer value = value := by
  have same : ∀ ref ∈ references value, ref.supplied (answer ref.name) = ref.text := by
    simpa [changesValue, List.any_eq_false] using h
  rw [suppliedValue, Dissection.replace_congr same]
  exact render_dissect value

theorem suppliedValue_none : suppliedValue (fun _ => none) = id :=
  funext fun _ => suppliedValue_of_unchanged (by simp [changesValue, Reference.supplied])

namespace Resolver

variable {r s : Resolver} {kept : List Text}

def answer (s : Resolver) (kept : List Text) (n : Text) : Option Text :=
  if n ∈ kept then none else (s.resolve n).1

theorem answer_kept {n : Text} (h : n ∈ kept) : s.answer kept n = none :=
  if_pos h

theorem answer_asked {n : Text} (h : n ∉ kept) : s.answer kept n = (s.resolve n).1 :=
  if_neg h

theorem supplyReference_fst (r : Resolver) (kept : List Text) (ref : Reference) :
    (r.supplyReference kept ref).1 = ref.supplied (r.answer kept ref.name) := by
  by_cases hk : ref.name ∈ kept
  · rw [supplyReference, if_pos hk, answer_kept hk]
    rfl
  · rw [supplyReference, if_neg hk, answer_asked hk]
    generalize r.resolve ref.name = given
    obtain ⟨_ | _ | ⟨c, value⟩, s⟩ := given <;> rfl

theorem Later.answer_eq {ref : Reference} (h : Later (r.supplyReference kept ref).2 s) :
    s.answer kept ref.name = r.answer kept ref.name := by
  rw [supplyReference_snd] at h
  by_cases hk : ref.name ∈ kept
  · rw [answer_kept hk, answer_kept hk]
  · rw [if_neg hk] at h
    rw [answer_asked hk, answer_asked hk, h.resolve_eq]

theorem Later.supplyReferences (kept : List Text) (refs : List (Reference × Text)) (r : Resolver) :
    Later r (r.supplyReferences kept refs).2 :=
  invariant_supplyReferences (P := Later r) (fun r' n h => h.trans (later_resolve r' n)) kept refs
    (.refl r)

theorem supplyReferences_fst {refs : List (Reference × Text)}
    (h : Later (r.supplyReferences kept refs).2 s) :
    (r.supplyReferences kept refs).1 =
      (refs.flatMap fun (ref, behind) => ref.supplied (s.answer kept ref.name) ++ behind,
        refs.any fun (ref, _) => ref.supplied (s.answer kept ref.name) != ref.text) := by
  induction refs generalizing r with
  | nil => rfl
  | cons pair refs ih =>
      obtain ⟨ref, behind⟩ := pair
      have rest := ih (r := (r.supplyReference kept ref).2) h
      have first : (r.supplyReference kept ref).1 = ref.supplied (s.answer kept ref.name) := by
        rw [supplyReference_fst, Later.answer_eq ((Later.supplyReferences kept refs _).trans h)]
      show ((r.supplyReference kept ref).1 ++ behind ++
          ((r.supplyReference kept ref).2.supplyReferences kept refs).1.1,
        (r.supplyReference kept ref).1 != ref.text ||
          ((r.supplyReference kept ref).2.supplyReferences kept refs).1.2) = _
      rw [first, rest]
      simp

/-- What becomes of a value, told from the answers of a resolver that comes after. -/
theorem supplyValue_fst {value : Text} (h : Later (r.supplyValue kept value).2 s) :
    (r.supplyValue kept value).1 =
      (suppliedValue (s.answer kept) value, changesValue (s.answer kept) value) := by
  have all := supplyReferences_fst h
  have same : changesValue (s.answer kept) value = (r.supplyReferences kept
      (dissect value).references).1.2 := by
    rw [all, changesValue, references, List.any_map]
    rfl
  show (if (r.supplyReferences kept (dissect value).references).1.2 then
      ((dissect value).before ++ (r.supplyReferences kept (dissect value).references).1.1, true)
    else (value, false)) = _
  rw [← same]
  cases changes : changesValue (s.answer kept) value with
  | true => simp [all, suppliedValue, Dissection.replace]
  | false => simp [suppliedValue_of_unchanged changes]

section Faithful

variable {v : Variables} {circular : List Text} {grounded : v.Grounded circular}

theorem Faithful.answer_eq (h : Faithful grounded r) :
    r.answer circular = v.resolution circular grounded := by
  funext n
  by_cases hn : n ∈ circular
  · rw [answer_kept hn, Variables.resolution_of_circular grounded hn]
  · rw [answer_asked hn, (h.resolve n).1]

theorem Faithful.answer_congr (h : Faithful grounded r) (h' : Faithful grounded s)
    (kept : List Text) : r.answer kept = s.answer kept := by
  funext n
  by_cases hk : n ∈ kept
  · rw [answer_kept hk, answer_kept hk]
  · rw [answer_asked hk, answer_asked hk, (h.resolve n).1, (h'.resolve n).1]

theorem Faithful.supplyValue_fst (h : Faithful grounded r) (h' : Faithful grounded s)
    (kept : List Text) (value : Text) : (r.supplyValue kept value).1 =
      (suppliedValue (s.answer kept) value, changesValue (s.answer kept) value) := by
  have later : Faithful grounded (r.supplyValue kept value).2 := h.after [.supply kept value]
  rw [Resolver.supplyValue_fst (Later.refl _), later.answer_congr h']

/-- A faithful resolver supplies the references of a declaration, and counts it if one of them
changes. -/
theorem Faithful.supplyDeclaration (h : Faithful grounded r) (h' : Faithful grounded s)
    (kept : List Text) (count : Nat) (d : Declaration) :
    (supplyDeclaration kept (r, count) d).1 = d.assign (suppliedValue (s.answer kept) d.value) ∧
      Faithful grounded (supplyDeclaration kept (r, count) d).2.1 ∧
      (supplyDeclaration kept (r, count) d).2.2 =
        count + if changesValue (s.answer kept) d.value then 1 else 0 := by
  have later : Faithful grounded (r.supplyValue kept d.value).2 := h.after [.supply kept d.value]
  have value := h.supplyValue_fst h' kept d.value
  rw [Resolver.supplyDeclaration]
  generalize r.supplyValue kept d.value = given at later value
  obtain ⟨⟨text, changed⟩, next⟩ := given
  obtain ⟨rfl, rfl⟩ := Prod.mk.inj value
  cases changes : changesValue (s.answer kept) d.value with
  | true => exact ⟨rfl, later, rfl⟩
  | false => exact ⟨by rw [suppliedValue_of_unchanged changes]; rfl, later, rfl⟩

end Faithful

end Resolver

end CustomProperties
