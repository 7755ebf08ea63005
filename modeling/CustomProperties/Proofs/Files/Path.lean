import CustomProperties.Files.Path

/-!
Paths and how they are written. A path with proper components is read again from its text, so that two
such paths with one text are the same.
-/

namespace CustomProperties.Path

/-- A text that can be a component: neither empty nor a single dot, and without a slash. -/
structure Proper (part : String) : Prop where
  full : part.toList ≠ []
  named : part.toList ≠ ['.']
  whole : '/' ∉ part.toList

instance (part : String) : Decidable (Proper part) :=
  decidable_of_iff (part.toList ≠ [] ∧ part.toList ≠ ['.'] ∧ '/' ∉ part.toList)
    ⟨fun ⟨full, named, whole⟩ => ⟨full, named, whole⟩, fun h => ⟨h.full, h.named, h.whole⟩⟩

/-- A path that can be read from a text. -/
structure Written (p : Path) : Prop where
  root : p.root = "" ∨ p.root = "/" ∨ p.root = "//"
  parts : ∀ part ∈ p.parts, Proper part

theorem between_of_whole {cs : List Char} (whole : '/' ∉ cs) : between cs = [cs] := by
  induction cs with
  | nil => rfl
  | cons c cs ih =>
      have other : c ≠ '/' := (List.ne_of_not_mem_cons whole).symm
      rw [between, ih (List.not_mem_of_not_mem_cons whole), if_neg other]
      rfl

theorem between_append {cs : List Char} (whole : '/' ∉ cs) (rest : List Char) :
    between (cs ++ '/' :: rest) = cs :: between rest := by
  induction cs with
  | nil => rw [List.nil_append, between, if_pos rfl]
  | cons c cs ih =>
      have other : c ≠ '/' := (List.ne_of_not_mem_cons whole).symm
      rw [List.cons_append, between, ih (List.not_mem_of_not_mem_cons whole), if_neg other]
      rfl

theorem whole_of_between {cs part : List Char} (there : part ∈ between cs) : '/' ∉ part := by
  induction cs generalizing part with
  | nil =>
      obtain rfl := List.eq_of_mem_singleton there
      exact List.not_mem_nil
  | cons c cs ih =>
      rw [between] at there
      split at there
      · rcases List.mem_cons.1 there with rfl | there
        · exact List.not_mem_nil
        · exact ih there
      · rename_i other
        rcases List.mem_cons.1 there with rfl | there
        · refine List.not_mem_cons_of_ne_of_not_mem (Ne.symm other) fun slash => ?_
          cases texts : between cs with
          | nil => simp [texts] at slash
          | cons first more => exact ih (texts ▸ List.mem_cons_self ..) (by simpa [texts] using slash)
        · exact ih (List.mem_of_mem_tail there)

theorem between_intercalate {parts : List (List Char)} (some_part : parts ≠ [])
    (whole : ∀ part ∈ parts, '/' ∉ part) : between (['/'].intercalate parts) = parts := by
  induction parts with
  | nil => exact absurd rfl some_part
  | cons part parts ih =>
      cases parts with
      | nil =>
          rw [List.intercalate_singleton]
          exact between_of_whole (whole part (List.mem_cons_self ..))
      | cons next parts =>
          rw [List.intercalate_cons_cons, List.append_assoc, List.singleton_append,
            between_append (whole part (List.mem_cons_self ..)),
            ih (by simp) fun p hp => whole p (List.mem_cons_of_mem _ hp)]

theorem written_ofString (s : String) : (ofString s).Written := by
  constructor
  case root =>
    show rootOf s = "" ∨ rootOf s = "/" ∨ rootOf s = "//"
    rw [rootOf]
    split
    · exact .inl rfl
    · exact .inr (.inr rfl)
    · exact .inr (.inl rfl)
  case parts =>
    intro part there
    obtain ⟨text, kept, rfl⟩ := List.mem_map.1 there
    obtain ⟨between, kept⟩ := List.mem_filter.1 kept
    simp only [ne_eq, bne_iff_ne, Bool.and_eq_true] at kept
    constructor
    case full => rw [String.toList_ofList]; exact kept.1
    case named => rw [String.toList_ofList]; exact kept.2
    case whole => rw [String.toList_ofList]; exact whole_of_between between

theorem components_intercalate {parts : List String} (proper : ∀ part ∈ parts, Proper part)
    {root : String} (slashes : ∀ c ∈ root.toList, c = '/') :
    components (root ++ "/".intercalate parts) = parts := by
  have behind (front : List Char) (slashes : ∀ c ∈ front, c = '/') (cs : List Char) :
      (between (front ++ cs)).filter (fun part => part != [] && part != ['.']) =
        (between cs).filter (fun part => part != [] && part != ['.']) := by
    induction front with
    | nil => rfl
    | cons c front ih =>
        rw [List.cons_append, between, if_pos (slashes c (List.mem_cons_self ..)),
          List.filter_cons_of_neg (by simp), ih fun c hc => slashes c (List.mem_cons_of_mem _ hc)]
  rw [components, String.toList_append, behind _ slashes, String.toList_intercalate]
  cases parts with
  | nil => rfl
  | cons part parts =>
      have whole : ∀ text ∈ (part :: parts).map String.toList, '/' ∉ text := by
        intro text there
        obtain ⟨p, hp, rfl⟩ := List.mem_map.1 there
        exact (proper p hp).whole
      have kept : ∀ text ∈ (part :: parts).map String.toList,
          (text != [] && text != ['.']) = true := by
        intro text there
        obtain ⟨p, hp, rfl⟩ := List.mem_map.1 there
        rw [Bool.and_eq_true, bne_iff_ne, bne_iff_ne]
        exact ⟨(proper p hp).full, (proper p hp).named⟩
      rw [show "/".toList = ['/'] from rfl, between_intercalate (by simp) whole,
        List.filter_eq_self.2 kept, List.map_map]
      exact (List.map_congr_left fun p _ => String.ofList_toList).trans (List.map_id _)

theorem rootOf_intercalate {parts : List String} (proper : ∀ part ∈ parts, Proper part)
    {root : String} (known : root = "" ∨ root = "/" ∨ root = "//") :
    rootOf (root ++ "/".intercalate parts) = root := by
  -- The first component starts with another character, if there is one.
  have stop : ("/".intercalate parts).toList.takeWhile (· == '/') = [] := by
    rw [String.toList_intercalate]
    cases parts with
    | nil => rfl
    | cons part parts =>
        have first := proper part (List.mem_cons_self ..)
        obtain ⟨c, cs, text⟩ := List.exists_cons_of_ne_nil first.full
        have other : c ≠ '/' := fun slash => first.whole (by simp [text, slash])
        have starts : ∃ rest, ("/".toList).intercalate ((part :: parts).map String.toList) =
            c :: rest := by
          cases parts with
          | nil => exact ⟨cs, by rw [List.map_singleton, List.intercalate_singleton, text]⟩
          | cons next parts =>
              exact ⟨_, by rw [List.map_cons, List.map_cons, List.intercalate_cons_cons, text]; rfl⟩
        obtain ⟨rest, starts⟩ := starts
        rw [starts, List.takeWhile_cons_of_neg (by simpa using other)]
  rw [rootOf, String.toList_append]
  generalize ("/".intercalate parts).toList = behind at stop ⊢
  rcases known with rfl | rfl | rfl <;> simp [stop]

/-- A path that can be read from a text is read from its own. -/
theorem ofString_toString {p : Path} (written : p.Written) : ofString p.toString = p := by
  obtain ⟨root, parts⟩ := p
  obtain ⟨known, proper⟩ := written
  rw [toString]
  split
  · rename_i bare
    obtain ⟨rfl, rfl⟩ := bare
    decide
  · have slashes : ∀ c ∈ root.toList, c = '/' := by
      rcases known with rfl | rfl | rfl <;> simp
    rw [ofString, rootOf_intercalate proper known, components_intercalate proper slashes]

theorem toString_injective {p q : Path} (hp : p.Written) (hq : q.Written)
    (same : p.toString = q.toString) : p = q := by
  rw [← ofString_toString hp, same, ofString_toString hq]

end CustomProperties.Path
