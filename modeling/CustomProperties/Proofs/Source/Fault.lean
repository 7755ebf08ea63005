import CustomProperties.Proofs.Source.Cache

/-!
The sources whose paths no system takes. In a tree with proper names a path meets a zero character only
where the source or its base directory has one, since all that a canonical path is made of comes from
these, from the working directory and from the targets of links. What else may be wrong with a source
is a failure of its own and ends nothing.
-/

namespace CustomProperties

def Path.Clean (s : String) : Prop := Char.ofNat 0 ∉ s.toList

instance (s : String) : Decidable (Path.Clean s) := inferInstanceAs (Decidable (_ ∉ _))

namespace Path

theorem between_ne_nil (cs : List Char) : between cs ≠ [] := by
  cases cs with
  | nil => simp [between]
  | cons c rest =>
      rw [between]
      split <;> simp

theorem mem_between_iff {c : Char} (other : c ≠ '/') (cs : List Char) :
    (∃ part ∈ between cs, c ∈ part) ↔ c ∈ cs := by
  induction cs with
  | nil => simp [between]
  | cons d rest ih =>
      rw [between, List.mem_cons, ← ih]
      obtain ⟨first, more, texts⟩ := List.exists_cons_of_ne_nil (between_ne_nil rest)
      by_cases slash : d = '/'
      · simp [slash, other]
      · simp [slash, texts, or_assoc]

theorem clean_ofString_iff (s : String) :
    (∀ part ∈ (ofString s).parts, Clean part) ↔ Clean s := by
  have whole := not_congr (mem_between_iff (c := Char.ofNat 0) (by decide) s.toList)
  push Not at whole
  rw [Clean, ← whole]
  constructor
  · intro clean part there zero
    -- A part with a zero character is neither empty nor a single dot.
    have full : part ≠ [] := List.ne_nil_of_mem zero
    have other : part ≠ ['.'] := fun dot =>
      absurd (List.eq_of_mem_singleton (dot ▸ zero)) (by decide)
    have kept : String.ofList part ∈ (ofString s).parts :=
      List.mem_map.2 ⟨part, List.mem_filter.2 ⟨there, by simp [full, other]⟩, rfl⟩
    exact clean _ kept (by rwa [String.toList_ofList])
  · rintro clean part there zero
    obtain ⟨text, kept, rfl⟩ := List.mem_map.1 there
    exact clean text (List.mem_filter.1 kept).1 (by rwa [String.toList_ofList] at zero)

theorem hasNul_eq_false_iff {p : Path} : p.hasNul = false ↔ ∀ part ∈ p.parts, Clean part := by
  simp [hasNul, Clean]

theorem hasNul_ofString (s : String) : (ofString s).hasNul = false ↔ Clean s :=
  hasNul_eq_false_iff.trans (clean_ofString_iff s)

theorem hasNul_under {p b : Path} (relative : p.isAbsolute = false) :
    (p.under b).hasNul = false ↔ b.hasNul = false ∧ p.hasNul = false := by
  simp [under, relative, hasNul_eq_false_iff, or_imp, forall_and]

end Path

namespace FileTree

/-- No zero character stands in the working directory of a tree, nor in what its links lead to. -/
structure Clean (t : FileTree) : Prop where
  current : ∀ part ∈ t.current, Path.Clean part
  targets : ∀ target, Entry.link target ∈ t.inhabitants → Path.Clean target

variable {t : FileTree}

/-- What the parts of a place are made of. -/
theorem forall_canonicalParts {P : String → Prop}
    (targets : ∀ place target, t.entry? place = some (.link target) →
      ∀ part ∈ Path.components target, P part)
    (depth : Nat) (followed : List (List String)) {here parts : List String}
    (from_here : ∀ part ∈ here, P part) (along : ∀ part ∈ parts, P part) :
    ∀ part ∈ (t.canonicalParts depth followed here parts).1, P part := by
  induction depth generalizing followed here parts with
  | zero =>
      intro part there
      rcases List.mem_append.1 there with there | there
      · exact from_here part there
      · exact along part there
  | succ depth ih =>
      rw [canonicalParts]
      refine List.foldlRecOn parts _
        (motive := fun state : List String × Bool => ∀ part ∈ state.1, P part) from_here ?_
      rintro ⟨here, straight⟩ within part there
      have next : ∀ p ∈ here ++ [part], P p := by
        intro p hp
        rcases List.mem_append.1 hp with hp | hp
        · exact within p hp
        · exact List.eq_of_mem_singleton hp ▸ along part there
      dsimp only
      split
      · exact next
      · split
        · exact fun p hp => within p ((List.dropLast_sublist here).subset hp)
        · split
          · rename_i target link
            split
            · exact next
            · refine ih _ ?_ (targets _ _ link)
              rw [linkOrigin]
              split
              · exact fun p hp => absurd hp List.not_mem_nil
              · exact within
          · exact next

theorem Clean.canonical (clean : t.Clean) {p : Path} (along : p.hasNul = false) :
    (t.canonical p).hasNul = false := by
  have from_origin : ∀ part ∈ t.origin p, Path.Clean part := by
    rw [origin]
    split
    · exact fun part there => absurd there List.not_mem_nil
    · exact clean.current
  have whole := forall_canonicalParts (P := Path.Clean)
    (fun _ target link => (Path.clean_ofString_iff target).2 (clean.targets target (entry?_mem link)))
    (t.entries.length + 1) [] from_origin (Path.hasNul_eq_false_iff.1 along)
  refine Path.hasNul_eq_false_iff.2 (List.foldlRecOn (t.placeOf (t.origin p) p.parts) _
    (motive := fun here : List String => ∀ part ∈ here, Path.Clean part)
    (fun part there => absurd there List.not_mem_nil) fun here within part there => ?_)
  split
  · exact fun p hp => within p ((List.dropLast_sublist here).subset hp)
  · intro p hp
    rcases List.mem_append.1 hp with hp | hp
    · exact within p hp
    · exact List.eq_of_mem_singleton hp ▸ whole part there

/-- What it takes for a source to have a path: no zero character in it, and, unless it is absolute,
none in the base directory and no link on its way that leads back to itself. -/
structure Takes (t : FileTree) (base : Option String) (source : String) : Prop where
  named : Path.Clean source
  based : (Path.ofString source).isAbsolute = false → Path.Clean (base.getD "")
  straight : (Path.ofString source).isAbsolute = false →
    t.find (t.canonical ((Path.ofString source).under (.ofString (base.getD "")))) ≠
      .error .tooManyLinks

end FileTree

namespace Loader

variable {l : Loader} {t : FileTree} {base : Option String} {source : String}
  {sources : List String}

theorem fault?_attempt (l : Loader) (t : FileTree) (source : String) (base : Option String) :
    (l.attempt t source base).fault? =
      match locate t source base with
      | .error fault => some fault
      | .ok path => if path.hasNul then some .zeroCharacter else none := by
  rw [attempt, load]
  cases locate t source base with
  | error fault => rfl
  | ok path =>
      dsimp only
      split
      · rfl
      · cases (l.loadPath t path).1 <;> rfl

theorem fault?_attempt_eq_none_iff (clean : t.Clean) :
    (l.attempt t source base).fault? = none ↔ t.Takes base source := by
  rw [fault?_attempt, locate]
  cases absolute : (Path.ofString source).isAbsolute with
  | true =>
      have takes : t.Takes base source ↔ Path.Clean source :=
        ⟨fun takes => takes.named, fun named => ⟨named, by simp [absolute], by simp [absolute]⟩⟩
      rw [takes, ← Path.hasNul_ofString]
      simp
  | false =>
      have together := Path.hasNul_under (b := .ofString (base.getD "")) absolute
      rw [Path.hasNul_ofString, Path.hasNul_ofString] at together
      have takes : t.Takes base source ↔
          ((Path.ofString source).under (.ofString (base.getD ""))).hasNul = false ∧
            t.find (t.canonical ((Path.ofString source).under (.ofString (base.getD "")))) ≠
              .error .tooManyLinks :=
        ⟨fun takes => ⟨together.2 ⟨takes.based absolute, takes.named⟩, takes.straight absolute⟩,
          fun ⟨free, straight⟩ =>
            ⟨(together.1 free).2, fun _ => (together.1 free).1, fun _ => straight⟩⟩
      rw [takes]
      generalize (Path.ofString source).under (.ofString (base.getD "")) = path
      cases free : path.hasNul with
      | true => simp [free]
      | false =>
          have canonical := clean.canonical free
          simp only [free, Bool.false_eq_true, if_false, true_and]
          rcases t.find (t.canonical path) with e | entry
          · cases e <;> simp [canonical]
          · simp [canonical]

theorem fault?_eq_none_iff (clean : t.Clean) :
    l.fault? t base sources = none ↔ ∀ source ∈ sources, t.Takes base source := by
  rw [fault?]
  induction sources generalizing l with
  | nil => simp [attempts]
  | cons source sources ih =>
      rw [attempts, List.findSome?_cons, List.forall_mem_cons, ← fault?_attempt_eq_none_iff clean,
        ← ih (l := (l.load t source base).2)]
      cases (l.attempt t source base).fault? <;> simp

/-- When nothing ends the attempts, each source is attempted and comes to a stylesheet or a failure. -/
theorem attempts_of_fault?_eq_none (free : l.fault? t base sources = none) :
    (l.attempts t base sources).map Prod.fst = sources ∧
      ∀ attempt ∈ l.attempts t base sources,
        (∃ s, attempt.2.sheet? = some s) ∨ ∃ failure, attempt.2.failure? = some failure := by
  rw [fault?] at free
  induction sources generalizing l with
  | nil => simp [attempts]
  | cons source sources ih =>
      rw [attempts] at free ⊢
      rw [List.findSome?_cons] at free
      cases taken : (l.attempt t source base).fault? with
      | some fault => simp [taken] at free
      | none =>
          simp only [taken, Option.isSome_none, Bool.false_eq_true, if_false] at free ⊢
          obtain ⟨named, decided⟩ := ih free
          rw [List.map_cons, named, List.forall_mem_cons]
          refine ⟨rfl, ?_, decided⟩
          rcases attempted : l.attempt t source base with _ | _ | ⟨v, s⟩
          · simp [attempted, Attempt.fault?] at taken
          · exact .inr ⟨_, rfl⟩
          · exact .inl ⟨s, rfl⟩

end Loader

end CustomProperties
