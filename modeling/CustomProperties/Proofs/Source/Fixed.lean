import CustomProperties.Proofs.Files.Path
import CustomProperties.Proofs.Source.Fault

/-!
Loading again from files that stay as they are. Two paths with one text are one path, so that whatever
stands under a version has one content. What a loader keeps while it loads from such a tree is then what
it would read again: later on it comes to the same, whatever it had kept before that.
-/

namespace CustomProperties

namespace FileTree

/-- The working directory of a tree has a path. -/
def Rooted (t : FileTree) : Prop := ∀ part ∈ t.current, Path.Proper part

instance (t : FileTree) : Decidable t.Rooted :=
  inferInstanceAs (Decidable (∀ part ∈ t.current, Path.Proper part))

variable {t : FileTree} {source : String} {base : Option String} {path : Path}

theorem Rooted.canonical (rooted : t.Rooted) {p : Path} (written : p.Written) :
    (t.canonical p).Written := by
  have from_origin : ∀ part ∈ t.origin p, Path.Proper part := by
    rw [origin]
    split
    · exact fun part there => absurd there List.not_mem_nil
    · exact rooted
  have whole := forall_canonicalParts (P := Path.Proper) (t := t)
    (fun _ target _ => (Path.written_ofString target).parts) (t.entries.length + 1) [] from_origin
    written.parts
  refine ⟨.inr (.inl rfl), List.foldlRecOn (t.placeOf (t.origin p) p.parts) _
    (motive := fun here : List String => ∀ part ∈ here, Path.Proper part)
    (fun part there => absurd there List.not_mem_nil) fun here within part there => ?_⟩
  split
  · exact fun p hp => within p ((List.dropLast_sublist here).subset hp)
  · intro p hp
    rcases List.mem_append.1 hp with hp | hp
    · exact within p hp
    · exact List.eq_of_mem_singleton hp ▸ whole part there

theorem Rooted.locate (rooted : t.Rooted) (located : Loader.locate t source base = .ok path) :
    path.Written := by
  have written := Path.written_ofString source
  rw [Loader.locate] at located
  split at located
  · exact Except.ok.inj located ▸ written
  · rename_i relative
    dsimp only at located
    split at located
    · simp at located
    · have below : ((Path.ofString source).under (.ofString (base.getD ""))).Written := by
        have above := Path.written_ofString (base.getD "")
        rw [Path.under, if_neg relative]
        exact ⟨above.root, fun part there =>
          (List.mem_append.1 there).elim (above.parts part) (written.parts part)⟩
      split at located
      · simp at located
      · exact Except.ok.inj located ▸ rooted.canonical below

theorem Rooted.versioned (rooted : t.Rooted) : Versioned [t] := by
  intro t₁ ht₁ t₂ ht₂ v content content' holds holds'
  obtain rfl := List.eq_of_mem_singleton ht₁
  obtain rfl := List.eq_of_mem_singleton ht₂
  obtain ⟨_, _, path, entry, located, found, rfl, rfl⟩ := holds
  obtain ⟨_, _, path', entry', located', found', same, rfl⟩ := holds'
  have same_path : path = path' := Path.toString_injective (rooted.locate located)
    (rooted.locate located') (Version.mk.inj same).1
  subst same_path
  rw [found] at found'
  rw [Except.ok.inj found']

end FileTree

namespace Loader

/-- All that `l'` has kept and `l` has not is read from what stands in a tree. -/
def Grown (t : FileTree) (l l' : Loader) : Prop :=
  ∀ v, l'.kept? v = l.kept? v ∨
    l.kept? v = none ∧ ∃ content sheet, t.Holds v content ∧
      readContent v.path content = .ok sheet ∧ l'.kept? v = some sheet

variable {l l' l'' : Loader} {t : FileTree} {base : Option String} {source : String}
  {sources : List String}

theorem Grown.refl (t : FileTree) (l : Loader) : Grown t l l := fun _ => .inl rfl

theorem Grown.trans (h : Grown t l l') (h' : Grown t l' l'') : Grown t l l'' := by
  intro v
  rcases h v with same | ⟨missed, content, sheet, holds, read, kept⟩
  · rcases h' v with same' | ⟨missed, more⟩
    · exact .inl (same'.trans same)
    · exact .inr ⟨same ▸ missed, more⟩
  · rcases h' v with same' | ⟨missed', -⟩
    · exact .inr ⟨missed, content, sheet, holds, read, same'.trans kept⟩
    · simp [kept] at missed'

theorem grown_load (l : Loader) (t : FileTree) (source : String) (base : Option String) :
    Grown t l (l.load t source base).2 := by
  rcases load_cases t source base with ⟨_, loads⟩ | ⟨_, loads⟩ | ⟨v, content, holds, loads⟩
  · rw [loads]
    exact .refl t l
  · rw [loads]
    exact .refl t l
  · rw [loads]
    split
    · exact .refl t l
    · exact .refl t l
    · rename_i sheet missed read
      intro w
      rw [kept?_keep]
      split
      · rename_i same
        subst same
        exact .inr ⟨missed, content, sheet, holds, read, rfl⟩
      · exact .inl rfl

theorem grown_mergeInto (l : Loader) (t : FileTree) (base : Option String) (merged : Variables)
    (sources : List String) : Grown t l (l.mergeInto t base merged sources).loader := by
  induction sources generalizing l merged with
  | nil => exact .refl t l
  | cons source sources ih =>
      have first := grown_load l t source base
      rw [mergeInto]
      generalize l.load t source base = loading at first ⊢
      obtain ⟨_ | _ | loaded, l'⟩ := loading
      · exact first
      · exact first.trans (ih l' merged)
      · exact first.trans (ih l' _)

theorem Grown.attempt_eq (grown : Grown t l l') (versioned : FileTree.Versioned [t])
    (source : String) (base : Option String) :
    l'.attempt t source base = l.attempt t source base ∧
      Grown t (l.load t source base).2 (l'.load t source base).2 := by
  rw [attempt, attempt]
  rcases load_cases t source base with ⟨_, loads⟩ | ⟨_, loads⟩ | ⟨v, content, holds, loads⟩
  · rw [loads, loads]
    exact ⟨rfl, grown⟩
  · rw [loads, loads]
    exact ⟨rfl, grown⟩
  · rcases grown v with same | ⟨missed, content', sheet, holds', read, kept⟩
    · rw [loads, loads, same]
      cases l.kept? v with
      | some sheet => exact ⟨rfl, grown⟩
      | none =>
          cases readContent v.path content with
          | error failure => exact ⟨rfl, grown⟩
          | ok sheet =>
              refine ⟨rfl, fun w => ?_⟩
              rw [kept?_keep, kept?_keep]
              split
              · exact .inl rfl
              · exact grown w
    · obtain rfl := versioned t (List.mem_singleton_self t) t (List.mem_singleton_self t) v content'
        content holds' holds
      -- The loader that had not kept the stylesheet reads it, and keeps it from now on.
      have fresh : l.load t source base = (.ok (.ok ⟨v, sheet, false⟩), l.keep v sheet) := by
        rw [loads, missed, read]
      have reused : l'.load t source base = (.ok (.ok ⟨v, sheet, true⟩), l') := by
        rw [loads, kept]
      rw [fresh, reused]
      refine ⟨rfl, fun w => ?_⟩
      rw [kept?_keep]
      split
      · rename_i same
        exact .inl (same ▸ kept)
      · exact grown w

theorem Grown.attempts_eq (grown : Grown t l l') (versioned : FileTree.Versioned [t])
    (base : Option String) (sources : List String) :
    l'.attempts t base sources = l.attempts t base sources := by
  induction sources generalizing l l' with
  | nil => rfl
  | cons source sources ih =>
      obtain ⟨same, later⟩ := grown.attempt_eq versioned source base
      rw [attempts, attempts, same, ih later]

/-- When no path ends the attempts, each source comes to what it would come to by itself, wherever and
however often it stands in the list. -/
theorem Grown.attempts_eq_map (grown : Grown t l l') (versioned : FileTree.Versioned [t])
    (free : l'.fault? t base sources = none) :
    l'.attempts t base sources = sources.map fun source => (source, l.attempt t source base) := by
  induction sources generalizing l' with
  | nil => rfl
  | cons source sources ih =>
      have same := (grown.attempt_eq versioned source base).1
      rw [fault?, attempts, List.findSome?_cons] at free
      cases taken : (l'.attempt t source base).fault? with
      | some fault => simp [taken] at free
      | none =>
          simp only [taken, Option.isSome_none, Bool.false_eq_true, if_false] at free
          rw [attempts, taken, List.map_cons, same]
          exact congrArg _ (ih (grown.trans (grown_load l' t source base)) free)

theorem Grown.merge_eq (grown : Grown t l l') (versioned : FileTree.Versioned [t])
    (sources : List String) (base : Option String) :
    (l'.merge t sources base).outcome = (l.merge t sources base).outcome := by
  have same := grown.attempts_eq versioned base sources
  rw [merge, merge, outcome_mergeInto, outcome_mergeInto, fault?, fault?, sheets, sheets, same]

end Loader

end CustomProperties
