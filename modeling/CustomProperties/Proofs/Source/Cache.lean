import CustomProperties.Proofs.Source.Attempt

/-!
What a loader has kept makes no difference. Every stylesheet that it has kept was read from a content
that stood under its version at some time. As long as no two contents ever stand under one version, the
stylesheet is the one that would be read now. What a version does not tell apart, the loader cannot tell
apart either, so this is needed.
-/

namespace CustomProperties

/-- Whatever stands under one version in any of some trees has the same content. -/
def FileTree.Versioned (trees : List FileTree) : Prop :=
  ∀ t ∈ trees, ∀ t' ∈ trees, ∀ v content content',
    t.Holds v content → t'.Holds v content' → content = content'

namespace FileTree

variable {t : FileTree} {trees : List FileTree}

/-- Whatever can be found in a tree: its entries, and a directory that has none. -/
def inhabitants (t : FileTree) : List Entry := .directory :: t.entries.map Prod.snd

theorem entry?_mem {place : List String} {entry : Entry} (h : t.entry? place = some entry) :
    entry ∈ t.inhabitants := by
  unfold entry? at h
  split at h
  · obtain rfl := Option.some.inj h
    exact List.mem_cons_self ..
  · obtain ⟨front, back, split, -⟩ := List.lookup_eq_some_iff.1 h
    exact List.mem_cons_of_mem _ (List.mem_map.2 ⟨(place, entry), by simp [split], rfl⟩)

theorem directoryAt_mem (t : FileTree) (place : List String) :
    t.directoryAt place ∈ t.inhabitants := by
  rw [directoryAt]
  split
  · rename_i found
    exact entry?_mem found
  · exact List.mem_cons_self ..

theorem advance_mem {here parts place : List String} {entry : Entry}
    (h : t.advance here parts = .found place entry) : entry ∈ t.inhabitants := by
  fun_induction advance t here parts with
  | case1 here =>
      obtain ⟨-, rfl⟩ := Halt.found.inj h
      exact t.directoryAt_mem here
  | case2 here rest ih => exact ih h
  | case3 here rest _ ih => exact ih h
  | case7 here part rest _ _ _ modified size there ih => exact ih h
  | case8 here part _ _ _ content modified there =>
      obtain ⟨-, rfl⟩ := Halt.found.inj h
      exact entry?_mem there
  | case4 | case5 | case6 | case9 | case10 => simp at h

theorem follow_mem {links : Nat} {here parts place : List String} {entry : Entry}
    (h : t.follow links here parts = .ok (place, some entry)) : entry ∈ t.inhabitants := by
  fun_induction follow t links here parts with
  | case2 links here parts place e found =>
      obtain ⟨-, same⟩ := Prod.mk.inj (Except.ok.inj h)
      exact Option.some.inj same ▸ advance_mem found
  | case5 here parts dir target rest link links ih => exact ih h
  | case1 | case3 | case4 => simp at h

theorem walk_mem {links : Nat} {here parts place : List String} {entry : Entry}
    (h : t.walk links here parts = .ok (place, entry)) : entry ∈ t.inhabitants := by
  rw [walk] at h
  split at h
  · simp at h
  · simp at h
  · rename_i found
    obtain ⟨rfl, rfl⟩ := Prod.mk.inj (Except.ok.inj h)
    exact follow_mem found

theorem find_mem {path : Path} {entry : Entry} (found : t.find path = .ok entry) :
    entry ∈ t.inhabitants := by
  rw [find] at found
  split at found
  · simp at found
  · cases walked : t.walk maxLinks (t.origin path) path.parts with
    | error e => simp [walked, Except.map] at found
    | ok there =>
        obtain rfl := Except.ok.inj (walked ▸ found)
        exact walk_mem walked

theorem versioned_of_stamps (h : ∀ t ∈ trees, ∀ t' ∈ trees, ∀ e ∈ t.inhabitants,
    ∀ e' ∈ t'.inhabitants, e.modified = e'.modified → e.size = e'.size →
      e.content? = e'.content?) : Versioned trees := by
  rintro t ht t' ht' v _ _ ⟨_, _, _, e, -, found, rfl, rfl⟩ ⟨_, _, _, e', -, found', same, rfl⟩
  obtain ⟨-, modified, size⟩ := Version.mk.inj same
  exact h t ht t' ht' e (find_mem found) e' (find_mem found') modified size

end FileTree

/-- Every stylesheet that is kept was read from what one of the trees holds under its version. -/
def Loader.Sound (l : Loader) (trees : List FileTree) : Prop :=
  ∀ v sheet, l.kept? v = some sheet →
    ∃ t ∈ trees, ∃ content, t.Holds v content ∧ Loader.readContent v.path content = .ok sheet

namespace Loader

variable {l l' : Loader} {trees : List FileTree} {t : FileTree} {base : Option String}
  {source : String} {sources : List String}

theorem sound_empty : Loader.empty.Sound trees := fun _ _ kept => by simp [kept?, empty] at kept

theorem kept?_keep (l : Loader) (v v' : Version) (sheet : Stylesheet) :
    (l.keep v sheet).kept? v' = if v' = v then some sheet else l.kept? v' :=
  lookup_cons_eq ..

theorem Sound.keep (sound : l.Sound trees) (ht : t ∈ trees) {v : Version}
    {content : Option ByteArray} (holds : t.Holds v content) {sheet : Stylesheet}
    (read : readContent v.path content = .ok sheet) : (l.keep v sheet).Sound trees := by
  intro v' sheet' kept
  rw [kept?_keep] at kept
  split at kept
  · rename_i same
    obtain rfl := Option.some.inj kept
    exact same ▸ ⟨t, ht, content, holds, read⟩
  · exact sound v' sheet' kept

theorem Sound.load (sound : l.Sound trees) (ht : t ∈ trees) (source : String)
    (base : Option String) : (l.load t source base).2.Sound trees := by
  rcases load_cases t source base with ⟨_, loads⟩ | ⟨_, loads⟩ | ⟨v, content, holds, loads⟩
  · rw [loads]
    exact sound
  · rw [loads]
    exact sound
  · rw [loads]
    split
    · exact sound
    · exact sound
    · rename_i read
      exact sound.keep ht holds read

/-- A sound loader comes to the same as one that has kept nothing. -/
theorem Sound.attempt_eq (sound : l.Sound trees) (versioned : FileTree.Versioned trees)
    (ht : t ∈ trees) (source : String) (base : Option String) :
    l.attempt t source base = Loader.empty.attempt t source base := by
  rw [attempt, attempt]
  rcases load_cases t source base with ⟨_, loads⟩ | ⟨_, loads⟩ | ⟨v, content, holds, loads⟩
  · rw [loads, loads]
  · rw [loads, loads]
  · rw [loads, loads, show Loader.empty.kept? v = none from rfl]
    cases kept : l.kept? v with
    | none => cases readContent v.path content <;> rfl
    | some sheet =>
        -- What was read then stands there still.
        obtain ⟨t', ht', content', holds', read⟩ := sound v sheet kept
        obtain rfl := versioned t' ht' t ht v content' content holds' holds
        rw [read]
        rfl

theorem Sound.attempts_eq (sound : l.Sound trees) (sound' : l'.Sound trees)
    (versioned : FileTree.Versioned trees) (ht : t ∈ trees) (base : Option String)
    (sources : List String) : l.attempts t base sources = l'.attempts t base sources := by
  induction sources generalizing l l' with
  | nil => rfl
  | cons source sources ih =>
      rw [attempts, attempts, sound.attempt_eq versioned ht, sound'.attempt_eq versioned ht,
        ih (sound.load ht source base) (sound'.load ht source base)]

theorem Sound.mergeInto (sound : l.Sound trees) (ht : t ∈ trees) (base : Option String)
    (merged : Variables) (sources : List String) :
    (l.mergeInto t base merged sources).loader.Sound trees := by
  induction sources generalizing l merged with
  | nil => exact sound
  | cons source sources ih =>
      have later := sound.load ht source base
      rw [Loader.mergeInto]
      generalize l.load t source base = loading at later ⊢
      obtain ⟨_ | _ | loaded, l'⟩ := loading
      · exact later
      · exact ih later merged
      · exact ih later _

end Loader

end CustomProperties
