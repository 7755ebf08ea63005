import CustomProperties.Files.Tree

/-!
Files that are written. What was written to a path is read from it again, whatever links lead there: on
its way a path meets directories and links alone, and a file that is put in a place where one stood, or
nothing, changes none of these. Nothing else in the tree changes.
-/

namespace CustomProperties.FileTree

variable {t : FileTree} {place here parts : List String} {e : Entry} {links : Nat}

/-- A place below the root where a file stands, or nothing. -/
structure Room (t : FileTree) (place : List String) : Prop where
  below : place ≠ []
  free : ∀ e, t.entry? place = some e → ∃ content modified, e = .file content modified

theorem entry?_set (below : place ≠ []) (e : Entry) (q : List String) :
    entry? (t.set place e) q = if q = place then some e else t.entry? q := by
  have others (entries : List (List String × Entry)) (other : q ≠ place) :
      (entries.filter (·.1 != place)).lookup q = entries.lookup q := by
    induction entries with
    | nil => rfl
    | cons entry entries ih =>
        obtain ⟨p, e⟩ := entry
        by_cases same : p = place
        · have apart : (q == p) = false := by simpa [same] using other
          rw [List.filter_cons_of_neg (by simpa using same), List.lookup_cons, apart, ih]
        · rw [List.filter_cons_of_pos (by simpa using same), List.lookup_cons, List.lookup_cons, ih]
  have gone (entries : List (List String × Entry)) :
      (entries.filter (·.1 != place)).lookup place = none := by
    refine List.lookup_eq_none_iff.2 fun entry there => ?_
    have apart : entry.1 ≠ place := by simpa using (List.mem_filter.1 there).2
    simpa using apart.symm
  rw [ entry?, entry?, set, List.lookup_append]
  by_cases same : q = place
  · subst same
    simp [below, gone]
  · have apart : (q == place) = false := by simpa using same
    simp [same, others _ same, List.lookup_cons, apart]

theorem room_of_vacant (h : t.advance here parts = .vacant place) : t.Room place := by
  fun_induction advance t here parts with
  | case2 here rest ih => exact ih h
  | case3 here rest _ ih => exact ih h
  | case5 here part _ _ _ there =>
      obtain rfl := Halt.vacant.inj h
      exact ⟨by simp, by simp [there]⟩
  | case7 here part rest _ _ _ modified size there ih => exact ih h
  | case1 | case4 | case6 | case8 | case9 | case10 => simp at h

theorem room_of_found (h : t.advance here parts = .found place e)
    (other : ∀ modified size, e ≠ .folder modified size) : t.Room place := by
  fun_induction advance t here parts with
  | case1 here =>
      obtain ⟨-, rfl⟩ := Halt.found.inj h
      exfalso
      rw [directoryAt] at other
      split at other
      · exact other _ _ rfl
      · exact other _ _ rfl
  | case2 here rest ih => exact ih h
  | case3 here rest _ ih => exact ih h
  | case7 here part rest _ _ _ modified size there ih => exact ih h
  | case8 here part _ _ _ content modified there =>
      obtain ⟨rfl, rfl⟩ := Halt.found.inj h
      exact ⟨by simp, by simp [there]⟩
  | case4 | case5 | case6 | case9 | case10 => simp at h

theorem room_of_follow {e : Option Entry} (h : t.follow links here parts = .ok (place, e))
    (other : ∀ modified size, e ≠ some (.folder modified size)) : t.Room place := by
  fun_induction follow t links here parts with
  | case2 links here parts place e found =>
      obtain ⟨rfl, rfl⟩ := Prod.mk.inj (Except.ok.inj h)
      exact room_of_found found fun modified size same => other modified size (congrArg some same)
  | case3 links here parts place found =>
      obtain ⟨rfl, rfl⟩ := Prod.mk.inj (Except.ok.inj h)
      exact room_of_vacant found
  | case5 here parts dir target rest link links ih => exact ih h
  | case1 | case4 => simp at h

theorem Room.entry?_set (room : t.Room place) {q : List String} {e : Entry}
    (there : t.entry? q = some e) (other : ∀ content modified, e ≠ .file content modified)
    (content : ByteArray) (modified : Int) :
    entry? (t.set place (.file content modified)) q = some e := by
  rw [FileTree.entry?_set room.below, if_neg, there]
  rintro rfl
  obtain ⟨content, modified, same⟩ := room.free e there
  exact other content modified same

/-- A path is free for a file at a place, or goes on with a link. -/
def Halt.Frees (place : List String) : Halt → Prop
  | .vacant q => q = place
  | .found q e => q = place ∧ ∀ modified size, e ≠ .folder modified size
  | .link .. => True
  | .failed _ => False

/-- The end of a path with an entry at its place. -/
def Halt.put (e : Entry) : Halt → Halt
  | .vacant place => .found place e
  | .found place _ => .found place e
  | halt => halt

theorem Room.advance_set (room : t.Room place) (frees : (t.advance here parts).Frees place)
    (content : ByteArray) (modified : Int) :
    (t.set place (.file content modified)).advance here parts =
      (t.advance here parts).put (.file content modified) := by
  fun_induction advance t here parts with
  | case1 here =>
    exfalso
    obtain ⟨-, other⟩ := frees
    rw [directoryAt] at other
    split at other <;> exact other _ _ rfl
  | case2 here rest ih =>
    rw [advance, if_pos rfl]
    exact ih frees
  | case3 here rest dot ih =>
    rw [advance, if_neg dot, if_pos rfl]
    exact ih frees
  | case4 | case6 | case9 => exact frees.elim
  | case5 here part dot up short there =>
    obtain rfl : here ++ [part] = place := frees
    rw [advance, if_neg dot, if_neg up, if_neg short, FileTree.entry?_set room.below, if_pos rfl]
    rfl
  | case7 here part rest dot up short time size there ih =>
    rw [advance, if_neg dot, if_neg up, if_neg short, room.entry?_set there (by simp) content modified]
    exact ih frees
  | case8 here part dot up short old time there =>
    obtain ⟨rfl, -⟩ := frees
    rw [advance, if_neg dot, if_neg up, if_neg short, FileTree.entry?_set room.below, if_pos rfl]
    rfl
  | case10 here part rest dot up short target there =>
    rw [advance, if_neg dot, if_neg up, if_neg short, room.entry?_set there (by simp) content modified]
    rfl

theorem follow_set {e : Option Entry} (h : t.follow links here parts = .ok (place, e))
    (other : ∀ modified size, e ≠ some (.folder modified size)) (content : ByteArray)
    (modified : Int) :
    (t.set place (.file content modified)).follow links here parts =
      .ok (place, some (.file content modified)) := by
  have room := room_of_follow h other
  fun_induction follow t links here parts with
  | case2 links here parts place e found =>
      obtain ⟨rfl, rfl⟩ := Prod.mk.inj (Except.ok.inj h)
      have frees : (t.advance here parts).Frees place := by
        rw [found]
        exact ⟨rfl, fun modified size same => other modified size (congrArg some same)⟩
      rw [follow, room.advance_set frees, found]
      rfl
  | case3 links here parts place found =>
      obtain ⟨rfl, rfl⟩ := Prod.mk.inj (Except.ok.inj h)
      have frees : (t.advance here parts).Frees place := by
        rw [found]
        exact rfl
      rw [follow, room.advance_set frees, found]
      rfl
  | case5 here parts dir target rest link links ih =>
      have frees : (t.advance here parts).Frees place := by
        rw [link]
        exact trivial
      rw [follow, room.advance_set frees, link]
      exact ih h
  | case1 | case4 => simp at h

/-- What was written is read, and nothing else is changed. -/
theorem read_write {p : Path} {content : ByteArray} {modified : Int} {files : FileTree}
    (written : t.write p content modified = .ok files) :
    files.read p = .ok (content, modified) ∧
    ∃ place, files = t.set place (.file content modified) ∧ t.Room place := by
  rw [write] at written
  split at written
  · simp at written
  · rename_i short
    split at written
    · simp at written
    · simp at written
    · rename_i place e other led
      obtain rfl := Except.ok.inj written
      have file : ∀ modified size, e ≠ some (.folder modified size) := by
        rintro modified size rfl
        exact other _ _ rfl
      refine ⟨?_, place, rfl, room_of_follow led file⟩
      rw [read, find, if_neg short]
      have led := follow_set led file content modified
      rw [walk]
      have same : (t.set place (.file content modified)).origin p = t.origin p := rfl
      rw [same, led]
      rfl

end CustomProperties.FileTree
