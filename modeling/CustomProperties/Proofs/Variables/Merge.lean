import Mathlib.Data.List.Nodup
import CustomProperties.Variables.Basic

/-!
What merging makes of tables of variables. A table is told by two things, the order of its names and
the value of each name. In both respects a merged table is what the tables are one behind the other:
a name stands where it came first, and it has the value that came last. So it does not matter which
of several tables are merged first.
-/

namespace CustomProperties

section FirstOccurrences

variable {α : Type} [BEq α] [LawfulBEq α]

theorem eraseDups_filter (p : α → Bool) (l : List α) :
    (l.filter p).eraseDups = l.eraseDups.filter p := by
  match l with
  | [] => simp
  | a :: l =>
      have later := eraseDups_filter p (l.filter fun b => !b == a)
      rw [List.eraseDups_cons, List.filter_cons, List.filter_cons]
      cases h : p a with
      | true => simp only [if_true, List.eraseDups_cons, ← later, List.filter_filter, Bool.and_comm]
      | false =>
          -- The later occurrences of the first element are left out by `p` anyway.
          have none_lost : (l.filter fun b => !b == a).filter p = l.filter p := by
            rw [List.filter_filter]
            refine List.filter_congr fun b _ => ?_
            by_cases same : b = a
            · simp [same, h]
            · simp [same]
          simp only [← later, none_lost, Bool.false_eq_true, if_false]
termination_by l.length
decreasing_by exact Nat.lt_succ_of_le (List.length_filter_le ..)

theorem eraseDups_eraseDups (l : List α) : l.eraseDups.eraseDups = l.eraseDups := by
  match l with
  | [] => simp
  | a :: l =>
      rw [List.eraseDups_cons, List.eraseDups_cons, ← eraseDups_filter, List.filter_filter]
      simp only [Bool.and_self, eraseDups_eraseDups (l.filter fun b => !b == a)]
termination_by l.length
decreasing_by exact Nat.lt_succ_of_le (List.length_filter_le ..)

theorem eraseDups_of_nodup {l : List α} (h : l.Nodup) : l.eraseDups = l := by
  induction l with
  | nil => simp
  | cons a l ih =>
      obtain ⟨fresh, later⟩ := List.nodup_cons.1 h
      have kept : (l.filter fun b => !b == a) = l :=
        List.filter_eq_self.2 fun b hb => by
          have other : b ≠ a := fun same => fresh (same ▸ hb)
          simp [other]
      rw [List.eraseDups_cons, kept, ih later]

/-- What was left out of a part would have been left out of the whole. -/
theorem eraseDups_append_eraseDups (l m : List α) :
    (l.eraseDups ++ m.eraseDups).eraseDups = (l ++ m).eraseDups := by
  have same : m.removeAll l.eraseDups = m.removeAll l :=
    List.filter_congr fun b _ => by simp
  rw [List.eraseDups_append, List.eraseDups_append, eraseDups_eraseDups, List.removeAll,
    ← eraseDups_filter, eraseDups_eraseDups]
  exact congrArg (l.eraseDups ++ List.eraseDups ·) same

theorem eraseDups_flatMap {β : Type} (f : β → List α) (l : List β) :
    (l.flatMap fun b => (f b).eraseDups).eraseDups = (l.flatMap f).eraseDups := by
  induction l with
  | nil => rfl
  | cons b l ih =>
      rw [List.flatMap_cons, List.flatMap_cons, ← eraseDups_append_eraseDups, ih, eraseDups_eraseDups,
        eraseDups_append_eraseDups]

end FirstOccurrences

theorem lookup_cons_eq {α β : Type} [BEq α] [LawfulBEq α] [DecidableEq α] (key : α) (value : β)
    (name : α) (entries : List (α × β)) :
    ((key, value) :: entries).lookup name =
      if name = key then some value else entries.lookup name := by
  rw [List.lookup_cons]
  by_cases same : name = key
  · simp [same]
  · rw [beq_false_of_ne same, if_neg same]

theorem lookup_eq_some_iff_mem {entries : List (Text × Text)}
    (nodup : (entries.map Prod.fst).Nodup) {name value : Text} :
    entries.lookup name = some value ↔ (name, value) ∈ entries := by
  induction entries with
  | nil => simp
  | cons entry entries ih =>
      obtain ⟨key, first⟩ := entry
      obtain ⟨fresh, later⟩ := List.nodup_cons.1 nodup
      rw [lookup_cons_eq, List.mem_cons, Prod.mk.injEq]
      by_cases same : name = key
      · subst same
        have absent : (name, value) ∉ entries := fun h => fresh (List.mem_map.2 ⟨_, h, rfl⟩)
        simp [absent, eq_comm]
      · simp [same, ih later]

theorem lookup_insertEntry (name value : Text) (entries : List (Text × Text)) (other : Text) :
    (insertEntry name value entries).lookup other =
      if other = name then some value else entries.lookup other := by
  induction entries with
  | nil => rw [insertEntry, lookup_cons_eq]
  | cons entry entries ih =>
      obtain ⟨key, first⟩ := entry
      rw [insertEntry]
      by_cases here : key = name
      · subst here
        rw [if_pos rfl, lookup_cons_eq, lookup_cons_eq]
        by_cases same : other = key <;> simp [same]
      · rw [if_neg here, lookup_cons_eq, lookup_cons_eq, ih]
        by_cases found : other = key
        · simp [found, here]
        · simp [found]

namespace Variables

variable {u v w : Variables} {name value : Text}

theorem get?_eq_some_iff : v.get? name = some value ↔ (name, value) ∈ v.entries :=
  lookup_eq_some_iff_mem v.nodup

/-- Tables with the same names in the same order and with the same values are the same. -/
theorem ext_names_get? (names : v.names = w.names) (get? : ∀ name, v.get? name = w.get? name) :
    v = w := by
  obtain ⟨entries, nodup⟩ := v
  obtain ⟨entries', nodup'⟩ := w
  suffices same : entries = entries' by simp [same]
  refine List.ext_getElem ?_ fun i hi hi' => ?_
  · simpa [Variables.names] using congrArg List.length names
  · have key : entries[i].1 = entries'[i].1 := by
      have at_i := List.getElem_of_eq names (i := i) (by simpa [Variables.names] using hi)
      simpa [Variables.names] using at_i
    have found : entries.lookup entries[i].1 = some entries[i].2 :=
      (lookup_eq_some_iff_mem nodup).2 (List.getElem_mem hi)
    have found' : entries'.lookup entries'[i].1 = some entries'[i].2 :=
      (lookup_eq_some_iff_mem nodup').2 (List.getElem_mem hi')
    have values : some entries[i].2 = some entries'[i].2 := by
      rw [← found, ← found', ← key]
      exact get? entries[i].1
    exact Prod.ext key (Option.some.inj values)

theorem eraseDups_names (v : Variables) : v.names.eraseDups = v.names :=
  eraseDups_of_nodup v.nodup

theorem names_insert (v : Variables) (name value : Text) :
    (v.insert name value).names = (v.names ++ [name]).eraseDups := by
  have keys : (v.insert name value).names =
      if name ∈ v.names then v.names else v.names ++ [name] := keys_insertEntry ..
  rw [keys, List.eraseDups_append, v.eraseDups_names]
  by_cases known : name ∈ v.names <;> simp [known, List.removeAll, List.eraseDups_cons]

theorem get?_insert (v : Variables) (name value other : Text) :
    (v.insert name value).get? other = if other = name then some value else v.get? other :=
  lookup_insertEntry ..

theorem names_insertAll (v : Variables) (entries : List (Text × Text)) :
    (v.insertAll entries).names = (v.names ++ entries.map Prod.fst).eraseDups := by
  induction entries generalizing v with
  | nil => rw [List.map_nil, List.append_nil, eraseDups_names]; rfl
  | cons entry entries ih =>
      show ((v.insert entry.1 entry.2).insertAll entries).names = _
      rw [ih, names_insert, ← eraseDups_append_eraseDups, eraseDups_eraseDups,
        eraseDups_append_eraseDups, List.append_assoc]
      rfl

theorem get?_insertAll (v : Variables) (entries : List (Text × Text)) (name : Text) :
    (v.insertAll entries).get? name = (entries.reverse.lookup name).or (v.get? name) := by
  induction entries generalizing v with
  | nil => rfl
  | cons entry entries ih =>
      show ((v.insert entry.1 entry.2).insertAll entries).get? name = _
      rw [ih, get?_insert, List.reverse_cons, List.lookup_append, Option.or_assoc, lookup_cons_eq]
      by_cases same : name = entry.1 <;> simp [same]

theorem names_merge (v w : Variables) : (v.merge w).names = (v.names ++ w.names).eraseDups :=
  names_insertAll ..

theorem get?_merge (v w : Variables) (name : Text) :
    (v.merge w).get? name = (w.get? name).or (v.get? name) := by
  have nodup : (w.entries.reverse.map Prod.fst).Nodup := by
    rw [List.map_reverse]
    exact List.nodup_reverse.2 w.nodup
  have same : w.entries.reverse.lookup name = w.get? name := Option.ext fun value => by
    rw [lookup_eq_some_iff_mem nodup, List.mem_reverse, get?_eq_some_iff]
  rw [merge, get?_insertAll, same]

theorem empty_merge (v : Variables) : empty.merge v = v :=
  ext_names_get? (by rw [names_merge]; exact v.eraseDups_names)
    fun name => by rw [get?_merge]; exact Option.or_none

theorem merge_assoc (u v w : Variables) : (u.merge v).merge w = u.merge (v.merge w) := by
  refine ext_names_get? ?_ fun name => ?_
  · rw [names_merge, names_merge, names_merge, names_merge, ← eraseDups_append_eraseDups,
      eraseDups_eraseDups, eraseDups_append_eraseDups, ← eraseDups_append_eraseDups u.names,
      eraseDups_eraseDups, eraseDups_append_eraseDups, List.append_assoc]
  · simp only [get?_merge, Option.or_assoc]

theorem foldl_merge (v : Variables) (tables : List Variables) :
    tables.foldl merge v = v.merge (mergeAll tables) := by
  induction tables generalizing v with
  | nil => rfl
  | cons table tables ih =>
      have later : mergeAll (table :: tables) = table.merge (mergeAll tables) := by
        rw [mergeAll, List.foldl_cons, empty_merge, ih]
      rw [List.foldl_cons, ih, later, merge_assoc]

theorem mergeAll_cons (table : Variables) (tables : List Variables) :
    mergeAll (table :: tables) = table.merge (mergeAll tables) := by
  rw [mergeAll, List.foldl_cons, foldl_merge, empty_merge]

theorem names_mergeAll (tables : List Variables) :
    (mergeAll tables).names = (tables.flatMap names).eraseDups := by
  induction tables with
  | nil => rfl
  | cons table tables ih =>
      rw [mergeAll_cons, names_merge, ih, List.flatMap_cons, ← eraseDups_append_eraseDups,
        eraseDups_eraseDups, eraseDups_append_eraseDups]

theorem get?_mergeAll (tables : List Variables) (name : Text) :
    (mergeAll tables).get? name = tables.reverse.findSome? fun table => table.get? name := by
  induction tables with
  | nil => rfl
  | cons table tables ih =>
      rw [mergeAll_cons, get?_merge, ih, List.reverse_cons, List.findSome?_append]
      simp

end Variables

end CustomProperties
