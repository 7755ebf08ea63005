import CustomProperties.Text.Basic

/-!
Tables of variables: names with their values, in the order in which the names first came. A name
that comes again keeps its place and takes the new value.
-/

namespace CustomProperties

/-- The entries with one more, or with another value for a name that is there. -/
def insertEntry (name value : Text) : List (Text × Text) → List (Text × Text)
  | [] => [(name, value)]
  | entry :: entries =>
      if entry.1 = name then (name, value) :: entries
      else entry :: insertEntry name value entries

theorem keys_insertEntry (name value : Text) (entries : List (Text × Text)) :
    (insertEntry name value entries).map Prod.fst =
      if name ∈ entries.map Prod.fst then entries.map Prod.fst
      else entries.map Prod.fst ++ [name] := by
  induction entries with
  | nil => simp [insertEntry]
  | cons entry entries ih =>
      by_cases h : entry.1 = name
      · simp [insertEntry, h]
      · by_cases h' : name ∈ entries.map Prod.fst
        · simp [insertEntry, h, ih, h']
        · have h'' : ¬name = entry.1 := fun e => h e.symm
          simp [insertEntry, h, ih, h', h'']

structure Variables where
  entries : List (Text × Text)
  nodup : (entries.map Prod.fst).Nodup

namespace Variables

def empty : Variables := ⟨[], by simp⟩

def names (v : Variables) : List Text := v.entries.map Prod.fst

def size (v : Variables) : Nat := v.entries.length

def get? (v : Variables) (name : Text) : Option Text := v.entries.lookup name

theorem mem_entries_of_get? {v : Variables} {name value : Text} (h : v.get? name = some value) :
    (name, value) ∈ v.entries := by
  obtain ⟨before, behind, he, _⟩ := List.lookup_eq_some_iff.1 h
  simp [he]

theorem mem_names_of_get? {v : Variables} {name value : Text} (h : v.get? name = some value) :
    name ∈ v.names :=
  List.mem_map_of_mem (mem_entries_of_get? h)

theorem get?_eq_none_iff {v : Variables} {name : Text} :
    v.get? name = none ↔ name ∉ v.names := by
  simp only [get?, names, List.lookup_eq_none_iff, List.mem_map, not_exists, not_and,
    bne_iff_ne, ne_eq]
  exact ⟨fun h entry he hn => h entry he hn.symm, fun h entry he hn => h entry he hn.symm⟩

theorem get?_isSome_iff {v : Variables} {name : Text} :
    (v.get? name).isSome ↔ name ∈ v.names := by
  rw [Option.isSome_iff_ne_none, Ne, get?_eq_none_iff, Decidable.not_not]

def value (v : Variables) (name : Text) (known : name ∈ v.names) : Text :=
  (v.get? name).get (get?_isSome_iff.2 known)

theorem get?_eq_some_value {v : Variables} {name : Text} (known : name ∈ v.names) :
    v.get? name = some (v.value name known) := by
  simp [value]

theorem mem_entries_value {v : Variables} {name : Text} (known : name ∈ v.names) :
    (name, v.value name known) ∈ v.entries :=
  mem_entries_of_get? (get?_eq_some_value known)

def contains (v : Variables) (name : Text) : Bool := (v.get? name).isSome

def insert (v : Variables) (name value : Text) : Variables where
  entries := insertEntry name value v.entries
  nodup := by
    rw [keys_insertEntry]
    split
    · exact v.nodup
    · rename_i h
      rw [List.nodup_append]
      refine ⟨v.nodup, by simp, ?_⟩
      intro a ha b hb
      obtain rfl := List.mem_singleton.1 hb
      exact fun e => h (e ▸ ha)

def insertAll (v : Variables) (entries : List (Text × Text)) : Variables :=
  entries.foldl (fun v entry => v.insert entry.1 entry.2) v

def ofList (entries : List (Text × Text)) : Variables := empty.insertAll entries

/-- Both tables as one, where the values of the second win. -/
def merge (v w : Variables) : Variables := v.insertAll w.entries

def mergeAll (tables : List Variables) : Variables := tables.foldl merge empty

end Variables

end CustomProperties
