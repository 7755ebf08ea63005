import CustomProperties.Source.Merge
import Mathlib.Data.List.Basic

/-!
Settings that are read twice. The first reader keeps a path by its name, and the next reader gets the
names. It takes texts as they are; but bytes are no path to it, so that it complains about a path that
the first one has taken, and counts it by its place among what was kept.
-/

namespace CustomProperties

namespace SourceName

def text? : SourceName → Option String
  | text s => some s
  | bytes _ => none

/-- What a reader finds wrong with names that another one has kept. -/
def lapses (names : List SourceName) : List Complaint :=
  (names.zipIdx.filter fun place => place.1.text?.isNone).map fun place => .notAPath place.2 "bytes"

theorem leading_texts (sources : List String) : leading (sources.map text) = (sources, false) := by
  induction sources with
  | nil => rfl
  | cons source sources ih => rw [List.map_cons, leading, ih]

theorem name?_setting (name : SourceName) : name.setting.name? = name.text?.map text := by
  cases name <;> rfl

theorem lapses_eq_nil_iff {names : List SourceName} :
    lapses names = [] ↔ ∀ b, bytes b ∉ names := by
  rw [lapses, List.map_eq_nil_iff, List.filter_eq_nil_iff]
  constructor
  · intro named b there
    obtain ⟨i, at_place⟩ := List.mem_iff_getElem?.1 there
    exact named (bytes b, i) (List.mem_zipIdx_iff_getElem?.2 at_place) rfl
  · rintro named ⟨name, i⟩ there
    cases name with
    | text s => simp [text?]
    | bytes b => exact absurd (List.fst_mem_of_mem_zipIdx there) (named b)

end SourceName

namespace Setting

open SourceName (text?)

def kept (s : Setting) : List SourceName := (s.items?.getD []).filterMap name?

/-- The paths that a setting lists, those that are named by bytes left out. -/
def paths (s : Setting) : List String := s.kept.filterMap text?

/-- What is wrong with a setting: that it lists nothing, or else each item that is no path, with its
place in the list. -/
def complaints (s : Setting) : List Complaint :=
  match s.items? with
  | none => [.notAList s.kind]
  | some items =>
      (items.zipIdx.filter fun place => place.1.name?.isNone).map fun place =>
        .notAPath place.2 place.1.kind

/-- What the next reader finds wrong with a setting. -/
def lapses (s : Setting) : List Complaint := SourceName.lapses s.kept

theorem namesFrom_eq (index : Nat) (items : List Setting) :
    namesFrom index items =
      (items.filterMap name?,
        ((items.zipIdx index).filter fun place => place.1.name?.isNone).map fun place =>
          .notAPath place.2 place.1.kind) := by
  induction items generalizing index with
  | nil => rfl
  | cons item items ih =>
      rw [namesFrom, ih]
      cases named : item.name? with
      | none => simp [named]
      | some name => simp [named]

theorem sources_eq (s : Setting) : s.sources = (s.kept, s.complaints) := by
  rw [sources, kept, complaints]
  cases s.items? with
  | none => rfl
  | some items => exact namesFrom_eq 0 items

theorem sources_again (names : List SourceName) :
    (tuple (names.map SourceName.setting)).sources =
      ((names.filterMap text?).map .text, SourceName.lapses names) := by
  rw [sources_eq]
  refine Prod.ext ?_ ?_
  · show (names.map SourceName.setting).filterMap name? = _
    rw [List.filterMap_map, List.map_filterMap]
    exact List.filterMap_congr fun name _ => SourceName.name?_setting name
  · show (((names.map SourceName.setting).zipIdx.filter _).map _ : List Complaint) = _
    rw [List.zipIdx_map, List.filter_map, List.map_map, SourceName.lapses]
    have same (name : SourceName) : name.setting.name?.isNone = name.text?.isNone := by
      rw [SourceName.name?_setting, Option.isNone_map]
    simp only [Function.comp_def, Prod.map_fst, same]
    refine List.map_congr_left fun place there => ?_
    obtain ⟨⟨s⟩ | ⟨b⟩, i⟩ := place
    · simp [text?] at there
    · rfl

/-- The next reader complains exactly when an entry is listed that is named by bytes. -/
theorem lapses_eq_nil_iff {s : Setting} :
    s.lapses = [] ↔ ∀ b, entry (.bytes b) ∉ s.items?.getD [] := by
  rw [lapses, SourceName.lapses_eq_nil_iff]
  refine forall_congr' fun b => not_congr ?_
  rw [kept, List.mem_filterMap]
  constructor
  · rintro ⟨item, there, named⟩
    cases item <;> simp only [name?, Option.some.injEq, reduceCtorEq] at named
    exact named ▸ there
  · exact fun there => ⟨_, there, rfl⟩

theorem paths_texts (sources : List String) : (list (sources.map text)).paths = sources := by
  show ((sources.map text).filterMap name?).filterMap text? = sources
  rw [List.filterMap_map, List.filterMap_filterMap]
  exact List.filterMap_some

end Setting

theorem Loader.mergeSetting_again (l : Loader) (t : FileTree) (names : List SourceName)
    (base : Option String) :
    l.mergeSetting t (.tuple (names.map SourceName.setting)) base =
      let merged := l.merge t (names.filterMap SourceName.text?) base
      { merged with events := (SourceName.lapses names).map Event.complaint ++ merged.events } := by
  rw [mergeSetting, Setting.sources_again]
  simp only [mergeNamed, SourceName.leading_texts, Bool.false_eq_true, if_false]

end CustomProperties
