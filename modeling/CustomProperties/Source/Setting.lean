import CustomProperties.Files.Path

/-!
The settings that a host hands over. They may be values of any kind; wanted is a table whose
entry for the fallbacks is a list of file paths. Another value for that entry counts as no
fallbacks at all, and an entry of the list that is no path is left out; both are complained about.
A path may be named by bytes; it is kept by its name, and the bytes are no path to the next reader.
-/

namespace CustomProperties

/-- What a path is named by. -/
inductive SourceName where
  | text (s : String)
  | bytes (b : ByteArray)

/-- A value of a host. Of numbers only the kind matters. -/
inductive Setting where
  | null
  | flag (b : Bool)
  | integer
  | decimal
  | text (s : String)
  | path (p : Path)
  /-- An entry of a directory, named as the directory was when it was listed. -/
  | entry (place : SourceName)
  | bytes (b : ByteArray)
  | table (fields : List (String × Setting))
  | list (items : List Setting)
  | tuple (items : List Setting)
deriving Inhabited

inductive Complaint where
  | notAList (kind : String)
  | notAPath (index : Nat) (kind : String)
deriving DecidableEq, Repr

def SourceName.setting : SourceName → Setting
  | text s => .text s
  | bytes b => .bytes b

namespace Setting

def kind : Setting → String
  | null => "NoneType"
  | flag _ => "bool"
  | integer => "int"
  | decimal => "float"
  | text _ => "str"
  | path _ => "PurePosixPath"
  | entry _ => "DirEntry"
  | bytes _ => "bytes"
  | table _ => "dict"
  | list _ => "list"
  | tuple _ => "tuple"

def name? : Setting → Option SourceName
  | text s => some (.text s)
  | path p => some (.text p.toString)
  | entry place => some place
  | _ => none

def items? : Setting → Option (List Setting)
  | list items => some items
  | tuple items => some items
  | _ => none

/-- The names of the paths among some items, the first of which has the index `index`, and the
complaints about the others. -/
def namesFrom (index : Nat) : List Setting → List SourceName × List Complaint
  | [] => ([], [])
  | item :: items =>
      let (names, complaints) := namesFrom (index + 1) items
      match item.name? with
      | some name => (name :: names, complaints)
      | none => (names, .notAPath index item.kind :: complaints)

def sources (s : Setting) : List SourceName × List Complaint :=
  match s.items? with
  | some items => namesFrom 0 items
  | none => ([], [.notAList s.kind])

/-- The entry for the fallbacks in the options of a host. Options that are not given have no
entries; options that are no table have no meaning, and their kind is what is told of them. -/
def fallbacks : Setting → Except String Setting
  | null => .ok null
  | table fields => .ok ((fields.lookup "fallbacks").getD null)
  | entry _ => .error "posix.DirEntry"
  | other => .error other.kind

end Setting

def Complaint.message : Complaint → String
  | .notAList kind =>
      "Fallbacks must be an array of file paths, got " ++ kind ++ "; no fallbacks will be added"
  | .notAPath index kind =>
      "Ignoring fallback entry " ++ toString index ++ ": expected a file path, got " ++ kind

end CustomProperties
