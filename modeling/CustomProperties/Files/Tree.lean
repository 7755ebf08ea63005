import CustomProperties.Files.Path

/-!
Trees of files, with a working directory. An entry is found by its components from the root. Links
lead to other entries wherever they stand within a path, and two dots go up from where the links
have led. Only so many links are followed.
-/

namespace CustomProperties

/-- What stands at a place. The modification time and the size of a directory are its own; those of
a file follow its content. -/
inductive Entry where
  | file (content : ByteArray) (modified : Int)
  | folder (modified : Int) (size : Nat)
  | link (target : String)

namespace Entry

def directory : Entry := .folder 0 4096

def modified : Entry → Int
  | file _ modified => modified
  | folder modified _ => modified
  | link _ => 0

def size : Entry → Nat
  | file content _ => content.size
  | folder _ size => size
  | link target => target.utf8ByteSize

def content? : Entry → Option ByteArray
  | file content _ => some content
  | _ => none

end Entry

inductive SystemError where
  | missing
  | notDirectory
  | isDirectory
  | nameTooLong
  | tooManyLinks
deriving DecidableEq, Repr

namespace SystemError

def number : SystemError → Nat
  | missing => 2
  | notDirectory => 20
  | isDirectory => 21
  | nameTooLong => 36
  | tooManyLinks => 40

def text : SystemError → String
  | missing => "No such file or directory"
  | notDirectory => "Not a directory"
  | isDirectory => "Is a directory"
  | nameTooLong => "File name too long"
  | tooManyLinks => "Too many levels of symbolic links"

end SystemError

/-- The root is a directory without an entry of its own. -/
structure FileTree where
  entries : List (List String × Entry)
  current : List String

namespace FileTree

def maxLinks : Nat := 40

def maxNameBytes : Nat := 255

def maxPathBytes : Nat := 4095

def entry? (t : FileTree) (place : List String) : Option Entry :=
  if place = [] then some .directory else t.entries.lookup place

inductive Halt where
  | failed (e : SystemError)
  | found (place : List String) (e : Entry)
  /-- Nothing stands at the end of the path, in a directory that is there. -/
  | vacant (place : List String)
  /-- A link, with the directory it stands in and what of the path is left. -/
  | link (here : List String) (target : String) (rest : List String)

def directoryAt (t : FileTree) (place : List String) : Entry :=
  match t.entry? place with
  | some (.folder modified size) => .folder modified size
  | _ => .directory

/-- Where a path leads from a directory without following a link. -/
def advance (t : FileTree) (here : List String) : List String → Halt
  | [] => .found here (t.directoryAt here)
  | part :: rest =>
      if part = "." then advance t here rest
      else if part = ".." then advance t here.dropLast rest
      else if maxNameBytes < part.utf8ByteSize then .failed .nameTooLong
      else
        match t.entry? (here ++ [part]) with
        | none => if rest = [] then .vacant (here ++ [part]) else .failed .missing
        | some (.folder ..) => advance t (here ++ [part]) rest
        | some (.file content modified) =>
            if rest = [] then .found (here ++ [part]) (.file content modified)
            else .failed .notDirectory
        | some (.link target) => .link here target rest

def linkOrigin (here : List String) (target : String) : List String :=
  if (Path.ofString target).isAbsolute then [] else here

/-- The components of a text that names an entry. A text that ends like the name of a directory
names nothing else, which a single dot at the end stands for. -/
def namedParts (s : String) : List String :=
  Path.components s ++ if s.endsWith "/" || s.endsWith "/." then ["."] else []

/-- Where a path leads from a directory, with `links` more links to follow, and what stands there. -/
def follow (t : FileTree) (links : Nat) (here parts : List String) :
    Except SystemError (List String × Option Entry) :=
  match t.advance here parts with
  | .failed e => .error e
  | .found place e => .ok (place, some e)
  | .vacant place => .ok (place, none)
  | .link here target rest =>
      match links with
      | 0 => .error .tooManyLinks
      | links + 1 => follow t links (linkOrigin here target) (namedParts target ++ rest)

def walk (t : FileTree) (links : Nat) (here parts : List String) :
    Except SystemError (List String × Entry) :=
  match t.follow links here parts with
  | .error e => .error e
  | .ok (_, none) => .error .missing
  | .ok (place, some e) => .ok (place, e)

def origin (t : FileTree) (p : Path) : List String := if p.isAbsolute then [] else t.current

def find (t : FileTree) (p : Path) : Except SystemError Entry :=
  if maxPathBytes < p.toString.utf8ByteSize then .error .nameTooLong
  else (walk t maxLinks (t.origin p) p.parts).map Prod.snd

/-- The entry that a text names. The empty text names none. -/
def findText (t : FileTree) (s : String) : Except SystemError Entry :=
  if s.isEmpty then .error .missing
  else if maxPathBytes < s.utf8ByteSize then .error .nameTooLong
  else (walk t maxLinks (t.origin (.ofString s)) (namedParts s)).map Prod.snd

def read (t : FileTree) (p : Path) : Except SystemError (ByteArray × Int) :=
  match t.find p with
  | .error e => .error e
  | .ok (.file content modified) => .ok (content, modified)
  | .ok _ => .error .isDirectory

/-- Where a path leads when links are followed and entries may be missing, and whether no link runs in
a circle. `followed` are the links that are being followed; the number is one more than how many may
still be. A link that leads back to itself is left as it is, and so is all that stands behind it. -/
def canonicalParts (t : FileTree) :
    Nat → List (List String) → List String → List String → List String × Bool
  | 0, _, here, parts => (here ++ parts, false)
  | depth + 1, followed, here, parts =>
      parts.foldl
        (fun (here, straight) part =>
          if !straight then (here ++ [part], false)
          else if part = ".." then (here.dropLast, true)
          else
            match t.entry? (here ++ [part]) with
            | some (.link target) =>
                if followed.contains (here ++ [part]) then (here ++ [part], false)
                else
                  canonicalParts t depth ((here ++ [part]) :: followed) (linkOrigin here target)
                    (Path.components target)
            | _ => (here ++ [part], true))
        (here, true)

/-- The place that a path leads to from a directory, as far as its links do not run in circles. They
are followed however many there are. -/
def placeOf (t : FileTree) (here parts : List String) : List String :=
  (canonicalParts t (t.entries.length + 1) [] here parts).1

/-- The absolute path without links and double dots. Double dots behind a link that runs in a circle
take away what stands before them. -/
def canonical (t : FileTree) (p : Path) : Path :=
  ⟨"/", (t.placeOf (t.origin p) p.parts).foldl
    (fun here part => if part = ".." then here.dropLast else here ++ [part]) []⟩

def set (t : FileTree) (place : List String) (e : Entry) : FileTree :=
  { t with entries := t.entries.filter (·.1 != place) ++ [(place, e)] }

def erase (t : FileTree) (place : List String) : FileTree :=
  { t with entries := t.entries.filter fun e => !place.isPrefixOf e.1 }

/-- Write a file. Its directory has to be there; a file that is there is replaced. -/
def write (t : FileTree) (p : Path) (content : ByteArray) (modified : Int) :
    Except SystemError FileTree :=
  if maxPathBytes < p.toString.utf8ByteSize then .error .nameTooLong
  else
    match t.follow maxLinks (t.origin p) p.parts with
    | .error e => .error e
    | .ok (_, some (.folder ..)) => .error .isDirectory
    | .ok (place, _) => .ok (t.set place (.file content modified))

def content? (t : FileTree) (place : List String) : Option ByteArray :=
  match t.entry? place with
  | some (.file content _) => some content
  | _ => none

def changes (earlier t : FileTree) : List (List String × ByteArray) :=
  t.entries.filterMap fun (place, e) =>
    match e with
    | .file content _ =>
        if (earlier.content? place).map ByteArray.toList = some content.toList then none
        else some (place, content)
    | _ => none

end FileTree

end CustomProperties
