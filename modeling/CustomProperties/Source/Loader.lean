import CustomProperties.Text.Newline
import CustomProperties.Text.Utf8
import CustomProperties.Files.Tree
import CustomProperties.Sheet.Basic

/-!
Loading stylesheets from files. A loader keeps every stylesheet that it has read under the path,
the modification time and the size of its file, and reads a file again only when one of them has
changed. What cannot be loaded is not kept.
-/

namespace CustomProperties

inductive ReadError where
  | system (cause : SystemError)
  | encoding (fault : Utf8.Fault)
deriving DecidableEq, Repr

inductive LoadFailure where
  | inaccessible (path : String) (cause : SystemError)
  | unreadable (path : String) (cause : ReadError)
  | malformed (path : String) (cause : ParseError)
deriving DecidableEq, Repr

/-- Why a source has no path: a zero character stands in it, which no system takes for a part of a
name, or a link that leads back to itself; or it is named by bytes. -/
inductive PathFault where
  | zeroCharacter
  | linkLoop (path : String)
  | bytesName
deriving DecidableEq, Repr

def PathFault.message : PathFault → String
  | .zeroCharacter => "embedded null byte"
  | .linkLoop path => "Symlink loop from " ++ String.ofList (Text.quoted path.toList)
  | .bytesName =>
      "argument should be a str object or an os.PathLike object returning str, not <class 'bytes'>"

def SystemError.message (e : SystemError) (path : String) : String :=
  "[Errno " ++ toString e.number ++ "] " ++ e.text ++ ": " ++
    String.ofList (Text.quoted path.toList)

def ReadError.message (path : String) : ReadError → String
  | .system cause => cause.message path
  | .encoding fault => fault.message

namespace LoadFailure

def message : LoadFailure → String
  | inaccessible path cause => "cannot access " ++ path ++ ": " ++ cause.text
  | unreadable path cause => "cannot read " ++ path ++ ": " ++ cause.message path
  | malformed path cause => "cannot parse " ++ path ++ ": " ++ cause.message

def position : LoadFailure → Option Position
  | malformed _ cause => some cause.position
  | _ => none

end LoadFailure

def FileTree.readText (t : FileTree) (p : Path) : Except ReadError Text :=
  match t.read p with
  | .error e => .error (.system e)
  | .ok (content, _) =>
      match Utf8.decode content with
      | .error fault => .error (.encoding fault)
      | .ok text => .ok (Text.unifyLineEnds text)

/-- The version of what a path leads to: where it is, when it was modified and how many bytes it
has. -/
structure Version where
  path : String
  modified : Int
  size : Nat
deriving DecidableEq, Repr

structure Loader where
  kept : List (Version × Stylesheet)

/-- A stylesheet that was loaded, and whether the loader had kept it. -/
structure Loaded where
  version : Version
  sheet : Stylesheet
  reused : Bool

namespace Loader

def empty : Loader := ⟨[]⟩

def size (l : Loader) : Nat := l.kept.length

def kept? (l : Loader) (v : Version) : Option Stylesheet := l.kept.lookup v

def keep (l : Loader) (v : Version) (s : Stylesheet) : Loader := ⟨(v, s) :: l.kept⟩

/-- The path of a source: an absolute one as it is, another one taken from the base directory, or
from the working directory, and made canonical, which links that run in circles do not allow. -/
def locate (t : FileTree) (source : String) (base : Option String) : Except PathFault Path :=
  let path := Path.ofString source
  if path.isAbsolute then .ok path
  else
    let path := path.under (.ofString (base.getD ""))
    if path.hasNul then .error .zeroCharacter
    else
      let path := t.canonical path
      match t.find path with
      | .error .tooManyLinks => .error (.linkLoop path.toString)
      | _ => .ok path

def readSheet (t : FileTree) (path : Path) : Except LoadFailure Stylesheet :=
  match t.readText path with
  | .error e => .error (.unreadable path.toString e)
  | .ok text => (Stylesheet.parse text).mapError (.malformed path.toString)

def loadPath (l : Loader) (t : FileTree) (path : Path) : Except LoadFailure Loaded × Loader :=
  match t.find path with
  | .error e => (.error (.inaccessible path.toString e), l)
  | .ok entry =>
      let version : Version := ⟨path.toString, entry.modified, entry.size⟩
      match l.kept? version with
      | some sheet => (.ok ⟨version, sheet, true⟩, l)
      | none =>
          match readSheet t path with
          | .error e => (.error e, l)
          | .ok sheet => (.ok ⟨version, sheet, false⟩, l.keep version sheet)

def load (l : Loader) (t : FileTree) (source : String) (base : Option String) :
    Except PathFault (Except LoadFailure Loaded) × Loader :=
  match locate t source base with
  | .error e => (.error e, l)
  | .ok path =>
      if path.hasNul then (.error .zeroCharacter, l)
      else
        let (loaded, l) := l.loadPath t path
        (.ok loaded, l)

end Loader

end CustomProperties
