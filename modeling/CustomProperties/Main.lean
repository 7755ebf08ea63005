import CustomProperties.Cli.Run

/-!
The program on real files. It takes a snapshot of the entries that its arguments may lead to, runs
on the snapshot, prints what that came to and writes the files that have changed.
-/

namespace CustomProperties.Cli

def placeText (place : List String) : String := "/" ++ "/".intercalate place

/-- What stands at a place. A path that leads elsewhere is a link. -/
def readEntry (place : List String) : IO Entry := do
  let text := placeText place
  let real ← IO.FS.realPath text
  if real.toString != text then return .link real.toString
  if ← real.isDir then return .directory
  return .file (← IO.FS.readBinFile text) 0

def snapshotEntry (t : FileTree) (place : List String) : IO FileTree := do
  if (t.entry? place).isSome then return t
  try
    return t.set place (← readEntry place)
  catch _ => return t

def snapshotPath (t : FileTree) (links : Nat) (here : List String) : List String → IO FileTree
  | [] => return t
  | part :: rest =>
      if part = ".." then snapshotPath t links here.dropLast rest
      else do
        let t ← snapshotEntry t (here ++ [part])
        match links, t.entry? (here ++ [part]) with
        | links + 1, some (.link target) =>
            snapshotPath t links [] ((Path.ofString target).parts ++ rest)
        | links, _ => snapshotPath t links (here ++ [part]) rest
termination_by parts => (links, parts.length)

/-- The texts in an argument that may be paths: all of it, what stands behind a short option, and
what stands behind an equals sign. -/
def pathTexts (argument : String) : List String :=
  [argument, String.ofList (argument.toList.drop 2)] ++ (splitValue argument).2.toList

def argumentPaths (args : List String) : List Path :=
  let paths := (args.flatMap pathTexts).map Path.ofString
  let bases := paths ++ paths.map Path.parent
  paths ++ bases.flatMap fun base => paths.map (·.under base)

def snapshot (args : List String) : IO FileTree := do
  let current := (Path.ofString (← IO.currentDir).toString).parts
  let mut t : FileTree := ⟨[], current⟩
  t ← snapshotPath t FileTree.maxLinks [] current
  for p in argumentPaths args do
    if !p.hasNul then t ← snapshotPath t FileTree.maxLinks (t.origin p) p.parts
  return t

end CustomProperties.Cli

open CustomProperties in
def main (args : List String) : IO UInt32 := do
  let t ← Cli.snapshot args
  let outcome := Cli.run t args
  IO.print outcome.out
  IO.eprint outcome.err
  match outcome.crash with
  | some crash => IO.eprintln crash.message
  | none => pure ()
  for (place, content) in FileTree.changes t outcome.files do
    IO.FS.writeBinFile (Cli.placeText place) content
  return UInt32.ofNat outcome.status
