import CustomProperties.Cli.Page
import CustomProperties.Run.Process
import CustomProperties.Text.Control

/-!
The program as it is called from a command line. What it prints, the status it ends with and the
files it leaves follow from its arguments and the files it finds.
-/

namespace CustomProperties.Cli

inductive Crash where
  | run (cause : RunError)
  | unwritable (path : String) (cause : SystemError)
deriving DecidableEq, Repr

structure Outcome where
  status : Nat
  out : String
  err : String
  crash : Option Crash
  files : FileTree

/-- What is printed of a text, which need not be for a terminal. -/
def printed (s : String) : String := String.ofList (Text.withoutControls s.toList)

def Crash.message : Crash → String
  | .run cause => cause.message
  | .unwritable path cause => cause.message path

namespace Outcome

def shown (t : FileTree) (text : String) : Outcome := ⟨0, text, "", none, t⟩

def misused (t : FileTree) (p : Page) (m : Misuse) : Outcome :=
  ⟨2, "", printed (m.message p), none, t⟩

def crashed (t : FileTree) (err : String) (c : Crash) : Outcome := ⟨1, "", err, some c, t⟩

end Outcome

/-- Why a command does not start: it has something to show instead, it was called in a wrong way,
or a path holds what no path can. -/
inductive Refusal where
  | shows (text : String)
  | misuse (m : Misuse)
  | badPath (fault : PathFault)

def Refusal.outcome (t : FileTree) (p : Page) : Refusal → Outcome
  | shows text => .shown t text
  | misuse m => .misused t p m
  | badPath fault => .crashed t "" (.run (.badPath fault))

def shows? (p : Page) (a : Arguments) : Option String :=
  a.options.findSome? fun (name, _) =>
    match name with
    | .version => some versionLine
    | .help => some p.help
    | _ => none

/-- Read the arguments of a page. What is to be shown goes before everything but a misuse of the
options. -/
def start (p : Page) (mixed : Bool) (args : List String) : Except Refusal Arguments :=
  match readArguments p.options mixed args with
  | .error e => .error (.misuse (.argument e))
  | .ok a =>
      match shows? p a with
      | some text => .error (.shows text)
      | none => .ok a

def entryAt (t : FileTree) (path : String) : Except Refusal (Except SystemError Entry) :=
  if (Path.ofString path).hasNul then .error (.badPath .zeroCharacter) else .ok (t.findText path)

def checkFile (t : FileTree) (wanted : Bool) (parameter path : String) : Except Refusal Unit := do
  match ← entryAt t path with
  | .error _ =>
      if wanted then throw (.misuse (.badEntry parameter "File" path "does not exist"))
  | .ok (.folder ..) => throw (.misuse (.badEntry parameter "File" path "is a directory"))
  | .ok _ => return

def checkDirectory (t : FileTree) (parameter path : String) : Except Refusal Unit := do
  match ← entryAt t path with
  | .error _ => throw (.misuse (.badEntry parameter "Directory" path "does not exist"))
  | .ok (.folder ..) => return
  | .ok _ => throw (.misuse (.badEntry parameter "Directory" path "is a file"))

def checkExtra (operands : List String) : Except Refusal Unit :=
  if operands.isEmpty then .ok () else .error (.misuse (.extra operands))

/-- The lines that tell of an event: the note, if it is wanted, and the warning, which is noted down
too if notes are wanted. -/
def eventLines (verbose : Bool) (source : Option String) (e : Event) : String :=
  let note :=
    match e.note? with
    | some note => if verbose then note.channel ++ ": " ++ note.message ++ "\n" else ""
    | none => ""
  let warning :=
    match e.diagnostic? source with
    | some d => (if verbose then "var_fallback: " ++ d.render ++ "\n" else "") ++
        printed (d.render ++ "\n")
    | none => ""
  note ++ warning

structure ProcessCall where
  target : String
  fallbacks : List String
  output : Option String
  verbose : Bool

def readProcessCall (t : FileTree) (args : List String) : Except Refusal ProcessCall := do
  let a ← start .process true args
  let output := a.value? .output
  match output with
  | some path => checkFile t false "'-o' / '--output'" path
  | none => pure ()
  match a.operands with
  | [] => throw (.misuse .missingArgument)
  | target :: rest =>
      checkFile t true "'TARGET'" target
      checkExtra rest
      return ⟨target, a.values .fallback, output.filter (!·.isEmpty), a.has .verbose⟩

def process (t : FileTree) (call : ProcessCall) : Outcome :=
  let target := (Path.ofString call.target).toString
  let options := Setting.table [("fallbacks", .list (call.fallbacks.map .text))]
  let run := Loader.empty.processFile t target options
  let err := String.join (run.events.map (eventLines call.verbose (some target)))
  match run.outcome with
  | .error (.malformed cause) =>
      { status := 1, out := "", err := err ++ printed ("Parse error: " ++ cause.message ++ "\n")
        crash := none, files := t }
  | .error cause => .crashed t err (.run cause)
  | .ok sheet =>
      match call.output with
      | none =>
          { status := 0, out := printed (String.ofList sheet.toCss), err
            crash := none, files := t }
      | some output =>
          let p := Path.ofString output
          match t.write p (Utf8.encode sheet.toCss) 0 with
          | .error cause => .crashed t err (.unwritable p.toString cause)
          | .ok files =>
              { status := 0, out := "", err := err ++ printed ("Wrote " ++ output ++ "\n")
                crash := none, files }

structure InspectCall where
  fallbacks : List String
  base : Option String

def readInspectCall (t : FileTree) (args : List String) : Except Refusal InspectCall := do
  let a ← start .inspect true args
  let base := a.value? .base
  match base with
  | some path => checkDirectory t "'--base'" path
  | none => pure ()
  if !a.has .fallback then throw (.misuse .missingOption)
  checkExtra a.operands
  return ⟨a.values .fallback, base⟩

/-- The line of a variable: its raw value, and the mark of a circular variable or the computed value
if it is another one. -/
def variableLine (circular : List Text) (name raw : Text) (resolved : Option Text) : Text :=
  let line := ' ' :: ' ' :: name ++ ':' :: ' ' :: raw
  if name ∈ circular then line ++ "  (circular)".toList
  else
    match resolved with
    | none => line
    | some value => if value = raw then line else line ++ "  -> ".toList ++ value

def variableLines (r : Resolver) : List (Text × Text) → Text
  | [] => []
  | (name, raw) :: rest =>
      let (resolved, after) := if r.isCircular name then (none, r) else r.resolve name
      variableLine r.circular name raw resolved ++ '\n' :: variableLines after rest

def inspect (t : FileTree) (call : InspectCall) : Outcome :=
  let step := Loader.empty.merge t call.fallbacks call.base
  match step.outcome with
  | .error fault => .crashed t "" (.run (.badPath fault))
  | .ok v =>
      let circular := v.circular
      let warnings := Event.diagnostics none (step.events ++ Event.ofCircular circular)
      let out :=
        "Sources:   " ++ toString call.fallbacks.length ++ "\n" ++
          "Variables: " ++ toString v.size ++ "\n" ++
          "Circular:  " ++ toString circular.length ++ "\n\n" ++
          String.ofList (variableLines (.ofCircular v circular) v.entries) ++
          (if warnings.isEmpty then "" else "\n")
      { status := 0, out := printed out
        err := printed (String.join (warnings.map fun d => d.render ++ "\n"))
        crash := none, files := t }

def runProcess (t : FileTree) (args : List String) : Outcome :=
  match readProcessCall t args with
  | .error refusal => refusal.outcome t .process
  | .ok call => process t call

def runInspect (t : FileTree) (args : List String) : Outcome :=
  match readInspectCall t args with
  | .error refusal => refusal.outcome t .inspect
  | .ok call => inspect t call

/-- The command that some arguments name. Options behind two dashes are looked at once more before
a command is found to be unknown. -/
def runCommand (t : FileTree) : List String → Outcome
  | [] => .misused t .program .missingCommand
  | "process" :: args => runProcess t args
  | "inspect" :: args => runInspect t args
  | name :: args =>
      match start .program false (name :: args) with
      | .error refusal => refusal.outcome t .program
      | .ok _ => .misused t .program (.unknownCommand name (meantFor name commands))

/-- Run the program. Without arguments it shows its help as an error. -/
def run (t : FileTree) (args : List String) : Outcome :=
  if args.isEmpty then ⟨2, "", Page.program.help, none, t⟩
  else
    match start .program false args with
    | .error refusal => refusal.outcome t .program
    | .ok a => runCommand t a.operands

end CustomProperties.Cli
